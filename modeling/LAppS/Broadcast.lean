import Mathlib.Data.List.Count
import Mathlib.Data.List.Induction
import Mathlib.Data.List.Lattice

/-!
A broadcast channel. Subscriptions and unsubscriptions go to two lists, and the next broadcast takes one
subscription away for every unsubscription, whatever the order in which they were made.
-/

namespace LAppS

variable {η μ : Type} [DecidableEq η]

structure Broadcast (η : Type) where
  mSubscribers : List η
  mUnsubscribers : List η

namespace Broadcast

inductive Call (η μ : Type) where
  | subscribe (handler : η)
  | unsubscribe (handler : η)
  | bcast (msg : μ)

def new : Broadcast η := ⟨[], []⟩

def purge (channel : Broadcast η) : Broadcast η :=
  ⟨channel.mUnsubscribers.foldl List.erase channel.mSubscribers, []⟩

def subscribe (channel : Broadcast η) (handler : η) : Broadcast η :=
  { channel with mSubscribers := handler :: channel.mSubscribers }

def unsubscribe (channel : Broadcast η) (handler : η) : Broadcast η :=
  { channel with mUnsubscribers := handler :: channel.mUnsubscribers }

def bcast (channel : Broadcast η) (msg : μ) : Broadcast η × List (η × μ) :=
  (channel.purge, channel.purge.mSubscribers.map fun handler => (handler, msg))

def call (channel : Broadcast η) : Call η μ → Broadcast η
  | .subscribe handler => channel.subscribe handler
  | .unsubscribe handler => channel.unsubscribe handler
  | .bcast msg => (channel.bcast msg).1

def after (calls : List (Call η μ)) : Broadcast η := calls.foldl call new

/-! ### What a broadcast is for -/

def Call.isBcast : Call η μ → Bool
  | .bcast _ => true
  | _ => false

def Call.subscribes (handler : η) : Call η μ → Bool
  | .subscribe h => h = handler
  | _ => false

def Call.unsubscribes (handler : η) : Call η μ → Bool
  | .unsubscribe h => h = handler
  | _ => false

/-- The last call for the handler that subscribes or unsubscribes is a subscription. -/
def subscribed (calls : List (Call η μ)) (handler : η) : Bool :=
  calls.foldl (fun is c => c.subscribes handler || is && !c.unsubscribes handler) false

/-- Every broadcast is sent once to each subscriber and to nobody else. -/
def ReachesSubscribers (calls : List (Call η μ)) : Prop :=
  ∀ before msg later, calls = before ++ .bcast msg :: later → ∀ handler,
    ((after before).bcast msg).2.filter (fun sent => sent.1 = handler) =
      if subscribed before handler then [(handler, msg)] else []

def EndsWithBcast (calls : List (Call η μ)) : Prop := calls = [] ∨ ∃ before msg, calls = before ++ [.bcast msg]

/-- Since the last broadcast a handler that is subscribed now has subscribed once more than unsubscribed, and
another one not more often; being subscribed at the last broadcast counts as one. -/
def Balanced (calls : List (Call η μ)) : Prop :=
  ∀ early pending msg later, calls = early ++ pending ++ .bcast msg :: later → EndsWithBcast early →
    (∀ c ∈ pending, c.isBcast = false) → ∀ handler,
      if subscribed (early ++ pending) handler then
        (subscribed early handler).toNat + pending.countP (Call.subscribes handler) =
          pending.countP (Call.unsubscribes handler) + 1
      else
        (subscribed early handler).toNat + pending.countP (Call.subscribes handler) ≤
          pending.countP (Call.unsubscribes handler)

/-! ### Counting -/

theorem after_append (xs ys : List (Call η μ)) : after (xs ++ ys) = ys.foldl call (after xs) := List.foldl_append ..

theorem purge_count (channel : Broadcast η) (handler : η) :
    channel.purge.mSubscribers.count handler =
      channel.mSubscribers.count handler - channel.mUnsubscribers.count handler := by
  rw [purge, ← List.diff_eq_foldl, List.count_diff]

theorem pending_count (channel : Broadcast η) {pending : List (Call η μ)} (quiet : ∀ c ∈ pending, c.isBcast = false)
    (handler : η) :
    (pending.foldl call channel).mSubscribers.count handler =
        channel.mSubscribers.count handler + pending.countP (Call.subscribes handler) ∧
      (pending.foldl call channel).mUnsubscribers.count handler =
        channel.mUnsubscribers.count handler + pending.countP (Call.unsubscribes handler) := by
  induction pending generalizing channel with
  | nil => exact ⟨rfl, rfl⟩
  | cons c pending ih =>
    obtain ⟨notBcast, quiet⟩ := List.forall_mem_cons.mp quiet
    obtain ⟨subs, unsubs⟩ := ih (channel.call c) quiet
    rw [List.foldl_cons, subs, unsubs, List.countP_cons, List.countP_cons]
    cases c with
    | subscribe h =>
      simp only [call, subscribe, List.count_cons, Call.subscribes, Call.unsubscribes, beq_iff_eq, decide_eq_true_eq]
      exact ⟨by omega, by simp⟩
    | unsubscribe h =>
      simp only [call, unsubscribe, List.count_cons, Call.subscribes, Call.unsubscribes, beq_iff_eq, decide_eq_true_eq]
      exact ⟨by simp, by omega⟩
    | bcast msg => exact absurd notBcast (by simp [Call.isBcast])

theorem sent_filter (channel : Broadcast η) (msg : μ) (handler : η) :
    (channel.bcast msg).2.filter (fun sent => sent.1 = handler) =
      List.replicate (channel.purge.mSubscribers.count handler) (handler, msg) := by
  rw [bcast, List.filter_map]
  have same : ((fun sent : η × μ => decide (sent.1 = handler)) ∘ fun h => (h, msg)) = fun h => h == handler := rfl
  rw [same, List.filter_beq, List.map_replicate]

theorem subscribed_bcast (calls : List (Call η μ)) (msg : μ) (handler : η) :
    subscribed (calls ++ [.bcast msg]) handler = subscribed calls handler := by
  rw [subscribed, List.foldl_append]
  simp [subscribed, Call.subscribes, Call.unsubscribes]

omit [DecidableEq η] in
/-- The calls before a broadcast, cut behind the broadcast before it. -/
theorem exists_pending (calls : List (Call η μ)) :
    ∃ early pending, calls = early ++ pending ∧ EndsWithBcast early ∧ ∀ c ∈ pending, c.isBcast = false := by
  induction calls using List.reverseRecOn with
  | nil => exact ⟨[], [], rfl, .inl rfl, by simp⟩
  | append_singleton calls c ih =>
    obtain ⟨early, pending, rfl, ends, quiet⟩ := ih
    cases hc : c.isBcast with
    | true =>
      cases c with
      | bcast msg => exact ⟨early ++ pending ++ [.bcast msg], [], by simp, .inr ⟨_, _, rfl⟩, by simp⟩
      | subscribe h => exact absurd hc (by simp [Call.isBcast])
      | unsubscribe h => exact absurd hc (by simp [Call.isBcast])
    | false =>
      refine ⟨early, pending ++ [c], by simp, ends, ?_⟩
      intro x hx
      rcases List.mem_append.mp hx with hx | hx
      · exact quiet x hx
      · exact List.mem_singleton.mp hx ▸ hc

/-! ### Broadcasts in a sequence of calls -/

section Sequence

variable {early pending later : List (Call η μ)} {msg : μ}

/-- A handler is once in the list behind a broadcast that has reached the subscribers, if it is one of them. -/
theorem count_early (reaches : ReachesSubscribers early) (ends : EndsWithBcast early) (handler : η) :
    (after early).mSubscribers.count handler = (subscribed early handler).toNat ∧
      (after early).mUnsubscribers = [] := by
  rcases ends with rfl | ⟨before, m, rfl⟩
  · exact ⟨rfl, rfl⟩
  · have sent := reaches before m [] rfl handler
    rw [sent_filter] at sent
    rw [after_append, subscribed_bcast]
    refine ⟨?_, rfl⟩
    show (after before).purge.mSubscribers.count handler = _
    have length := congrArg List.length sent
    rw [List.length_replicate] at length
    rw [length]
    cases subscribed before handler <;> rfl

/-- One broadcast, where the one before it has reached the subscribers. -/
theorem reaches_iff (reaches : ReachesSubscribers early) (ends : EndsWithBcast early) (quiet : ∀ c ∈ pending, c.isBcast = false) (handler : η) :
    (((after (early ++ pending)).bcast msg).2.filter (fun sent => sent.1 = handler) =
        if subscribed (early ++ pending) handler then [(handler, msg)] else []) ↔
      if subscribed (early ++ pending) handler then
        (subscribed early handler).toNat + pending.countP (Call.subscribes handler) =
          pending.countP (Call.unsubscribes handler) + 1
      else
        (subscribed early handler).toNat + pending.countP (Call.subscribes handler) ≤
          pending.countP (Call.unsubscribes handler) := by
  obtain ⟨subs, unsubs⟩ := count_early reaches ends handler
  obtain ⟨subs', unsubs'⟩ := pending_count (after early) quiet handler
  rw [subs] at subs'
  rw [unsubs, List.count_nil, Nat.zero_add] at unsubs'
  rw [sent_filter, purge_count, after_append, subs', unsubs']
  have one : ∀ n, List.replicate n (handler, msg) = [(handler, msg)] ↔ n = 1 := fun n => by
    rw [← List.replicate_one, List.replicate_left_inj]
  split
  · rw [one]
    omega
  · rw [List.replicate_eq_nil_iff]
    omega

end Sequence

/-- Every broadcast reaches exactly the subscribers, once, exactly when the calls are balanced. -/
theorem reaches_subscribers_iff (calls : List (Call η μ)) : ReachesSubscribers calls ↔ Balanced calls := by
  constructor
  · intro reaches early pending msg later split ends quiet handler
    refine (reaches_iff (fun before m rest hearly => ?_) ends quiet handler).mp
      (reaches (early ++ pending) msg later split handler)
    exact reaches before m (rest ++ pending ++ .bcast msg :: later) (by rw [split, hearly]; simp)
  · intro balanced before
    -- by the number of the calls before the broadcast
    induction hn : before.length using Nat.strongRecOn generalizing before with
    | ind n ih =>
      intro msg later split handler
      obtain ⟨early, pending, rfl, ends, quiet⟩ := exists_pending before
      refine (reaches_iff (fun before m rest hearly => ?_) ends quiet handler).mpr
        (balanced early pending msg later split ends quiet handler)
      have shorter : before.length < n := by
        rw [← hn, hearly]
        simp only [List.length_append, List.length_cons]
        omega
      exact ih before.length shorter before rfl m (rest ++ pending ++ .bcast msg :: later)
        (by rw [split, hearly]; simp)

/-- An unsubscription that was made before the subscription takes it away. A second subscription sends twice. -/
theorem reaches_subscribers_counterexample :
    (¬ReachesSubscribers [(.unsubscribe 1 : Call Nat String), .subscribe 1, .bcast "m"] ∧
      ((after [(.unsubscribe 1 : Call Nat String), .subscribe 1]).bcast "m").2 = []) ∧
    ¬ReachesSubscribers [(.subscribe 1 : Call Nat String), .subscribe 1, .bcast "m"] ∧
      ((after [(.subscribe 1 : Call Nat String), .subscribe 1]).bcast "m").2 = [(1, "m"), (1, "m")] := by
  refine ⟨⟨fun reaches => ?_, by decide⟩, fun reaches => ?_, by decide⟩
  · exact absurd (reaches [.unsubscribe 1, .subscribe 1] "m" [] rfl 1) (by decide)
  · exact absurd (reaches [.subscribe 1, .subscribe 1] "m" [] rfl 1) (by decide)

end Broadcast
end LAppS
