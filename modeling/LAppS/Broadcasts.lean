import LAppS.Broadcast
import LAppS.LAppSMessages
import LAppS.Transition.Runs
import Mathlib.Logic.Function.Basic

/-!
# Broadcast channels of several threads

The module `bcast` finds a channel in a cache of its thread, and in the registry if it is not there. A channel has one mutex
for its subscribers, which is held while a message is sent to them, and one for the unsubscriptions. Whatever the threads
do, the channels are as if the calls had been made one after the other.
-/

namespace LAppS

namespace Broadcast

variable {η μ : Type} [DecidableEq η]

/-- What a channel sends in a sequence of calls. -/
def sends (channel : Broadcast η) : List (Call η μ) → List (η × μ)
  | [] => []
  | .bcast msg :: calls => (channel.bcast msg).2 ++ (channel.bcast msg).1.sends calls
  | c :: calls => (channel.call c).sends calls

theorem sends_append (channel : Broadcast η) (xs ys : List (Call η μ)) :
    channel.sends (xs ++ ys) = channel.sends xs ++ (xs.foldl call channel).sends ys := by
  induction xs generalizing channel with
  | nil => rfl
  | cons c xs ih =>
    cases c with
    | bcast msg => rw [List.cons_append, sends, sends, ih, List.append_assoc]; rfl
    | subscribe handler => rw [List.cons_append, sends, sends, ih]; all_goals simp
    | unsubscribe handler => rw [List.cons_append, sends, sends, ih]; all_goals simp

end Broadcast

namespace Broadcasts
open Transition

variable {τ η : Type}

abbrev Call (η : Type) := Broadcast.Call η (List UInt8)

inductive Request (η : Type) where
  | create (bcastid : Nat)
  | send (bcastid : Nat) (message : Json)
  | subscribe (bcastid : Nat) (handler : η)
  | unsubscribe (bcastid : Nat) (handler : η)

/-- Where a thread is in a function of the module. -/
inductive Pc (η : Type) where
  | idle
  /-- The registry has the channel that is created. -/
  | created (bcastid : Nat)
  | calling (bcastid : Nat) (call : Call η)
  /-- `find_bcast` has returned. -/
  | found (bcastid addr : Nat) (call : Call η)
  /-- `bcast` has `sMutex`, before `purge`. -/
  | locked (bcastid addr : Nat) (msg : List UInt8)
  | sending (bcastid addr : Nat) (msg : List UInt8) (rest : List η)
  /-- There is an exception that nothing catches. -/
  | thrown

/-- A boolean, and a message after `false`. -/
abbrev Answer := Bool × Option String

/-- The registry, the channels by address and the caches; as history, what each thread has called with a channel that was
found, the calls in the order in which they took effect, and what was sent on each channel. -/
structure State (τ η : Type) where
  mBroadcasts : Nat → Option Nat
  made : Nat
  channels : Nat → Broadcast η
  sMutex : Nat → Option τ
  broadcasts : τ → Nat → Option Nat
  threads : τ → Pc η
  answers : τ → List Answer
  asked : τ → List (Nat × Call η)
  history : List (τ × Nat × Call η)
  sent : Nat → List (η × List UInt8)

inductive Action (τ η : Type) where
  | call (t : τ) (request : Request η)
  | run (t : τ)

namespace State

def start (τ η : Type) : State τ η :=
  { mBroadcasts := fun _ => none, made := 0, channels := fun _ => .new, sMutex := fun _ => none, broadcasts := fun _ _ => none,
    threads := fun _ => .idle, answers := fun _ => [], asked := fun _ => [], history := [], sent := fun _ => [] }

def create (s : State τ η) (bcastid : Nat) : State τ η :=
  match s.mBroadcasts bcastid with
  | some _ => s
  | none =>
    { s with
      mBroadcasts := Function.update s.mBroadcasts bcastid (some s.made)
      channels := Function.update s.channels s.made .new
      made := s.made + 1 }

variable [DecidableEq τ]

def goto (s : State τ η) (t : τ) (pc : Pc η) : State τ η := { s with threads := Function.update s.threads t pc }

def returns (s : State τ η) (t : τ) (answer : Answer) : State τ η :=
  { s with
    threads := Function.update s.threads t .idle
    answers := Function.update s.answers t (s.answers t ++ [answer]) }

/-- The cache after `find_bcast`, and the channel. -/
def findBcast (s : State τ η) (t : τ) (bcastid : Nat) : Option ((Nat → Option Nat) × Nat) :=
  match s.broadcasts t bcastid with
  | some addr => some (s.broadcasts t, addr)
  | none => (s.mBroadcasts bcastid).map fun addr => (Function.update (s.broadcasts t) bcastid (some addr), addr)

def caches (s : State τ η) (t : τ) (cache : Nat → Option Nat) : State τ η :=
  { s with broadcasts := Function.update s.broadcasts t cache }

/-- A call of the module; `frame` writes the message that `send` broadcasts. -/
def request (frame : Json → List UInt8) (s : State τ η) (t : τ) : Request η → State τ η
  | .create bcastid => (s.create bcastid).goto t (.created bcastid)
  | .send bcastid message =>
    if isLAppSBcastMessageValid message then s.goto t (.calling bcastid (.bcast (frame message))) else s.returns t (false, none)
  | .subscribe bcastid handler => s.goto t (.calling bcastid (.subscribe handler))
  | .unsubscribe bcastid handler => s.goto t (.calling bcastid (.unsubscribe handler))

variable [DecidableEq η]

/-- A call takes effect on the channel. -/
def apply (s : State τ η) (t : τ) (bcastid addr : Nat) (call : Call η) : State τ η :=
  { s with
    channels := Function.update s.channels addr ((s.channels addr).call call)
    history := s.history ++ [(t, bcastid, call)] }

def lock (s : State τ η) (addr : Nat) (holder : Option τ) : State τ η :=
  { s with sMutex := Function.update s.sMutex addr holder }

def send (s : State τ η) (bcastid : Nat) (handler : η) (msg : List UInt8) : State τ η :=
  { s with sent := Function.update s.sent bcastid (s.sent bcastid ++ [(handler, msg)]) }

/-- The next step of a thread. `uMutex` is free between the steps, as only `unsubscribe` and `purge` take it. -/
def run (s : State τ η) (t : τ) : Option (State τ η) :=
  match s.threads t with
  | .idle | .thrown => none
  | .created bcastid =>
    match s.findBcast t bcastid with
    | some (cache, _) => some ((s.caches t cache).returns t (true, none))
    | none => some (s.goto t .thrown)
  | .calling bcastid call =>
    match s.findBcast t bcastid with
    | some (cache, addr) =>
      some { (s.caches t cache).goto t (.found bcastid addr call) with
        asked := Function.update s.asked t (s.asked t ++ [(bcastid, call)]) }
    | none => some (s.returns t (false, some ("Broadcast with id " ++ toString bcastid ++ " is not found")))
  | .found bcastid addr (.unsubscribe handler) => some ((s.apply t bcastid addr (.unsubscribe handler)).returns t (true, none))
  | .found bcastid addr (.subscribe handler) =>
    if (s.sMutex addr).isNone then some ((s.apply t bcastid addr (.subscribe handler)).returns t (true, none)) else none
  | .found bcastid addr (.bcast msg) =>
    if (s.sMutex addr).isNone then some ((s.lock addr (some t)).goto t (.locked bcastid addr msg)) else none
  | .locked bcastid addr msg =>
    some ((s.apply t bcastid addr (.bcast msg)).goto t (.sending bcastid addr msg (s.channels addr).purge.mSubscribers))
  | .sending bcastid addr msg (handler :: rest) => some ((s.send bcastid handler msg).goto t (.sending bcastid addr msg rest))
  | .sending _ addr _ [] => some ((s.lock addr none).returns t (true, none))

def step (frame : Json → List UInt8) (s : State τ η) : Action τ η → Option (State τ η)
  | .call t request =>
    match s.threads t with
    | .idle => some (s.request frame t request)
    | _ => none
  | .run t => s.run t

/-! ### The calls one after the other -/

/-- The calls that took effect on a channel. -/
def callsOf (bcastid : Nat) (history : List (τ × Nat × Call η)) : List (Call η) :=
  history.filterMap fun e => if e.2.1 = bcastid then some e.2.2 else none

/-- The calls of a thread that took effect. -/
def callsBy (t : τ) (history : List (τ × Nat × Call η)) : List (Nat × Call η) :=
  history.filterMap fun e => if e.1 = t then some e.2 else none

end State

namespace Pc

/-- The channel whose `sMutex` is held. -/
def holds : Pc η → Option Nat
  | .locked _ addr _ | .sending _ addr _ _ => some addr
  | _ => none

/-- The call that has found its channel and has not taken effect. -/
def pending : Pc η → List (Nat × Call η)
  | .found bcastid _ call => [(bcastid, call)]
  | .locked bcastid _ msg => [(bcastid, .bcast msg)]
  | _ => []

def unsent : Pc η → List (η × List UInt8)
  | .sending _ _ msg rest => rest.map fun handler => (handler, msg)
  | _ => []

/-- The thread is at the channel that the registry has for its identifier. -/
def Placed (mBroadcasts : Nat → Option Nat) : Pc η → Prop
  | .created bcastid => (mBroadcasts bcastid).isSome
  | .found bcastid addr _ | .locked bcastid addr _ | .sending bcastid addr _ _ => mBroadcasts bcastid = some addr
  | .thrown => False
  | _ => True

theorem Placed.mono {pc : Pc η} {old new : Nat → Option Nat} (more : ∀ id a, old id = some a → new id = some a)
    (h : pc.Placed old) : pc.Placed new := by
  cases pc with
  | created id =>
    obtain ⟨a, known⟩ := Option.isSome_iff_exists.mp h
    exact Option.isSome_iff_exists.mpr ⟨a, more id a known⟩
  | found id a call => exact more id a h
  | locked id a msg => exact more id a h
  | sending id a msg rest => exact more id a h
  | idle => trivial
  | calling id call => trivial
  | thrown => exact h

theorem Placed.of_holds {pc : Pc η} {mBroadcasts : Nat → Option Nat} {a : Nat} (h : pc.Placed mBroadcasts)
    (held : pc.holds = some a) : ∃ id, mBroadcasts id = some a := by
  cases pc with
  | locked id b msg =>
    cases held
    exact ⟨id, h⟩
  | sending id b msg rest =>
    cases held
    exact ⟨id, h⟩
  | _ => cases held

/-- The identifier and the channel that `find_bcast` has returned for it. -/
def place : Pc η → Option (Nat × Nat)
  | .found bcastid addr _ | .locked bcastid addr _ | .sending bcastid addr _ _ => some (bcastid, addr)
  | _ => none

theorem Placed.of_place {pc : Pc η} {mBroadcasts : Nat → Option Nat} {id a : Nat} (h : pc.Placed mBroadcasts)
    (at_ : pc.place = some (id, a)) : mBroadcasts id = some a := by
  cases pc with
  | found _ _ _ =>
    cases at_
    exact h
  | locked _ _ _ =>
    cases at_
    exact h
  | sending _ _ _ _ =>
    cases at_
    exact h
  | _ => cases at_

end Pc

namespace State

/-- What the thread in `bcast` has still to send. -/
def unsent (s : State τ η) (addr : Nat) : List (η × List UInt8) :=
  match s.sMutex addr with
  | some t => (s.threads t).unsent
  | none => []

variable {s s' : State τ η} {t : τ}

theorem unsent_of_free {a : Nat} (free : s.sMutex a = none) : s.unsent a = [] := by rw [unsent, free]

theorem unsent_of_holder {a : Nat} (held : s.sMutex a = some t) : s.unsent a = (s.threads t).unsent := by rw [unsent, held]

/-- What is left to be sent on a channel, after a step of a thread that does not hold its mutex. -/
theorem unsent_of_other {a : Nat} (mutex : s'.sMutex a = s.sMutex a) (others : ∀ u, u ≠ t → s'.threads u = s.threads u)
    (other : s.sMutex a ≠ some t) : s'.unsent a = s.unsent a := by
  cases held : s.sMutex a with
  | none => rw [unsent_of_free held, unsent_of_free (mutex.trans held)]
  | some u =>
    rw [unsent_of_holder held, unsent_of_holder (mutex.trans held), others u]
    intro same
    exact other (same ▸ held)

section History

variable {history : List (τ × Nat × Call η)} {call : Call η} {id k : Nat} {u : τ}

theorem callsOf_self : callsOf id (history ++ [(t, id, call)]) = callsOf id history ++ [call] := by simp [callsOf]

theorem callsOf_other (other : k ≠ id) : callsOf k (history ++ [(t, id, call)]) = callsOf k history := by
  simp [callsOf, Ne.symm other]

variable [DecidableEq τ]

theorem callsBy_self : callsBy t (history ++ [(t, id, call)]) = callsBy t history ++ [(id, call)] := by simp [callsBy]

theorem callsBy_other (other : u ≠ t) : callsBy u (history ++ [(t, id, call)]) = callsBy u history := by
  simp [callsBy, Ne.symm other]

end History

theorem create_registers (s : State τ η) (id : Nat) : ((s.create id).mBroadcasts id).isSome := by
  unfold State.create
  cases known : s.mBroadcasts id with
  | some a => simp [known]
  | none => simp

theorem findBcast_of_registered (s : State τ η) (t : τ) {id : Nat} (known : (s.mBroadcasts id).isSome) :
    (s.findBcast t id).isSome := by
  unfold State.findBcast
  cases s.broadcasts t id with
  | some a => rfl
  | none => rwa [Option.isSome_map]

variable [DecidableEq τ] [DecidableEq η]

structure Inv (s : State τ η) : Prop where
  made : ∀ id a, s.mBroadcasts id = some a → a < s.made
  single : ∀ id id' a, s.mBroadcasts id = some a → s.mBroadcasts id' = some a → id = id'
  cached : ∀ t id a, s.broadcasts t id = some a → s.mBroadcasts id = some a
  placed : ∀ t, (s.threads t).Placed s.mBroadcasts
  locks : ∀ t a, s.sMutex a = some t ↔ (s.threads t).holds = some a
  unused : ∀ id, s.mBroadcasts id = none → callsOf id s.history = [] ∧ s.sent id = []
  channel : ∀ id a, s.mBroadcasts id = some a → s.channels a = Broadcast.after (callsOf id s.history)
  order : ∀ id a, s.mBroadcasts id = some a → s.sent id ++ s.unsent a = Broadcast.new.sends (callsOf id s.history)
  asked : ∀ t, s.asked t = callsBy t s.history ++ (s.threads t).pending

theorem Inv.registered (inv : Inv s) {pc : Pc η} {id a : Nat} (at_ : s.threads t = pc) (place : pc.place = some (id, a)) :
    s.mBroadcasts id = some a := (at_ ▸ inv.placed t).of_place place

theorem Inv.not_held (inv : Inv s) (free : (s.threads t).holds = none) (a : Nat) : s.sMutex a ≠ some t := by
  rw [Ne, inv.locks, free]
  exact (Option.some_ne_none a).symm

theorem Inv.held_iff (inv : Inv s) {a : Nat} (held : (s.threads t).holds = some a) (b : Nat) : s.sMutex b = some t ↔ b = a := by
  rw [inv.locks, held]
  exact ⟨fun e => (Option.some.inj e).symm, fun e => congrArg some e.symm⟩

theorem Inv.start : Inv (State.start τ η) where
  made _ _ h := by cases h
  single _ _ _ h := by cases h
  cached _ _ _ h := by cases h
  placed _ := trivial
  locks _ a := iff_of_false (Option.some_ne_none _).symm (Option.some_ne_none a).symm
  unused _ _ := ⟨rfl, rfl⟩
  channel _ _ h := by cases h
  order _ _ h := by cases h
  asked _ := rfl

/-- The fields that a step of a thread leaves alone, if it neither takes effect nor sends. -/
structure Beside (s s' : State τ η) (t : τ) : Prop where
  mBroadcasts : s'.mBroadcasts = s.mBroadcasts
  made : s'.made = s.made
  channels : s'.channels = s.channels
  history : s'.history = s.history
  sent : s'.sent = s.sent
  threads : ∀ u, u ≠ t → s'.threads u = s.threads u
  asked : ∀ u, u ≠ t → s'.asked u = s.asked u

theorem Inv.of_beside (inv : Inv s) (beside : Beside s s' t)
    (cached : ∀ u id a, s'.broadcasts u id = some a → s.mBroadcasts id = some a)
    (placed : (s'.threads t).Placed s.mBroadcasts) (locks : ∀ u a, s'.sMutex a = some u ↔ (s'.threads u).holds = some a)
    (unsent : ∀ a, s'.unsent a = s.unsent a)
    (asked : s'.asked t = callsBy t s.history ++ (s'.threads t).pending) : Inv s' := by
  obtain ⟨registry, made, channels, history, sent, threads, others⟩ := beside
  refine ⟨?_, ?_, ?_, ?_, locks, ?_, ?_, ?_, ?_⟩
  · rw [registry, made]
    exact inv.made
  · rw [registry]
    exact inv.single
  · rw [registry]
    exact cached
  · intro u
    rw [registry]
    by_cases same : u = t
    · exact same ▸ placed
    · exact threads u same ▸ inv.placed u
  · rw [registry, history, sent]
    exact inv.unused
  · rw [registry, channels, history]
    exact inv.channel
  · intro id a known
    rw [registry] at known
    rw [history, sent, unsent a]
    exact inv.order id a known
  · intro u
    rw [history]
    by_cases same : u = t
    · exact same ▸ asked
    · rw [others u same, threads u same]
      exact inv.asked u

/-- A step of a thread that holds no mutex before and after it. -/
theorem Inv.of_free (inv : Inv s) (beside : Beside s s' t) (mutex : s'.sMutex = s.sMutex)
    (cached : ∀ u id a, s'.broadcasts u id = some a → s.mBroadcasts id = some a)
    (free : (s.threads t).holds = none) (free' : (s'.threads t).holds = none) (placed : (s'.threads t).Placed s.mBroadcasts)
    (asked : s'.asked t = callsBy t s.history ++ (s'.threads t).pending) : Inv s' := by
  have other := inv.not_held free
  refine inv.of_beside beside cached placed (fun u a => ?_)
    (fun a => unsent_of_other (congrFun mutex a) beside.threads (other a)) asked
  rw [mutex]
  by_cases same : u = t
  · subst same
    rw [free']
    exact iff_of_false (other a) (Option.some_ne_none a).symm
  · rw [beside.threads u same]
    exact inv.locks u a

theorem Inv.create (inv : Inv s) (id : Nat) : Inv (s.create id) := by
  unfold State.create
  cases known : s.mBroadcasts id with
  | some a => exact inv
  | none =>
    have more (k a : Nat) (h : s.mBroadcasts k = some a) : Function.update s.mBroadcasts id (some s.made) k = some a := by
      have other : k ≠ id := by
        intro same
        rw [same, known] at h
        cases h
      rwa [Function.update_of_ne other]
    have newOrOld (k a : Nat) (h : Function.update s.mBroadcasts id (some s.made) k = some a) :
        (k = id ∧ a = s.made) ∨ (s.mBroadcasts k = some a ∧ a < s.made) := by
      by_cases same : k = id
      · rw [same, Function.update_self] at h
        exact .inl ⟨same, (Option.some.inj h).symm⟩
      · rw [Function.update_of_ne same] at h
        exact .inr ⟨h, inv.made k a h⟩
    -- nobody can hold the mutex of a channel that is not made
    have free : s.sMutex s.made = none := by
      cases held : s.sMutex s.made with
      | none => rfl
      | some u =>
        obtain ⟨k, at_⟩ := (inv.placed u).of_holds ((inv.locks u _).mp held)
        exact absurd (inv.made k _ at_) (Nat.lt_irrefl _)
    obtain ⟨noCalls, noSends⟩ := inv.unused id known
    refine ⟨?_, ?_, ?_, ?_, inv.locks, ?_, ?_, ?_, inv.asked⟩
    · intro k a h
      obtain ⟨-, rfl⟩ | ⟨-, below⟩ := newOrOld k a h
      · exact Nat.lt_succ_self _
      · exact Nat.lt_succ_of_lt below
    · intro k k' a h h'
      obtain ⟨rfl, rfl⟩ | ⟨old, below⟩ := newOrOld k a h
      · obtain ⟨rfl, -⟩ | ⟨-, below⟩ := newOrOld k' _ h'
        · rfl
        · exact absurd below (Nat.lt_irrefl _)
      · obtain ⟨rfl, rfl⟩ | ⟨old', -⟩ := newOrOld k' a h'
        · exact absurd below (Nat.lt_irrefl _)
        · exact inv.single k k' a old old'
    · exact fun u k a cached => more k a (inv.cached u k a cached)
    · exact fun u => (inv.placed u).mono more
    · intro k h
      cases old : s.mBroadcasts k with
      | none => exact inv.unused k old
      | some a => exact absurd ((more k a old).symm.trans h) (Option.some_ne_none a)
    · intro k a h
      obtain ⟨rfl, rfl⟩ | ⟨old, below⟩ := newOrOld k a h
      · change Function.update s.channels s.made .new s.made = _
        rw [Function.update_self, noCalls]
        rfl
      · change Function.update s.channels s.made .new a = _
        rw [Function.update_of_ne (Nat.ne_of_lt below)]
        exact inv.channel k a old
    · intro k a h
      obtain ⟨rfl, rfl⟩ | ⟨old, -⟩ := newOrOld k a h
      · change s.sent k ++ s.unsent s.made = _
        rw [unsent_of_free free, noSends, noCalls]
        rfl
      · exact inv.order k a old

theorem Inv.apply (inv : Inv s) {id a : Nat} {call : Call η} {pc : Pc η} (answers : τ → List Answer)
    (known : s.mBroadcasts id = some a) (held : (s.threads t).holds = none ∨ (s.threads t).holds = some a)
    (holds : pc.holds = (s.threads t).holds) (placed : pc.Placed s.mBroadcasts)
    (pending : (s.threads t).pending = (id, call) :: pc.pending)
    (new : ({ s.apply t id a call with threads := Function.update s.threads t pc, answers := answers } : State τ η).unsent a =
      s.unsent a ++ (s.channels a).sends [call]) :
    Inv { s.apply t id a call with threads := Function.update s.threads t pc, answers := answers } := by
  have others (u : τ) (other : u ≠ t) : Function.update s.threads t pc u = s.threads u := Function.update_of_ne other ..
  refine ⟨inv.made, inv.single, inv.cached, ?_, ?_, ?_, ?_, ?_, ?_⟩
  · exact (Function.forall_update_iff s.threads fun _ pc => pc.Placed s.mBroadcasts).mpr ⟨placed, fun u _ => inv.placed u⟩
  · refine (Function.forall_update_iff s.threads fun u pc => ∀ b, s.sMutex b = some u ↔ pc.holds = some b).mpr
      ⟨?_, fun u _ => inv.locks u⟩
    rw [holds]
    exact inv.locks t
  · intro k unknown
    have other : k ≠ id := by
      intro same
      rw [same] at unknown
      exact Option.some_ne_none a (known.symm.trans unknown)
    change callsOf k (s.history ++ [(t, id, call)]) = [] ∧ _
    rw [callsOf_other other]
    exact inv.unused k unknown
  · intro k b at_
    change Function.update s.channels a ((s.channels a).call call) b = Broadcast.after (callsOf k (s.history ++ [(t, id, call)]))
    by_cases same : k = id
    · subst same
      obtain rfl : a = b := Option.some.inj (known.symm.trans at_)
      rw [Function.update_self, callsOf_self, Broadcast.after_append, ← inv.channel k a known]
      rfl
    · have apart : b ≠ a := fun e => same (inv.single k id b at_ (e ▸ known))
      rw [Function.update_of_ne apart, callsOf_other same]
      exact inv.channel k b at_
  · intro k b at_
    change s.sent k ++ _ = Broadcast.new.sends (callsOf k (s.history ++ [(t, id, call)]))
    by_cases same : k = id
    · subst same
      obtain rfl : a = b := Option.some.inj (known.symm.trans at_)
      rw [new, callsOf_self, Broadcast.sends_append, ← List.append_assoc, inv.order k a known, inv.channel k a known]
      rfl
    · have apart : b ≠ a := fun e => same (inv.single k id b at_ (e ▸ known))
      have other : s.sMutex b ≠ some t := by
        obtain free | mine := held
        · exact inv.not_held free b
        · exact fun e => apart ((inv.held_iff mine b).mp e)
      have left : ({ s.apply t id a call with threads := Function.update s.threads t pc, answers := answers } : State τ η).unsent b =
          s.unsent b := unsent_of_other rfl others other
      rw [callsOf_other same, left]
      exact inv.order k b at_
  · refine (Function.forall_update_iff s.threads fun u pc =>
      s.asked u = callsBy u (s.history ++ [(t, id, call)]) ++ pc.pending).mpr ⟨?_, fun u other => ?_⟩
    · rw [callsBy_self, inv.asked t, pending, List.append_assoc]
      rfl
    · rw [callsBy_other other]
      exact inv.asked u

/-! ### A broadcast -/

theorem Inv.lock (inv : Inv s) {id a : Nat} {msg : List UInt8} (at_ : s.threads t = .found id a (.bcast msg))
    (free : s.sMutex a = none) : Inv ((s.lock a (some t)).goto t (.locked id a msg)) := by
  have known : s.mBroadcasts id = some a := inv.registered at_ rfl
  have none_ := inv.not_held (show (s.threads t).holds = none by rw [at_]; rfl)
  have others (u : τ) (other : u ≠ t) : Function.update s.threads t (.locked id a msg) u = s.threads u :=
    Function.update_of_ne other ..
  refine inv.of_beside (t := t) ⟨rfl, rfl, rfl, rfl, rfl, others, fun _ _ => rfl⟩ inv.cached ?_ ?_ (fun b => ?_) ?_
  · change (Function.update s.threads t (.locked id a msg) t).Placed _
    rw [Function.update_self]
    exact known
  · refine (Function.forall_update_iff s.threads fun u pc =>
      ∀ b, Function.update s.sMutex a (some t) b = some u ↔ pc.holds = some b).mpr ⟨fun b => ?_, fun u other b => ?_⟩
    all_goals by_cases here : b = a
    · rw [here, Function.update_self]
      exact iff_of_true rfl rfl
    · rw [Function.update_of_ne here]
      exact iff_of_false (none_ b) fun e => here (Option.some.inj e).symm
    · rw [here, Function.update_self, ← inv.locks, free]
      exact iff_of_false (fun e => other (Option.some.inj e).symm) (Option.some_ne_none u).symm
    · rw [Function.update_of_ne here]
      exact inv.locks u b
  · by_cases here : b = a
    · subst here
      have mine : ((s.lock b (some t)).goto t (.locked id b msg)).sMutex b = some t := Function.update_self ..
      rw [unsent_of_holder mine, unsent_of_free free]
      change (Function.update s.threads t (.locked id b msg) t).unsent = []
      rw [Function.update_self]
      rfl
    · exact unsent_of_other (Function.update_of_ne here ..) others (none_ b)
  · change s.asked t = callsBy t s.history ++ (Function.update s.threads t (.locked id a msg) t).pending
    rw [Function.update_self, inv.asked t, at_]
    rfl

theorem Inv.unlock (inv : Inv s) {id a : Nat} {msg : List UInt8} (at_ : s.threads t = .sending id a msg []) (answer : Answer) :
    Inv ((s.lock a none).returns t answer) := by
  have held := inv.held_iff (show (s.threads t).holds = some a by rw [at_]; rfl)
  have others (u : τ) (other : u ≠ t) : Function.update s.threads t .idle u = s.threads u := Function.update_of_ne other ..
  refine inv.of_beside (t := t) ⟨rfl, rfl, rfl, rfl, rfl, others, fun _ _ => rfl⟩ inv.cached ?_ ?_ (fun b => ?_) ?_
  · change (Function.update s.threads t .idle t).Placed _
    rw [Function.update_self]
    trivial
  · refine (Function.forall_update_iff s.threads fun u pc =>
      ∀ b, Function.update s.sMutex a none b = some u ↔ pc.holds = some b).mpr ⟨fun b => ?_, fun u other b => ?_⟩
    all_goals by_cases here : b = a
    · rw [here, Function.update_self]
      exact iff_of_false (Option.some_ne_none t).symm (Option.some_ne_none a).symm
    · rw [Function.update_of_ne here]
      exact iff_of_false (fun e => here ((held b).mp e)) (Option.some_ne_none b).symm
    · rw [here, Function.update_self, ← inv.locks, (held a).mpr rfl]
      exact iff_of_false (Option.some_ne_none u).symm fun e => other (Option.some.inj e).symm
    · rw [Function.update_of_ne here]
      exact inv.locks u b
  · by_cases here : b = a
    · subst here
      have free : ((s.lock b none).returns t answer).sMutex b = none := Function.update_self ..
      rw [unsent_of_free free, unsent_of_holder ((held b).mpr rfl), at_]
      rfl
    · exact unsent_of_other (Function.update_of_ne here ..) others fun e => here ((held b).mp e)
  · change s.asked t = callsBy t s.history ++ (Function.update s.threads t .idle t).pending
    rw [Function.update_self, inv.asked t, at_]
    rfl

theorem Inv.send (inv : Inv s) {id a : Nat} {msg : List UInt8} {handler : η} {rest : List η}
    (at_ : s.threads t = .sending id a msg (handler :: rest)) :
    Inv ((s.send id handler msg).goto t (.sending id a msg rest)) := by
  have known : s.mBroadcasts id = some a := inv.registered at_ rfl
  have held := inv.held_iff (show (s.threads t).holds = some a by rw [at_]; rfl)
  have others (u : τ) (other : u ≠ t) : Function.update s.threads t (.sending id a msg rest) u = s.threads u :=
    Function.update_of_ne other ..
  refine ⟨inv.made, inv.single, inv.cached, ?_, ?_, fun k unknown => ?_, inv.channel, fun k b registered => ?_, ?_⟩
  · exact (Function.forall_update_iff s.threads fun _ pc => pc.Placed s.mBroadcasts).mpr ⟨known, fun u _ => inv.placed u⟩
  · refine (Function.forall_update_iff s.threads fun u pc => ∀ b, s.sMutex b = some u ↔ pc.holds = some b).mpr
      ⟨fun b => ?_, fun u _ => inv.locks u⟩
    rw [inv.locks, at_]
    rfl
  · have other : k ≠ id := by
      intro same
      rw [same] at unknown
      exact Option.some_ne_none a (known.symm.trans unknown)
    change callsOf k s.history = [] ∧ Function.update s.sent id _ k = []
    rw [Function.update_of_ne other]
    exact inv.unused k unknown
  · change Function.update s.sent id (s.sent id ++ [(handler, msg)]) k ++ _ = _
    by_cases same : k = id
    · subst same
      obtain rfl : a = b := Option.some.inj (known.symm.trans registered)
      have before := inv.order k a known
      rw [unsent_of_holder ((held a).mpr rfl), at_] at before
      have mine : ((s.send k handler msg).goto t (.sending k a msg rest)).sMutex a = some t := (held a).mpr rfl
      rw [Function.update_self, unsent_of_holder mine]
      change _ ++ (Function.update s.threads t (.sending k a msg rest) t).unsent = _
      rw [Function.update_self, List.append_assoc]
      exact before
    · have apart : b ≠ a := fun e => same (inv.single k id b registered (e ▸ known))
      have left : ((s.send id handler msg).goto t (.sending id a msg rest)).unsent b = s.unsent b :=
        unsent_of_other rfl others fun e => apart ((held b).mp e)
      rw [Function.update_of_ne same, left]
      exact inv.order k b registered
  · refine (Function.forall_update_iff s.threads fun u pc => s.asked u = callsBy u s.history ++ pc.pending).mpr
      ⟨?_, fun u _ => inv.asked u⟩
    rw [inv.asked t, at_]
    rfl

/-! ### Steps without a mutex -/

theorem Inv.goto (inv : Inv s) {pc : Pc η} (free : (s.threads t).holds = none) (free' : pc.holds = none)
    (placed : pc.Placed s.mBroadcasts) (pending : pc.pending = (s.threads t).pending) : Inv (s.goto t pc) := by
  have here : (s.goto t pc).threads t = pc := Function.update_self ..
  have beside : Beside s (s.goto t pc) t :=
    ⟨rfl, rfl, rfl, rfl, rfl, fun u other => Function.update_of_ne other .., fun _ _ => rfl⟩
  refine inv.of_free beside rfl inv.cached free ?_ ?_ ?_
  all_goals rw [here]
  · exact free'
  · exact placed
  · rw [pending]
    exact inv.asked t

theorem Inv.returns (inv : Inv s) (free : (s.threads t).holds = none) (pending : (s.threads t).pending = []) (answer : Answer) :
    Inv (s.returns t answer) := by
  have here : (s.returns t answer).threads t = .idle := Function.update_self ..
  have beside : Beside s (s.returns t answer) t :=
    ⟨rfl, rfl, rfl, rfl, rfl, fun u other => Function.update_of_ne other .., fun _ _ => rfl⟩
  refine inv.of_free beside rfl inv.cached free ?_ ?_ ?_
  all_goals rw [here]
  · rfl
  · trivial
  · change s.asked t = callsBy t s.history ++ []
    rw [inv.asked t, pending]

theorem Inv.caches (inv : Inv s) {cache : Nat → Option Nat} (known : ∀ k a, cache k = some a → s.mBroadcasts k = some a) :
    Inv (s.caches t cache) := by
  refine { inv with cached := fun u k a cached => ?_ }
  change Function.update s.broadcasts t cache u k = some a at cached
  by_cases same : u = t
  · rw [same, Function.update_self] at cached
    exact known k a cached
  · rw [Function.update_of_ne same] at cached
    exact inv.cached u k a cached

theorem Inv.asks (inv : Inv s) {id a : Nat} {call : Call η} (at_ : s.threads t = .calling id call) (known : s.mBroadcasts id = some a) :
    Inv { s.goto t (.found id a call) with asked := Function.update s.asked t (s.asked t ++ [(id, call)]) } := by
  have here : (s.goto t (.found id a call)).threads t = .found id a call := Function.update_self ..
  refine inv.of_free (t := t) ⟨rfl, rfl, rfl, rfl, rfl, fun u other => Function.update_of_ne other ..,
    fun u other => Function.update_of_ne other ..⟩ rfl inv.cached (by rw [at_]; rfl) ?_ ?_ ?_
  all_goals rw [here]
  · rfl
  · exact known
  · change Function.update s.asked t (s.asked t ++ [(id, call)]) t = _
    rw [Function.update_self, inv.asked t, at_]
    exact congrArg (· ++ _) (List.append_nil _)

theorem Inv.findBcast (inv : Inv s) {id a : Nat} {cache : Nat → Option Nat} (found : s.findBcast t id = some (cache, a)) :
    s.mBroadcasts id = some a ∧ ∀ k b, cache k = some b → s.mBroadcasts k = some b := by
  unfold State.findBcast at found
  cases cached : s.broadcasts t id with
  | some b =>
    rw [cached] at found
    cases found
    exact ⟨inv.cached t id a cached, inv.cached t⟩
  | none =>
    rw [cached] at found
    obtain ⟨b, known, same⟩ := Option.map_eq_some_iff.mp found
    cases same
    refine ⟨known, fun k b listed => ?_⟩
    by_cases here : k = id
    · rw [here, Function.update_self] at listed
      exact here ▸ known.trans listed
    · rw [Function.update_of_ne here] at listed
      exact inv.cached t k b listed

/-! ### Runs -/

theorem Inv.request (inv : Inv s) (frame : Json → List UInt8) (idle : s.threads t = .idle) (request : Request η) :
    Inv (s.request frame t request) := by
  have free : (s.threads t).holds = none := by rw [idle]; rfl
  have none_ : (s.threads t).pending = [] := by rw [idle]; rfl
  cases request with
  | create id =>
    have same : (s.create id).threads = s.threads := by
      unfold State.create
      split <;> rfl
    refine (inv.create id).goto ?_ rfl (create_registers s id) ?_
    · rw [same]
      exact free
    · rw [same]
      exact none_.symm
  | send id message =>
    rw [State.request]
    split
    · exact inv.goto free rfl trivial none_.symm
    · exact inv.returns free none_ _
  | subscribe id handler => exact inv.goto free rfl trivial none_.symm
  | unsubscribe id handler => exact inv.goto free rfl trivial none_.symm

theorem Inv.subscribe (inv : Inv s) {id a : Nat} {call : Call η} (at_ : s.threads t = .found id a call)
    (quiet : call.isBcast = false) (answer : Answer) : Inv ((s.apply t id a call).returns t answer) := by
  have known : s.mBroadcasts id = some a := inv.registered at_ rfl
  have free : (s.threads t).holds = none := by rw [at_]; rfl
  refine inv.apply _ known (.inl free) free.symm trivial (by rw [at_]; rfl) ?_
  have silent : (s.channels a).sends [call] = [] := by
    cases call with
    | bcast msg => cases quiet
    | subscribe handler => rfl
    | unsubscribe handler => rfl
  rw [silent, List.append_nil]
  exact unsent_of_other rfl (fun u apart => Function.update_of_ne apart ..) (inv.not_held free a)

theorem Inv.purge (inv : Inv s) {id a : Nat} {msg : List UInt8} (at_ : s.threads t = .locked id a msg) :
    Inv ((s.apply t id a (.bcast msg)).goto t (.sending id a msg (s.channels a).purge.mSubscribers)) := by
  have known : s.mBroadcasts id = some a := inv.registered at_ rfl
  have held : (s.threads t).holds = some a := by rw [at_]; rfl
  have mine : s.sMutex a = some t := (inv.locks t a).mpr held
  refine inv.apply _ known (.inr held) held.symm known (by rw [at_]; rfl) ?_
  have still : ((s.apply t id a (.bcast msg)).goto t (.sending id a msg (s.channels a).purge.mSubscribers)).sMutex a = some t := mine
  rw [unsent_of_holder mine, at_]
  refine (unsent_of_holder still).trans ?_
  change (Function.update s.threads t _ t).unsent = _
  rw [Function.update_self]
  exact (List.append_nil _).symm

theorem Inv.run (inv : Inv s) (h : s.run t = some s') : Inv s' := by
  unfold State.run at h
  cases at_ : s.threads t with
  | idle => rw [at_] at h; cases h
  | thrown => rw [at_] at h; cases h
  | created id =>
    rw [at_] at h
    have known : (s.mBroadcasts id).isSome := by
      have placed := inv.placed t
      rwa [at_] at placed
    cases found : s.findBcast t id with
    | none => exact absurd (findBcast_of_registered s t known) (by rw [found]; exact Bool.false_ne_true)
    | some result =>
      simp only [found] at h
      cases h
      refine (inv.caches (inv.findBcast found).2).returns ?_ ?_ _
      · change (s.threads t).holds = none
        rw [at_]
        rfl
      · change (s.threads t).pending = []
        rw [at_]
        rfl
  | calling id call =>
    rw [at_] at h
    cases found : s.findBcast t id with
    | none =>
      simp only [found] at h
      cases h
      exact inv.returns (by rw [at_]; rfl) (by rw [at_]; rfl) _
    | some result =>
      simp only [found] at h
      cases h
      obtain ⟨known, cached⟩ := inv.findBcast found
      exact (inv.caches cached).asks at_ known
  | found id a call =>
    rw [at_] at h
    cases call with
    | unsubscribe handler =>
      cases h
      exact inv.subscribe at_ rfl _
    | subscribe handler =>
      obtain ⟨-, ⟨⟩⟩ := Option.ite_none_right_eq_some.mp h
      exact inv.subscribe at_ rfl _
    | bcast msg =>
      obtain ⟨free, ⟨⟩⟩ := Option.ite_none_right_eq_some.mp h
      exact inv.lock at_ (Option.isNone_iff_eq_none.mp free)
  | locked id a msg =>
    rw [at_] at h
    cases h
    exact inv.purge at_
  | sending id a msg rest =>
    rw [at_] at h
    cases rest with
    | nil =>
      cases h
      exact inv.unlock at_ _
    | cons handler rest =>
      cases h
      exact inv.send at_

theorem Inv.step (inv : Inv s) (frame : Json → List UInt8) {action : Action τ η} (h : s.step frame action = some s') : Inv s' := by
  cases action with
  | call t request =>
    rw [State.step] at h
    cases at_ : s.threads t with
    | idle =>
      rw [at_] at h
      cases h
      exact inv.request frame at_ request
    | _ =>
      rw [at_] at h
      cases h
  | run t => exact inv.run h

/-- A thread in a function can go on, or waits for the mutex of its channel, and the thread that has it can. -/
theorem Inv.progress (inv : Inv s) (t : τ) (busy : s.threads t ≠ .idle) :
    (s.run t).isSome ∨ ∃ id a call u, s.threads t = .found id a call ∧ s.sMutex a = some u ∧ (s.run u).isSome := by
  have holder {u : τ} {a : Nat} (held : s.sMutex a = some u) : (s.run u).isSome := by
    have place := (inv.locks u a).mp held
    unfold State.run
    cases at_ : s.threads u with
    | locked id b msg => rfl
    | sending id b msg rest => cases rest <;> rfl
    | _ =>
      rw [at_] at place
      cases place
  cases at_ : s.threads t with
  | idle => exact absurd at_ busy
  | thrown =>
    have placed := inv.placed t
    rw [at_] at placed
    exact placed.elim
  | created id =>
    left
    unfold State.run
    rw [at_]
    cases found : s.findBcast t id <;> simp only [found] <;> rfl
  | calling id call =>
    left
    unfold State.run
    rw [at_]
    cases found : s.findBcast t id <;> simp only [found] <;> rfl
  | found id a call =>
    cases held : s.sMutex a with
    | some u => exact .inr ⟨id, a, call, u, rfl, held, holder held⟩
    | none =>
      left
      unfold State.run
      rw [at_]
      cases call with
      | unsubscribe handler => rfl
      | subscribe handler =>
        simp only [held]
        rfl
      | bcast msg =>
        simp only [held]
        rfl
  | locked id a msg =>
    left
    unfold State.run
    rw [at_]
    rfl
  | sending id a msg rest =>
    left
    unfold State.run
    rw [at_]
    cases rest <;> rfl

/-- The channels are as if the calls had been made one after the other, each of them while its thread was in it. -/
structure Linear (s : State τ η) : Prop where
  caches : ∀ t id a, s.broadcasts t id = some a → s.mBroadcasts id = some a
  caught : ∀ t, s.threads t ≠ .thrown
  asked : ∀ t, s.asked t = callsBy t s.history ++ (s.threads t).pending
  channel : ∀ id a, s.mBroadcasts id = some a → s.channels a = Broadcast.after (callsOf id s.history)
  sends : ∀ id a, s.mBroadcasts id = some a → s.sent id ++ s.unsent a = Broadcast.new.sends (callsOf id s.history)
  progress : ∀ t, s.threads t ≠ .idle →
    (s.run t).isSome ∨ ∃ id a call u, s.threads t = .found id a call ∧ s.sMutex a = some u ∧ (s.run u).isSome

-- One thread subscribes a handler, and another one, which has the channel in its own cache, sends to it.
example :
    ([.call false (.create 7), .run false, .call true (.subscribe 7 5), .run true, .run true,
      .call false (.send 7 (.object [("cid", .number 7), ("message", .array [])])), .run false, .run false, .run false, .run false,
      .run false].foldlM (step fun _ => [1]) (State.start Bool Nat)).map (fun s => (s.sent 7, s.answers false)) =
      some ([(5, [1])], [(true, none), (true, none)]) := by
  decide

end State

end Broadcasts
end LAppS
