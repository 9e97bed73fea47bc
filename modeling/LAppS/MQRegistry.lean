import LAppS.Transition.Runs
import Mathlib.Data.List.AList
import Mathlib.Data.List.Forall2
import Mathlib.Logic.Function.Basic

/-!
# Message queues between services

`mqr` finds a queue by the hash of its name. A message is a pointer to a shared object: a service that posts an object keeps
its own pointer to it, while a member of an object is copied into a new one. An object lives as long as there is a shared
pointer to it. A service may keep a plain pointer to a member for longer, and has to leave it alone then.
-/

namespace LAppS.MQ
open Transition

/-- `itc::tsbqueue` of messages, which are pointers to objects. -/
structure Tsbqueue where
  Queue : Type
  empty : Queue
  send : Queue → Nat → Queue
  tryRecv : Queue → Option (Nat × Queue)
  /-- The messages that a queue holds. -/
  holds : Queue → List Nat

/-- What `mqr` relies on. -/
structure Tsbqueue.Fifo (tsb : Tsbqueue) : Prop where
  empty : tsb.holds tsb.empty = []
  send : ∀ q m, tsb.holds (tsb.send q m) = tsb.holds q ++ [m]
  tryRecv : ∀ q m q', tsb.tryRecv q = some (m, q') → tsb.holds q = m :: tsb.holds q'

/-- The userdata of `nljson`: a pointer to a shared object, a plain pointer to a member of one, or what is left of the latter
when the member is gone. -/
inductive Userdata (π : Type) where
  | sharedPtr (object : Nat)
  | rawPtr (object : Nat) (member : π)
  | dangling
  deriving DecidableEq

namespace Userdata

variable {π : Type}

def object? : Userdata π → Option Nat
  | .sharedPtr object | .rawPtr object _ => some object
  | .dangling => none

def shares (object : Nat) : Userdata π → Bool
  | .sharedPtr object' => object' == object
  | .rawPtr _ _ | .dangling => false

/-- The members of the object that are not kept are gone. -/
def dangle (object : Nat) (kept : π → Bool) : Userdata π → Userdata π
  | .sharedPtr object' => .sharedPtr object'
  | .rawPtr object' member => if object' = object ∧ kept member = false then .dangling else .rawPtr object' member
  | .dangling => .dangling

end Userdata

/-- As history, a message is an object with its content when it was posted, and whether the object was made for it. -/
structure Message (υ : Type) where
  object : Nat
  content : υ
  copied : Bool
  deriving DecidableEq

/-- The queues, the objects that live with all userdata of all services, and as history what was posted to each queue and
received from it, with the content that the receiver finds. -/
structure State (tsb : Tsbqueue) (υ π : Type) where
  mQueueMap : AList fun _ : Nat => tsb.Queue
  objects : Nat → Option υ
  made : Nat
  userdata : List (Userdata π)
  posted : Nat → List (Message υ)
  received : Nat → List (Nat × υ)

def State.start (tsb : Tsbqueue) (υ π : Type) : State tsb υ π := ⟨∅, fun _ => none, 0, [], fun _ => [], fun _ => []⟩

inductive Action (υ π : Type) where
  | create (name : String)
  /-- A service makes an object, takes a member of one, or changes one, by which it may lose members. -/
  | new (value : υ)
  | member (i : Nat) (place : π)
  | write (i : Nat) (value : υ) (kept : π → Bool)
  | destroy (i : Nat)
  | post (queue i : Nat)
  /-- `try_recv`, or `receive`, which waits as long as the queue is empty. -/
  | recv (queue : Nat)

/-- The userdata whose pointer is followed. -/
def Action.follows {υ π : Type} : Action υ π → Option Nat
  | .member i _ | .write i _ _ | .post _ i => some i
  | .create _ | .new _ | .destroy _ | .recv _ => none

namespace State

variable {tsb : Tsbqueue} {υ π : Type}

def make (s : State tsb υ π) (value : υ) : State tsb υ π :=
  { s with objects := Function.update s.objects s.made (some value), made := s.made + 1 }

def send (s : State tsb υ π) (id : Nat) (queue : tsb.Queue) (m : Message υ) : State tsb υ π :=
  { s with
    mQueueMap := s.mQueueMap.insert id (tsb.send queue m.object)
    posted := Function.update s.posted id (s.posted id ++ [m]) }

/-- Some shared pointer leads to the object. -/
def held (s : State tsb υ π) (object : Nat) : Bool :=
  s.userdata.any (·.shares object) || s.mQueueMap.entries.any fun entry => (tsb.holds entry.2).contains object

/-- The object goes with the last shared pointer to it. -/
def release (s : State tsb υ π) (object : Nat) : State tsb υ π :=
  if s.held object then s
  else { s with objects := Function.update s.objects object none, userdata := s.userdata.map (·.dangle object fun _ => false) }

def create (hash : String → Nat) (s : State tsb υ π) (name : String) : State tsb υ π :=
  match s.mQueueMap.lookup (hash name) with
  | some _ => s
  | none => { s with mQueueMap := s.mQueueMap.insert (hash name) tsb.empty }

def destroy (s : State tsb υ π) (i : Nat) (u : Userdata π) : State tsb υ π :=
  match u with
  | .sharedPtr object => { s with userdata := s.userdata.eraseIdx i }.release object
  | .rawPtr _ _ | .dangling => { s with userdata := s.userdata.eraseIdx i }

-- `wild` is what becomes of the program when it follows a pointer to something that is gone.
variable (hash : String → Nat) (read : υ → π → υ) (wild : State tsb υ π → State tsb υ π)

/-- The object that a pointer leads to, with its content. -/
def follow (s : State tsb υ π) (object : Option Nat) (act : Nat → υ → State tsb υ π) : State tsb υ π :=
  match object with
  | none => wild s
  | some object =>
    match s.objects object with
    | none => wild s
    | some value => act object value

/-- `udptr2jsptr`, and `send` of the queue. -/
def post (s : State tsb υ π) (id : Nat) (queue : tsb.Queue) (u : Userdata π) : State tsb υ π :=
  s.follow wild u.object? fun object value =>
    match u with
    | .sharedPtr _ | .dangling => s.send id queue ⟨object, value, false⟩
    | .rawPtr _ place => (s.make (read value place)).send id queue ⟨s.made, read value place, true⟩

def recv (s : State tsb υ π) (id : Nat) (message : Nat) (rest : tsb.Queue) : State tsb υ π :=
  s.follow wild (some message) fun object value =>
    { s with
      mQueueMap := s.mQueueMap.insert id rest
      userdata := s.userdata ++ [.sharedPtr object]
      received := Function.update s.received id (s.received id ++ [(object, value)]) }

def step (s : State tsb υ π) : Action υ π → Option (State tsb υ π)
  | .create name => some (s.create hash name)
  | .new value => some { s.make value with userdata := s.userdata ++ [.sharedPtr s.made] }
  | .member i place => s.userdata[i]?.map fun u =>
    s.follow wild u.object? fun object _ => { s with userdata := s.userdata ++ [.rawPtr object place] }
  | .write i value kept => s.userdata[i]?.map fun u =>
    s.follow wild u.object? fun object _ =>
      { s with objects := Function.update s.objects object (some value), userdata := s.userdata.map (·.dangle object kept) }
  | .destroy i => s.userdata[i]?.map (s.destroy i)
  | .post id i => s.userdata[i]?.map fun u =>
    match s.mQueueMap.lookup id with
    | none => s
    | some queue => s.post read wild id queue u
  | .recv id =>
    match (s.mQueueMap.lookup id).bind tsb.tryRecv with
    | none => some s
    | some (message, rest) => some (s.recv wild id message rest)

/-- The services leave the members alone that are gone. -/
def Careful (s : State tsb υ π) (a : Action υ π) : Prop := ∀ i ∈ a.follows, s.userdata[i]? ≠ some .dangling

instance [DecidableEq π] (s : State tsb υ π) (a : Action υ π) : Decidable (s.Careful a) :=
  inferInstanceAs (Decidable (∀ i ∈ a.follows, s.userdata[i]? ≠ some .dangling))

/-- The messages in a queue. -/
def holds (s : State tsb υ π) (id : Nat) : List Nat := ((s.mQueueMap.lookup id).map tsb.holds).getD []

def waiting (s : State tsb υ π) (id : Nat) : List (Message υ) := (s.posted id).drop (s.received id).length

def delivered (s : State tsb υ π) (id : Nat) : List (Message υ) := (s.posted id).take (s.received id).length

/-- What a receiver finds of a message. -/
def Delivers (m : Message υ) (r : Nat × υ) : Prop := r.1 = m.object ∧ (m.copied = true → r.2 = m.content)

/-- Two messages are not the same object, if one of them is a copy. -/
def Apart (m m' : Message υ) : Prop := m.copied = true ∨ m'.copied = true → m.object ≠ m'.object

structure Inv (s : State tsb υ π) : Prop where
  made : ∀ o, (s.objects o).isSome → o < s.made
  owned : ∀ u ∈ s.userdata, ∀ o, u.object? = some o → (s.objects o).isSome
  queued : ∀ id, ∀ m ∈ s.waiting id, (s.objects m.object).isSome
  copy : ∀ id, ∀ m ∈ s.waiting id, m.copied = true →
    s.objects m.object = some m.content ∧ ∀ u ∈ s.userdata, u.object? ≠ some m.object
  within : ∀ id, (s.waiting id).Pairwise Apart
  across : ∀ id id', id ≠ id' → ∀ m ∈ s.waiting id, ∀ m' ∈ s.waiting id', Apart m m'
  order : ∀ id, (s.waiting id).map Message.object = s.holds id
  received : ∀ id, List.Forall₂ Delivers (s.delivered id) (s.received id)

theorem Inv.start : Inv (State.start tsb υ π) where
  made _ some := by cases some
  owned _ h := by cases h
  queued _ _ h := by cases h
  copy _ _ h := by cases h
  within _ := .nil
  across _ _ _ _ h := by cases h
  order _ := rfl
  received _ := .nil

variable {s s' : State tsb υ π}

theorem Apart.symm {m m' : Message υ} (apart : Apart m m') : Apart m' m := fun copied => (apart copied.symm).symm

theorem object_dangle {u : Userdata π} {object o : Nat} {kept : π → Bool} (h : (u.dangle object kept).object? = some o) :
    u.object? = some o := by
  cases u with
  | sharedPtr object' => exact h
  | rawPtr object' member =>
    rw [Userdata.dangle] at h
    split at h
    · cases h
    · exact h
  | dangling => exact h

theorem held_iff {o : Nat} : s.held o ↔ .sharedPtr o ∈ s.userdata ∨ ∃ id, o ∈ s.holds id := by
  have shared : s.userdata.any (·.shares o) ↔ .sharedPtr o ∈ s.userdata := by
    rw [List.any_eq_true]
    constructor
    · rintro ⟨u, listed, shares⟩
      cases u <;> simp_all [Userdata.shares]
    · exact fun listed => ⟨_, listed, by simp [Userdata.shares]⟩
  have queued : (s.mQueueMap.entries.any fun entry => (tsb.holds entry.2).contains o) ↔ ∃ id, o ∈ s.holds id := by
    simp only [List.any_eq_true, List.contains_iff_mem, holds]
    constructor
    · rintro ⟨⟨id, queue⟩, listed, there⟩
      have known : s.mQueueMap.lookup id = some queue := AList.mem_lookup_iff.mpr listed
      exact ⟨id, by simpa [known] using there⟩
    · rintro ⟨id, there⟩
      cases known : s.mQueueMap.lookup id with
      | none => simp [known] at there
      | some queue => exact ⟨⟨id, queue⟩, AList.mem_lookup_iff.mp known, by simpa [known] using there⟩
  rw [held, Bool.or_eq_true, shared, queued]

/-- A pointer that is followed leads to an object that lives. -/
theorem follow_cases {object : Option Nat} {act : Nat → υ → State tsb υ π} (lives : ∀ o, object = some o → (s.objects o).isSome)
    (there : object ≠ none) : ∃ o value, object = some o ∧ s.objects o = some value ∧ s.follow wild object act = act o value := by
  obtain ⟨o, rfl⟩ := Option.ne_none_iff_exists'.mp there
  obtain ⟨value, content⟩ := Option.isSome_iff_exists.mp (lives o rfl)
  exact ⟨o, value, rfl, content, by rw [follow]; simp only [content]⟩

/-- The queues and their history stay as they are. -/
theorem Inv.of_same (inv : Inv s) (holds : s'.holds = s.holds) (posted : s'.posted = s.posted) (received : s'.received = s.received)
    (made : ∀ o, (s'.objects o).isSome → o < s'.made) (owned : ∀ u ∈ s'.userdata, ∀ o, u.object? = some o → (s'.objects o).isSome)
    (queued : ∀ id, ∀ m ∈ s.waiting id, (s'.objects m.object).isSome)
    (copy : ∀ id, ∀ m ∈ s.waiting id, m.copied = true →
      s'.objects m.object = some m.content ∧ ∀ u ∈ s'.userdata, u.object? ≠ some m.object) : Inv s' := by
  have waiting : s'.waiting = s.waiting := by
    funext id
    rw [State.waiting, State.waiting, posted, received]
  have delivered : s'.delivered = s.delivered := by
    funext id
    rw [State.delivered, State.delivered, posted, received]
  refine ⟨made, owned, ?_, ?_, ?_, ?_, ?_, ?_⟩
  all_goals first | rw [waiting] | rw [delivered]
  · exact queued
  · exact copy
  · exact inv.within
  · exact inv.across
  · rw [holds]
    exact inv.order
  · rw [received]
    exact inv.received

theorem holds_insert (id : Nat) (queue : tsb.Queue) (i : Nat) :
    State.holds { s with mQueueMap := s.mQueueMap.insert id queue } i = if i = id then tsb.holds queue else s.holds i := by
  by_cases same : i = id
  · subst same
    simp [State.holds]
  · simp [State.holds, same, AList.lookup_insert_ne same]

theorem Inv.create (fifo : tsb.Fifo) (inv : Inv s) (name : String) : Inv (s.create hash name) := by
  unfold State.create
  split
  next => exact inv
  next unknown =>
    refine inv.of_same (funext fun id => ?_) rfl rfl inv.made inv.owned inv.queued inv.copy
    rw [holds_insert]
    split
    next same => rw [State.holds, same, unknown, fifo.empty]; rfl
    next => rfl

theorem made_make (inv : Inv s) (value : υ) (o : Nat) (some : ((s.make value).objects o).isSome) : o < (s.make value).made := by
  by_cases same : o = s.made
  · exact Nat.lt_succ_of_le (Nat.le_of_eq same)
  · exact Nat.lt_succ_of_lt (inv.made o (by simpa [make, same] using some))

/-- What lives is not touched by a new object. -/
theorem Inv.objects_make (inv : Inv s) (value : υ) {o : Nat} (lives : (s.objects o).isSome) :
    (s.make value).objects o = s.objects o :=
  Function.update_of_ne (Nat.ne_of_lt (inv.made o lives)) ..

theorem Inv.make (inv : Inv s) (value : υ) : Inv (s.make value) := by
  refine inv.of_same rfl rfl rfl (made_make inv value) ?_ ?_ ?_
  · intro u listed o there
    have lives := inv.owned u listed o there
    rwa [inv.objects_make value lives]
  · intro id m listed
    have lives := inv.queued id m listed
    rwa [inv.objects_make value lives]
  · intro id m listed copied
    rw [inv.objects_make value (inv.queued id m listed)]
    exact inv.copy id m listed copied

/-- A pointer more, to an object that lives and is no copy in a queue. -/
theorem Inv.point (inv : Inv s) {u : Userdata π} {o : Nat} (there : u.object? = some o) (lives : (s.objects o).isSome)
    (free : ∀ id, ∀ m ∈ s.waiting id, m.copied = true → o ≠ m.object) : Inv { s with userdata := s.userdata ++ [u] } := by
  refine inv.of_same rfl rfl rfl inv.made ?_ inv.queued fun id m listed copied => ?_
  · intro u' listed o' there'
    obtain old | new := List.mem_append.mp listed
    · exact inv.owned u' old o' there'
    · rw [List.mem_singleton.mp new, there] at there'
      exact Option.some.inj there' ▸ lives
  · obtain ⟨content, others⟩ := inv.copy id m listed copied
    refine ⟨content, fun u' listed' => ?_⟩
    obtain old | new := List.mem_append.mp listed'
    · exact others u' old
    · rw [List.mem_singleton.mp new, there]
      exact fun same => free id m listed copied (Option.some.inj same)

theorem Inv.new (inv : Inv s) (value : υ) : Inv { s.make value with userdata := s.userdata ++ [.sharedPtr s.made] } := by
  refine (inv.make value).point (u := .sharedPtr s.made) rfl (by simp [State.make]) fun id m listed _ => ?_
  exact Ne.symm (Nat.ne_of_lt (inv.made _ (inv.queued id m listed)))

/-- A plain pointer or a shared one leads to no copy in a queue. -/
theorem Inv.apart (inv : Inv s) {u : Userdata π} {o : Nat} (mine : u ∈ s.userdata) (there : u.object? = some o) :
    ∀ id, ∀ m ∈ s.waiting id, m.copied = true → o ≠ m.object :=
  fun id m listed copied same => (inv.copy id m listed copied).2 u mine (same ▸ there)

/-- Nobody can write to a copy that waits in a queue. -/
theorem Inv.write (inv : Inv s) {u : Userdata π} {object : Nat} (mine : u ∈ s.userdata) (there : u.object? = some object) (value : υ)
    (kept : π → Bool) :
    Inv { s with objects := Function.update s.objects object (some value), userdata := s.userdata.map (·.dangle object kept) } := by
  have lives {o : Nat} (before : (s.objects o).isSome) : (Function.update s.objects object (some value) o).isSome := by
    by_cases same : o = object
    · simp [same]
    · simpa [same] using before
  refine inv.of_same rfl rfl rfl (fun o after => ?_) ?_ (fun id m listed => lives (inv.queued id m listed))
    fun id m listed copied => ?_
  · by_cases same : o = object
    · rw [same]
      exact inv.made object (inv.owned u mine object there)
    · exact inv.made o (by simpa [same] using after)
  · intro u' listed o there'
    obtain ⟨v, before, rfl⟩ := List.mem_map.mp listed
    exact lives (inv.owned v before o (object_dangle there'))
  · obtain ⟨content, others⟩ := inv.copy id m listed copied
    refine ⟨(Function.update_of_ne (Ne.symm (inv.apart mine there id m listed copied)) ..).trans content, fun u' listed' there' => ?_⟩
    obtain ⟨v, before, rfl⟩ := List.mem_map.mp listed'
    exact others v before (object_dangle there')

/-- Without a shared pointer no message leads to the object, and the plain pointers to it are left alone from now on. -/
theorem Inv.release (inv : Inv s) (object : Nat) : Inv (s.release object) := by
  unfold State.release
  split
  next => exact inv
  next loose =>
    rw [held_iff, not_or, not_exists] at loose
    obtain ⟨unshared, unqueued⟩ := loose
    have other (id : Nat) (m : Message υ) (listed : m ∈ s.waiting id) : m.object ≠ object := by
      rintro rfl
      exact unqueued id (inv.order id ▸ List.mem_map_of_mem listed)
    refine inv.of_same rfl rfl rfl (fun o after => ?_) ?_ (fun id m listed => ?_) fun id m listed copied => ?_
    · by_cases same : o = object
      · simp [same] at after
      · exact inv.made o (by simpa [same] using after)
    · intro u listed o there
      obtain ⟨v, before, rfl⟩ := List.mem_map.mp listed
      have lives := inv.owned v before o (object_dangle there)
      have ne : o ≠ object := by
        rintro rfl
        cases v with
        | sharedPtr object' =>
          obtain rfl : object' = o := Option.some.inj there
          exact unshared before
        | rawPtr object' member =>
          obtain rfl : object' = o := Option.some.inj (object_dangle there)
          simp [Userdata.dangle, Userdata.object?] at there
        | dangling => cases there
      simpa [ne] using lives
    · simpa [other id m listed] using inv.queued id m listed
    · obtain ⟨content, others⟩ := inv.copy id m listed copied
      refine ⟨by simpa [other id m listed] using content, fun u listed' there => ?_⟩
      obtain ⟨v, before, rfl⟩ := List.mem_map.mp listed'
      exact others v before (object_dangle there)

theorem Inv.destroy (inv : Inv s) (i : Nat) (u : Userdata π) : Inv (s.destroy i u) := by
  have erased : Inv { s with userdata := s.userdata.eraseIdx i } := by
    refine inv.of_same rfl rfl rfl inv.made ?_ inv.queued fun id m listed copied => ?_
    · exact fun u listed => inv.owned u (List.mem_of_mem_eraseIdx listed)
    · obtain ⟨content, others⟩ := inv.copy id m listed copied
      exact ⟨content, fun u listed => others u (List.mem_of_mem_eraseIdx listed)⟩
  cases u with
  | sharedPtr object => exact erased.release object
  | rawPtr object member => exact erased
  | dangling => exact erased

theorem Inv.length_received (inv : Inv s) (id : Nat) : (s.received id).length ≤ (s.posted id).length := by
  have same := (inv.received id).length_eq
  rw [delivered, List.length_take] at same
  omega

theorem Inv.waiting_send (inv : Inv s) (id : Nat) (queue : tsb.Queue) (m : Message υ) (i : Nat) :
    (s.send id queue m).waiting i = if i = id then s.waiting id ++ [m] else s.waiting i := by
  by_cases same : i = id
  · subst same
    have posted : (s.send i queue m).posted i = s.posted i ++ [m] := Function.update_self ..
    rw [if_pos rfl, State.waiting, posted]
    exact List.drop_append_of_le_length (inv.length_received i)
  · simp [State.waiting, State.send, same]

theorem Inv.delivered_send (inv : Inv s) (id : Nat) (queue : tsb.Queue) (m : Message υ) (i : Nat) :
    (s.send id queue m).delivered i = s.delivered i := by
  by_cases same : i = id
  · subst same
    have posted : (s.send i queue m).posted i = s.posted i ++ [m] := Function.update_self ..
    rw [State.delivered, posted]
    exact List.take_append_of_le_length (inv.length_received i)
  · simp [State.delivered, State.send, same]

theorem Inv.mem_waiting_send (inv : Inv s) {id i : Nat} {queue : tsb.Queue} {m m' : Message υ}
    (listed : m' ∈ (s.send id queue m).waiting i) : m' ∈ s.waiting i ∨ (i = id ∧ m' = m) := by
  rw [inv.waiting_send] at listed
  split at listed
  next same =>
    subst same
    obtain old | new := List.mem_append.mp listed
    · exact .inl old
    · exact .inr ⟨rfl, List.mem_singleton.mp new⟩
  · exact .inl listed

theorem Inv.send (fifo : tsb.Fifo) (inv : Inv s) {id : Nat} {queue : tsb.Queue} (known : s.mQueueMap.lookup id = some queue)
    {m : Message υ} (lives : (s.objects m.object).isSome)
    (copy : m.copied = true → s.objects m.object = some m.content ∧ ∀ u ∈ s.userdata, u.object? ≠ some m.object)
    (apart : ∀ id', ∀ m' ∈ s.waiting id', Apart m' m) : Inv (s.send id queue m) := by
  refine ⟨inv.made, inv.owned, fun i m' listed => ?_, fun i m' listed copied => ?_, fun i => ?_, fun i j other m₁ h₁ m₂ h₂ => ?_,
    fun i => ?_, fun i => ?_⟩
  · obtain old | ⟨_, rfl⟩ := inv.mem_waiting_send listed
    · exact inv.queued i m' old
    · exact lives
  · obtain old | ⟨_, rfl⟩ := inv.mem_waiting_send listed
    · exact inv.copy i m' old copied
    · exact copy copied
  · rw [inv.waiting_send]
    split
    · exact List.pairwise_append.mpr ⟨inv.within id, List.pairwise_singleton _ _, fun m' listed x new => by
        rw [List.mem_singleton.mp new]
        exact apart id m' listed⟩
    · exact inv.within i
  · obtain old₁ | ⟨rfl, rfl⟩ := inv.mem_waiting_send h₁ <;> obtain old₂ | ⟨rfl, rfl⟩ := inv.mem_waiting_send h₂
    · exact inv.across i j other m₁ old₁ m₂ old₂
    · exact apart i m₁ old₁
    · exact (apart j m₂ old₂).symm
    · exact absurd rfl other
  · have holds_eq : (s.send id queue m).holds i = if i = id then tsb.holds queue ++ [m.object] else s.holds i := by
      rw [← fifo.send]
      exact holds_insert id (tsb.send queue m.object) i
    rw [inv.waiting_send, holds_eq]
    split
    next same =>
      have before := inv.order id
      rw [State.holds, known] at before
      rw [List.map_append, before]
      rfl
    · exact inv.order i
  · rw [inv.delivered_send]
    exact inv.received i

theorem Inv.post (fifo : tsb.Fifo) (inv : Inv s) {id : Nat} {queue : tsb.Queue} {u : Userdata π} (mine : u ∈ s.userdata)
    (careful : u.object? ≠ none) (known : s.mQueueMap.lookup id = some queue) : Inv (s.post read wild id queue u) := by
  obtain ⟨object, value, there, content, eq⟩ := follow_cases wild (inv.owned u mine) careful
  rw [State.post, eq]
  have lives := inv.owned u mine object there
  cases u with
  | sharedPtr _ =>
    refine inv.send fifo known lives (fun copied => by cases copied) fun id' m' listed copied => ?_
    obtain copied | copied := copied
    · exact Ne.symm (inv.apart mine there id' m' listed copied)
    · cases copied
  | rawPtr _ place =>
    have made : (s.make (read value place)).objects s.made = some (read value place) := Function.update_self ..
    refine (inv.make _).send fifo known (m := ⟨s.made, _, _⟩) (by simp [made]) (fun _ => ⟨made, fun u listed there => ?_⟩)
      fun id' m' listed _ => Nat.ne_of_lt (inv.made _ (inv.queued id' m' listed))
    exact Nat.lt_irrefl _ (inv.made s.made (inv.owned u listed s.made there))
  | dangling => cases there

/-- `recv` of an object that is there. -/
def handOut (s : State tsb υ π) (id object : Nat) (value : υ) (rest : tsb.Queue) : State tsb υ π :=
  { s with
    mQueueMap := s.mQueueMap.insert id rest
    userdata := s.userdata ++ [.sharedPtr object]
    received := Function.update s.received id (s.received id ++ [(object, value)]) }

theorem waiting_handOut {id : Nat} {m : Message υ} {later : List (Message υ)} (waits : s.waiting id = m :: later) (value : υ)
    (rest : tsb.Queue) (i : Nat) :
    (s.handOut id m.object value rest).waiting i = if i = id then later else s.waiting i := by
  by_cases same : i = id
  · subst same
    have split : (s.posted i).drop ((s.received i).length + 1) = later := by
      rw [← List.drop_drop, ← State.waiting, waits, List.drop_one, List.tail_cons]
    simpa [State.waiting, State.handOut] using split
  · simp [State.waiting, State.handOut, same]

theorem delivered_handOut {id : Nat} {m : Message υ} {later : List (Message υ)} (waits : s.waiting id = m :: later) (value : υ)
    (rest : tsb.Queue) : (s.handOut id m.object value rest).delivered id = s.delivered id ++ [m] := by
  have split : (s.posted id).take ((s.received id).length + 1) = (s.posted id).take (s.received id).length ++ [m] := by
    rw [List.take_add, ← State.waiting, waits]
    rfl
  simpa [State.delivered, State.handOut] using split

/-- What is left in the queues was there, and is not the message if one of them is a copy. -/
theorem Inv.mem_waiting_handOut (inv : Inv s) {id i : Nat} {m m' : Message υ} {later : List (Message υ)}
    (waits : s.waiting id = m :: later) {value : υ} {rest : tsb.Queue}
    (listed : m' ∈ (s.handOut id m.object value rest).waiting i) : m' ∈ s.waiting i ∧ Apart m m' := by
  rw [waiting_handOut waits] at listed
  split at listed
  next same =>
    subst same
    have within := inv.within i
    rw [waits, List.pairwise_cons] at within
    exact ⟨by simp [waits, listed], within.1 m' listed⟩
  next other => exact ⟨listed, inv.across id i (Ne.symm other) m (by simp [waits]) m' listed⟩

theorem Inv.handOut (inv : Inv s) {id : Nat} {m : Message υ} {later : List (Message υ)} (waits : s.waiting id = m :: later)
    {value : υ} (content : s.objects m.object = some value) {rest : tsb.Queue}
    (left : later.map Message.object = tsb.holds rest) : Inv (s.handOut id m.object value rest) := by
  have first : m ∈ s.waiting id := by simp [waits]
  refine ⟨inv.made, fun u listed o there => ?_, fun i m' listed => inv.queued i m' (inv.mem_waiting_handOut waits listed).1,
    fun i m' listed copied => ?_, fun i => ?_, fun i j other m₁ h₁ m₂ h₂ => ?_, fun i => ?_, fun i => ?_⟩
  · obtain old | new := List.mem_append.mp listed
    · exact inv.owned u old o there
    · rw [List.mem_singleton.mp new] at there
      exact Option.some.inj there ▸ inv.queued id m first
  · obtain ⟨old, apart⟩ := inv.mem_waiting_handOut waits listed
    obtain ⟨content, free⟩ := inv.copy i m' old copied
    refine ⟨content, fun u listed' => ?_⟩
    obtain old | new := List.mem_append.mp listed'
    · exact free u old
    · rw [List.mem_singleton.mp new]
      exact fun same => apart (.inr copied) (Option.some.inj same)
  · have within := inv.within id
    rw [waits, List.pairwise_cons] at within
    rw [waiting_handOut waits]
    split
    · exact within.2
    · exact inv.within i
  · exact inv.across i j other m₁ (inv.mem_waiting_handOut waits h₁).1 m₂ (inv.mem_waiting_handOut waits h₂).1
  · have holds_eq : (s.handOut id m.object value rest).holds i = if i = id then tsb.holds rest else s.holds i :=
      holds_insert id rest i
    rw [waiting_handOut waits, holds_eq]
    split
    · exact left
    · exact inv.order i
  · by_cases same : i = id
    · subst same
      have found : Delivers m (m.object, value) :=
        ⟨rfl, fun copied => Option.some.inj (content.symm.trans (inv.copy i m first copied).1)⟩
      rw [delivered_handOut waits]
      simpa [State.handOut] using List.rel_append (inv.received i) (.cons found .nil)
    · simpa [State.delivered, State.handOut, same] using inv.received i

theorem Inv.recv (fifo : tsb.Fifo) (inv : Inv s) {id message : Nat} {queue rest : tsb.Queue}
    (known : s.mQueueMap.lookup id = some queue) (taken : tsb.tryRecv queue = some (message, rest)) :
    Inv (s.recv wild id message rest) := by
  have here : s.holds id = message :: tsb.holds rest := by
    rw [State.holds, known]
    exact fifo.tryRecv queue message rest taken
  obtain ⟨m, later, waits, rfl, left⟩ : ∃ m later, s.waiting id = m :: later ∧ m.object = message
      ∧ later.map Message.object = tsb.holds rest := List.map_eq_cons_iff.mp ((inv.order id).trans here)
  obtain ⟨value, content⟩ := Option.isSome_iff_exists.mp (inv.queued id m (by simp [waits]))
  have eq : s.recv wild id m.object rest = s.handOut id m.object value rest := by
    simp only [State.recv, follow, content, State.handOut]
  rw [eq]
  exact inv.handOut waits content left

theorem Inv.step (fifo : tsb.Fifo) (inv : Inv s) {a : Action υ π} (careful : s.Careful a) (h : s.step hash read wild a = some s') :
    Inv s' := by
  have leads {i : Nat} {u : Userdata π} (mine : s.userdata[i]? = some u) (follows : a.follows = some i) : u.object? ≠ none := by
    cases u with
    | sharedPtr _ => simp [Userdata.object?]
    | rawPtr _ _ => simp [Userdata.object?]
    | dangling => exact absurd mine (careful i follows)
  cases a with
  | create name =>
    cases h
    exact inv.create hash fifo name
  | new value =>
    cases h
    exact inv.new value
  | member i place =>
    obtain ⟨u, mine, rfl⟩ := Option.map_eq_some_iff.mp h
    have listed := List.mem_of_getElem? mine
    obtain ⟨o, value, there, content, eq⟩ := follow_cases wild (inv.owned u listed) (leads mine rfl)
    rw [eq]
    exact inv.point rfl (inv.owned u listed o there) (inv.apart listed there)
  | write i value kept =>
    obtain ⟨u, mine, rfl⟩ := Option.map_eq_some_iff.mp h
    have listed := List.mem_of_getElem? mine
    obtain ⟨o, _, there, content, eq⟩ := follow_cases wild (inv.owned u listed) (leads mine rfl)
    rw [eq]
    exact inv.write listed there value kept
  | destroy i =>
    obtain ⟨u, _, rfl⟩ := Option.map_eq_some_iff.mp h
    exact inv.destroy i u
  | post id i =>
    obtain ⟨u, mine, rfl⟩ := Option.map_eq_some_iff.mp h
    split
    next => exact inv
    next queue known => exact inv.post read wild fifo (List.mem_of_getElem? mine) (leads mine rfl) known
  | recv id =>
    simp only [State.step] at h
    split at h
    next =>
      cases h
      exact inv
    next message rest taken =>
      cases h
      obtain ⟨queue, known, taken⟩ := Option.bind_eq_some_iff.mp taken
      exact inv.recv wild fifo known taken

/-- A queue that is first in, first out. -/
def listQueue : Tsbqueue := ⟨List Nat, [], fun q m => q ++ [m], fun q => q.head?.map fun m => (m, q.tail), id⟩

theorem fifo_listQueue : listQueue.Fifo where
  empty := rfl
  send _ _ := rfl
  tryRecv q m q' taken := by
    cases q with
    | nil => cases taken
    | cons x rest =>
      cases taken
      rfl

/-- A service posts a member of an object and destroys the object before the other service receives the member. -/
def handOver : List (Action Nat Unit) := [.create "q", .new 7, .member 0 (), .post 0 1, .destroy 0, .recv 0]

-- An object that is posted itself is found as the sender has changed it in the meantime.
example : ([.create "q", .new 1, .post 0 0, .write 0 2 fun _ => true, .recv 0].foldlM
      (step (fun _ => 0) (fun v _ => v) fun s => s) (.start listQueue Nat Unit)).map (fun s => (s.posted 0, s.received 0))
    = some ([⟨0, 1, false⟩], [(0, 2)]) := by
  decide

end State

end LAppS.MQ
