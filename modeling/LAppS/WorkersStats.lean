import LAppS.RobinHash.Runs
import LAppS.Transition.Runs
import LAppS.Transition.Threads

/-!
# The statistics of the workers

Workers publish their statistics in a map that other threads extend, shrink and copy. Nobody waits on a mutex:
`can_update` is closed by whoever changes or copies the map, and `updaters` counts the calls of `try_update` under way.
Every access to the two atomics, every store and every copy of an item is a step of its own, and threads take their steps in
any order.
-/

namespace LAppS.WorkersStats
open RobinHash RobinHash.Buckets Transition

structure IOStats where
  mConnections : Nat := 0
  mEventQSize : Nat := 0
  mInMessageCount : Nat := 0
  mOutMessageCount : Nat := 0
  mInMessageMaxSize : Nat := 0
  mOutMessageMaxSize : Nat := 0
  mBytesIn : Nat := 0
  mBytesOut : Nat := 0
  mInQueueDepth : Nat := 0
  deriving DecidableEq

/-- The stores of `operator=`, in their order. -/
def IOStats.assignments (value : IOStats) : List (IOStats → IOStats) :=
  [fun this => { this with mConnections := value.mConnections },
    fun this => { this with mEventQSize := value.mEventQSize },
    fun this => { this with mInMessageCount := value.mInMessageCount },
    fun this => { this with mOutMessageCount := value.mOutMessageCount },
    fun this => { this with mInMessageMaxSize := value.mInMessageMaxSize },
    fun this => { this with mOutMessageMaxSize := value.mOutMessageMaxSize },
    fun this => { this with mInQueueDepth := value.mInQueueDepth }]

abbrev Stats := Table Nat IOStats

/-- A store through an iterator; an iterator that points to no value has none. -/
def store (t : Stats) (it : Nat) (f : IOStats → IOStats) : Option Stats :=
  (t.buckets.slot it).map fun s => { t with buckets := t.buckets.set it (some { s with value := f s.value }) }

inductive Change where
  | addSlot (wid : Nat)
  | delSlot (wid : Nat)

def Change.apply (hash : Nat → Nat) (t : Stats) : Change → Option Stats
  | .addSlot wid => (t.insertImpl hash wid {}).map Prod.fst
  | .delSlot wid => (t.findImpl hash wid).bind fun
    | some it => t.eraseAt it
    | none => some t

inductive Call where
  | tryUpdate (wid : Nat) (stats : IOStats)
  | change (c : Change)
  | getStats (statmap : Stats)

/-- What a thread does next. -/
inductive Pc where
  | idle
  /-- `updaters.fetch_add(1)` -/
  | counting (wid : Nat) (stats : IOStats)
  /-- `can_update.compare_exchange_strong(expected,true)` -/
  | checking (wid : Nat) (stats : IOStats)
  | finding (wid : Nat) (stats : IOStats)
  | storing (wid it : Nat) (rest : List (IOStats → IOStats))
  /-- `updaters.fetch_sub(1)` -/
  | leaving (result : Bool)
  /-- `can_update.compare_exchange_strong(expected,false)` -/
  | closing (c : Change)
  /-- `updaters.compare_exchange_strong(cexpected,0)` -/
  | waiting (c : Change)
  | changing (c : Change)
  | opening
  | asking (statmap : Stats)
  | copying (it : Nat) (statmap : Stats)
  | reopening (statmap : Stats)

def Call.enter : Call → Pc
  | .tryUpdate wid stats => .counting wid stats
  | .change c => .closing c
  | .getStats statmap => .asking statmap

structure State (ι : Type) where
  canUpdate : Bool
  updaters : Nat
  stats : Stats
  threads : ι → Pc

def State.init (ι : Type) : State ι := ⟨true, 0, Table.empty, fun _ => .idle⟩

variable {ι : Type} [DecidableEq ι]

/-- The thread goes on with `pc`. -/
def State.goto (s : State ι) (i : ι) (pc : Pc) : State ι := { s with threads := Function.update s.threads i pc }

/-- The next step of a thread. A failed `compare_exchange_strong` that is tried again changes nothing. -/
def State.next (hash : Nat → Nat) (s : State ι) (i : ι) : Option (State ι) :=
  match s.threads i with
  | .idle => none
  | .counting wid stats => some ({ s with updaters := s.updaters + 1 }.goto i (.checking wid stats))
  | .checking wid stats => some (s.goto i (if s.canUpdate then .finding wid stats else .leaving false))
  | .finding wid stats => (s.stats.findImpl hash wid).map fun
    | some it => s.goto i (.storing wid it stats.assignments)
    | none => s.goto i (.leaving false)
  | .storing _ _ [] => some (s.goto i (.leaving true))
  | .storing wid it (f :: rest) => (store s.stats it f).map fun t => { s with stats := t }.goto i (.storing wid it rest)
  | .leaving _ => some ({ s with updaters := s.updaters - 1 }.goto i .idle)
  | .closing c => if s.canUpdate then some ({ s with canUpdate := false }.goto i (.waiting c)) else none
  | .waiting c => if s.updaters = 0 then some (s.goto i (.changing c)) else none
  | .changing c => (c.apply hash s.stats).map fun t => { s with stats := t }.goto i .opening
  | .opening => some ({ s with canUpdate := true }.goto i .idle)
  | .asking m => if s.canUpdate then some ({ s with canUpdate := false }.goto i (.copying 0 m)) else none
  | .copying it m =>
    if it < s.stats.buckets.length then
      match s.stats.buckets.slot it with
      | some item => (m.insertImpl hash item.key item.value).map fun r => s.goto i (.copying (it + 1) r.1)
      | none => some (s.goto i (.copying (it + 1) m))
    else some (s.goto i (.reopening m))
  | .reopening _ => some ({ s with canUpdate := true }.goto i .idle)

inductive Action (ι : Type) where
  | call (i : ι) (c : Call)
  | next (i : ι)

def step (hash : Nat → Nat) (s : State ι) : Action ι → Option (State ι)
  | .call i c =>
    match s.threads i with
    | .idle => some (s.goto i c.enter)
    | _ => none
  | .next i => s.next hash i

/-! ### Places of a thread -/

namespace Pc

/-- Between `fetch_add` and `fetch_sub`. -/
def counted : Pc → Bool
  | .checking .. | .finding .. | .storing .. | .leaving .. => true
  | _ => false

/-- The thread has closed `can_update`. -/
def holds : Pc → Bool
  | .waiting .. | .changing .. | .opening | .copying .. | .reopening .. => true
  | _ => false

def updates : Pc → Bool
  | .finding .. | .storing .. => true
  | _ => false

def changes : Pc → Bool
  | .changing .. => true
  | _ => false

theorem counted_of_updates {pc : Pc} (h : pc.updates = true) : pc.counted = true := by
  cases pc <;> first | rfl | cases h

theorem holds_of_changes {pc : Pc} (h : pc.changes = true) : pc.holds = true := by
  cases pc <;> first | rfl | cases h

theorem changes_updates {pc : Pc} (h : pc.changes = true) : pc.updates = false := by
  cases pc <;> first | rfl | cases h

end Pc

/-! ### Exclusion -/

/-- The atomics count the threads, nobody looks for a slot while the map changes, and an iterator points to the slot it was
found for. -/
structure Inv [Fintype ι] (s : State ι) : Prop where
  count : s.updaters = count Pc.counted s.threads
  closed : (!s.canUpdate).toNat = Transition.count Pc.holds s.threads
  apart : ∀ i j, (s.threads i).changes = true → (s.threads j).updates = false
  iterators : ∀ i wid it rest, s.threads i = .storing wid it rest → (s.stats.buckets.slot it).map Slot.key = some wid

variable [Fintype ι]

omit [DecidableEq ι] in
theorem inv_init : Inv (State.init ι) where
  count := (Finset.sum_eq_zero fun _ _ => rfl).symm
  closed := (Finset.sum_eq_zero fun _ _ => rfl).symm
  apart := fun _ _ changes => by cases changes
  iterators := fun _ _ _ _ storing => by cases storing

section Move

variable {s : State ι} {i : ι}

omit [DecidableEq ι] in
theorem Inv.not_holds (inv : Inv s) (opened : s.canUpdate = true) (j : ι) : (s.threads j).holds = false :=
  not_of_count_zero (by rw [← inv.closed, opened]; rfl) j

omit [DecidableEq ι] in
theorem Inv.not_counted (inv : Inv s) (zero : s.updaters = 0) (j : ι) : (s.threads j).counted = false :=
  not_of_count_zero (inv.count.symm.trans zero) j

theorem Inv.apart_update (inv : Inv s) {pc : Pc} (updates : pc.updates = true → (s.threads i).updates = true ∨ s.canUpdate = true)
    (changes : pc.changes = true → s.updaters = 0) (j k : ι) (hj : (Function.update s.threads i pc j).changes = true) :
    (Function.update s.threads i pc k).updates = false := by
  by_cases own_j : j = i
  · -- The thread begins to change the map: no call of `try_update` is under way.
    subst own_j
    rw [Function.update_self] at hj
    by_cases own_k : k = j
    · subst own_k
      rw [Function.update_self]
      exact Pc.changes_updates hj
    · rw [Function.update_of_ne own_k]
      cases at_ : (s.threads k).updates with
      | false => rfl
      | true =>
        have zero := inv.not_counted (changes hj) k
        rw [Pc.counted_of_updates at_] at zero
        cases zero
  · rw [Function.update_of_ne own_j] at hj
    by_cases own_k : k = i
    · -- The thread goes on to look for its slot: then the map was open.
      subst own_k
      rw [Function.update_self]
      cases at_ : pc.updates with
      | false => rfl
      | true =>
        rcases updates at_ with inside | opened
        · exact absurd inside (by rw [inv.apart j k hj]; decide)
        · have free := inv.not_holds opened j
          rw [Pc.holds_of_changes hj] at free
          cases free
    · rw [Function.update_of_ne own_k]
      exact inv.apart j k hj

theorem Inv.iterators_update (inv : Inv s) {t : Stats} {pc : Pc}
    (keys : (∀ it, (t.buckets.slot it).map Slot.key = (s.stats.buckets.slot it).map Slot.key) ∨ (s.threads i).changes = true)
    (own : ∀ wid it rest, pc = .storing wid it rest → (t.buckets.slot it).map Slot.key = some wid) (j : ι) (wid it : Nat)
    (rest : List (IOStats → IOStats)) (hj : Function.update s.threads i pc j = .storing wid it rest) :
    (t.buckets.slot it).map Slot.key = some wid := by
  by_cases own_j : j = i
  · subst own_j
    rw [Function.update_self] at hj
    exact own wid it rest hj
  · rw [Function.update_of_ne own_j] at hj
    rcases keys with keys | changing
    · rw [keys]
      exact inv.iterators j wid it rest hj
    · have apart := inv.apart i j changing
      rw [hj] at apart
      cases apart

/-- One thread goes on with `pc`; the atomics and the map may change with it. -/
theorem Inv.move (inv : Inv s) {b : Bool} {u : Nat} {t : Stats} {pc : Pc}
    (counted : u + (s.threads i).counted.toNat = s.updaters + pc.counted.toNat)
    (holds : (!b).toNat + (s.threads i).holds.toNat = (!s.canUpdate).toNat + pc.holds.toNat)
    (updates : pc.updates = true → (s.threads i).updates = true ∨ s.canUpdate = true)
    (changes : pc.changes = true → s.updaters = 0)
    (keys : (∀ it, (t.buckets.slot it).map Slot.key = (s.stats.buckets.slot it).map Slot.key) ∨ (s.threads i).changes = true)
    (own : ∀ wid it rest, pc = .storing wid it rest → (t.buckets.slot it).map Slot.key = some wid) :
    Inv ⟨b, u, t, Function.update s.threads i pc⟩ := by
  have turn := count_update Pc.counted s.threads i pc
  have turn' := count_update Pc.holds s.threads i pc
  have := inv.count
  have := inv.closed
  exact ⟨by dsimp only; omega, by dsimp only; omega, inv.apart_update updates changes, inv.iterators_update keys own⟩

/-- The thread goes on, and nothing else changes. -/
theorem Inv.goto (inv : Inv s) {pc : Pc} (counted : pc.counted = (s.threads i).counted) (holds : pc.holds = (s.threads i).holds)
    (updates : pc.updates = true → (s.threads i).updates = true ∨ s.canUpdate = true) (changes : pc.changes = true → s.updaters = 0)
    (own : ∀ wid it rest, pc = .storing wid it rest → (s.stats.buckets.slot it).map Slot.key = some wid) : Inv (s.goto i pc) :=
  inv.move (by rw [counted]) (by rw [holds]) updates changes (.inl fun _ => rfl) own

/-- The thread goes on outside the map, and nothing else changes. -/
theorem Inv.pass (inv : Inv s) {pc : Pc} (counted : pc.counted = (s.threads i).counted) (holds : pc.holds = (s.threads i).holds)
    (updates : pc.updates = false) (changes : pc.changes = false) : Inv (s.goto i pc) := by
  refine inv.goto counted holds (fun h => ?_) (fun h => ?_) fun wid it rest h => ?_
  · rw [updates] at h; cases h
  · rw [changes] at h; cases h
  · rw [h] at updates; cases updates

theorem Inv.close (inv : Inv s) {pc : Pc} (opened : s.canUpdate = true) (before : (s.threads i).holds = false) (after : pc.holds = true)
    (counted : pc.counted = (s.threads i).counted) (updates : pc.updates = false) (changes : pc.changes = false) :
    Inv ({ s with canUpdate := false }.goto i pc) := by
  refine inv.move (by rw [counted]) (by rw [before, after, opened]; rfl) (fun h => ?_) (fun h => ?_) (.inl fun _ => rfl) fun wid it rest h => ?_
  · rw [updates] at h; cases h
  · rw [changes] at h; cases h
  · rw [h] at updates; cases updates

theorem Inv.reopen (inv : Inv s) (before : (s.threads i).holds = true) (counted : (s.threads i).counted = false) :
    Inv ({ s with canUpdate := true }.goto i .idle) := by
  have closed : (!s.canUpdate).toNat = 1 := by
    have one := count_pos before
    have := inv.closed
    have := Bool.toNat_le (!s.canUpdate)
    omega
  exact inv.move (by rw [counted]; rfl) (by rw [before, closed]; rfl) (fun h => by cases h) (fun h => by cases h) (.inl fun _ => rfl)
    fun _ _ _ h => by cases h

end Move

theorem probe_found {κ υ : Type} {b : Buckets κ υ} {same : κ → Bool} {fuel i d it : Nat} (h : probe b same fuel i d = some (.found it)) :
    ∃ slot, b.slot it = some slot ∧ same slot.key = true := by
  induction fuel generalizing i d with
  | zero => cases h
  | succ fuel ih =>
    cases at_ : b.slot i with
    | none =>
      rw [probe, at_] at h
      cases h
    | some slot =>
      rw [probe_some at_] at h
      split_ifs at h with near hit
      · obtain rfl : i = it := by simpa using h
        exact ⟨slot, at_, hit⟩
      · obtain ⟨d', -, rest⟩ := Option.bind_eq_some_iff.mp h
        exact ih rest
      · cases h

theorem findImpl_key {hash : Nat → Nat} {t : Stats} {wid it : Nat} (h : t.findImpl hash wid = some (some it)) :
    (t.buckets.slot it).map Slot.key = some wid := by
  obtain ⟨r, ended, found⟩ := Option.map_eq_some_iff.mp h
  cases r with
  | vacant => cases found
  | found i =>
    obtain rfl : i = it := by simpa using found
    obtain ⟨slot, at_, same⟩ := probe_found ended
    rw [at_, Option.map_some, of_decide_eq_true same]

theorem store_keys {t t' : Stats} {it : Nat} {f : IOStats → IOStats} (h : store t it f = some t') (j : Nat) :
    (t'.buckets.slot j).map Slot.key = (t.buckets.slot j).map Slot.key := by
  obtain ⟨s, at_, rfl⟩ := Option.map_eq_some_iff.mp h
  change (slot (t.buckets.set it _) j).map Slot.key = _
  rw [slot_set (lt_of_slot at_)]
  split_ifs with own
  · rw [own, at_]
    rfl
  · rfl

theorem Inv.next {hash : Nat → Nat} {s s' : State ι} {i : ι} (inv : Inv s) (h : s.next hash i = some s') : Inv s' := by
  rw [State.next] at h
  cases at_ : s.threads i with rw [at_] at h
  | idle => cases h
  | counting wid stats =>
    cases h
    exact inv.move (by rw [at_]; rfl) (by rw [at_]; rfl) (fun h => by cases h) (fun h => by cases h) (.inl fun _ => rfl)
      fun _ _ _ h => by cases h
  | checking wid stats =>
    cases h
    cases opened : s.canUpdate with
    | true => exact inv.goto (by rw [at_]; rfl) (by rw [at_]; rfl) (fun _ => .inr opened) (fun h => by cases h) fun _ _ _ h => by cases h
    | false => exact inv.pass (by rw [at_]; rfl) (by rw [at_]; rfl) rfl rfl
  | finding wid stats =>
    obtain ⟨r, found, rfl⟩ := Option.map_eq_some_iff.mp h
    cases r with
    | none => exact inv.pass (by rw [at_]; rfl) (by rw [at_]; rfl) rfl rfl
    | some it =>
      refine inv.goto (by rw [at_]; rfl) (by rw [at_]; rfl) (fun _ => .inl (by rw [at_]; rfl)) (fun h => by cases h) fun wid' it' rest' same => ?_
      cases same
      exact findImpl_key found
  | storing wid it rest =>
    cases rest with
    | nil =>
      cases h
      exact inv.pass (by rw [at_]; rfl) (by rw [at_]; rfl) rfl rfl
    | cons f rest =>
      obtain ⟨t, stored, rfl⟩ := Option.map_eq_some_iff.mp h
      refine inv.move (by rw [at_]; rfl) (by rw [at_]; rfl) (fun _ => .inl (by rw [at_]; rfl)) (fun h => by cases h) (.inl (store_keys stored))
        fun wid' it' rest' same => ?_
      cases same
      rw [store_keys stored]
      exact inv.iterators i wid it (f :: rest) at_
  | leaving result =>
    cases h
    have one : 0 < s.updaters := by
      rw [inv.count]
      exact count_pos (p := Pc.counted) (i := i) (by rw [at_]; rfl)
    refine inv.move ?_ (by rw [at_]; rfl) (fun h => by cases h) (fun h => by cases h) (.inl fun _ => rfl) fun _ _ _ h => by cases h
    rw [at_]
    exact Nat.sub_add_cancel one
  | closing c =>
    obtain ⟨opened, ⟨⟩⟩ : s.canUpdate = true ∧ _ := Option.ite_none_right_eq_some.mp h
    exact inv.close opened (by rw [at_]; rfl) rfl (by rw [at_]; rfl) rfl rfl
  | waiting c =>
    obtain ⟨alone, ⟨⟩⟩ : s.updaters = 0 ∧ _ := Option.ite_none_right_eq_some.mp h
    exact inv.goto (by rw [at_]; rfl) (by rw [at_]; rfl) (fun h => by cases h) (fun _ => alone) fun _ _ _ h => by cases h
  | changing c =>
    obtain ⟨t, -, rfl⟩ := Option.map_eq_some_iff.mp h
    exact inv.move (by rw [at_]; rfl) (by rw [at_]; rfl) (fun h => by cases h) (fun h => by cases h) (.inr (by rw [at_]; rfl))
      fun _ _ _ h => by cases h
  | opening =>
    cases h
    exact inv.reopen (by rw [at_]; rfl) (by rw [at_]; rfl)
  | asking m =>
    obtain ⟨opened, ⟨⟩⟩ : s.canUpdate = true ∧ _ := Option.ite_none_right_eq_some.mp h
    exact inv.close opened (by rw [at_]; rfl) rfl (by rw [at_]; rfl) rfl rfl
  | copying it m =>
    dsimp only at h
    split_ifs at h with inside
    · cases item : s.stats.buckets.slot it with rw [item] at h
      | none =>
        cases h
        exact inv.pass (by rw [at_]; rfl) (by rw [at_]; rfl) rfl rfl
      | some slot =>
        obtain ⟨r, -, rfl⟩ := Option.map_eq_some_iff.mp h
        exact inv.pass (by rw [at_]; rfl) (by rw [at_]; rfl) rfl rfl
    · cases h
      exact inv.pass (by rw [at_]; rfl) (by rw [at_]; rfl) rfl rfl
  | reopening m =>
    cases h
    exact inv.reopen (by rw [at_]; rfl) (by rw [at_]; rfl)

theorem Inv.step {hash : Nat → Nat} {s s' : State ι} (inv : Inv s) (a : Action ι) (h : step hash s a = some s') : Inv s' := by
  cases a with
  | next i => exact inv.next h
  | call i c =>
    rw [WorkersStats.step] at h
    cases at_ : s.threads i with rw [at_] at h
    | idle =>
      cases h
      cases c <;> exact inv.pass (by rw [at_]; rfl) (by rw [at_]; rfl) rfl rfl
    | _ => cases h

/-- The next step of the thread is a `compare_exchange_strong` that fails and is tried again. -/
def State.Spins (s : State ι) (i : ι) : Prop :=
  match s.threads i with
  | .closing _ | .asking _ => s.canUpdate = false
  | .waiting _ => 0 < s.updaters
  | _ => False

/-- Whoever changes the map is alone with it, whoever copies it excludes all but `try_update`, an iterator stays valid until
it is no longer used, and some thread can go on as long as one has to. -/
structure Safe (s : State ι) : Prop where
  one : ∀ i j, (s.threads i).holds = true → (s.threads j).holds = true → i = j
  alone : ∀ i j, (s.threads i).changes = true → (s.threads j).updates = false
  iterators : ∀ i wid it rest, s.threads i = .storing wid it rest → ∃ slot, s.stats.buckets.slot it = some slot ∧ slot.key = wid
  live : (∃ i, s.threads i ≠ .idle) → ∃ i, s.threads i ≠ .idle ∧ ¬ s.Spins i

omit [DecidableEq ι] in
theorem Inv.live {s : State ι} (inv : Inv s) (busy : ∃ i, s.threads i ≠ .idle) : ∃ i, s.threads i ≠ .idle ∧ ¬ s.Spins i := by
  by_cases some_counted : 0 < s.updaters
  · -- A call of `try_update` never waits.
    rw [inv.count] at some_counted
    obtain ⟨i, counted⟩ := exists_of_count_pos some_counted
    refine ⟨i, fun idle => ?_, fun spins => ?_⟩
    · rw [idle] at counted; cases counted
    · rw [State.Spins] at spins
      cases at_ : s.threads i <;> rw [at_] at counted spins <;> first | exact spins | cases counted
  · by_cases closed : s.canUpdate = false
    · have one : 0 < Transition.count Pc.holds s.threads := by rw [← inv.closed, closed]; decide
      obtain ⟨i, holds⟩ := exists_of_count_pos one
      refine ⟨i, fun idle => ?_, fun spins => ?_⟩
      · rw [idle] at holds; cases holds
      · rw [State.Spins] at spins
        cases at_ : s.threads i <;> rw [at_] at holds spins <;> first | exact spins | exact some_counted spins | cases holds
    · obtain ⟨i, at_⟩ := busy
      refine ⟨i, at_, fun spins => ?_⟩
      rw [State.Spins] at spins
      split at spins
      · exact closed spins
      · exact closed spins
      · exact some_counted spins
      · exact spins

theorem Inv.safe {s : State ι} (inv : Inv s) : Safe s where
  one := fun i j hi hj => by
    have le : Transition.count Pc.holds s.threads ≤ 1 := by
      rw [← inv.closed]
      exact Bool.toNat_le _
    exact eq_of_count_le_one le hi hj
  alone := inv.apart
  iterators := fun i wid it rest at_ => Option.map_eq_some_iff.mp (inv.iterators i wid it rest at_)
  live := inv.live

theorem always_safe (hash : Nat → Nat) (actions : List (Action ι)) : Always (step hash) Safe (State.init ι) actions := by
  have invariant : Always (step hash) Inv (State.init ι) actions := always_of_step inv_init fun _ a _ inv h => inv.step a h
  exact invariant.mono fun _ => Inv.safe

-- A copy does not wait for the calls of `try_update`: it may find a slot between two stores.
example :
    ([.call 0 (.change (.addSlot 7)), .next 0, .next 0, .next 0, .next 0,
      .call 0 (.tryUpdate 7 { mConnections := 1, mInMessageCount := 1 }), .next 0, .next 0, .next 0, .next 0,
      .call 1 (.getStats Table.empty), .next 1, .next 1, .next 1].foldlM (step id) (State.init (Fin 2))).map
        (fun s => ((s.threads 0).updates, match s.threads 1 with | .copying _ m => entries m.buckets | _ => [])) =
      some (true, [(7, { mConnections := 1 })]) := by
  decide +kernel

/-! ### What is published -/

def NoBytes (v : IOStats) : Prop := v.mBytesIn = 0 ∧ v.mBytesOut = 0

theorem assignments_noBytes (value : IOStats) : ∀ f ∈ value.assignments, ∀ v, NoBytes v → NoBytes (f v) := by
  intro f member v none_
  simp only [IOStats.assignments, List.mem_cons, List.not_mem_nil, or_false] at member
  rcases member with rfl | rfl | rfl | rfl | rfl | rfl | rfl <;> exact none_

structure Unpublished (s : State ι) : Prop where
  values : Values NoBytes s.stats.buckets
  stores : ∀ i wid it rest, s.threads i = .storing wid it rest → ∀ f ∈ rest, ∀ v, NoBytes v → NoBytes (f v)

section Unpublished

variable {ι : Type} [DecidableEq ι] {s s' : State ι} {i : ι} {hash : Nat → Nat}

theorem Unpublished.move (h : Unpublished s) {b : Bool} {u : Nat} {t : Stats} {pc : Pc} (values : Values NoBytes t.buckets)
    (stores : ∀ wid it rest, pc = .storing wid it rest → ∀ f ∈ rest, ∀ v, NoBytes v → NoBytes (f v)) :
    Unpublished ⟨b, u, t, Function.update s.threads i pc⟩ := by
  refine ⟨values, fun j wid it rest at_ => ?_⟩
  change Function.update s.threads i pc j = _ at at_
  by_cases own : j = i
  · subst own
    rw [Function.update_self] at at_
    exact stores wid it rest at_
  · rw [Function.update_of_ne own] at at_
    exact h.stores j wid it rest at_

theorem store_noBytes {t t' : Stats} {it : Nat} {f : IOStats → IOStats} (values : Values NoBytes t.buckets)
    (keeps : ∀ v, NoBytes v → NoBytes (f v)) (h : store t it f = some t') : Values NoBytes t'.buckets := by
  obtain ⟨s, at_, rfl⟩ := Option.map_eq_some_iff.mp h
  exact values_put values (keeps _ (values it s at_)) it s.dist s.key

theorem apply_noBytes {t t' : Stats} {c : Change} (values : Values NoBytes t.buckets) (h : c.apply hash t = some t') :
    Values NoBytes t'.buckets := by
  cases c with
  | addSlot wid =>
    obtain ⟨⟨t₁, inserted⟩, ran, rfl⟩ := Option.map_eq_some_iff.mp h
    exact Table.insertImpl_values values ⟨rfl, rfl⟩ ran
  | delSlot wid =>
    obtain ⟨found, -, h⟩ := Option.bind_eq_some_iff.mp h
    cases found with
    | none =>
      cases h
      exact values
    | some it => exact Table.eraseAt_values values h

theorem Unpublished.next (h : Unpublished s) (ran : s.next hash i = some s') : Unpublished s' := by
  rw [State.next] at ran
  cases at_ : s.threads i with rw [at_] at ran
  | idle => cases ran
  | counting | leaving | opening | reopening =>
    cases ran
    exact h.move h.values fun _ _ _ same => by cases same
  | checking =>
    cases ran
    refine h.move h.values fun wid it rest same => ?_
    split_ifs at same
  | finding wid stats =>
    obtain ⟨r, -, rfl⟩ := Option.map_eq_some_iff.mp ran
    cases r with
    | none => exact h.move h.values fun _ _ _ same => by cases same
    | some it =>
      refine h.move h.values fun wid' it' rest' same => ?_
      cases same
      exact assignments_noBytes stats
  | storing wid it rest =>
    cases rest with
    | nil =>
      cases ran
      exact h.move h.values fun _ _ _ same => by cases same
    | cons f rest =>
      obtain ⟨t, stored, rfl⟩ := Option.map_eq_some_iff.mp ran
      have keeps := h.stores i wid it (f :: rest) at_
      refine h.move (store_noBytes h.values (keeps f List.mem_cons_self) stored) fun wid' it' rest' same => ?_
      cases same
      exact fun f' member => keeps f' (List.mem_cons_of_mem f member)
  | closing | waiting | asking =>
    obtain ⟨-, ⟨⟩⟩ := Option.ite_none_right_eq_some.mp ran
    exact h.move h.values fun _ _ _ same => by cases same
  | changing c =>
    obtain ⟨t, applied, rfl⟩ := Option.map_eq_some_iff.mp ran
    exact h.move (apply_noBytes h.values applied) fun _ _ _ same => by cases same
  | copying it m =>
    dsimp only at ran
    split_ifs at ran with inside
    · cases item : s.stats.buckets.slot it with rw [item] at ran
      | none =>
        cases ran
        exact h.move h.values fun _ _ _ same => by cases same
      | some slot =>
        obtain ⟨r, -, rfl⟩ := Option.map_eq_some_iff.mp ran
        exact h.move h.values fun _ _ _ same => by cases same
    · cases ran
      exact h.move h.values fun _ _ _ same => by cases same

theorem Unpublished.step (h : Unpublished s) (a : Action ι) (ran : step hash s a = some s') : Unpublished s' := by
  cases a with
  | next i => exact h.next ran
  | call i c =>
    rw [WorkersStats.step] at ran
    cases at_ : s.threads i with rw [at_] at ran
    | idle =>
      cases ran
      exact h.move h.values fun _ _ _ same => by cases c <;> cases same
    | _ => cases ran

/-- `operator=` leaves out the byte counters: whatever the workers publish, they stay zero in every slot. -/
theorem always_noBytes (hash : Nat → Nat) (actions : List (Action ι)) :
    Always (WorkersStats.step hash) (fun s => ∀ wid v, (wid, v) ∈ entries s.stats.buckets → v.mBytesIn = 0 ∧ v.mBytesOut = 0)
      (State.init ι) actions := by
  have start : Unpublished (State.init ι) :=
    ⟨values_replicate 0, fun i wid it rest at_ => Pc.noConfusion at_⟩
  refine (always_of_step start fun _ a _ h ran => h.step a ran).mono fun s h wid v listed => ?_
  obtain ⟨i, slot, at_, -, rfl⟩ := mem_entries.mp listed
  exact h.values i slot at_

end Unpublished

end LAppS.WorkersStats
