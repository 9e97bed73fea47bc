import LAppS.Transition.Runs
import Mathlib.Logic.Function.Basic

/-!
# Stopping the standalone services

A standalone service runs `while not must_stop()`, or its `run` returns or fails on its own. The first calls of `must_stop`
ask the registry for the address of the flag; `unreg` and `clear` hold the mutex of the registry until every instance they
destroy is down. Such an instance cannot come down any more when its `init` has failed, when it waits for the mutex in
`must_stop`, or when it leaves `run` for its flag only and has not found it.
-/

namespace LAppS.LuaStandaloneService
open Transition

/-- Where the thread of an instance is: in `init`, in the Lua code of `run`, in `findById` below `must_stop`, back in `run` with
the answer that it must stop, or past `lua_pcall`. -/
inductive Pc where
  | storeMustStop
  | storeCanStop
  | init
  | calling
  | lockCleanMutex
  | lockMutex
  | finding
  | told
  | leaving
  | done
  | failed
  deriving DecidableEq

/-- What the Lua code of the service does next. In `run` it goes on by calling `must_stop`. -/
inductive Turn where
  | goesOn
  | returns
  | fails
  deriving DecidableEq

structure Instance where
  pc : Pc := .storeMustStop
  -- `mustStopAddr` of the thread is not null
  mustStopAddr : Bool := false
  mMustStop : Bool := false
  mCanStop : Bool := false
  registered : Bool := false

inductive Who (ι : Type) where
  | service (i : ι)
  | stopper

/-- Where the thread is that stops services: `ServiceRegistry::unreg` of a name, or `ServiceRegistry::clear`, and in them
`ServicesInstanceHolder::clear` of one holder after the other. -/
inductive Stopper (ν ι : Type) where
  | idle
  | lockCleanMutex
  | lockMutex (name : Option ν)
  | unlockCleanMutex
  | clearing (later : List (List ι))
  | shutdown (rest holder : List ι) (later : List (List ι))
  | destroy (rest : List ι) (later : List (List ι))
  -- `while(mContext.isRunning())`
  | waiting (i : ι) (rest : List ι) (later : List (List ι))

structure State (ν ι : Type) where
  instances : ι → Instance
  mServices : ν → List ι
  mMutex : Option (Who ι)
  mCleanMutex : Option (Who ι)
  stopper : Stopper ν ι

def State.start (ν ι : Type) : State ν ι := ⟨fun _ => {}, fun _ => [], none, none, .idle⟩

inductive Action (ν ι : Type) where
  | reg (name : ν) (i : ι)
  | service (i : ι) (turn : Turn)
  | unreg (name : ν)
  | clear
  | stopper

variable {ν ι : Type} [DecidableEq ν] [DecidableEq ι]

def State.set (s : State ν ι) (i : ι) (x : Instance) : State ν ι := { s with instances := Function.update s.instances i x }

/-- `stop` of the context of the instance. -/
def State.stop (s : State ν ι) (i : ι) : State ν ι := s.set i { s.instances i with mMustStop := true }

/-- `ServiceRegistry::findById` finds the instance; `names` are the keys of `mServices`. -/
def State.findById (names : List ν) (s : State ν ι) (i : ι) : Bool := names.any fun name => (s.mServices name).contains i

/-- `must_stop`, before it asks the registry. -/
def Instance.mustStop (x : Instance) : Pc :=
  if x.mustStopAddr then if x.mMustStop then .told else .calling else .lockCleanMutex

/-- The thread of an instance once it may go on; `found` is what `findById` says. -/
def Instance.next (x : Instance) (turn : Turn) (found : Bool) : Instance :=
  match x.pc with
  | .storeMustStop => { x with mMustStop := false, pc := .storeCanStop }
  | .storeCanStop => { x with mCanStop := false, pc := .init }
  | .init =>
    match turn with
    | .goesOn => x
    | .returns => { x with pc := .calling }
    | .fails => { x with pc := .failed }
  | .calling | .told =>
    match turn with
    | .goesOn => { x with pc := x.mustStop }
    -- `run` of the context catches what `checkForLuaErrorsOnPcall` throws
    | .returns | .fails => { x with pc := .leaving }
  | .lockCleanMutex => { x with pc := .lockMutex }
  | .lockMutex => { x with pc := .finding }
  | .finding => { x with mustStopAddr := found, pc := .calling }
  | .leaving => { x with mCanStop := true, pc := .done }
  | .done => x
  | .failed => x

/-- What the service allows of its `run`. One that `loops` is `while not must_stop()`: it leaves when it is told to, and only
then. -/
def Pc.allows (loops : Bool) : Pc → Turn → Bool
  | .calling, turn => !loops || turn = .goesOn
  | .told, turn => !loops || turn ≠ .goesOn
  | _, _ => true

def State.serve (loops : ι → Bool) (names : List ν) (s : State ν ι) (i : ι) (turn : Turn) : Option (State ν ι) :=
  let next := s.set i ((s.instances i).next turn (s.findById names i))
  match (s.instances i).pc with
  | .lockCleanMutex => if s.mCleanMutex.isNone then some { next with mCleanMutex := some (.service i) } else none
  | .lockMutex => if s.mMutex.isNone then some { next with mMutex := some (.service i) } else none
  | .finding => some { next with mMutex := none, mCleanMutex := none }
  | .done | .failed => none
  | pc => if pc.allows (loops i) turn then some next else none

/-- One step of `unreg` or `clear`. The holders are taken out of `mServices` at once: the mutex is held until they are
destroyed. -/
def State.stopNext (names : List ν) (s : State ν ι) : Option (State ν ι) :=
  match s.stopper with
  | .idle => none
  | .lockCleanMutex =>
    if s.mCleanMutex.isNone then some { s with mCleanMutex := some .stopper, stopper := .lockMutex none } else none
  | .lockMutex none =>
    if s.mMutex.isNone then some { s with mMutex := some .stopper, stopper := .unlockCleanMutex } else none
  | .lockMutex (some name) =>
    if s.mMutex.isNone then
      some { s with
        mMutex := some .stopper
        mServices := Function.update s.mServices name []
        stopper := .clearing [s.mServices name] }
    else none
  | .unlockCleanMutex =>
    some { s with mCleanMutex := none, mServices := fun _ => [], stopper := .clearing (names.map s.mServices) }
  | .clearing [] => some { s with mMutex := none, stopper := .idle }
  | .clearing (holder :: later) => some { s with stopper := .shutdown holder holder later }
  | .shutdown [] holder later => some { s with stopper := .destroy holder later }
  | .shutdown (i :: rest) holder later => some { s.stop i with stopper := .shutdown rest holder later }
  | .destroy [] later => some { s with stopper := .clearing later }
  | .destroy (i :: rest) later => some { s.stop i with stopper := .waiting i rest later }
  | .waiting i rest later => if (s.instances i).mCanStop then some { s with stopper := .destroy rest later } else none

def step (loops : ι → Bool) (names : List ν) (s : State ν ι) : Action ν ι → Option (State ν ι)
  | .reg name i =>
    if s.mMutex.isNone && !(s.instances i).registered then
      some { s.set i { s.instances i with registered := true } with
        mServices := Function.update s.mServices name (s.mServices name ++ [i]) }
    else none
  | .service i turn => s.serve loops names i turn
  | .unreg name => match s.stopper with
    | .idle => some { s with stopper := .lockMutex (some name) }
    | _ => none
  | .clear => match s.stopper with
    | .idle => some { s with stopper := .lockCleanMutex }
    | _ => none
  | .stopper => s.stopNext names

/-- The instances whose end the stopper has still to wait for, once it holds the mutex. -/
def State.remaining (names : List ν) (s : State ν ι) : Option (List ι) :=
  match s.stopper with
  | .idle | .lockCleanMutex | .lockMutex _ => none
  | .unlockCleanMutex => some (names.map s.mServices).flatten
  | .clearing later => some later.flatten
  | .shutdown _ holder later => some (holder ++ later.flatten)
  | .destroy rest later => some (rest ++ later.flatten)
  | .waiting i rest later => some (i :: rest ++ later.flatten)

/-! ### The thread of an instance -/

/-- What a thread knows by where it is. -/
structure Instance.Ok (loops : Bool) (x : Instance) : Prop where
  cached : x.mustStopAddr → x.pc = .calling ∨ x.pc = .told ∨ x.pc = .leaving ∨ x.pc = .done
  told : x.pc = .told → x.mustStopAddr
  left : x.pc = .leaving ∨ x.pc = .done → loops → x.mustStopAddr
  down : x.mCanStop ↔ x.pc = .done

/-- The instance can come down while another thread holds the mutex of the registry. -/
def Instance.CanLeave (loops : Bool) (x : Instance) : Prop :=
  x.mustStopAddr ∨ (loops = false ∧ x.pc ≠ .lockCleanMutex ∧ x.pc ≠ .lockMutex ∧ x.pc ≠ .failed)

variable {loop : Bool} {x : Instance} {turn : Turn} {found : Bool}

theorem Instance.next_ok (ok : x.Ok loop) (allowed : x.pc.allows loop turn) : (x.next turn found).Ok loop := by
  obtain ⟨cached, told, left, down⟩ := ok
  cases at_ : x.pc <;> cases turn <;> constructor <;>
    simp_all [Instance.next, Instance.mustStop, Pc.allows] <;> grind

theorem Instance.next_finds (h : (x.next turn found).mustStopAddr) : x.mustStopAddr ∨ x.pc = .finding := by
  cases at_ : x.pc <;> cases turn <;> simp_all [Instance.next]

theorem Instance.next_mMustStop (set : x.mMustStop) (past : x.pc ≠ .storeMustStop) : (x.next turn found).mMustStop := by
  cases at_ : x.pc <;> cases turn <;> simp_all [Instance.next]

theorem Instance.next_finding : (x.next turn found).pc = .finding ↔ x.pc = .lockMutex := by
  cases at_ : x.pc <;> cases turn <;> simp [Instance.next, Instance.mustStop, at_] <;> grind

theorem Instance.Ok.canLeave_of_mCanStop (ok : x.Ok loop) (down : x.mCanStop) : x.CanLeave loop := by
  have at_ := ok.down.mp down
  cases loop with
  | false => exact .inr ⟨rfl, by simp [at_]⟩
  | true => exact .inl (ok.left (.inr at_) rfl)

/-- Without the mutex an instance that cannot leave gets no further than to wait for it. -/
theorem Instance.canLeave_of_next (blocked : x.pc ≠ .lockMutex ∧ x.pc ≠ .finding) (h : (x.next turn found).CanLeave loop) :
    x.CanLeave loop := by
  obtain addr | ⟨rfl, free⟩ := h
  · exact .inl ((Instance.next_finds addr).resolve_right blocked.2)
  · refine .inr ⟨rfl, ?_⟩
    cases at_ : x.pc <;> simp_all [Instance.next]

/-- How far an instance is from the end of `run`. -/
def Pc.distance : Pc → Nat
  | .storeMustStop => 6
  | .storeCanStop => 5
  | .init => 4
  | .calling => 3
  | .told => 2
  | .leaving => 1
  | .lockCleanMutex | .lockMutex | .finding | .done | .failed => 0

/-- An instance that can leave has a next step towards the end, whatever the registry holds. -/
theorem Instance.CanLeave.closer (leaves : x.CanLeave loop) (ok : x.Ok loop) (flag : x.mustStopAddr → x.mMustStop)
    (searching : x.pc ≠ .finding) (up : x.pc ≠ .done) :
    ∃ turn, x.pc.allows loop turn ∧ x.pc ≠ .lockCleanMutex ∧ x.pc ≠ .lockMutex ∧ x.pc ≠ .failed
      ∧ ∀ found, (x.next turn found).CanLeave loop ∧ (x.next turn found).pc.distance < x.pc.distance := by
  have alone (at_ : x.pc = .storeMustStop ∨ x.pc = .storeCanStop ∨ x.pc = .init) : loop = false := by
    obtain addr | ⟨alone, _⟩ := leaves
    · have := ok.cached addr
      grind
    · exact alone
  cases at_ : x.pc with
  | storeMustStop => exact ⟨.goesOn, by simp [Pc.allows, Instance.next, Instance.CanLeave, Pc.distance, at_, alone]⟩
  | storeCanStop => exact ⟨.goesOn, by simp [Pc.allows, Instance.next, Instance.CanLeave, Pc.distance, at_, alone]⟩
  | init => exact ⟨.returns, by simp [Pc.allows, Instance.next, Instance.CanLeave, Pc.distance, at_, alone]⟩
  | calling =>
    cases loop with
    | false => exact ⟨.returns, by simp [Pc.allows, Instance.next, Instance.CanLeave, Pc.distance, at_]⟩
    | true =>
      -- the loop has found its flag, and the flag is set
      have addr : x.mustStopAddr := by simpa [Instance.CanLeave] using leaves
      exact ⟨.goesOn, by simp [Pc.allows, Instance.next, Instance.mustStop, Instance.CanLeave, Pc.distance, at_, addr, flag addr]⟩
  | told => exact ⟨.returns, by simp [Pc.allows, Instance.next, Instance.CanLeave, Pc.distance, at_, ok.told at_]⟩
  | leaving =>
    refine ⟨.goesOn, rfl, by simp, by simp, by simp, fun found => ⟨?_, by simp [Instance.next, Pc.distance, at_]⟩⟩
    exact leaves.imp (by simp [Instance.next, at_]) (by simp [Instance.next, at_])
  | finding | done => contradiction
  | lockCleanMutex | lockMutex | failed =>
    obtain addr | ⟨_, free⟩ := leaves
    · simpa [at_] using ok.cached addr
    · simp [at_] at free

variable {loops : ι → Bool} {names : List ν} {s s' : State ν ι} {i : ι}

omit [DecidableEq ν] in
/-- The mutex changes hands only around `finding`. -/
theorem serve_cases (h : s.serve loops names i turn = some s') :
    ∃ mMutex mCleanMutex,
      s' = { s.set i ((s.instances i).next turn (s.findById names i)) with mMutex, mCleanMutex }
      ∧ (s.instances i).pc.allows (loops i) turn
      ∧ ((mMutex = s.mMutex ∧ (s.instances i).pc ≠ .lockMutex ∧ (s.instances i).pc ≠ .finding)
        ∨ ((s.instances i).pc = .lockMutex ∧ s.mMutex = none ∧ mMutex = some (.service i))
        ∨ ((s.instances i).pc = .finding ∧ mMutex = none)) := by
  unfold State.serve at h
  cases at_ : (s.instances i).pc <;> simp only [at_] at h
  case lockCleanMutex =>
    obtain ⟨_, ⟨⟩⟩ := Option.ite_none_right_eq_some.mp h
    exact ⟨_, _, rfl, rfl, .inl ⟨rfl, by simp, by simp⟩⟩
  case lockMutex =>
    obtain ⟨free, ⟨⟩⟩ := Option.ite_none_right_eq_some.mp h
    exact ⟨_, _, rfl, rfl, .inr (.inl ⟨rfl, Option.isNone_iff_eq_none.mp free, rfl⟩)⟩
  case finding =>
    obtain ⟨⟩ := h
    exact ⟨_, _, rfl, rfl, .inr (.inr ⟨rfl, rfl⟩)⟩
  case done | failed => simp at h
  all_goals
    obtain ⟨allowed, ⟨⟩⟩ := Option.ite_none_right_eq_some.mp h
    exact ⟨_, _, rfl, allowed, .inl ⟨rfl, by simp, by simp⟩⟩

/-! ### The thread that stops services -/

/-- A step of the stopper only sets flags, takes the mutex when it is free, and releases it at the end. -/
structure Stopped (names : List ν) (s s' : State ν ι) : Prop where
  instances : ∀ j, ∃ flag, s'.instances j = { s.instances j with mMustStop := flag } ∧ ((s.instances j).mMustStop → flag)
  mutex : (s'.mMutex = s.mMutex ∧ (s'.remaining names).isSome = (s.remaining names).isSome)
    ∨ (s.mMutex = none ∧ s'.mMutex = some .stopper ∧ (s'.remaining names).isSome)
    ∨ (s.remaining names = some [] ∧ s'.mMutex = none ∧ s'.remaining names = none)
  waits : ∀ l, s.remaining names = some l →
    s'.remaining names = some l ∨ (l = [] ∧ s'.mMutex = none)
      ∨ ∃ j rest, l = j :: rest ∧ s'.remaining names = some rest ∧ (s.instances j).mCanStop
  flags : ∀ j rest later, s'.stopper = .waiting j rest later → (s'.instances j).mMustStop

omit [DecidableEq ν] in
theorem stop_instances (s : State ν ι) (i j : ι) :
    ∃ flag, (s.stop i).instances j = { s.instances j with mMustStop := flag } ∧ ((s.instances j).mMustStop → flag) := by
  by_cases same : j = i
  · subst same
    exact ⟨true, by simp [State.stop, State.set], fun _ => rfl⟩
  · exact ⟨(s.instances j).mMustStop, by simp [State.stop, State.set, same], id⟩

omit [DecidableEq ν] [DecidableEq ι] in
theorem Stopped.of_remaining
    (instances : ∀ j, ∃ flag, s'.instances j = { s.instances j with mMustStop := flag } ∧ ((s.instances j).mMustStop → flag))
    (mutex : s'.mMutex = s.mMutex) (remaining : s'.remaining names = s.remaining names)
    (flags : ∀ j rest later, s'.stopper = .waiting j rest later → (s'.instances j).mMustStop) : Stopped names s s' :=
  ⟨instances, .inl ⟨mutex, by rw [remaining]⟩, fun _ waits => .inl (remaining.trans waits), flags⟩

theorem stopped_of_stopNext (h : s.stopNext names = some s') : Stopped names s s' := by
  have same (j : ι) : ∃ flag, s.instances j = { s.instances j with mMustStop := flag } ∧ ((s.instances j).mMustStop → flag) :=
    ⟨(s.instances j).mMustStop, rfl, id⟩
  unfold State.stopNext at h
  cases at_ : s.stopper with rw [at_] at h
  | idle => simp at h
  | lockCleanMutex =>
    obtain ⟨_, ⟨⟩⟩ := Option.ite_none_right_eq_some.mp h
    exact .of_remaining same rfl (by simp [State.remaining, at_]) (by simp)
  | lockMutex name =>
    cases name
    all_goals
      obtain ⟨free, ⟨⟩⟩ := Option.ite_none_right_eq_some.mp h
      exact ⟨same, .inr (.inl ⟨Option.isNone_iff_eq_none.mp free, rfl, rfl⟩), by simp [State.remaining, at_], by simp⟩
  | unlockCleanMutex =>
    obtain ⟨⟩ := h
    exact .of_remaining same rfl (by simp [State.remaining, at_]) (by simp)
  | clearing later =>
    cases later with
    | nil =>
      obtain ⟨⟩ := h
      exact ⟨same, .inr (.inr ⟨by simp [State.remaining, at_], rfl, rfl⟩), by simp [State.remaining, at_], by simp⟩
    | cons holder later =>
      obtain ⟨⟩ := h
      exact .of_remaining same rfl (by simp [State.remaining, at_]) (by simp)
  | shutdown rest holder later =>
    cases rest with
    | nil =>
      obtain ⟨⟩ := h
      exact .of_remaining same rfl (by simp [State.remaining, at_]) (by simp)
    | cons i rest =>
      obtain ⟨⟩ := h
      exact .of_remaining (stop_instances s i) rfl (by simp [State.remaining, at_]) (by simp)
  | destroy rest later =>
    cases rest with
    | nil =>
      obtain ⟨⟩ := h
      exact .of_remaining same rfl (by simp [State.remaining, at_]) (by simp)
    | cons i rest =>
      obtain ⟨⟩ := h
      exact .of_remaining (stop_instances s i) rfl (by simp [State.remaining, at_]) (by simp [State.stop, State.set])
  | waiting i rest later =>
    obtain ⟨down, ⟨⟩⟩ := Option.ite_none_right_eq_some.mp h
    refine ⟨same, .inl ⟨rfl, by simp [State.remaining, at_]⟩, fun l remaining => ?_, by simp⟩
    obtain rfl : i :: (rest ++ later.flatten) = l := by simpa [State.remaining, at_] using remaining
    exact .inr (.inr ⟨i, _, rfl, rfl, down⟩)

/-! ### Every interleaving -/

structure Inv (loops : ι → Bool) (names : List ν) (s : State ν ι) : Prop where
  ok : ∀ i, (s.instances i).Ok (loops i)
  holds : (s.remaining names).isSome ↔ s.mMutex = some .stopper
  finding : ∀ i, (s.instances i).pc = .finding → s.mMutex = some (.service i)
  flagged : ∀ i rest later, s.stopper = .waiting i rest later → (s.instances i).mustStopAddr → (s.instances i).mMustStop

omit [DecidableEq ν] [DecidableEq ι] in
theorem Inv.start : Inv loops names (.start ν ι) where
  ok _ := ⟨by simp [State.start], by simp [State.start], by simp [State.start], by simp [State.start]⟩
  holds := by simp [State.start, State.remaining]
  finding := by simp [State.start]
  flagged := by simp [State.start]

omit [DecidableEq ν] [DecidableEq ι] in
theorem Inv.not_finding (inv : Inv loops names s) (held : s.mMutex = some .stopper) : (s.instances i).pc ≠ .finding := by
  intro at_
  simp [inv.finding i at_] at held

omit [DecidableEq ν] in
theorem Inv.serve (inv : Inv loops names s) (h : s.serve loops names i turn = some s') : Inv loops names s' := by
  obtain ⟨mMutex, mCleanMutex, rfl, allowed, mutex⟩ := serve_cases h
  have held := inv.holds
  refine ⟨fun j => ?_, ?_, fun j at_ => ?_, fun j rest later waits found => ?_⟩
  · by_cases same : j = i
    · subst same
      simpa [State.set] using Instance.next_ok (inv.ok j) allowed
    · simpa [State.set, same] using inv.ok j
  · change (s.remaining names).isSome ↔ mMutex = some .stopper
    obtain ⟨rfl, _⟩ | ⟨_, free, rfl⟩ | ⟨at_, rfl⟩ := mutex
    · exact held
    · simpa [free] using held
    · simpa [inv.finding i at_] using held
  · change mMutex = some (.service j)
    by_cases same : j = i
    · subst same
      have locked : (s.instances j).pc = .lockMutex := by simpa [State.set, Instance.next_finding] using at_
      obtain ⟨_, other, _⟩ | ⟨_, _, rfl⟩ | ⟨other, _⟩ := mutex
      · contradiction
      · rfl
      · simp [locked] at other
    · have holder := inv.finding j (by simpa [State.set, same] using at_)
      obtain ⟨rfl, _⟩ | ⟨_, free, _⟩ | ⟨other, _⟩ := mutex
      · exact holder
      · simp [holder] at free
      · simp_all [inv.finding i other]
  · change s.stopper = .waiting j rest later at waits
    by_cases same : j = i
    · subst same
      have mine : s.mMutex = some .stopper := held.mp (by simp [State.remaining, waits])
      have found : ((s.instances j).next turn (s.findById names j)).mustStopAddr := by simpa [State.set] using found
      have before := (Instance.next_finds found).resolve_right (inv.not_finding mine)
      have past : (s.instances j).pc ≠ .storeMustStop := by
        obtain at_ | at_ | at_ | at_ := (inv.ok j).cached before <;> simp [at_]
      simpa [State.set] using Instance.next_mMustStop (inv.flagged j rest later waits before) past
    · simpa [State.set, same] using inv.flagged j rest later waits (by simpa [State.set, same] using found)

omit [DecidableEq ν] [DecidableEq ι] in
theorem Inv.of_stopped (inv : Inv loops names s) (h : Stopped names s s') : Inv loops names s' := by
  have held := inv.holds
  refine ⟨fun j => ?_, ?_, fun j at_ => ?_, fun j rest later waits _ => h.flags j rest later waits⟩
  · obtain ⟨flag, same, _⟩ := h.instances j
    obtain ⟨cached, told, left, down⟩ := inv.ok j
    rw [same]
    exact ⟨cached, told, left, down⟩
  · obtain ⟨same, remaining⟩ | ⟨_, taken, remaining⟩ | ⟨_, released, remaining⟩ := h.mutex
    · rw [same, remaining]
      exact held
    · simp [taken, remaining]
    · simp [released, remaining]
  · obtain ⟨flag, same, _⟩ := h.instances j
    have holder := inv.finding j (by simpa [same] using at_)
    obtain ⟨mutex, _⟩ | ⟨free, _⟩ | ⟨remaining, _⟩ := h.mutex
    · rw [mutex, holder]
    · simp [holder] at free
    · simp [holder, remaining] at held

omit [DecidableEq ν] [DecidableEq ι] in
theorem Inv.of_registered (inv : Inv loops names s) (instances : ∀ j, ∃ flag, s'.instances j = { s.instances j with registered := flag })
    (mutex : s'.mMutex = s.mMutex) (remaining : (s'.remaining names).isSome = (s.remaining names).isSome)
    (waits : ∀ j rest later, s'.stopper = .waiting j rest later → s.stopper = .waiting j rest later) : Inv loops names s' := by
  refine ⟨fun j => ?_, by rw [remaining, mutex]; exact inv.holds, fun j at_ => ?_, fun j rest later at_ found => ?_⟩
  all_goals obtain ⟨flag, same⟩ := instances j
  · obtain ⟨cached, told, left, down⟩ := inv.ok j
    rw [same]
    exact ⟨cached, told, left, down⟩
  · rw [mutex]
    exact inv.finding j (by simpa [same] using at_)
  · simpa [same] using inv.flagged j rest later (waits j rest later at_) (by simpa [same] using found)

theorem Inv.step (inv : Inv loops names s) {a : Action ν ι} (h : step loops names s a = some s') : Inv loops names s' := by
  have same (j : ι) : ∃ flag, s.instances j = { s.instances j with registered := flag } := ⟨(s.instances j).registered, rfl⟩
  cases a with
  | reg name i =>
    obtain ⟨free, ⟨⟩⟩ := Option.ite_none_right_eq_some.mp h
    refine inv.of_registered (fun j => ?_) rfl ?_ fun _ _ _ => id
    · by_cases here : j = i
      · subst here
        exact ⟨true, by simp [State.set]⟩
      · exact ⟨(s.instances j).registered, by simp [State.set, here]⟩
    · cases at_ : s.stopper <;> simp [State.remaining, State.set, at_]
  | service i turn => exact inv.serve h
  | unreg name =>
    cases at_ : s.stopper <;> simp only [LuaStandaloneService.step, at_] at h <;> obtain ⟨⟩ := h
    exact inv.of_registered same rfl (by simp [State.remaining, at_]) (by simp)
  | clear =>
    cases at_ : s.stopper <;> simp only [LuaStandaloneService.step, at_] at h <;> obtain ⟨⟩ := h
    exact inv.of_registered same rfl (by simp [State.remaining, at_]) (by simp)
  | stopper => exact inv.of_stopped (stopped_of_stopNext h)

/-! ### Instances that cannot leave -/

/-- The stopper holds the mutex and waits for an instance that cannot leave without it. -/
structure Stuck (loops : ι → Bool) (names : List ν) (i : ι) (s : State ν ι) : Prop where
  inv : Inv loops names s
  waits : ∃ l, s.remaining names = some l ∧ i ∈ l
  lost : ¬ (s.instances i).CanLeave (loops i)

omit [DecidableEq ν] [DecidableEq ι] in
theorem Stuck.mutex (stuck : Stuck loops names i s) : s.mMutex = some .stopper := by
  obtain ⟨l, remaining, _⟩ := stuck.waits
  exact stuck.inv.holds.mp (by simp [remaining])

omit [DecidableEq ν] in
theorem Stuck.serve (stuck : Stuck loops names i s) {j : ι} (h : s.serve loops names j turn = some s') : Stuck loops names i s' := by
  refine ⟨stuck.inv.serve h, ?_, ?_⟩
  all_goals obtain ⟨_, _, rfl, _, mutex⟩ := serve_cases h
  · exact stuck.waits
  · by_cases same : i = j
    · subst same
      have blocked : (s.instances i).pc ≠ .lockMutex ∧ (s.instances i).pc ≠ .finding := by
        obtain ⟨_, waits, searches⟩ | ⟨_, free, _⟩ | ⟨at_, _⟩ := mutex
        · exact ⟨waits, searches⟩
        · simp [stuck.mutex] at free
        · exact absurd at_ (stuck.inv.not_finding stuck.mutex)
      exact fun leaves => stuck.lost (Instance.canLeave_of_next blocked (by simpa [State.set] using leaves))
    · simpa [State.set, same] using stuck.lost

omit [DecidableEq ν] [DecidableEq ι] in
/-- The stopper goes on to the next instance only when this one is down. -/
theorem Stuck.of_stopped (stuck : Stuck loops names i s) (h : Stopped names s s') : Stuck loops names i s' := by
  refine ⟨stuck.inv.of_stopped h, ?_, ?_⟩
  · obtain ⟨l, remaining, here⟩ := stuck.waits
    obtain same | ⟨rfl, _⟩ | ⟨j, rest, rfl, next, down⟩ := h.waits l remaining
    · exact ⟨l, same, here⟩
    · simp at here
    · refine ⟨rest, next, (List.mem_cons.mp here).resolve_left fun first => ?_⟩
      subst first
      exact stuck.lost ((stuck.inv.ok i).canLeave_of_mCanStop down)
  · obtain ⟨_, same, _⟩ := h.instances i
    simpa [same, Instance.CanLeave] using stuck.lost

theorem Stuck.step (stuck : Stuck loops names i s) {a : Action ν ι} (h : step loops names s a = some s') : Stuck loops names i s' := by
  obtain ⟨l, remaining, _⟩ := stuck.waits
  cases a with
  | reg name j => simp [LuaStandaloneService.step, stuck.mutex] at h
  | service j turn => exact stuck.serve h
  | unreg name => cases at_ : s.stopper <;> simp_all [LuaStandaloneService.step, State.remaining]
  | clear => cases at_ : s.stopper <;> simp_all [LuaStandaloneService.step, State.remaining]
  | stopper => exact stuck.of_stopped (stopped_of_stopNext h)

/-! ### Instances that can -/

/-- The stopper holds the mutex, and every instance that it waits for can leave without it. -/
structure Free (loops : ι → Bool) (names : List ν) (s : State ν ι) : Prop where
  inv : Inv loops names s
  leave : ∃ l, s.remaining names = some l ∧ ∀ i ∈ l, (s.instances i).CanLeave (loops i)

def holdersDistance : List (List ι) → Nat
  | [] => 0
  | holder :: later => 3 * holder.length + 3 + holdersDistance later

/-- How far the stopper is from releasing the mutex. -/
def State.distance (names : List ν) (s : State ν ι) : Nat :=
  match s.stopper with
  | .idle | .lockCleanMutex | .lockMutex _ => 0
  | .unlockCleanMutex => holdersDistance (names.map s.mServices) + 1
  | .clearing later => holdersDistance later
  | .shutdown rest holder later => rest.length + 2 * holder.length + 2 + holdersDistance later
  | .destroy rest later => 2 * rest.length + 1 + holdersDistance later
  | .waiting _ rest later => 2 * rest.length + 2 + holdersDistance later

omit [DecidableEq ν] in
theorem Free.serve (free : Free loops names s) (h : s.serve loops names i turn = some s')
    (leaves : ((s.instances i).next turn (s.findById names i)).CanLeave (loops i)) : Free loops names s' := by
  refine ⟨free.inv.serve h, ?_⟩
  obtain ⟨_, _, rfl, _⟩ := serve_cases h
  obtain ⟨l, remaining, leave⟩ := free.leave
  refine ⟨l, remaining, fun j here => ?_⟩
  by_cases same : j = i
  · subst same
    simpa [State.set] using leaves
  · simpa [State.set, same] using leave j here

omit [DecidableEq ν] [DecidableEq ι] in
theorem Free.of_stopped (free : Free loops names s) (h : Stopped names s s') : s'.mMutex = none ∨ Free loops names s' := by
  obtain ⟨l, remaining, leave⟩ := free.leave
  have kept (j : ι) (here : j ∈ l) : (s'.instances j).CanLeave (loops j) := by
    obtain ⟨_, same, _⟩ := h.instances j
    simpa [same, Instance.CanLeave] using leave j here
  obtain same | ⟨_, released⟩ | ⟨j, rest, rfl, next, _⟩ := h.waits l remaining
  · exact .inr ⟨free.inv.of_stopped h, l, same, kept⟩
  · exact .inl released
  · exact .inr ⟨free.inv.of_stopped h, rest, next, fun k here => kept k (List.mem_cons_of_mem j here)⟩

/-- Only an instance that is not down holds the stopper back, and each step brings it nearer to the end. -/
theorem stopNext_closer (holds : (s.remaining names).isSome)
    (down : ∀ i rest later, s.stopper = .waiting i rest later → (s.instances i).mCanStop) :
    ∃ s', s.stopNext names = some s' ∧ (s'.mMutex = none ∨ s'.distance names < s.distance names) := by
  unfold State.stopNext
  cases at_ : s.stopper with
  | idle => simp [State.remaining, at_] at holds
  | lockCleanMutex => simp [State.remaining, at_] at holds
  | lockMutex name => simp [State.remaining, at_] at holds
  | unlockCleanMutex => exact ⟨_, rfl, .inr (by simp [State.distance, at_])⟩
  | clearing later =>
    cases later with
    | nil => exact ⟨_, rfl, .inl rfl⟩
    | cons holder later =>
      refine ⟨_, rfl, .inr ?_⟩
      simp only [State.distance, at_, holdersDistance]
      omega
  | shutdown rest holder later =>
    cases rest with
    | nil => exact ⟨_, rfl, .inr (by simp [State.distance, at_])⟩
    | cons i rest => exact ⟨_, rfl, .inr (by simp [State.distance, at_])⟩
  | destroy rest later =>
    cases rest with
    | nil => exact ⟨_, rfl, .inr (by simp [State.distance, at_])⟩
    | cons i rest =>
      refine ⟨_, rfl, .inr ?_⟩
      simp only [State.distance, at_, List.length_cons]
      omega
  | waiting i rest later =>
    refine ⟨_, if_pos (down i rest later at_), .inr ?_⟩
    simp only [State.distance, at_]
    omega

/-- The instance that the stopper waits for comes down. -/
theorem Free.leaves {rest : List ι} {later : List (List ι)} (free : Free loops names s) (waits : s.stopper = .waiting i rest later) :
    ∃ s', Reaches (step loops names) s s' ∧ Free loops names s' ∧ s'.stopper = .waiting i rest later
      ∧ (s'.instances i).mCanStop := by
  refine reaches_of_measure (P := fun t => Free loops names t ∧ t.stopper = .waiting i rest later)
    (fun t => (t.instances i).pc.distance) (fun t ⟨free, waits⟩ => ?_) ⟨free, waits⟩
  have down := (free.inv.ok i).down
  by_cases up : (t.instances i).pc = .done
  · exact ⟨t, .refl, .inl ⟨free, waits, down.mpr up⟩⟩
  obtain ⟨l, remaining, leave⟩ := free.leave
  have mutex : t.mMutex = some .stopper := free.inv.holds.mp (by simp [remaining])
  have leaves : (t.instances i).CanLeave (loops i) := by
    obtain rfl : i :: (rest ++ later.flatten) = l := by simpa [State.remaining, waits] using remaining
    exact leave i (List.mem_cons_self ..)
  obtain ⟨turn, allowed, clean, lock, failed, closer⟩ :=
    leaves.closer (free.inv.ok i) (free.inv.flagged i rest later waits) (free.inv.not_finding mutex) up
  obtain ⟨leaves, closer⟩ := closer (t.findById names i)
  have taken : t.serve loops names i turn = some (t.set i ((t.instances i).next turn (t.findById names i))) := by
    have searching : (t.instances i).pc ≠ .finding := free.inv.not_finding mutex
    unfold State.serve
    split <;> first | contradiction | simp_all
  exact ⟨_, .single ⟨.service i turn, taken⟩, .inr ⟨⟨free.serve taken leaves, waits⟩, by simpa [State.set] using closer⟩⟩

omit [DecidableEq ν] [DecidableEq ι] in
theorem distance_of_waiting {rest : List ι} {later : List (List ι)} (here : s.stopper = .waiting i rest later)
    (there : s'.stopper = .waiting i rest later) : s'.distance names = s.distance names := by
  unfold State.distance
  rw [here, there]

/-- The instance that the stopper waits for comes down, and the stopper goes on. -/
theorem Free.progress (free : Free loops names s) :
    ∃ s', Reaches (step loops names) s s' ∧ (s'.mMutex = none ∨ (Free loops names s' ∧ s'.distance names < s.distance names)) := by
  obtain ⟨t, reaches, free, near, down⟩ : ∃ t, Reaches (step loops names) s t ∧ Free loops names t
      ∧ t.distance names = s.distance names
      ∧ ∀ i rest later, t.stopper = .waiting i rest later → (t.instances i).mCanStop := by
    cases at_ : s.stopper with
    | waiting i rest later =>
      obtain ⟨t, reaches, free, stopper, down⟩ := free.leaves at_
      refine ⟨t, reaches, free, distance_of_waiting at_ stopper, fun j _ _ waits => ?_⟩
      obtain ⟨rfl, _⟩ := Stopper.waiting.inj (stopper.symm.trans waits)
      exact down
    | _ =>
      refine ⟨s, .refl, free, rfl, fun i rest later waits => ?_⟩
      rw [at_] at waits
      cases waits
  obtain ⟨l, remaining, _⟩ := free.leave
  have holds : (t.remaining names).isSome := by simp [remaining]
  obtain ⟨u, taken, closer⟩ := stopNext_closer holds down
  refine ⟨u, reaches.tail ⟨.stopper, taken⟩, ?_⟩
  obtain released | free := free.of_stopped (stopped_of_stopNext taken)
  · exact .inl released
  · rw [near] at closer
    exact closer.imp_right fun closer => ⟨free, closer⟩

end LAppS.LuaStandaloneService
