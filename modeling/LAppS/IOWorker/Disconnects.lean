import LAppS.Transition.Runs
import Mathlib.Logic.Function.Basic

/-!
The queue of disconnect requests and its flag. A service thread appends the descriptor and then sets the flag. The
worker clears the flag after the test that finds the queue empty, and a request that comes in between is lost.
-/

namespace LAppS.IOWorker.Disconnects
open Transition

variable {ι : Type} [DecidableEq ι]

inductive Worker where
  | testFlag
  | testEmpty
  | recv
  | clearFlag
  deriving DecidableEq, Repr

structure State (ι : Type) where
  mDCQueue : List Int
  haveDisconnects : Bool
  mConnections : List Int
  -- the threads between `mDCQueue.send` and `haveDisconnects.store`
  sent : ι → Bool
  worker : Worker

inductive Action (ι : Type) where
  | send (thread : ι) (fd : Int)
  | store (thread : ι)
  | worker

def start (connections : List Int) : State ι := ⟨[], false, connections, fun _ => false, .testFlag⟩

def step (s : State ι) : Action ι → Option (State ι)
  | .send i fd =>
    if s.sent i then none
    else some { s with mDCQueue := s.mDCQueue ++ [fd], sent := Function.update s.sent i true }
  | .store i =>
    if s.sent i then some { s with haveDisconnects := true, sent := Function.update s.sent i false } else none
  | .worker =>
    match s.worker with
    | .testFlag => some { s with worker := if s.haveDisconnects then .testEmpty else .testFlag }
    | .testEmpty => some { s with worker := if s.mDCQueue.isEmpty then .clearFlag else .recv }
    | .recv =>
      match s.mDCQueue with
      | [] => none
      | fd :: rest =>
        some { s with mDCQueue := rest, mConnections := s.mConnections.filter (· ≠ fd), worker := .testEmpty }
    | .clearFlag => some { s with haveDisconnects := false, worker := .testFlag }

/-- A request in the queue is going to be seen. -/
def Noticed (s : State ι) : Prop :=
  s.mDCQueue ≠ [] → s.haveDisconnects = true ∨ (∃ i, s.sent i = true) ∨ s.worker = .testEmpty ∨ s.worker = .recv

/-- The flag is cleared while the queue is empty, or while a thread is about to set it again. -/
def Allowed (s : State ι) : Action ι → Prop
  | .worker => s.worker = .clearFlag → s.mDCQueue = [] ∨ ∃ i, s.sent i = true
  | _ => True

theorem worker_noticed {s s' : State ι} (noticed : Noticed s) (h : step s .worker = some s') :
    Noticed s' ↔ Allowed s .worker := by
  cases pc : s.worker with
  | testFlag =>
    have allowed : Allowed s .worker := fun clear => absurd (pc.symm.trans clear) (by simp)
    simp only [step, pc, Option.some.injEq] at h
    subst h
    refine iff_of_true (fun nonempty => ?_) allowed
    cases flag : s.haveDisconnects with
    | true => exact .inl rfl
    | false =>
      rcases noticed nonempty with set | sent | inside | inside
      · exact absurd (flag.symm.trans set) (by simp)
      · exact .inr (.inl sent)
      · exact absurd (pc.symm.trans inside) (by simp)
      · exact absurd (pc.symm.trans inside) (by simp)
  | testEmpty =>
    have allowed : Allowed s .worker := fun clear => absurd (pc.symm.trans clear) (by simp)
    simp only [step, pc, Option.some.injEq] at h
    subst h
    refine iff_of_true (fun nonempty => ?_) allowed
    exact .inr (.inr (.inr (if_neg (by simpa using nonempty))))
  | recv =>
    have allowed : Allowed s .worker := fun clear => absurd (pc.symm.trans clear) (by simp)
    refine iff_of_true (fun _ => ?_) allowed
    cases queue : s.mDCQueue with
    | nil => simp [step, pc, queue] at h
    | cons fd rest =>
      simp only [step, pc, queue, Option.some.injEq] at h
      subst h
      exact .inr (.inr (.inl rfl))
  | clearFlag =>
    simp only [step, pc, Option.some.injEq] at h
    subst h
    constructor
    · intro noticed' _
      by_cases empty : s.mDCQueue = []
      · exact .inl empty
      · rcases noticed' empty with set | sent | inside | inside
        · exact absurd set (by simp)
        · exact .inr sent
        · exact absurd inside (by simp)
        · exact absurd inside (by simp)
    · intro allowed nonempty
      exact .inr (.inl ((allowed pc).resolve_left nonempty))

theorem step_noticed {s s' : State ι} {a : Action ι} (noticed : Noticed s) (h : step s a = some s') :
    Noticed s' ↔ Allowed s a := by
  cases a with
  | send i fd =>
    refine iff_of_true (fun _ => ?_) trivial
    simp only [step] at h
    split at h
    · cases h
    · cases h
      exact .inr (.inl ⟨i, by simp⟩)
  | store i =>
    refine iff_of_true (fun _ => ?_) trivial
    simp only [step] at h
    split at h
    · cases h
      exact .inl rfl
    · cases h
  | worker => exact worker_noticed noticed h

/-- In every interleaving no request is lost, exactly when the flag is never cleared over a request that is
completely made. -/
theorem noticed_iff (connections : List Int) (actions : List (Action ι)) :
    Always step Noticed (start connections) actions ↔ Keeps step Allowed (start connections) actions :=
  always_iff_keeps (fun nonempty => absurd rfl nonempty) fun _ _ _ => step_noticed

/-- The worker has found the queue empty, a thread makes its request, and the worker clears the flag. -/
def lostRequest : List (Action Unit) :=
  [.send () 5, .store (), .worker, .worker, .worker, .worker, .send () 6, .store (), .worker]

theorem noticed_counterexample :
    ∃ s, lostRequest.foldlM step (start [5, 6]) = some s ∧ s.mDCQueue = [6] ∧ s.haveDisconnects = false ∧
      s.sent () = false ∧ s.worker = .testFlag ∧ ¬Always step Noticed (start [5, 6]) lostRequest := by
  refine ⟨_, rfl, rfl, rfl, rfl, rfl, fun always => ?_⟩
  rcases always.last rfl (by decide) with set | ⟨⟨⟩, sent⟩ | inside | inside
  · exact absurd set (by decide)
  · exact absurd sent (by decide)
  · exact absurd inside (by decide)
  · exact absurd inside (by decide)

end LAppS.IOWorker.Disconnects
