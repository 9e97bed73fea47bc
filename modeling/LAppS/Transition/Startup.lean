import Mathlib.Order.Preorder.Finite
import Mathlib.Order.WellFounded

/-!
Things that need each other are started one at a time, each as a whole and when all that it needs runs. A search that
follows the needs ends where it cannot come back to the place it is in.
-/

namespace Startup
open Relation

/-! ### Searches that end -/

section Search

variable {V : Type*} {next : V → V → Prop} {v : V}

theorem acyclic_of_acc (ends : Acc (flip next) v) {w : V} (reach : ReflTransGen next v w) : ¬TransGen next w w := by
  have here : Acc (flip next) w := by
    induction reach with
    | refl => exact ends
    | tail _ step ih => exact ih.inv step
  induction here with
  | intro w _ ih =>
    intro cycle
    obtain ⟨u, step, back⟩ := TransGen.head'_iff.mp cycle
    exact ih u step (reach.tail step) (TransGen.tail' back step)

/-- A search without an end comes back to one of finitely many places. -/
theorem acc_of_acyclic (places : {w | ∃ u, next w u}.Finite)
    (acyclic : ∀ w, ReflTransGen next v w → ¬TransGen next w w) : Acc (flip next) v := by
  by_contra endless
  obtain ⟨f, start, steps⟩ := not_acc_iff_exists_descending_chain.mp endless
  have later : ∀ i k, TransGen next (f i) (f (i + k + 1)) := by
    intro i k
    induction k with
    | zero => exact .single (steps i)
    | succ k ih => exact ih.tail (steps (i + k + 1))
  have reach : ∀ i, ReflTransGen next v (f i) := by
    intro i
    induction i with
    | zero => rw [start]
    | succ i ih => exact ih.tail (steps i)
  have inside : ∀ i, f i ∈ {w | ∃ u, next w u} := fun i => ⟨_, steps i⟩
  obtain ⟨i, j, lt, same⟩ := Set.Finite.exists_lt_map_eq_of_forall_mem inside places
  have cycle := later i (j - i - 1)
  rw [show i + (j - i - 1) + 1 = j by omega, ← same] at cycle
  exact acyclic (f i) (reach i) cycle

end Search

/-! ### Starts in the order of the needs -/

structure System (V : Type*) where
  /-- What runs already. -/
  running : Set V
  needs : V → V → Prop
  number : V → ℕ

variable {V : Type*} {S : System V} {among : Set V} {started : List V}

def System.Up (S : System V) (started : List V) (v : V) : Prop := v ∈ S.running ∨ v ∈ started

theorem System.Up.append {w : V} (up : S.Up started w) (more : List V) : S.Up (started ++ more) w :=
  up.imp_right (List.mem_append_left more)

inductive Start (S : System V) (among : Set V) : List V → List V → Prop where
  | start {started : List V} {v : V} (member : v ∈ among) (idle : ¬S.Up started v)
      (ready : ∀ w, S.needs v w → S.Up started w) : Start S among started (started ++ List.replicate (S.number v) v)

structure Ordered [DecidableEq V] (S : System V) (among : Set V) (started : List V) : Prop where
  member : ∀ v ∈ started, v ∈ among
  idle : ∀ v ∈ started, v ∉ S.running
  complete : ∀ v ∈ started, started.count v = S.number v
  first : ∀ earlier v later, started = earlier ++ v :: later → ∀ w, S.needs v w → S.Up earlier w ∧ w ∉ later

variable [DecidableEq V]

theorem Ordered.nil : Ordered S among [] where
  member := fun _ h => absurd h List.not_mem_nil
  idle := fun _ h => absurd h List.not_mem_nil
  complete := fun _ h => absurd h List.not_mem_nil
  first := fun _ _ _ h => by simp at h

theorem Ordered.start (ordered : Ordered S among started) {v : V} (member : v ∈ among) (idle : ¬S.Up started v)
    (ready : ∀ w, S.needs v w → S.Up started w) :
    Ordered S among (started ++ List.replicate (S.number v) v) where
  member := by
    intro w hw
    rcases List.mem_append.mp hw with old | new
    · exact ordered.member w old
    · exact List.eq_of_mem_replicate new ▸ member
  idle := by
    intro w hw
    rcases List.mem_append.mp hw with old | new
    · exact ordered.idle w old
    · exact List.eq_of_mem_replicate new ▸ fun running => idle (.inl running)
  complete := by
    intro w hw
    rw [List.count_append, List.count_replicate]
    by_cases same : v = w
    · subst same
      have fresh : v ∉ started := fun old => idle (.inr old)
      simp [List.count_eq_zero_of_not_mem fresh]
    · have old : w ∈ started := by
        rcases List.mem_append.mp hw with old | new
        · exact old
        · exact absurd (List.eq_of_mem_replicate new).symm same
      simp [same, ordered.complete w old]
  first := by
    intro earlier u later split w needs
    rcases List.append_eq_append_iff.mp split.symm with ⟨rest, old, tail⟩ | ⟨block, here, tail⟩
    · cases rest with
      | nil =>
        -- The split is where the new part begins.
        rw [List.append_nil] at old
        have block : List.replicate (S.number v) v = u :: later := tail.symm
        have whole : ∀ x ∈ u :: later, x = v := fun x hx => List.eq_of_mem_replicate (block ▸ hx)
        obtain rfl : u = v := whole u List.mem_cons_self
        refine ⟨old ▸ ready w needs, fun again => idle ?_⟩
        rw [← whole w (List.mem_cons_of_mem _ again)]
        exact ready w needs
      | cons x rest =>
        obtain ⟨rfl, behind⟩ := List.cons.inj tail
        change later = rest ++ List.replicate (S.number v) v at behind
        obtain ⟨up, after⟩ := ordered.first earlier u rest old w needs
        refine ⟨up, ?_⟩
        rw [behind, List.mem_append, not_or]
        refine ⟨after, fun new => idle ?_⟩
        rw [← List.eq_of_mem_replicate new, old]
        exact up.append _
    · have whole : ∀ x ∈ block ++ u :: later, x = v := fun x hx => List.eq_of_mem_replicate (tail ▸ hx)
      obtain rfl : u = v := whole u (by simp)
      refine ⟨here ▸ (ready w needs).append block, fun again => idle ?_⟩
      rw [← whole w (List.mem_append_right _ (List.mem_cons_of_mem _ again))]
      exact ready w needs

theorem ordered_of_starts (run : ReflTransGen (Start S among) [] started) : Ordered S among started := by
  induction run with
  | refl => exact .nil
  | tail _ step ih =>
    obtain ⟨member, idle, ready⟩ := step
    exact ih.start member idle ready

end Startup
