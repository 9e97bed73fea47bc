import Mathlib.Algebra.BigOperators.Ring.Finset
import Mathlib.Algebra.Order.BigOperators.Group.Finset

/-!
Threads that take turns. A step changes where one of them is; what the others share counts how many are at some place.
-/

namespace Transition

variable {ι α : Type*} [Fintype ι]

/-- How many threads are where `p` says. -/
def count (p : α → Bool) (threads : ι → α) : Nat := ∑ i, (p (threads i)).toNat

section Count

variable {p : α → Bool} {threads : ι → α} {i j : ι}

theorem count_pos (at_ : p (threads i) = true) : 0 < count p threads := by
  have one : (p (threads i)).toNat = 1 := by rw [at_]; rfl
  calc 0 < (p (threads i)).toNat := by omega
    _ ≤ count p threads := Finset.single_le_sum (f := fun i => (p (threads i)).toNat) (fun _ _ => Nat.zero_le _) (Finset.mem_univ i)

theorem not_of_count_zero (zero : count p threads = 0) (i : ι) : p (threads i) = false := by
  cases at_ : p (threads i) with
  | false => rfl
  | true => exact absurd zero (Nat.ne_of_gt (count_pos at_))

theorem exists_of_count_pos (pos : 0 < count p threads) : ∃ i, p (threads i) = true := by
  by_contra none_
  have zero : count p threads = 0 := Finset.sum_eq_zero fun i _ => by
    cases at_ : p (threads i) with
    | false => rfl
    | true => exact absurd ⟨i, at_⟩ none_
  omega

variable [DecidableEq ι]

theorem eq_of_count_le_one (one : count p threads ≤ 1) (hi : p (threads i) = true) (hj : p (threads j) = true) : i = j := by
  by_contra other
  have apart : ∑ k ∈ {i, j}, (p (threads k)).toNat = 2 := by rw [Finset.sum_pair other, hi, hj]; rfl
  have part : ∑ k ∈ {i, j}, (p (threads k)).toNat ≤ count p threads :=
    Finset.sum_le_sum_of_subset (Finset.subset_univ _)
  omega

/-- The step of one thread. -/
theorem count_update (p : α → Bool) (threads : ι → α) (i : ι) (a : α) :
    count p (Function.update threads i a) + (p (threads i)).toNat = count p threads + (p a).toNat := by
  have others : ∑ j ∈ Finset.univ.erase i, (p (Function.update threads i a j)).toNat =
      ∑ j ∈ Finset.univ.erase i, (p (threads j)).toNat :=
    Finset.sum_congr rfl fun j hj => by rw [Function.update_of_ne (Finset.ne_of_mem_erase hj)]
  have before := Finset.add_sum_erase Finset.univ (fun j => (p (threads j)).toNat) (Finset.mem_univ i)
  have after := Finset.add_sum_erase Finset.univ (fun j => (p (Function.update threads i a j)).toNat) (Finset.mem_univ i)
  rw [Function.update_self, others] at after
  rw [count, count, ← before, ← after]
  omega

end Count

end Transition
