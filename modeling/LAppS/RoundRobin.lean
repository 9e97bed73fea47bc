import Mathlib.Data.Int.CardIntervalMod

/-!
Places that are served in turn: behind the last place the first one follows.
-/

namespace RoundRobin

/-- The place whose turn it is at a position. -/
def turn (n position : Nat) : Nat := if position < n then position else 0

/-- The places of `k` turns. -/
def turns (n : Nat) : Nat → Nat → List Nat
  | _, 0 => []
  | position, k + 1 => turn n position :: turns n (turn n position + 1) k

/-- The position after `k` turns. -/
def after (n position : Nat) : Nat → Nat
  | 0 => position
  | k + 1 => turn n (after n position k) + 1

variable {n position : Nat}

theorem turn_lt (pos : 0 < n) : turn n position < n := by
  unfold turn
  split <;> omega

theorem length_turns (k : Nat) : (turns n position k).length = k := by
  induction k generalizing position with
  | zero => rfl
  | succ k ih => rw [turns, List.length_cons, ih]

theorem turns_lt (pos : 0 < n) {k i : Nat} (h : i ∈ turns n position k) : i < n := by
  induction k generalizing position with
  | zero => cases h
  | succ k ih =>
    cases h with
    | head => exact turn_lt pos
    | tail _ h => exact ih h

theorem after_succ (k : Nat) : after n position (k + 1) = after n (turn n position + 1) k := by
  induction k with
  | zero => rfl
  | succ k ih => rw [after, ih, after]

theorem turns_succ (k : Nat) : turns n position (k + 1) = turns n position k ++ [turn n (after n position k)] := by
  induction k generalizing position with
  | zero => rfl
  | succ k ih => rw [turns, ih, turns, after_succ, List.cons_append]

theorem turn_eq_mod (pos : 0 < n) (le : position ≤ n) : turn n position = position % n := by
  unfold turn
  split
  next inside => rw [Nat.mod_eq_of_lt inside]
  next outside =>
    obtain rfl : position = n := by omega
    rw [Nat.mod_self]

theorem turns_of_outside (outside : n ≤ position) (k : Nat) : turns n position k = turns n n k := by
  have same : turn n position = turn n n := by rw [turn, turn, if_neg (by omega), if_neg (by omega)]
  cases k with
  | zero => rfl
  | succ k => rw [turns, turns, same]

theorem count_turns_eq (pos : 0 < n) (le : position ≤ n) (j k : Nat) :
    (turns n position k).count j = Nat.count (fun i => (position + i) % n = j) k := by
  induction k generalizing position with
  | zero => rfl
  | succ k ih =>
    have next : turn n position + 1 ≤ n := turn_lt pos
    rw [turns, List.count_cons, ih next, Nat.count_succ', turn_eq_mod pos le]
    have shift (i : Nat) : (position % n + 1 + i) % n = (position + (i + 1)) % n := by
      rw [Nat.add_assoc, Nat.add_comm 1 i, Nat.mod_add_mod]
    simp only [shift, Nat.add_zero, beq_iff_eq]

/-- Whatever the position, no place gets more than one turn more than another. -/
theorem count_turns (pos : 0 < n) (position : Nat) {j : Nat} (inside : j < n) (k : Nat) :
    k / n ≤ (turns n position k).count j ∧ (turns n position k).count j ≤ k / n + 1 := by
  wlog le : position ≤ n generalizing position with within
  · rw [turns_of_outside (Nat.le_of_not_le le)]
    exact within n (Nat.le_refl n)
  have same (i : Nat) : (position + i) % n = j ↔ i ≡ j + (n - position) [MOD n] := by
    have around : position + (j + (n - position)) ≡ j [MOD n] := by
      rw [show position + (j + (n - position)) = j + n by omega]
      exact Nat.add_mod_right j n
    constructor
    · intro at_
      refine Nat.ModEq.add_left_cancel' position (Nat.ModEq.trans ?_ around.symm)
      rw [Nat.ModEq, at_, Nat.mod_eq_of_lt inside]
    · intro congruent
      have there := (congruent.add_left position).trans around
      rwa [Nat.ModEq, Nat.mod_eq_of_lt inside] at there
  simp only [count_turns_eq pos le, same]
  rw [Nat.count_modEq_card k pos]
  split <;> omega

end RoundRobin
