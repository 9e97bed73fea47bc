import LAppS.RobinHash.Buckets

/-!
# The backward shift

Erasing a value leaves a hole, which moves on until no value behind it is away from its ideal bucket. The values are then
placed as if the erased one had never been there.
-/

namespace LAppS.RobinHash.Buckets

variable {κ υ : Type} {hash : κ → Nat} {b : Buckets κ υ}

/-- The buckets are in order but for a hole, in front of which a value of distance `v` would be in order. -/
structure Hole (hash : κ → Nat) (b : Buckets κ υ) (p v : Nat) : Prop where
  size : ∃ k, b.length = 2 ^ (k + 1)
  ideal : ∀ i s, b.slot i = some s → i = (hash s.key + s.dist) % b.length
  fair : ∀ i < b.length, i ≠ p → b.Fair i
  inside : p < b.length
  hole : b.slot p = none
  fits : b.Fits p v
  behind : ∀ s, b.slot ((p + 1) % b.length) = some s → s.dist ≤ v + 1

/-- No value behind the hole can move closer to its ideal bucket. -/
theorem Hole.placed {p v : Nat} (h : Hole hash b p v)
    (settled : ∀ s, b.slot ((p + 1) % b.length) = some s → s.dist = 0) : Placed hash b := by
  refine ⟨h.size, h.ideal, fun i hi => ?_⟩
  by_cases own : i = p
  · subst own
    intro s there positive
    have zero := settled s there
    omega
  · exact h.fair i hi own

section Move

variable {p v : Nat} {s : Slot κ υ}

/-- The value behind the hole, moved into it. -/
def move (b : Buckets κ υ) (p : Nat) (s : Slot κ υ) : Buckets κ υ :=
  (b.set p (some ⟨s.dist - 1, s.key, s.value⟩)).set (b.nextBucket p) none

@[simp] theorem length_move : (move b p s).length = b.length := by
  rw [move, List.length_set, List.length_set]

theorem Hole.slot_move (h : Hole hash b p v) (j : Nat) : slot (move b p s) j =
    if j = (p + 1) % b.length then none else if j = p then some ⟨s.dist - 1, s.key, s.value⟩ else b.slot j := by
  have two := two_le h.size
  rw [move, next_eq h.size, slot_set (by rw [List.length_set]; exact Nat.mod_lt _ (by omega)), slot_set h.inside]

theorem Hole.move (h : Hole hash b p v) (there : b.slot ((p + 1) % b.length) = some s) (away : 0 < s.dist) :
    Hole hash (b.move p s) ((p + 1) % b.length) s.dist := by
  have two := two_le h.size
  have inside := h.inside
  have apart := next_ne two inside
  have inside' : (p + 1) % b.length < b.length := Nat.mod_lt _ (by omega)
  -- the ideal bucket of the value is not the one that it leaves
  have closer : p = (hash s.key + (s.dist - 1)) % b.length := by
    apply next_injective inside (Nat.mod_lt _ (by omega))
    rw [Nat.mod_add_mod, Nat.add_assoc, Nat.sub_add_cancel away]
    exact h.ideal _ s there
  refine ⟨by rw [length_move]; exact h.size, ?_, ?_, by rwa [length_move], by rw [h.slot_move, if_pos rfl], ?_, ?_⟩
  · intro i t at_
    rw [length_move]
    rw [h.slot_move] at at_
    split_ifs at at_ with next own
    · obtain rfl := Option.some.inj at_
      rw [own]
      exact closer
    · exact h.ideal i t at_
  · intro i hi other t at_ positive
    rw [length_move] at hi at_
    rw [h.slot_move] at at_ ⊢
    split_ifs at at_ with next own
    · -- what is in front of the value that has moved
      obtain rfl := Option.some.inj at_
      change 0 < s.dist - 1 at positive
      have limit := h.behind s there
      obtain ⟨t, before, le⟩ := h.fits i hi own (by omega)
      have differs : i ≠ p := by
        rintro rfl
        exact apart own
      rw [if_neg other, if_neg differs]
      exact ⟨t, before, by change s.dist - 1 ≤ t.dist + 1; omega⟩
    · have differs : i ≠ p := by
        rintro rfl
        exact next rfl
      rw [if_neg other, if_neg differs]
      exact h.fair i hi differs t at_ positive
  · intro q hq before positive
    rw [length_move] at hq before
    rw [next_injective hq inside before, h.slot_move, if_neg (Ne.symm apart), if_pos rfl]
    exact ⟨_, rfl, by change s.dist ≤ s.dist - 1 + 1; omega⟩
  · intro t at_
    rw [length_move, h.slot_move, if_neg (next_ne two inside')] at at_
    split_ifs at at_ with own
    · obtain rfl := Option.some.inj at_
      change s.dist - 1 ≤ s.dist + 1
      omega
    · by_cases zero : t.dist = 0
      · omega
      · obtain ⟨t', front, le⟩ := h.fair _ inside' apart t at_ (by omega)
        rw [there] at front
        obtain rfl := Option.some.inj front
        exact le

theorem Hole.entries_move (h : Hole hash b p v) (there : b.slot ((p + 1) % b.length) = some s) :
    (entries (b.move p s)).Perm (entries b) := by
  have two := two_le h.size
  have apart := next_ne two h.inside
  have filled := entries_set h.inside (some (⟨s.dist - 1, s.key, s.value⟩ : Slot κ υ))
  have inside' : (p + 1) % b.length < (b.set p (some ⟨s.dist - 1, s.key, s.value⟩)).length := by
    rw [List.length_set]
    exact Nat.mod_lt _ (by omega)
  have left := entries_set inside' none
  rw [h.hole] at filled
  rw [slot_set h.inside, if_neg apart, there] at left
  rw [Buckets.move, next_eq h.size]
  exact (List.Perm.cons_inv (left.trans filled))

end Move

theorem shift_some {p fuel : Nat} {s : Slot κ υ} (size : ∃ k, b.length = 2 ^ (k + 1))
    (there : b.slot ((p + 1) % b.length) = some s) : shift b (fuel + 1) p =
      if 0 < s.dist then shift (b.move p s) fuel ((p + 1) % b.length) else some b := by
  rw [shift, ← next_eq size] at *
  rw [there]
  rfl

theorem shift_spec {p v m fuel : Nat} (h : Hole hash b p v) (empty : b.slot ((p + m) % b.length) = none) (positive : 0 < m)
    (below : m < b.length) (enough : m ≤ fuel) :
    ∃ b', shift b fuel p = some b' ∧ b'.length = b.length ∧ Placed hash b' ∧ (entries b').Perm (entries b) := by
  induction fuel generalizing b p v m with
  | zero => omega
  | succ fuel ih =>
    cases there : b.slot ((p + 1) % b.length) with
    | none =>
      refine ⟨b, by rw [shift, next_eq h.size, there], rfl, h.placed fun s at_ => ?_, .refl _⟩
      rw [there] at at_
      cases at_
    | some s =>
      by_cases away : 0 < s.dist
      · have further : m ≠ 1 := by
          rintro rfl
          rw [there] at empty
          cases empty
        have two := two_le h.size
        have index : ((p + 1) % b.length + (m - 1)) % b.length = (p + m) % b.length := by
          rw [Nat.mod_add_mod]
          congr 1
          omega
        have elsewhere : (p + m) % b.length ≠ p := by
          intro same
          have cong : Nat.ModEq b.length (p + m) (p + 0) := by
            rw [Nat.ModEq, same, Nat.add_zero, Nat.mod_eq_of_lt h.inside]
          have zero : Nat.ModEq b.length m 0 := Nat.ModEq.add_left_cancel' p cong
          rw [Nat.ModEq, Nat.mod_eq_of_lt below, Nat.zero_mod] at zero
          omega
        have empty' : slot (b.move p s) (((p + 1) % b.length + (m - 1)) % (b.move p s).length) = none := by
          rw [length_move, index, h.slot_move]
          split_ifs
          · rfl
          · exact empty
        obtain ⟨b', ran, length, placed, perm⟩ := ih (h.move there away) empty' (by omega) (by rw [length_move]; omega)
          (by omega)
        refine ⟨b', ?_, length.trans length_move, placed, perm.trans (h.entries_move there)⟩
        rw [shift_some h.size there, if_pos away]
        exact ran
      · refine ⟨b, ?_, rfl, h.placed fun s' at_ => ?_, .refl _⟩
        · rw [shift_some h.size there, if_neg away]
        · rw [there] at at_
          obtain rfl := Option.some.inj at_
          omega

theorem eraseFromBucket_spec (inv : Placed hash b) (room : (entries b).length < b.length) {i : Nat} {s : Slot κ υ}
    (at_ : b.slot i = some s) : ∃ b', eraseFromBucket b i = some b' ∧ b'.length = b.length ∧ Placed hash b' ∧
      ((s.key, s.value) :: entries b').Perm (entries b) := by
  have two := two_le inv.size
  have inside := lt_of_slot at_
  have length : (b.set i none).length = b.length := List.length_set
  have perm := entries_set inside none
  rw [at_] at perm
  have hole : Hole hash (b.set i none) i s.dist := by
    refine ⟨by rw [length]; exact inv.size, ?_, ?_, by rwa [length], by rw [slot_set inside, if_pos rfl], ?_, ?_⟩
    · intro j t there
      rw [slot_set inside] at there
      rw [length]
      split_ifs at there
      exact inv.ideal j t there
    · intro j hj other t there positive
      rw [length] at hj there
      rw [slot_set inside] at there ⊢
      split_ifs at there
      rw [if_neg other]
      exact inv.fair j hj t there positive
    · intro q hq before positive
      rw [length] at hq before
      have other : q ≠ i := by
        rintro rfl
        exact next_ne two inside before
      rw [slot_set inside, if_neg other]
      exact inv.fair q hq s (before ▸ at_) positive
    · intro t there
      rw [length, slot_set inside, if_neg (next_ne two inside)] at there
      by_cases zero : t.dist = 0
      · omega
      · obtain ⟨t', front, le⟩ := inv.fair i inside t there (by omega)
        rw [at_] at front
        obtain rfl := Option.some.inj front
        exact le
  obtain ⟨m, below, empty⟩ := exists_empty room i
  have positive : m ≠ 0 := by
    rintro rfl
    rw [Nat.add_zero, Nat.mod_eq_of_lt inside, at_] at empty
    cases empty
  have empty' : slot (b.set i none) ((i + m) % (b.set i none).length) = none := by
    rw [length, slot_set inside]
    split_ifs
    · rfl
    · exact empty
  have enough : m ≤ b.length + 1 := by omega
  obtain ⟨b', ran, kept, placed, moved⟩ := shift_spec hole empty' (by omega) (by rwa [length]) enough
  exact ⟨b', ran, kept.trans length, placed, (moved.cons _).trans perm⟩

end LAppS.RobinHash.Buckets
