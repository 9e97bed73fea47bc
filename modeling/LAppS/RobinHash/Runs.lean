import LAppS.RobinHash.Table

/-!
# A robin-hood table is a finite map

Any calls on a new table are answered as a finite map answers them.
-/

namespace LAppS.RobinHash
open Buckets

variable {κ υ : Type} [DecidableEq κ]

inductive Call (κ υ : Type) where
  | find (key : κ)
  | emplace (key : κ) (value : υ)
  | erase (key : κ)
  | clear
  | size

inductive Answer (υ : Type) where
  | value (v : Option υ)
  | inserted (b : Bool)
  | erased (n : Nat)
  | nothing
  | count (n : Nat)

/-- A call with what the caller sees: the value at an iterator, not the iterator. -/
def Table.call (hash : κ → Nat) (t : Table κ υ) : Call κ υ → Option (Table κ υ × Answer υ)
  | .find key => (t.findImpl hash key).map fun i => (t, .value ((i.bind t.buckets.slot).map Slot.value))
  | .emplace key value => (t.insertImpl hash key value).map fun r => (r.1, .inserted r.2)
  | .erase key => (t.findImpl hash key).bind fun
    | some i => (t.eraseAt i).map fun t => (t, .erased 1)
    | none => some (t, .erased 0)
  | .clear => some (t.clear, .nothing)
  | .size => some (t, .count t.size)

def Table.run (hash : κ → Nat) : Table κ υ → List (Call κ υ) → Option (Table κ υ × List (Answer υ))
  | t, [] => some (t, [])
  | t, c :: calls =>
    (t.call hash c).bind fun r => (run hash r.1 calls).map fun rest => (rest.1, r.2 :: rest.2)

/-! ### Finite maps -/

abbrev Map (κ υ : Type) := κ → Option υ

def Map.keys (M : Map κ υ) : Set κ := { k | (M k).isSome }

noncomputable def Map.call (M : Map κ υ) : Call κ υ → Map κ υ × Answer υ
  | .find key => (M, .value (M key))
  | .emplace key value =>
    if (M key).isSome then (M, .inserted false) else (Function.update M key (some value), .inserted true)
  | .erase key => (Function.update M key none, .erased (if (M key).isSome then 1 else 0))
  | .clear => (fun _ => none, .nothing)
  | .size => (M, .count M.keys.ncard)

noncomputable def Map.run : Map κ υ → List (Call κ υ) → Map κ υ × List (Answer υ)
  | M, [] => (M, [])
  | M, c :: calls => ((run (M.call c).1 calls).1, (M.call c).2 :: (run (M.call c).1 calls).2)

/-- Every call finds no more keys than distances can be counted. -/
def Within : Map κ υ → List (Call κ υ) → Prop
  | _, [] => True
  | M, c :: calls => M.keys.ncard ≤ 32767 ∧ Within (M.call c).1 calls

/-! ### Refinement -/

structure Represents (hash : κ → Nat) (t : Table κ υ) (M : Map κ υ) : Prop where
  valid : t.Valid hash
  same : ∀ k v, M k = some v ↔ (k, v) ∈ entries t.buckets

variable {hash : κ → Nat} {t : Table κ υ} {M : Map κ υ}

omit [DecidableEq κ] in
theorem Represents.ncard (h : Represents hash t M) : M.keys.ncard = t.size := by
  classical
  have keys : M.keys = ((entries t.buckets).map Prod.fst).toFinset := by
    ext k
    rw [Map.keys, Set.mem_ofPred_eq, Option.isSome_iff_exists, List.coe_toFinset, Set.mem_ofPred_eq, List.mem_map]
    constructor
    · rintro ⟨v, there⟩
      exact ⟨(k, v), (h.same k v).mp there, rfl⟩
    · rintro ⟨⟨k, v⟩, listed, rfl⟩
      exact ⟨v, (h.same k v).mpr listed⟩
  rw [keys, Set.ncard_coe_finset, List.toFinset_card_of_nodup h.valid.distinct, List.length_map, Table.size, h.valid.count]

omit [DecidableEq κ] in
theorem Represents.absent (h : Represents hash t M) {key : κ} (none_ : M key = none) (v : υ) : (key, v) ∉ entries t.buckets := by
  intro listed
  rw [(h.same key v).mpr listed] at none_
  cases none_

/-- A key that the map has is found, with its value. -/
theorem Represents.found (h : Represents hash t M) (small : t.size ≤ 32767) {key : κ} {v : υ} (there : M key = some v) :
    ∃ i s, t.findImpl hash key = some (some i) ∧ t.buckets.slot i = some s ∧ s.key = key ∧ s.value = v := by
  obtain ⟨i, s, at_, rfl, rfl⟩ := mem_entries.mp ((h.same key v).mp there)
  exact ⟨i, s, Table.findImpl_present h.valid small at_, at_, rfl, rfl⟩

theorem Represents.emplace (h : Represents hash t M) {t' : Table κ υ} {key : κ} {value : υ} (none_ : M key = none)
    (valid : t'.Valid hash) (perm : (entries t'.buckets).Perm ((key, value) :: entries t.buckets)) :
    Represents hash t' (Function.update M key (some value)) := by
  refine ⟨valid, fun k v => ?_⟩
  rw [perm.mem_iff, List.mem_cons, Prod.mk.injEq]
  by_cases own : k = key
  · subst own
    rw [Function.update_self, Option.some.injEq]
    have absent := h.absent none_ v
    constructor
    · exact fun same => .inl ⟨rfl, same.symm⟩
    · rintro (⟨-, same⟩ | listed)
      · exact same.symm
      · exact absurd listed absent
  · rw [Function.update_of_ne own, h.same k v]
    constructor
    · exact .inr
    · rintro (⟨same, -⟩ | listed)
      · exact absurd same own
      · exact listed

theorem Represents.erase (h : Represents hash t M) {t' : Table κ υ} {key : κ} {value : υ} (valid : t'.Valid hash)
    (perm : ((key, value) :: entries t'.buckets).Perm (entries t.buckets)) :
    Represents hash t' (Function.update M key none) := by
  refine ⟨valid, fun k v => ?_⟩
  have apart : key ∉ (entries t'.buckets).map Prod.fst :=
    (List.nodup_cons.mp ((perm.map Prod.fst).nodup_iff.mpr h.valid.distinct)).1
  by_cases own : k = key
  · subst own
    rw [Function.update_self]
    refine iff_of_false (by simp) fun listed => apart ?_
    exact List.mem_map.mpr ⟨(k, v), listed, rfl⟩
  · rw [Function.update_of_ne own, h.same k v, ← perm.mem_iff, List.mem_cons, Prod.mk.injEq]
    constructor
    · rintro (⟨same, -⟩ | listed)
      · exact absurd same own
      · exact listed
    · exact .inr

/-- One call is answered alike, and leaves tables and maps that agree. -/
theorem Represents.call (h : Represents hash t M) (small : M.keys.ncard ≤ 32767) (c : Call κ υ) :
    ∃ t', t.call hash c = some (t', (M.call c).2) ∧ Represents hash t' (M.call c).1 := by
  rw [h.ncard] at small
  cases c with
  | find key =>
    cases there : M key with
    | none =>
      refine ⟨t, ?_, h⟩
      rw [Table.call, Table.findImpl_absent h.valid small (h.absent there), Map.call, there]
      rfl
    | some v =>
      obtain ⟨i, s, found, at_, -, rfl⟩ := h.found small there
      refine ⟨t, ?_, h⟩
      rw [Table.call, found, Map.call, there]
      change some (t, Answer.value ((t.buckets.slot i).map Slot.value)) = _
      rw [at_]
      rfl
  | emplace key value =>
    cases there : M key with
    | none =>
      obtain ⟨t', ran, valid, perm⟩ := Table.insertImpl_absent h.valid small (h.absent there) value
      refine ⟨t', ?_, ?_⟩
      · rw [Table.call, ran, Map.call, there]
        rfl
      · rw [Map.call, there]
        exact h.emplace there valid perm
    | some v =>
      have ran := Table.insertImpl_present h.valid small ((h.same key v).mp there) value
      refine ⟨t, ?_, ?_⟩
      · rw [Table.call, ran, Map.call, there]
        rfl
      · rw [Map.call, there]
        exact h
  | erase key =>
    cases there : M key with
    | none =>
      refine ⟨t, ?_, ?_⟩
      · rw [Table.call, Table.findImpl_absent h.valid small (h.absent there), Map.call, there]
        rfl
      · rw [Map.call, Function.update_eq_self_iff.mpr there.symm]
        exact h
    | some v =>
      obtain ⟨i, s, found, at_, rfl, rfl⟩ := h.found small there
      obtain ⟨t', ran, valid, perm⟩ := Table.eraseAt_spec h.valid at_
      refine ⟨t', ?_, h.erase valid perm⟩
      rw [Table.call, found, Map.call, there]
      change (t.eraseAt i).map (fun t => (t, Answer.erased 1)) = _
      rw [ran]
      rfl
  | clear =>
    refine ⟨t.clear, rfl, h.valid.clear, fun k v => ?_⟩
    rw [Table.clear, Table.entries_replicate]
    exact iff_of_false (by simp [Map.call]) List.not_mem_nil
  | size => exact ⟨t, by rw [Table.call, Map.call, h.ncard], h⟩

theorem Represents.run {calls : List (Call κ υ)} (h : Represents hash t M) (within : Within M calls) :
    ∃ t', t.run hash calls = some (t', (M.run calls).2) ∧ Represents hash t' (M.run calls).1 := by
  induction calls generalizing t M with
  | nil => exact ⟨t, rfl, h⟩
  | cons c calls ih =>
    obtain ⟨small, within⟩ := within
    obtain ⟨t₁, answered, h₁⟩ := h.call small c
    obtain ⟨t', ran, h'⟩ := ih h₁ within
    refine ⟨t', ?_, h'⟩
    rw [Table.run, answered, Option.bind_some, ran]
    rfl

/-- Calls on a new table are answered as a finite map answers them, no loop of theirs runs on, and an iteration over the
table visits every key of the map once, with its value. -/
theorem run_empty (hash : κ → Nat) {calls : List (Call κ υ)} (within : Within (fun _ => none) calls) :
    ∃ t, Table.empty.run hash calls = some (t, (Map.run (fun _ => none) calls).2) ∧
      ((entries t.buckets).map Prod.fst).Nodup ∧
      ∀ k v, (k, v) ∈ entries t.buckets ↔ (Map.run (fun _ => none) calls).1 k = some v := by
  have start : Represents hash (Table.empty : Table κ υ) fun _ => none :=
    ⟨Table.valid_empty, fun k v => iff_of_false (by simp) List.not_mem_nil⟩
  obtain ⟨t, ran, represents⟩ := start.run within
  exact ⟨t, ran, represents.valid.distinct, fun k v => (represents.same k v).symm⟩

theorem run_empty_found :
    ∃ t, Table.empty.run id [.emplace 5 true, .find 5] = some (t, [.inserted true, .value (some true)]) ∧
      ((entries t.buckets).map Prod.fst).Nodup := by
  have within : Within (fun _ => none) [Call.emplace 5 true, .find 5] := by
    have first : Map.keys (fun _ => none : Map Nat Bool) = ∅ := by simp [Map.keys]
    have second : Map.keys (Function.update (fun _ => none) 5 (some true) : Map Nat Bool) ⊆ {5} := by
      intro k there
      by_contra other
      rw [Map.keys, Set.mem_ofPred_eq, Function.update_of_ne other] at there
      cases there
    have one := Set.ncard_le_ncard second (Set.finite_singleton 5)
    rw [Set.ncard_singleton] at one
    refine ⟨by rw [first, Set.ncard_empty]; decide, Nat.le_trans one (by decide), trivial⟩
  obtain ⟨t, ran, distinct, -⟩ := run_empty id within
  exact ⟨t, ran, distinct⟩

end LAppS.RobinHash
