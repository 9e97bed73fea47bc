import LAppS.RobinHash.Erasure
import Mathlib.Data.Set.Card

/-!
# `robin_hash`

The table as `robin_map` makes it: without buckets, with a growth by two, a maximum load of one half and no shrinking. Its
operations are those of a finite map, over any run in which it holds at most 32767 keys.
-/

namespace LAppS.RobinHash
open Buckets

variable {κ υ : Type}

structure Table (κ υ : Type) where
  buckets : Buckets κ υ
  nbElements : Nat
  loadThreshold : Nat
  growOnNextInsert : Bool
  tryShrinkOnNextInsert : Bool

namespace Table

def empty : Table κ υ := ⟨[], 0, 0, false, false⟩

/-- A new table; the count is a power of two. -/
def make (bucketCount : Nat) : Table κ υ := ⟨List.replicate bucketCount none, 0, bucketCount / 2, false, false⟩

def size (t : Table κ υ) : Nat := t.nbElements

/-- The loop that looks for a key, from the ideal bucket on. -/
def lookFor (hash : κ → Nat) (b : Buckets κ υ) (key : κ) (same : κ → Bool) : Option Probe :=
  probe b same (b.length + 1) (b.bucketForHash (hash key)) 0

def findImpl [DecidableEq κ] (hash : κ → Nat) (t : Table κ υ) (key : κ) : Option (Option Nat) :=
  (lookFor hash t.buckets key (· = key)).map fun
    | .found i => some i
    | .vacant _ _ => none

def rehashLoop (hash : κ → Nat) : Buckets κ υ → Buckets κ υ → Option (Buckets κ υ)
  | new, [] => some new
  | new, none :: old => rehashLoop hash new old
  | new, some s :: old =>
    (insertLoop new (new.length + 1) (new.bucketForHash (hash s.key)) 0 (s.key, s.value) false).bind fun r =>
      rehashLoop hash r.1 old

def rehashImpl (hash : κ → Nat) (t : Table κ υ) (count : Nat) : Option (Table κ υ) :=
  (rehashLoop hash (make count : Table κ υ).buckets t.buckets).map fun b =>
    { (make count : Table κ υ) with buckets := b, nbElements := t.nbElements }

def nextBucketCount (t : Table κ υ) : Nat := (t.buckets.mask + 1) * 2

/-- Whether the table has been rehashed; it never shrinks. -/
def rehashOnExtremeLoad (hash : κ → Nat) (t : Table κ υ) : Option (Table κ υ × Bool) :=
  if t.growOnNextInsert || Nat.ble t.loadThreshold t.size then
    (t.rehashImpl hash t.nextBucketCount).map fun t => ({ t with growOnNextInsert := false }, true)
  else some ({ t with tryShrinkOnNextInsert := false }, false)

/-- Where a key goes for which none of the buckets was found. -/
def vacancy (hash : κ → Nat) (b : Buckets κ υ) (key : κ) : Option (Nat × Nat) :=
  (lookFor hash b key fun _ => false).bind fun
    | .found _ => none
    | .vacant i d => some (i, d)

/-- The value is put into the bucket, or takes it. -/
def insertValue (b : Buckets κ υ) (i d : Nat) (key : κ) (value : υ) (grow : Bool) : Option (Buckets κ υ × Bool) :=
  match b.slot i with
  | none => some (b.set i (some ⟨d, key, value⟩), grow)
  | some s =>
    (succDistance s.dist).bind fun d' =>
      insertLoop (b.set i (some ⟨d, key, value⟩)) (b.length + 1) (b.nextBucket i) d' (s.key, s.value) grow

/-- `emplace`: whether the key was inserted. -/
def insertImpl [DecidableEq κ] (hash : κ → Nat) (t : Table κ υ) (key : κ) (value : υ) : Option (Table κ υ × Bool) :=
  (lookFor hash t.buckets key (· = key)).bind fun
    | .found _ => some (t, false)
    | .vacant i d =>
      (t.rehashOnExtremeLoad hash).bind fun r =>
        (if r.2 then vacancy hash r.1.buckets key else some (i, d)).bind fun at_ =>
          (insertValue r.1.buckets at_.1 at_.2 key value r.1.growOnNextInsert).map fun placed =>
            ({ r.1 with buckets := placed.1, nbElements := r.1.nbElements + 1, growOnNextInsert := placed.2 }, true)

/-- `erase` of an iterator. -/
def eraseAt (t : Table κ υ) (i : Nat) : Option (Table κ υ) :=
  (eraseFromBucket t.buckets i).map fun b =>
    { t with buckets := b, nbElements := t.nbElements - 1, tryShrinkOnNextInsert := true }

def clear (t : Table κ υ) : Table κ υ :=
  { t with buckets := List.replicate t.buckets.length none, nbElements := 0, growOnNextInsert := false }

/-! ### The invariant -/

structure Valid (hash : κ → Nat) (t : Table κ υ) : Prop where
  placed : t.buckets = [] ∨ Placed hash t.buckets
  distinct : DistinctKeys t.buckets
  count : t.nbElements = (entries t.buckets).length
  threshold : t.loadThreshold = t.buckets.length / 2
  load : t.nbElements ≤ t.loadThreshold

variable {hash : κ → Nat} {t : Table κ υ}

theorem entries_replicate (n : Nat) : entries (List.replicate n none : Buckets κ υ) = [] := by
  induction n with
  | zero => rfl
  | succ n ih => rw [List.replicate_succ, entries_cons, ih]; rfl

theorem slot_replicate (n i : Nat) : slot (List.replicate n none : Buckets κ υ) i = none := by
  rw [slot, List.getD_eq_getElem?_getD, List.getElem?_replicate]
  split <;> rfl

theorem placed_replicate {n : Nat} (size : ∃ k, n = 2 ^ (k + 1)) : Placed hash (List.replicate n none : Buckets κ υ) := by
  refine ⟨by rwa [List.length_replicate], ?_, ?_⟩
  · intro i s there
    rw [slot_replicate] at there
    cases there
  · intro i _ s there
    rw [slot_replicate] at there
    cases there

theorem valid_empty : Valid hash (empty : Table κ υ) := 
  ⟨.inl rfl, List.nodup_nil, rfl, (Nat.zero_div 2).symm, Nat.le_refl 0⟩

theorem Valid.room (h : Valid hash t) (placed : Placed hash t.buckets) : (entries t.buckets).length < t.buckets.length := by
  have two := two_le placed.size
  have load := h.load
  rw [h.count, h.threshold] at load
  omega

theorem Valid.clear (h : Valid hash t) : Valid hash t.clear := by
  refine ⟨?_, ?_, ?_, ?_, Nat.zero_le _⟩
  · obtain none_ | placed := h.placed
    · exact .inl (by rw [Table.clear, none_]; rfl)
    · exact .inr (placed_replicate placed.size)
  · rw [DistinctKeys, Table.clear, entries_replicate]
    exact List.nodup_nil
  · rw [Table.clear, entries_replicate]
    rfl
  · rw [Table.clear, List.length_replicate]
    exact h.threshold

/-! ### Looking for a key -/

theorem lookFor_nil (key : κ) (same : κ → Bool) : lookFor hash ([] : Buckets κ υ) key same = some (.vacant 0 0) := by
  have start : bucketForHash ([] : Buckets κ υ) (hash key) = 0 := Nat.and_zero _
  rw [lookFor, start]
  rfl

/-- What is left for the insertion of a key that was not found. -/
theorem carried_of_passes {b : Buckets κ υ} (value : υ) (placed : Placed hash b) {key : κ} {j m : Nat}
    (passes : Passes b (hash key) j) (empty : b.slot (((hash key + j) % b.length + m) % b.length) = none) :
    Carried hash b ((hash key + j) % b.length) j (key, value) m := by
  refine ⟨placed, rfl, ?_, empty⟩
  intro p hp before positive
  obtain ⟨s, there, far⟩ := passes (j - 1) (by omega)
  have two := two_le placed.size
  have same : p = (hash key + (j - 1)) % b.length := by
    apply next_injective hp (Nat.mod_lt _ (by omega))
    rw [before, Nat.mod_add_mod, Nat.add_assoc, Nat.sub_add_cancel positive]
  rw [same]
  exact ⟨s, there, by omega⟩


theorem lookFor_absent (h : Valid hash t) (small : t.size ≤ 32767) (key : κ) (same : κ → Bool)
    (absent : ∀ i s, t.buckets.slot i = some s → same s.key = false) :
    ∃ i d, lookFor hash t.buckets key same = some (.vacant i d) ∧ (Placed hash t.buckets →
      i = (hash key + d) % t.buckets.length ∧ Passes t.buckets (hash key) d ∧ ∀ s, t.buckets.slot i = some s → s.dist < d) := by
  obtain none_ | placed := h.placed
  · refine ⟨0, 0, by rw [none_]; exact lookFor_nil key same, fun placed => ?_⟩
    have two := two_le placed.size
    rw [none_] at two
    cases two
  · rw [size, h.count] at small
    obtain ⟨j, ran, passes, -, poorer⟩ := probe_absent placed small (h.room placed) absent (hash key)
    exact ⟨_, j, ran, fun _ => ⟨rfl, passes, poorer⟩⟩

section Operations

variable [DecidableEq κ]

theorem findImpl_present (h : Valid hash t) (small : t.size ≤ 32767) {i : Nat} {s : Slot κ υ} (at_ : t.buckets.slot i = some s) :
    t.findImpl hash s.key = some (some i) := by
  obtain none_ | placed := h.placed
  · rw [none_] at at_
    cases at_
  · rw [size, h.count] at small
    rw [findImpl, lookFor, probe_present placed h.distinct small (h.room placed) at_]
    rfl

theorem findImpl_absent (h : Valid hash t) (small : t.size ≤ 32767) {key : κ}
    (absent : ∀ v, (key, v) ∉ entries t.buckets) : t.findImpl hash key = some none := by
  obtain ⟨i, d, ran, -⟩ := lookFor_absent h small key (· = key) fun i s at_ => by
    rw [decide_eq_false_iff_not]
    rintro rfl
    exact absent s.value (mem_entries.mpr ⟨i, s, at_, rfl, rfl⟩)
  rw [findImpl, ran]
  rfl

end Operations

/-! ### Growth -/

theorem rehashLoop_spec {new : Buckets κ υ} (old : Buckets κ υ) (placed : Placed hash new)
    (room : (entries new).length + (entries old).length < new.length)
    (small : (entries new).length + (entries old).length ≤ 32768) :
    ∃ b', rehashLoop hash new old = some b' ∧ b'.length = new.length ∧ Placed hash b' ∧
      (entries b').Perm (entries old ++ entries new) := by
  induction old generalizing new with
  | nil => exact ⟨new, rfl, rfl, placed, .refl _⟩
  | cons o old ih =>
    cases o with
    | none => exact ih placed room small
    | some s =>
      have one : (entries (some s :: old)).length = (entries old).length + 1 := rfl
      obtain ⟨m, below, empty⟩ := exists_empty (b := new) (by omega) (hash s.key)
      have start : new.bucketForHash (hash s.key) = (hash s.key + 0) % new.length := and_mask placed.size _
      have carried : Carried hash new ((hash s.key + 0) % new.length) 0 (s.key, s.value) m := by
        refine carried_of_passes s.value placed (fun j hj => absurd hj (Nat.not_lt_zero j)) ?_
        rwa [Nat.add_zero, Nat.mod_add_mod]
      obtain ⟨b, grow, ran, length, placed', perm⟩ :=
        insertLoop_spec carried (by omega) (by omega) (show m < new.length + 1 by omega) false
      have counted := perm.length_eq
      rw [List.length_cons] at counted
      obtain ⟨b', ran', length', placed'', perm'⟩ := ih placed' (by omega) (by omega)
      refine ⟨b', ?_, length'.trans length, placed'', perm'.trans ?_⟩
      · rw [rehashLoop, start, ran]
        exact ran'
      · exact (perm.append_left _).trans List.perm_middle

/-- Before a key is inserted there is room for it. -/
theorem rehashOnExtremeLoad_spec (h : Valid hash t) (small : t.size ≤ 32767) :
    ∃ t' r, t.rehashOnExtremeLoad hash = some (t', r) ∧ Valid hash t' ∧ Placed hash t'.buckets ∧
      (entries t'.buckets).Perm (entries t.buckets) ∧ t'.nbElements + 1 ≤ t'.loadThreshold ∧
      (r = false → t'.buckets = t.buckets) := by
  have load := h.load
  rw [h.threshold] at load
  have count := h.count
  rw [size] at small
  rw [rehashOnExtremeLoad]
  split
  next =>
    -- twice the buckets, or two if there are none
    have grown : ∃ k, t.nextBucketCount = 2 ^ (k + 1) ∧ t.nbElements + 1 ≤ t.nextBucketCount / 2 := by
      obtain none_ | placed := h.placed
      · refine ⟨0, by rw [nextBucketCount, none_]; rfl, ?_⟩
        rw [none_] at load
        rw [nextBucketCount, none_]
        change t.nbElements ≤ 0 / 2 at load
        change t.nbElements + 1 ≤ (0 - 1 + 1) * 2 / 2
        omega
      · obtain ⟨k, length⟩ := placed.size
        have two := two_le placed.size
        have count : t.nextBucketCount = t.buckets.length * 2 := by
          rw [nextBucketCount, mask, Nat.sub_add_cancel (by omega)]
        exact ⟨k + 1, by rw [count, length, ← Nat.pow_succ], by rw [count]; omega⟩
    obtain ⟨k, power, enough⟩ := grown
    have new : Placed hash (make t.nextBucketCount : Table κ υ).buckets := placed_replicate ⟨k, power⟩
    have nothing : entries (make t.nextBucketCount : Table κ υ).buckets = [] := entries_replicate _
    have length : (make t.nextBucketCount : Table κ υ).buckets.length = t.nextBucketCount := List.length_replicate
    obtain ⟨b', ran, kept, placed, perm⟩ := rehashLoop_spec t.buckets new
      (by rw [nothing, length, List.length_nil]; omega) (by rw [nothing, List.length_nil]; omega)
    rw [nothing, List.append_nil] at perm
    rw [length] at kept
    refine ⟨_, true, by rw [rehashImpl, ran]; rfl, ⟨.inr placed, ?_, ?_, ?_, ?_⟩, placed, perm, ?_, fun h => by cases h⟩
    · exact (perm.map Prod.fst).nodup_iff.mpr h.distinct
    · exact count.trans perm.length_eq.symm
    · exact congrArg (· / 2) kept.symm
    · exact Nat.le_of_succ_le enough
    · exact enough
  next calm =>
    rw [Bool.or_eq_true, not_or, Nat.ble_eq] at calm
    have below : t.nbElements + 1 ≤ t.loadThreshold := Nat.lt_of_not_le calm.2
    have placed : Placed hash t.buckets := by
      refine h.placed.resolve_left fun none_ => ?_
      rw [h.threshold, none_] at below
      change t.nbElements + 1 ≤ 0 / 2 at below
      omega
    exact ⟨_, false, rfl, ⟨.inr placed, h.distinct, h.count, h.threshold, h.load⟩, placed, .refl _, below, fun _ => rfl⟩

theorem insertValue_spec {b : Buckets κ υ} (placed : Placed hash b) (small : (entries b).length ≤ 32767)
    (room : (entries b).length < b.length) {key : κ} {d : Nat} (passes : Passes b (hash key) d)
    (poorer : ∀ s, b.slot ((hash key + d) % b.length) = some s → s.dist < d) (value : υ) (grow : Bool) :
    ∃ b' grow', insertValue b ((hash key + d) % b.length) d key value grow = some (b', grow') ∧ b'.length = b.length ∧
      Placed hash b' ∧ (entries b').Perm ((key, value) :: entries b) := by
  obtain ⟨m, below, empty⟩ := exists_empty room ((hash key + d) % b.length)
  have carried := carried_of_passes value placed passes empty
  cases at_ : b.slot ((hash key + d) % b.length) with
  | none =>
    obtain ⟨placed', perm⟩ := carried.put at_
    exact ⟨_, _, by rw [insertValue, at_], List.length_set, placed', perm⟩
  | some s =>
    obtain _ | m := m
    · rw [Nat.add_zero, Nat.mod_mod, at_] at empty
      cases empty
    have near := placed.dist_lt room at_
    obtain ⟨stolen, perm⟩ := carried.steal at_ (poorer s at_)
    dsimp only at stolen perm
    have counted := Nat.succ.inj perm.length_eq
    have length : (b.set ((hash key + d) % b.length) (some ⟨d, key, value⟩)).length = b.length := List.length_set
    obtain ⟨b', grow', ran, kept, placed', perm'⟩ := insertLoop_spec stolen (by omega) (by omega)
      (show m < b.length + 1 by omega) grow
    refine ⟨b', grow', ?_, kept.trans length, placed', perm'.trans perm⟩
    rw [insertValue, at_]
    dsimp only
    rw [succDistance, if_pos (by omega), Option.bind_some, next_eq placed.size]
    exact ran

theorem eraseAt_spec (h : Valid hash t) {i : Nat} {s : Slot κ υ} (at_ : t.buckets.slot i = some s) :
    ∃ t', t.eraseAt i = some t' ∧ Valid hash t' ∧ ((s.key, s.value) :: entries t'.buckets).Perm (entries t.buckets) := by
  obtain none_ | placed := h.placed
  · rw [none_] at at_
    cases at_
  obtain ⟨b', ran, length, placed', perm⟩ := eraseFromBucket_spec placed (h.room placed) at_
  have counted := perm.length_eq
  rw [List.length_cons, ← h.count] at counted
  have load := h.load
  refine ⟨_, by rw [eraseAt, ran]; rfl, ⟨.inr placed', ?_, ?_, ?_, ?_⟩, perm⟩
  · exact (List.nodup_cons.mp ((perm.map Prod.fst).nodup_iff.mpr h.distinct)).2
  · change t.nbElements - 1 = (entries b').length
    omega
  · rw [length]
    exact h.threshold
  · change t.nbElements - 1 ≤ t.loadThreshold
    omega

section Updates

variable [DecidableEq κ]

theorem insertImpl_present (h : Valid hash t) (small : t.size ≤ 32767) {key : κ} {v : υ} (present : (key, v) ∈ entries t.buckets)
    (value : υ) : t.insertImpl hash key value = some (t, false) := by
  obtain ⟨i, s, at_, rfl, -⟩ := mem_entries.mp present
  obtain none_ | placed := h.placed
  · rw [none_] at at_
    cases at_
  · rw [size, h.count] at small
    rw [insertImpl, lookFor, probe_present placed h.distinct small (h.room placed) at_]
    rfl

theorem insertImpl_absent (h : Valid hash t) (small : t.size ≤ 32767) {key : κ} (absent : ∀ v, (key, v) ∉ entries t.buckets)
    (value : υ) : ∃ t', t.insertImpl hash key value = some (t', true) ∧ Valid hash t' ∧
      (entries t'.buckets).Perm ((key, value) :: entries t.buckets) := by
  have other (i : Nat) (s : Slot κ υ) (at_ : t.buckets.slot i = some s) : decide (s.key = key) = false := by
    rw [decide_eq_false_iff_not]
    rintro rfl
    exact absent s.value (mem_entries.mpr ⟨i, s, at_, rfl, rfl⟩)
  obtain ⟨i, d, looked, there⟩ := lookFor_absent h small key (· = key) other
  obtain ⟨t₁, r, grown, valid, placed, perm₁, below, kept⟩ := rehashOnExtremeLoad_spec h small
  have count₁ : (entries t₁.buckets).length ≤ 32767 := by
    rw [perm₁.length_eq, ← h.count]
    exact small
  -- where the key goes, after a rehash or as it was found before
  obtain ⟨d', at_, passes, poorer⟩ : ∃ d', (if r then vacancy hash t₁.buckets key else some (i, d)) =
      some ((hash key + d') % t₁.buckets.length, d') ∧ Passes t₁.buckets (hash key) d' ∧
      ∀ s, t₁.buckets.slot ((hash key + d') % t₁.buckets.length) = some s → s.dist < d' := by
    cases r with
    | false =>
      rw [kept rfl] at placed ⊢
      obtain ⟨rfl, passes, poorer⟩ := there placed
      exact ⟨d, rfl, passes, poorer⟩
    | true =>
      obtain ⟨i', d', looked', there'⟩ := lookFor_absent valid (by rw [size, valid.count]; exact count₁) key
        (fun _ => false) fun _ _ _ => rfl
      obtain ⟨rfl, passes, poorer⟩ := there' placed
      exact ⟨d', by rw [if_pos rfl, vacancy, looked']; rfl, passes, poorer⟩
  obtain ⟨b', grow', ran, length, placed', perm'⟩ := insertValue_spec placed count₁ (valid.room placed) passes poorer value
    t₁.growOnNextInsert
  have perm := perm'.trans (perm₁.cons (key, value))
  refine ⟨{ t₁ with buckets := b', nbElements := t₁.nbElements + 1, growOnNextInsert := grow' }, ?_,
    ⟨.inr placed', ?_, ?_, ?_, below⟩, perm⟩
  · rw [insertImpl, looked]
    dsimp only [Option.bind_some]
    rw [grown, Option.bind_some, at_, Option.bind_some, ran, Option.map_some]
  · refine (perm.map Prod.fst).nodup_iff.mpr (List.nodup_cons.mpr ⟨?_, h.distinct⟩)
    intro member
    obtain ⟨⟨k, v⟩, listed, rfl⟩ := List.mem_map.mp member
    exact absent v listed
  · rw [perm'.length_eq, List.length_cons, ← valid.count]
  · rw [length]
    exact valid.threshold

end Updates

end Table

/-! ### Values -/

/-- Every value of the table is as `P` says. -/
def Values (P : υ → Prop) (b : Buckets κ υ) : Prop := ∀ i s, b.slot i = some s → P s.value

section Values

variable {P : υ → Prop} {b b' : Buckets κ υ}

theorem values_set (values : Values P b) {o : Option (Slot κ υ)} (new : ∀ s, o = some s → P s.value) (i : Nat) : Values P (b.set i o) := by
  intro j s at_
  by_cases inside : i < b.length
  · rw [slot_set inside] at at_
    split_ifs at at_ with own
    · exact new s at_
    · exact values j s at_
  · rw [List.set_eq_of_length_le (Nat.le_of_not_lt inside)] at at_
    exact values j s at_

theorem values_put (values : Values P b) {v : υ} (new : P v) (i d : Nat) (k : κ) : Values P (b.set i (some ⟨d, k, v⟩)) :=
  values_set values (fun s same => by cases same; exact new) i

theorem values_replicate (n : Nat) : Values P (List.replicate n none : Buckets κ υ) := by
  intro i s at_
  rw [Table.slot_replicate] at at_
  cases at_

theorem insertLoop_values {fuel i d : Nat} {e : κ × υ} {grow grow' : Bool} (values : Values P b) (new : P e.2)
    (h : insertLoop b fuel i d e grow = some (b', grow')) : Values P b' := by
  induction fuel generalizing b i d e grow with
  | zero => cases h
  | succ fuel ih =>
    cases at_ : b.slot i with
    | none =>
      rw [insertLoop, at_] at h
      cases h
      exact values_put values new i d e.1
    | some s =>
      rw [insertLoop_some at_] at h
      split_ifs at h with poorer
      · obtain ⟨d', -, rest⟩ := Option.bind_eq_some_iff.mp h
        exact ih (values_put values new i d e.1) (values i s at_) rest
      · obtain ⟨d', -, rest⟩ := Option.bind_eq_some_iff.mp h
        exact ih values new rest

theorem shift_values {fuel previous : Nat} (values : Values P b) (h : shift b fuel previous = some b') : Values P b' := by
  induction fuel generalizing b previous with
  | zero => cases h
  | succ fuel ih =>
    rw [shift] at h
    cases at_ : b.slot (b.nextBucket previous) with rw [at_] at h
    | none =>
      cases h
      exact values
    | some s =>
      dsimp only at h
      split_ifs at h with away
      · exact ih (values_set (values_put values (values _ s at_) _ _ _) (fun _ none_ => by cases none_) _) h
      · cases h
        exact values

theorem rehashLoop_values {hash : κ → Nat} {old new : Buckets κ υ} (values : ∀ o ∈ old, ∀ s, o = some s → P s.value)
    (filled : Values P new) (h : Table.rehashLoop hash new old = some b') : Values P b' := by
  induction old generalizing new with
  | nil =>
    cases h
    exact filled
  | cons o old ih =>
    have rest : ∀ o ∈ old, ∀ s, o = some s → P s.value := fun o member => values o (List.mem_cons_of_mem _ member)
    cases o with
    | none => exact ih rest filled h
    | some s =>
      obtain ⟨r, inserted, h⟩ := Option.bind_eq_some_iff.mp h
      exact ih rest (insertLoop_values filled (values _ List.mem_cons_self s rfl) inserted) h

namespace Table

variable {hash : κ → Nat} {t t' : Table κ υ}

theorem rehashOnExtremeLoad_values {grown : Bool} (values : Values P t.buckets) (h : t.rehashOnExtremeLoad hash = some (t', grown)) :
    Values P t'.buckets := by
  rw [rehashOnExtremeLoad] at h
  split_ifs at h with full
  · obtain ⟨t₁, ran, same⟩ := Option.map_eq_some_iff.mp h
    obtain ⟨b, moved, rfl⟩ := Option.map_eq_some_iff.mp ran
    cases same
    refine rehashLoop_values (fun o member s same => ?_) (values_replicate _) moved
    subst same
    obtain ⟨i, at_⟩ := List.mem_iff_getElem?.mp member
    exact values i s (slot_eq_some.mpr at_)
  · cases h
    exact values

theorem insertImpl_values [DecidableEq κ] {key : κ} {value : υ} {inserted : Bool} (values : Values P t.buckets) (new : P value)
    (h : t.insertImpl hash key value = some (t', inserted)) : Values P t'.buckets := by
  obtain ⟨looked, -, h⟩ := Option.bind_eq_some_iff.mp h
  cases looked with
  | found i =>
    cases h
    exact values
  | vacant i d =>
    obtain ⟨⟨t₁, grown⟩, ran, h⟩ := Option.bind_eq_some_iff.mp h
    obtain ⟨at_, -, h⟩ := Option.bind_eq_some_iff.mp h
    obtain ⟨⟨b, grow⟩, placed, same⟩ := Option.map_eq_some_iff.mp h
    cases same
    have before := rehashOnExtremeLoad_values values ran
    rw [insertValue] at placed
    cases there : slot t₁.buckets at_.1 with rw [there] at placed
    | none =>
      cases placed
      exact values_put before new _ _ _
    | some s =>
      obtain ⟨d', -, placed⟩ := Option.bind_eq_some_iff.mp placed
      exact insertLoop_values (values_put before new _ _ _) (before _ s there) placed

theorem eraseAt_values {i : Nat} (values : Values P t.buckets) (h : t.eraseAt i = some t') : Values P t'.buckets := by
  obtain ⟨b, shifted, rfl⟩ := Option.map_eq_some_iff.mp h
  exact shift_values (values_set values (fun _ none_ => by cases none_) i) shifted

end Table

end Values

end LAppS.RobinHash
