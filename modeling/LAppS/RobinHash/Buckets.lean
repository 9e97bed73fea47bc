import Mathlib.Data.List.Perm.Subperm
import Mathlib.Data.List.Nodup
import Mathlib.Data.Nat.Bitwise
import Mathlib.Data.List.GetD
import Mathlib.Data.List.Pairwise
import Mathlib.Data.Nat.ModEq

/-!
# The buckets of `robin_hash`

Linear probing with robin-hood displacement and backward shift. A loop that would not end, or that would count a distance
from the ideal bucket beyond what a `std::int16_t` holds, has no result.
-/

namespace LAppS.RobinHash

variable {κ υ : Type}

structure Slot (κ υ : Type) where
  dist : Nat
  key : κ
  value : υ

/-- An empty bucket has the distance -1. -/
abbrev Buckets (κ υ : Type) := List (Option (Slot κ υ))

namespace Buckets

def mask (b : Buckets κ υ) : Nat := b.length - 1

def bucketForHash (b : Buckets κ υ) (hash : Nat) : Nat := hash &&& b.mask

def nextBucket (b : Buckets κ υ) (i : Nat) : Nat := (i + 1) &&& b.mask

/-- A bucket; a table without buckets has the static empty one. -/
def slot (b : Buckets κ υ) (i : Nat) : Option (Slot κ υ) := b.getD i none

/-- What an iteration visits. -/
def entries (b : Buckets κ υ) : List (κ × υ) := b.filterMap fun s => s.map fun s => (s.key, s.value)

/-- `dist_from_ideal_bucket++`. -/
def succDistance (d : Nat) : Option Nat := if d < 32767 then some (d + 1) else none

/-- How the loop ends that looks for a key. -/
inductive Probe where
  | found (i : Nat)
  | vacant (i d : Nat)

def probe (b : Buckets κ υ) (same : κ → Bool) : Nat → Nat → Nat → Option Probe
  | 0, _, _ => none
  | fuel + 1, i, d =>
    match b.slot i with
    | none => some (.vacant i d)
    | some s =>
      if d ≤ s.dist then
        if same s.key then some (.found i)
        else (succDistance d).bind fun d => probe b same fuel (b.nextBucket i) d
      else some (.vacant i d)

/-- The loop of `insert_value_impl` and `insert_value_on_rehash`. The flag is that for the next insertion to grow the
table. -/
def insertLoop (b : Buckets κ υ) : Nat → Nat → Nat → κ × υ → Bool → Option (Buckets κ υ × Bool)
  | 0, _, _, _, _ => none
  | fuel + 1, i, d, e, grow =>
    match b.slot i with
    | none => some (b.set i (some ⟨d, e.1, e.2⟩), grow)
    | some s =>
      if s.dist < d then
        (succDistance s.dist).bind fun d' =>
          insertLoop (b.set i (some ⟨d, e.1, e.2⟩)) fuel (b.nextBucket i) d' (s.key, s.value) (grow || Nat.ble 4096 d)
      else (succDistance d).bind fun d' => insertLoop b fuel (b.nextBucket i) d' e grow

/-- The backward shift of `erase_from_bucket`. -/
def shift (b : Buckets κ υ) : Nat → Nat → Option (Buckets κ υ)
  | 0, _ => none
  | fuel + 1, previous =>
    match b.slot (b.nextBucket previous) with
    | none => some b
    | some s =>
      if 0 < s.dist then
        shift ((b.set previous (some ⟨s.dist - 1, s.key, s.value⟩)).set (b.nextBucket previous) none) fuel
          (b.nextBucket previous)
      else some b

def eraseFromBucket (b : Buckets κ υ) (i : Nat) : Option (Buckets κ υ) := shift (b.set i none) (b.length + 1) i

/-! ### Buckets and entries -/

theorem slot_eq_some {b : Buckets κ υ} {i : Nat} {s : Slot κ υ} : b.slot i = some s ↔ b[i]? = some (some s) := by
  rw [slot, List.getD_eq_getElem?_getD]
  cases h : b[i]? with
  | none => simp
  | some o => simp

theorem lt_of_slot {b : Buckets κ υ} {i : Nat} {s : Slot κ υ} (h : b.slot i = some s) : i < b.length :=
  (List.getElem?_eq_some_iff.mp (slot_eq_some.mp h)).1

theorem slot_set {b : Buckets κ υ} {i : Nat} (inside : i < b.length) (o : Option (Slot κ υ)) (j : Nat) :
    slot (b.set i o) j = if j = i then o else b.slot j := by
  rw [slot, slot, List.getD_eq_getElem?_getD, List.getD_eq_getElem?_getD]
  by_cases same : j = i
  · subst same
    rw [if_pos rfl, List.getElem?_set_self inside, Option.getD_some]
  · rw [if_neg same, List.getElem?_set_ne (Ne.symm same)]

def pairs : Option (Slot κ υ) → List (κ × υ)
  | none => []
  | some s => [(s.key, s.value)]

theorem entries_cons (o : Option (Slot κ υ)) (b : Buckets κ υ) : entries (o :: b) = pairs o ++ entries b := by
  cases o <;> rfl

/-- What a bucket held and what it holds now change places. -/
theorem entries_set {b : Buckets κ υ} {i : Nat} (inside : i < b.length) (o : Option (Slot κ υ)) :
    (pairs (b.slot i) ++ entries (b.set i o)).Perm (pairs o ++ entries b) := by
  induction b generalizing i with
  | nil => cases inside
  | cons p b ih =>
    cases i with
    | zero =>
      rw [List.set_cons_zero, entries_cons, entries_cons]
      exact List.perm_append_comm_assoc _ _ _
    | succ i =>
      have step := ih (Nat.lt_of_succ_lt_succ inside)
      rw [List.set_cons_succ, entries_cons, entries_cons]
      have out := List.perm_append_comm_assoc (pairs (slot b i)) (pairs p) (entries (b.set i o))
      have back := List.perm_append_comm_assoc (pairs p) (pairs o) (entries b)
      exact (out.trans (step.append_left _)).trans back

/-! ### Counting -/

theorem entries_eq_range (b : Buckets κ υ) : entries b = (List.range b.length).flatMap fun i => pairs (b.slot i) := by
  induction b with
  | nil => rfl
  | cons o b ih =>
    rw [entries_cons, ih, List.length_cons, List.range_succ_eq_map, List.flatMap_cons, List.flatMap_map]
    rfl

theorem length_flatMap_pairs (b : Buckets κ υ) (is : List Nat) :
    (is.flatMap fun i => pairs (b.slot i)).length = (is.filter fun i => (b.slot i).isSome).length := by
  induction is with
  | nil => rfl
  | cons i is ih =>
    rw [List.flatMap_cons, List.length_append, ih, List.filter_cons]
    cases b.slot i <;> simp [pairs, Nat.add_comm]

/-- Buckets in a row that are not empty are no more than the entries. -/
theorem le_length_entries {b : Buckets κ υ} {h m : Nat} (within : m ≤ b.length)
    (filled : ∀ j < m, b.slot ((h + j) % b.length) ≠ none) : m ≤ (entries b).length := by
  have distinct : ((List.range m).map fun j => (h + j) % b.length).Nodup := by
    apply List.Nodup.map_on _ List.nodup_range
    intro x hx y hy same
    have hx := List.mem_range.mp hx
    have hy := List.mem_range.mp hy
    have cong : Nat.ModEq b.length x y := Nat.ModEq.add_left_cancel' h same
    rwa [Nat.ModEq, Nat.mod_eq_of_lt (by omega), Nat.mod_eq_of_lt (by omega)] at cong
  have inside : ((List.range m).map fun j => (h + j) % b.length) ⊆
      (List.range b.length).filter fun i => (b.slot i).isSome := by
    intro i hi
    obtain ⟨j, hj, rfl⟩ := List.mem_map.mp hi
    have hj := List.mem_range.mp hj
    refine List.mem_filter.mpr ⟨List.mem_range.mpr (Nat.mod_lt _ (by omega)), ?_⟩
    exact Option.isSome_iff_ne_none.mpr (filled j hj)
  have count := (List.subperm_of_subset distinct inside).length_le
  rwa [List.length_map, List.length_range, ← length_flatMap_pairs, ← entries_eq_range] at count

/-- From any bucket on there is an empty one, if there are fewer entries than buckets. -/
theorem exists_empty {b : Buckets κ υ} (room : (entries b).length < b.length) (h : Nat) :
    ∃ m < b.length, b.slot ((h + m) % b.length) = none := by
  by_contra full
  simp only [not_exists, not_and] at full
  have all := le_length_entries (Nat.le_refl _) full
  omega

/-! ### The robin-hood invariant -/

/-- The value behind this bucket is not further from its ideal bucket than the one in it, by more than one. -/
def Fair (b : Buckets κ υ) (i : Nat) : Prop :=
  ∀ s, b.slot ((i + 1) % b.length) = some s → 0 < s.dist → ∃ s', b.slot i = some s' ∧ s.dist ≤ s'.dist + 1

structure Placed (hash : κ → Nat) (b : Buckets κ υ) : Prop where
  size : ∃ k, b.length = 2 ^ (k + 1)
  ideal : ∀ i s, b.slot i = some s → i = (hash s.key + s.dist) % b.length
  fair : ∀ i < b.length, b.Fair i

theorem and_mask {b : Buckets κ υ} (size : ∃ k, b.length = 2 ^ (k + 1)) (x : Nat) : x &&& b.mask = x % b.length := by
  obtain ⟨k, size⟩ := size
  rw [mask, size, Nat.and_two_pow_sub_one_eq_mod]

theorem next_eq {b : Buckets κ υ} (size : ∃ k, b.length = 2 ^ (k + 1)) (i : Nat) : b.nextBucket i = (i + 1) % b.length :=
  and_mask size (i + 1)

theorem two_le {b : Buckets κ υ} (size : ∃ k, b.length = 2 ^ (k + 1)) : 2 ≤ b.length := by
  obtain ⟨k, size⟩ := size
  have one := Nat.two_pow_pos k
  rw [size, Nat.pow_succ]
  omega

variable {hash : κ → Nat} {b : Buckets κ υ}

/-- On the way from the ideal bucket all buckets are as rich. -/
theorem Placed.passed (inv : Placed hash b) {h d : Nat} {s : Slot κ υ} (at_ : b.slot ((h + d) % b.length) = some s)
    (far : d ≤ s.dist) : ∀ j ≤ d, ∃ s', b.slot ((h + j) % b.length) = some s' ∧ j ≤ s'.dist := by
  have positive : 0 < b.length := by have := two_le inv.size; omega
  induction d generalizing s with
  | zero =>
    intro j hj
    obtain rfl : j = 0 := by omega
    exact ⟨s, at_, far⟩
  | succ d ih =>
    obtain ⟨s', before, richer⟩ := inv.fair ((h + d) % b.length) (Nat.mod_lt _ positive) s
      (by rw [Nat.mod_add_mod]; exact at_) (by omega)
    intro j hj
    by_cases last : j = d + 1
    · subst last
      exact ⟨s, at_, far⟩
    · exact ih before (by omega) j (by omega)

theorem Placed.dist_lt (inv : Placed hash b) (room : (entries b).length < b.length) {i : Nat} {s : Slot κ υ}
    (at_ : b.slot i = some s) : s.dist < (entries b).length := by
  rw [inv.ideal i s at_] at at_
  have passed := inv.passed at_ (Nat.le_refl _)
  have filled (m : Nat) (le : m ≤ s.dist + 1) : ∀ j < m, b.slot ((hash s.key + j) % b.length) ≠ none := by
    intro j hj
    obtain ⟨s', there, -⟩ := passed j (by omega)
    rw [there]
    exact Option.some_ne_none s'
  by_cases within : s.dist + 1 ≤ b.length
  · exact le_length_entries within (filled _ (Nat.le_refl _))
  · have all := le_length_entries (Nat.le_refl _) (filled b.length (by omega))
    omega

/-! ### Looking for a key -/

/-- The first `d` buckets from an ideal one do not stop the loop. -/
def Passes (b : Buckets κ υ) (h d : Nat) : Prop := ∀ j < d, ∃ s, b.slot ((h + j) % b.length) = some s ∧ j ≤ s.dist

theorem Passes.le_length (h : Nat) {d : Nat} (passes : Passes b h d) (within : d ≤ b.length) : d ≤ (entries b).length := by
  apply le_length_entries (h := h) within
  intro j hj
  obtain ⟨s, there, -⟩ := passes j hj
  rw [there]
  exact Option.some_ne_none s

theorem probe_some {same : κ → Bool} {fuel i d : Nat} {s : Slot κ υ} (at_ : b.slot i = some s) :
    probe b same (fuel + 1) i d =
      if d ≤ s.dist then
        if same s.key then some (.found i) else (succDistance d).bind fun d => probe b same fuel (b.nextBucket i) d
      else some (.vacant i d) := by
  rw [probe, at_]

/-- Where the loop ends. -/
inductive Ended (b : Buckets κ υ) (same : κ → Bool) (h d : Nat) : Probe → Prop
  | found {j : Nat} {s : Slot κ υ} (at_ : b.slot ((h + j) % b.length) = some s) (is : same s.key = true) :
      Ended b same h d (.found ((h + j) % b.length))
  | vacant {j : Nat} (passes : Passes b h j) (within : j < b.length)
      (poorer : ∀ s, b.slot ((h + j) % b.length) = some s → s.dist < j)
      (others : ∀ i, d ≤ i → i < j → ∀ s, b.slot ((h + i) % b.length) = some s → same s.key = false) :
      Ended b same h d (.vacant ((h + j) % b.length) j)

theorem probe_ended (size : ∃ k, b.length = 2 ^ (k + 1)) (same : κ → Bool) (small : (entries b).length ≤ 32767) {h m : Nat}
    (empty : b.slot ((h + m) % b.length) = none) (below : m < b.length) {d fuel : Nat} (passes : Passes b h d) (le : d ≤ m)
    (enough : m - d < fuel) : ∃ r, probe b same fuel ((h + d) % b.length) d = some r ∧ Ended b same h d r := by
  induction fuel generalizing d with
  | zero => cases enough
  | succ fuel ih =>
    cases at_ : b.slot ((h + d) % b.length) with
    | none =>
      refine ⟨_, by rw [probe, at_], .vacant passes (by omega) (fun s there => ?_) (fun i _ _ => by omega)⟩
      rw [at_] at there
      cases there
    | some s =>
      rw [probe_some at_]
      by_cases far : d ≤ s.dist
      · have more : Passes b h (d + 1) := by
          intro j hj
          by_cases last : j = d
          · subst last
            exact ⟨s, at_, far⟩
          · exact passes j (by omega)
        cases is : same s.key with
        | true => exact ⟨_, by rw [if_pos far, if_pos rfl], .found at_ is⟩
        | false =>
          have other : d ≠ m := by
            rintro rfl
            rw [empty] at at_
            cases at_
          have counted := more.le_length h (by omega)
          obtain ⟨r, ran, ended⟩ := ih more (by omega) (by omega)
          refine ⟨r, ?_, ?_⟩
          · rw [if_pos far, if_neg Bool.false_ne_true, succDistance, if_pos (by omega),
              Option.bind_some, next_eq size, Nat.mod_add_mod]
            exact ran
          · cases ended with
            | found at_ is => exact .found at_ is
            | vacant passes within poorer others =>
              refine .vacant passes within poorer fun i low high s' there => ?_
              by_cases first : i = d
              · subst first
                rw [at_] at there
                obtain rfl := Option.some.inj there
                exact is
              · exact others i (by omega) high s' there
      · refine ⟨_, by rw [if_neg far], .vacant passes (by omega) (fun s' there => ?_) (fun i _ _ => by omega)⟩
        rw [at_] at there
        obtain rfl := Option.some.inj there
        omega

/-- No key is in two buckets. -/
def DistinctKeys (b : Buckets κ υ) : Prop := ((entries b).map Prod.fst).Nodup

theorem mem_entries {k : κ} {v : υ} : (k, v) ∈ entries b ↔ ∃ i s, b.slot i = some s ∧ s.key = k ∧ s.value = v := by
  rw [entries_eq_range, List.mem_flatMap]
  constructor
  · rintro ⟨i, -, member⟩
    cases at_ : b.slot i with
    | none =>
      rw [at_] at member
      cases member
    | some s =>
      rw [at_] at member
      obtain ⟨rfl, rfl⟩ := Prod.mk.inj (List.mem_singleton.mp member)
      exact ⟨i, s, at_, rfl, rfl⟩
  · rintro ⟨i, s, at_, rfl, rfl⟩
    refine ⟨i, List.mem_range.mpr (lt_of_slot at_), ?_⟩
    rw [at_]
    exact List.mem_singleton.mpr rfl

theorem DistinctKeys.slot_eq (distinct : DistinctKeys b) {i j : Nat} {s s' : Slot κ υ} (hi : b.slot i = some s) (hj : b.slot j = some s')
    (same : s.key = s'.key) : i = j := by
  by_contra other
  rw [DistinctKeys, entries_eq_range, List.map_flatMap] at distinct
  have symmetric : Std.Symm (Function.onFun List.Disjoint fun i => (pairs (b.slot i)).map Prod.fst) :=
    ⟨fun _ _ h _ ha hb => h hb ha⟩
  have apart : ((pairs (b.slot i)).map Prod.fst).Disjoint ((pairs (b.slot j)).map Prod.fst) :=
    (List.nodup_flatMap.mp distinct).2.forall (List.mem_range.mpr (lt_of_slot hi)) (List.mem_range.mpr (lt_of_slot hj)) other
  rw [hi, hj] at apart
  exact apart (List.mem_singleton.mpr rfl) (List.mem_singleton.mpr same)

theorem probe_present [DecidableEq κ] (inv : Placed hash b) (distinct : DistinctKeys b) (small : (entries b).length ≤ 32767)
    (room : (entries b).length < b.length) {i : Nat} {s : Slot κ υ} (at_ : b.slot i = some s) :
    probe b (· = s.key) (b.length + 1) (b.bucketForHash (hash s.key)) 0 = some (.found i) := by
  obtain ⟨m, below, empty⟩ := exists_empty room (hash s.key)
  have none_ : Passes b (hash s.key) 0 := fun j hj => by omega
  obtain ⟨r, ran, ended⟩ := probe_ended inv.size (· = s.key) small empty below none_ (Nat.zero_le _)
    (show m - 0 < b.length + 1 by omega)
  have start : b.bucketForHash (hash s.key) = (hash s.key + 0) % b.length := and_mask inv.size _
  rw [start, ran]
  have own := inv.ideal i s at_
  cases ended with
  | found there is => rw [distinct.slot_eq there at_ (of_decide_eq_true is)]
  | @vacant j passes within poorer others =>
    exfalso
    rw [own] at at_
    by_cases before : s.dist < j
    · have other := others s.dist (Nat.zero_le _) before s at_
      simp at other
    · obtain ⟨s', there, far⟩ := inv.passed at_ (Nat.le_refl _) j (by omega)
      have near := poorer s' there
      omega

theorem probe_absent (inv : Placed hash b) (small : (entries b).length ≤ 32767)
    (room : (entries b).length < b.length) {same : κ → Bool} (none_ : ∀ i s, b.slot i = some s → same s.key = false) (h : Nat) :
    ∃ j, probe b same (b.length + 1) (b.bucketForHash h) 0 = some (.vacant ((h + j) % b.length) j) ∧ Passes b h j ∧
      j < b.length ∧ ∀ s, b.slot ((h + j) % b.length) = some s → s.dist < j := by
  obtain ⟨m, below, empty⟩ := exists_empty room h
  obtain ⟨r, ran, ended⟩ := probe_ended inv.size same small empty below (fun j hj => absurd hj (Nat.not_lt_zero j))
    (Nat.zero_le _) (show m - 0 < b.length + 1 by omega)
  have start : b.bucketForHash h = (h + 0) % b.length := and_mask inv.size _
  rw [start, ran]
  cases ended with
  | found there is =>
    rw [none_ _ _ there] at is
    cases is
  | vacant passes within poorer others => exact ⟨_, rfl, passes, within, poorer⟩

/-! ### Insertion -/

theorem next_ne {n i : Nat} (two : 2 ≤ n) (inside : i < n) : (i + 1) % n ≠ i := by
  by_cases last : i + 1 = n
  · rw [last, Nat.mod_self]
    omega
  · rw [Nat.mod_eq_of_lt (by omega)]
    omega

theorem next_injective {n i j : Nat} (hi : i < n) (hj : j < n) (same : (i + 1) % n = (j + 1) % n) : i = j := by
  have cong : Nat.ModEq n i j := Nat.ModEq.add_right_cancel' 1 same
  rwa [Nat.ModEq, Nat.mod_eq_of_lt hi, Nat.mod_eq_of_lt hj] at cong

/-- A value at this distance is not too poor for the bucket. -/
def Fits (b : Buckets κ υ) (i d : Nat) : Prop :=
  ∀ p < b.length, (p + 1) % b.length = i → 0 < d → ∃ s, b.slot p = some s ∧ d ≤ s.dist + 1

theorem Placed.set (inv : Placed hash b) {i : Nat} (inside : i < b.length) {s : Slot κ υ}
    (ideal : i = (hash s.key + s.dist) % b.length) (fits : b.Fits i s.dist)
    (richer : ∀ s', b.slot ((i + 1) % b.length) = some s' → 0 < s'.dist → s'.dist ≤ s.dist + 1) :
    Placed hash (b.set i (some s)) := by
  have away := next_ne (two_le inv.size) inside
  refine ⟨by rw [List.length_set]; exact inv.size, ?_, ?_⟩
  · intro j s' there
    rw [slot_set inside] at there
    rw [List.length_set]
    split at there
    next same =>
      obtain rfl := Option.some.inj there
      rw [same]
      exact ideal
    next => exact inv.ideal j s' there
  · intro j hj s' there positive
    rw [List.length_set] at hj there
    rw [slot_set inside] at there ⊢
    split at there
    next before =>
      -- the new value, and what is in front of it
      obtain rfl := Option.some.inj there
      have other : j ≠ i := by
        rintro rfl
        exact away before
      rw [if_neg other]
      exact fits j hj before positive
    next =>
      by_cases own : j = i
      · rw [if_pos own]
        rw [own] at there
        exact ⟨s, rfl, richer s' there positive⟩
      · rw [if_neg own]
        exact inv.fair j hj s' there positive

/-- The rest of an insertion: a value on its way, and an empty bucket ahead. -/
structure Carried (hash : κ → Nat) (b : Buckets κ υ) (i d : Nat) (e : κ × υ) (m : Nat) : Prop where
  placed : Placed hash b
  ideal : i = (hash e.1 + d) % b.length
  fits : b.Fits i d
  empty : b.slot ((i + m) % b.length) = none

theorem Carried.inside {i d m : Nat} {e : κ × υ} (c : Carried hash b i d e m) : i < b.length := by
  have two := two_le c.placed.size
  rw [c.ideal]
  exact Nat.mod_lt _ (by omega)

section Carry

variable {i d m : Nat} {e : κ × υ} {s : Slot κ υ}

/-- The value is put into the empty bucket. -/
theorem Carried.put (c : Carried hash b i d e m) (at_ : b.slot i = none) :
    Placed hash (b.set i (some ⟨d, e.1, e.2⟩)) ∧ (entries (b.set i (some ⟨d, e.1, e.2⟩))).Perm (e :: entries b) := by
  constructor
  · refine c.placed.set c.inside c.ideal c.fits fun s' there positive => ?_
    obtain ⟨s, filled, -⟩ := c.placed.fair i c.inside s' there positive
    rw [at_] at filled
    cases filled
  · have perm := entries_set c.inside (some (⟨d, e.1, e.2⟩ : Slot κ υ))
    rwa [at_] at perm

theorem ahead (b : Buckets κ υ) (i m : Nat) : ((i + 1) % b.length + m) % b.length = (i + (m + 1)) % b.length := by
  rw [Nat.mod_add_mod, Nat.add_right_comm, Nat.add_assoc]

/-- The bucket has a richer value, and keeps it. -/
theorem Carried.skip (c : Carried hash b i d e (m + 1)) (at_ : b.slot i = some s) (richer : d ≤ s.dist) :
    Carried hash b ((i + 1) % b.length) (d + 1) e m := by
  refine ⟨c.placed, ?_, ?_, by rw [ahead]; exact c.empty⟩
  · rw [c.ideal, Nat.mod_add_mod, Nat.add_assoc]
  · intro p hp before _
    rw [next_injective hp c.inside before]
    exact ⟨s, at_, Nat.succ_le_succ richer⟩

/-- The bucket is taken from a poorer value, which is carried on. -/
theorem Carried.steal (c : Carried hash b i d e (m + 1)) (at_ : b.slot i = some s) (poorer : s.dist < d) :
    Carried hash (b.set i (some ⟨d, e.1, e.2⟩)) ((i + 1) % b.length) (s.dist + 1) (s.key, s.value) m ∧
      ((s.key, s.value) :: entries (b.set i (some ⟨d, e.1, e.2⟩))).Perm (e :: entries b) := by
  have inside := c.inside
  have size : (b.set i (some ⟨d, e.1, e.2⟩)).length = b.length := List.length_set
  have perm := entries_set inside (some (⟨d, e.1, e.2⟩ : Slot κ υ))
  rw [at_] at perm
  refine ⟨⟨?_, ?_, ?_, ?_⟩, perm⟩
  · refine c.placed.set inside c.ideal c.fits fun s' there positive => ?_
    obtain ⟨s₀, filled, le⟩ := c.placed.fair i inside s' there positive
    rw [at_] at filled
    obtain rfl := Option.some.inj filled
    change s'.dist ≤ d + 1
    omega
  · rw [size, c.placed.ideal i s at_, Nat.mod_add_mod, Nat.add_assoc]
  · intro p hp before _
    rw [size] at hp before
    rw [next_injective hp inside before, slot_set inside, if_pos rfl]
    exact ⟨_, rfl, Nat.succ_le_succ (Nat.le_of_lt poorer)⟩
  · have away : (i + (m + 1)) % b.length ≠ i := by
      intro same
      have empty := c.empty
      rw [same, at_] at empty
      cases empty
    rw [size, ahead, slot_set inside, if_neg away]
    exact c.empty

end Carry

theorem insertLoop_some {fuel i d : Nat} {e : κ × υ} {grow : Bool} {s : Slot κ υ} (at_ : b.slot i = some s) :
    insertLoop b (fuel + 1) i d e grow =
      if s.dist < d then
        (succDistance s.dist).bind fun d' =>
          insertLoop (b.set i (some ⟨d, e.1, e.2⟩)) fuel (b.nextBucket i) d' (s.key, s.value) (grow || Nat.ble 4096 d)
      else (succDistance d).bind fun d' => insertLoop b fuel (b.nextBucket i) d' e grow := by
  rw [insertLoop, at_]

theorem insertLoop_spec {i d m fuel : Nat} {e : κ × υ} (c : Carried hash b i d e m) (small : (entries b).length ≤ 32767)
    (room : (entries b).length < b.length) (enough : m < fuel) (grow : Bool) :
    ∃ b' grow', insertLoop b fuel i d e grow = some (b', grow') ∧ b'.length = b.length ∧ Placed hash b' ∧
      (entries b').Perm (e :: entries b) := by
  induction fuel generalizing b i d e m grow with
  | zero => cases enough
  | succ fuel ih =>
    cases at_ : b.slot i with
    | none =>
      obtain ⟨placed, perm⟩ := c.put at_
      exact ⟨_, _, by rw [insertLoop, at_], List.length_set, placed, perm⟩
    | some s =>
      obtain _ | m := m
      · have empty := c.empty
        rw [Nat.add_zero, Nat.mod_eq_of_lt c.inside, at_] at empty
        cases empty
      have near := c.placed.dist_lt room at_
      rw [insertLoop_some at_, next_eq c.placed.size]
      by_cases poorer : s.dist < d
      · obtain ⟨carried, perm⟩ := c.steal at_ poorer
        have length : (entries (b.set i (some ⟨d, e.1, e.2⟩))).length = (entries b).length := Nat.succ.inj perm.length_eq
        have size : (b.set i (some ⟨d, e.1, e.2⟩)).length = b.length := List.length_set
        obtain ⟨b', grow', ran, kept, placed, perm'⟩ := ih carried (by omega) (by omega) (by omega) (grow || Nat.ble 4096 d)
        rw [if_pos poorer, succDistance, if_pos (by omega), Option.bind_some]
        exact ⟨b', grow', ran, kept.trans size, placed, perm'.trans perm⟩
      · rw [if_neg poorer, succDistance, if_pos (by omega), Option.bind_some]
        exact ih (c.skip at_ (by omega)) small room (by omega) grow

end Buckets

end LAppS.RobinHash
