import LAppS.Bytes

/-!
# JSON values as the library stores them

An integer is kept as a signed or as an unsigned word, a double is its 64 bits, a string is bytes, and the members of an
object are in the order of `std::map`.
-/

namespace LAppS.Cbor

abbrev Bytes := List UInt8

inductive Json where
  | null
  | boolean (b : Bool)
  | numberInteger (i : Int64)
  | numberUnsigned (n : UInt64)
  | numberFloat (x : UInt64)
  | string (s : Bytes)
  | array (elements : List Json)
  | object (members : List (Bytes × Json))

/-- `max_size()` of the containers, which is less than any size that is not one. -/
structure Limits where
  array : Nat
  object : Nat
  array_lt : array < 2 ^ 64 - 1
  object_lt : object < 2 ^ 64 - 1

/-- The containers of libstdc++, with 16 bytes for a value and 80 for a node of an object. -/
def Limits.host : Limits := ⟨(2 ^ 63 - 1) / 16, (2 ^ 63 - 1) / 80, by decide, by decide⟩

namespace Json

/-- `object[key] = v`. -/
def setMember (key : Bytes) (v : Json) : List (Bytes × Json) → List (Bytes × Json)
  | [] => [(key, v)]
  | (k, w) :: members =>
    if key = k then (k, v) :: members
    else if key < k then (key, v) :: (k, w) :: members
    else (k, w) :: setMember key v members

/-- Members in the order in which they come; a later one replaces an earlier one of the same key. -/
def ofMembers (members : List (Bytes × Json)) : List (Bytes × Json) :=
  members.foldl (fun stored m => setMember m.1 m.2 stored) []

/-- The keys are in ascending order. -/
def Ascending (members : List (Bytes × Json)) : Prop := members.Pairwise (·.1 < ·.1)

/-- A value that the library can hold. -/
inductive Stored (L : Limits) : Json → Prop
  | null : Stored L .null
  | boolean (b : Bool) : Stored L (.boolean b)
  | numberInteger (i : Int64) : Stored L (.numberInteger i)
  | numberUnsigned (n : UInt64) : Stored L (.numberUnsigned n)
  | numberFloat (x : UInt64) : Stored L (.numberFloat x)
  | string {s : Bytes} (short : s.length < 2 ^ 64) : Stored L (.string s)
  | array {elements : List Json} (short : elements.length ≤ L.array) (each : ∀ v ∈ elements, Stored L v) :
      Stored L (.array elements)
  | object {members : List (Bytes × Json)} (short : members.length ≤ L.object) (ascending : Ascending members)
      (keys : ∀ m ∈ members, m.1.length < 2 ^ 64) (each : ∀ m ∈ members, Stored L m.2) : Stored L (.object members)

/-! ### Members -/

theorem mem_setMember {key : Bytes} {v : Json} {members : List (Bytes × Json)} {m : Bytes × Json}
    (h : m ∈ setMember key v members) : m = (key, v) ∨ m ∈ members := by
  induction members with
  | nil => exact .inl (List.mem_singleton.mp h)
  | cons entry members ih =>
    obtain ⟨k, w⟩ := entry
    rw [setMember] at h
    split at h
    next same =>
      subst same
      exact (List.mem_cons.mp h).imp_right (List.mem_cons_of_mem _)
    next =>
      split at h
      · exact List.mem_cons.mp h
      · obtain rfl | later := List.mem_cons.mp h
        · exact .inr List.mem_cons_self
        · exact (ih later).imp_right (List.mem_cons_of_mem _)

theorem length_setMember_le (key : Bytes) (v : Json) (members : List (Bytes × Json)) :
    (setMember key v members).length ≤ members.length + 1 := by
  induction members with
  | nil => exact Nat.le_refl _
  | cons entry members ih =>
    obtain ⟨k, w⟩ := entry
    rw [setMember]
    split_ifs
    · exact Nat.le_succ _
    · exact Nat.le_refl _
    · exact Nat.succ_le_succ ih

theorem ascending_setMember (key : Bytes) (v : Json) {members : List (Bytes × Json)} (h : Ascending members) :
    Ascending (setMember key v members) := by
  induction members with
  | nil => exact List.pairwise_singleton _ _
  | cons entry members ih =>
    obtain ⟨k, w⟩ := entry
    obtain ⟨first, rest⟩ := List.pairwise_cons.mp h
    rw [setMember]
    split
    next => exact List.pairwise_cons.mpr ⟨first, rest⟩
    next other =>
      split
      next before =>
        refine List.pairwise_cons.mpr ⟨?_, h⟩
        intro m hm
        obtain rfl | later := List.mem_cons.mp hm
        · exact before
        · exact List.lt_trans before (first m later)
      next after =>
        have above : k < key := by
          by_contra below
          exact other (List.le_antisymm (List.not_lt.mp below) (List.not_lt.mp after))
        refine List.pairwise_cons.mpr ⟨?_, ih rest⟩
        intro m hm
        obtain rfl | old := mem_setMember hm
        · exact above
        · exact first m old

/-- Every key is there once, in order, with one of the values that came with it. -/
theorem ofMembers_spec (members : List (Bytes × Json)) :
    Ascending (ofMembers members) ∧ (ofMembers members).length ≤ members.length ∧ ∀ m ∈ ofMembers members, m ∈ members := by
  suffices step : ∀ stored : List (Bytes × Json), Ascending stored →
      Ascending (members.foldl (fun stored m => setMember m.1 m.2 stored) stored) ∧
      (members.foldl (fun stored m => setMember m.1 m.2 stored) stored).length ≤ stored.length + members.length ∧
      ∀ m ∈ members.foldl (fun stored m => setMember m.1 m.2 stored) stored, m ∈ stored ∨ m ∈ members by
    obtain ⟨ascending, length, subset⟩ := step [] List.Pairwise.nil
    rw [List.length_nil, Nat.zero_add] at length
    exact ⟨ascending, length, fun m hm => (subset m hm).resolve_left List.not_mem_nil⟩
  induction members with
  | nil => exact fun stored ascending => ⟨ascending, Nat.le_refl _, fun m hm => .inl hm⟩
  | cons entry members ih =>
    intro stored ascending
    obtain ⟨sorted, length, subset⟩ := ih _ (ascending_setMember entry.1 entry.2 ascending)
    have one := length_setMember_le entry.1 entry.2 stored
    refine ⟨sorted, ?_, ?_⟩
    · rw [List.foldl_cons, List.length_cons]
      omega
    · intro m hm
      obtain old | new := subset m hm
      · obtain rfl | old := mem_setMember old
        · exact .inr List.mem_cons_self
        · exact .inl old
      · exact .inr (List.mem_cons_of_mem _ new)

/-- A key behind all the others. -/
theorem setMember_append {key : Bytes} {v : Json} {members : List (Bytes × Json)} (last : ∀ m ∈ members, m.1 < key) :
    setMember key v members = members ++ [(key, v)] := by
  induction members with
  | nil => rfl
  | cons entry members ih =>
    obtain ⟨k, w⟩ := entry
    obtain ⟨first, rest⟩ := List.forall_mem_cons.mp last
    have other : key ≠ k := fun same => List.lt_irrefl k (same ▸ first)
    rw [setMember, if_neg other, if_neg (List.not_lt.mpr (List.le_of_lt first)), ih rest, List.cons_append]

theorem foldl_setMember {members stored : List (Bytes × Json)} (h : Ascending (stored ++ members)) :
    members.foldl (fun stored m => setMember m.1 m.2 stored) stored = stored ++ members := by
  induction members generalizing stored with
  | nil => rw [List.append_nil]; rfl
  | cons m members ih =>
    have before : ∀ k ∈ stored, k.1 < m.1 := fun k hk => (List.pairwise_append.mp h).2.2 k hk m List.mem_cons_self
    rw [List.foldl_cons, setMember_append before, ih, List.append_assoc, List.singleton_append]
    rwa [List.append_assoc, List.singleton_append]

/-- Members that come in the order of their keys stay as they are. -/
theorem ofMembers_ascending {members : List (Bytes × Json)} (h : Ascending members) : ofMembers members = members :=
  @foldl_setMember members [] h

end Json

end LAppS.Cbor
