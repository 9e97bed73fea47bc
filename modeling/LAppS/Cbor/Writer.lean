import LAppS.Cbor.Accepted

/-!
# `binary_writer`

`to_cbor`, and what is read from the bytes that it writes: the value that was written, with the integers that are not
negative as unsigned ones.
-/

namespace LAppS.Cbor
open Bytes Reading

/-- The control byte and the number, in as few bytes as hold it. -/
def writeHead (base n : Nat) : Bytes :=
  if n ≤ 0x17 then [UInt8.ofNat (base + n)]
  else if n ≤ 0xFF then UInt8.ofNat (base + 0x18) :: beBytes 1 n
  else if n ≤ 0xFFFF then UInt8.ofNat (base + 0x19) :: beBytes 2 n
  else if n ≤ 0xFFFFFFFF then UInt8.ofNat (base + 0x1A) :: beBytes 4 n
  else UInt8.ofNat (base + 0x1B) :: beBytes 8 n

def writeString (s : Bytes) : Bytes := writeHead 0x60 s.length ++ s

mutual

def writeCbor : Json → Bytes
  | .null => [0xF6]
  | .boolean b => [if b then 0xF5 else 0xF4]
  | .numberInteger i =>
    if 0 ≤ i.toInt then writeHead 0x00 i.toInt.toNat
    else writeHead 0x20 (-1 - i.toInt).toNat
  | .numberUnsigned n => writeHead 0x00 n.toNat
  | .numberFloat x => 0xFB :: beBytes 8 x.toNat
  | .string s => writeString s
  | .array elements => writeHead 0x80 elements.length ++ writeElements elements
  | .object members => writeHead 0xA0 members.length ++ writeMembers members

def writeElements : List Json → Bytes
  | [] => []
  | v :: elements => writeCbor v ++ writeElements elements

def writeMembers : List (Bytes × Json) → Bytes
  | [] => []
  | (key, v) :: members => writeString key ++ writeCbor v ++ writeMembers members

end

def toCbor (j : Json) : Bytes := writeCbor j

mutual

/-- The value that is read back: CBOR has no signed integers that are not negative. -/
def asRead : Json → Json
  | .null => .null
  | .boolean b => .boolean b
  | .numberInteger i => if 0 ≤ i.toInt then .numberUnsigned (UInt64.ofNat i.toInt.toNat) else .numberInteger i
  | .numberUnsigned n => .numberUnsigned n
  | .numberFloat x => .numberFloat x
  | .string s => .string s
  | .array elements => .array (asReadElements elements)
  | .object members => .object (asReadMembers members)

def asReadElements : List Json → List Json
  | [] => []
  | v :: elements => asRead v :: asReadElements elements

def asReadMembers : List (Bytes × Json) → List (Bytes × Json)
  | [] => []
  | (key, v) :: members => (key, asRead v) :: asReadMembers members

end

theorem writeElements_eq (elements : List Json) : writeElements elements = elements.flatMap writeCbor := by
  induction elements with
  | nil => rfl
  | cons v elements ih => rw [writeElements, ih, List.flatMap_cons]

theorem writeMembers_eq (members : List (Bytes × Json)) :
    writeMembers members = members.flatMap fun m => writeString m.1 ++ writeCbor m.2 := by
  induction members with
  | nil => rfl
  | cons m members ih => rw [writeMembers, ih, List.flatMap_cons]

theorem asReadElements_eq (elements : List Json) : asReadElements elements = elements.map asRead := by
  induction elements with
  | nil => rfl
  | cons v elements ih => rw [asReadElements, ih, List.map_cons]

theorem asReadMembers_eq (members : List (Bytes × Json)) : asReadMembers members = members.map fun m => (m.1, asRead m.2) := by
  induction members with
  | nil => rfl
  | cons m members ih => rw [asReadMembers, ih, List.map_cons]

/-! ### What is written -/

theorem writeHead_eq (base : Nat) {n : Nat} (word : n < 2 ^ 64) : ∃ w : Width, w.Fits n ∧ writeHead base n = head base w n := by
  unfold writeHead
  split
  next small => exact ⟨.inline, by rw [Width.Fits]; omega, rfl⟩
  next =>
    split
    next one => exact ⟨.following 0, by rw [Width.Fits]; change n < 256; omega, rfl⟩
    next =>
      split
      next two => exact ⟨.following 1, by rw [Width.Fits]; change n < 65536; omega, rfl⟩
      next =>
        split
        next four => exact ⟨.following 2, by rw [Width.Fits]; change n < 4294967296; omega, rfl⟩
        next => exact ⟨.following 3, word, rfl⟩

theorem writeString_text {s : Bytes} (short : s.length < 2 ^ 64) : Text (writeString s) s := by
  obtain ⟨w, fits, same⟩ := writeHead_eq 0x60 short
  rw [writeString, same]
  exact .definite fits

theorem writeCbor_integer (L : Limits) (i : Int64) : Item L (writeCbor (.numberInteger i)) (asRead (.numberInteger i)) := by
  have low := i.le_toInt
  have high := i.toInt_lt
  rw [writeCbor, asRead]
  split
  next nonnegative =>
    obtain ⟨w, fits, same⟩ := writeHead_eq 0x00 (show i.toInt.toNat < 2 ^ 64 by omega)
    rw [same]
    exact .unsigned fits
  next negative =>
    obtain ⟨w, fits, same⟩ := writeHead_eq 0x20 (show (-1 - i.toInt).toNat < 2 ^ 64 by omega)
    have value : -1 - Int64.ofNat (-1 - i.toInt).toNat = i := by
      have there : Int64.ofInt (-1 - (-1 - i.toInt).toNat) = i := by
        rw [show (-1 - (-1 - i.toInt).toNat : Int) = i.toInt by omega, Int64.ofInt_toInt]
      rwa [Int64.ofInt_sub, Int64.ofInt_eq_ofNat] at there
    have item := Item.negative (L := L) fits
    rwa [← same, value] at item

theorem writeCbor_item {L : Limits} {v : Json} (h : Json.Stored L v) : Item L (writeCbor v) (asRead v) := by
  induction h with
  | null => exact .null
  | boolean b =>
    cases b
    · exact .false
    · exact .true
  | numberInteger i => exact writeCbor_integer L i
  | numberUnsigned n =>
    obtain ⟨w, fits, same⟩ := writeHead_eq 0x00 n.toNat_lt
    have item := Item.unsigned (L := L) fits
    rwa [UInt64.ofNat_toNat, ← same] at item
  | numberFloat x =>
    have item := Item.double (L := L) (length_beBytes 8 x.toNat)
    rwa [beToNat_beBytes (show x.toNat < 256 ^ 8 from x.toNat_lt), UInt64.ofNat_toNat] at item
  | string short => exact .text (writeString_text short)
  | @array elements short each ih =>
    have length : (elements.map fun v => (writeCbor v, asRead v)).length = elements.length := List.length_map _
    have word := L.array_lt
    obtain ⟨w, fits, same⟩ := writeHead_eq 0x80 (show elements.length < 2 ^ 64 by omega)
    rw [← length] at fits short same
    have item := Item.array (L := L) fits short fun p hp => by
      obtain ⟨v, hv, rfl⟩ := List.mem_map.mp hp
      exact ih v hv
    rw [← same, length, List.flatMap_map, List.map_map] at item
    rwa [writeCbor, asRead, writeElements_eq, asReadElements_eq]
  | @object members short ascending keys each ih =>
    let entry (m : Bytes × Json) : Entry := ⟨writeString m.1, m.1, writeCbor m.2, asRead m.2⟩
    have length : (members.map entry).length = members.length := List.length_map _
    have word := L.object_lt
    obtain ⟨w, fits, same⟩ := writeHead_eq 0xA0 (show members.length < 2 ^ 64 by omega)
    rw [← length] at fits short same
    have item := Item.object (L := L) fits short
      (fun e he => by
        obtain ⟨m, hm, rfl⟩ := List.mem_map.mp he
        exact writeString_text (keys m hm))
      (fun e he => by
        obtain ⟨m, hm, rfl⟩ := List.mem_map.mp he
        exact ih m hm)
    have sorted : Json.Ascending ((members.map entry).map Entry.member) := by
      rw [List.map_map]
      exact List.pairwise_map.mpr ascending
    rw [Json.ofMembers_ascending sorted, ← same, length, List.flatMap_map, List.map_map] at item
    rwa [writeCbor, asRead, writeMembers_eq, asReadMembers_eq]

theorem writeCbor_asRead {L : Limits} {v : Json} (h : Json.Stored L v) : writeCbor (asRead v) = writeCbor v := by
  induction h with
  | null | boolean | numberUnsigned | numberFloat | string => rfl
  | numberInteger i =>
    have high := i.toInt_lt
    rw [asRead]
    split
    next nonnegative =>
      rw [writeCbor, writeCbor, if_pos nonnegative, UInt64.toNat_ofNat_of_lt' (by change i.toInt.toNat < 2 ^ 64; omega)]
    next => rfl
  | @array elements short each ih =>
    have parts : (elements.map asRead).flatMap writeCbor = elements.flatMap writeCbor := by
      rw [List.flatMap_map]
      exact List.flatMap_congr ih
    rw [asRead, asReadElements_eq, writeCbor, writeCbor, List.length_map, writeElements_eq, writeElements_eq, parts]
  | @object members short ascending keys each ih =>
    have parts : (members.map fun m => (m.1, asRead m.2)).flatMap (fun m => writeString m.1 ++ writeCbor m.2) =
        members.flatMap fun m => writeString m.1 ++ writeCbor m.2 := by
      rw [List.flatMap_map]
      exact List.flatMap_congr fun m hm => by rw [ih m hm]
    rw [asRead, asReadMembers_eq, writeCbor, writeCbor, List.length_map, writeMembers_eq, writeMembers_eq, parts]

theorem fromCbor_writeCbor {L : Limits} {v : Json} (h : Json.Stored L v) : fromCbor L (writeCbor v) = .ok (asRead v) :=
  (fromCbor_ok_iff L _ _).mpr (writeCbor_item h)

/-- A value is read back from its bytes, and two values have the same bytes exactly when they are read back as one. -/
theorem fromCbor_toCbor {L : Limits} {v w : Json} (hv : Json.Stored L v) (hw : Json.Stored L w) :
    fromCbor L (toCbor v) = .ok (asRead v) ∧ (toCbor v = toCbor w ↔ asRead v = asRead w) := by
  refine ⟨fromCbor_writeCbor hv, fun same => ?_, fun same => ?_⟩
  · have back := fromCbor_writeCbor hv
    rw [show writeCbor v = writeCbor w from same, fromCbor_writeCbor hw] at back
    exact (Except.ok.inj back).symm
  · rw [toCbor, toCbor, ← writeCbor_asRead hv, ← writeCbor_asRead hw, same]

theorem fromCbor_toCbor_object :
    fromCbor .host (toCbor (.object [([0x61], .numberInteger 1)])) = .ok (.object [([0x61], .numberUnsigned 1)]) := by
  have stored (v : Json) (h : Json.Stored .host v) : Json.Stored .host (.object [([0x61], v)]) := by
    refine .object (show 1 ≤ Limits.host.object by decide) (List.pairwise_singleton _ _) ?_ ?_ <;> intro m hm <;>
      obtain rfl := List.mem_singleton.mp hm
    · exact show 1 < 2 ^ 64 by decide
    · exact h
  exact (fromCbor_toCbor (stored _ (.numberInteger 1)) (stored _ .null)).1

/-! ### What is read is stored -/

theorem Text.length_le {bs s : Bytes} (h : Text bs s) : s.length ≤ bs.length := by
  induction h with
  | definite => rw [List.length_append]; omega
  | @indefinite parts each ih =>
    have sum : (parts.map Prod.snd).flatten.length ≤ (parts.flatMap Prod.fst).length := by
      induction parts with
      | nil => exact Nat.le_refl _
      | cons p parts rest =>
        obtain ⟨first, later⟩ := List.forall_mem_cons.mp ih
        have more := rest (List.forall_mem_cons.mp each).2 later
        rw [List.map_cons, List.flatten_cons, List.flatMap_cons, List.length_append, List.length_append]
        omega
    rw [List.length_cons, List.length_append]
    omega

theorem length_le_flatMap_all {entries : List Entry} (h : ∀ e ∈ entries, Text e.keyBytes e.key) :
    entries.length ≤ (entries.flatMap Entry.all).length := by
  induction entries with
  | nil => exact Nat.le_refl _
  | cons e entries ih =>
    obtain ⟨key, keys⟩ := List.forall_mem_cons.mp h
    have one := List.length_pos_of_ne_nil key.ne_nil
    have more := ih keys
    rw [List.length_cons, List.flatMap_cons, List.length_append, Entry.all, List.length_append]
    omega

/-- The members of an object that was read from some bytes. -/
theorem stored_object {L : Limits} {entries : List Entry} (few : entries.length ≤ L.object)
    (word : (entries.flatMap Entry.all).length < 2 ^ 64) (keys : ∀ e ∈ entries, Text e.keyBytes e.key)
    (each : ∀ e ∈ entries, Json.Stored L e.value) :
    Json.Stored L (.object (Json.ofMembers (entries.map Entry.member))) := by
  obtain ⟨ascending, length, subset⟩ := Json.ofMembers_spec (entries.map Entry.member)
  rw [List.length_map] at length
  refine .object (Nat.le_trans length few) ascending ?_ ?_
  · intro m hm
    obtain ⟨e, he, rfl⟩ := List.mem_map.mp (subset m hm)
    have own := (keys e he).length_le
    have part := e.length_le he
    change e.key.length < 2 ^ 64
    omega
  · intro m hm
    obtain ⟨e, he, rfl⟩ := List.mem_map.mp (subset m hm)
    exact each e he

theorem Item.stored {L : Limits} {bs : Bytes} {v : Json} (h : Item L bs v) (arrays : bs.length ≤ L.array)
    (objects : bs.length ≤ L.object) : Json.Stored L v := by
  have word := L.array_lt
  induction h with
  | unsigned fits => exact .numberUnsigned _
  | negative fits => exact .numberInteger _
  | text h =>
    have short := h.length_le
    exact .string (by omega)
  | @array w parts fits short each ih =>
    rw [List.length_append] at arrays objects
    refine .array (by rwa [List.length_map]) fun v hv => ?_
    obtain ⟨p, hp, rfl⟩ := List.mem_map.mp hv
    have part := length_le_flatMap hp
    exact ih p hp (by omega) (by omega)
  | @openArray start parts opening each ih =>
    have few := length_le_of_nonempty fun p hp => (each p hp).ne_nil
    rw [List.length_append, List.length_append] at arrays objects
    refine .array (by rw [List.length_map]; omega) fun v hv => ?_
    obtain ⟨p, hp, rfl⟩ := List.mem_map.mp hv
    have part := length_le_flatMap hp
    exact ih p hp (by omega) (by omega)
  | @object w entries fits short keys each ih =>
    rw [List.length_append] at arrays objects
    refine stored_object short (by omega) keys fun e he => ?_
    have part := e.length_le he
    exact ih e he (by omega) (by omega)
  | @openObject start entries opening keys each ih =>
    have few := length_le_flatMap_all keys
    rw [List.length_append, List.length_append] at arrays objects
    refine stored_object (by omega) (by omega) keys fun e he => ?_
    have part := e.length_le he
    exact ih e he (by omega) (by omega)
  | false | true => exact .boolean _
  | null => exact .null
  | half | single | double => exact .numberFloat _

/-- What was read can be passed on. It is read as the same value, with each integer in the type that CBOR keeps, and from then
on the bytes stay the same. -/
theorem fromCbor_passed_on {L : Limits} {bytes : Bytes} {v : Json} (read : fromCbor L bytes = .ok v)
    (arrays : bytes.length ≤ L.array) (objects : bytes.length ≤ L.object) :
    fromCbor L (toCbor v) = .ok (asRead v) ∧ toCbor (asRead v) = toCbor v := by
  have stored := ((fromCbor_ok_iff L bytes v).mp read).stored arrays objects
  exact ⟨fromCbor_writeCbor stored, writeCbor_asRead stored⟩

/-- An object of indefinite length, in which the least of the numbers that CBOR can have is no more than zero. -/
theorem fromCbor_passed_on_least :
    let bytes := [0xBF, 0x61, 0x61, 0x3B, 0xFF, 0xFF, 0xFF, 0xFF, 0xFF, 0xFF, 0xFF, 0xFF, 0xFF]
    fromCbor .host bytes = .ok (.object [([0x61], .numberInteger 0)]) ∧
      toCbor (.object [([0x61], .numberInteger 0)]) = [0xA1, 0x61, 0x61, 0x00] ∧
      fromCbor .host [0xA1, 0x61, 0x61, 0x00] = .ok (.object [([0x61], .numberUnsigned 0)]) := by
  intro bytes
  have read : fromCbor .host bytes = .ok (.object [([0x61], .numberInteger 0)]) := rfl
  exact ⟨read, rfl, (fromCbor_passed_on read (by decide) (by decide)).1⟩

end LAppS.Cbor
