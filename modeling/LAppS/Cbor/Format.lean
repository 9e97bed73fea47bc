import LAppS.Cbor.Json
import LAppS.Numbers.Ieee754

/-!
# The data items of RFC 7049 that have a JSON value

`Item` relates the bytes of a data item to its value. Two of its rules are the library's own: an integer below -2^63 has
a value that is not its own, and the length 2^64 - 1 opens a container of indefinite length. There is no bound on the
nesting, as there is no bound on the stack.
-/

namespace LAppS.Cbor
open Bytes Ieee754

/-- The argument of an item is in its first byte, or in 1, 2, 4 or 8 bytes that follow. -/
inductive Width where
  | inline
  | following (k : Fin 4)

def Width.Fits : Width → Nat → Prop
  | .inline, n => n < 24
  | .following k, n => n < 256 ^ 2 ^ k.val

/-- The first byte and the argument; `base` is the first byte of the major type. -/
def head (base : Nat) : Width → Nat → Bytes
  | .inline, n => [UInt8.ofNat (base + n)]
  | .following k, n => UInt8.ofNat (base + 0x18 + k) :: beBytes (2 ^ k.val) n

/-- Where a container without a length starts. -/
inductive Opening (base : Nat) : Bytes → Prop
  | indefinite : Opening base [UInt8.ofNat (base + 0x1F)]
  | full : Opening base (head base (.following 3) (2 ^ 64 - 1))

/-- A text string. The chunks of one may be in chunks. -/
inductive Text : Bytes → Bytes → Prop
  | definite {w : Width} {s : Bytes} (fits : w.Fits s.length) : Text (head 0x60 w s.length ++ s) s
  | indefinite {parts : List (Bytes × Bytes)} (each : ∀ p ∈ parts, Text p.1 p.2) :
      Text (0x7F :: (parts.flatMap Prod.fst ++ [0xFF])) (parts.map Prod.snd).flatten

/-- A member of an object with its bytes. -/
structure Entry where
  keyBytes : Bytes
  key : Bytes
  bytes : Bytes
  value : Json

def Entry.all (e : Entry) : Bytes := e.keyBytes ++ e.bytes

def Entry.member (e : Entry) : Bytes × Json := (e.key, e.value)

/-- The payload of a NaN that was widened is that of the `binary32`, and quiet. -/
def quieted (fraction : Nat) : Nat :=
  if fraction < 2 ^ 22 then 2 ^ 51 + fraction * 2 ^ 29 else fraction * 2 ^ 29

inductive Item (L : Limits) : Bytes → Json → Prop
  | unsigned {w : Width} {n : Nat} (fits : w.Fits n) : Item L (head 0x00 w n) (.numberUnsigned (UInt64.ofNat n))
  | negative {w : Width} {n : Nat} (fits : w.Fits n) : Item L (head 0x20 w n) (.numberInteger (-1 - Int64.ofNat n))
  | text {bs s : Bytes} (h : Text bs s) : Item L bs (.string s)
  | array {w : Width} {parts : List (Bytes × Json)} (fits : w.Fits parts.length) (short : parts.length ≤ L.array)
      (each : ∀ p ∈ parts, Item L p.1 p.2) :
      Item L (head 0x80 w parts.length ++ parts.flatMap Prod.fst) (.array (parts.map Prod.snd))
  | openArray {start : Bytes} {parts : List (Bytes × Json)} (opening : Opening 0x80 start)
      (each : ∀ p ∈ parts, Item L p.1 p.2) :
      Item L (start ++ (parts.flatMap Prod.fst ++ [0xFF])) (.array (parts.map Prod.snd))
  | object {w : Width} {entries : List Entry} (fits : w.Fits entries.length) (short : entries.length ≤ L.object)
      (keys : ∀ e ∈ entries, Text e.keyBytes e.key) (each : ∀ e ∈ entries, Item L e.bytes e.value) :
      Item L (head 0xA0 w entries.length ++ entries.flatMap Entry.all) (.object (Json.ofMembers (entries.map Entry.member)))
  | openObject {start : Bytes} {entries : List Entry} (opening : Opening 0xA0 start)
      (keys : ∀ e ∈ entries, Text e.keyBytes e.key) (each : ∀ e ∈ entries, Item L e.bytes e.value) :
      Item L (start ++ (entries.flatMap Entry.all ++ [0xFF])) (.object (Json.ofMembers (entries.map Entry.member)))
  | false : Item L [0xF4] (.boolean false)
  | true : Item L [0xF5] (.boolean true)
  | null : Item L [0xF6] .null
  | half {bs : Bytes} (length : bs.length = 2) :
      Item L (0xF9 :: bs) (.numberFloat (UInt64.ofNat (widen binary16 (fun _ => 2 ^ 51) (beToNat bs))))
  | single {bs : Bytes} (length : bs.length = 4) :
      Item L (0xFA :: bs) (.numberFloat (UInt64.ofNat (widen binary32 quieted (beToNat bs))))
  | double {bs : Bytes} (length : bs.length = 8) : Item L (0xFB :: bs) (.numberFloat (UInt64.ofNat (beToNat bs)))

/-! ### Heads -/

theorem head_ne_nil (base : Nat) (w : Width) (n : Nat) : head base w n ≠ [] := by
  cases w <;> simp [head]

/-- The first byte of an item of a major type. -/
theorem head_first {base : Nat} (low : base + 0x20 ≤ 256) {w : Width} {n : Nat} (fits : w.Fits n) :
    ∃ b bs, head base w n = b :: bs ∧ base ≤ b.toNat ∧ b.toNat ≤ base + 0x1B := by
  cases w with
  | inline =>
    refine ⟨_, _, rfl, ?_⟩
    have small : n < 24 := fits
    rw [toNat_ofNat_byte, Nat.mod_eq_of_lt (by omega)]
    omega
  | following k =>
    refine ⟨_, _, rfl, ?_⟩
    rw [toNat_ofNat_byte, Nat.mod_eq_of_lt (by omega)]
    omega

theorem Opening.first {base : Nat} (low : base + 0x20 ≤ 256) {start : Bytes} (h : Opening base start) :
    ∃ b bs, start = b :: bs ∧ base ≤ b.toNat ∧ b.toNat ≤ base + 0x1F := by
  cases h with
  | indefinite =>
    refine ⟨_, _, rfl, ?_⟩
    rw [toNat_ofNat_byte, Nat.mod_eq_of_lt (by omega)]
    omega
  | full =>
    have fits : Width.Fits (.following 3) (2 ^ 64 - 1) := Nat.sub_lt (Nat.two_pow_pos _) Nat.one_pos
    obtain ⟨b, bs, starts, above, below⟩ := head_first low fits
    exact ⟨b, bs, starts, above, by omega⟩

theorem Opening.ne_nil {base : Nat} {start : Bytes} (h : Opening base start) : start ≠ [] := by
  cases h with
  | indefinite => exact List.cons_ne_nil _ _
  | full => exact head_ne_nil _ _ _

theorem Text.first {bs s : Bytes} (h : Text bs s) : ∃ b bs', bs = b :: bs' ∧ b ≠ 0xFF := by
  cases h with
  | definite fits =>
    obtain ⟨b, bs', starts, -, below⟩ := head_first (show 0x60 + 0x20 ≤ 256 by decide) fits
    refine ⟨b, bs' ++ s, by rw [starts]; rfl, ?_⟩
    rintro rfl
    exact absurd below (by decide)
  | indefinite => exact ⟨0x7F, _, rfl, by decide⟩

/-- The byte that ends a container of indefinite length starts no item. -/
theorem Item.first {L : Limits} {bs : Bytes} {v : Json} (h : Item L bs v) : ∃ b bs', bs = b :: bs' ∧ b ≠ 0xFF := by
  have starts {start rest : Bytes} (h : ∃ b bs, start = b :: bs ∧ b.toNat < 0xFF) :
      ∃ b bs', start ++ rest = b :: bs' ∧ b ≠ 0xFF := by
    obtain ⟨b, bs, rfl, small⟩ := h
    refine ⟨b, bs ++ rest, rfl, ?_⟩
    rintro rfl
    exact absurd small (by decide)
  have of_head {base n : Nat} {w : Width} {rest : Bytes} (low : base + 0x20 ≤ 0xC0) (fits : w.Fits n) :
      ∃ b bs', head base w n ++ rest = b :: bs' ∧ b ≠ 0xFF := by
    obtain ⟨b, bs', same, -, below⟩ := head_first (show base + 0x20 ≤ 256 by omega) fits
    exact starts ⟨b, bs', same, by omega⟩
  have of_opening {base : Nat} {start rest : Bytes} (low : base + 0x20 ≤ 0xC0) (h : Opening base start) :
      ∃ b bs', start ++ rest = b :: bs' ∧ b ≠ 0xFF := by
    obtain ⟨b, bs', same, -, below⟩ := h.first (by omega)
    exact starts ⟨b, bs', same, by omega⟩
  cases h with
  | unsigned fits | negative fits => rw [← List.append_nil (head _ _ _)]; exact of_head (by decide) fits
  | text h => exact h.first
  | array fits | object fits => exact of_head (by decide) fits
  | openArray opening | openObject opening => exact of_opening (by decide) opening
  | false | true | null | half | single | double => exact ⟨_, _, rfl, by decide⟩

theorem Text.ne_nil {bs s : Bytes} (h : Text bs s) : bs ≠ [] := by
  obtain ⟨b, bs', rfl, -⟩ := h.first
  exact List.cons_ne_nil b bs'

theorem Item.ne_nil {L : Limits} {bs : Bytes} {v : Json} (h : Item L bs v) : bs ≠ [] := by
  obtain ⟨b, bs', rfl, -⟩ := h.first
  exact List.cons_ne_nil b bs'

end LAppS.Cbor
