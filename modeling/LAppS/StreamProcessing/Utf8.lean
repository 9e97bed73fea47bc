import LAppS.Bytes

/-!
# The UTF-8 check

`WSStreamParser::isValidUtf8` over the memory `cs`, of which the first `length` bytes are to be checked.
-/

namespace LAppS.StreamProcessing

namespace Utf8

/-- The inner loop over single seven-bit bytes; `none` is the early return at the end. -/
def skipAscii (cs : List UInt8) (e s : Nat) : Option Nat :=
  if cs[s]! &&& 0x80 = 0 then
    if s + 1 < e then skipAscii cs e (s + 1) else none
  else some s
termination_by e - s

/-- The position behind the sequence of several bytes at `s`, if it is one. -/
def sequence (cs : List UInt8) (e s : Nat) : Option Nat :=
  if cs[s]! &&& 0x60 = 0x40 then
    if s + 1 ≥ e ∨ cs[s + 1]! &&& 0xc0 ≠ 0x80 ∨ cs[s]! &&& 0xfe = 0xc0 then none else some (s + 2)
  else if cs[s]! &&& 0xf0 = 0xe0 then
    if s + 2 ≥ e ∨ cs[s + 1]! &&& 0xc0 ≠ 0x80 ∨ cs[s + 2]! &&& 0xc0 ≠ 0x80 ∨
        (cs[s]! = 0xe0 ∧ cs[s + 1]! &&& 0xe0 = 0x80) ∨ (cs[s]! = 0xed ∧ cs[s + 1]! &&& 0xe0 = 0xa0) then none
    else some (s + 3)
  else if cs[s]! &&& 0xf8 = 0xf0 then
    if s + 3 ≥ e ∨ cs[s + 1]! &&& 0xc0 ≠ 0x80 ∨ cs[s + 2]! &&& 0xc0 ≠ 0x80 ∨ cs[s + 3]! &&& 0xc0 ≠ 0x80 ∨
        (cs[s]! = 0xf0 ∧ cs[s + 1]! &&& 0xf0 = 0x80) ∨ (cs[s]! = 0xf4 ∧ cs[s + 1]! > 0x8f) ∨ cs[s]! > 0xf4 then none
    else some (s + 4)
  else none

theorem skipAscii_le {cs : List UInt8} {e s s' : Nat} (h : skipAscii cs e s = some s') : s ≤ s' := by
  fun_induction skipAscii cs e s with
  | case1 s _ _ ih => exact Nat.le_of_succ_le (ih h)
  | case2 => cases h
  | case3 => exact (Option.some.inj h).le

theorem sequence_lt {cs : List UInt8} {e s s' : Nat} (h : sequence cs e s = some s') : s < s' := by
  simp only [sequence] at h
  repeat' split at h
  all_goals cases h <;> omega

def scan (cs : List UInt8) (e s : Nat) : Bool :=
  if _hs : s < e then
    if s + 4 ≤ e ∧ (cs[s]! ||| cs[s + 1]! ||| cs[s + 2]! ||| cs[s + 3]!) &&& 0x80 = 0 then scan cs e (s + 4)
    else
      match _hskip : skipAscii cs e s with
      | none => true
      | some s' =>
        match _hseq : sequence cs e s' with
        | none => false
        | some s'' => scan cs e s''
  else true
termination_by e - s
decreasing_by
  · omega
  · have := skipAscii_le _hskip
    have := sequence_lt _hseq
    omega

end Utf8

def isValidUtf8 (cs : List UInt8) (length : Nat) : Bool := Utf8.scan cs length 0

namespace Utf8
open Bytes

/-! ### What the check is for -/

/-- The bytes encode a sequence of Unicode scalar values. -/
def WellFormed (bytes : List UInt8) : Prop := ∃ text : List Char, bytes = text.flatMap String.utf8EncodeChar

/-! ### The bit masks -/

theorem masks (b : UInt8) :
    (b &&& 0x80 = 0 ↔ b.toNat < 0x80) ∧ (b &&& 0xc0 = 0x80 ↔ b.toNat / 64 = 2) ∧
    (b &&& 0x60 = 0x40 ↔ b.toNat / 32 % 4 = 2) ∧ (b &&& 0xfe = 0xc0 ↔ b.toNat / 2 = 0x60) ∧
    (b &&& 0xf0 = 0xe0 ↔ b.toNat / 16 = 14) ∧ (b &&& 0xe0 = 0x80 ↔ b.toNat / 32 = 4) ∧
    (b &&& 0xe0 = 0xa0 ↔ b.toNat / 32 = 5) ∧ (b &&& 0xf8 = 0xf0 ↔ b.toNat / 8 = 30) ∧
    (b &&& 0xf0 = 0x80 ↔ b.toNat / 16 = 8) := by
  obtain ⟨b⟩ := b
  revert b
  decide +kernel

/-- The four bytes that are tested at once. -/
theorem ascii_four_iff (a b c d : UInt8) : (a ||| b ||| c ||| d) &&& 0x80 = 0 ↔
    a.toNat < 0x80 ∧ b.toNat < 0x80 ∧ c.toNat < 0x80 ∧ d.toNat < 0x80 := by
  have both (m n : Nat) : m ||| n < 0x80 ↔ m < 0x80 ∧ n < 0x80 := by
    constructor
    · intro h
      exact ⟨Nat.lt_of_le_of_lt Nat.left_le_or h, Nat.lt_of_le_of_lt Nat.right_le_or h⟩
    · rintro ⟨hm, hn⟩
      exact Nat.or_lt_two_pow (n := 7) hm hn
  rw [(masks _).1, UInt8.toNat_or, UInt8.toNat_or, UInt8.toNat_or, both, both, both, and_assoc, and_assoc]

theorem sequence_eq (cs : List UInt8) (e s : Nat) : sequence cs e s =
    let x := cs[s]!.toNat
    let y := cs[s + 1]!.toNat
    let z := cs[s + 2]!.toNat
    let w := cs[s + 3]!.toNat
    if x / 32 % 4 = 2 then
      if s + 1 ≥ e ∨ y / 64 ≠ 2 ∨ x / 2 = 0x60 then none else some (s + 2)
    else if x / 16 = 14 then
      if s + 2 ≥ e ∨ y / 64 ≠ 2 ∨ z / 64 ≠ 2 ∨ (x = 0xe0 ∧ y / 32 = 4) ∨ (x = 0xed ∧ y / 32 = 5) then none
      else some (s + 3)
    else if x / 8 = 30 then
      if s + 3 ≥ e ∨ y / 64 ≠ 2 ∨ z / 64 ≠ 2 ∨ w / 64 ≠ 2 ∨ (x = 0xf0 ∧ y / 16 = 8) ∨ (x = 0xf4 ∧ y > 0x8f) ∨
        x > 0xf4 then none
      else some (s + 4)
    else none := by
  have equal (b c : UInt8) : b = c ↔ b.toNat = c.toNat := UInt8.toNat_inj.symm
  simp only [sequence, masks, ne_eq, gt_iff_lt, UInt8.lt_iff_toNat_lt, equal cs[s]!]
  rfl

/-! ### The encoding of one character -/

theorem exists_char {v : Nat} (valid : v.isValidChar) : ∃ c : Char, c.val.toNat = v :=
  ⟨Char.ofNatAux v valid, rfl⟩

theorem byte_eq {n : Nat} {b : UInt8} (h : n = b.toNat) : UInt8.ofNat n = b := by
  subst h
  simp

/-- The bytes of one character, by their number. -/
inductive IsSequence : List UInt8 → Prop
  | one {x : UInt8} (hx : x.toNat < 0x80) : IsSequence [x]
  | two {x y : UInt8} (hx : 0xc2 ≤ x.toNat) (hx' : x.toNat ≤ 0xdf) (hy : y.toNat / 64 = 2) : IsSequence [x, y]
  | three {x y z : UInt8} (hx : x.toNat / 16 = 14) (hy : y.toNat / 64 = 2) (hz : z.toNat / 64 = 2)
      (long : ¬(x.toNat = 0xe0 ∧ y.toNat / 32 = 4)) (scalar : ¬(x.toNat = 0xed ∧ y.toNat / 32 = 5)) :
      IsSequence [x, y, z]
  | four {x y z w : UInt8} (hx : x.toNat / 8 = 30) (hy : y.toNat / 64 = 2) (hz : z.toNat / 64 = 2)
      (hw : w.toNat / 64 = 2) (long : ¬(x.toNat = 0xf0 ∧ y.toNat / 16 = 8))
      (scalar : ¬(x.toNat = 0xf4 ∧ y.toNat > 0x8f)) (scalar' : ¬x.toNat > 0xf4) : IsSequence [x, y, z, w]

theorem IsSequence.exists_encode {bytes : List UInt8} (h : IsSequence bytes) :
    ∃ c : Char, String.utf8EncodeChar c = bytes := by
  cases h with
  | @one x hx =>
    obtain ⟨c, hc⟩ := exists_char (v := x.toNat) (by omega)
    refine ⟨c, ?_⟩
    simp only [String.utf8EncodeChar, hc]
    rw [if_pos (by omega), byte_eq rfl]
  | @two x y hx hx' hy =>
    obtain ⟨c, hc⟩ := exists_char (v := (x.toNat - 0xc0) * 64 + (y.toNat - 0x80)) (by omega)
    refine ⟨c, ?_⟩
    simp only [String.utf8EncodeChar, hc]
    rw [if_neg (by omega), if_pos (by omega), byte_eq (b := x) (by omega), byte_eq (b := y) (by omega)]
  | @three x y z hx hy hz long scalar =>
    obtain ⟨c, hc⟩ :=
      exists_char (v := (x.toNat - 0xe0) * 4096 + (y.toNat - 0x80) * 64 + (z.toNat - 0x80)) (by omega)
    refine ⟨c, ?_⟩
    simp only [String.utf8EncodeChar, hc]
    rw [if_neg (by omega), if_neg (by omega), if_pos (by omega), byte_eq (b := x) (by omega),
      byte_eq (b := y) (by omega), byte_eq (b := z) (by omega)]
  | @four x y z w hx hy hz hw long scalar scalar' =>
    obtain ⟨c, hc⟩ := exists_char
      (v := (x.toNat - 0xf0) * 262144 + (y.toNat - 0x80) * 4096 + (z.toNat - 0x80) * 64 + (w.toNat - 0x80)) (by omega)
    refine ⟨c, ?_⟩
    simp only [String.utf8EncodeChar, hc]
    rw [if_neg (by omega), if_neg (by omega), if_neg (by omega), byte_eq (b := x) (by omega),
      byte_eq (b := y) (by omega), byte_eq (b := z) (by omega), byte_eq (b := w) (by omega)]

theorem isSequence_encode (c : Char) : IsSequence (String.utf8EncodeChar c) := by
  have valid : c.val.toNat.isValidChar := c.valid
  simp only [String.utf8EncodeChar]
  generalize c.val.toNat = v at valid
  split
  · apply IsSequence.one
    rw [toNat_ofNat_byte]
    omega
  split
  · apply IsSequence.two <;> rw [toNat_ofNat_byte] <;> omega
  split
  · apply IsSequence.three <;> simp only [toNat_ofNat_byte] <;> omega
  · apply IsSequence.four <;> simp only [toNat_ofNat_byte] <;> omega

/-! ### The scan -/

section
variable {cs : List UInt8} {e s s' : Nat}

def rest (cs : List UInt8) (e s : Nat) : List UInt8 := (cs.take e).drop s

theorem rest_cons (he : e ≤ cs.length) (hs : s < e) : rest cs e s = cs[s]! :: rest cs e (s + 1) := by
  have inside : s < (cs.take e).length := by rw [List.length_take]; omega
  rw [rest, List.drop_eq_getElem_cons inside, List.getElem_take, getElem!_pos cs s (by omega)]
  rfl

theorem wellFormed_append {a b : List UInt8} (ha : WellFormed a) (hb : WellFormed b) : WellFormed (a ++ b) := by
  obtain ⟨x, rfl⟩ := ha
  obtain ⟨y, rfl⟩ := hb
  exact ⟨x ++ y, List.flatMap_append.symm⟩

theorem wellFormed_encode {c : Char} {bytes tail : List UInt8} (h : String.utf8EncodeChar c = bytes)
    (ht : WellFormed tail) : WellFormed (bytes ++ tail) :=
  wellFormed_append ⟨[c], by rw [List.flatMap_singleton, h]⟩ ht

theorem wellFormed_cons {b : UInt8} {bytes : List UInt8} (h : WellFormed (b :: bytes)) :
    ∃ (c : Char) (tail : List UInt8), b :: bytes = String.utf8EncodeChar c ++ tail ∧ WellFormed tail := by
  obtain ⟨text, htext⟩ := h
  cases text with
  | nil => cases htext
  | cons c text => exact ⟨c, _, htext, text, rfl⟩

theorem sequence_sound (he : e ≤ cs.length) (hs : s < e) (high : 0x80 ≤ cs[s]!.toNat)
    (h : sequence cs e s = some s') :
    ∃ (c : Char), rest cs e s = String.utf8EncodeChar c ++ rest cs e s' ∧ s' ≤ e := by
  have byte := cs[s]!.toNat_lt
  simp only [sequence_eq] at h
  split at h
  next two =>
    split at h
    · cases h
    next ok =>
      cases h
      simp only [not_or, not_not] at ok
      have shape : IsSequence [cs[s]!, cs[s + 1]!] := .two (by omega) (by omega) ok.2.1
      obtain ⟨c, hc⟩ := shape.exists_encode
      refine ⟨c, ?_, by omega⟩
      rw [hc, rest_cons he hs, rest_cons he (s := s + 1) (by omega)]
      rfl
  split at h
  next three =>
    split at h
    · cases h
    next ok =>
      cases h
      simp only [not_or, not_not] at ok
      obtain ⟨inside, y, z, long, scalar⟩ := ok
      obtain ⟨c, hc⟩ := (IsSequence.three three y z long scalar).exists_encode
      refine ⟨c, ?_, by omega⟩
      rw [hc, rest_cons he hs, rest_cons he (s := s + 1) (by omega), rest_cons he (s := s + 2) (by omega)]
      rfl
  split at h
  next four =>
    split at h
    · cases h
    next ok =>
      cases h
      simp only [not_or, not_not] at ok
      obtain ⟨inside, y, z, w, long, scalar, scalar'⟩ := ok
      obtain ⟨c, hc⟩ := (IsSequence.four four y z w long scalar scalar').exists_encode
      refine ⟨c, ?_, by omega⟩
      rw [hc, rest_cons he hs, rest_cons he (s := s + 1) (by omega), rest_cons he (s := s + 2) (by omega),
        rest_cons he (s := s + 3) (by omega)]
      rfl
  · cases h

theorem rest_append {bytes tail : List UInt8} (he : e ≤ cs.length) (hs : s ≤ e) (h : rest cs e s = bytes ++ tail) :
    s + bytes.length ≤ e ∧ tail = rest cs e (s + bytes.length) ∧ ∀ i < bytes.length, cs[s + i]! = bytes[i]! := by
  have total : e - s = bytes.length + tail.length := by
    have := congrArg List.length h
    rwa [rest, List.length_drop, List.length_take, List.length_append, Nat.min_eq_left he] at this
  refine ⟨by omega, ?_, ?_⟩
  · rw [rest, ← List.drop_drop, ← rest, h, List.drop_left]
  · intro i hi
    have at_i := congrArg (·[i]?) h
    simp only [rest, List.getElem?_drop, List.getElem?_append_left hi, List.getElem?_take] at at_i
    rw [if_pos (by omega)] at at_i
    simp only [List.getElem!_eq_getElem?_getD, at_i]

theorem sequence_complete (he : e ≤ cs.length) (hs : s < e) (high : 0x80 ≤ cs[s]!.toNat) {c : Char}
    {tail : List UInt8} (h : rest cs e s = String.utf8EncodeChar c ++ tail) :
    ∃ s', sequence cs e s = some s' ∧ tail = rest cs e s' := by
  obtain ⟨inside, htail, bytes⟩ := rest_append he hs.le h
  have shape := isSequence_encode c
  generalize String.utf8EncodeChar c = encoded at inside htail bytes shape
  cases shape with
  | @one x hx =>
    have first : cs[s]! = x := bytes 0 (by simp)
    rw [first] at high
    omega
  | @two x y hx hx' hy =>
    have first : cs[s]! = x := bytes 0 (by simp)
    have second : cs[s + 1]! = y := bytes 1 (by simp)
    simp only [List.length_cons, List.length_nil] at inside
    refine ⟨s + 2, ?_, htail⟩
    simp only [sequence_eq, first, second]
    rw [if_pos (by omega), if_neg (by omega)]
  | @three x y z hx hy hz long scalar =>
    have first : cs[s]! = x := bytes 0 (by simp)
    have second : cs[s + 1]! = y := bytes 1 (by simp)
    have third : cs[s + 2]! = z := bytes 2 (by simp)
    simp only [List.length_cons, List.length_nil] at inside
    refine ⟨s + 3, ?_, htail⟩
    simp only [sequence_eq, first, second, third]
    rw [if_neg (by omega), if_pos (by omega), if_neg (by omega)]
  | @four x y z w hx hy hz hw long scalar scalar' =>
    have first : cs[s]! = x := bytes 0 (by simp)
    have second : cs[s + 1]! = y := bytes 1 (by simp)
    have third : cs[s + 2]! = z := bytes 2 (by simp)
    have fourth : cs[s + 3]! = w := bytes 3 (by simp)
    simp only [List.length_cons, List.length_nil] at inside
    refine ⟨s + 4, ?_, htail⟩
    simp only [sequence_eq, first, second, third, fourth]
    rw [if_neg (by omega), if_neg (by omega), if_pos (by omega), if_neg (by omega)]

/-- A seven-bit byte is a character of its own. -/
theorem wellFormed_ascii {b : UInt8} (hb : b.toNat < 0x80) (tail : List UInt8) :
    WellFormed (b :: tail) ↔ WellFormed tail := by
  constructor
  · intro h
    obtain ⟨c, tail', htail, wf⟩ := wellFormed_cons h
    have shape := isSequence_encode c
    generalize String.utf8EncodeChar c = encoded at htail shape
    cases shape <;> cases htail
    · exact wf
    all_goals omega
  · intro h
    obtain ⟨c, hc⟩ := (IsSequence.one hb).exists_encode
    exact wellFormed_encode hc h

theorem wellFormed_skip (he : e ≤ cs.length) (hs : s < e) :
    match skipAscii cs e s with
    | none => WellFormed (rest cs e s)
    | some s' => s' < e ∧ 0x80 ≤ cs[s']!.toNat ∧ (WellFormed (rest cs e s) ↔ WellFormed (rest cs e s')) := by
  fun_induction skipAscii cs e s with
  | case1 s ascii more ih =>
    rw [(masks _).1] at ascii
    rw [rest_cons he hs, wellFormed_ascii ascii]
    exact ih more
  | case2 s ascii last =>
    rw [(masks _).1] at ascii
    have nothing : rest cs e (s + 1) = [] := by
      rw [rest, List.drop_eq_nil_iff, List.length_take]
      omega
    rw [rest_cons he hs, wellFormed_ascii ascii, nothing]
    exact ⟨[], rfl⟩
  | case3 s other =>
    rw [(masks _).1] at other
    exact ⟨hs, by omega, Iff.rfl⟩

theorem scan_iff (he : e ≤ cs.length) (hs : s ≤ e) : scan cs e s = true ↔ WellFormed (rest cs e s) := by
  fun_induction scan cs e s with
  | case1 s inside four ih =>
    rw [ih four.1]
    obtain ⟨a, b, c, d⟩ := (ascii_four_iff _ _ _ _).mp four.2
    rw [rest_cons he inside, rest_cons he (s := s + 1) (by omega), rest_cons he (s := s + 2) (by omega),
      rest_cons he (s := s + 3) (by omega), wellFormed_ascii a, wellFormed_ascii b, wellFormed_ascii c,
      wellFormed_ascii d]
  | case2 s inside _ skip =>
    have := wellFormed_skip he inside
    rw [skip] at this
    simpa using this
  | case3 s inside _ s' skip seq =>
    have := wellFormed_skip he inside
    rw [skip] at this
    obtain ⟨inside', high, same⟩ := this
    rw [same, rest_cons he inside']
    refine ⟨fun h => absurd h (by decide), ?_⟩
    intro wf
    obtain ⟨c, tail, htail, -⟩ := wellFormed_cons wf
    rw [← rest_cons he inside'] at htail
    obtain ⟨s'', found, -⟩ := sequence_complete he inside' high htail
    rw [seq] at found
    cases found
  | case4 s inside _ s' skip s'' seq ih =>
    have := wellFormed_skip he inside
    rw [skip] at this
    obtain ⟨inside', high, same⟩ := this
    obtain ⟨c, split, le⟩ := sequence_sound he inside' high seq
    rw [ih le, same]
    constructor
    · intro wf
      rw [split]
      exact wellFormed_encode rfl wf
    · intro wf
      rw [rest_cons he inside'] at wf
      obtain ⟨c', tail, htail, wf'⟩ := wellFormed_cons wf
      rw [← rest_cons he inside'] at htail
      obtain ⟨s3, found, rfl⟩ := sequence_complete he inside' high htail
      rw [seq] at found
      cases found
      exact wf'
  | case5 s outside =>
    have nothing : rest cs e s = [] := by
      rw [rest, List.drop_eq_nil_iff, List.length_take]
      omega
    rw [nothing]
    exact ⟨fun _ => ⟨[], rfl⟩, fun _ => rfl⟩

end

/-! ### The bytes that the scan reads -/

/-- The inner loop, with a fault (`none`) where it would read outside of `cs`. -/
def skipAsciiChecked (cs : List UInt8) (e s : Nat) : Option (Option Nat) :=
  cs[s]?.bind fun b =>
    if b &&& 0x80 = 0 then if s + 1 < e then skipAsciiChecked cs e (s + 1) else some none
    else some (some s)
termination_by e - s

/-- The tests of a sequence in the order of the source, which reads no byte behind a test that has failed. -/
def sequenceChecked (cs : List UInt8) (e s : Nat) : Option (Option Nat) :=
  cs[s]?.bind fun s0 =>
    if s0 &&& 0x60 = 0x40 then
      if s + 1 ≥ e then some none
      else cs[s + 1]?.bind fun s1 =>
        if s1 &&& 0xc0 ≠ 0x80 ∨ s0 &&& 0xfe = 0xc0 then some none else some (some (s + 2))
    else if s0 &&& 0xf0 = 0xe0 then
      if s + 2 ≥ e then some none
      else cs[s + 1]?.bind fun s1 =>
        if s1 &&& 0xc0 ≠ 0x80 then some none
        else cs[s + 2]?.bind fun s2 =>
          if s2 &&& 0xc0 ≠ 0x80 ∨ (s0 = 0xe0 ∧ s1 &&& 0xe0 = 0x80) ∨ (s0 = 0xed ∧ s1 &&& 0xe0 = 0xa0) then some none
          else some (some (s + 3))
    else if s0 &&& 0xf8 = 0xf0 then
      if s + 3 ≥ e then some none
      else cs[s + 1]?.bind fun s1 =>
        if s1 &&& 0xc0 ≠ 0x80 then some none
        else cs[s + 2]?.bind fun s2 =>
          if s2 &&& 0xc0 ≠ 0x80 then some none
          else cs[s + 3]?.bind fun s3 =>
            if s3 &&& 0xc0 ≠ 0x80 ∨ (s0 = 0xf0 ∧ s1 &&& 0xf0 = 0x80) ∨ (s0 = 0xf4 ∧ s1 > 0x8f) ∨ s0 > 0xf4 then
              some none
            else some (some (s + 4))
    else some none

theorem read {cs : List UInt8} {i : Nat} (h : i < cs.length) : cs[i]? = some cs[i]! := by
  rw [getElem!_pos cs i h, List.getElem?_eq_getElem h]

theorem skipAsciiChecked_eq {cs : List UInt8} {e s : Nat} (he : e ≤ cs.length) (hs : s < e) :
    skipAsciiChecked cs e s = some (skipAscii cs e s) := by
  fun_induction skipAscii cs e s with
  | case1 s ascii more ih =>
    rw [skipAsciiChecked, read (by omega), Option.bind_some, if_pos ascii, if_pos more]
    exact ih more
  | case2 s ascii last => rw [skipAsciiChecked, read (by omega), Option.bind_some, if_pos ascii, if_neg last]
  | case3 s other => rw [skipAsciiChecked, read (by omega), Option.bind_some, if_neg other]

theorem sequenceChecked_eq {cs : List UInt8} {e s : Nat} (he : e ≤ cs.length) (hs : s < e) :
    sequenceChecked cs e s = some (sequence cs e s) := by
  unfold sequenceChecked sequence
  rw [read (by omega), Option.bind_some]
  by_cases two : cs[s]! &&& 0x60 = 0x40
  · by_cases inside : s + 1 ≥ e
    · simp only [two, inside, if_true, true_or]
    · rw [read (i := s + 1) (by omega)]
      simp only [two, inside, if_true, if_false, Option.bind_some, false_or]
      split <;> rfl
  by_cases three : cs[s]! &&& 0xf0 = 0xe0
  · by_cases inside : s + 2 ≥ e
    · simp only [two, three, inside, if_true, if_false, true_or]
    · rw [read (i := s + 1) (by omega), read (i := s + 2) (by omega)]
      simp only [two, three, inside, if_true, if_false, Option.bind_some, false_or]
      by_cases second : cs[s + 1]! &&& 0xc0 = 0x80
      · simp only [second, ne_eq, not_true_eq_false, if_false, false_or]
        split <;> rfl
      · simp only [second, ne_eq, not_false_eq_true, if_true, true_or]
  by_cases four : cs[s]! &&& 0xf8 = 0xf0
  · by_cases inside : s + 3 ≥ e
    · simp only [two, three, four, inside, if_true, if_false, true_or]
    · rw [read (i := s + 1) (by omega), read (i := s + 2) (by omega), read (i := s + 3) (by omega)]
      simp only [two, three, four, inside, if_true, if_false, Option.bind_some, false_or]
      by_cases second : cs[s + 1]! &&& 0xc0 = 0x80
      · simp only [second, ne_eq, not_true_eq_false, if_false, false_or]
        by_cases third : cs[s + 2]! &&& 0xc0 = 0x80
        · simp only [third, not_true_eq_false, if_false, false_or]
          split <;> rfl
        · simp only [third, not_false_eq_true, if_true, true_or]
      · simp only [second, ne_eq, not_false_eq_true, if_true, true_or]
  · simp only [two, three, four, if_false]

theorem skipAscii_lt {cs : List UInt8} {e s s' : Nat} (hs : s < e) (h : skipAscii cs e s = some s') : s' < e := by
  fun_induction skipAscii cs e s with
  | case1 s _ more ih => exact ih more h
  | case2 => cases h
  | case3 => exact Option.some.inj h ▸ hs

/-- The test of four bytes at once, which are read together. -/
def fourAsciiChecked (cs : List UInt8) (e s : Nat) : Option Bool :=
  if s + 4 ≤ e then
    cs[s]?.bind fun s0 => cs[s + 1]?.bind fun s1 => cs[s + 2]?.bind fun s2 => cs[s + 3]?.bind fun s3 =>
      some (decide ((s0 ||| s1 ||| s2 ||| s3) &&& 0x80 = 0))
  else some false

theorem skipAsciiChecked_le {cs : List UInt8} {e s s' : Nat} (h : skipAsciiChecked cs e s = some (some s')) :
    s ≤ s' := by
  fun_induction skipAsciiChecked cs e s with
  | case1 s ih =>
    obtain ⟨b, _, h⟩ := Option.bind_eq_some_iff.mp h
    split at h
    · split at h
      · exact Nat.le_of_succ_le (ih (by assumption) h)
      · cases h
    · cases h
      exact Nat.le_refl _

/-- A checked test that goes on only behind `s`. -/
def Beyond (s : Nat) (x : Option (Option Nat)) : Prop := ∀ s', x = some (some s') → s < s'

section Beyond

variable {s : Nat}

theorem beyond_none : Beyond s (some none) := by
  intro s' h
  cases h

theorem beyond_some {s' : Nat} (h : s < s') : Beyond s (some (some s')) := by
  intro s'' same
  cases same
  exact h

theorem beyond_ite {c : Prop} [Decidable c] {x y : Option (Option Nat)} (hx : Beyond s x) (hy : Beyond s y) :
    Beyond s (if c then x else y) := by
  by_cases h : c
  · rw [if_pos h]
    exact hx
  · rw [if_neg h]
    exact hy

theorem beyond_read {x : Option UInt8} {f : UInt8 → Option (Option Nat)} (h : ∀ b, Beyond s (f b)) :
    Beyond s (x.bind f) := by
  intro s' found
  obtain ⟨b, _, found⟩ := Option.bind_eq_some_iff.mp found
  exact h b s' found

theorem sequenceChecked_beyond (cs : List UInt8) (e : Nat) : Beyond s (sequenceChecked cs e s) := by
  apply beyond_read
  intro s0
  apply beyond_ite
  · apply beyond_ite beyond_none
    apply beyond_read
    intro s1
    exact beyond_ite beyond_none (beyond_some (by omega))
  apply beyond_ite
  · apply beyond_ite beyond_none
    apply beyond_read
    intro s1
    apply beyond_ite beyond_none
    apply beyond_read
    intro s2
    exact beyond_ite beyond_none (beyond_some (by omega))
  apply beyond_ite
  · apply beyond_ite beyond_none
    apply beyond_read
    intro s1
    apply beyond_ite beyond_none
    apply beyond_read
    intro s2
    apply beyond_ite beyond_none
    apply beyond_read
    intro s3
    exact beyond_ite beyond_none (beyond_some (by omega))
  · exact beyond_none

end Beyond

/-- The outer loop. -/
def scanChecked (cs : List UInt8) (e s : Nat) : Option Bool :=
  if _hs : s < e then
    match fourAsciiChecked cs e s with
    | none => none
    | some true => scanChecked cs e (s + 4)
    | some false =>
      match _hskip : skipAsciiChecked cs e s with
      | none => none
      | some none => some true
      | some (some s') =>
        match _hseq : sequenceChecked cs e s' with
        | none => none
        | some none => some false
        | some (some s'') => scanChecked cs e s''
  else some true
termination_by e - s
decreasing_by
  · omega
  · have := skipAsciiChecked_le _hskip
    have := sequenceChecked_beyond cs e s'' _hseq
    omega

theorem fourAsciiChecked_eq {cs : List UInt8} {e s : Nat} (he : e ≤ cs.length) :
    fourAsciiChecked cs e s =
      some (decide (s + 4 ≤ e ∧ (cs[s]! ||| cs[s + 1]! ||| cs[s + 2]! ||| cs[s + 3]!) &&& 0x80 = 0)) := by
  unfold fourAsciiChecked
  split
  next inside =>
    rw [read (i := s) (by omega), read (i := s + 1) (by omega), read (i := s + 2) (by omega),
      read (i := s + 3) (by omega)]
    simp only [Option.bind_some, inside, true_and]
  next short => simp only [short, false_and, decide_false]

/-- No read of the scan is outside of the bytes that are checked. -/
theorem scanChecked_eq {cs : List UInt8} {e s : Nat} (he : e ≤ cs.length) :
    scanChecked cs e s = some (scan cs e s) := by
  fun_induction scan cs e s with
  | case1 s inside four ih =>
    rw [scanChecked, dif_pos inside, fourAsciiChecked_eq he, decide_eq_true four]
    exact ih
  | case2 s inside other skip =>
    rw [scanChecked, dif_pos inside, fourAsciiChecked_eq he, decide_eq_false other]
    dsimp only
    split <;> rename_i found <;> rw [skipAsciiChecked_eq he inside, skip] at found <;> cases found
  | case3 s inside other s' skip seq =>
    have inside' := skipAscii_lt inside skip
    rw [scanChecked, dif_pos inside, fourAsciiChecked_eq he, decide_eq_false other]
    dsimp only
    split <;> rename_i found <;> rw [skipAsciiChecked_eq he inside, skip] at found <;> cases found
    split <;> rename_i found <;> rw [sequenceChecked_eq he inside', seq] at found <;> cases found
  | case4 s inside other s' skip s'' seq ih =>
    have inside' := skipAscii_lt inside skip
    rw [scanChecked, dif_pos inside, fourAsciiChecked_eq he, decide_eq_false other]
    dsimp only
    split <;> rename_i found <;> rw [skipAsciiChecked_eq he inside, skip] at found <;> cases found
    split <;> rename_i found <;> rw [sequenceChecked_eq he inside', seq] at found <;> cases found
    exact ih
  | case5 s outside => rw [scanChecked, dif_neg outside]

end Utf8

/-- The check with a fault where it would read outside of `cs`. -/
def isValidUtf8Checked (cs : List UInt8) (length : Nat) : Option Bool := Utf8.scanChecked cs length 0

theorem isValidUtf8Checked_eq {cs : List UInt8} {length : Nat} (inside : length ≤ cs.length) :
    isValidUtf8Checked cs length = some (isValidUtf8 cs length) := Utf8.scanChecked_eq inside

theorem isValidUtf8_iff {cs : List UInt8} {length : Nat} (inside : length ≤ cs.length) :
    isValidUtf8 cs length = true ↔ Utf8.WellFormed (cs.take length) := by
  rw [isValidUtf8, Utf8.scan_iff inside (Nat.zero_le _), Utf8.rest, List.drop_zero]

example : isValidUtf8 [0x68, 0xc3, 0xa9, 0x21] 4 = true ∧ isValidUtf8 [0xc0, 0x80] 2 = false := by decide +kernel

end LAppS.StreamProcessing
