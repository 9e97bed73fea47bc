import LAppS.NetworkACL.Ipcalc
import Mathlib.Data.List.TakeDrop
import Mathlib.Data.List.TakeWhile

/-!
The texts of networks, `address/prefix`. What C++ leaves undefined in the arithmetic of the mask has no value here:
`prefix2maskChecked` and `parseChecked` have one exactly where the program is defined, and there it is the one of
`prefix2mask` and `parse` on every machine.
-/

namespace LAppS

/-! ### Bits in network order -/

/-- Where the bit stands in a word: the first octet is in the low bits, and each octet has its first bit on top. -/
def place (i : Nat) : Nat := 8 * (i / 8) + (7 - i % 8)

/-- The bit `i` of an address, from the first octet on. -/
def networkBit (w : Word) (i : Nat) : Bool := w.getLsbD (place i)

/-- The first `p` bits are one and the others are zero. -/
def LeadingOnes (p : Nat) (m : Word) : Prop := ∀ i < 32, networkBit m i = decide (i < p)

/-- The first `p` bits are those of the other address. -/
def Shares (p : Nat) (a x : Word) : Prop := ∀ i < p, networkBit x i = networkBit a i

theorem place_lt {i : Nat} (h : i < 32) : place i < 32 := by
  unfold place
  omega

theorem place_place (i : Nat) : place (place i) = i := by
  unfold place
  omega

theorem networkBit_and (a b : Word) (i : Nat) : networkBit (a &&& b) i = (networkBit a i && networkBit b i) :=
  BitVec.getLsbD_and ..

theorem eq_of_networkBit {a b : Word} (h : ∀ i < 32, networkBit a i = networkBit b i) : a = b := by
  apply BitVec.eq_of_getLsbD_eq
  intro i hi
  have bit := h (place i) (place_lt hi)
  rwa [networkBit, networkBit, place_place] at bit

theorem and_mask_eq_iff {p : Nat} {m : Word} (hp : p ≤ 32) (hm : LeadingOnes p m) (a x : Word) :
    x &&& m = a &&& m ↔ Shares p a x := by
  constructor
  · intro eq i hi
    have bit := congrArg (networkBit · i) eq
    simpa only [networkBit_and, hm i (by omega), hi, decide_true, Bool.and_true] using bit
  · intro shares
    apply eq_of_networkBit
    intro i hi
    rw [networkBit_and, networkBit_and, hm i hi]
    by_cases inside : i < p
    · rw [shares i inside]
    · rw [decide_eq_false inside, Bool.and_false, Bool.and_false]

theorem and_mask_eq_self {p : Nat} {m a : Word} (hm : LeadingOnes p m)
    (hosts : ∀ i < 32, p ≤ i → networkBit a i = false) : a &&& m = a := by
  apply eq_of_networkBit
  intro i hi
  rw [networkBit_and, hm i hi]
  by_cases inside : i < p
  · rw [decide_eq_true inside, Bool.and_true]
  · rw [hosts i hi (Nat.le_of_not_lt inside), Bool.false_and]

/-! ### The mask -/

namespace Ipcalc

/-- `1 << n` for an `int`: a shift by the width or more is undefined, and a bit in the sign makes it negative. -/
def shiftOne (n : Nat) : Option Int := if n < 32 then some (1#32 <<< n).toInt else none

/-- A result of type `int`: an overflow is undefined. -/
def inInt (n : Int) : Option Int := if -2147483648 ≤ n ∧ n < 2147483648 then some n else none

def prefix2maskChecked (p : Nat) : Option Word := do
  let shifted ← shiftOne (32 - p)
  let low ← inInt (shifted - 1)
  -- the complement of an `int`, as a `uint32_t`
  return htonl (BitVec.ofInt 32 (-low - 1))

/-- `__builtin_popcount`. -/
def popcount (w : Word) : Nat := (List.range 32).countP w.getLsbD

/-- The shift is undefined for the prefix 0. For the prefix 1 it gives the least `int`, and the subtraction
overflows. -/
theorem prefix2maskChecked_undefined {p : Nat} (h : p < 2) : prefix2maskChecked p = none := by
  have all : ∀ p < 2, prefix2maskChecked p = none := by decide +kernel
  exact all p h

theorem prefix2maskChecked_defined {p : Nat} (lower : 2 ≤ p) (upper : p ≤ 32) :
    ∃ m, prefix2maskChecked p = some m ∧ LeadingOnes p m ∧ popcount m = p := by
  have all : ∀ p < 33, 2 ≤ p → (prefix2maskChecked p).any (fun m =>
      (List.range 32).all (fun i => networkBit m i = decide (i < p)) && popcount m = p) = true := by decide +kernel
  have found := all p (by omega) lower
  rw [Option.any_eq_true] at found
  obtain ⟨m, eq, found⟩ := found
  rw [Bool.and_eq_true, List.all_eq_true, decide_eq_true_eq] at found
  refine ⟨m, eq, fun i hi => ?_, found.2⟩
  exact of_decide_eq_true (found.1 i (List.mem_range.mpr hi))

/-- Where the arithmetic is defined every machine has its value. -/
theorem prefix2mask_of_checked {p : Nat} {m : Word} (h : prefix2maskChecked p = some m) (shl32 : Word) :
    prefix2mask shl32 p = m := by
  have lower : 2 ≤ p := by
    by_contra less
    rw [prefix2maskChecked_undefined (by omega)] at h
    cases h
  have all : ∀ p < 33, 2 ≤ p → prefix2maskChecked p = some (prefix2mask 0 p) := by decide +kernel
  have width : 32 - p = 32 - min p 32 := by omega
  have checked : prefix2maskChecked p = prefix2maskChecked (min p 32) := by
    rw [prefix2maskChecked, prefix2maskChecked, width]
  have value : prefix2mask shl32 p = prefix2mask 0 (min p 32) := by
    rw [prefix2mask, prefix2mask, if_neg (by omega), if_neg (by omega), width]
  rw [checked, all _ (by omega) (by omega)] at h
  rw [value]
  exact Option.some.inj h

/-! ### Reading -/

/-- The prefix that the mask is computed from. -/
def prefixOf (saddress : List Char) (address : Word) : Nat :=
  match saddress.span (· ≠ '/') with
  | (_, []) => defaultIpv4Prefix address
  | (_, _ :: sprefix) => (atoi sprefix % 256).toNat

/-- The outcome of `parse`, if no undefined operation is evaluated. An exception comes before the mask. -/
def parseChecked (saddress : List Char) : Option (Except SystemError Addrinfo) :=
  match parse 0 saddress with
  | .error e => some (.error e)
  | .ok e => (prefix2maskChecked (prefixOf saddress e.address)).map fun m => .ok { e with mask := m }

/-- The reading of a text with a prefix. -/
theorem parse_slash {saddress saddr sprefix : List Char} {c d : Char}
    (h : saddress.span (· ≠ '/') = (d :: saddr, c :: sprefix)) :
    ∃ e, ∀ shl32, parse shl32 saddress =
      if 2 < sprefix.length ∨ 32 < (atoi sprefix % 256).toNat then .error e
      else (saddr2uint (d :: saddr)).map fun address => ⟨address, prefix2mask shl32 (atoi sprefix % 256).toNat⟩ := by
  refine ⟨⟨.einval, "LAppS::ipcalc::parse(const std::string&): inappropriate prefix in ".toList ++ saddress⟩,
    fun shl32 => ?_⟩
  rw [parse, h]
  dsimp only
  by_cases long : 2 < sprefix.length
  · rw [if_pos (Or.inl long), if_pos long]
    rfl
  by_cases high : 32 < (atoi sprefix % 256).toNat
  · rw [if_pos (Or.inr high), if_neg long, if_pos high]
    rfl
  rw [if_neg (not_or.mpr ⟨long, high⟩), if_neg long, if_neg high]
  cases saddr2uint (d :: saddr) <;> rfl

/-- A machine only chooses the mask. -/
theorem parse_machine (shl32 : Word) (saddress : List Char) :
    parse shl32 saddress =
      (parse 0 saddress).map fun e => { e with mask := prefix2mask shl32 (prefixOf saddress e.address) } := by
  rcases parts : saddress.span (· ≠ '/') with ⟨saddr, rest⟩
  cases rest with
  | nil =>
    unfold parse prefixOf
    rw [parts]
    cases saddr <;> dsimp only <;> cases saddr2uint _ <;> rfl
  | cons c sprefix =>
    cases saddr with
    | nil =>
      unfold parse prefixOf
      rw [parts]
      rfl
    | cons d saddr =>
      obtain ⟨e, eq⟩ := parse_slash parts
      rw [eq, eq]
      unfold prefixOf
      rw [parts]
      split
      · rfl
      · cases saddr2uint (d :: saddr) <;> rfl

theorem parse_of_checked {saddress : List Char} {r : Except SystemError Addrinfo}
    (h : parseChecked saddress = some r) (shl32 : Word) : parse shl32 saddress = r := by
  rw [parse_machine]
  unfold parseChecked at h
  cases parsed : parse 0 saddress with
  | error e =>
    rw [parsed] at h
    exact Option.some.inj h
  | ok e =>
    rw [parsed] at h
    obtain ⟨m, mask, rfl⟩ := Option.map_eq_some_iff.mp h
    rw [Except.map, prefix2mask_of_checked mask]

theorem span_slash {address : List Char} (h : '/' ∉ address) (suffix : List Char) :
    (address ++ '/' :: suffix).span (· ≠ '/') = (address, '/' :: suffix) := by
  have all : ∀ c ∈ address, decide (c ≠ '/') = true := fun c hc => decide_eq_true fun eq => h (eq ▸ hc)
  rw [List.span_eq_takeWhile_dropWhile, List.takeWhile_append_of_pos all, List.dropWhile_append_of_pos all,
    List.takeWhile_cons_of_neg (by decide), List.dropWhile_cons_of_neg (by decide), List.append_nil]

/-- What `parse` demands of the two parts of a text with a prefix. -/
structure Accepts (address suffix : List Char) (w : Word) : Prop where
  address : inetPton address = some w
  short : suffix.length ≤ 2
  bounded : (atoi suffix % 256).toNat ≤ 32

theorem parse_accepts {address suffix : List Char} {w : Word} (h : '/' ∉ address) (accepts : Accepts address suffix w)
    (shl32 : Word) :
    parse shl32 (address ++ '/' :: suffix) = .ok ⟨w, prefix2mask shl32 (atoi suffix % 256).toNat⟩ := by
  have parts := span_slash h suffix
  cases address with
  | nil => cases accepts.address
  | cons c cs =>
    obtain ⟨e, eq⟩ := parse_slash parts
    rw [eq, if_neg (not_or.mpr ⟨Nat.not_lt.mpr accepts.short, Nat.not_lt.mpr accepts.bounded⟩), saddr2uint,
      accepts.address]
    rfl

theorem parse_rejects {address suffix : List Char} (h : '/' ∉ address) (rejects : ∀ w, ¬Accepts address suffix w)
    (shl32 : Word) : ∃ e, parse shl32 (address ++ '/' :: suffix) = .error e := by
  have parts := span_slash h suffix
  cases address with
  | nil => exact ⟨_, by rw [parse, parts]⟩
  | cons c cs =>
    obtain ⟨e, eq⟩ := parse_slash parts
    rw [eq]
    split
    · exact ⟨e, rfl⟩
    case isFalse within =>
      rw [not_or, Nat.not_lt, Nat.not_lt] at within
      cases found : inetPton (c :: cs) with
      | some w => exact absurd ⟨found, within.1, within.2⟩ (rejects w)
      | none => exact ⟨_, by rw [saddr2uint, found]; rfl⟩

theorem prefixOf_slash {address : List Char} (h : '/' ∉ address) (suffix : List Char) (w : Word) :
    prefixOf (address ++ '/' :: suffix) w = (atoi suffix % 256).toNat := by
  rw [prefixOf, span_slash h]

theorem parseChecked_accepts {address suffix : List Char} {w : Word} (h : '/' ∉ address)
    (accepts : Accepts address suffix w) :
    parseChecked (address ++ '/' :: suffix) =
      (prefix2maskChecked (atoi suffix % 256).toNat).map fun m => .ok ⟨w, m⟩ := by
  rw [parseChecked, parse_accepts h accepts]
  dsimp only
  rw [prefixOf_slash h]

theorem parseChecked_rejects {address suffix : List Char} (h : '/' ∉ address)
    (rejects : ∀ w, ¬Accepts address suffix w) : ∃ e, parseChecked (address ++ '/' :: suffix) = some (.error e) := by
  obtain ⟨e, eq⟩ := parse_rejects h rejects 0
  exact ⟨e, by rw [parseChecked, eq]⟩

end Ipcalc

/-! ### Writing -/

def octet (w : Word) (k : Nat) : Nat := (w >>> (8 * k) &&& 0xFF#32).toNat

/-- The digits of `std::to_string`. -/
def decimalText (n : Nat) : List Char := Nat.toDigits 10 n

def inetNtoa (w : Word) : List Char :=
  decimalText (octet w 0) ++ '.' :: (decimalText (octet w 1) ++ '.' ::
    (decimalText (octet w 2) ++ '.' :: decimalText (octet w 3)))

/-- The text of an address with a prefix. -/
def cidrText (a : Word) (p : Nat) : List Char := inetNtoa a ++ '/' :: decimalText p

def Addrinfo.cidr (e : Addrinfo) : List Char := cidrText e.address (Ipcalc.popcount e.mask)

theorem octet_lt (w : Word) (k : Nat) : octet w k < 256 := by
  rw [octet, BitVec.toNat_and]
  exact Nat.lt_of_le_of_lt Nat.and_le_right (by decide)

/-- The octet that `inetPton4` has after some digits. -/
def octetOf : Option Nat → List Char → Option (Option Nat)
  | octet, [] => some octet
  | octet, c :: cs =>
    if c.isDigit then
      if octet = some 0 then none
      else if octet.getD 0 * 10 + digit c > 255 then none
      else octetOf (some (octet.getD 0 * 10 + digit c)) cs
    else none

theorem inetPton4_digits (digits rest : List Char) (octets : List Nat) (start found : Option Nat)
    (h : octetOf start digits = some found) :
    inetPton4 (digits ++ rest) octets start = inetPton4 rest octets found := by
  induction digits generalizing start with
  | nil => rw [Option.some.inj h, List.nil_append]
  | cons c cs ih =>
    unfold octetOf at h
    split at h
    case isFalse => cases h
    case isTrue digit =>
      split at h
      case isTrue => cases h
      case isFalse first =>
        split at h
        case isTrue => cases h
        case isFalse fits =>
          rw [List.cons_append, inetPton4.eq_def]
          dsimp only
          rw [if_pos digit, if_neg first, if_neg fits]
          exact ih _ h

theorem octetOf_decimalText {n : Nat} (h : n < 256) : octetOf none (decimalText n) = some (some n) := by
  have all : ∀ n < 256, octetOf none (decimalText n) = some (some n) := by decide +kernel
  exact all n h

theorem inetPton4_octet {n : Nat} (h : n < 256) (rest : List Char) (octets : List Nat) :
    inetPton4 (decimalText n ++ rest) octets none = inetPton4 rest octets (some n) :=
  inetPton4_digits _ _ _ _ _ (octetOf_decimalText h)

theorem inetPton4_dot {octets : List Nat} (h : octets.length < 3) (n : Nat) (rest : List Char) :
    inetPton4 ('.' :: rest) octets (some n) = inetPton4 rest (octets ++ [n]) none := by
  simp [inetPton4, h]

theorem isDigit_of_mem_decimalText {n : Nat} (h : n < 256) {c : Char} (hc : c ∈ decimalText n) : c.isDigit = true := by
  have all : ∀ n < 256, (decimalText n).all Char.isDigit = true := by decide +kernel
  exact List.all_eq_true.mp (all n h) c hc

theorem mem_inetNtoa {w : Word} {c : Char} (hc : c ∈ inetNtoa w) : c.isDigit = true ∨ c = '.' := by
  simp only [inetNtoa, List.mem_append, List.mem_cons] at hc
  rcases hc with hc | rfl | hc | rfl | hc | rfl | hc
  all_goals first
    | exact .inr rfl
    | exact .inl (isDigit_of_mem_decimalText (octet_lt ..) hc)

theorem slash_not_mem_inetNtoa (w : Word) : '/' ∉ inetNtoa w := by
  intro mem
  rcases mem_inetNtoa mem with h | h
  · cases h
  · cases h

/-- The four octets, put together. -/
theorem octets_joined (w : Word) :
    BitVec.ofNat 32 (octet w 0) ||| BitVec.ofNat 32 (octet w 1) <<< 8 ||| BitVec.ofNat 32 (octet w 2) <<< 16 |||
      BitVec.ofNat 32 (octet w 3) <<< 24 = w := by
  simp only [octet, BitVec.ofNat_toNat, BitVec.setWidth_eq]
  have low : ∀ j < 32, (0xFF#32).getLsbD j = decide (j < 8) := by decide
  apply BitVec.eq_of_getLsbD_eq
  intro i hi
  simp only [BitVec.getLsbD_or, BitVec.getLsbD_shiftLeft, BitVec.getLsbD_and, BitVec.getLsbD_ushiftRight, low i hi,
    low (i - 8) (by omega), low (i - 16) (by omega), low (i - 24) (by omega)]
  -- one of the four octets has the bit
  obtain first | second | third | fourth : i < 8 ∨ 8 ≤ i ∧ i < 16 ∨ 16 ≤ i ∧ i < 24 ∨ 24 ≤ i := by omega
  · have behind : i < 16 ∧ i < 24 := by omega
    simp [first, behind]
  · have octet : ¬i < 8 ∧ i < 24 ∧ i - 8 < 8 := by omega
    simp [second, octet, hi]
  · have octet : ¬i < 8 ∧ ¬i < 16 ∧ ¬i - 8 < 8 ∧ i - 16 < 8 := by omega
    simp [third, octet, hi]
  · have octet : ¬i < 8 ∧ ¬i < 16 ∧ ¬i < 24 ∧ ¬i - 8 < 8 ∧ ¬i - 16 < 8 ∧ i - 24 < 8 := by omega
    simp [fourth, octet, hi]

theorem inetPton_inetNtoa (w : Word) : inetPton (inetNtoa w) = some w := by
  have plain : (inetNtoa w).takeWhile (· ≠ '\x00') = inetNtoa w := by
    apply List.takeWhile_eq_self_iff.mpr
    intro c hc
    apply decide_eq_true
    rintro rfl
    rcases mem_inetNtoa hc with h | h
    · cases h
    · cases h
  have octets : inetPton4 (inetNtoa w) [] none = some [octet w 0, octet w 1, octet w 2, octet w 3] := by
    have last : decimalText (octet w 3) = decimalText (octet w 3) ++ [] := (List.append_nil _).symm
    rw [inetNtoa, inetPton4_octet (octet_lt ..), inetPton4_dot (by simp), inetPton4_octet (octet_lt ..),
      inetPton4_dot (by simp), inetPton4_octet (octet_lt ..), inetPton4_dot (by simp), last,
      inetPton4_octet (octet_lt ..)]
    rfl
  rw [inetPton, plain, octets]
  exact congrArg some (octets_joined w)

/-! ### The text behind the slash -/

/-- A decimal number from 0 to 32. -/
structure IsPrefixLength (suffix : List Char) : Prop where
  nonempty : suffix ≠ []
  digits : ∀ c ∈ suffix, c.isDigit = true
  bounded : decimal suffix ≤ 32

/-- The texts that are refused without being read as a number up to 32: the long ones, the numbers of two digits
above 32, and a minus sign before a digit other than zero. -/
inductive Refused : List Char → Prop
  | long {suffix : List Char} (h : 2 < suffix.length) : Refused suffix
  | high {c d : Char} (hc : c.isDigit = true) (hd : d.isDigit = true) (h : 32 < decimal [c, d]) : Refused [c, d]
  | negative {d : Char} (hd : d.isDigit = true) (h : d ≠ '0') : Refused ['-', d]

theorem digit_lt {c : Char} (h : c.isDigit = true) : digit c < 10 := by
  simp only [Char.isDigit, Bool.and_eq_true, decide_eq_true_eq] at h
  have upper : c.toNat ≤ 57 := h.2
  have zero : '0'.toNat = 48 := rfl
  rw [digit, zero]
  omega

theorem digit_pos {c : Char} (h : c.isDigit = true) (ne : c ≠ '0') : 0 < digit c := by
  simp only [Char.isDigit, Bool.and_eq_true, decide_eq_true_eq] at h
  have lower : 48 ≤ c.toNat := h.1
  have zero : '0'.toNat = 48 := rfl
  have other : c.toNat ≠ 48 := fun eq => ne (Char.toNat_inj.mp eq)
  rw [digit, zero]
  omega

theorem decimal_stop {c : Char} (h : c.isDigit = false) (rest : List Char) : decimal (c :: rest) = 0 := by
  simp [decimal, h]

theorem decimal_one {c : Char} (h : c.isDigit = true) : decimal [c] = digit c := by
  simp [decimal, h]

theorem decimal_two {c d : Char} (hc : c.isDigit = true) (hd : d.isDigit = true) :
    decimal [c, d] = digit c * 10 + digit d := by
  simp [decimal, hc, hd]

theorem decimal_cut {c d : Char} (hc : c.isDigit = true) (hd : d.isDigit = false) : decimal [c, d] = digit c := by
  simp [decimal, hc, hd]

/-- A character alone is a digit or worth nothing. -/
theorem decimal_one_lt (c : Char) : decimal [c] < 10 := by
  cases h : c.isDigit with
  | true =>
    rw [decimal_one h]
    exact digit_lt h
  | false =>
    rw [decimal_stop h]
    decide

theorem not_isspace {c : Char} (h : c.isDigit = true) : isspace c = false := by
  simp only [Char.isDigit, Bool.and_eq_true, decide_eq_true_eq] at h
  have lower : 48 ≤ c.toNat := h.1
  have blank : c ≠ ' ' := by
    rintro rfl
    revert lower
    decide
  simp [isspace, blank]
  omega

theorem atoi_digit {c : Char} (h : c.isDigit = true) (rest : List Char) : atoi (c :: rest) = decimal (c :: rest) := by
  unfold atoi
  rw [List.dropWhile_cons_of_neg (by rw [not_isspace h]; decide)]
  split
  · rename_i eq
    cases eq
    cases h
  · rename_i eq
    cases eq
    cases h
  · rfl

theorem atoi_space {c : Char} (h : isspace c = true) (rest : List Char) : atoi (c :: rest) = atoi rest := by
  unfold atoi
  rw [List.dropWhile_cons_of_pos h]

/-- A character that starts no number. -/
theorem atoi_other {c : Char} (space : isspace c = false) (digit : c.isDigit = false) (minus : c ≠ '-')
    (plus : c ≠ '+') (rest : List Char) : atoi (c :: rest) = 0 := by
  unfold atoi
  rw [List.dropWhile_cons_of_neg (by rw [space]; decide)]
  split
  · rename_i eq
    cases eq
    exact absurd rfl minus
  · rename_i eq
    cases eq
    exact absurd rfl plus
  · rw [decimal_stop digit]
    rfl

theorem atoi_minus (rest : List Char) : atoi ('-' :: rest) = -(decimal rest : Int) := rfl

theorem atoi_plus (rest : List Char) : atoi ('+' :: rest) = decimal rest := rfl

theorem atoi_one (c : Char) : 0 ≤ atoi [c] ∧ atoi [c] < 10 := by
  cases space : isspace c with
  | true =>
    rw [atoi_space space]
    decide
  | false =>
    cases number : c.isDigit with
    | true =>
      rw [atoi_digit number]
      have := decimal_one_lt c
      omega
    | false =>
      by_cases minus : c = '-'
      · rw [minus]
        decide
      by_cases plus : c = '+'
      · rw [plus]
        decide
      rw [atoi_other space number minus plus]
      decide

theorem atoi_two {c d : Char} (notLength : ¬IsPrefixLength [c, d]) (notRefused : ¬Refused [c, d]) :
    0 ≤ atoi [c, d] ∧ atoi [c, d] < 10 := by
  cases space : isspace c with
  | true =>
    rw [atoi_space space]
    exact atoi_one d
  | false =>
    cases number : c.isDigit with
    | true =>
      rw [atoi_digit number]
      cases more : d.isDigit with
      | true =>
        -- two digits are a number up to 32, or one above
        refine absurd ⟨List.cons_ne_nil _ _, ?_, Nat.le_of_not_lt fun h => notRefused (.high number more h)⟩ notLength
        simp [number, more]
      | false =>
        rw [decimal_cut number more]
        have := digit_lt number
        omega
    | false =>
      by_cases minus : c = '-'
      · subst minus
        rw [atoi_minus]
        cases more : d.isDigit with
        | true =>
          by_cases zero : d = '0'
          · rw [zero]
            decide
          · exact absurd (.negative more zero) notRefused
        | false =>
          rw [decimal_stop more]
          decide
      by_cases plus : c = '+'
      · subst plus
        rw [atoi_plus]
        have := decimal_one_lt d
        omega
      rw [atoi_other space number minus plus]
      decide

/-- A text that is neither a prefix length nor refused is read as a number of one digit. -/
theorem atoi_small {suffix : List Char} (notLength : ¬IsPrefixLength suffix) (notRefused : ¬Refused suffix) :
    suffix.length ≤ 2 ∧ 0 ≤ atoi suffix ∧ atoi suffix < 10 := by
  have short : suffix.length ≤ 2 := Nat.le_of_not_lt fun long => notRefused (.long long)
  refine ⟨short, ?_⟩
  cases suffix with
  | nil => decide
  | cons c rest =>
    cases rest with
    | nil => exact atoi_one c
    | cons d rest =>
      cases rest with
      | nil => exact atoi_two notLength notRefused
      | cons e rest =>
        simp only [List.length_cons] at short
        omega

theorem Refused.rejects {suffix address : List Char} (h : Refused suffix) (w : Word) :
    ¬Ipcalc.Accepts address suffix w := by
  intro accepts
  have short := accepts.short
  have bounded := accepts.bounded
  cases h with
  | long h => omega
  | @high c d hc hd h =>
    rw [atoi_digit hc] at bounded
    have value := decimal_two hc hd
    have first := digit_lt hc
    have second := digit_lt hd
    omega
  | @negative d hd h =>
    rw [atoi_minus, decimal_one hd] at bounded
    have lower := digit_pos hd h
    have upper := digit_lt hd
    omega

/-- The text of a prefix length is read as that number. -/
theorem accepts_cidrText (a : Word) {p : Nat} (hp : p ≤ 32) :
    Ipcalc.Accepts (inetNtoa a) (decimalText p) a ∧ (atoi (decimalText p) % 256).toNat = p := by
  have all : ∀ p < 33, (decimalText p).length ≤ 2 ∧ (atoi (decimalText p) % 256).toNat = p := by decide +kernel
  obtain ⟨short, value⟩ := all p (by omega)
  exact ⟨⟨inetPton_inetNtoa a, short, by rw [value]; exact hp⟩, value⟩

/-! ### The texts that are read exactly -/

/-- The text of an address with a prefix from 0 to 32 is read as that address and the mask of the prefix, with
defined arithmetic, and written back. If the address has no bit outside of the mask, the network has the addresses
that share the prefix. A text with anything else behind the slash is rejected. -/
structure ReadExactly (saddress : List Char) : Prop where
  network : ∀ a p, p ≤ 32 → saddress = cidrText a p →
    ∃ e, Ipcalc.parseChecked saddress = some (.ok e) ∧ (∀ shl32, Ipcalc.parse shl32 saddress = .ok e) ∧
      e.address = a ∧ LeadingOnes p e.mask ∧ e.cidr = saddress ∧
      ((∀ i < 32, p ≤ i → networkBit a i = false) → ∀ x, e.within x = true ↔ Shares p a x.address)
  rejected : ∀ address suffix, '/' ∉ address → saddress = address ++ '/' :: suffix → ¬IsPrefixLength suffix →
    ∃ e, Ipcalc.parseChecked saddress = some (.error e) ∧ ∀ shl32, Ipcalc.parse shl32 saddress = .error e

/-- The prefix is at least 2. What stands behind the slash is a prefix length or refused, unless the address is
rejected. -/
structure Readable (saddress : List Char) : Prop where
  defined : ∀ a p, p ≤ 32 → saddress = cidrText a p → 2 ≤ p
  refused : ∀ address suffix, '/' ∉ address → saddress = address ++ '/' :: suffix → ¬IsPrefixLength suffix →
    inetPton address = none ∨ Refused suffix

theorem parseChecked_cidrText (a : Word) {p : Nat} (hp : p ≤ 32) :
    Ipcalc.parseChecked (cidrText a p) = (Ipcalc.prefix2maskChecked p).map fun m => .ok ⟨a, m⟩ := by
  obtain ⟨accepts, value⟩ := accepts_cidrText a hp
  rw [cidrText, Ipcalc.parseChecked_accepts (slash_not_mem_inetNtoa a) accepts, value]

theorem within_iff {a m : Word} {p : Nat} (hp : p ≤ 32) (hm : LeadingOnes p m)
    (hosts : ∀ i < 32, p ≤ i → networkBit a i = false) (x : Addrinfo) :
    Addrinfo.within ⟨a, m⟩ x = true ↔ Shares p a x.address := by
  have network : Addrinfo.network ⟨a, m⟩ = a := (BitVec.and_comm ..).trans (and_mask_eq_self hm hosts)
  have isNetwork : Addrinfo.isNetwork ⟨a, m⟩ = true := by
    rw [Addrinfo.isNetwork, network, decide_eq_true rfl, Bool.true_or]
  rw [Addrinfo.within, if_pos isNetwork, decide_eq_true_eq, ← and_mask_eq_iff hp hm, Addrinfo.network,
    BitVec.and_comm m]

theorem read_exactly_iff (saddress : List Char) : ReadExactly saddress ↔ Readable saddress := by
  constructor
  · intro reads
    constructor
    · intro a p hp text
      by_contra low
      obtain ⟨e, parsed, -⟩ := reads.network a p hp text
      rw [text, parseChecked_cidrText a hp, Ipcalc.prefix2maskChecked_undefined (by omega)] at parsed
      cases parsed
    · intro address suffix slash text notLength
      by_contra neither
      rw [not_or] at neither
      obtain ⟨w, found⟩ := Option.ne_none_iff_exists'.mp neither.1
      obtain ⟨short, lower, upper⟩ := atoi_small notLength neither.2
      have accepts : Ipcalc.Accepts address suffix w := ⟨found, short, by omega⟩
      obtain ⟨e, rejected, -⟩ := reads.rejected address suffix slash text notLength
      rw [text, Ipcalc.parseChecked_accepts slash accepts, Option.map_eq_some_iff] at rejected
      obtain ⟨m, -, eq⟩ := rejected
      cases eq
  · intro readable
    constructor
    · intro a p hp text
      obtain ⟨m, mask, ones, count⟩ := Ipcalc.prefix2maskChecked_defined (readable.defined a p hp text) hp
      have parsed : Ipcalc.parseChecked saddress = some (.ok ⟨a, m⟩) := by
        rw [text, parseChecked_cidrText a hp, mask]
        rfl
      refine ⟨⟨a, m⟩, parsed, Ipcalc.parse_of_checked parsed, rfl, ones, ?_, fun hosts x => within_iff hp ones hosts x⟩
      rw [text, Addrinfo.cidr, count]
    · intro address suffix slash text notLength
      have none_ : ∀ w, ¬Ipcalc.Accepts address suffix w := by
        intro w accepts
        rcases readable.refused address suffix slash text notLength with bad | refused
        · cases bad.symm.trans accepts.address
        · exact refused.rejects w accepts
      obtain ⟨e, rejected⟩ := Ipcalc.parseChecked_rejects slash none_
      rw [← text] at rejected
      exact ⟨e, rejected, Ipcalc.parse_of_checked rejected⟩

/-- The text `10.0.0.0/5x` is read as `10.0.0.0/5`. The mask of `10.0.0.0/0` needs `1 << 32`, and the one of
`10.0.0.0/1` overflows. -/
theorem read_exactly_counterexample :
    ¬ReadExactly "10.0.0.0/5x".toList ∧
    Ipcalc.parseChecked "10.0.0.0/5x".toList = some (.ok ⟨0x0000000A#32, 0x000000F8#32⟩) ∧
    ¬ReadExactly (cidrText 0x0000000A#32 0) ∧ cidrText 0x0000000A#32 0 = "10.0.0.0/0".toList ∧
    ¬ReadExactly (cidrText 0x0000000A#32 1) ∧ cidrText 0x0000000A#32 1 = "10.0.0.0/1".toList := by
  have read : Ipcalc.parseChecked "10.0.0.0/5x".toList = some (.ok ⟨0x0000000A#32, 0x000000F8#32⟩) := by
    decide +kernel
  refine ⟨fun reads => ?_, read, fun reads => ?_, by decide, fun reads => ?_, by decide⟩
  · obtain ⟨e, rejected, -⟩ := reads.rejected "10.0.0.0".toList "5x".toList (by decide) (by decide) fun length =>
      absurd (length.digits 'x' (by decide)) (by decide)
    rw [read] at rejected
    cases rejected
  · obtain ⟨e, parsed, -⟩ := reads.network _ 0 (by decide) rfl
    rw [parseChecked_cidrText _ (by decide), Ipcalc.prefix2maskChecked_undefined (by decide)] at parsed
    cases parsed
  · obtain ⟨e, parsed, -⟩ := reads.network _ 1 (by decide) rfl
    rw [parseChecked_cidrText _ (by decide), Ipcalc.prefix2maskChecked_undefined (by decide)] at parsed
    cases parsed

end LAppS
