import Mathlib.Order.Basic

/-!
IPv4 addresses and networks. An address is `s_addr` as a little-endian machine reads it: the first octet is in the
low bits, so that a comparison of two addresses looks at their last octets first.
-/

namespace LAppS

abbrev Word := BitVec 32

inductive Errno where
  | einval | eafnosupport
  deriving DecidableEq, Repr

structure SystemError where
  code : Errno
  text : List Char
  deriving DecidableEq, Repr

/-- The bytes in the other order. -/
def htonl (w : Word) : Word :=
  w <<< 24 ||| (w &&& 0xFF00#32) <<< 8 ||| (w >>> 8) &&& 0xFF00#32 ||| w >>> 24

/-! ### The functions of the C library -/

def digit (c : Char) : Nat := c.toNat - '0'.toNat

/-- The octets of a dotted quad: the ones read, and the digits of the next one, if there are any. -/
def inetPton4 : List Char → List Nat → Option Nat → Option (List Nat)
  | [], octets, some n => if octets.length = 3 then some (octets ++ [n]) else none
  | [], _, none => none
  | c :: cs, octets, octet =>
    if c.isDigit then
      -- no zero stands before another digit
      if octet = some 0 then none
      else if octet.getD 0 * 10 + digit c > 255 then none
      else inetPton4 cs octets (some (octet.getD 0 * 10 + digit c))
    else
      match octet with
      | none => none
      | some n => if c = '.' ∧ octets.length < 3 then inetPton4 cs (octets ++ [n]) none else none

def inetPton (address : List Char) : Option Word :=
  match inetPton4 (address.takeWhile (· ≠ '\x00')) [] none with
  | some [a, b, c, d] =>
    some (BitVec.ofNat 32 a ||| BitVec.ofNat 32 b <<< 8 ||| BitVec.ofNat 32 c <<< 16 ||| BitVec.ofNat 32 d <<< 24)
  | _ => none

def isspace (c : Char) : Bool := c = ' ' || (9 ≤ c.toNat && c.toNat ≤ 13)

def decimal (s : List Char) : Nat := (s.takeWhile Char.isDigit).foldl (fun n c => n * 10 + digit c) 0

def atoi (s : List Char) : Int :=
  match s.dropWhile isspace with
  | '-' :: s => -(decimal s : Int)
  | '+' :: s => decimal s
  | s => decimal s

/-! ### `ipcalc` -/

namespace Ipcalc

def saddr2uint (address : List Char) : Except SystemError Word :=
  match inetPton address with
  | some w => .ok w
  | none =>
    .error ⟨.eafnosupport, "LAppS::ipcalc::saddr2uint(const std::string&) - inappropriate string address is provided as an argument: ".toList ++ address⟩

def defaultIpv4Prefix (address : Word) : Nat :=
  let firstOctet := (htonl address >>> 24).toNat
  if firstOctet = 0 then 0
  else if firstOctet < 128 then 8
  else if 128 ≤ firstOctet ∧ firstOctet < 192 then 16
  else if 192 ≤ firstOctet ∧ firstOctet < 224 then 24
  else 32

/-- C++ leaves `1 << 32` undefined: `shl32` is what the machine gives. -/
def prefix2mask (shl32 : Word) (p : Nat) : Word :=
  htonl (~~~((if p = 0 then shl32 else 1#32 <<< (32 - p)) - 1#32))

end Ipcalc

structure Addrinfo where
  address : Word
  mask : Word
  deriving DecidableEq, Repr

namespace Ipcalc

def parse (shl32 : Word) (saddress : List Char) : Except SystemError Addrinfo :=
  match saddress.span (· ≠ '/') with
  | ([], _ :: _) =>
    .error ⟨.einval, "LAppS::ipcalc::parse(const std::string&): inappropriate IP address is provided as an argument: ".toList ++ saddress⟩
  | (saddr, []) => do
    let address ← saddr2uint saddr
    return ⟨address, prefix2mask shl32 (defaultIpv4Prefix address)⟩
  | (saddr, _ :: sprefix) => do
    if sprefix.length > 2 then
      throw ⟨.einval, "LAppS::ipcalc::parse(const std::string&): inappropriate prefix in ".toList ++ saddress⟩
    -- the number is cut to `uint8_t`
    let p := (atoi sprefix % 256).toNat
    if p > 32 then
      throw ⟨.einval, "LAppS::ipcalc::parse(const std::string&): inappropriate prefix in ".toList ++ saddress⟩
    let address ← saddr2uint saddr
    return ⟨address, prefix2mask shl32 p⟩

end Ipcalc

/-! ### `addrinfo` -/

namespace Addrinfo

/-- The value for an address that has come without a prefix. -/
def ofAddress (shl32 address : Word) : Addrinfo :=
  ⟨address, Ipcalc.prefix2mask shl32 (Ipcalc.defaultIpv4Prefix address)⟩

def network (e : Addrinfo) : Word := e.mask &&& e.address

/-- An address whose last octet is zero counts as a network, whatever its mask. -/
def isNetwork (e : Addrinfo) : Bool := e.network = e.address || e.address >>> 24 = 0#32

def within (e addr : Addrinfo) : Bool :=
  if e.isNetwork then addr.address &&& e.mask = e.network
  else if addr.isNetwork then addr.mask &&& e.address = addr.network
  else addr.address = e.address

/-- The comparison: the other address is cut to this mask, not to its own. -/
def lt (e other : Addrinfo) : Bool := e.network < other.address &&& e.mask

end Addrinfo

/-! ### Words under a mask -/

section Words

variable {a b m n : Word}

theorem and_mask_or_le (a b m : Word) : a &&& m ≤ (a ||| b) &&& m := by
  rw [BitVec.le_def, BitVec.toNat_and, BitVec.toNat_and, BitVec.toNat_or, Nat.and_or_distrib_right]
  exact Nat.left_le_or

/-- The part under the mask and the part outside. -/
theorem toNat_parts (a m : Word) : (a &&& m).toNat + (a &&& ~~~m).toNat = a.toNat := by
  have disjoint : (a &&& m) &&& (a &&& ~~~m) = 0#32 := by
    ext i hi
    simp only [BitVec.getElem_and, BitVec.getElem_not, BitVec.getElem_zero]
    cases a[i] <;> cases m[i] <;> rfl
  have joined : (a &&& m) ||| (a &&& ~~~m) = a := by
    ext i hi
    simp only [BitVec.getElem_or, BitVec.getElem_and, BitVec.getElem_not]
    cases a[i] <;> cases m[i] <;> rfl
  rw [← BitVec.toNat_add_of_and_eq_zero disjoint, BitVec.add_eq_or_of_and_eq_zero _ _ disjoint, joined]

theorem fill_and_mask (a m : Word) : ((m &&& a) ||| ~~~m) &&& m = m &&& a := by
  ext i hi
  simp only [BitVec.getElem_or, BitVec.getElem_and, BitVec.getElem_not]
  cases a[i] <;> cases m[i] <;> rfl

theorem and_submask (h : m &&& n = m) (a : Word) : (m &&& a) &&& n = m &&& a := by
  rw [BitVec.and_comm m a, BitVec.and_assoc, h]

/-- A word that is filled outside of a mask is filled outside of a greater one. -/
theorem fill_outside (h : m &&& n = m) (a : Word) : (a ||| ~~~m) &&& ~~~n = ~~~n := by
  ext i hi
  have bit := congrArg (fun w : Word => w[i]) h
  simp only [BitVec.getElem_and, BitVec.getElem_or, BitVec.getElem_not] at bit ⊢
  revert bit
  cases m[i] <;> cases n[i] <;> cases a[i] <;> decide

end Words

end LAppS
