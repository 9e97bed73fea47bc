import LAppS.Cbor.Format
import LAppS.Lexing.Reader

/-!
# `binary_reader`

`from_cbor` as it is called, strict and with exceptions. The recursion is bounded by the length of the input, which
`fromCbor_settles` shows to be enough.
-/

namespace LAppS.Cbor
open Bytes Reading Ieee754

structure Exception where
  id : Nat
  /-- Where the input is wrong; none for the other exceptions. -/
  byte : Option Nat
  what : String

def exceptionMessage (detail context : String) : String :=
  "syntax error while parsing CBOR " ++ context ++ ": " ++ detail

def parseError (id byte : Nat) (whatArg : String) : Stop Exception :=
  .thrown ⟨id, some byte, "[json.exception.parse_error." ++ toString id ++ "] parse error" ++
    (if byte ≠ 0 then " at byte " ++ toString byte else "") ++ ": " ++ whatArg⟩

def outOfRange (id : Nat) (whatArg : String) : Stop Exception :=
  .thrown ⟨id, none, "[json.exception.out_of_range." ++ toString id ++ "] " ++ whatArg⟩

/-- Two hexadecimal digits. -/
def getTokenString (current : UInt8) : String :=
  let digit (n : Nat) : Char := if n < 10 then Char.ofNat (48 + n) else Char.ofNat (55 + n)
  String.ofList [digit (current.toNat / 16), digit (current.toNat % 16)]

/-- What `unexpect_eof` throws. -/
def unexpectEof {α : Type} (context : String) : Reader Exception α := fun s =>
  .error (parseError 110 s.charsRead (exceptionMessage "unexpected end of input" context))

def currentByte (context : String) : Option UInt8 → Reader Exception UInt8
  | none => unexpectEof context
  | some b => done b

def getNumber (size : Nat) : Reader Exception Nat :=
  andThen (repeated (next (currentByte "number")) size) fun vec => done (beToNat vec)

def getString (len : Nat) : Reader Exception Bytes := repeated (next (currentByte "string")) len

def getCborString : Nat → Option UInt8 → Reader Exception Bytes
  | _, none => unexpectEof "string"
  | 0, some _ => fun _ => .error .fuel
  | fuel + 1, some current =>
    let c := current.toNat
    if 0x60 ≤ c ∧ c ≤ 0x77 then getString (c % 0x20)
    else if 0x78 ≤ c ∧ c ≤ 0x7B then andThen (getNumber (2 ^ (c - 0x78))) getString
    else if c = 0x7F then
      andThen (untilByte 0xFF (getCborString fuel) (fuel + 1)) fun chunks => done chunks.flatten
    else fun s => .error (parseError 113 s.charsRead (exceptionMessage
      ("expected length specification (0x60-0x7B) or indefinite string type (0x7F); last byte: 0x" ++
        getTokenString current) "string"))

/-- `std::size_t(-1)`, which is taken for an indefinite length. -/
def sizeMax : Nat := 2 ^ 64 - 1

/-- `get_cbor_array` and `get_cbor_object`, from `start_array` or `start_object` to the end. -/
def getContainer {α : Type} (kind : String) (maxSize : Nat) (read : Option UInt8 → Reader Exception α)
    (make : List α → Json) (fuel len : Nat) : Reader Exception Json :=
  if len ≠ sizeMax ∧ len > maxSize then
    fun _ => .error (outOfRange 408 ("excessive " ++ kind ++ " size: " ++ toString len))
  else
    andThen (if len ≠ sizeMax then repeated (next read) len else untilByte 0xFF read fuel) fun as => done (make as)

def getCborArray (L : Limits) (parse : Option UInt8 → Reader Exception Json) (fuel len : Nat) : Reader Exception Json :=
  getContainer "array" L.array parse .array fuel len

/-- A key, from the byte that was taken, and its value. -/
def getMember (parse : Option UInt8 → Reader Exception Json) (fuel : Nat) (current : Option UInt8) :
    Reader Exception (Bytes × Json) :=
  andThen (getCborString fuel current) fun key => andThen (next parse) fun v => done (key, v)

def getCborObject (L : Limits) (parse : Option UInt8 → Reader Exception Json) (fuel len : Nat) : Reader Exception Json :=
  getContainer "object" L.object (getMember parse fuel) (fun members => .object (Json.ofMembers members)) fuel len

/-- `std::ldexp`, where the result is a normal number. -/
def ldexp (m : Nat) (e : Int) : Nat × Nat := scaled m (e + 1074).toNat

/-- The code of RFC 7049, appendix D. -/
def halfToDouble (half : Nat) : Nat :=
  let exp : Nat := half / 2 ^ 10 % 0x20
  let mant : Nat := half % 2 ^ 10
  let fields :=
    if exp = 0 then ldexp mant (-24)
    else if exp = 31 then (2047, if mant = 0 then 0 else 2 ^ 51)
    else ldexp (mant + 1024) ((exp : Int) - 25)
  binary64.pack (half / 2 ^ 15 % 2 == 1) fields.1 fields.2

def parseCborInternal (L : Limits) : Nat → Option UInt8 → Reader Exception Json
  | _, none => unexpectEof "value"
  | 0, some _ => fun _ => .error .fuel
  | fuel + 1, some current =>
    let c := current.toNat
    if c ≤ 0x17 then done (.numberUnsigned (UInt64.ofNat c))
    else if 0x18 ≤ c ∧ c ≤ 0x1B then
      andThen (getNumber (2 ^ (c - 0x18))) fun number => done (.numberUnsigned (UInt64.ofNat number))
    else if 0x20 ≤ c ∧ c ≤ 0x37 then done (.numberInteger (Int64.ofInt (0x20 - 1 - c)))
    else if 0x38 ≤ c ∧ c ≤ 0x3B then
      andThen (getNumber (2 ^ (c - 0x38))) fun number => done (.numberInteger (-1 - Int64.ofNat number))
    else if 0x60 ≤ c ∧ c ≤ 0x7B ∨ c = 0x7F then
      andThen (getCborString (fuel + 1) (some current)) fun s => done (.string s)
    else if 0x80 ≤ c ∧ c ≤ 0x97 then getCborArray L (parseCborInternal L fuel) (fuel + 1) (c % 0x20)
    else if 0x98 ≤ c ∧ c ≤ 0x9B then
      andThen (getNumber (2 ^ (c - 0x98))) (getCborArray L (parseCborInternal L fuel) (fuel + 1))
    else if c = 0x9F then getCborArray L (parseCborInternal L fuel) (fuel + 1) sizeMax
    else if 0xA0 ≤ c ∧ c ≤ 0xB7 then getCborObject L (parseCborInternal L fuel) (fuel + 1) (c % 0x20)
    else if 0xB8 ≤ c ∧ c ≤ 0xBB then
      andThen (getNumber (2 ^ (c - 0xB8))) (getCborObject L (parseCborInternal L fuel) (fuel + 1))
    else if c = 0xBF then getCborObject L (parseCborInternal L fuel) (fuel + 1) sizeMax
    else if c = 0xF4 then done (.boolean false)
    else if c = 0xF5 then done (.boolean true)
    else if c = 0xF6 then done .null
    else if c = 0xF9 then andThen (getNumber 2) fun half => done (.numberFloat (UInt64.ofNat (halfToDouble half)))
    else if c = 0xFA then
      andThen (getNumber 4) fun number => done (.numberFloat (UInt64.ofNat (widen binary32 quieted number)))
    else if c = 0xFB then andThen (getNumber 8) fun number => done (.numberFloat (UInt64.ofNat number))
    else fun s => .error (parseError 112 s.charsRead
      (exceptionMessage ("invalid byte: 0x" ++ getTokenString current) "value"))

theorem of_ite {α : Type} {P : α → Prop} {c : Prop} [Decidable c] {a b : α} (h : c → P a) (h' : ¬c → P b) :
    P (if c then a else b) := by
  by_cases hc : c
  · rw [if_pos hc]
    exact h hc
  · rw [if_neg hc]
    exact h' hc

/-- What is true of every branch of the switch is true of the function. -/
theorem parseCborInternal_cases {P : Reader Exception Json → Prop} {L : Limits} {fuel : Nat} {current : UInt8}
    (unsigned : current.toNat ≤ 0x17 → P (done (.numberUnsigned (UInt64.ofNat current.toNat))))
    (unsignedNumber : 0x18 ≤ current.toNat ∧ current.toNat ≤ 0x1B → P (andThen (getNumber (2 ^ (current.toNat - 0x18)))
      fun number => done (.numberUnsigned (UInt64.ofNat number))))
    (negative : 0x20 ≤ current.toNat ∧ current.toNat ≤ 0x37 →
      P (done (.numberInteger (Int64.ofInt (0x20 - 1 - current.toNat)))))
    (negativeNumber : 0x38 ≤ current.toNat ∧ current.toNat ≤ 0x3B → P (andThen (getNumber (2 ^ (current.toNat - 0x38)))
      fun number => done (.numberInteger (-1 - Int64.ofNat number))))
    (string : P (andThen (getCborString (fuel + 1) (some current)) fun s => done (.string s)))
    (array : 0x80 ≤ current.toNat ∧ current.toNat ≤ 0x97 →
      P (getCborArray L (parseCborInternal L fuel) (fuel + 1) (current.toNat % 0x20)))
    (arrayNumber : 0x98 ≤ current.toNat ∧ current.toNat ≤ 0x9B →
      P (andThen (getNumber (2 ^ (current.toNat - 0x98))) (getCborArray L (parseCborInternal L fuel) (fuel + 1))))
    (openArray : current.toNat = 0x9F → P (getCborArray L (parseCborInternal L fuel) (fuel + 1) sizeMax))
    (object : 0xA0 ≤ current.toNat ∧ current.toNat ≤ 0xB7 →
      P (getCborObject L (parseCborInternal L fuel) (fuel + 1) (current.toNat % 0x20)))
    (objectNumber : 0xB8 ≤ current.toNat ∧ current.toNat ≤ 0xBB →
      P (andThen (getNumber (2 ^ (current.toNat - 0xB8))) (getCborObject L (parseCborInternal L fuel) (fuel + 1))))
    (openObject : current.toNat = 0xBF → P (getCborObject L (parseCborInternal L fuel) (fuel + 1) sizeMax))
    (simple : ∀ b v, (b, v) ∈ [(0xF4, Json.boolean false), (0xF5, .boolean true), (0xF6, .null)] → current.toNat = b →
      P (done v))
    (float : ∀ b size f, (b, size, f) ∈ [(0xF9, 2, halfToDouble), (0xFA, 4, widen binary32 quieted), (0xFB, 8, id)] →
      current.toNat = b → P (andThen (getNumber size) fun number => done (.numberFloat (UInt64.ofNat (f number)))))
    (invalid : P fun s => .error (parseError 112 s.charsRead
      (exceptionMessage ("invalid byte: 0x" ++ getTokenString current) "value"))) :
    P (parseCborInternal L (fuel + 1) (some current)) := by
  rw [parseCborInternal]
  refine of_ite unsigned fun _ => of_ite unsignedNumber fun _ => of_ite negative fun _ => of_ite negativeNumber fun _ =>
    of_ite (fun _ => string) fun _ => of_ite array fun _ => of_ite arrayNumber fun _ => of_ite openArray fun _ =>
    of_ite object fun _ => of_ite objectNumber fun _ => of_ite openObject fun _ => ?_
  refine of_ite (simple 0xF4 _ (by simp)) fun _ => of_ite (simple 0xF5 _ (by simp)) fun _ =>
    of_ite (simple 0xF6 _ (by simp)) fun _ => ?_
  exact of_ite (float 0xF9 2 _ (by simp)) fun _ => of_ite (float 0xFA 4 _ (by simp)) fun _ =>
    of_ite (float 0xFB 8 id (by simp)) fun _ => invalid

/-- The byte behind the value has to be the end of the input. -/
def strict (v : Json) : Option UInt8 → Reader Exception Json
  | none => done v
  | some b => fun s => .error (parseError 110 s.charsRead
      (exceptionMessage ("expected end of input; last byte: 0x" ++ getTokenString b) "value"))

def saxParse (L : Limits) (fuel : Nat) : Reader Exception Json :=
  andThen (next (parseCborInternal L fuel)) fun v => next (strict v)

def fromCbor (L : Limits) (bytes : Bytes) : Except (Stop Exception) Json :=
  match saxParse L bytes.length ⟨bytes, 0⟩ with
  | .ok (v, _) => .ok v
  | .error e => .error e

end LAppS.Cbor
