import LAppS.Bytes

/-!
# Frames and messages of RFC 6455

The wire format of a frame (section 5.2), the sequences of frames that section 5.4 allows and the
messages such a sequence carries.
-/

namespace LAppS.Rfc6455
open Bytes

/-- The sixteen values of the opcode field. -/
inductive OpCode where
  | continuation | text | binary
  | ncReserved1 | ncReserved2 | ncReserved3 | ncReserved4 | ncReserved5
  | close | ping | pong
  | cfRsv1 | cfRsv2 | cfRsv3 | cfRsv4 | cfRsv5
  deriving DecidableEq, Repr

namespace OpCode

def toByte : OpCode → UInt8
  | continuation => 0 | text => 1 | binary => 2
  | ncReserved1 => 3 | ncReserved2 => 4 | ncReserved3 => 5 | ncReserved4 => 6 | ncReserved5 => 7
  | close => 8 | ping => 9 | pong => 10
  | cfRsv1 => 11 | cfRsv2 => 12 | cfRsv3 => 13 | cfRsv4 => 14 | cfRsv5 => 15

/-- The opcode in the low four bits of a byte. -/
def ofByte (b : UInt8) : OpCode :=
  match (b &&& 0xF).toNat with
  | 0 => continuation | 1 => text | 2 => binary
  | 3 => ncReserved1 | 4 => ncReserved2 | 5 => ncReserved3 | 6 => ncReserved4 | 7 => ncReserved5
  | 8 => close | 9 => ping | 10 => pong
  | 11 => cfRsv1 | 12 => cfRsv2 | 13 => cfRsv3 | 14 => cfRsv4 | _ => cfRsv5

def isControl : OpCode → Bool
  | close | ping | pong => true
  | _ => false

/-- The opcodes that open a data message. -/
def isData : OpCode → Bool
  | text | binary => true
  | _ => false

end OpCode

/-- Close status codes (section 7.4). -/
abbrev CloseCode := UInt16

/-- What a receiver reports: a complete message, or that it fails the connection. -/
inductive Event where
  | message (op : OpCode) (payload : List UInt8)
  | fail (code : CloseCode)
  deriving DecidableEq, Repr

/-- The three ways to write a payload length. -/
inductive LengthForm where
  | seven | sixteen | sixtyFour
  deriving DecidableEq, Repr

/-- The lengths a form can write. -/
def LengthForm.Fits : LengthForm → Nat → Prop
  | seven, n => n ≤ 125
  | sixteen, n => n < 256 ^ 2
  | sixtyFour, n => n < 256 ^ 8

theorem LengthForm.fits_nil : LengthForm.seven.Fits ([] : List UInt8).length := Nat.zero_le 125

structure Frame where
  fin : Bool
  opcode : OpCode
  form : LengthForm
  key : Fin 4 → UInt8 := fun _ => 0
  payload : List UInt8
  fits : form.Fits payload.length

/-- The fragmented message under way: its opcode and the payload so far. -/
abbrev Pending := Option (OpCode × List UInt8)

namespace Frame

def firstByte (f : Frame) : UInt8 := (if f.fin then 128 else 0) ||| f.opcode.toByte

def lengthCode (f : Frame) : UInt8 :=
  match f.form with
  | .seven => UInt8.ofNat f.payload.length
  | .sixteen => 126
  | .sixtyFour => 127

def secondByte (masked : Bool) (f : Frame) : UInt8 := (if masked then 128 else 0) ||| f.lengthCode

def extended (f : Frame) : List UInt8 :=
  match f.form with
  | .seven => []
  | .sixteen => beBytes 2 f.payload.length
  | .sixtyFour => beBytes 8 f.payload.length

def keyBytes (f : Frame) : List UInt8 := [f.key 0, f.key 1, f.key 2, f.key 3]

def header (masked : Bool) (f : Frame) : List UInt8 :=
  f.firstByte :: f.secondByte masked :: (f.extended ++ if masked then f.keyBytes else [])

/-- The bytes of a frame, masked as a client sends it or unmasked as a server does. -/
def encode (masked : Bool) (f : Frame) : List UInt8 :=
  f.header masked ++ if masked then maskFrom f.key 0 f.payload else f.payload

/-- A Close frame without a body, after which nothing follows. -/
def endsStream (f : Frame) : Bool := f.opcode == .close && f.payload.isEmpty

/-- What section 5.4 allows while `pending` is under way, and section 5.5 of a control frame. -/
def Legal (pending : Pending) (f : Frame) : Prop :=
  match f.opcode with
  | .text | .binary => pending = none
  | .continuation => pending.isSome
  | .close | .ping | .pong => f.fin = true ∧ f.payload.length ≤ 125
  | _ => False

/-- The frame, and with it the message it belongs to, stays within the limit of the receiver. -/
def Within (limit : Nat) (pending : Pending) (f : Frame) : Prop :=
  f.payload.length ≤ limit ∧
    (f.opcode = .continuation → ∀ m ∈ pending, m.2.length + f.payload.length ≤ limit)

/-- The message under way after the frame, and what the frame makes the receiver report. -/
def next (pending : Pending) (f : Frame) : Pending × List Event :=
  match f.opcode, pending with
  | .continuation, some (op, acc) =>
    if f.fin then (none, [.message op (acc ++ f.payload)]) else (some (op, acc ++ f.payload), [])
  | .text, _ | .binary, _ =>
    if f.fin then (pending, [.message f.opcode f.payload]) else (some (f.opcode, f.payload), [])
  | .close, _ => (pending, if f.payload = [] then [.fail 1000] else [.message .close f.payload])
  | .ping, _ | .pong, _ => (pending, [.message f.opcode f.payload])
  | _, _ => (pending, [])

theorem encode_ne_nil (masked : Bool) (f : Frame) : f.encode masked ≠ [] := by
  simp [encode, header]

end Frame

/-- A sequence of frames that RFC 6455 allows a sender. -/
def LegalSeq : Pending → List Frame → Prop
  | _, [] => True
  | pending, f :: fs =>
    f.Legal pending ∧ (f.endsStream = true → fs = []) ∧ LegalSeq (f.next pending).1 fs

/-- Every frame of the sequence stays within the limit. -/
def WithinSeq (limit : Nat) : Pending → List Frame → Prop
  | _, [] => True
  | pending, f :: fs => f.Within limit pending ∧ WithinSeq limit (f.next pending).1 fs

/-- The reports of a receiver of the frames, in order. -/
def assemble : Pending → List Frame → List Event
  | _, [] => []
  | pending, f :: fs => (f.next pending).2 ++ assemble (f.next pending).1 fs

/-- The bytes of a sequence of frames. -/
def encodeAll (masked : Bool) (fs : List Frame) : List UInt8 := fs.flatMap (Frame.encode masked)

/-- The message under way after a sequence of frames. -/
def pendingAfter (pending : Pending) (fs : List Frame) : Pending :=
  fs.foldl (fun p f => (f.next p).1) pending

@[simp] theorem encodeAll_nil (masked : Bool) : encodeAll masked [] = [] := rfl

@[simp] theorem encodeAll_cons (masked : Bool) (f : Frame) (fs : List Frame) :
    encodeAll masked (f :: fs) = f.encode masked ++ encodeAll masked fs := rfl

theorem encodeAll_append (masked : Bool) (fs gs : List Frame) :
    encodeAll masked (fs ++ gs) = encodeAll masked fs ++ encodeAll masked gs := by
  simp [encodeAll]

/-! ### The bits of the first two bytes -/

theorem firstByte_fin (f : Frame) : (f.firstByte &&& 128 != 0) = f.fin := by
  rw [Frame.firstByte]
  generalize f.opcode = op
  cases f.fin <;> cases op <;> rfl

theorem firstByte_rsv (f : Frame) : (f.firstByte &&& 112 != 0) = false := by
  rw [Frame.firstByte]
  generalize f.opcode = op
  cases f.fin <;> cases op <;> rfl

theorem firstByte_opcode (f : Frame) : OpCode.ofByte f.firstByte = f.opcode := by
  rw [Frame.firstByte]
  generalize f.opcode = op
  cases f.fin <;> cases op <;> rfl

theorem or_mask_bits : ∀ (masked : Bool) (n : Fin 128),
    ((((if masked then 128 else 0) ||| UInt8.ofNat n.val) &&& 128 != 0) = masked) ∧
    (((if masked then 128 else 0) ||| UInt8.ofNat n.val) &&& 127) = UInt8.ofNat n.val := by
  decide +kernel

theorem lengthCode_lt (f : Frame) : f.lengthCode.toNat < 128 := by
  have fits := f.fits
  unfold Frame.lengthCode
  split <;> rename_i form
  · rw [form] at fits
    have : f.payload.length ≤ 125 := fits
    rw [toNat_ofNat_byte]
    omega
  · decide
  · decide

theorem secondByte_bits (masked : Bool) (f : Frame) :
    (f.secondByte masked &&& 128 != 0) = masked ∧ f.secondByte masked &&& 127 = f.lengthCode := by
  have bits := or_mask_bits masked ⟨f.lengthCode.toNat, lengthCode_lt f⟩
  simpa [Frame.secondByte] using bits

end LAppS.Rfc6455
