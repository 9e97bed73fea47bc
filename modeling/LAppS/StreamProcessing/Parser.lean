import LAppS.Rfc6455.Frame

/-!
# The stream parsers

`WSStreamParser` and its two subclasses. A buffer pointer together with its `limit` is the list of
the bytes below the limit, and the member `cursor`, which every function sets from its `offset`
before it reads it, is passed along. The server and the client parser differ in the mask flag they
require, in the masking key they read and in how they store a payload; `Role` selects these.
-/

namespace LAppS.StreamProcessing
open Rfc6455 Bytes

/-- `WebSocketProtocol::DefiniteCloseCode`. -/
abbrev DefiniteCloseCode := CloseCode

namespace DefiniteCloseCode
def normal : DefiniteCloseCode := 1000
def protocolViolation : DefiniteCloseCode := 1002
def noComprende : DefiniteCloseCode := 1003
def badData : DefiniteCloseCode := 1007
def messageTooBig : DefiniteCloseCode := 1009
end DefiniteCloseCode

/-- The parser states; `READ_LONG_SIZE_0..7` and `READ_MASK_0..3` carry their index. -/
inductive State where
  | init
  | header1stByte
  | header2dnByte
  | readShortSize0
  | readShortSize1
  | readLongSize (i : Fin 8)
  | readMask (i : Fin 4)
  | validate
  | payload
  | done
  | messageReady
  deriving DecidableEq, Repr

inductive WSFrameSizeType where
  | min | short | long
  deriving DecidableEq, Repr

inductive Directive where
  | more | takeReadyMessage | closeWithCode | continue_
  deriving DecidableEq, Repr

inductive FrameSeq where
  | single | first | middle | last
  deriving DecidableEq, Repr

structure FrameHeader where
  fin : Bool := false
  rsv1 : Bool := false
  rsv2 : Bool := false
  rsv3 : Bool := false
  maskFlag : Bool := false
  smallSize : UInt8 := 0
  sizeType : WSFrameSizeType := .min
  opcode : OpCode := .continuation
  fseq : FrameSeq := .single
  mediumSize : Fin 2 → UInt8 := fun _ => 0
  largeSize : Fin 8 → UInt8 := fun _ => 0
  mask : Fin 4 → UInt8 := fun _ => 0
  msgSize : Nat := 0

structure Result where
  cursor : Nat
  directive : Directive
  cCode : DefiniteCloseCode
  deriving DecidableEq, Repr

/-- The members of a parser. `opcodes` is the stack, its top first. -/
structure Parser where
  mPLBytesReady : Nat := 0
  mMaxMSGSize : Nat := 0
  mOutMSGPreSize : Nat
  mHeader : FrameHeader := {}
  opcodes : List OpCode := []
  message : List UInt8
  messageFrames : List UInt8
  mBufferQueue : List (List UInt8) := []
  mState : State := .init
  MASK : Nat := 0

/-- `WSEvent`: an opcode and a payload. -/
structure WSEvent where
  type : OpCode
  message : List UInt8
  deriving DecidableEq, Repr

inductive Role where
  | server | client
  deriving DecidableEq, Repr

namespace Parser

/-- The constructor. -/
def new (presz : Nat) : Parser :=
  { mOutMSGPreSize := presz, message := resize [] presz, messageFrames := resize [] presz }

def setMaxMSGSize (p : Parser) (mms : Nat) : Parser := { p with mMaxMSGSize := mms }

def reset (p : Parser) : Parser :=
  { p with mState := .header1stByte, mPLBytesReady := 0, mHeader := {} }

/-- The buffer for the next message and the queue it leaves. -/
def getBuffer (p : Parser) : List UInt8 × List (List UInt8) :=
  match p.mBufferQueue with
  | [] => (resize [] p.mOutMSGPreSize, [])
  | tmp :: rest => (resize tmp p.mOutMSGPreSize, rest)

def returnBuffer (p : Parser) (buff : List UInt8) : Parser :=
  { p with mBufferQueue := buff :: p.mBufferQueue }

end Parser

def isOpCodeSupported (opcode : OpCode) : Bool :=
  opcode.toByte == 0 || opcode.toByte == 1 || opcode.toByte == 2 ||
    opcode.toByte == 8 || opcode.toByte == 9 || opcode.toByte == 10

open DefiniteCloseCode

/-! ### The header -/

def getHeader1stByte (p : Parser) (stream : List UInt8) (offset : Nat) : Result × Parser :=
  if offset < stream.length then
    let b := stream[offset]!
    let p := { p with
      mHeader := { p.mHeader with
        fin := b &&& 128 != 0
        rsv1 := b &&& 64 != 0
        rsv2 := b &&& 32 != 0
        rsv3 := b &&& 16 != 0
        opcode := OpCode.ofByte b } }
    if p.mHeader.rsv1 || p.mHeader.rsv2 || p.mHeader.rsv3 then
      (⟨offset, .closeWithCode, protocolViolation⟩, p)
    else if !isOpCodeSupported p.mHeader.opcode then (⟨offset, .closeWithCode, noComprende⟩, p)
    else (⟨offset + 1, .continue_, normal⟩, { p with mState := .header2dnByte })
  else (⟨0, .more, normal⟩, p)

/-- A server accepts masked frames only, a client unmasked ones only. -/
def Role.requiresMask : Role → Bool
  | .server => true
  | .client => false

def getHeader2ndByte (role : Role) (p : Parser) (stream : List UInt8) (offset : Nat) : Result × Parser :=
  if offset < stream.length then
    let b := stream[offset]!
    let p := { p with mHeader := { p.mHeader with maskFlag := b &&& 128 != 0 } }
    if p.mHeader.maskFlag != role.requiresMask then (⟨offset, .closeWithCode, protocolViolation⟩, p)
    else
      let small := b &&& 127
      let p :=
        if small.toNat < 126 then
          { p with
            mHeader := { p.mHeader with smallSize := small, sizeType := .min, msgSize := small.toNat }
            mState := .readMask 0 }
        else if small.toNat = 126 then
          { p with
            mHeader := { p.mHeader with smallSize := small, sizeType := .short }
            mState := .readShortSize0 }
        else
          { p with
            mHeader := { p.mHeader with smallSize := small, sizeType := .long }
            mState := .readLongSize 0 }
      (⟨offset + 1, .continue_, normal⟩, p)
  else (⟨0, .more, normal⟩, p)

/-- The end of `READ_SHORT_SIZE_1` and of `READ_LONG_SIZE_7`: the length is known. -/
def sizeRead (p : Parser) (stream : List UInt8) (cursor size : Nat) : Result × Parser :=
  let p := { p with mHeader := { p.mHeader with msgSize := size } }
  if size > p.mMaxMSGSize then (⟨cursor, .closeWithCode, messageTooBig⟩, p)
  else
    let p := { p with mState := .readMask 0 }
    if cursor + 1 = stream.length then (⟨0, .more, normal⟩, p)
    else (⟨cursor + 1, .continue_, normal⟩, p)

def readShortSize1 (p : Parser) (stream : List UInt8) (cursor : Nat) : Result × Parser :=
  let medium := Function.update p.mHeader.mediumSize 1 stream[cursor]!
  sizeRead { p with mHeader := { p.mHeader with mediumSize := medium } } stream cursor
    (beToNat [medium 0, medium 1])

def readShortSize0 (p : Parser) (stream : List UInt8) (cursor : Nat) : Result × Parser :=
  let medium := Function.update p.mHeader.mediumSize 0 stream[cursor]!
  let p := { p with mHeader := { p.mHeader with mediumSize := medium }, mState := .readShortSize1 }
  if cursor + 1 = stream.length then (⟨cursor + 1, .more, normal⟩, p)
  else readShortSize1 p stream (cursor + 1)

/-- `READ_LONG_SIZE_i`, falling through to the next byte of the length. -/
def readLongSize (p : Parser) (stream : List UInt8) (cursor : Nat) (i : Fin 8) : Result × Parser :=
  let large := Function.update p.mHeader.largeSize i stream[cursor]!
  let p := { p with mHeader := { p.mHeader with largeSize := large } }
  if h : i.val < 7 then
    let p := { p with mState := .readLongSize ⟨i.val + 1, by omega⟩ }
    if cursor + 1 = stream.length then (⟨0, .more, normal⟩, p)
    else readLongSize p stream (cursor + 1) ⟨i.val + 1, by omega⟩
  else
    sizeRead p stream cursor (beToNat (List.ofFn large))
termination_by 7 - i.val

def readSIZE (p : Parser) (stream : List UInt8) (offset : Nat) : Result × Parser :=
  if offset < stream.length then
    match p.mState with
    | .readShortSize0 => readShortSize0 p stream offset
    | .readShortSize1 => readShortSize1 p stream offset
    | .readLongSize i => readLongSize p stream offset i
    | _ => (⟨offset, .continue_, normal⟩, p)
  else (⟨0, .more, normal⟩, p)

/-- `READ_MASK_i` of the server parser, falling through to the next byte of the key. -/
def readMaskByte (p : Parser) (stream : List UInt8) (cursor : Nat) (i : Fin 4) : Result × Parser :=
  let mask := Function.update p.mHeader.mask i stream[cursor]!
  let p := { p with mHeader := { p.mHeader with mask := mask } }
  if h : i.val < 3 then
    let p := { p with mState := .readMask ⟨i.val + 1, by omega⟩ }
    if cursor + 1 = stream.length then (⟨cursor + 1, .more, normal⟩, p)
    else readMaskByte p stream (cursor + 1) ⟨i.val + 1, by omega⟩
  else
    let p := { p with MASK := keyWord mask, mState := .validate }
    if cursor + 1 = stream.length ∧ p.mHeader.msgSize ≠ 0 then (⟨0, .more, normal⟩, p)
    else (⟨cursor + 1, .continue_, normal⟩, p)
termination_by 3 - i.val

def readMASK (p : Parser) (stream : List UInt8) (offset : Nat) : Result × Parser :=
  if offset < stream.length then
    match p.mState with
    | .readMask i => readMaskByte p stream offset i
    | _ => (⟨offset, .continue_, normal⟩, p)
  else (⟨0, .more, normal⟩, p)

/-- The `READ_MASK_0..3` cases of `parse`: the client parser has no key to read. -/
def Role.readMASK : Role → Parser → List UInt8 → Nat → Result × Parser
  | .server, p, stream, offset => StreamProcessing.readMASK p stream offset
  | .client, p, _, offset => (⟨offset, .continue_, normal⟩, { p with mState := .validate })

def validateHeader (p : Parser) (cursor : Nat) : Result × Parser :=
  let h := p.mHeader
  let controlOpCode := h.opcode = .close ∨ h.opcode = .ping ∨ h.opcode = .pong
  let dataOpCode := h.opcode = .text ∨ h.opcode = .binary
  let valid (p : Parser) : Result × Parser :=
    (⟨cursor, .continue_, normal⟩, { p with mState := .payload })
  let violation : Result × Parser := (⟨cursor, .closeWithCode, protocolViolation⟩, p)
  if ¬h.fin ∧ controlOpCode then violation
  else if ¬(h.fin ∧ controlOpCode) then
    if h.fin ∧ dataOpCode ∧ p.opcodes = [] then valid { p with mHeader := { h with fseq := .single } }
    else if ¬h.fin ∧ dataOpCode ∧ p.opcodes = [] then
      valid { p with mHeader := { h with fseq := .first }, opcodes := h.opcode :: p.opcodes }
    else if ¬h.fin ∧ h.opcode = .continuation ∧ p.opcodes ≠ [] then
      valid { p with mHeader := { h with fseq := .middle } }
    else if h.fin ∧ h.opcode = .continuation ∧ p.opcodes ≠ [] then
      -- the opcode of the first fragment is restored
      valid { p with
        mHeader := { h with fseq := .last, opcode := p.opcodes.headD .continuation }
        opcodes := p.opcodes.tail }
    else violation
  else if h.msgSize = 0 then
    if h.opcode = .close then (⟨cursor, .closeWithCode, normal⟩, p) else valid p
  else if h.msgSize > 125 then violation
  else valid p

/-! ### The payload -/

/-- A payload buffer being filled: the buffer, the cursor in the stream and `mPLBytesReady`. -/
structure Copied where
  buf : List UInt8
  cursor : Nat
  ready : Nat

/-- The byte-wise loops: up to the alignment of the mask, or to the end. -/
def xorBytes (key : Fin 4 → UInt8) (size base : Nat) (aligning : Bool) (stream : List UInt8)
    (s : Copied) : Copied :=
  if s.ready < size ∧ s.cursor < stream.length ∧ (aligning → s.ready % 4 ≠ 0) then
    xorBytes key size base aligning stream
      ⟨s.buf.set (base + s.ready) (stream[s.cursor]! ^^^ key (Fin.ofNat 4 s.ready)), s.cursor + 1,
        s.ready + 1⟩
  else s
termination_by stream.length - s.cursor

/-- The word-wise loop. -/
def xorWords (mask size base : Nat) (stream : List UInt8) (s : Copied) : Copied :=
  if s.ready + 8 ≤ size ∧ s.cursor + 8 ≤ stream.length then
    xorWords mask size base stream
      ⟨writeBytes s.buf (base + s.ready)
        (leBytes 8 (leToNat ((stream.drop s.cursor).take 8) ^^^ mask)), s.cursor + 8, s.ready + 8⟩
  else s
termination_by stream.length - s.cursor

/-- The payload bytes at `cursor`, unmasked into `buf` from `base + mPLBytesReady` on. -/
def unmask (p : Parser) (stream buf : List UInt8) (base cursor : Nat) : Copied :=
  let s : Copied := ⟨buf, cursor, p.mPLBytesReady⟩
  let s :=
    if stream.length - cursor ≥ 16 then
      xorWords p.MASK p.mHeader.msgSize base stream
        (xorBytes p.mHeader.mask p.mHeader.msgSize base true stream s)
    else s
  xorBytes p.mHeader.mask p.mHeader.msgSize base false stream s

/-- The client parser's `memcpy`. -/
def copy (p : Parser) (stream buf : List UInt8) (base cursor : Nat) : Copied :=
  let offs := stream.length - cursor
  let copyBytes :=
    if p.mPLBytesReady + offs > p.mHeader.msgSize then p.mHeader.msgSize - p.mPLBytesReady else offs
  ⟨writeBytes buf (base + p.mPLBytesReady) ((stream.drop cursor).take copyBytes),
    cursor + copyBytes, p.mPLBytesReady + copyBytes⟩

def Role.store : Role → Parser → List UInt8 → List UInt8 → Nat → Nat → Copied
  | .server => unmask
  | .client => copy

/-- What follows the loops in both branches of `processPayload`. -/
def payloadRead (role : Role) (p : Parser) (stream : List UInt8) (cursor : Nat) : Result × Parser :=
  if p.mPLBytesReady = p.mHeader.msgSize then
    (⟨cursor, .continue_, normal⟩, { p with mState := .done })
  else (⟨if role = .client ∧ cursor ≠ stream.length then cursor else 0, .more, normal⟩, p)

/-- The buffer of the frame is sized when the payload begins. `none` means that the fragments
together are too big. -/
def sizeBuffer (p : Parser) (stream : List UInt8) (cursor : Nat) : Option Parser :=
  let size := p.mHeader.msgSize
  match p.mHeader.fseq with
  | .single => some (if p.mPLBytesReady = 0 then { p with message := resize p.message size } else p)
  | .first =>
    some (if p.mPLBytesReady = 0 then { p with messageFrames := resize p.messageFrames size } else p)
  | .middle | .last =>
    if p.mPLBytesReady = 0 ∧ cursor ≠ stream.length then
      if (p.messageFrames.length + size) % 2 ^ 64 > p.mMaxMSGSize then none
      else some { p with messageFrames := resize p.messageFrames (p.messageFrames.length + size) }
    else some p

/-- The loops, into `message` for a single frame and behind the earlier fragments otherwise. -/
def storePayload (role : Role) (p : Parser) (stream : List UInt8) (cursor : Nat) : Result × Parser :=
  match p.mHeader.fseq with
  | .single =>
    let s := role.store p stream p.message 0 cursor
    payloadRead role { p with message := s.buf, mPLBytesReady := s.ready } stream s.cursor
  | .first | .middle | .last =>
    let used := p.messageFrames.length - p.mHeader.msgSize
    let s := role.store p stream p.messageFrames used cursor
    payloadRead role { p with messageFrames := s.buf, mPLBytesReady := s.ready } stream s.cursor

def processPayload (role : Role) (p : Parser) (stream : List UInt8) (offset : Nat) : Result × Parser :=
  match sizeBuffer p stream offset with
  | none => (⟨offset, .closeWithCode, messageTooBig⟩, p)
  | some p => storePayload role p stream offset

/-- `decideOnDone`. For the first and the middle fragments the source calls `parse` again; here
`CONTINUE` asks `parse` to do so. -/
def decideOnDone (p : Parser) (cursor : Nat) : Result × Parser :=
  match p.mHeader.fseq with
  | .single | .last => (⟨cursor, .takeReadyMessage, normal⟩, { p with mState := .messageReady })
  | .first | .middle => (⟨cursor, .continue_, normal⟩, { p with mState := .init })

/-! ### The switch of `parse` -/

/-- The next case of the switch, when the result so far is `CONTINUE`. -/
def andThen (r : Result × Parser) (next : Parser → Nat → Result × Parser) : Result × Parser :=
  if r.1.directive = .continue_ then next r.2 r.1.cursor else r

def fromValidate (role : Role) (stream : List UInt8) (p : Parser) (cursor : Nat) : Result × Parser :=
  andThen (validateHeader p cursor) fun p cursor => processPayload role p stream cursor

def fromMask (role : Role) (stream : List UInt8) (p : Parser) (cursor : Nat) : Result × Parser :=
  andThen (role.readMASK p stream cursor) (fromValidate role stream)

def fromSize (role : Role) (stream : List UInt8) (p : Parser) (cursor : Nat) : Result × Parser :=
  andThen (readSIZE p stream cursor) (fromMask role stream)

def fromHeader2 (role : Role) (stream : List UInt8) (p : Parser) (cursor : Nat) : Result × Parser :=
  andThen (getHeader2ndByte role p stream cursor) (fromSize role stream)

def fromHeader1 (role : Role) (stream : List UInt8) (p : Parser) (cursor : Nat) : Result × Parser :=
  andThen (getHeader1stByte p stream cursor) (fromHeader2 role stream)

/-- The switch up to `DONE`, which it reaches with `CONTINUE`. -/
def toDone (role : Role) (p : Parser) (stream : List UInt8) (offset : Nat) :
    Except String (Result × Parser) :=
  match p.mState with
  | .init => .ok (fromHeader1 role stream p.reset offset)
  | .header1stByte => .ok (fromHeader1 role stream p offset)
  | .header2dnByte => .ok (fromHeader2 role stream p offset)
  | .readShortSize0 | .readShortSize1 | .readLongSize _ => .ok (fromSize role stream p offset)
  | .readMask _ => .ok (fromMask role stream p offset)
  | .validate => .ok (fromValidate role stream p offset)
  | .payload => .ok (processPayload role p stream offset)
  | .done => .ok (⟨offset, .continue_, normal⟩, p)
  | .messageReady => .error
      "WSStreamParser::parse() - switch case is out of options. Never should have happened. Blame the programmer"

end LAppS.StreamProcessing
