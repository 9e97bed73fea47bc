import LAppS.StreamProcessing.Reassembly

/-!
# Unmasking

From any position within a frame the server's `processPayload`, whose loops go byte by byte up to a multiple
of four, then word by word, then byte by byte again, stores what a loop over the bytes would.
-/

namespace LAppS.StreamProcessing
open Bytes DefiniteCloseCode

variable {p q : Parser} {stream : List UInt8} {cursor : Nat}

/-- Where the payload of the frame starts in its buffer. -/
def Parser.payloadStart (p : Parser) : Nat :=
  match p.mHeader.fseq with
  | .single => 0
  | .first | .middle | .last => p.messageFrames.length - p.mHeader.msgSize

/-- The parser with other contents in the buffer of the frame. -/
def Parser.setFrameBuffer (p : Parser) (buf : List UInt8) : Parser :=
  match p.mHeader.fseq with
  | .single => { p with message := buf }
  | .first | .middle | .last => { p with messageFrames := buf }

/-- Byte-wise unmasking of the next `k` bytes of the stream, with `q` the parser whose buffer is sized: the
buffer has them at the positions of the payload from `mPLBytesReady` on, and is otherwise as before. -/
structure UnmaskedInto (q : Parser) (stream : List UInt8) (cursor k : Nat) (buf : List UInt8) : Prop where
  length : buf.length = q.frameBuffer.length
  stored : ∀ i < k, buf[q.payloadStart + (q.mPLBytesReady + i)]? =
    some (stream[cursor + i]! ^^^ q.mHeader.mask (Fin.ofNat 4 (q.mPLBytesReady + i)))
  others : ∀ j, j < q.payloadStart + q.mPLBytesReady ∨ q.payloadStart + (q.mPLBytesReady + k) ≤ j →
    buf[j]? = q.frameBuffer[j]?

/-- The bytes that both the frame and the stream still have. -/
def Parser.room (p : Parser) (stream : List UInt8) (cursor : Nat) : Nat :=
  min (p.mHeader.msgSize - p.mPLBytesReady) (stream.length - cursor)

/-- What a call of `processPayload` returns that unmasks all the bytes there are. -/
def Unmasks (q : Parser) (stream : List UInt8) (cursor : Nat) (result : Result × Parser) : Prop :=
  let k := q.room stream cursor
  ∃ buf, UnmaskedInto q stream cursor k buf ∧
    result = payloadRead .server { q.setFrameBuffer buf with mPLBytesReady := q.mPLBytesReady + k } stream (cursor + k)

theorem unmaskedInto_advance (fits : q.room stream cursor = 0 ∨ q.payloadStart + q.mHeader.msgSize ≤ q.frameBuffer.length)
    (ready : q.mPLBytesReady ≤ q.mHeader.msgSize) :
    UnmaskedInto q stream cursor (q.room stream cursor)
      (Copied.advance q.mHeader.mask q.payloadStart stream ⟨q.frameBuffer, cursor, q.mPLBytesReady⟩
        (q.room stream cursor)).buf := by
  generalize hk : q.room stream cursor = k at fits
  have within : k ≤ q.mHeader.msgSize - q.mPLBytesReady := hk ▸ Nat.min_le_left _ _
  have inside : k ≤ stream.length - cursor := hk ▸ Nat.min_le_right _ _
  have len : (maskFrom q.mHeader.mask q.mPLBytesReady ((stream.drop cursor).take k)).length = k := by
    rw [length_maskFrom, List.length_take, List.length_drop]
    omega
  have index : ∀ j, (Copied.advance q.mHeader.mask q.payloadStart stream
      ⟨q.frameBuffer, cursor, q.mPLBytesReady⟩ k).buf[j]? =
      if q.payloadStart + q.mPLBytesReady ≤ j ∧ j < q.payloadStart + q.mPLBytesReady + k then
        (maskFrom q.mHeader.mask q.mPLBytesReady ((stream.drop cursor).take k))[j - (q.payloadStart + q.mPLBytesReady)]?
      else q.frameBuffer[j]? := by
    intro j
    by_cases none : k = 0
    · subst none
      rw [Copied.advance_zero, if_neg (by omega)]
    · have written := getElem?_writeBytes q.frameBuffer (q.payloadStart + q.mPLBytesReady)
        (maskFrom q.mHeader.mask q.mPLBytesReady ((stream.drop cursor).take k)) (by omega) j
      rwa [len] at written
  refine ⟨by simp [Copied.advance], ?_, ?_⟩
  · intro i hi
    have there : cursor + i < stream.length := by omega
    rw [index, if_pos (by omega), getElem?_maskFrom, show q.payloadStart + (q.mPLBytesReady + i) -
      (q.payloadStart + q.mPLBytesReady) = i by omega, List.getElem?_take_of_lt hi, List.getElem?_drop,
      List.getElem?_eq_getElem there, getElem!_pos stream _ there]
    rfl
  · intro j hj
    rw [index, if_neg (by omega)]

/-- A parser whose buffer holds the payload of the frame unmasks byte by byte. -/
theorem storePayload_unmasks (key : q.MASK = keyWord q.mHeader.mask) (ready : q.mPLBytesReady ≤ q.mHeader.msgSize)
    (fits : q.room stream cursor = 0 ∨ q.payloadStart + q.mHeader.msgSize ≤ q.frameBuffer.length) :
    Unmasks q stream cursor (storePayload .server q stream cursor) := by
  refine ⟨_, unmaskedInto_advance fits ready, ?_⟩
  have loops := unmask_eq q.payloadStart stream q q.frameBuffer cursor key
  unfold storePayload Parser.setFrameBuffer
  unfold Parser.payloadStart Parser.frameBuffer at *
  cases fseq : q.mHeader.fseq <;>
  · simp only [fseq] at loops ⊢
    simp only [Role.store, loops]
    rfl

/-! ### The buffer of the frame -/

/-- A fragment but the first one is refused when its payload begins, with a byte of it there, and would make the fragments
bigger than a message may be. -/
def Parser.Refuses (p : Parser) (stream : List UInt8) (cursor : Nat) : Prop :=
  (p.mHeader.fseq = .middle ∨ p.mHeader.fseq = .last) ∧ p.mPLBytesReady = 0 ∧ cursor ≠ stream.length ∧
    p.mMaxMSGSize < (p.messageFrames.length + p.mHeader.msgSize) % 2 ^ 64

instance (p : Parser) (stream : List UInt8) (cursor : Nat) : Decidable (p.Refuses stream cursor) := by
  unfold Parser.Refuses
  infer_instance

/-- The length of the buffer of the frame: a payload that begins has room for all of it, behind the earlier fragments. -/
def Parser.bufferSize (p : Parser) (stream : List UInt8) (cursor : Nat) : Nat :=
  match p.mHeader.fseq with
  | .single | .first => if p.mPLBytesReady = 0 then p.mHeader.msgSize else p.frameBuffer.length
  | .middle | .last =>
    if p.mPLBytesReady = 0 ∧ cursor ≠ stream.length then p.frameBuffer.length + p.mHeader.msgSize else p.frameBuffer.length

def Parser.sized (p : Parser) (stream : List UInt8) (cursor : Nat) : Parser :=
  p.setFrameBuffer (resize p.frameBuffer (p.bufferSize stream cursor))

@[simp] theorem setFrameBuffer_MASK (buf : List UInt8) : (p.setFrameBuffer buf).MASK = p.MASK := by
  unfold Parser.setFrameBuffer
  split <;> rfl

@[simp] theorem setFrameBuffer_mHeader (buf : List UInt8) : (p.setFrameBuffer buf).mHeader = p.mHeader := by
  unfold Parser.setFrameBuffer
  split <;> rfl

@[simp] theorem setFrameBuffer_mPLBytesReady (buf : List UInt8) :
    (p.setFrameBuffer buf).mPLBytesReady = p.mPLBytesReady := by
  unfold Parser.setFrameBuffer
  split <;> rfl

@[simp] theorem setFrameBuffer_frameBuffer (buf : List UInt8) : (p.setFrameBuffer buf).frameBuffer = buf := by
  unfold Parser.setFrameBuffer Parser.frameBuffer
  cases fseq : p.mHeader.fseq <;> simp [fseq]

theorem setFrameBuffer_self (p : Parser) : p.setFrameBuffer p.frameBuffer = p := by
  unfold Parser.setFrameBuffer Parser.frameBuffer
  cases fseq : p.mHeader.fseq <;> rfl

theorem sizeBuffer_eq (p : Parser) (stream : List UInt8) (cursor : Nat) :
    sizeBuffer p stream cursor = if p.Refuses stream cursor then none else some (p.sized stream cursor) := by
  cases fseq : p.mHeader.fseq with
  | single | first =>
    by_cases begins : p.mPLBytesReady = 0 <;>
      simp [sizeBuffer, Parser.Refuses, Parser.sized, Parser.bufferSize, Parser.setFrameBuffer, Parser.frameBuffer, fseq,
        begins]
  | middle | last =>
    by_cases begins : p.mPLBytesReady = 0 ∧ cursor ≠ stream.length
    · simp [sizeBuffer, Parser.Refuses, Parser.sized, Parser.bufferSize, Parser.setFrameBuffer, Parser.frameBuffer, fseq,
        begins]
    · have accepts : ¬p.Refuses stream cursor := fun refuses => begins ⟨refuses.2.1, refuses.2.2.1⟩
      have same : p.bufferSize stream cursor = p.frameBuffer.length := by
        simp only [Parser.bufferSize, fseq, if_neg begins]
      rw [if_neg accepts, Parser.sized, same, resize_length, setFrameBuffer_self]
      simp only [sizeBuffer, fseq, if_neg begins]

/-- The buffer that is sized holds the payload, if there is anything to store. -/
theorem sized_fits (begun : p.mPLBytesReady ≠ 0 → p.mHeader.msgSize ≤ p.frameBuffer.length) :
    (p.sized stream cursor).room stream cursor = 0 ∨
      (p.sized stream cursor).payloadStart + p.mHeader.msgSize ≤ (p.sized stream cursor).frameBuffer.length := by
  simp only [Parser.room, Parser.sized, setFrameBuffer_mHeader, setFrameBuffer_mPLBytesReady, setFrameBuffer_frameBuffer,
    length_resize]
  cases fseq : p.mHeader.fseq with
  | single | first =>
    right
    simp only [Parser.payloadStart, Parser.setFrameBuffer, Parser.bufferSize, fseq, length_resize]
    split <;> grind
  | middle | last =>
    simp only [Parser.payloadStart, Parser.setFrameBuffer, Parser.bufferSize, fseq, length_resize]
    split <;> grind

/-- From any position within the frame, for any key, size, stream and cursor, `processPayload` unmasks byte by
byte all that the frame and the stream still have, unless it refuses the fragment as too big and leaves the
parser as it was. A frame whose payload has begun has its buffer. -/
theorem processPayload_unmasks (p : Parser) (stream : List UInt8) (cursor : Nat)
    (key : p.MASK = keyWord p.mHeader.mask) (ready : p.mPLBytesReady ≤ p.mHeader.msgSize)
    (begun : p.mPLBytesReady ≠ 0 → p.mHeader.msgSize ≤ p.frameBuffer.length) :
    (p.Refuses stream cursor →
      processPayload .server p stream cursor = (⟨cursor, .closeWithCode, messageTooBig⟩, p)) ∧
    (¬p.Refuses stream cursor →
      Unmasks (p.sized stream cursor) stream cursor (processPayload .server p stream cursor)) := by
  unfold processPayload
  rw [sizeBuffer_eq]
  refine ⟨fun refuses => by rw [if_pos refuses], fun accepts => ?_⟩
  rw [if_neg accepts]
  refine storePayload_unmasks ?_ ?_ ?_
  · simpa [Parser.sized] using key
  · simpa [Parser.sized] using ready
  · simpa [Parser.sized] using sized_fits begun

/-- A middle fragment of 30 bytes, resumed at its seventh: 23 bytes are left, one of them aligns to the key. -/
def resumed : Parser where
  mOutMSGPreSize := 0
  mMaxMSGSize := 64
  mPLBytesReady := 7
  mHeader := { fseq := .middle, msgSize := 30, mask := fun i => UInt8.ofNat (i + 1) }
  message := []
  messageFrames := List.replicate 32 0
  mState := .payload
  MASK := keyWord fun i => UInt8.ofNat (i + 1)

theorem processPayload_unmasks_resumed :
    ¬resumed.Refuses (List.replicate 18 5) 1 ∧ resumed.sized (List.replicate 18 5) 1 = resumed ∧
      Unmasks resumed (List.replicate 18 5) 1 (processPayload .server resumed (List.replicate 18 5) 1) :=
  have accepts : ¬resumed.Refuses (List.replicate 18 5) 1 := by decide
  ⟨accepts, rfl, (processPayload_unmasks resumed (List.replicate 18 5) 1 rfl (by decide) (by decide)).2 accepts⟩

end LAppS.StreamProcessing
