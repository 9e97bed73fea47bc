import LAppS.StreamProcessing.Payload

/-!
# The bounds of the payload

The loops of `processPayload` once more, with a fault where an access is outside of its buffer. There is none if the
frame has its place in the buffer, which is sized by the call that opens the frame.
-/

namespace LAppS.StreamProcessing
open Rfc6455 Bytes DefiniteCloseCode

/-! ### The loops with their accesses checked -/

/-- A read of `n` bytes, all of them in the buffer. -/
def readChecked (buf : List UInt8) (i n : Nat) : Option (List UInt8) :=
  if i + n ≤ buf.length then some ((buf.drop i).take n) else none

/-- A write of bytes, all of them in the buffer. -/
def writeChecked (buf : List UInt8) (i : Nat) (bs : List UInt8) : Option (List UInt8) :=
  if i + bs.length ≤ buf.length then some (writeBytes buf i bs) else none

def xorBytesChecked (key : Fin 4 → UInt8) (size base : Nat) (aligning : Bool) (stream : List UInt8)
    (s : Copied) : Option Copied :=
  if _h : s.ready < size ∧ s.cursor < stream.length ∧ (aligning → s.ready % 4 ≠ 0) then do
    let b ← stream[s.cursor]?
    let buf ← writeChecked s.buf (base + s.ready) [b ^^^ key (Fin.ofNat 4 s.ready)]
    xorBytesChecked key size base aligning stream ⟨buf, s.cursor + 1, s.ready + 1⟩
  else some s
termination_by stream.length - s.cursor

def xorWordsChecked (mask size base : Nat) (stream : List UInt8) (s : Copied) : Option Copied :=
  if _h : s.ready + 8 ≤ size ∧ s.cursor + 8 ≤ stream.length then do
    let word ← readChecked stream s.cursor 8
    let buf ← writeChecked s.buf (base + s.ready) (leBytes 8 (leToNat word ^^^ mask))
    xorWordsChecked mask size base stream ⟨buf, s.cursor + 8, s.ready + 8⟩
  else some s
termination_by stream.length - s.cursor

/-- The loops of `unmask` before the last one. -/
def unmaskWordsChecked (p : Parser) (stream buf : List UInt8) (base cursor : Nat) : Option Copied :=
  let s : Copied := ⟨buf, cursor, p.mPLBytesReady⟩
  if stream.length - cursor ≥ 16 then do
    let s ← xorBytesChecked p.mHeader.mask p.mHeader.msgSize base true stream s
    xorWordsChecked p.MASK p.mHeader.msgSize base stream s
  else some s

def unmaskChecked (p : Parser) (stream buf : List UInt8) (base cursor : Nat) : Option Copied := do
  let s ← unmaskWordsChecked p stream buf base cursor
  xorBytesChecked p.mHeader.mask p.mHeader.msgSize base false stream s

def copyChecked (p : Parser) (stream buf : List UInt8) (base cursor : Nat) : Option Copied := do
  let offs := stream.length - cursor
  let copyBytes :=
    if p.mPLBytesReady + offs > p.mHeader.msgSize then p.mHeader.msgSize - p.mPLBytesReady else offs
  let bytes ← readChecked stream cursor copyBytes
  let buf ← writeChecked buf (base + p.mPLBytesReady) bytes
  return ⟨buf, cursor + copyBytes, p.mPLBytesReady + copyBytes⟩

def Role.storeChecked : Role → Parser → List UInt8 → List UInt8 → Nat → Nat → Option Copied
  | .server => unmaskChecked
  | .client => copyChecked

/-- A loop takes some of the bytes that both the frame and the stream still have, and keeps the size of the buffer. -/
def Copied.Moves (size : Nat) (stream : List UInt8) (s s' : Copied) : Prop :=
  ∃ j ≤ s.room size stream, s'.cursor = s.cursor + j ∧ s'.ready = s.ready + j ∧ s'.buf.length = s.buf.length

section Loops

variable {key : Fin 4 → UInt8} {mask size base : Nat} {stream : List UInt8} {s s' : Copied}

theorem Copied.Moves.trans {s'' : Copied} (h : s.Moves size stream s') (h' : s'.Moves size stream s'') :
    s.Moves size stream s'' := by
  obtain ⟨j, hj, cursor, ready, length⟩ := h
  obtain ⟨k, hk, cursor', ready', length'⟩ := h'
  refine ⟨j + k, ?_, by omega, by omega, length'.trans length⟩
  simp only [Copied.room] at hj hk ⊢
  omega

theorem xorBytes_moves (aligning : Bool) (s : Copied) :
    s.Moves size stream (xorBytes key size base aligning stream s) := by
  obtain ⟨j, hj, eq, -⟩ := xorBytes_advance key size base stream aligning s
  rw [eq]
  exact ⟨j, hj, rfl, rfl, length_writeBytes _ _ _⟩

theorem xorWords_moves (s : Copied) : s.Moves size stream (xorWords mask size base stream s) := by
  fun_induction xorWords mask size base stream s with
  | case1 s h ih =>
    refine Copied.Moves.trans ⟨8, ?_, rfl, rfl, length_writeBytes _ _ _⟩ ih
    simp only [Copied.room]
    omega
  | case2 s h => exact ⟨0, Nat.zero_le _, rfl, rfl, rfl⟩

/-- The last loop takes all there is. -/
theorem xorBytes_all (s : Copied) :
    (xorBytes key size base false stream s).cursor = s.cursor + s.room size stream ∧
      (xorBytes key size base false stream s).ready = s.ready + s.room size stream := by
  rw [xorBytes_room]
  exact ⟨rfl, rfl⟩

theorem xorBytesChecked_eq (aligning : Bool) (s : Copied) (fits : base + size ≤ s.buf.length) :
    xorBytesChecked key size base aligning stream s = some (xorBytes key size base aligning stream s) := by
  fun_induction xorBytes key size base aligning stream s with
  | case1 s h ih =>
    have room : base + s.ready + [stream[s.cursor]! ^^^ key (Fin.ofNat 4 s.ready)].length ≤ s.buf.length := by
      simp only [List.length_singleton]
      omega
    have read : stream[s.cursor]? = some stream[s.cursor]! := by
      rw [List.getElem?_eq_getElem h.2.1, getElem!_pos stream _ h.2.1]
    rw [xorBytesChecked, dif_pos h, read]
    show (writeChecked s.buf (base + s.ready) [stream[s.cursor]! ^^^ key (Fin.ofNat 4 s.ready)] >>= _) = _
    rw [writeChecked, if_pos room]
    exact ih (by rw [List.length_set]; exact fits)
  | case2 s h => rw [xorBytesChecked, dif_neg h]

theorem xorWordsChecked_eq (s : Copied) (fits : base + size ≤ s.buf.length) :
    xorWordsChecked mask size base stream s = some (xorWords mask size base stream s) := by
  fun_induction xorWords mask size base stream s with
  | case1 s h ih =>
    have length : (leBytes 8 (leToNat ((stream.drop s.cursor).take 8) ^^^ mask)).length = 8 := length_leBytes _ _
    rw [xorWordsChecked, dif_pos h, readChecked, if_pos h.2]
    show (writeChecked s.buf (base + s.ready) (leBytes 8 (leToNat ((stream.drop s.cursor).take 8) ^^^ mask)) >>= _) = _
    rw [writeChecked, if_pos (by omega)]
    exact ih (by rw [length_writeBytes]; exact fits)
  | case2 s h => rw [xorWordsChecked, dif_neg h]

end Loops

/-- What `unmask` has stored before its last loop. -/
def unmaskWords (p : Parser) (stream buf : List UInt8) (base cursor : Nat) : Copied :=
  let s : Copied := ⟨buf, cursor, p.mPLBytesReady⟩
  if stream.length - cursor ≥ 16 then
    xorWords p.MASK p.mHeader.msgSize base stream (xorBytes p.mHeader.mask p.mHeader.msgSize base true stream s)
  else s

section Stores

variable (role : Role) (p : Parser) (stream buf : List UInt8) (base cursor : Nat)

theorem unmaskWords_moves :
    Copied.Moves p.mHeader.msgSize stream ⟨buf, cursor, p.mPLBytesReady⟩ (unmaskWords p stream buf base cursor) := by
  unfold unmaskWords
  dsimp only
  split
  · exact (xorBytes_moves true _).trans (xorWords_moves _)
  · exact ⟨0, Nat.zero_le _, rfl, rfl, rfl⟩

theorem unmask_eq_xorBytes :
    unmask p stream buf base cursor =
      xorBytes p.mHeader.mask p.mHeader.msgSize base false stream (unmaskWords p stream buf base cursor) := rfl

/-- A store takes all the bytes that both the frame and the stream have, and keeps the size of the buffer. -/
theorem store_moves :
    let room := Copied.room p.mHeader.msgSize stream ⟨buf, cursor, p.mPLBytesReady⟩
    (role.store p stream buf base cursor).cursor = cursor + room ∧
      (role.store p stream buf base cursor).ready = p.mPLBytesReady + room ∧
      (role.store p stream buf base cursor).buf.length = buf.length := by
  cases role with
  | server =>
    obtain ⟨j, hj, cursor', ready', length'⟩ := unmaskWords_moves p stream buf base cursor
    have last : (unmask p stream buf base cursor).buf.length = (unmaskWords p stream buf base cursor).buf.length := by
      rw [unmask_eq_xorBytes, xorBytes_room]
      exact length_writeBytes _ _ _
    have all := @xorBytes_all p.mHeader.mask p.mHeader.msgSize base stream (unmaskWords p stream buf base cursor)
    rw [← unmask_eq_xorBytes] at all
    simp only [Copied.room, cursor', ready'] at all hj
    simp only [Role.store, Copied.room, last, length', and_true]
    omega
  | client =>
    rw [Role.store, copy_eq]
    exact ⟨rfl, rfl, length_writeBytes _ _ _⟩

theorem unmaskWordsChecked_eq (fits : base + p.mHeader.msgSize ≤ buf.length) :
    unmaskWordsChecked p stream buf base cursor = some (unmaskWords p stream buf base cursor) := by
  unfold unmaskWordsChecked unmaskWords
  dsimp only
  split
  · obtain ⟨-, -, -, -, length⟩ :=
      @xorBytes_moves p.mHeader.mask p.mHeader.msgSize base stream true ⟨buf, cursor, p.mPLBytesReady⟩
    rw [xorBytesChecked_eq true _ fits]
    exact xorWordsChecked_eq _ (by rw [length]; exact fits)
  · rfl

theorem unmaskChecked_eq (fits : base + p.mHeader.msgSize ≤ buf.length) :
    unmaskChecked p stream buf base cursor = some (unmask p stream buf base cursor) := by
  obtain ⟨-, -, -, -, length⟩ := unmaskWords_moves p stream buf base cursor
  rw [unmaskChecked, unmaskWordsChecked_eq p stream buf base cursor fits]
  exact xorBytesChecked_eq false _ (by rw [length]; exact fits)

theorem copyChecked_eq (inside : cursor ≤ stream.length) (ready : p.mPLBytesReady ≤ p.mHeader.msgSize)
    (fits : base + p.mHeader.msgSize ≤ buf.length) :
    copyChecked p stream buf base cursor = some (copy p stream buf base cursor) := by
  unfold copyChecked copy
  dsimp only
  generalize taken : (if p.mPLBytesReady + (stream.length - cursor) > p.mHeader.msgSize
    then p.mHeader.msgSize - p.mPLBytesReady else stream.length - cursor) = copyBytes
  have available : cursor + copyBytes ≤ stream.length := by split at taken <;> omega
  have missing : p.mPLBytesReady + copyBytes ≤ p.mHeader.msgSize := by split at taken <;> omega
  have length : ((stream.drop cursor).take copyBytes).length = copyBytes := by
    rw [List.length_take, List.length_drop]
    omega
  rw [readChecked, if_pos available]
  show (writeChecked buf (base + p.mPLBytesReady) ((stream.drop cursor).take copyBytes) >>= _) = _
  rw [writeChecked, if_pos (by rw [length]; omega)]
  rfl

/-- No access of a store is outside, if the frame has its place in the buffer. -/
theorem storeChecked_eq (inside : cursor ≤ stream.length) (ready : p.mPLBytesReady ≤ p.mHeader.msgSize)
    (fits : base + p.mHeader.msgSize ≤ buf.length) :
    role.storeChecked p stream buf base cursor = some (role.store p stream buf base cursor) := by
  cases role with
  | server => exact unmaskChecked_eq p stream buf base cursor fits
  | client => exact copyChecked_eq p stream buf base cursor inside ready fits

end Stores

/-- `storePayload` with its accesses, the cursor and the subtraction `messageFrames->size() - MSG_SIZE` checked. -/
def storePayloadChecked (role : Role) (p : Parser) (stream : List UInt8) (cursor : Nat) :
    Option (Result × Parser) := do
  guard (cursor ≤ stream.length)
  match p.mHeader.fseq with
  | .single =>
    let s ← role.storeChecked p stream p.message 0 cursor
    guard (s.cursor ≤ stream.length)
    return payloadRead role { p with message := s.buf, mPLBytesReady := s.ready } stream s.cursor
  | .first | .middle | .last =>
    guard (p.mHeader.msgSize ≤ p.messageFrames.length)
    let used := p.messageFrames.length - p.mHeader.msgSize
    let s ← role.storeChecked p stream p.messageFrames used cursor
    guard (s.cursor ≤ stream.length)
    return payloadRead role { p with messageFrames := s.buf, mPLBytesReady := s.ready } stream s.cursor

def processPayloadChecked (role : Role) (p : Parser) (stream : List UInt8) (offset : Nat) :
    Option (Result × Parser) :=
  match sizeBuffer p stream offset with
  | none => some (⟨offset, .closeWithCode, messageTooBig⟩, p)
  | some p => storePayloadChecked role p stream offset

section Payload

variable {role : Role} {p : Parser} {stream : List UInt8} {cursor : Nat}

theorem guard_bind {α : Type} {P : Prop} [Decidable P] (h : P) (x : Option α) :
    (do guard P; x) = x := by
  rw [guard, if_pos h]
  rfl

theorem store_cursor_le (buf : List UInt8) (base : Nat) (inside : cursor ≤ stream.length) :
    (role.store p stream buf base cursor).cursor ≤ stream.length := by
  have moved := (store_moves role p stream buf base cursor).1
  simp only [Copied.room] at moved
  omega

/-- A call of `processPayload` stays inside when the buffer of its frame has been sized. -/
theorem storePayloadChecked_eq (inside : cursor ≤ stream.length) (ready : p.mPLBytesReady ≤ p.mHeader.msgSize)
    (single : p.mHeader.fseq = .single → p.mHeader.msgSize ≤ p.message.length)
    (fragment : p.mHeader.fseq ≠ .single → p.mHeader.msgSize ≤ p.messageFrames.length) :
    storePayloadChecked role p stream cursor = some (storePayload role p stream cursor) := by
  rw [storePayloadChecked, guard_bind inside, storePayload]
  cases hseq : p.mHeader.fseq with
  | single =>
    have fits : 0 + p.mHeader.msgSize ≤ p.message.length := by
      rw [Nat.zero_add]
      exact single hseq
    dsimp only
    rw [storeChecked_eq role p stream _ _ _ inside ready fits]
    exact guard_bind (store_cursor_le _ _ inside) _
  | first | middle | last =>
    have size : p.mHeader.msgSize ≤ p.messageFrames.length := fragment (by rw [hseq]; simp)
    have fits : p.messageFrames.length - p.mHeader.msgSize + p.mHeader.msgSize ≤ p.messageFrames.length := by omega
    dsimp only
    rw [guard_bind size, storeChecked_eq role p stream _ _ _ inside ready fits]
    exact guard_bind (store_cursor_le _ _ inside) _

end Payload

end LAppS.StreamProcessing
