import LAppS.StreamProcessing.Parser

/-!
# `parse` and `getMessage`

`parse` terminates because the switch never moves the cursor back, and from `INIT` moves it on.
-/

namespace LAppS.StreamProcessing
open Rfc6455 Bytes DefiniteCloseCode

/-- When the switch goes on, the cursor is at or after `offset`; only `DONE` makes a message ready. -/
def Advances (offset : Nat) (r : Result × Parser) : Prop :=
  r.1.directive ≠ .takeReadyMessage ∧ (r.1.directive = .continue_ → offset ≤ r.1.cursor)

theorem advances_andThen {offset : Nat} {r : Result × Parser} {next : Parser → Nat → Result × Parser}
    (hr : Advances offset r) (hn : ∀ p c, offset ≤ c → Advances offset (next p c)) :
    Advances offset (andThen r next) := by
  unfold andThen
  split
  · rename_i h
    exact hn _ _ (hr.2 h)
  · exact hr

theorem sizeRead_advances (p : Parser) (stream : List UInt8) (cursor size : Nat) :
    Advances cursor (sizeRead p stream cursor size) := by
  unfold sizeRead Advances
  dsimp only
  repeat' split
  all_goals simp

theorem Advances.mono {a b : Nat} {r : Result × Parser} (h : Advances b r) (hab : a ≤ b) : Advances a r :=
  ⟨h.1, fun hd => hab.trans (h.2 hd)⟩

theorem readLongSize_advances (p : Parser) (stream : List UInt8) (cursor : Nat) (i : Fin 8) :
    Advances cursor (readLongSize p stream cursor i) := by
  fun_induction readLongSize p stream cursor i with
  | case1 => simp [Advances]
  | case2 p cursor i large q hi q' hc ih => exact ih.mono (Nat.le_succ _)
  | case3 => exact sizeRead_advances _ _ _ _

theorem readSIZE_advances (p : Parser) (stream : List UInt8) (offset : Nat) :
    Advances offset (readSIZE p stream offset) := by
  unfold readSIZE
  split
  · split
    · unfold readShortSize0
      dsimp only
      split
      · simp [Advances]
      · exact (sizeRead_advances _ _ _ _).mono (Nat.le_succ _)
    · exact sizeRead_advances _ _ _ _
    · exact readLongSize_advances _ _ _ _
    · simp [Advances]
  · simp [Advances]

theorem readMaskByte_advances (p : Parser) (stream : List UInt8) (cursor : Nat) (i : Fin 4) :
    Advances cursor (readMaskByte p stream cursor i) := by
  fun_induction readMaskByte p stream cursor i with
  | case1 => simp [Advances]
  | case2 p cursor i mask q hi q' hc ih => exact ih.mono (Nat.le_succ _)
  | case3 => simp [Advances]
  | case4 => simp [Advances]

theorem role_readMASK_advances (role : Role) (p : Parser) (stream : List UInt8) (offset : Nat) :
    Advances offset (role.readMASK p stream offset) := by
  cases role with
  | server =>
    unfold Role.readMASK readMASK
    dsimp only
    split
    · split
      · exact readMaskByte_advances _ _ _ _
      · simp [Advances]
    · simp [Advances]
  | client => simp [Role.readMASK, Advances]

theorem validateHeader_advances (p : Parser) (cursor : Nat) : Advances cursor (validateHeader p cursor) := by
  unfold validateHeader Advances
  dsimp only
  repeat' split
  all_goals simp

theorem xorBytes_cursor (key : Fin 4 → UInt8) (size base : Nat) (aligning : Bool) (stream : List UInt8)
    (s : Copied) : s.cursor ≤ (xorBytes key size base aligning stream s).cursor := by
  fun_induction xorBytes key size base aligning stream s with
  | case1 s h ih => exact (Nat.le_succ _).trans ih
  | case2 s h => exact Nat.le_refl _

theorem xorWords_cursor (mask size base : Nat) (stream : List UInt8) (s : Copied) :
    s.cursor ≤ (xorWords mask size base stream s).cursor := by
  fun_induction xorWords mask size base stream s with
  | case1 s h ih => exact (Nat.le_add_right _ 8).trans ih
  | case2 s h => exact Nat.le_refl _

theorem store_cursor (role : Role) (p : Parser) (stream buf : List UInt8) (base cursor : Nat) :
    cursor ≤ (role.store p stream buf base cursor).cursor := by
  cases role with
  | server =>
    simp only [Role.store, unmask]
    refine Nat.le_trans ?_ (xorBytes_cursor _ _ _ _ _ _)
    split
    · exact Nat.le_trans (xorBytes_cursor _ _ _ _ _ ⟨buf, cursor, p.mPLBytesReady⟩) (xorWords_cursor _ _ _ _ _)
    · exact Nat.le_refl _
  | client => simp [Role.store, copy]

theorem payloadRead_advances {offset cursor : Nat} (role : Role) (p : Parser) (stream : List UInt8)
    (h : offset ≤ cursor) : Advances offset (payloadRead role p stream cursor) := by
  unfold payloadRead Advances
  split
  · exact ⟨by simp, fun _ => h⟩
  · simp

theorem processPayload_advances (role : Role) (p : Parser) (stream : List UInt8) (offset : Nat) :
    Advances offset (processPayload role p stream offset) := by
  unfold processPayload
  split
  · simp [Advances]
  · unfold storePayload
    split <;> exact payloadRead_advances _ _ _ (store_cursor _ _ _ _ _ _)

theorem fromValidate_advances (role : Role) (stream : List UInt8) {offset c : Nat} (p : Parser)
    (h : offset ≤ c) : Advances offset (fromValidate role stream p c) :=
  advances_andThen ((validateHeader_advances p c).mono h)
    fun q _ hd => (processPayload_advances role q stream _).mono hd

theorem fromMask_advances (role : Role) (stream : List UInt8) {offset c : Nat} (p : Parser)
    (h : offset ≤ c) : Advances offset (fromMask role stream p c) :=
  advances_andThen ((role_readMASK_advances role p stream c).mono h)
    fun q _ hd => fromValidate_advances role stream q hd

theorem fromSize_advances (role : Role) (stream : List UInt8) {offset c : Nat} (p : Parser)
    (h : offset ≤ c) : Advances offset (fromSize role stream p c) :=
  advances_andThen ((readSIZE_advances p stream c).mono h) fun q _ hd => fromMask_advances role stream q hd

theorem fromHeader2_advances (role : Role) (stream : List UInt8) {offset c : Nat} (p : Parser)
    (h : offset ≤ c) : Advances offset (fromHeader2 role stream p c) := by
  refine advances_andThen ?_ fun q _ hd => fromSize_advances role stream q hd
  unfold getHeader2ndByte Advances
  dsimp only
  repeat' split
  all_goals simp
  all_goals omega

/-- A first header byte that is accepted lies in the stream and is consumed. -/
theorem getHeader1stByte_continue {p : Parser} {stream : List UInt8} {offset : Nat}
    (h : (getHeader1stByte p stream offset).1.directive = .continue_) :
    offset < stream.length ∧ (getHeader1stByte p stream offset).1.cursor = offset + 1 := by
  unfold getHeader1stByte at h ⊢
  dsimp only at h ⊢
  split at h
  · rename_i hlt
    rw [if_pos hlt]
    repeat' split at h
    all_goals simp_all
  · simp at h

theorem fromHeader1_advances (role : Role) (stream : List UInt8) (p : Parser) (offset : Nat) :
    Advances offset (fromHeader1 role stream p offset) := by
  refine advances_andThen ?_ fun q _ hd => fromHeader2_advances role stream q hd
  unfold getHeader1stByte Advances
  dsimp only
  repeat' split
  all_goals simp

theorem fromHeader1_continue {role : Role} {stream : List UInt8} {p : Parser} {offset : Nat}
    (h : (fromHeader1 role stream p offset).1.directive = .continue_) :
    offset < stream.length ∧ offset < (fromHeader1 role stream p offset).1.cursor := by
  unfold fromHeader1 andThen at h ⊢
  split at h
  · rename_i hd
    have ⟨hlt, hc⟩ := getHeader1stByte_continue hd
    rw [if_pos hd]
    exact ⟨hlt, (@fromHeader2_advances role stream (offset + 1) _ _ (by omega)).2 h⟩
  · contradiction

/-- How much a pass of the switch leaves to do. -/
def measure (p : Parser) (stream : List UInt8) (offset : Nat) : Nat :=
  2 * (stream.length - offset) + if p.mState = .init then 0 else 1

theorem toDone_advances {role : Role} {p : Parser} {stream : List UInt8} {offset : Nat}
    {x : Result × Parser} (h : toDone role p stream offset = .ok x) : Advances offset x := by
  unfold toDone at h
  split at h
  case h_1 => exact Except.ok.inj h ▸ fromHeader1_advances role stream p.reset offset
  case h_2 => exact Except.ok.inj h ▸ fromHeader1_advances role stream p offset
  case h_3 => exact Except.ok.inj h ▸ fromHeader2_advances role stream p (Nat.le_refl _)
  case h_4 | h_5 | h_6 => exact Except.ok.inj h ▸ fromSize_advances role stream p (Nat.le_refl _)
  case h_7 => exact Except.ok.inj h ▸ fromMask_advances role stream p (Nat.le_refl _)
  case h_8 => exact Except.ok.inj h ▸ fromValidate_advances role stream p (Nat.le_refl _)
  case h_9 => exact Except.ok.inj h ▸ processPayload_advances role p stream offset
  case h_10 => exact Except.ok.inj h ▸ ⟨by simp, fun _ => Nat.le_refl _⟩
  case h_11 => cases h

theorem toDone_measure {role : Role} {p q : Parser} {stream : List UInt8} {offset : Nat} {r : Result}
    (h : toDone role p stream offset = .ok (r, q)) (hd : r.directive = .continue_) :
    2 * (stream.length - r.cursor) < measure p stream offset := by
  have advanced := (toDone_advances h).2 hd
  dsimp only at advanced
  unfold measure
  split <;> rename_i hs
  · -- from `INIT` at least the first header byte is consumed
    simp only [toDone, hs] at h
    have hf := Except.ok.inj h
    have ⟨hlt, hc⟩ := @fromHeader1_continue role stream p.reset offset
      (by rw [hf]; exact hd)
    rw [hf] at hc
    dsimp only at hc
    omega
  · omega

theorem decideOnDone_continue {p : Parser} {cursor : Nat}
    (h : (decideOnDone p cursor).1.directive = .continue_) :
    (decideOnDone p cursor).1.cursor = cursor ∧ (decideOnDone p cursor).2.mState = .init := by
  unfold decideOnDone at h ⊢
  split <;> simp_all

/-- `parse`. An error is a thrown `std::logic_error`. -/
def parse (role : Role) (p : Parser) (stream : List UInt8) (offset : Nat) : Except String (Result × Parser) :=
  match _h : toDone role p stream offset with
  | .error e => .error e
  | .ok (r, q) =>
    if _hr : r.directive = .continue_ then
      if _hd : (decideOnDone q r.cursor).1.directive = .continue_ then
        parse role (decideOnDone q r.cursor).2 stream (decideOnDone q r.cursor).1.cursor
      else .ok (decideOnDone q r.cursor)
    else .ok (r, q)
termination_by measure p stream offset
decreasing_by
  have lt := toDone_measure _h _hr
  have ⟨hc, hi⟩ := decideOnDone_continue _hd
  simp only [measure, hc, hi, if_true]
  simp only [measure] at lt
  omega

theorem parse_eq (role : Role) (p : Parser) (stream : List UInt8) (offset : Nat) :
    parse role p stream offset =
      match toDone role p stream offset with
      | .error e => .error e
      | .ok (r, q) =>
        if r.directive = .continue_ then
          if (decideOnDone q r.cursor).1.directive = .continue_ then
            parse role (decideOnDone q r.cursor).2 stream (decideOnDone q r.cursor).1.cursor
          else .ok (decideOnDone q r.cursor)
        else .ok (r, q) := by
  rw [parse]
  split
  · rename_i h
    rw [h]
  · rename_i h
    rw [h]
    simp only [dite_eq_ite]

namespace WSStreamServerParser

def parse : Parser → List UInt8 → Nat → Except String (Result × Parser) := StreamProcessing.parse .server

def getMessage (p : Parser) : Except String (WSEvent × Parser) :=
  if p.mState = .messageReady then
    let p := { p with mState := .init }
    if p.mHeader.fseq = .single then
      .ok (⟨p.mHeader.opcode, p.message⟩,
        { p with message := p.getBuffer.1, mBufferQueue := p.getBuffer.2 })
    else
      .ok (⟨p.mHeader.opcode, p.messageFrames⟩,
        { p with messageFrames := p.getBuffer.1, mBufferQueue := p.getBuffer.2 })
  else .error "WSStreamParser::getMessage() - message is not ready yet"

end WSStreamServerParser

namespace WSStreamClientParser

def parse : Parser → List UInt8 → Nat → Except String (Result × Parser) := StreamProcessing.parse .client

/-- Unlike the server's, the client's `getMessage` hands out a buffer in any state. -/
def getMessage (p : Parser) : WSEvent × Parser :=
  let p := if p.mState = .messageReady then { p with mState := .init } else p
  if p.mHeader.fseq = .single then
    (⟨p.mHeader.opcode, p.message⟩, { p with message := p.getBuffer.1, mBufferQueue := p.getBuffer.2 })
  else
    (⟨p.mHeader.opcode, p.messageFrames⟩,
      { p with messageFrames := p.getBuffer.1, mBufferQueue := p.getBuffer.2 })

end WSStreamClientParser

def Role.getMessage : Role → Parser → Except String (WSEvent × Parser)
  | .server, p => WSStreamServerParser.getMessage p
  | .client, p => .ok (WSStreamClientParser.getMessage p)

end LAppS.StreamProcessing
