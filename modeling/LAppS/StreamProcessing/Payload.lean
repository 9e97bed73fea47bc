import LAppS.StreamProcessing.Parse

/-!
# The payload loops

Whatever mix of byte and word steps runs, a payload is stored as if byte by byte: `store` advances
by all the bytes that both the frame and the stream still have.
-/

namespace LAppS.StreamProcessing
open Rfc6455 Bytes DefiniteCloseCode

namespace Copied

/-- The next `k` bytes of the stream, unmasked into the buffer. -/
def advance (key : Fin 4 → UInt8) (base : Nat) (stream : List UInt8) (s : Copied) (k : Nat) : Copied :=
  ⟨writeBytes s.buf (base + s.ready) (maskFrom key s.ready ((stream.drop s.cursor).take k)),
    s.cursor + k, s.ready + k⟩

/-- How many bytes both the frame and the stream still have. -/
def room (size : Nat) (stream : List UInt8) (s : Copied) : Nat :=
  min (size - s.ready) (stream.length - s.cursor)

variable (key : Fin 4 → UInt8) (size base : Nat) (stream : List UInt8)

@[simp] theorem advance_zero (s : Copied) : s.advance key base stream 0 = s := by
  simp [advance, maskFrom, writeBytes]

theorem advance_add (s : Copied) {j : Nat} (k : Nat) (fits : s.cursor + j ≤ stream.length) :
    s.advance key base stream (j + k) = (s.advance key base stream j).advance key base stream k := by
  have split : (stream.drop s.cursor).take (j + k) =
      (stream.drop s.cursor).take j ++ (stream.drop (s.cursor + j)).take k := by
    rw [List.take_add, List.drop_drop]
  have len : ((stream.drop s.cursor).take j).length = j := by simp; omega
  simp only [advance, split, maskFrom_append, writeBytes_append, length_maskFrom, len, Nat.add_assoc]

theorem advance_one (s : Copied) (more : s.cursor < stream.length) :
    s.advance key base stream 1 =
      ⟨s.buf.set (base + s.ready) (stream[s.cursor]! ^^^ key (Fin.ofNat 4 s.ready)), s.cursor + 1,
        s.ready + 1⟩ := by
  have head : (stream.drop s.cursor).take 1 = [stream[s.cursor]!] := by
    rw [List.drop_eq_getElem_cons more, List.take_succ_cons, List.take_zero, getElem!_pos stream _ more]
  simp only [advance, head, maskFrom, writeBytes]

theorem room_advance (s : Copied) (j : Nat) :
    (s.advance key base stream j).room size stream = s.room size stream - j := by
  simp only [room, advance]
  omega

end Copied

open Copied

variable (key : Fin 4 → UInt8) (size base : Nat) (stream : List UInt8)

theorem xorBytes_advance (aligning : Bool) (s : Copied) :
    ∃ j ≤ s.room size stream,
      xorBytes key size base aligning stream s = s.advance key base stream j ∧
      ((s.advance key base stream j).ready < size → (s.advance key base stream j).cursor < stream.length →
        aligning = true ∧ (s.advance key base stream j).ready % 4 = 0) := by
  fun_induction xorBytes key size base aligning stream s with
  | case1 s h ih =>
    obtain ⟨j, hj, hx, hend⟩ := ih
    have hroom : 1 ≤ s.room size stream := by simp only [room]; omega
    rw [← advance_one key base stream s h.2.1] at hj hx hend ⊢
    rw [← advance_add key base stream s j (by omega)] at hx hend
    rw [room_advance] at hj
    exact ⟨1 + j, by omega, hx, hend⟩
  | case2 s h =>
    refine ⟨0, Nat.zero_le _, by simp, ?_⟩
    rw [advance_zero]
    intro hr hc
    by_cases ha : aligning = true
    · refine ⟨ha, ?_⟩
      by_contra h4
      exact h ⟨hr, hc, fun _ => h4⟩
    · exact absurd ⟨hr, hc, fun h' => absurd h' ha⟩ h

/-- The last loop takes all there is. -/
theorem xorBytes_room (s : Copied) :
    xorBytes key size base false stream s = s.advance key base stream (s.room size stream) := by
  obtain ⟨j, hj, hx, hend⟩ := xorBytes_advance key size base stream false s
  have : j = s.room size stream := by
    by_contra hne
    simp only [advance, Bool.false_eq_true, false_and, imp_false] at hend
    simp only [room] at hj hne
    omega
  rw [hx, this]

theorem xorWords_advance (s : Copied)
    (aligned : s.ready + 8 ≤ size → s.cursor + 8 ≤ stream.length → s.ready % 4 = 0) :
    ∃ j ≤ s.room size stream, xorWords (keyWord key) size base stream s = s.advance key base stream j := by
  fun_induction xorWords (keyWord key) size base stream s with
  | case1 s h ih =>
    have word : (⟨writeBytes s.buf (base + s.ready)
        (leBytes 8 (leToNat ((stream.drop s.cursor).take 8) ^^^ keyWord key)), s.cursor + 8,
        s.ready + 8⟩ : Copied) = s.advance key base stream 8 := by
      rw [leBytes_keyWord key s.ready (aligned h.1 h.2) _ (by simp; omega)]
      rfl
    rw [word] at ih ⊢
    obtain ⟨j, hj, hx⟩ := ih (by intro _ _; have := aligned h.1 h.2; simp only [advance]; omega)
    have hroom : 8 ≤ s.room size stream := by simp only [room]; omega
    rw [room_advance] at hj
    exact ⟨8 + j, by omega, by rw [hx, advance_add key base stream s j h.2]⟩
  | case2 s h => exact ⟨0, Nat.zero_le _, by simp⟩

theorem advance_room {s : Copied} {j : Nat} (hj : j ≤ s.room size stream) :
    (s.advance key base stream j).advance key base stream ((s.advance key base stream j).room size stream) =
      s.advance key base stream (s.room size stream) := by
  rw [room_advance]
  by_cases hz : j = 0
  · subst hz; simp
  · have fits : s.cursor + j ≤ stream.length := by simp only [room] at hj; omega
    rw [← advance_add key base stream s _ fits, Nat.add_sub_cancel' hj]

/-- The aligned word loop and the byte loops together unmask byte by byte. -/
theorem unmask_eq (p : Parser) (buf : List UInt8) (cursor : Nat) (hMASK : p.MASK = keyWord p.mHeader.mask) :
    unmask p stream buf base cursor =
      let s : Copied := ⟨buf, cursor, p.mPLBytesReady⟩
      s.advance p.mHeader.mask base stream (s.room p.mHeader.msgSize stream) := by
  simp only [unmask, hMASK, xorBytes_room]
  split
  · obtain ⟨i, hi, hx, halign⟩ := xorBytes_advance p.mHeader.mask p.mHeader.msgSize base stream true
      ⟨buf, cursor, p.mPLBytesReady⟩
    rw [hx]
    obtain ⟨j, hj, hy⟩ := xorWords_advance p.mHeader.mask p.mHeader.msgSize base stream
      (Copied.advance p.mHeader.mask base stream ⟨buf, cursor, p.mPLBytesReady⟩ i)
      (fun hs hl => (halign (by omega) (by omega)).2)
    rw [hy, advance_room _ _ _ _ hj, advance_room _ _ _ _ hi]
  · rfl

theorem copy_eq (p : Parser) (buf : List UInt8) (cursor : Nat) :
    copy p stream buf base cursor =
      let s : Copied := ⟨buf, cursor, p.mPLBytesReady⟩
      s.advance (fun _ => 0) base stream (s.room p.mHeader.msgSize stream) := by
  have hroom : (if p.mPLBytesReady + (stream.length - cursor) > p.mHeader.msgSize
      then p.mHeader.msgSize - p.mPLBytesReady else stream.length - cursor) =
      Copied.room p.mHeader.msgSize stream ⟨buf, cursor, p.mPLBytesReady⟩ := by
    simp only [room]
    split <;> omega
  simp only [copy, hroom, advance, maskFrom_zero]

/-- The key that the payload under way is masked with; the client's frames carry none. -/
def KeyHeld (role : Role) (p : Parser) (key : Fin 4 → UInt8) : Prop :=
  match role with
  | .server => p.mHeader.mask = key ∧ p.MASK = keyWord key
  | .client => key = fun _ => 0

theorem store_eq {role : Role} {p : Parser} {key : Fin 4 → UInt8} (held : KeyHeld role p key)
    (buf : List UInt8) (cursor : Nat) :
    role.store p stream buf base cursor =
      let s : Copied := ⟨buf, cursor, p.mPLBytesReady⟩
      s.advance key base stream (s.room p.mHeader.msgSize stream) := by
  cases role with
  | server =>
    obtain ⟨rfl, hMASK⟩ := held
    exact unmask_eq base stream p buf cursor hMASK
  | client =>
    obtain rfl := held
    exact copy_eq base stream p buf cursor

/-- Storing the rest of the stream is storing a byte and then the rest. -/
theorem store_succ {role : Role} {p p' : Parser} {key : Fin 4 → UInt8} (held : KeyHeld role p key)
    (held' : KeyHeld role p' key) (hsize : p'.mHeader.msgSize = p.mHeader.msgSize)
    (hready : p'.mPLBytesReady = p.mPLBytesReady + 1) {cursor : Nat}
    (hr : p.mPLBytesReady < p.mHeader.msgSize) (hc : cursor < stream.length) (buf : List UInt8) :
    role.store p stream buf base cursor =
      role.store p' stream
        (buf.set (base + p.mPLBytesReady) (stream[cursor]! ^^^ key (Fin.ofNat 4 p.mPLBytesReady)))
        base (cursor + 1) := by
  have hroom : 1 ≤ Copied.room p.mHeader.msgSize stream ⟨buf, cursor, p.mPLBytesReady⟩ := by
    simp only [room]; omega
  rw [store_eq base stream held, store_eq base stream held', hsize, hready]
  have one := advance_one key base stream ⟨buf, cursor, p.mPLBytesReady⟩ hc
  dsimp only at one ⊢
  rw [← one, advance_room _ _ _ _ hroom]

/-- The last byte of a frame, or the last of the stream, is stored alone. -/
theorem store_one {role : Role} {p : Parser} {key : Fin 4 → UInt8} (held : KeyHeld role p key)
    {cursor : Nat} (hr : p.mPLBytesReady < p.mHeader.msgSize) (hc : cursor < stream.length)
    (last : p.mPLBytesReady + 1 = p.mHeader.msgSize ∨ cursor + 1 = stream.length) (buf : List UInt8) :
    role.store p stream buf base cursor =
      ⟨buf.set (base + p.mPLBytesReady) (stream[cursor]! ^^^ key (Fin.ofNat 4 p.mPLBytesReady)),
        cursor + 1, p.mPLBytesReady + 1⟩ := by
  have hroom : Copied.room p.mHeader.msgSize stream ⟨buf, cursor, p.mPLBytesReady⟩ = 1 := by
    simp only [room]; omega
  rw [store_eq base stream held]
  dsimp only
  rw [hroom, advance_one key base stream ⟨buf, cursor, p.mPLBytesReady⟩ hc]

/-- An empty payload stores nothing. -/
theorem store_empty {role : Role} {p : Parser} {key : Fin 4 → UInt8} (held : KeyHeld role p key)
    (hs : p.mHeader.msgSize = p.mPLBytesReady) (buf : List UInt8) (cursor : Nat) :
    role.store p stream buf base cursor = ⟨buf, cursor, p.mPLBytesReady⟩ := by
  have hroom : Copied.room p.mHeader.msgSize stream ⟨buf, cursor, p.mPLBytesReady⟩ = 0 := by
    simp only [room]; omega
  rw [store_eq base stream held]
  dsimp only
  rw [hroom, advance_zero]

end LAppS.StreamProcessing
