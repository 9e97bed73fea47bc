import LAppS.StreamProcessing.ClientParser
import LAppS.StreamProcessing.Utf8
import LAppS.WebSocketProtocol.Messages

/-!
# Close messages

What the endpoints make of a received Close frame, and the Close frames that `ws:close` sends.
-/

namespace LAppS.WebSocketProtocol
open Rfc6455 Bytes StreamProcessing DefiniteCloseCode

def codeTable (endpointCloseCode : DefiniteCloseCode) : DefiniteCloseCode :=
  if endpointCloseCode ∈ [1000, 1001, 1002, 1003, 1007, 1008, 1009, 1010, 1011] then normal
  else if endpointCloseCode > 2999 ∧ endpointCloseCode < 5000 then endpointCloseCode
  else protocolViolation

/-- The code that both `onCloseMessage` functions pass to `closeSocket`; `behind` is the memory behind the payload.
The check of the reason starts at its first byte and has the length of the payload. -/
def closeAnswer (payload : List UInt8) (behind : Nat → UInt8) : DefiniteCloseCode :=
  if payload.length < 2 then protocolViolation
  else if payload.length > 2 ∧
      !isValidUtf8 (payload.drop 2 ++ (List.range payload.length).map behind) payload.length then badData
  else codeTable (UInt16.ofNat (beToNat (payload.take 2)))

end LAppS.WebSocketProtocol

def LAppS.WebSocket.onCloseMessage (payload : List UInt8) (behind : Nat → UInt8) :
    LAppS.StreamProcessing.DefiniteCloseCode :=
  LAppS.WebSocketProtocol.closeAnswer payload behind

def LAppS.ClientWebSocket.onCloseMessage (payload : List UInt8) (behind : Nat → UInt8) :
    LAppS.StreamProcessing.DefiniteCloseCode :=
  LAppS.WebSocketProtocol.closeAnswer payload behind

namespace LAppS.WebSocketProtocol
open Rfc6455 Bytes StreamProcessing DefiniteCloseCode

instance : DecidablePred Utf8.WellFormed := fun bytes =>
  decidable_of_iff (isValidUtf8 bytes bytes.length = true) (by rw [isValidUtf8_iff le_rfl, List.take_length])

/-- The answer to a Close frame as its payload alone has it. -/
def verdict (payload : List UInt8) : DefiniteCloseCode :=
  let c := beToNat (payload.take 2)
  if ¬Utf8.WellFormed (payload.drop 2) then badData
  else if (1000 ≤ c ∧ c ≤ 1003) ∨ (1007 ≤ c ∧ c ≤ 1011) then normal
  else if 3000 ≤ c ∧ c ≤ 4999 then UInt16.ofNat c
  else protocolViolation

theorem codeTable_ofNat {c : Nat} (hc : c < 2 ^ 16) : codeTable (UInt16.ofNat c) =
    if (1000 ≤ c ∧ c ≤ 1003) ∨ (1007 ≤ c ∧ c ≤ 1011) then normal
    else if 3000 ≤ c ∧ c ≤ 4999 then UInt16.ofNat c else protocolViolation := by
  have value : (UInt16.ofNat c).toNat = c := UInt16.toNat_ofNat_of_lt' hc
  have listed : UInt16.ofNat c ∈ ([1000, 1001, 1002, 1003, 1007, 1008, 1009, 1010, 1011] : List UInt16) ↔
      (1000 ≤ c ∧ c ≤ 1003) ∨ (1007 ≤ c ∧ c ≤ 1011) := by
    simp only [List.mem_cons, List.not_mem_nil, or_false, ← UInt16.toNat_inj, value, UInt16.toNat_ofNat]
    omega
  have range : UInt16.ofNat c > 2999 ∧ UInt16.ofNat c < 5000 ↔ 3000 ≤ c ∧ c ≤ 4999 := by
    simp only [gt_iff_lt, UInt16.lt_iff_toNat_lt, value, UInt16.toNat_ofNat]
    omega
  simp only [codeTable, listed, range]

theorem codeTable_ne_badData (c : DefiniteCloseCode) : codeTable c ≠ badData := by
  unfold codeTable
  split
  · decide
  · split
    next range =>
      rintro rfl
      exact absurd range (by decide)
    · decide

/-- The bytes that are checked: the reason and two bytes of the memory behind it. -/
theorem checked_bytes {payload : List UInt8} (h : 2 ≤ payload.length) (behind : Nat → UInt8) :
    (payload.drop 2 ++ (List.range payload.length).map behind).take payload.length =
      payload.drop 2 ++ [behind 0, behind 1] := by
  obtain ⟨k, hk⟩ := Nat.exists_eq_add_of_le h
  have reason : (payload.drop 2).length = k := by
    rw [List.length_drop]
    omega
  rw [List.take_append, List.take_of_length_le (by omega), reason, hk, Nat.add_sub_cancel, ← List.map_take,
    List.take_range, Nat.min_eq_left (by omega)]
  rfl

theorem closeAnswer_eq {payload : List UInt8} (h : 2 ≤ payload.length) (behind : Nat → UInt8) :
    closeAnswer payload behind =
      if payload.drop 2 ≠ [] ∧ ¬Utf8.WellFormed (payload.drop 2 ++ [behind 0, behind 1]) then badData
      else codeTable (UInt16.ofNat (beToNat (payload.take 2))) := by
  have long : payload.length > 2 ↔ payload.drop 2 ≠ [] := by
    rw [ne_eq, List.drop_eq_nil_iff]
    omega
  have valid : isValidUtf8 (payload.drop 2 ++ (List.range payload.length).map behind) payload.length = true ↔ _ :=
    isValidUtf8_iff (by simp)
  rw [checked_bytes h] at valid
  rw [closeAnswer, if_neg (by omega)]
  simp only [long, Bool.not_eq_true', ← Bool.not_eq_true, valid]

theorem verdict_eq (payload : List UInt8) : verdict payload =
    if ¬Utf8.WellFormed (payload.drop 2) then badData else codeTable (UInt16.ofNat (beToNat (payload.take 2))) := by
  have small : beToNat (payload.take 2) < 2 ^ 16 := by
    have := beToNat_lt (payload.take 2)
    have := Nat.pow_le_pow_right (n := 256) (by decide) (List.length_take_le 2 payload)
    omega
  simp only [verdict, codeTable_ofNat small]

theorem wellFormed_nil : Utf8.WellFormed [] := ⟨[], rfl⟩

/-- Both endpoints judge a Close frame by its payload exactly when there is no reason, or the two bytes behind the
reason do not change whether it is well formed. -/
theorem close_judged_iff (payload : List UInt8) (behind : Nat → UInt8) (h : 2 ≤ payload.length) :
    (WebSocket.onCloseMessage payload behind = verdict payload ∧
        ClientWebSocket.onCloseMessage payload behind = verdict payload) ↔
      payload.drop 2 = [] ∨
        (Utf8.WellFormed (payload.drop 2 ++ [behind 0, behind 1]) ↔ Utf8.WellFormed (payload.drop 2)) := by
  have other := codeTable_ne_badData (UInt16.ofNat (beToNat (payload.take 2)))
  rw [WebSocket.onCloseMessage, ClientWebSocket.onCloseMessage, and_self, closeAnswer_eq h, verdict_eq]
  by_cases empty : payload.drop 2 = []
  · simp [empty, wellFormed_nil]
  · by_cases own : Utf8.WellFormed (payload.drop 2) <;>
      by_cases longer : Utf8.WellFormed (payload.drop 2 ++ [behind 0, behind 1]) <;>
      simp [empty, own, longer, other, other.symm]

def okClose : List UInt8 := [0x03, 0xe8, 0x6f, 0x6b]

theorem close_judged_zeros :
    2 ≤ okClose.length ∧ WebSocket.onCloseMessage okClose (fun _ => 0) = verdict okClose ∧
      ClientWebSocket.onCloseMessage okClose (fun _ => 0) = verdict okClose :=
  ⟨by decide, (close_judged_iff okClose (fun _ => 0) (by decide)).mpr (.inr (by decide +kernel))⟩

/-- With other bytes behind the payload the same frame is bad data. -/
theorem close_judged_counterexample :
    verdict okClose = normal ∧ WebSocket.onCloseMessage okClose (fun _ => 0xff) = badData ∧
      ClientWebSocket.onCloseMessage okClose (fun _ => 0xff) = badData := by
  decide +kernel

/-! ### The Close frames of `ws:close` -/

def htobe16 (c : UInt16) : Nat := leToNat (beBytes 2 c.toNat)

def codeBytes (c : UInt16) : List UInt8 :=
  let beCode := htobe16 c
  [UInt8.ofNat ((beCode <<< 8) >>> 8), UInt8.ofNat (beCode >>> 8)]

namespace ServerCloseMessage

def ofCode (c : UInt16) : List UInt8 := [128 ||| 8, 2] ++ codeBytes c

def ofChars (c : UInt16) (src : List UInt8) (len : Nat) : List UInt8 :=
  putLength (len + 2) [128 ||| 8] ++ codeBytes c ++ src.take len

end ServerCloseMessage

/-- `ws:close` on an open socket: the frame that is sent when it returns true, or the text that it returns. The
error code is what `lua_tointeger` makes of a number; a further argument is what `lua_tolstring` makes of a string. -/
def wsclose (errorCode : Option Int) (further : List (Option (List UInt8))) : Except String (List UInt8) :=
  match errorCode with
  | some n =>
    let closeCode := UInt16.ofNat (n % 2 ^ 16).toNat
    if closeCode > 999 ∧ (closeCode < 1012 ∨ (closeCode > 2999 ∧ closeCode < 5000)) then
      match further with
      | [] => .ok (ServerCloseMessage.ofCode closeCode)
      | [some errmsg] => .ok (ServerCloseMessage.ofChars closeCode errmsg errmsg.length)
      | [none] => .error ("Usage: ws:close(handler, error_code [, error_string]) - " ++
          "error_string argument must be of a type string")
      | _ => .error ("Usage: ws:close(handler, error_code [, error_string]) - " ++
          "wrong number of arguments is provided")
    else .error "Unsupported error code is provided for ws:close()"
  | none => .error "Usage: ws::close(handler, error_code [, error_string]), - handler must be an integer"

/-- The bytes are one control frame that carries the code and the reason, and that the client takes. -/
structure Acceptable (code : Int) (reason bytes : List UInt8) (f : Frame) : Prop where
  encoded : f.encode false = bytes
  control : f.fin = true ∧ f.opcode = .close ∧ f.payload.length ≤ 125
  carries : (beToNat (f.payload.take 2) : Int) = code ∧ f.payload.drop 2 = reason
  decoded : ∀ presz limit chunks, 125 ≤ limit → limit < 2 ^ 64 → [] ∉ chunks → chunks.flatten = bytes →
    (received .client presz limit chunks).1 = [.message .close f.payload]
  answered : codeTable (UInt16.ofNat code.toNat) ≠ protocolViolation

/-- The codes that have an answer of their own. -/
def Sendable (code : Int) : Prop :=
  (1000 ≤ code ∧ code ≤ 1003) ∨ (1007 ≤ code ∧ code ≤ 1011) ∨ (3000 ≤ code ∧ code ≤ 4999)

theorem codeBytes_eq (c : UInt16) : codeBytes c = beBytes 2 c.toNat := by
  have high : c.toNat / 256 % 256 < 256 := Nat.mod_lt _ (by decide)
  have low : c.toNat % 256 < 256 := Nat.mod_lt _ (by decide)
  simp only [codeBytes, htobe16, beBytes, leToNat, toNat_ofNat_byte, Nat.shiftLeft_eq, Nat.shiftRight_eq_div_pow,
    List.cons.injEq, and_true, ← UInt8.toNat_inj, Nat.pow_zero, Nat.pow_one, Nat.div_one, Nat.mul_zero, Nat.add_zero,
    Nat.reducePow]
  generalize c.toNat / 256 % 256 = x at *
  generalize c.toNat % 256 = y at *
  omega

theorem ofCode_eq (c : UInt16) : ServerCloseMessage.ofCode c = ServerCloseMessage.ofChars c [] 0 := by
  rw [ServerCloseMessage.ofCode, ServerCloseMessage.ofChars, List.take_nil, List.append_nil]
  rfl

theorem ofChars_eq (c : UInt16) (src : List UInt8) : ServerCloseMessage.ofChars c src src.length =
    message (128 ||| 8) (beBytes 2 c.toNat ++ src) (beBytes 2 c.toNat ++ src).length := by
  rw [ServerCloseMessage.ofChars, codeBytes_eq, message, List.take_length, List.take_length, List.append_assoc,
    List.length_append, length_beBytes, Nat.add_comm]

theorem wsclose_ok {n : Int} {reason : Option (List UInt8)} {bytes : List UInt8}
    (h : wsclose (some n) (reason.toList.map some) = .ok bytes) :
    bytes = ServerCloseMessage.ofChars (UInt16.ofNat (n % 2 ^ 16).toNat) (reason.getD []) (reason.getD []).length := by
  simp only [wsclose] at h
  split at h
  · cases reason with
    | none => exact (Except.ok.inj h).symm.trans (ofCode_eq _)
    | some errmsg => exact (Except.ok.inj h).symm
  · cases h

theorem codeTable_answered {c : Nat} (hc : c < 2 ^ 16) :
    codeTable (UInt16.ofNat c) ≠ protocolViolation ↔ Sendable c := by
  rw [codeTable_ofNat hc, Sendable]
  have value : (UInt16.ofNat c).toNat = c := UInt16.toNat_ofNat_of_lt' hc
  split
  · exact ⟨fun _ => by omega, fun _ => by decide⟩
  · split
    · refine ⟨fun _ => by omega, fun _ same => ?_⟩
      rw [← UInt16.toNat_inj, value] at same
      have : c = 1002 := same
      omega
    · exact ⟨fun h => absurd rfl h, fun _ => by omega⟩

/-- The client decodes a Close frame with a code from any chunks. -/
theorem close_received {payload : List UInt8} (h : payload.length < 2 ^ 64) (nonempty : payload ≠ [])
    (short : payload.length ≤ 125) {presz limit : Nat} {chunks : List (List UInt8)} (le : 125 ≤ limit)
    (lt : limit < 2 ^ 64) (hchunks : [] ∉ chunks)
    (bytes : chunks.flatten = (serverFrame true .close payload h).encode false) :
    (received .client presz limit chunks).1 = [.message .close payload] := by
  have legal : LegalSeq none [serverFrame true .close payload h] :=
    ⟨⟨rfl, short⟩, fun _ => rfl, trivial⟩
  have within : WithinSeq limit none [serverFrame true .close payload h] :=
    ⟨⟨short.trans le, nofun⟩, trivial⟩
  have whole : chunks.flatten = encodeAll false [serverFrame true .close payload h] := by
    rw [bytes, encodeAll_cons, encodeAll_nil, List.append_nil]
  have prompt : ¬EmptyEndsAt false [serverFrame true .close payload h] chunks.flatten.length := by
    rw [emptyEndsAt_cons]
    rintro (⟨-, empty, -⟩ | ⟨-, before, f, after, heq, -⟩)
    · exact nonempty empty
    · simp at heq
  have delivered := (client_prompt_at presz lt legal within hchunks (whole ▸ List.prefix_refl _)).mpr prompt
  rw [delivered, bytes]
  simp [completeIn, assemble, Frame.next, serverFrame, nonempty]

/-- Of the frames that `ws:close` agrees to send, the client accepts those with a code that it has an answer for and
a reason of at most 123 bytes. -/
theorem wsclose_acceptable_iff (code : Int) (reason : Option (List UInt8)) (bytes : List UInt8)
    (sent : wsclose (some code) (reason.toList.map some) = .ok bytes) :
    (∃ f, Acceptable code (reason.getD []) bytes f) ↔ Sendable code ∧ (reason.getD []).length ≤ 123 := by
  have frame := wsclose_ok sent
  constructor
  · rintro ⟨f, acceptable⟩
    have short := acceptable.control.2.2
    have size := congrArg List.length acceptable.carries.2
    rw [List.length_drop] at size
    have small : beToNat (f.payload.take 2) < 2 ^ 16 := by
      have := beToNat_lt (f.payload.take 2)
      have := Nat.pow_le_pow_right (n := 256) (by decide) (List.length_take_le 2 f.payload)
      omega
    have answered := acceptable.answered
    rw [← acceptable.carries.1, Int.toNat_natCast, codeTable_answered small] at answered
    rw [← acceptable.carries.1]
    exact ⟨answered, by omega⟩
  · rintro ⟨sendable, short⟩
    obtain ⟨c, rfl⟩ : ∃ c : Nat, code = c := Int.eq_ofNat_of_zero_le (by unfold Sendable at sendable; omega)
    have small : c < 2 ^ 16 := by
      unfold Sendable at sendable
      omega
    have value : (UInt16.ofNat ((c : Int) % 2 ^ 16).toNat).toNat = c := by
      have : ((c : Int) % 2 ^ 16).toNat = c := by omega
      rw [this, UInt16.toNat_ofNat_of_lt' small]
    have size : (beBytes 2 c ++ reason.getD []).length = (reason.getD []).length + 2 := by
      rw [List.length_append, length_beBytes, Nat.add_comm]
    have fits : (beBytes 2 c ++ reason.getD []).length < 2 ^ 64 := by omega
    rw [ofChars_eq, value] at frame
    have encoded : (serverFrame true .close (beBytes 2 c ++ reason.getD []) fits).encode false = bytes := by
      rw [encode_serverFrame, frame]
      rfl
    refine ⟨serverFrame true .close (beBytes 2 c ++ reason.getD []) fits, encoded, ⟨rfl, rfl, ?_⟩, ⟨?_, ?_⟩, ?_, ?_⟩
    · show (beBytes 2 c ++ reason.getD []).length ≤ 125
      omega
    · rw [serverFrame_payload, List.take_left' (length_beBytes 2 c), beToNat_beBytes small]
    · rw [serverFrame_payload, List.drop_left' (length_beBytes 2 c)]
    · intro presz limit chunks le lt nonempty whole
      exact close_received fits (by simp [beBytes]) (by omega) le lt nonempty (whole.trans encoded.symm)
    · rw [Int.toNat_natCast]
      exact (codeTable_answered small).mpr sendable

theorem wsclose_acceptable_normal :
    wsclose (some 1000) [some [0x6f, 0x6b]] = .ok [0x88, 0x04, 0x03, 0xe8, 0x6f, 0x6b] ∧
      ∃ f, Acceptable 1000 [0x6f, 0x6b] [0x88, 0x04, 0x03, 0xe8, 0x6f, 0x6b] f :=
  ⟨rfl, (wsclose_acceptable_iff 1000 (some [0x6f, 0x6b]) _ rfl).mpr ⟨by unfold Sendable; decide, by decide⟩⟩

/-- The code 1005 is sent, and is a protocol violation for the client. -/
theorem wsclose_acceptable_counterexample :
    wsclose (some 1005) [] = .ok [0x88, 0x02, 0x03, 0xed] ∧ codeTable 1005 = protocolViolation ∧
      ¬∃ f, Acceptable 1005 [] [0x88, 0x02, 0x03, 0xed] f := by
  refine ⟨rfl, by decide, ?_⟩
  rintro ⟨f, acceptable⟩
  exact acceptable.answered (by decide)

end LAppS.WebSocketProtocol
