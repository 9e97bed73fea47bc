import LAppS.StreamProcessing.ServerParser
import LAppS.WebSocketProtocol.Messages

/-!
# What the client sends

`ClientWebSocket::send` masks a payload word by word and leaves out the masking key of an empty one. The server
parser reads every other message back as it was.
-/

namespace LAppS.ClientWebSocket
open Rfc6455 Bytes StreamProcessing WebSocketProtocol

/-- The loop over whole words, with `offset`, `payload_idx` and `out` behind it. -/
def maskWords (mask : Nat) (src : List UInt8) (len offset payloadIdx : Nat) (out : List UInt8) :
    Nat × Nat × List UInt8 :=
  if payloadIdx + 8 < len then
    maskWords mask src len (offset + 8) (payloadIdx + 8)
      (writeBytes out offset (leBytes 8 (leToNat ((src.drop payloadIdx).take 8) ^^^ mask)))
  else (offset, payloadIdx, out)
termination_by len - payloadIdx

/-- The loop over the bytes that are left. -/
def maskBytes (byteMask : List UInt8) (src : List UInt8) (len offset payloadIdx : Nat) (out : List UInt8) :
    List UInt8 :=
  if payloadIdx < len then
    maskBytes byteMask src len (offset + 1) (payloadIdx + 1)
      (out.set offset (src[payloadIdx]! ^^^ byteMask[payloadIdx % 4]!))
  else out
termination_by len - payloadIdx

/-- The bytes that are sent; `none` is a null pointer. -/
def send (singleMask : UInt32) (src : Option (List UInt8)) (len : Nat) (opcode : OpCode) : List UInt8 :=
  let doubleMask := (singleMask.toNat <<< 32) ||| singleMask.toNat
  let out := putLength len [128 ||| opcode.toByte]
  let out := out.set 1 ((128 : UInt8) ||| out[1]!)
  match src with
  | some src =>
    if len ≠ 0 then
      let out := out ++ leBytes 4 singleMask.toNat
      let offset := out.length
      let out := resize out (offset + len)
      let (offset, payloadIdx, out) := maskWords doubleMask src len offset 0 out
      maskBytes (leBytes 8 doubleMask) src len offset payloadIdx out
    else out
  | none => out

/-! ### The frame -/

/-- The key in the bytes of a mask. -/
def keyOf (singleMask : UInt32) (i : Fin 4) : UInt8 := (leBytes 4 singleMask.toNat)[i.val]!

theorem leBytes_four (singleMask : UInt32) :
    leBytes 4 singleMask.toNat = [keyOf singleMask 0, keyOf singleMask 1, keyOf singleMask 2, keyOf singleMask 3] :=
  rfl

theorem doubleMask_add (singleMask : UInt32) :
    (singleMask.toNat <<< 32) ||| singleMask.toNat = singleMask.toNat + 256 ^ 4 * singleMask.toNat := by
  have := singleMask.toNat_lt
  rw [← Nat.shiftLeft_add_eq_or_of_lt this, Nat.shiftLeft_eq]
  omega

/-- Both halves of the double mask are the key. -/
theorem leBytes_doubleMask (singleMask : UInt32) :
    leBytes 8 ((singleMask.toNat <<< 32) ||| singleMask.toNat) =
      leBytes 4 singleMask.toNat ++ leBytes 4 singleMask.toNat := by
  rw [doubleMask_add]
  exact leBytes_append 4 4 _ _ singleMask.toNat_lt

theorem keyWord_keyOf (singleMask : UInt32) :
    keyWord (keyOf singleMask) = (singleMask.toNat <<< 32) ||| singleMask.toNat := by
  have bytes : keyWord (keyOf singleMask) = leToNat (leBytes 4 singleMask.toNat ++ leBytes 4 singleMask.toNat) := rfl
  have := singleMask.toNat_lt
  rw [bytes, ← leBytes_doubleMask, leToNat_leBytes (by rw [doubleMask_add]; omega)]

theorem byteMask_get (singleMask : UInt32) (n : Nat) :
    (leBytes 8 ((singleMask.toNat <<< 32) ||| singleMask.toNat))[n % 4]! = keyOf singleMask (Fin.ofNat 4 n) := by
  rw [leBytes_doubleMask, leBytes_four]
  have h : n % 4 < 4 := Nat.mod_lt _ (by decide)
  have hn : Fin.ofNat 4 n = ⟨n % 4, h⟩ := rfl
  rw [hn]
  generalize n % 4 = m at h
  match m, h with
  | 0, _ | 1, _ | 2, _ | 3, _ => rfl

section Loops

variable (singleMask : UInt32) (src : List UInt8)

theorem maskBytes_eq (offset payloadIdx : Nat) (out : List UInt8) :
    maskBytes (leBytes 8 ((singleMask.toNat <<< 32) ||| singleMask.toNat)) src src.length offset payloadIdx out =
      writeBytes out offset (maskFrom (keyOf singleMask) payloadIdx (src.drop payloadIdx)) := by
  fun_induction maskBytes with
  | case1 offset payloadIdx out h ih =>
    rw [ih, byteMask_get, List.drop_eq_getElem_cons h, getElem!_pos src _ h]
    rfl
  | case2 offset payloadIdx out h =>
    rw [List.drop_eq_nil_of_le (by omega)]
    rfl

/-- The two loops together write the masked payload. -/
theorem masked_eq (offset payloadIdx : Nat) (out : List UInt8) (aligned : payloadIdx % 4 = 0) :
    (let r := maskWords ((singleMask.toNat <<< 32) ||| singleMask.toNat) src src.length offset payloadIdx out;
      maskBytes (leBytes 8 ((singleMask.toNat <<< 32) ||| singleMask.toNat)) src src.length r.1 r.2.1 r.2.2) =
      writeBytes out offset (maskFrom (keyOf singleMask) payloadIdx (src.drop payloadIdx)) := by
  fun_induction maskWords with
  | case1 offset payloadIdx out h ih =>
    have len : ((src.drop payloadIdx).take 8).length = 8 := by simp; omega
    have split : src.drop payloadIdx = (src.drop payloadIdx).take 8 ++ src.drop (payloadIdx + 8) := by
      rw [← List.drop_drop, List.take_append_drop]
    rw [ih (by omega), split, maskFrom_append, writeBytes_append, length_maskFrom, len, ← split,
      ← keyWord_keyOf, leBytes_keyWord _ payloadIdx aligned _ len]
  | case2 offset payloadIdx out h => exact maskBytes_eq singleMask src offset payloadIdx out

theorem masked_append (header : List UInt8) :
    (let r := maskWords ((singleMask.toNat <<< 32) ||| singleMask.toNat) src src.length header.length 0
        (resize header (header.length + src.length));
      maskBytes (leBytes 8 ((singleMask.toNat <<< 32) ||| singleMask.toNat)) src src.length r.1 r.2.1 r.2.2) =
      header ++ maskFrom (keyOf singleMask) 0 src := by
  have placed := writeBytes_resize header (maskFrom (keyOf singleMask) 0 src)
  rw [length_maskFrom] at placed
  rw [masked_eq singleMask src _ 0 _ rfl, List.drop_zero, placed]

end Loops

/-- A frame as the client writes it. -/
def clientFrame (singleMask : UInt32) (op : OpCode) (payload : List UInt8) (h : payload.length < 2 ^ 64) : Frame :=
  ⟨true, op, lengthForm payload.length, keyOf singleMask, payload, payload_fits payload h⟩

/-- The first bytes, with the mask bit. -/
theorem lengthBytes_clientFrame (singleMask : UInt32) (op : OpCode) {payload : List UInt8}
    (h : payload.length < 2 ^ 64) :
    (let out := putLength payload.length [128 ||| op.toByte]; out.set 1 ((128 : UInt8) ||| out[1]!)) =
      (clientFrame singleMask op payload h).lengthBytes true := by
  simp only [Frame.lengthBytes, Frame.firstByte, Frame.secondByte, Frame.lengthCode, Frame.extended, clientFrame,
    lengthForm, putLength]
  by_cases h16 : payload.length > 65535
  · simp [h16]
  · by_cases h7 : payload.length > 125 <;> simp [h16, h7]

/-- A payload is sent as one masked frame. -/
theorem send_eq_encode {singleMask : UInt32} {op : OpCode} {payload : List UInt8} (h : payload.length < 2 ^ 64)
    (hne : payload ≠ []) :
    send singleMask (some payload) payload.length op = (clientFrame singleMask op payload h).encode true := by
  have hlen : payload.length ≠ 0 := by simpa using hne
  have first := lengthBytes_clientFrame singleMask op h
  have key : leBytes 4 singleMask.toNat = (clientFrame singleMask op payload h).keyBytes := leBytes_four singleMask
  have whole : (clientFrame singleMask op payload h).encode true =
      ((clientFrame singleMask op payload h).lengthBytes true ++ leBytes 4 singleMask.toNat) ++
        maskFrom (keyOf singleMask) 0 payload := by
    rw [key]
    simp [Frame.encode, Frame.header, Frame.lengthBytes]
    rfl
  rw [whole, ← masked_append]
  simp only [send] at first ⊢
  rw [if_pos hlen, first]

/-! ### Client and server -/

/-- The opcodes that the client sends a payload with. -/
def Sendable (op : OpCode) (payload : List UInt8) : Prop :=
  op = .text ∨ op = .binary ∨ op = .pong ∧ payload.length ≤ 125

variable {singleMask : UInt32} {op : OpCode} {payload : List UInt8}

theorem clientFrame_legal (sendable : Sendable op payload) (h : payload.length < 2 ^ 64) :
    (clientFrame singleMask op payload h).Legal none := by
  rcases sendable with rfl | rfl | ⟨rfl, small⟩
  · rfl
  · rfl
  · exact ⟨rfl, small⟩

theorem clientFrame_result (sendable : Sendable op payload) (h : payload.length < 2 ^ 64) :
    (clientFrame singleMask op payload h).result none = (⟨.start, none⟩, [.message op payload]) := by
  rcases sendable with rfl | rfl | ⟨rfl, small⟩ <;> rfl

/-- The server takes a message back from its bytes exactly when it is not empty. -/
theorem send_parse_iff (presz limit : Nat) (singleMask : UInt32) (op : OpCode) (payload : List UInt8)
    (sendable : Sendable op payload) (hlen : payload.length ≤ limit) (hlimit : limit < 2 ^ 64) :
    (∃ ready rest,
      WSStreamServerParser.parse (fresh presz limit) (send singleMask (some payload) payload.length op) 0 =
        .ok (⟨(send singleMask (some payload) payload.length op).length, .takeReadyMessage, DefiniteCloseCode.normal⟩,
          ready) ∧
      WSStreamServerParser.getMessage ready = .ok (⟨op, payload⟩, rest)) ↔ payload ≠ [] := by
  have small : payload.length < 2 ^ 64 := by omega
  have legal : (clientFrame singleMask op payload small).Legal none := clientFrame_legal sendable small
  have within : (clientFrame singleMask op payload small).Within limit none := ⟨hlen, by simp⟩
  have clear : ∀ phase, Phase.OfFrame (clientFrame singleMask op payload small) phase → Clear limit ⟨phase, none⟩ :=
    fun phase => clear_permits .server hlimit none _ phase within
  constructor
  · rintro ⟨ready, rest, parsed, -⟩ rfl
    -- the server waits for the key
    have header : Decoder.Ends (Role.config .server limit) (Clear limit) {}
        (send singleMask (some []) 0 op) (⟨.key true op 0 [], none⟩, []) :=
      lengthBytes_ends (fun phase h => clear phase (by simp [Phase.OfFrame, h])) legal.defined (fun h => absurd rfl h)
    cases parse_ends (rel_fresh .server presz limit) header with
    | moves rel inside atEnd =>
      obtain ⟨r, more, hr⟩ := atEnd rfl
      obtain ⟨rfl, -⟩ := Prod.mk.inj (Except.ok.inj (more.symm.trans parsed))
      cases hr
  · intro hne
    have first : op ≠ .continuation := by
      rcases sendable with rfl | rfl | ⟨rfl, -⟩ <;> simp
    have ends : Decoder.Ends (Role.config .server limit) (Clear limit) {}
        ((clientFrame singleMask op payload small).encode true)
        ((clientFrame singleMask op payload small).result none) :=
      frame_ends clear legal (fun _ => hlen) (fun h => absurd h first) (.inl rfl)
    rw [clientFrame_result sendable, ← send_eq_encode small hne] at ends
    cases parse_ends (rel_fresh .server presz limit) ends with
    | message ready taken rel => exact ⟨_, _, ready, taken⟩

/-- A text of ten bytes under the key `01 02 03 04`. -/
theorem send_parse_ten :
    ∃ ready rest,
      WSStreamServerParser.parse (fresh 512 1024) (send 0x04030201 (some (List.replicate 10 97)) 10 .text) 0 =
        .ok (⟨(send 0x04030201 (some (List.replicate 10 97)) 10 .text).length, .takeReadyMessage,
          DefiniteCloseCode.normal⟩, ready) ∧
      WSStreamServerParser.getMessage ready = .ok (⟨.text, List.replicate 10 97⟩, rest) :=
  (send_parse_iff 512 1024 0x04030201 .text (List.replicate 10 97) (.inl rfl) (by decide) (by decide)).mpr (by decide)

/-- An empty text is two bytes, and the server waits for a key that does not come. -/
theorem send_parse_counterexample :
    send 0x04030201 (some []) 0 .text = [0x81, 0x80] ∧
    ((WSStreamServerParser.parse (fresh 512 1024) [0x81, 0x80] 0).map fun x => x.1.directive) = .ok .more := by
  decide +kernel

end LAppS.ClientWebSocket
