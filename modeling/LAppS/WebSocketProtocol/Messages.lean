import LAppS.Rfc6455.Fragments

/-!
# The messages of the server

The bytes that the constructors of `ServerMessage`, `FragmentedServerMessage` and `ServerPongMessage` build,
and the frames these bytes are.
-/

namespace LAppS.WebSocketProtocol
open Rfc6455 Bytes

def putLength (pllength : Nat) (out : List UInt8) : List UInt8 :=
  if pllength > 65535 then out ++ 127 :: beBytes 8 pllength
  else if pllength > 125 then out ++ 126 :: beBytes 2 pllength
  else out ++ [UInt8.ofNat pllength]

/-- What every constructor builds: a first byte, the length and `len` bytes of `src`. -/
def message (first : UInt8) (src : List UInt8) (len : Nat) : List UInt8 := putLength len [first] ++ src.take len

namespace ServerMessage

def ofShared (oc : OpCode) (src : List UInt8) : List UInt8 := message (128 ||| oc.toByte) src src.length

def ofChars (oc : OpCode) (src : List UInt8) (len : Nat) : List UInt8 := message (128 ||| oc.toByte) src len

def ofVector (oc : OpCode) (src : List UInt8) : List UInt8 := message (128 ||| oc.toByte) src src.length

/-- The constructor that writes into a shared buffer. -/
def intoShared (oc : OpCode) (src : List UInt8) : List UInt8 := message (128 ||| oc.toByte) src src.length

end ServerMessage

def ServerPongMessage (src : List UInt8) : List UInt8 := message (128 ||| 10) src src.length

namespace FragmentedServerMessage

def fragmentPlSize : Nat := 1392

/-- The conversion of a `size_t` to `int`. -/
def toInt (n : Nat) : Int := ((n + 2 ^ 31) % 2 ^ 32 : Nat) - 2 ^ 31

/-- The loop over the continuation fragments, with the bytes left behind it. -/
def continuations (src : List UInt8) (len : Nat) (fragments : Int) (bytesLeft : Nat)
    (out : List (List UInt8)) : Nat × List (List UInt8) :=
  if fragments - 1 > 0 then
    continuations src len (fragments - 1) (bytesLeft - fragmentPlSize)
      (out ++ [message 0 (src.drop (len - bytesLeft)) fragmentPlSize])
  else (bytesLeft, out)
termination_by fragments.toNat

/-- The queue of frames that all three constructors build. -/
def build (oc : OpCode) (src : List UInt8) (len : Nat) : List (List UInt8) :=
  let fragments := toInt (len / fragmentPlSize)
  if fragments > 1 then
    let first := message oc.toByte src fragmentPlSize
    let (bytesLeft, out) := continuations src len (fragments - 1) (len - fragmentPlSize) [first]
    out ++ [message 128 (src.drop (len - bytesLeft)) bytesLeft]
  else [message (128 ||| oc.toByte) src len]

def ofChars (oc : OpCode) (src : List UInt8) (len : Nat) : List (List UInt8) := build oc src len

def ofVector (oc : OpCode) (src : List UInt8) : List (List UInt8) := build oc src src.length

def ofShared (oc : OpCode) (src : List UInt8) : List (List UInt8) := build oc src src.length

end FragmentedServerMessage

/-! ### The frames -/

def lengthForm (n : Nat) : LengthForm := if n > 65535 then .sixtyFour else if n > 125 then .sixteen else .seven

theorem lengthForm_fits {n : Nat} (h : n < 2 ^ 64) : (lengthForm n).Fits n := by
  unfold lengthForm
  split
  · exact h
  · split
    · show n < 256 ^ 2
      omega
    · show n ≤ 125
      omega

theorem payload_fits (payload : List UInt8) (h : payload.length < 2 ^ 64) :
    (lengthForm payload.length).Fits payload.length := lengthForm_fits h

/-- A frame as the server writes it. -/
def serverFrame (fin : Bool) (op : OpCode) (payload : List UInt8) (h : payload.length < 2 ^ 64) : Frame :=
  ⟨fin, op, lengthForm payload.length, fun _ => 0, payload, payload_fits payload h⟩

@[simp] theorem serverFrame_payload {fin : Bool} {op : OpCode} {payload : List UInt8} (h : payload.length < 2 ^ 64) :
    (serverFrame fin op payload h).payload = payload := rfl

theorem putLength_append (n : Nat) (out : List UInt8) : putLength n out = out ++ putLength n [] := by
  unfold putLength
  repeat' split
  all_goals simp

theorem encode_serverFrame {fin : Bool} {op : OpCode} {payload : List UInt8} (h : payload.length < 2 ^ 64) :
    (serverFrame fin op payload h).encode false =
      message ((if fin then 128 else 0) ||| op.toByte) payload payload.length := by
  have hlen : (serverFrame fin op payload h).lengthCode :: (serverFrame fin op payload h).extended =
      putLength payload.length [] := by
    simp only [Frame.lengthCode, Frame.extended, serverFrame, lengthForm, putLength]
    by_cases h16 : payload.length > 65535
    · simp [h16]
    · by_cases h7 : payload.length > 125 <;> simp [h16, h7]
  unfold message
  rw [putLength_append, ← hlen, List.take_length]
  simp [Frame.encode, Frame.header, Frame.firstByte, Frame.secondByte, serverFrame]
  rfl

/-- The bytes behind the end of the payload in the source buffer are not sent. -/
theorem message_take (first : UInt8) (src tail : List UInt8) (i len : Nat) (h : i + len ≤ src.length) :
    message first ((src ++ tail).drop i) len =
      message first ((src.drop i).take len) ((src.drop i).take len).length := by
  have hlen : ((src.drop i).take len).length = len := by
    rw [List.length_take, List.length_drop]
    omega
  have here : ((src ++ tail).drop i).take len = (src.drop i).take len := by
    rw [List.drop_append_of_le_length (by omega), List.take_append_of_le_length (by simp; omega)]
  rw [hlen, message, message, here, List.take_take, Nat.min_self]

theorem first_legal {fin : Bool} {oc : OpCode} (data : oc.isData = true) {payload : List UInt8}
    {h : payload.length < 2 ^ 64} : (serverFrame fin oc payload h).Legal none := by
  cases oc <;> simp [OpCode.isData] at data <;> rfl

theorem first_next {oc : OpCode} (data : oc.isData = true) {payload : List UInt8} {h : payload.length < 2 ^ 64} :
    ((serverFrame false oc payload h).next none).1 = some (oc, payload) := by
  cases oc <;> simp [OpCode.isData] at data <;> rfl

/-- An unfragmented message is one frame. -/
theorem carries_single {oc : OpCode} (data : oc.isData = true) {src : List UInt8} (h : src.length < 2 ^ 64) :
    Carries none [serverFrame true oc src h] oc src := by
  cases oc <;> simp [OpCode.isData] at data
  · exact .last rfl rfl rfl
  · exact .last rfl rfl rfl

namespace FragmentedServerMessage

theorem toInt_le (n : Nat) : toInt n ≤ n := by
  unfold toInt
  omega

/-- `k` rounds of the loop send `k` full fragments. -/
theorem continuations_carries (src tail : List UInt8) (op : OpCode) (k : Nat) (bytesLeft : Nat)
    (out : List (List UInt8)) (enough : fragmentPlSize * k ≤ bytesLeft) (fits : bytesLeft ≤ src.length) :
    ∃ ms : List Frame,
      continuations (src ++ tail) src.length (k + 1) bytesLeft out =
        (bytesLeft - fragmentPlSize * k, out ++ ms.map (Frame.encode false)) ∧
      (∀ f ∈ ms, f.payload ≠ []) ∧
      ∀ rest payload,
        Carries (some (op, src.take (src.length - (bytesLeft - fragmentPlSize * k)))) rest op payload →
        Carries (some (op, src.take (src.length - bytesLeft))) (ms ++ rest) op payload := by
  induction k generalizing bytesLeft out with
  | zero =>
    refine ⟨[], ?_, by simp, fun _ _ h => h⟩
    rw [continuations, if_neg (by simp)]
    simp
  | succ k ih =>
    rw [Nat.mul_succ] at enough ⊢
    have hsize : 0 < fragmentPlSize ∧ fragmentPlSize < 2 ^ 64 := by decide
    have hlen : ((src.drop (src.length - bytesLeft)).take fragmentPlSize).length = fragmentPlSize := by
      rw [List.length_take, List.length_drop]
      omega
    have grown : src.take (src.length - bytesLeft) ++ (src.drop (src.length - bytesLeft)).take fragmentPlSize =
        src.take (src.length - (bytesLeft - fragmentPlSize)) := by
      rw [← List.take_add, show src.length - bytesLeft + fragmentPlSize =
        src.length - (bytesLeft - fragmentPlSize) by omega]
    have sent := message_take 0 src tail (src.length - bytesLeft) fragmentPlSize (by omega)
    obtain ⟨ms, loop, nonempty, carries⟩ := ih (bytesLeft - fragmentPlSize)
      (out ++ [message 0 ((src ++ tail).drop (src.length - bytesLeft)) fragmentPlSize]) (by omega) (by omega)
    rw [Nat.sub_sub, Nat.add_comm fragmentPlSize] at loop carries
    -- the fragment that this round sends
    generalize (src.drop (src.length - bytesLeft)).take fragmentPlSize = piece at hlen grown sent
    have small : piece.length < 2 ^ 64 := by omega
    refine ⟨serverFrame false .continuation piece small :: ms, ?_, ?_, fun rest payload h => ?_⟩
    · rw [continuations, if_pos (by omega), show ((k + 1 : Nat) : Int) + 1 - 1 = (k : Int) + 1 by omega, loop, sent,
        List.map_cons, encode_serverFrame, List.append_assoc]
      rfl
    · intro f hf
      rcases List.mem_cons.mp hf with rfl | hf
      · rw [serverFrame_payload]
        rintro rfl
        simp at hlen
        omega
      · exact nonempty f hf
    · refine .more rfl rfl ?_
      have next : ((serverFrame false .continuation piece small).next
          (some (op, src.take (src.length - bytesLeft)))).1 =
          some (op, src.take (src.length - (bytesLeft - fragmentPlSize))) := by
        rw [← grown]
        rfl
      rw [next]
      exact carries rest payload h

/-- A first fragment, `k` more full ones and the rest of the payload carry the message. -/
theorem fragments_carries {oc : OpCode} (data : oc.isData = true) {src : List UInt8} (tail : List UInt8) (k : Nat)
    (hlen : src.length < 2 ^ 64) (enough : fragmentPlSize * k + fragmentPlSize + fragmentPlSize ≤ src.length) :
    ∃ fs : List Frame,
      (let (bytesLeft, out) := continuations (src ++ tail) src.length (k + 1) (src.length - fragmentPlSize)
          [message oc.toByte (src ++ tail) fragmentPlSize];
        out ++ [message 128 ((src ++ tail).drop (src.length - bytesLeft)) bytesLeft]) = fs.map (Frame.encode false) ∧
      Carries none fs oc src ∧ ∀ f ∈ fs, f.payload ≠ [] := by
  have hsize : 0 < fragmentPlSize ∧ fragmentPlSize < 2 ^ 64 := by decide
  obtain ⟨ms, loop, nonempty, carries⟩ := continuations_carries src tail oc k (src.length - fragmentPlSize)
    [message oc.toByte (src ++ tail) fragmentPlSize] (by omega) (by omega)
  rw [show src.length - (src.length - fragmentPlSize) = fragmentPlSize by omega] at carries
  rw [loop]
  -- the bytes that stay for the last fragment
  obtain ⟨left, hleft⟩ : ∃ left, left = src.length - fragmentPlSize - fragmentPlSize * k := ⟨_, rfl⟩
  rw [← hleft] at carries ⊢
  dsimp only
  have firstLen : (src.take fragmentPlSize).length = fragmentPlSize := by rw [List.length_take]; omega
  have lastLen : (src.drop (src.length - left)).length = left := by rw [List.length_drop]; omega
  refine ⟨serverFrame false oc (src.take fragmentPlSize) (by omega) ::
    (ms ++ [serverFrame true .continuation (src.drop (src.length - left)) (by omega)]), ?_, ?_, fun f hf => ?_⟩
  · have first := message_take oc.toByte src tail 0 fragmentPlSize (by omega)
    have last := message_take 128 src tail (src.length - left) left (by omega)
    rw [List.drop_zero, List.drop_zero] at first
    rw [List.take_of_length_le (Nat.le_of_eq lastLen)] at last
    rw [first, last, List.map_cons, List.map_append, List.map_singleton, encode_serverFrame, encode_serverFrame,
      List.append_assoc]
    simp
    rfl
  · refine .more (first_legal data) rfl ?_
    rw [first_next data]
    refine carries _ _ (.last rfl rfl ?_)
    show (none, [Event.message oc (src.take (src.length - left) ++ src.drop (src.length - left))]) = _
    rw [List.take_append_drop]
  · rcases List.mem_cons.mp hf with rfl | hf
    · exact List.ne_nil_of_length_pos (by rw [serverFrame_payload]; omega)
    · rcases List.mem_append.mp hf with hf | hf
      · exact nonempty f hf
      · rw [List.mem_singleton.mp hf]
        exact List.ne_nil_of_length_pos (by rw [serverFrame_payload]; omega)

/-- The frames that are queued carry the message, and none of them is empty unless the message is. The last
fragment has whatever the others leave, also when the number of fragments does not fit an `int`. -/
theorem build_carries {oc : OpCode} (data : oc.isData = true) {src : List UInt8} (tail : List UInt8)
    (hlen : src.length < 2 ^ 64) :
    ∃ fs : List Frame, build oc (src ++ tail) src.length = fs.map (Frame.encode false) ∧ Carries none fs oc src ∧
      (src ≠ [] → ∀ f ∈ fs, f.payload ≠ []) := by
  have hint := toInt_le (src.length / fragmentPlSize)
  unfold build
  generalize toInt (src.length / fragmentPlSize) = fragments at hint ⊢
  by_cases several : fragments > 1
  · obtain ⟨k, rfl⟩ : ∃ k : Nat, fragments = (k : Int) + 2 := ⟨(fragments - 2).toNat, by omega⟩
    have enough : fragmentPlSize * k + fragmentPlSize + fragmentPlSize ≤ src.length := by
      have total : (k + 2) * fragmentPlSize ≤ src.length :=
        (Nat.mul_le_mul_right _ (by omega)).trans (Nat.div_mul_le_self src.length fragmentPlSize)
      rw [Nat.mul_comm, Nat.mul_add, Nat.mul_two] at total
      omega
    obtain ⟨fs, sent, carries, nonempty⟩ := fragments_carries data tail k hlen enough
    refine ⟨fs, ?_, carries, fun _ => nonempty⟩
    dsimp only
    rw [if_pos several, show (k : Int) + 2 - 1 = (k : Int) + 1 by omega]
    generalize continuations (src ++ tail) src.length (k + 1) (src.length - fragmentPlSize)
      [message oc.toByte (src ++ tail) fragmentPlSize] = r at sent ⊢
    exact sent
  · rw [if_neg several]
    refine ⟨[serverFrame true oc src hlen], ?_, carries_single data hlen, fun hne f hf => ?_⟩
    · rw [List.map_singleton, encode_serverFrame]
      simp [message]
    · rw [List.mem_singleton.mp hf]
      exact hne

end FragmentedServerMessage

/-! ### The sizes of the fragments -/

/-- The payload of a frame of the server: what is behind its header. -/
def payloadOf (frame : List UInt8) : List UInt8 :=
  frame.drop (if frame[1]? = some 127 then 10 else if frame[1]? = some 126 then 4 else 2)

theorem payloadOf_message (first : UInt8) (src : List UInt8) (len : Nat) :
    payloadOf (message first src len) = src.take len := by
  unfold payloadOf message putLength
  split
  · simp [beBytes]
  · split
    · simp [beBytes]
    next small =>
      have byte : (UInt8.ofNat len).toNat = len := toNat_ofNat_byte len ▸ Nat.mod_eq_of_lt (by omega)
      have not127 : UInt8.ofNat len ≠ 127 := fun h => by rw [h] at byte; simp at byte; omega
      have not126 : UInt8.ofNat len ≠ 126 := fun h => by rw [h] at byte; simp at byte; omega
      simp [not126, not127]

namespace FragmentedServerMessage

/-- `k` rounds of the loop queue `k` full fragments. -/
theorem continuations_sizes (src : List UInt8) (len k bytesLeft : Nat) (out : List (List UInt8))
    (enough : fragmentPlSize * k ≤ bytesLeft) (fits : bytesLeft ≤ len) (hlen : len ≤ src.length) :
    ∃ ms, continuations src len (k + 1) bytesLeft out = (bytesLeft - fragmentPlSize * k, out ++ ms) ∧
      ∀ m ∈ ms, (payloadOf m).length = fragmentPlSize := by
  induction k generalizing bytesLeft out with
  | zero =>
    refine ⟨[], ?_, by simp⟩
    rw [continuations, if_neg (by simp)]
    simp
  | succ k ih =>
    rw [Nat.mul_succ] at enough ⊢
    obtain ⟨ms, loop, full⟩ := ih (bytesLeft - fragmentPlSize)
      (out ++ [message 0 (src.drop (len - bytesLeft)) fragmentPlSize]) (by omega) (by omega)
    refine ⟨message 0 (src.drop (len - bytesLeft)) fragmentPlSize :: ms, ?_, ?_⟩
    · rw [continuations, if_pos (by omega), show ((k + 1 : Nat) : Int) + 1 - 1 = (k : Int) + 1 by omega, loop,
        List.append_assoc, Nat.sub_sub, Nat.add_comm fragmentPlSize]
      rfl
    · intro m hm
      rcases List.mem_cons.mp hm with rfl | hm
      · rw [payloadOf_message, List.length_take, List.length_drop]
        omega
      · exact full m hm

/-- The fragments are full but for the last one, which has the rest; a message of less than two fragments is one frame. -/
theorem build_sizes (oc : OpCode) (src tail : List UInt8) :
    (∀ frame ∈ build oc (src ++ tail) src.length, (payloadOf frame).length ≤ fragmentPlSize) ↔
      if toInt (src.length / fragmentPlSize) > 1 then
        src.length ≤ fragmentPlSize * (toInt (src.length / fragmentPlSize)).toNat
      else src.length ≤ fragmentPlSize := by
  have hint := toInt_le (src.length / fragmentPlSize)
  have whole := Nat.div_mul_le_self src.length fragmentPlSize
  unfold build
  generalize toInt (src.length / fragmentPlSize) = fragments at hint ⊢
  by_cases several : fragments > 1
  · obtain ⟨k, rfl⟩ : ∃ k : Nat, fragments = (k : Int) + 2 := ⟨(fragments - 2).toNat, by omega⟩
    have total : fragmentPlSize * k + fragmentPlSize + fragmentPlSize ≤ src.length := by
      have := (Nat.mul_le_mul_right fragmentPlSize (show k + 2 ≤ src.length / fragmentPlSize by omega)).trans whole
      rw [Nat.mul_comm, Nat.mul_add, Nat.mul_two] at this
      omega
    obtain ⟨ms, loop, full⟩ := continuations_sizes (src ++ tail) src.length k (src.length - fragmentPlSize)
      [message oc.toByte (src ++ tail) fragmentPlSize] (by omega) (by omega) (by simp)
    dsimp only
    rw [if_pos several, if_pos several, show (k : Int) + 2 - 1 = (k : Int) + 1 by omega, loop]
    dsimp only
    have last : (payloadOf (message 128 ((src ++ tail).drop
        (src.length - (src.length - fragmentPlSize - fragmentPlSize * k)))
        (src.length - fragmentPlSize - fragmentPlSize * k))).length =
        src.length - fragmentPlSize - fragmentPlSize * k := by
      rw [payloadOf_message, List.length_take, List.length_drop, List.length_append]
      omega
    have number : fragmentPlSize * ((k : Int) + 2).toNat = fragmentPlSize * k + fragmentPlSize + fragmentPlSize := by
      rw [show ((k : Int) + 2).toNat = k + 2 by omega, Nat.mul_add, Nat.mul_two]
      omega
    rw [number]
    constructor
    · intro within
      have := within _ (List.mem_append_right _ List.mem_cons_self)
      rw [last] at this
      omega
    · intro exact_ frame hframe
      rcases List.mem_append.mp hframe with hframe | hframe
      · rcases List.mem_append.mp hframe with hframe | hframe
        · rw [List.mem_singleton.mp hframe, payloadOf_message, List.length_take]
          exact Nat.min_le_left _ _
        · exact (full frame hframe).le
      · rw [List.mem_singleton.mp hframe, last]
        omega
  · rw [if_neg several, if_neg several]
    simp only [List.mem_singleton, forall_eq, payloadOf_message, List.take_left]

/-- The queues of the three constructors; `tail` is what lies behind the payload in memory. -/
def queues (oc : OpCode) (src tail : List UInt8) : List (List (List UInt8)) :=
  [ofChars oc (src ++ tail) src.length, ofVector oc src, ofShared oc src]

/-- The number of full fragments, as an `int`. -/
theorem toInt_eq_iff (n : Nat) (h : toInt n > 1) : (toInt n).toNat = n ↔ n < 2 ^ 31 := by
  unfold toInt at h ⊢
  omega

/-- No frame is too big exactly when the message is one frame of the limit at most, or full fragments only, whose
number is an `int`. -/
theorem fragments_within_iff (oc : OpCode) (src tail : List UInt8) :
    (∀ queue ∈ queues oc src tail, ∀ frame ∈ queue, (payloadOf frame).length ≤ fragmentPlSize) ↔
      src.length ≤ fragmentPlSize ∨ fragmentPlSize ∣ src.length ∧ src.length / fragmentPlSize < 2 ^ 31 := by
  have same := build_sizes oc src []
  rw [List.append_nil] at same
  have each : (∀ queue ∈ queues oc src tail, ∀ frame ∈ queue, (payloadOf frame).length ≤ fragmentPlSize) ↔
      if toInt (src.length / fragmentPlSize) > 1 then
        src.length ≤ fragmentPlSize * (toInt (src.length / fragmentPlSize)).toNat
      else src.length ≤ fragmentPlSize := by
    simp only [queues, ofChars, ofVector, ofShared, List.forall_mem_cons, List.not_mem_nil, false_imp_iff, implies_true,
      and_true, build_sizes, same, and_self]
  have hint := toInt_le (src.length / fragmentPlSize)
  have whole := Nat.mul_div_le src.length fragmentPlSize
  rw [each]
  split
  next several =>
    have number := toInt_eq_iff _ several
    have two : fragmentPlSize * 2 ≤ fragmentPlSize * (src.length / fragmentPlSize) :=
      Nat.mul_le_mul_left _ (by omega)
    have size : 0 < fragmentPlSize := by decide
    constructor
    · intro small
      have most := Nat.mul_le_mul_left fragmentPlSize
        (show (toInt (src.length / fragmentPlSize)).toNat ≤ src.length / fragmentPlSize by omega)
      have exact_ : src.length = fragmentPlSize * (src.length / fragmentPlSize) := by omega
      have same : (toInt (src.length / fragmentPlSize)).toNat = src.length / fragmentPlSize :=
        Nat.eq_of_mul_eq_mul_left size (by omega)
      exact .inr ⟨⟨_, exact_⟩, number.mp same⟩
    · rintro (small | ⟨divides, fits⟩)
      · omega
      · rw [number.mpr fits, Nat.mul_div_cancel' divides]
  next one =>
    constructor
    · exact .inl
    · rintro (small | ⟨divides, fits⟩)
      · exact small
      · have : src.length / fragmentPlSize ≤ 1 := by
          unfold toInt at one
          omega
        calc src.length = fragmentPlSize * (src.length / fragmentPlSize) := (Nat.mul_div_cancel' divides).symm
          _ ≤ fragmentPlSize * 1 := Nat.mul_le_mul_left _ this
          _ = fragmentPlSize := Nat.mul_one _

/-- One byte more than a fragment holds. -/
theorem fragments_counterexample :
    (build .text (List.replicate 1393 7) (List.replicate 1393 7).length).map (fun frame => (payloadOf frame).length) =
      [1393] := by
  decide +kernel

end FragmentedServerMessage
end LAppS.WebSocketProtocol
