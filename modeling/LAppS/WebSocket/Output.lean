import LAppS.WebSocket.Input
import LAppS.WebSocketProtocol.Senders

/-!
# The output of a server WebSocket

What a service writes to a socket: `ws:send`, `ws:close` and broadcasts, and the CLOSE and PONG events of
`LuaReactiveService::execute`. Only the CLOSE event closes the socket, `ws:close` does not.
-/

namespace LAppS.WebSocket
open Rfc6455 StreamProcessing WebSocketProtocol Senders

/-- The socket with the bytes that have been written; every byte that is sent is written. -/
structure Output where
  mState : State
  wire : List UInt8

inductive Operation where
  | call (c : Call)
  | wsclose (errorCode : Option Int) (further : List (Option (List UInt8)))
      (fits : ∀ reason, some reason ∈ further → reason.length + 2 < 2 ^ 64)
  | closeEvent (ccode : DefiniteCloseCode)

namespace Output

def send (o : Output) (buff : List UInt8) : Output :=
  if o.mState ≠ .closed then { o with wire := o.wire ++ buff } else o

def close (o : Output) : Output := { o with mState := .closed }

variable (mustAutoFragment : Bool)

def step (o : Output) : Operation → Output
  | .call (.pong payload small) =>
    if o.mState = .messaging then ((Call.pong payload small).buffers mustAutoFragment).foldl send o else o
  | .call c => (c.buffers mustAutoFragment).foldl send o
  | .wsclose errorCode further _ =>
    match WebSocketProtocol.wsclose errorCode further with
    | .ok message => o.send message
    | .error _ => o
  | .closeEvent ccode => if o.mState = .messaging then (o.send (ServerCloseMessage.ofCode ccode)).close else o

def run (o : Output) (ops : List Operation) : Output := ops.foldl (step mustAutoFragment) o

def start : Output := ⟨.messaging, []⟩

end Output

def ClosesLast (fs : List Frame) : Prop :=
  ∀ before f after, fs = before ++ f :: after → f.opcode = .close → after = []

/-- At most one Close frame has been written, and no frame after it. -/
def NothingAfterClose (wire : List UInt8) : Prop := ∃ fs : List Frame, encodeAll false fs = wire ∧ ClosesLast fs

namespace Operation

/-- A `ws:close` that returns true. -/
def closes : Operation → Bool
  | .wsclose errorCode further _ => (WebSocketProtocol.wsclose errorCode further).isOk
  | _ => false

def sends : Operation → Bool
  | .call c => c.message.isSome
  | .wsclose errorCode further _ => (WebSocketProtocol.wsclose errorCode further).isOk
  | .closeEvent _ => true

def isCloseEvent : Operation → Bool
  | .closeEvent _ => true
  | _ => false

end Operation

/-- After a `ws:close` on the open socket nothing more is sent. -/
def CloseIsLast (ops : List Operation) : Prop :=
  ∀ before op after, ops = before ++ op :: after → op.closes = true → (∀ op' ∈ before, op'.isCloseEvent = false) →
    ∀ op' ∈ after, op'.sends = false

/-! ### One operation -/

namespace Output

variable {mustAutoFragment : Bool} {o : Output}

theorem foldl_send (isOpen : o.mState ≠ .closed) (buffers : List (List UInt8)) :
    buffers.foldl send o = { o with wire := o.wire ++ buffers.flatten } := by
  induction buffers generalizing o with
  | nil => simp
  | cons b buffers ih =>
    rw [List.foldl_cons, send, if_pos isOpen, ih (o := { o with wire := o.wire ++ b }) isOpen, List.flatten_cons,
      List.append_assoc]

theorem foldl_send_closed (closed : o.mState = .closed) (buffers : List (List UInt8)) :
    buffers.foldl send o = o := by
  induction buffers with
  | nil => rfl
  | cons b buffers ih => rw [List.foldl_cons, send, if_neg (not_not.mpr closed), ih]

theorem step_closed (closed : o.mState = .closed) (op : Operation) : o.step mustAutoFragment op = o := by
  have not_messaging : o.mState ≠ .messaging := by simp [closed]
  cases op with
  | call c =>
    cases c with
    | pong payload small => exact if_neg not_messaging
    | wssendRaw opcode msg fits => exact foldl_send_closed closed _
    | wssendLapps cbor fits => exact foldl_send_closed closed _
    | bcast cbor fits => exact foldl_send_closed closed _
  | wsclose errorCode further fits =>
    cases result : WebSocketProtocol.wsclose errorCode further with
    | ok message => simp only [step, result, send, closed, ne_eq, not_true_eq_false, if_false]
    | error e => simp only [step, result]
  | closeEvent ccode => exact if_neg not_messaging

end Output

/-- The frames of a call: none is a Close, and there is one when the call sends a message. -/
theorem call_frames (mustAutoFragment : Bool) (c : Call) :
    ∃ fs : List Frame, (c.buffers mustAutoFragment).flatten = encodeAll false fs ∧
      (∀ f ∈ fs, f.opcode ≠ .close) ∧ (c.message.isSome = true ↔ fs ≠ []) := by
  have sends := c.sends mustAutoFragment
  generalize c.buffers mustAutoFragment = buffers at sends
  generalize c.message = m at sends
  cases sends with
  | nothing => exact ⟨[], rfl, by simp, by simp⟩
  | pong stays legal next =>
    rename_i f payload
    refine ⟨[f], by simp [encodeAll], ?_, by simp⟩
    intro g hg hclose
    rw [List.mem_singleton.mp hg] at hclose
    have := next none
    simp only [Frame.next, hclose] at this
    split at this <;> simp at this
  | data data carries =>
    rename_i fs op payload
    refine ⟨fs, by rw [encodeAll, List.flatMap_def], ?_, fun _ => carries.ne_nil, fun _ => rfl⟩
    intro f hf hclose
    have := carries.control_free f hf
    rw [hclose] at this
    cases this

theorem close_frame (c : UInt16) {src : List UInt8} (fits : src.length + 2 < 2 ^ 64) :
    ∃ f : Frame, ServerCloseMessage.ofChars c src src.length = f.encode false ∧ f.opcode = .close := by
  have small : (Bytes.beBytes 2 c.toNat ++ src).length < 2 ^ 64 := by
    rw [List.length_append, Bytes.length_beBytes]
    omega
  refine ⟨serverFrame true .close (Bytes.beBytes 2 c.toNat ++ src) small, ?_, rfl⟩
  rw [ofChars_eq, encode_serverFrame]
  rfl

theorem wsclose_frame {errorCode : Option Int} {further : List (Option (List UInt8))} {bytes : List UInt8}
    (fits : ∀ reason, some reason ∈ further → reason.length + 2 < 2 ^ 64)
    (h : WebSocketProtocol.wsclose errorCode further = .ok bytes) :
    ∃ f : Frame, bytes = f.encode false ∧ f.opcode = .close := by
  unfold WebSocketProtocol.wsclose at h
  split at h
  · dsimp only at h
    split at h
    · split at h
      · cases h
        rw [ofCode_eq]
        exact close_frame _ (by simp)
      · cases h
        exact close_frame _ (fits _ (by simp))
      · cases h
      · cases h
    · cases h
  · cases h

namespace Output

variable {mustAutoFragment : Bool} {o : Output}

/-- What an operation does on an open socket, in frames. -/
inductive Effect (o : Output) (op : Operation) : Output → Prop where
  | messages (fs : List Frame) (free : ∀ f ∈ fs, f.opcode ≠ .close) (sends : op.sends = true ↔ fs ≠ [])
      (closes : op.closes = false) (event : op.isCloseEvent = false) :
      Effect o op ⟨.messaging, o.wire ++ encodeAll false fs⟩
  | close (f : Frame) (isClose : f.opcode = .close) (closes : op.closes = true) (event : op.isCloseEvent = false) :
      Effect o op ⟨.messaging, o.wire ++ f.encode false⟩
  | closeEvent (f : Frame) (isClose : f.opcode = .close) (closes : op.closes = false)
      (event : op.isCloseEvent = true) : Effect o op ⟨.closed, o.wire ++ f.encode false⟩

theorem step_call (isOpen : o.mState = .messaging) (c : Call) :
    o.step mustAutoFragment (.call c) = ⟨.messaging, o.wire ++ (c.buffers mustAutoFragment).flatten⟩ := by
  have sent := foldl_send (o := o) (by simp [isOpen]) (c.buffers mustAutoFragment)
  rw [isOpen] at sent
  cases c with
  | pong payload small => exact (if_pos isOpen).trans sent
  | wssendRaw opcode msg fits => exact sent
  | wssendLapps cbor fits => exact sent
  | bcast cbor fits => exact sent

theorem step_open (isOpen : o.mState = .messaging) (op : Operation) : Effect o op (o.step mustAutoFragment op) := by
  have send_eq (buff : List UInt8) : o.send buff = ⟨.messaging, o.wire ++ buff⟩ := by
    rw [send, if_pos (by simp [isOpen]), isOpen]
  cases op with
  | call c =>
    obtain ⟨fs, bytes, free, sends⟩ := call_frames mustAutoFragment c
    rw [step_call isOpen, bytes]
    exact .messages fs free sends rfl rfl
  | wsclose errorCode further fits =>
    cases result : WebSocketProtocol.wsclose errorCode further with
    | ok message =>
      obtain ⟨f, rfl, isClose⟩ := wsclose_frame fits result
      simp only [step, result, send_eq]
      exact .close f isClose (by simp [Operation.closes, result, Except.isOk, Except.toBool]) rfl
    | error e =>
      have same : o.step mustAutoFragment (.wsclose errorCode further fits) =
          ⟨.messaging, o.wire ++ encodeAll false []⟩ := by
        simp only [step, result]
        rw [← isOpen, encodeAll_nil, List.append_nil]
      have rejected : (Operation.wsclose errorCode further fits).sends = false := by
        simp [Operation.sends, result, Except.isOk, Except.toBool]
      rw [same]
      exact .messages [] (by simp) (by simp [rejected]) rejected rfl
  | closeEvent ccode =>
    have small : ([] : List UInt8).length + 2 < 2 ^ 64 := by simp
    obtain ⟨f, bytes, isClose⟩ := close_frame ccode small
    simp only [step, isOpen, if_true, send_eq, close]
    rw [ofCode_eq]
    exact bytes ▸ .closeEvent f isClose rfl rfl

/-! ### Sequences of operations -/

theorem run_closed (closed : o.mState = .closed) (ops : List Operation) : o.run mustAutoFragment ops = o := by
  induction ops with
  | nil => rfl
  | cons op ops ih => rw [run, List.foldl_cons, step_closed closed op]; exact ih

theorem sends_of_closes {op : Operation} (h : op.closes = true) : op.sends = true := by
  cases op with
  | wsclose errorCode further fits => exact h
  | call c => cases h
  | closeEvent ccode => rfl

theorem sends_of_closeEvent {op : Operation} (h : op.isCloseEvent = true) : op.sends = true := by
  cases op with
  | closeEvent ccode => rfl
  | call c => cases h
  | wsclose errorCode further fits => cases h

theorem step_silent (isOpen : o.mState = .messaging) {op : Operation} (silent : op.sends = false) :
    o.step mustAutoFragment op = o := by
  have effect : Effect o op (o.step mustAutoFragment op) := step_open isOpen op
  generalize o.step mustAutoFragment op = o' at effect
  cases effect with
  | messages fs free sends closes event =>
    have none : fs = [] := by
      by_contra some
      rw [sends.mpr some] at silent
      cases silent
    rw [none, encodeAll_nil, List.append_nil, ← isOpen]
  | close f isClose closes event =>
    rw [sends_of_closes closes] at silent
    cases silent
  | closeEvent f isClose closes event =>
    rw [sends_of_closeEvent event] at silent
    cases silent

theorem run_cons (op : Operation) (ops : List Operation) :
    o.run mustAutoFragment (op :: ops) = (o.step mustAutoFragment op).run mustAutoFragment ops := rfl

theorem run_quiet (isOpen : o.mState = .messaging) {ops : List Operation} (quiet : ∀ op ∈ ops, op.sends = false) :
    o.run mustAutoFragment ops = o := by
  induction ops with
  | nil => rfl
  | cons op ops ih =>
    rw [run_cons, step_silent isOpen (quiet op List.mem_cons_self)]
    exact ih fun op' hop => quiet op' (List.mem_cons_of_mem _ hop)

/-- Whatever is written is a sequence of frames, with a frame if an operation sends one. -/
theorem run_frames (isOpen : o.mState = .messaging) (ops : List Operation) :
    ∃ fs : List Frame, (o.run mustAutoFragment ops).wire = o.wire ++ encodeAll false fs ∧
      ((∃ op ∈ ops, op.sends = true) → fs ≠ []) ∧
      ((∀ op ∈ ops, op.isCloseEvent = false) → (o.run mustAutoFragment ops).mState = .messaging) := by
  induction ops generalizing o with
  | nil => exact ⟨[], by simp [run], by simp, fun _ => isOpen⟩
  | cons op ops ih =>
    have effect : Effect o op (o.step mustAutoFragment op) := step_open isOpen op
    rw [run_cons]
    generalize o.step mustAutoFragment op = o' at effect
    cases effect with
    | messages fs free sends closes event =>
      obtain ⟨gs, bytes, some, stays⟩ := ih (o := ⟨.messaging, o.wire ++ encodeAll false fs⟩) rfl
      refine ⟨fs ++ gs, by rw [bytes, encodeAll_append, List.append_assoc], ?_, ?_⟩
      · rintro ⟨op', hop', hsends⟩ none
        obtain ⟨rfl, rfl⟩ := List.append_eq_nil_iff.mp none
        rcases List.mem_cons.mp hop' with rfl | hop'
        · exact sends.mp hsends rfl
        · exact some ⟨op', hop', hsends⟩ rfl
      · intro quiet
        exact stays fun op' hop' => quiet op' (List.mem_cons_of_mem _ hop')
    | close f isClose closes event =>
      obtain ⟨gs, bytes, -, stays⟩ := ih (o := ⟨.messaging, o.wire ++ f.encode false⟩) rfl
      refine ⟨f :: gs, by rw [bytes, encodeAll_cons, List.append_assoc], by simp, ?_⟩
      intro quiet
      exact stays fun op' hop' => quiet op' (List.mem_cons_of_mem _ hop')
    | closeEvent f isClose closes event =>
      rw [run_closed rfl]
      refine ⟨[f], by simp, by simp, ?_⟩
      intro quiet
      rw [quiet op List.mem_cons_self] at event
      cases event

theorem closeIsLast_tail {op : Operation} {ops : List Operation} (h : CloseIsLast (op :: ops))
    (event : op.isCloseEvent = false) : CloseIsLast ops := by
  intro before op' after heq closes quiet
  refine h (op :: before) op' after (by rw [heq]; rfl) closes ?_
  intro op'' hop''
  rcases List.mem_cons.mp hop'' with rfl | hop''
  · exact event
  · exact quiet op'' hop''

theorem closesLast_append {fs gs : List Frame} (free : ∀ f ∈ fs, f.opcode ≠ .close) (h : ClosesLast gs) :
    ClosesLast (fs ++ gs) := by
  intro before f after heq isClose
  rcases List.append_eq_append_iff.mp heq with ⟨middle, rfl, hgs⟩ | ⟨middle, hfs, hafter⟩
  · exact h middle f after hgs isClose
  · cases middle with
    | nil => exact h [] f after hafter.symm isClose
    | cons g middle =>
      obtain ⟨rfl, -⟩ := List.cons.inj hafter
      exact absurd isClose (free f (by simp [hfs]))

theorem closesLast_singleton (f : Frame) : ClosesLast [f] := by
  intro before g after heq _
  cases before with
  | nil => exact (List.cons.inj heq).2.symm
  | cons b before => simp at heq

theorem run_closesLast (isOpen : o.mState = .messaging) {ops : List Operation} (last : CloseIsLast ops) :
    ∃ fs : List Frame, (o.run mustAutoFragment ops).wire = o.wire ++ encodeAll false fs ∧ ClosesLast fs := by
  induction ops generalizing o with
  | nil => exact ⟨[], by simp [run], by simp [ClosesLast]⟩
  | cons op ops ih =>
    have effect : Effect o op (o.step mustAutoFragment op) := step_open isOpen op
    rw [run_cons]
    generalize o.step mustAutoFragment op = o' at effect
    cases effect with
    | messages fs free sends closes event =>
      obtain ⟨gs, bytes, hgs⟩ := ih (o := ⟨.messaging, o.wire ++ encodeAll false fs⟩) rfl (closeIsLast_tail last event)
      exact ⟨fs ++ gs, by rw [bytes, encodeAll_append, List.append_assoc], closesLast_append free hgs⟩
    | close f isClose closes event =>
      rw [run_quiet rfl (last [] op ops rfl closes (by simp))]
      exact ⟨[f], by simp, closesLast_singleton f⟩
    | closeEvent f isClose closes event =>
      rw [run_closed rfl]
      exact ⟨[f], by simp, closesLast_singleton f⟩

/-- Two readings of the same bytes have their Close frames in the same places. -/
theorem closesLast_unique {fs gs : List Frame} (same : encodeAll false fs = encodeAll false gs)
    (h : ClosesLast fs) : ClosesLast gs := by
  intro before g after heq isClose
  have keys := encodeAll_inj same
  rw [heq, List.map_append, List.map_cons] at keys
  obtain ⟨before', rest, hfs, -, hrest⟩ := List.map_eq_append_iff.mp keys
  obtain ⟨f, after', rfl, hf, hafter⟩ := List.map_eq_cons_iff.mp hrest
  have isClose' : f.opcode = .close := by
    have same : f.unkeyed.opcode = g.unkeyed.opcode := by rw [hf]
    exact same.trans isClose
  rw [h before' f after' hfs isClose'] at hafter
  exact List.map_eq_nil_iff.mp hafter.symm

end Output

/-- Nothing follows a Close frame on the wire exactly when nothing is sent after a `ws:close`. -/
theorem nothing_after_close_iff (mustAutoFragment : Bool) (ops : List Operation) :
    NothingAfterClose (Output.start.run mustAutoFragment ops).wire ↔ CloseIsLast ops := by
  constructor
  · rintro ⟨fs, bytes, last⟩ before op after rfl closes quiet op' hop'
    obtain ⟨fs₁, bytes₁, -, stays⟩ :=
      @Output.run_frames mustAutoFragment Output.start rfl before
    have isOpen := stays quiet
    have split : Output.start.run mustAutoFragment (before ++ op :: after) =
        ((Output.start.run mustAutoFragment before).step mustAutoFragment op).run mustAutoFragment after :=
      List.foldl_append
    rw [split] at bytes
    generalize Output.start.run mustAutoFragment before = o at bytes bytes₁ isOpen
    have effect : Output.Effect o op (o.step mustAutoFragment op) := Output.step_open isOpen op
    generalize o.step mustAutoFragment op = o' at effect bytes
    cases effect with
    | close f isClose _ _ =>
      obtain ⟨fs₂, bytes₂, some, -⟩ := @Output.run_frames mustAutoFragment
        ⟨.messaging, o.wire ++ f.encode false⟩ rfl after
      have whole : encodeAll false fs = encodeAll false (fs₁ ++ f :: fs₂) := by
        rw [bytes, bytes₂, bytes₁, encodeAll_append, encodeAll_cons, List.append_assoc]
        rfl
      have none := Output.closesLast_unique whole last fs₁ f fs₂ rfl isClose
      by_contra sends
      exact some ⟨op', hop', by simpa using sends⟩ none
    | messages fs free sends closes' event =>
      rw [closes] at closes'
      cases closes'
    | closeEvent f isClose closes' event =>
      rw [closes] at closes'
      cases closes'
  · intro last
    obtain ⟨fs, bytes, hfs⟩ :=
      @Output.run_closesLast mustAutoFragment Output.start rfl ops last
    exact ⟨fs, bytes.symm, hfs⟩

def normalClose : Frame := ⟨true, .close, .seven, fun _ => 0, [0x03, 0xe8], by simp [LengthForm.Fits]⟩

/-- The service closes, and the peer answers with a Close frame of its own. -/
def twoCloses : List Operation := [.wsclose (some 1000) [] (by simp), .closeEvent 1000]

theorem nothing_after_close_counterexample :
    (Output.start.run false twoCloses).wire = normalClose.encode false ++ normalClose.encode false ∧
      ¬NothingAfterClose (Output.start.run false twoCloses).wire := by
  have wire : (Output.start.run false twoCloses).wire = encodeAll false [normalClose, normalClose] := by decide
  refine ⟨by rw [wire]; rfl, ?_⟩
  rintro ⟨fs, bytes, last⟩
  have two := Output.closesLast_unique (bytes.trans wire) last [] normalClose [normalClose] rfl rfl
  cases two

end LAppS.WebSocket
