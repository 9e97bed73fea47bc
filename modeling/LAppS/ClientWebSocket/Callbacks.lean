import LAppS.ClientWebSocket.Input
import LAppS.Transition.Runs

/-!
# The callbacks of a client connection

`cws_eventloop` calls `handleInput` again as long as there is input, whatever the last message has done to the
connection. The table of callbacks of a connection stays where it is: `cws_remove_handler` clears a field of that table
and not the table, so that a callback can follow on the one for a Close frame.
-/

namespace LAppS.ClientWebSocket
open Rfc6455 StreamProcessing

inductive Callback where
  | onopen
  | onmessage (message : List UInt8) (type : OpCode)
  | onclose (message : List UInt8)
  | onerror (message : String)
  deriving DecidableEq, Repr

/-- Which functions the table of the connection has. -/
structure Handlers where
  onopen : Bool
  onmessage : Bool
  onclose : Bool
  onerror : Bool

def Handlers.has (h : Handlers) : Callback → Bool
  | .onopen => h.onopen
  | .onmessage _ _ => h.onmessage
  | .onclose _ => h.onclose
  | .onerror _ => h.onerror

/-- The events for a descriptor, as `is_error_event` and `is_in_event` tell them apart. -/
inductive PollEvent where
  | error | input | other
  deriving DecidableEq, Repr

inductive OnConnectDirective where
  | fail | poll
  deriving DecidableEq, Repr

/-- The outcome of `wolfSSL_connect`, and of the way back to a blocking socket. -/
inductive TLSConnect where
  | wantRead
  | failed
  | connected (blocking : Bool)
  deriving DecidableEq, Repr

/-- What the calls of one round get from the system: the bytes of `recv`, the outcome of the TLS handshake, whether the
upgrade request is sent, and the accept value for its key. -/
structure Answers where
  received : List UInt8
  connect : TLSConnect
  sent : Bool
  accept : List UInt8

namespace Socket

def wsConnect (ws : Socket) : TLSConnect → OnConnectDirective × Socket
  | .wantRead => (.poll, ws)
  | .failed => (.fail, ws)
  | .connected blocking => (if blocking then .poll else .fail, { ws with mState := .upgrade })

def wsUpgrade (ws : Socket) (answers : Answers) : OnConnectDirective × Socket :=
  if answers.sent then (.poll, { ws with accept := answers.accept, mState := .handshake })
  else (.fail, { ws with accept := answers.accept })

/-- The bytes that `handleInput` gives to the parser. -/
def readable (ws : Socket) (received : List UInt8) : List UInt8 :=
  if ws.cursor = 0 then received else ws.recvBuffer.drop ws.cursor

end Socket

/-- What `onEvent` calls. -/
def callbackOf (event : WSEvent) : Option Callback :=
  match event.type with
  | .text =>
    if isValidUtf8 event.message event.message.length then some (.onmessage event.message event.type) else none
  | .binary => some (.onmessage event.message event.type)
  | .close => some (.onclose event.message)
  | .ping | .pong => none
  | _ => some (.onerror "Protocol violation, - unknown frame type")

/-- A connection under the event loop: an event that `epoll` has reported and the loop has not come to, whether the
loop will call `handleInput`, and as history the callbacks and the messages so far. -/
structure Connection where
  ws : Socket
  inPool : Bool
  event : Option PollEvent
  looping : Bool
  callbacks : List Callback
  events : List Event

namespace Connection

/-- `cws_create`, which leaves a socket that fails without callbacks. -/
def create (tls : Bool) (recvBuffer : List UInt8) (answers : Answers) : Option Connection :=
  let ws : Socket :=
    { cursor := 0, mState := if tls then .connect else .upgrade, recvBuffer, streamProcessor := Parser.new 512,
      accept := [], closeCode := none, count := 0, received := [], parsed := [] }
  match if tls then ws.wsConnect answers.connect else ws.wsUpgrade answers with
  | (.poll, ws) => some { ws, inPool := true, event := none, looping := false, callbacks := [], events := [] }
  | (.fail, _) => none

variable (toupper : List UInt8 → List UInt8) (h : Handlers)

/-- A callback that is `nil` is not called. -/
def call (c : Connection) (callback : Callback) : Connection :=
  if h.has callback then { c with callbacks := c.callbacks ++ [callback] } else c

def remove (c : Connection) : Connection := { c with inPool := false }

/-- The loop ends behind this round. -/
def leave (c : Connection) : Connection := { c with looping := false }

def fails (c : Connection) (message : String) : Connection := (c.leave.call h (.onerror message)).remove

def upgrade (c : Connection) (answers : Answers) : Connection :=
  match c.ws.wsUpgrade answers with
  | (.fail, ws) => { c with ws }.fails h "Communication error on HTTP Upgrade Request"
  | (.poll, ws) => { c with ws }.leave

/-- `onEvent` for the message that is ready. -/
def deliver (c : Connection) : Connection :=
  let (event, streamProcessor) := WSStreamClientParser.getMessage c.ws.streamProcessor
  let (ws, stays) := onEvent { c.ws with streamProcessor } event
  let c := { c with ws, events := c.events ++ [.message event.type event.message] }
  let c :=
    match callbackOf event with
    | some callback => c.call h callback
    | none => c
  if stays then c else c.remove

def dispatch (c : Connection) (answers : Answers) : InputStatus → Connection
  | .forceClose => (c.leave.call h (.onclose [])).remove
  | .error => c.fails h "Communication error on read from socket, - it is already closed"
  | .mustConnect =>
    match c.ws.wsConnect answers.connect with
    | (.fail, ws) => { c with ws }.fails h "Communication error on TLS handshake"
    | (.poll, ws) => if ws.mState = .upgrade then { c with ws }.upgrade h answers else { c with ws }.leave
  | .mustUpgrade => c.upgrade h answers
  | .needMoreData => c.leave
  | .messageReadyBufferIsEmpty => (c.deliver h).leave
  | .messageReadyBufferIsNotEmpty => c.deliver h
  | .upgraded => (c.call h .onopen).leave
  | .upgradedBuffNotEmpty => c.call h .onopen
  | .callOnceMore => c

/-- One round of the loop. An exception leaves `cws_eventloop`. -/
def round (c : Connection) (answers : Answers) : Connection :=
  match c.ws.handleInput toupper answers.received with
  | .ok (status, ws) => { c with ws }.dispatch h answers status
  | .error _ => c.leave

inductive Action where
  /-- `epoll` reports an event for the descriptor. -/
  | poll (event : PollEvent)
  /-- The loop over the events comes to it. -/
  | handle
  | input (answers : Answers)
  /-- A `cws:send` that fails. -/
  | sendFails
  /-- `cws_close`, by the user or the garbage collector. -/
  | close
  /-- Another connection of the thread receives. -/
  | share (recvBuffer : List UInt8)

/-- What a descriptor can go through. It is open, and reported on, as long as its socket is in the pool; the callbacks
may send and close, but do not call the event loop again. -/
def step (c : Connection) : Action → Option Connection
  | .poll event => if c.inPool ∧ c.event = none ∧ c.looping = false then some { c with event := some event } else none
  | .handle =>
    match c.event with
    | some .error => some ({ c with event := none }.fails h "Communication error, socket closed by peer")
    | some .input => some { c with event := none, looping := c.inPool }
    | some .other => some { c with event := none }
    | none => none
  | .input answers =>
    if c.looping ∧ answers.received.length ≤ recvBufferSize then some (c.round toupper h answers) else none
  | .sendFails => if c.inPool ∨ c.looping then some { c with ws := { c.ws with mState := .commError } } else none
  | .close => some c.remove
  | .share recvBuffer =>
    if recvBuffer.length = recvBufferSize then some { c with ws := { c.ws with recvBuffer } } else none

end Connection

variable {toupper : List UInt8 → List UInt8}

/-! ### What the callbacks are to be -/

def Callback.isMessage : Callback → Bool
  | .onmessage _ _ => true
  | _ => false

def Callback.isEnd : Callback → Bool
  | .onclose _ | .onerror _ => true
  | _ => false

/-- At most one `onopen`, and then messages. -/
def Opening (callbacks : List Callback) : Prop :=
  ∃ opens messages, callbacks = opens ++ messages ∧ (opens = [] ∨ opens = [.onopen]) ∧
    ∀ callback ∈ messages, callback.isMessage = true

/-- Behind them, at most one `onclose` or `onerror`. -/
def LifeCycle (callbacks : List Callback) : Prop :=
  ∃ opening ends, callbacks = opening ++ ends ∧ Opening opening ∧
    (ends = [] ∨ ∃ callback, ends = [callback] ∧ callback.isEnd = true)

/-- No byte before the last of those that the call reads completes a Close frame. -/
def CloseLast (c : Connection) : Connection.Action → Prop
  | .input answers => c.ws.mState = .messaging →
      ∀ k < (c.ws.readable answers.received).length, ∀ payload,
        reports maxMSGSize (c.ws.parsed ++ (c.ws.readable answers.received).take k) ≠
          c.events ++ [.message .close payload]
  | _ => True

/-! ### The parser along the stream -/

/-- The parser is where a decoder is that has read the same bytes, and the messages are those of the bytes, but for a
report that the decoder may still owe. -/
def Synced (ws : Socket) (events : List Event) : Prop :=
  ∃ d, Rel .client maxMSGSize ws.streamProcessor d ∧ Decoder.Bounded maxMSGSize d ∧
    (Decoder.settle d).1 = (Decoder.run (Role.config .client maxMSGSize).eagerly {} ws.parsed).1 ∧
    events ++ (Decoder.settle d).2 = reports maxMSGSize ws.parsed

theorem synced_fresh {ws : Socket} (parser : ws.streamProcessor = fresh 512 maxMSGSize) (parsed : ws.parsed = []) :
    Synced ws [] := by
  refine ⟨{}, ?_, ⟨Nat.zero_le _, trivial⟩, ?_, ?_⟩
  · rw [parser]
    exact rel_fresh .client 512 maxMSGSize
  · rw [parsed]
    rfl
  · rw [parsed]
    rfl

/-- The bytes to come, in terms of the whole stream. -/
theorem reports_synced {d : Decoder} {parsed : List UInt8} {events : List Event}
    (state : (Decoder.settle d).1 = (Decoder.run (Role.config .client maxMSGSize).eagerly {} parsed).1)
    (history : events ++ (Decoder.settle d).2 = reports maxMSGSize parsed) (bs : List UInt8) :
    reports maxMSGSize (parsed ++ bs) = events ++ reportsFrom maxMSGSize d bs ∧
      (Decoder.run (Role.config .client maxMSGSize).eagerly {} (parsed ++ bs)).1 =
        (Decoder.settled (d.run (Role.config .client maxMSGSize) bs)).1 := by
  have ahead := @Decoder.settled_run (Role.config .client maxMSGSize) rfl d bs
  rw [reports] at history
  rw [reports, reportsFrom, Decoder.run_append, ← history, ← state, ahead, List.append_assoc]
  exact ⟨rfl, rfl⟩

/-- The opcodes that a message of the stream has. -/
theorem report_opcode {parsed : List UInt8} {events : List Event} {op : OpCode} {payload : List UInt8}
    (here : reports maxMSGSize parsed = events ++ [.message op payload]) :
    op = .text ∨ op = .binary ∨ op = .close ∨ op = .ping ∨ op = .pong := by
  have proper : Decoder.Proper {} := ⟨by simp, trivial⟩
  have reported : Decoder.Reported (Decoder.run (Role.config .client maxMSGSize).eagerly {} parsed) :=
    Decoder.run_reported parsed proper
  have known : (op.isControl || op.isData) = true := by
    apply reported.events op payload
    rw [show (Decoder.run (Role.config .client maxMSGSize).eagerly {} parsed).2 = _ from here]
    simp
  cases op <;> simp_all [OpCode.isControl, OpCode.isData]

/-- What a call of the parser does to the socket. -/
structure Unmoved (ws ws' : Socket) : Prop where
  state : ws'.mState = ws.mState
  buffer : ws'.recvBuffer = ws.recvBuffer
  cursor : ws'.cursor = ws.cursor ∨ ws'.cursor = 0

theorem Unmoved.cursor_lt {ws ws' : Socket} (unmoved : Unmoved ws ws') (inside : ws.cursor < recvBufferSize) :
    ws'.cursor < recvBufferSize := by
  rcases unmoved.cursor with same | zero
  · rw [same]; exact inside
  · rw [zero]; decide

inductive ParseOutcome (ws : Socket) (events : List Event) (bs : List UInt8) :
    Except String (InputStatus × Socket) → Prop where
  | more {status : InputStatus} {ws' : Socket} (status_ : status = .needMoreData ∨ status = .callOnceMore)
      (unmoved : Unmoved ws ws') (synced : Synced ws' events) : ParseOutcome ws events bs (.ok (status, ws'))
  | message {k : Nat} {status : InputStatus} {ws' : Socket} {op : OpCode} {payload : List UInt8} {p : Parser}
      (status_ : status = .messageReadyBufferIsEmpty ∨ status = .messageReadyBufferIsNotEmpty ∧ k < bs.length)
      (taken : WSStreamClientParser.getMessage ws'.streamProcessor = (⟨op, payload⟩, p)) (unmoved : Unmoved ws ws')
      (here : reports maxMSGSize (ws.parsed ++ bs.take k) = events ++ [.message op payload])
      (synced : Synced { ws' with streamProcessor := p } (events ++ [.message op payload])) :
      ParseOutcome ws events bs (.ok (status, ws'))
  | close {ws' : Socket} (buffer : ws'.recvBuffer = ws.recvBuffer) : ParseOutcome ws events bs (.ok (.forceClose, ws'))

theorem parseInput_synced {ws : Socket} {events : List Event} {n : Nat} (hn : n ≤ ws.recvBuffer.length)
    (hc : ws.cursor < n) (synced : Synced ws events) :
    ParseOutcome ws events (slice ws.recvBuffer ws.cursor n) (ws.parseInput n) := by
  obtain ⟨d, rel, bounded, state, history⟩ := synced
  have len : (ws.recvBuffer.take n).length = n := by rw [List.length_take]; omega
  have blen : (slice ws.recvBuffer ws.cursor n).length = n - ws.cursor := by rw [slice, List.length_drop, len]
  have call := call_from (s := ws.recvBuffer.take n) (by decide) (by decide) rel bounded (by rw [len]; exact hc)
  unfold Socket.parseInput WSStreamClientParser.parse
  cases call with
  | @more r p' result directive rel' quiet nothing =>
    obtain ⟨after, stateAfter⟩ := reports_synced state history ((ws.recvBuffer.take n).drop ws.cursor)
    have synced' : Synced { ws with streamProcessor := p', parsed := ws.parsed ++ slice ws.recvBuffer ws.cursor n } events := by
      refine ⟨_, rel', ?_, ?_, ?_⟩
      · exact @Decoder.run_bounded (Role.config .client maxMSGSize) _ (by decide) le_rfl _ d bounded
      · exact stateAfter.symm
      · rw [slice, after, reportsFrom, Decoder.settled, nothing, List.nil_append]
    rw [result]
    simp only [directive]
    split
    · exact .more (.inl rfl) ⟨rfl, rfl, .inl rfl⟩ synced'
    · exact .more (.inr rfl) ⟨rfl, rfl, .inl rfl⟩ synced'
  | @message k q p' op payload d' le result taken rel' bounded' prompt state' here quiet last =>
    obtain ⟨after, stateAfter⟩ := reports_synced state history (((ws.recvBuffer.take n).drop ws.cursor).take k)
    rw [here] at after
    have synced' : ∀ ws' : Socket, ws'.parsed = ws.parsed ++ (slice ws.recvBuffer ws.cursor n).take k →
        Synced { ws' with streamProcessor := p' } (events ++ [.message op payload]) := by
      intro ws' parsed
      refine ⟨d', rel', bounded', ?_, ?_⟩
      · rw [state', parsed]
        exact stateAfter.symm
      · rw [prompt, List.append_nil, parsed]
        exact after.symm
    rw [result]
    dsimp only
    rw [slice_add ws.recvBuffer (show ws.cursor + k ≤ n by omega)]
    by_cases hk : ws.cursor + k = n
    · rw [if_neg (not_not.mpr hk)]
      exact .message (.inl rfl) taken ⟨rfl, rfl, .inr rfl⟩ after (synced' _ rfl)
    · rw [if_pos hk]
      exact .message (.inr ⟨rfl, by omega⟩) taken ⟨rfl, rfl, .inl rfl⟩ after (synced' _ rfl)
  | @close k r q le result directive here quiet last =>
    rw [result]
    simp only [directive]
    exact .close rfl

/-! ### One call of `handleInput` -/

theorem forceRecv_length {ws : Socket} {bytes : List UInt8} (buffer : ws.recvBuffer.length = recvBufferSize)
    (short : bytes.length ≤ recvBufferSize) : (ws.forceRecv bytes).recvBuffer.length = recvBufferSize := by
  rw [Socket.forceRecv, List.length_append, List.length_drop, buffer]
  omega

/-- In `MESSAGING` the call reads what is readable, or there is nothing to read. -/
theorem handleInput_messaging {ws : Socket} {events : List Event} {bytes : List UInt8} (state : ws.mState = .messaging)
    (buffer : ws.recvBuffer.length = recvBufferSize) (short : bytes.length ≤ recvBufferSize)
    (cursor : ws.cursor < recvBufferSize) (synced : Synced ws events) :
    (∃ ws', ws.handleInput toupper bytes = .ok (.error, ws') ∧ ws'.recvBuffer.length = recvBufferSize) ∨
      ∃ ws', ParseOutcome ws' events (ws.readable bytes) (ws.handleInput toupper bytes) ∧ ws'.mState = .messaging ∧
        ws'.recvBuffer.length = recvBufferSize ∧ ws'.cursor = ws.cursor ∧ ws'.parsed = ws.parsed := by
  have hsize : 0 < recvBufferSize := by decide
  simp only [Socket.handleInput, state]
  by_cases zero : ws.cursor = 0
  · rw [if_pos zero, Socket.readable, if_pos zero]
    by_cases some_ : bytes.length > 0
    · have read : slice (ws.forceRecv bytes).recvBuffer ws.cursor bytes.length = bytes := by
        simp [slice, Socket.forceRecv, zero]
      have outcome : ParseOutcome { ws.forceRecv bytes with received := ws.received ++ bytes } events
          (slice (ws.forceRecv bytes).recvBuffer ws.cursor bytes.length)
          ({ ws.forceRecv bytes with received := ws.received ++ bytes }.parseInput bytes.length) := by
        apply parseInput_synced
        · simp [Socket.forceRecv]
        · simpa [Socket.forceRecv, zero] using some_
        · exact synced
      rw [read] at outcome
      rw [if_pos some_]
      exact .inr ⟨_, outcome, state, forceRecv_length buffer short, rfl, rfl⟩
    · rw [if_neg some_]
      exact .inl ⟨_, rfl, forceRecv_length buffer short⟩
  · rw [if_neg zero, Socket.readable, if_neg zero, if_pos (by omega)]
    refine .inr ⟨ws, ?_, state, buffer, rfl, rfl⟩
    have outcome := parseInput_synced (n := ws.recvBuffer.length) le_rfl (by omega) synced
    rwa [slice, List.take_length] at outcome

/-! ### One round of the loop -/

section Rounds

variable {h : Handlers} {c : Connection} {callback : Callback} {answers : Answers}

theorem opening_nil : Opening [] := ⟨[], [], rfl, .inl rfl, by simp⟩

theorem Opening.lifeCycle {callbacks : List Callback} (opening : Opening callbacks) : LifeCycle callbacks :=
  ⟨callbacks, [], by simp, opening, .inl rfl⟩

theorem opening_open (callbacks : c.callbacks = []) : Opening (c.call h .onopen).callbacks := by
  unfold Connection.call
  split
  · exact ⟨[.onopen], [], by simp [callbacks], .inr rfl, by simp⟩
  · rw [callbacks]
    exact opening_nil

theorem opening_message (opening : Opening c.callbacks) (message : callback.isMessage = true) :
    Opening (c.call h callback).callbacks := by
  unfold Connection.call
  split
  · obtain ⟨opens, messages, split_, first, only⟩ := opening
    refine ⟨opens, messages ++ [callback], by simp [split_], first, ?_⟩
    intro other member
    rcases List.mem_append.mp member with old | new
    · exact only other old
    · rw [List.mem_singleton.mp new]
      exact message
  · exact opening

theorem lifeCycle_end (opening : Opening c.callbacks) (ends : callback.isEnd = true) :
    LifeCycle (c.call h callback).callbacks := by
  unfold Connection.call
  split
  · exact ⟨c.callbacks, [callback], rfl, opening, .inr ⟨callback, rfl, ends⟩⟩
  · exact opening.lifeCycle

@[simp] theorem call_ws : (c.call h callback).ws = c.ws := by unfold Connection.call; split <;> rfl

@[simp] theorem call_event : (c.call h callback).event = c.event := by unfold Connection.call; split <;> rfl

@[simp] theorem call_looping : (c.call h callback).looping = c.looping := by unfold Connection.call; split <;> rfl

@[simp] theorem call_events : (c.call h callback).events = c.events := by unfold Connection.call; split <;> rfl

/-- A socket that has read nothing behind the response. -/
structure Fresh (ws : Socket) : Prop where
  cursor : ws.cursor = 0
  parser : ws.streamProcessor = Parser.new 512
  parsed : ws.parsed = []

/-- A state in which `handleInput` returns an error at once. -/
def State.isBroken : State → Bool
  | .closed | .handshakeFailed | .commError | .init => true
  | _ => false

/-- A connection for which no `onclose` or `onerror` was called. -/
inductive Live (ws : Socket) (callbacks : List Callback) (events : List Event) : Prop where
  | connecting (state : ws.mState = .connect ∨ ws.mState = .upgrade ∨ ws.mState = .handshake) (new : Fresh ws)
      (callbacks : callbacks = []) (events : events = [])
  | messaging (state : ws.mState = .messaging) (cursor : ws.cursor < recvBufferSize) (synced : Synced ws events)
      (callbacks : Opening callbacks)
  | broken (state : ws.mState.isBroken = true) (callbacks : Opening callbacks)

inductive Stage (c : Connection) : Prop where
  | live (live : Live c.ws c.callbacks c.events)
  | finished (callbacks : LifeCycle c.callbacks) (pool : c.inPool = false) (event : c.event = none)
      (looping : c.looping = false)

structure Invariant (c : Connection) : Prop where
  buffer : c.ws.recvBuffer.length = recvBufferSize
  waits : c.looping = true → c.event = none
  stage : Stage c

theorem Live.opening {ws : Socket} {callbacks : List Callback} {events : List Event} (live : Live ws callbacks events) :
    Opening callbacks := by
  cases live with
  | connecting _ _ callbacks _ => exact callbacks ▸ opening_nil
  | messaging _ _ _ callbacks => exact callbacks
  | broken _ callbacks => exact callbacks

theorem Invariant.lifeCycle (inv : Invariant c) : LifeCycle c.callbacks := by
  cases inv.stage with
  | live live => exact live.opening.lifeCycle
  | finished callbacks _ _ _ => exact callbacks

/-- `onclose` or `onerror`, the removal from the pool and the end of the loop. -/
theorem invariant_end (buffer : c.ws.recvBuffer.length = recvBufferSize) (event : c.event = none)
    (opening : Opening c.callbacks) (ends : callback.isEnd = true) :
    Invariant (c.leave.call h callback).remove where
  buffer := by simpa [Connection.remove, Connection.leave] using buffer
  waits := by simp [Connection.remove, Connection.leave]
  stage := by
    refine .finished (lifeCycle_end (c := c.leave) opening ends) rfl ?_ ?_
    · simpa [Connection.remove, Connection.leave] using event
    · simp [Connection.remove, Connection.leave]

theorem upgrade_invariant (buffer : c.ws.recvBuffer.length = recvBufferSize) (event : c.event = none)
    (fresh : Fresh c.ws) (callbacks : c.callbacks = []) (events : c.events = []) :
    Invariant (c.upgrade h answers) := by
  unfold Connection.upgrade Socket.wsUpgrade
  by_cases sent : answers.sent = true
  · rw [if_pos sent]
    refine ⟨buffer, fun _ => event, .live (.connecting (.inr (.inr rfl)) ?_ callbacks events)⟩
    exact ⟨fresh.cursor, fresh.parser, fresh.parsed⟩
  · rw [if_neg sent]
    refine invariant_end (c := { c with ws := { c.ws with accept := answers.accept } }) buffer event ?_ rfl
    exact callbacks ▸ opening_nil

theorem Invariant.leave (inv : Invariant c) : Invariant c.leave where
  buffer := inv.buffer
  waits := by simp [Connection.leave]
  stage := by
    cases inv.stage with
    | live live => exact .live live
    | finished callbacks pool event looping => exact .finished callbacks pool event rfl

/-- A message other than a Close leaves the connection as it is, or breaks it without a callback. -/
theorem deliver_invariant {op : OpCode} {payload : List UInt8} {p : Parser}
    (buffer : c.ws.recvBuffer.length = recvBufferSize) (event : c.event = none) (state : c.ws.mState = .messaging)
    (cursor : c.ws.cursor < recvBufferSize) (opening : Opening c.callbacks)
    (taken : WSStreamClientParser.getMessage c.ws.streamProcessor = (⟨op, payload⟩, p))
    (known : op = .text ∨ op = .binary ∨ op = .ping ∨ op = .pong)
    (synced : Synced { c.ws with streamProcessor := p } (c.events ++ [.message op payload])) :
    Invariant (c.deliver h) := by
  have stays : ∀ c' : Connection, c'.ws = { c.ws with streamProcessor := p } →
      c'.events = c.events ++ [.message op payload] → c'.event = none → Opening c'.callbacks → Invariant c' := by
    intro c' ws' events' event' opening'
    refine ⟨by rw [ws']; exact buffer, fun _ => event', .live (.messaging ?_ ?_ ?_ opening')⟩
    · rw [ws']; exact state
    · rw [ws']; exact cursor
    · rw [ws', events']; exact synced
  unfold Connection.deliver
  rw [taken]
  rcases known with rfl | rfl | rfl | rfl
  · by_cases valid : isValidUtf8 payload payload.length = true
    · simp only [onEvent, callbackOf, valid, if_true]
      apply stays
      · rw [call_ws]
      · rw [call_events]
      · rw [call_event]; exact event
      · apply opening_message _ rfl
        exact opening
    · simp only [onEvent, callbackOf, valid, Bool.false_eq_true, if_false]
      exact ⟨buffer, fun _ => event, .live (.broken rfl opening)⟩
  · simp only [onEvent, callbackOf, if_true]
    apply stays
    · rw [call_ws]
    · rw [call_events]
    · rw [call_event]; exact event
    · apply opening_message _ rfl
      exact opening
  · exact stays _ rfl rfl event opening
  · exact stays _ rfl rfl event opening

/-- A Close that nothing follows in the buffer. -/
theorem deliver_close {payload : List UInt8} {p : Parser} (buffer : c.ws.recvBuffer.length = recvBufferSize)
    (event : c.event = none) (opening : Opening c.callbacks)
    (taken : WSStreamClientParser.getMessage c.ws.streamProcessor = (⟨.close, payload⟩, p)) :
    Invariant (c.deliver h).leave := by
  unfold Connection.deliver
  rw [taken]
  simp only [onEvent, callbackOf, Bool.false_eq_true, if_false]
  refine ⟨?_, by simp [Connection.leave], .finished (lifeCycle_end opening rfl) rfl ?_ rfl⟩
  · simpa [Connection.leave, Connection.remove] using buffer
  · simpa [Connection.leave, Connection.remove] using event

theorem round_messaging (inv : Invariant c) (looping : c.looping = true)
    (short : answers.received.length ≤ recvBufferSize) (last : CloseLast c (.input answers))
    (state : c.ws.mState = .messaging) (cursor : c.ws.cursor < recvBufferSize) (synced : Synced c.ws c.events)
    (opening : Opening c.callbacks) : Invariant (c.round toupper h answers) := by
  have event := inv.waits looping
  unfold Connection.round
  rcases handleInput_messaging state inv.buffer short cursor synced with
    ⟨ws', result, buffer⟩ | ⟨ws', outcome, state', buffer, cursor', parsed⟩
  · rw [result]
    exact invariant_end (c := { c with ws := ws' }) buffer event opening rfl
  · have inside : ws'.cursor < recvBufferSize := cursor' ▸ cursor
    generalize c.ws.handleInput toupper answers.received = result at outcome
    cases outcome with
    | @more status ws'' status_ unmoved synced' =>
      have goesOn : Invariant { c with ws := ws'' } :=
        ⟨unmoved.buffer ▸ buffer, fun _ => event,
          .live (.messaging (unmoved.state.trans state') (unmoved.cursor_lt inside) synced' opening)⟩
      rcases status_ with rfl | rfl
      · exact goesOn.leave
      · exact goesOn
    | @message k status ws'' op payload p status_ taken unmoved here synced' =>
      by_cases close : op = .close
      · subst close
        rcases status_ with rfl | ⟨rfl, more⟩
        · exact deliver_close (c := { c with ws := ws'' }) (unmoved.buffer ▸ buffer) event opening taken
        · rw [parsed] at here
          exact absurd here (last state k more payload)
      · have delivered : Invariant (Connection.deliver h { c with ws := ws'' }) := by
          refine deliver_invariant (c := { c with ws := ws'' }) (unmoved.buffer ▸ buffer) event
            (unmoved.state.trans state') (unmoved.cursor_lt inside) opening taken ?_ synced'
          rcases report_opcode here with rfl | rfl | rfl | rfl | rfl
          · exact .inl rfl
          · exact .inr (.inl rfl)
          · exact absurd rfl close
          · exact .inr (.inr (.inl rfl))
          · exact .inr (.inr (.inr rfl))
        rcases status_ with rfl | ⟨rfl, _⟩
        · exact delivered.leave
        · exact delivered
    | @close ws'' buffer' =>
      exact invariant_end (c := { c with ws := ws'' }) (buffer' ▸ buffer) event opening rfl

theorem handleInput_handshake {ws : Socket} {bytes : List UInt8} (state : ws.mState = .handshake) (new : Fresh ws)
    (buffer : ws.recvBuffer.length = recvBufferSize) (short : bytes.length ≤ recvBufferSize) :
    (∃ ws', ws.handleInput toupper bytes = .ok (.error, ws') ∧ ws'.recvBuffer.length = recvBufferSize) ∨
      ∃ status ws', ws.handleInput toupper bytes = .ok (status, ws') ∧ (status = .upgraded ∨ status = .upgradedBuffNotEmpty) ∧
        ws'.mState = .messaging ∧ ws'.recvBuffer.length = recvBufferSize ∧ ws'.cursor < recvBufferSize ∧
        ws'.streamProcessor = fresh 512 maxMSGSize ∧ ws'.parsed = [] := by
  have buffer' := forceRecv_length buffer short
  have read : (ws.forceRecv bytes).recvBuffer.take bytes.length = bytes := by simp [Socket.forceRecv]
  have cursor : (ws.forceRecv bytes).cursor = 0 := new.cursor
  simp only [Socket.handleInput, state, read, cursor]
  by_cases nothing : bytes = []
  · simp only [if_pos nothing]
    exact .inl ⟨_, rfl, buffer'⟩
  · have inside := responseOK_cursor toupper nothing (ws.forceRecv bytes).accept
    simp only [if_neg nothing]
    generalize responseOK toupper 0 bytes (ws.forceRecv bytes).accept = r at inside
    obtain ⟨ok, cursor'⟩ := r
    cases ok with
    | false => exact .inl ⟨_, rfl, buffer'⟩
    | true =>
      refine .inr ⟨_, _, rfl, ?_, rfl, buffer', Nat.lt_of_lt_of_le inside short, ?_, new.parsed⟩
      · split
        · exact .inl rfl
        · exact .inr rfl
      · show ws.streamProcessor.setMaxMSGSize maxMSGSize = _
        rw [new.parser]
        rfl

theorem round_handshake (inv : Invariant c) (looping : c.looping = true)
    (short : answers.received.length ≤ recvBufferSize) (state : c.ws.mState = .handshake) (new : Fresh c.ws)
    (callbacks : c.callbacks = []) (events : c.events = []) : Invariant (c.round toupper h answers) := by
  have event := inv.waits looping
  unfold Connection.round
  rcases handleInput_handshake state new inv.buffer short with
    ⟨ws', result, buffer⟩ | ⟨status, ws', result, status_, state', buffer, cursor, parser, parsed⟩
  · rw [result]
    refine invariant_end (c := { c with ws := ws' }) buffer event ?_ rfl
    exact callbacks ▸ opening_nil
  · have opened : Invariant (Connection.call h { c with ws := ws' } .onopen) := by
      refine ⟨by rw [call_ws]; exact buffer, fun _ => by rw [call_event]; exact event, .live (.messaging ?_ ?_ ?_ ?_)⟩
      · rw [call_ws]; exact state'
      · rw [call_ws]; exact cursor
      · rw [call_ws, call_events, events]
        exact synced_fresh parser parsed
      · exact opening_open callbacks
    rw [result]
    rcases status_ with rfl | rfl
    · exact opened.leave
    · exact opened

theorem round_connect (inv : Invariant c) (looping : c.looping = true) (state : c.ws.mState = .connect)
    (new : Fresh c.ws) (callbacks : c.callbacks = []) (events : c.events = []) : Invariant (c.round toupper h answers) := by
  have event := inv.waits looping
  have opening : Opening c.callbacks := callbacks ▸ opening_nil
  unfold Connection.round
  simp only [Socket.handleInput, state, Connection.dispatch]
  cases answers.connect with
  | wantRead =>
    simp only [Socket.wsConnect, state, reduceCtorEq, if_false]
    exact inv.leave
  | failed => exact invariant_end inv.buffer event opening rfl
  | connected blocking =>
    cases blocking with
    | false =>
      exact invariant_end (c := { c with ws := { c.ws with mState := .upgrade } }) inv.buffer event opening rfl
    | true =>
      exact upgrade_invariant (c := { c with ws := { c.ws with mState := .upgrade } }) inv.buffer event
        ⟨new.cursor, new.parser, new.parsed⟩ callbacks events

theorem round_invariant (inv : Invariant c) (looping : c.looping = true)
    (short : answers.received.length ≤ recvBufferSize) (last : CloseLast c (.input answers)) :
    Invariant (c.round toupper h answers) := by
  have event := inv.waits looping
  cases inv.stage with
  | finished _ _ _ idle => exact absurd looping (by simp [idle])
  | live live =>
    cases live with
    | connecting state new callbacks events =>
      rcases state with state | state | state
      · exact round_connect inv looping state new callbacks events
      · unfold Connection.round
        simp only [Socket.handleInput, state]
        exact upgrade_invariant inv.buffer event new callbacks events
      · exact round_handshake inv looping short state new callbacks events
    | messaging state cursor synced callbacks =>
      exact round_messaging inv looping short last state cursor synced callbacks
    | broken state callbacks =>
      have result : c.ws.handleInput toupper answers.received = .ok (.error, c.ws) := by
        unfold Socket.handleInput
        cases hs : c.ws.mState <;> simp_all [State.isBroken]
      unfold Connection.round
      rw [result]
      exact invariant_end inv.buffer event callbacks rfl

theorem create_invariant {tls : Bool} {recvBuffer : List UInt8} (size : recvBuffer.length = recvBufferSize)
    (created : Connection.create tls recvBuffer answers = some c) : Invariant c := by
  cases tls with
  | true =>
    cases hconnect : answers.connect with
    | wantRead =>
      simp only [Connection.create, Socket.wsConnect, hconnect, if_true, Option.some.injEq] at created
      subst created
      exact ⟨size, fun _ => rfl, .live (.connecting (.inl rfl) ⟨rfl, rfl, rfl⟩ rfl rfl)⟩
    | failed => simp [Connection.create, Socket.wsConnect, hconnect] at created
    | connected blocking =>
      cases blocking with
      | false => simp [Connection.create, Socket.wsConnect, hconnect] at created
      | true =>
        simp only [Connection.create, Socket.wsConnect, hconnect, if_true, Option.some.injEq] at created
        subst created
        exact ⟨size, fun _ => rfl, .live (.connecting (.inr (.inl rfl)) ⟨rfl, rfl, rfl⟩ rfl rfl)⟩
  | false =>
    cases hsent : answers.sent with
    | false => simp [Connection.create, Socket.wsUpgrade, hsent] at created
    | true =>
      simp only [Connection.create, Socket.wsUpgrade, hsent, Bool.false_eq_true, if_false, if_true,
        Option.some.injEq] at created
      subst created
      exact ⟨size, fun _ => rfl, .live (.connecting (.inr (.inr rfl)) ⟨rfl, rfl, rfl⟩ rfl rfl)⟩

theorem step_invariant {action : Connection.Action} {c' : Connection} (inv : Invariant c)
    (allowed : CloseLast c action) (taken : c.step toupper h action = some c') : Invariant c' := by
  cases action with
  | poll event =>
    simp only [Connection.step, Option.ite_none_right_eq_some, Option.some.injEq] at taken
    obtain ⟨⟨pool, _, idle⟩, rfl⟩ := taken
    refine ⟨inv.buffer, fun looping => absurd looping (by simp [idle]), ?_⟩
    cases inv.stage with
    | live live => exact .live live
    | finished _ gone _ _ => exact absurd pool (by simp [gone])
  | handle =>
    cases reported : c.event with
    | none => simp [Connection.step, reported] at taken
    | some event =>
      cases inv.stage with
      | finished _ _ nothing _ => cases nothing.symm.trans reported
      | live live =>
        cases event with
        | error =>
          simp only [Connection.step, reported, Option.some.injEq] at taken
          subst taken
          exact invariant_end (c := { c with event := none }) inv.buffer rfl live.opening rfl
        | input =>
          simp only [Connection.step, reported, Option.some.injEq] at taken
          subst taken
          exact ⟨inv.buffer, fun _ => rfl, .live live⟩
        | other =>
          simp only [Connection.step, reported, Option.some.injEq] at taken
          subst taken
          exact ⟨inv.buffer, fun _ => rfl, .live live⟩
  | input answers =>
    simp only [Connection.step, Option.ite_none_right_eq_some, Option.some.injEq] at taken
    obtain ⟨⟨looping, short⟩, rfl⟩ := taken
    exact round_invariant inv looping short allowed
  | sendFails =>
    simp only [Connection.step, Option.ite_none_right_eq_some, Option.some.injEq] at taken
    obtain ⟨there, rfl⟩ := taken
    refine ⟨inv.buffer, inv.waits, ?_⟩
    cases inv.stage with
    | live live => exact .live (.broken rfl live.opening)
    | finished _ gone _ idle => exact absurd there (by simp [gone, idle])
  | close =>
    cases taken
    refine ⟨inv.buffer, inv.waits, ?_⟩
    cases inv.stage with
    | live live => exact .live live
    | finished callbacks _ event looping => exact .finished callbacks rfl event looping
  | share recvBuffer =>
    simp only [Connection.step, Option.ite_none_right_eq_some, Option.some.injEq] at taken
    obtain ⟨size, rfl⟩ := taken
    refine ⟨size, inv.waits, ?_⟩
    cases inv.stage with
    | finished callbacks pool event looping => exact .finished callbacks pool event looping
    | live live =>
      refine .live ?_
      cases live with
      | connecting state new callbacks events =>
        exact .connecting state ⟨new.cursor, new.parser, new.parsed⟩ callbacks events
      | messaging state cursor synced callbacks => exact .messaging state cursor synced callbacks
      | broken state callbacks => exact .broken state callbacks

/-- Where a Close frame is the last thing that a call reads, the callbacks follow the life cycle. -/
theorem callbacks_follow_life_cycle (toupper : List UInt8 → List UInt8) (h : Handlers) (tls : Bool)
    (recvBuffer : List UInt8) (answers : Answers) (c : Connection) (actions : List Connection.Action) (size : recvBuffer.length = recvBufferSize)
    (created : Connection.create tls recvBuffer answers = some c)
    (keeps : Transition.Keeps (Connection.step toupper h) CloseLast c actions) :
    Transition.Always (Connection.step toupper h) (fun c => LifeCycle c.callbacks) c actions := by
  have always : Transition.Always (Connection.step toupper h) Invariant c actions := by
    refine Transition.always_of_keeps (create_invariant size created) ?_ keeps
    intro c action c' inv allowed taken
    exact step_invariant inv allowed taken
  exact always.mono fun c inv => inv.lifeCycle

end Rounds

/-! ### A Close frame alone, and one with bytes behind it -/

theorem Opening.not_end {callbacks : List Callback} (opening : Opening callbacks) {callback : Callback}
    (member : callback ∈ callbacks) : callback.isEnd = false := by
  obtain ⟨opens, messages, rfl, first, only⟩ := opening
  rcases List.mem_append.mp member with opens_ | message
  · rcases first with rfl | rfl
    · cases opens_
    · rw [List.mem_singleton.mp opens_]
      rfl
  · have := only callback message
    cases callback <;> simp_all [Callback.isMessage, Callback.isEnd]

/-- Nothing is called behind an `onclose` or an `onerror`. -/
theorem LifeCycle.ends {earlier later : List Callback} {callback : Callback}
    (cycle : LifeCycle (earlier ++ callback :: later)) (ends : callback.isEnd = true) : later = [] := by
  obtain ⟨opening, last, split, isOpening, one⟩ := cycle
  have member : callback ∉ opening := by
    intro inside
    rw [isOpening.not_end inside] at ends
    cases ends
  rcases List.append_eq_append_iff.mp split with ⟨rest, front, behind⟩ | ⟨rest, front, behind⟩
  · cases rest with
    | nil =>
      rcases one with rfl | ⟨other, rfl, _⟩
      · cases behind
      · exact (List.cons.inj behind).2
    | cons x rest =>
      obtain ⟨rfl, _⟩ := List.cons.inj behind
      exact absurd (by rw [front]; simp) member
  · have length := congrArg List.length behind
    rw [List.length_append, List.length_cons] at length
    rcases one with rfl | ⟨other, rfl, _⟩
    · simp at length
    · rw [List.length_singleton] at length
      exact List.eq_nil_of_length_eq_zero (by omega)

def allHandlers : Handlers := ⟨true, true, true, true⟩

def noAnswer : Answers := ⟨[], .failed, true, sampleAccept⟩

/-- The response, and then one piece. -/
def receivesPiece (piece : List UInt8) : List Connection.Action :=
  [.poll .input, .handle, .input { noAnswer with received := sampleResponse }, .poll .input, .handle,
    .input { noAnswer with received := piece }]

/-- A connection without TLS, behind its upgrade request. -/
def handshaking : Connection where
  ws :=
    { cursor := 0, mState := .handshake, recvBuffer := unusedBuffer, streamProcessor := Parser.new 512,
      accept := sampleAccept, closeCode := none, count := 0, received := [], parsed := [] }
  inPool := true
  event := none
  looping := false
  callbacks := []
  events := []

/-- No byte before the last completes a frame. -/
def QuietBefore (c : Connection) : Connection.Action → Prop
  | .input answers => c.ws.mState = .messaging → ∀ k < (c.ws.readable answers.received).length,
      (reports maxMSGSize (c.ws.parsed ++ (c.ws.readable answers.received).take k)).length ≠ c.events.length + 1
  | _ => True

instance (c : Connection) : ∀ action, Decidable (QuietBefore c action)
  | .input answers =>
    inferInstanceAs (Decidable (c.ws.mState = .messaging → ∀ k < (c.ws.readable answers.received).length, _))
  | .poll _ | .handle | .sendFails | .close | .share _ => inferInstanceAs (Decidable True)

theorem closeLast_of_quiet (c : Connection) (action : Connection.Action) (quiet : QuietBefore c action) :
    CloseLast c action := by
  cases action with
  | input answers =>
    intro state k inside payload here
    exact quiet state k inside (by rw [here]; simp)
  | _ => trivial

/-- A Close frame with the code 1000. -/
def closeFrame : List UInt8 := [0x88, 0x02, 0x03, 0xE8]

theorem callbacks_follow_close :
    Transition.Keeps (Connection.step capitals allHandlers) CloseLast handshaking (receivesPiece closeFrame) ∧
    Transition.Always (Connection.step capitals allHandlers) (fun c => LifeCycle c.callbacks) handshaking
      (receivesPiece closeFrame) := by
  have quiet : Transition.Keeps (Connection.step capitals allHandlers) QuietBefore handshaking (receivesPiece closeFrame) := by
    decide +kernel
  have keeps := quiet.mono closeLast_of_quiet
  have size : unusedBuffer.length = recvBufferSize := List.length_replicate
  exact ⟨keeps, callbacks_follow_life_cycle capitals allHandlers false unusedBuffer noAnswer handshaking _ size rfl keeps⟩

/-- Two Close frames in one piece, and the round that follows on the first. -/
def closesTwice : List Connection.Action := receivesPiece (closeFrame ++ closeFrame) ++ [.input noAnswer]

def closedTwice : List Callback :=
  [.onopen, .onclose [0x03, 0xE8], .onerror "Communication error on read from socket, - it is already closed"]

theorem callbacks_counterexample : ∃ c, closesTwice.foldlM (Connection.step capitals allHandlers) handshaking = some c ∧
    c.callbacks = closedTwice ∧ ¬LifeCycle c.callbacks := by
  have facts : (closesTwice.foldlM (Connection.step capitals allHandlers) handshaking).map Connection.callbacks =
      some closedTwice := by
    decide +kernel
  obtain ⟨c, run, callbacks⟩ := Option.map_eq_some_iff.mp facts
  refine ⟨c, run, callbacks, fun cycle => ?_⟩
  rw [callbacks] at cycle
  have nothing := @LifeCycle.ends [.onopen] _ _ cycle rfl
  cases nothing

end LAppS.ClientWebSocket
