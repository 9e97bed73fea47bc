import Mathlib.Logic.Relation
import LAppS.ClientWebSocket.Handshake
import LAppS.StreamProcessing.ClientCall
import LAppS.StreamProcessing.Utf8

/-!
# The input of a client connection

`ClientWebSocket::handleInput` under the loop of `cws_eventloop`. The socket keeps a cursor of its own beside
that of the parser and does not move it behind a message, so that a piece of the stream is lost behind the
first message in it, and bytes behind the 101 response are read again and again.
-/

namespace LAppS.ClientWebSocket
open Rfc6455 StreamProcessing

variable (toupper : List UInt8 → List UInt8)

inductive State where
  | init | handshakeFailed | commError | closed | connect | upgrade | handshake | messaging
  deriving DecidableEq, Repr

inductive InputStatus where
  | forceClose | error | mustConnect | mustUpgrade | needMoreData | messageReadyBufferIsEmpty
  | messageReadyBufferIsNotEmpty | callOnceMore | upgraded | upgradedBuffNotEmpty
  deriving DecidableEq, Repr

/-- The size of `recvBuffer`. -/
def recvBufferSize : Nat := 8192

/-- The limit that is set after the handshake. -/
def maxMSGSize : Nat := 16777216

/-- The socket, with what `recv` has returned and what the parser has read of it as history. -/
structure Socket where
  cursor : Nat
  mState : State
  recvBuffer : List UInt8
  streamProcessor : Parser
  /-- The `Sec-WebSocket-Accept` that belongs to the key of the request. -/
  accept : List UInt8
  /-- The code of the Close frame that was sent. -/
  closeCode : Option DefiniteCloseCode
  /-- How many bytes the last `recv` returned. -/
  count : Nat
  /-- The bytes that were received after the handshake. -/
  received : List UInt8
  /-- The bytes that the parser has read. -/
  parsed : List UInt8

/-- The bytes from `i` to `j`. -/
def slice (buff : List UInt8) (i j : Nat) : List UInt8 := (buff.take j).drop i

namespace Socket

def forceRecv (ws : Socket) (bytes : List UInt8) : Socket :=
  { ws with recvBuffer := bytes ++ ws.recvBuffer.drop bytes.length, count := bytes.length }

def closeSocket (ws : Socket) (ccode : DefiniteCloseCode) : Socket :=
  { ws with mState := .closed, closeCode := some ccode }

/-- The switch over the directive of `parse`, for `received` bytes in the buffer. -/
def parseInput (ws : Socket) (received : Nat) : Except String (InputStatus × Socket) :=
  match WSStreamClientParser.parse ws.streamProcessor (ws.recvBuffer.take received) ws.cursor with
  | .error e => .error e
  | .ok (state, streamProcessor) =>
    let ws := { ws with streamProcessor }
    match state.directive with
    | .more =>
      let ws := { ws with parsed := ws.parsed ++ slice ws.recvBuffer ws.cursor received }
      .ok (if ws.cursor = 0 then .needMoreData else .callOnceMore, ws)
    | .takeReadyMessage =>
      let ws := { ws with parsed := ws.parsed ++ slice ws.recvBuffer ws.cursor state.cursor }
      if state.cursor ≠ received then .ok (.messageReadyBufferIsNotEmpty, ws)
      else .ok (.messageReadyBufferIsEmpty, { ws with cursor := 0 })
    | .closeWithCode => .ok (.forceClose, { ws with cursor := 0 }.closeSocket state.cCode)
    | .continue_ => .ok (.callOnceMore, { ws with cursor := state.cursor })

/-- `handleInput`, where `bytes` is what `recv` returns if it is called; no bytes are an error. -/
def handleInput (ws : Socket) (bytes : List UInt8) : Except String (InputStatus × Socket) :=
  match ws.mState with
  | .closed | .handshakeFailed | .commError | .init => .ok (.error, ws)
  | .connect => .ok (.mustConnect, ws)
  | .upgrade => .ok (.mustUpgrade, ws)
  | .handshake =>
    let ws := ws.forceRecv bytes
    let (ok, cursor) :=
      if bytes = [] then (false, ws.cursor) else responseOK toupper ws.cursor (ws.recvBuffer.take bytes.length) ws.accept
    let ws := { ws with cursor }
    if ok then
      let ws := { ws with mState := .messaging, streamProcessor := ws.streamProcessor.setMaxMSGSize maxMSGSize }
      .ok (if ws.cursor = 0 then .upgraded else .upgradedBuffNotEmpty, ws)
    else .ok (.error, { ws with mState := .handshakeFailed })
  | .messaging =>
    if ws.cursor = 0 then
      let ws := ws.forceRecv bytes
      if bytes.length > 0 then { ws with received := ws.received ++ bytes }.parseInput bytes.length
      else .ok (.error, ws)
    else if ws.recvBuffer.length > 0 then ws.parseInput ws.recvBuffer.length
    else .ok (.error, ws)

/-- Whether `handleInput` calls `recv`. -/
def receives (ws : Socket) : Bool := ws.mState = .handshake || (ws.mState = .messaging && ws.cursor = 0)

end Socket

/-- What `onEvent` does to the socket, and whether it stays in the pool. A Close message always makes
`onCloseMessage` close the socket. -/
def onEvent (ws : Socket) (event : WSEvent) : Socket × Bool :=
  match event.type with
  | .text =>
    if isValidUtf8 event.message event.message.length then (ws, true)
    else (ws.closeSocket DefiniteCloseCode.badData, false)
  | .binary | .ping | .pong => (ws, true)
  | .close => ({ ws with mState := .closed }, false)
  | _ => (ws.closeSocket DefiniteCloseCode.protocolViolation, true)

/-- The loop over one socket: what `recv` will return, whether the socket is still in the pool, and the
messages and the failure so far. -/
structure Loop where
  ws : Socket
  incoming : List (List UInt8)
  inPool : Bool
  messages : List Event

namespace Loop

/-- The switch over the status. The connection setup is not modelled. -/
def dispatch (l : Loop) : Except String (InputStatus × Socket) → Option Loop
  | .error _ => none
  | .ok (.forceClose, ws) =>
    some { l with ws, inPool := false, messages := l.messages ++ (ws.closeCode.map Event.fail).toList }
  | .ok (.error, ws) => some { l with ws, inPool := false }
  | .ok (.messageReadyBufferIsEmpty, ws) | .ok (.messageReadyBufferIsNotEmpty, ws) =>
    let (event, streamProcessor) := WSStreamClientParser.getMessage ws.streamProcessor
    let (ws, inPool) := onEvent { ws with streamProcessor } event
    some { l with ws, inPool, messages := l.messages ++ [.message event.type event.message] }
  | .ok (_, ws) => some { l with ws }

/-- One call of `handleInput`; there is none when the socket has left the pool, and it waits when `recv` has
nothing to return. -/
def step (l : Loop) : Option Loop :=
  if !l.inPool then none
  else if l.ws.receives then
    match l.incoming with
    | [] => none
    | bytes :: incoming => { l with incoming }.dispatch (l.ws.handleInput toupper bytes)
  else l.dispatch (l.ws.handleInput toupper [])

/-- A new connection that has sent its upgrade request; the thread's `recvBuffer` may have been used before. -/
def start (accept recvBuffer : List UInt8) (incoming : List (List UInt8)) : Loop where
  ws :=
    { cursor := 0, mState := .handshake, recvBuffer, streamProcessor := Parser.new 512, accept, closeCode := none,
      count := 0, received := [], parsed := [] }
  incoming := incoming
  inPool := true
  messages := []

/-- Everything that the loop gets to. -/
def Reaches : Loop → Loop → Prop := Relation.ReflTransGen fun l l' => l.step toupper = some l'

end Loop

/-- A report after which the connection is over. -/
def closes : Event → Bool
  | .fail _ => true
  | .message .text payload => !isValidUtf8 payload payload.length
  | .message .binary _ | .message .ping _ | .message .pong _ => false
  | .message _ _ => true

/-- The reports up to the one that ends the connection. -/
def session : List Event → List Event
  | [] => []
  | e :: events => if closes e then [e] else e :: session events

/-- The bytes in the buffer that the next call reads first. -/
def Socket.unread (ws : Socket) : List UInt8 := if ws.cursor = 0 then [] else slice ws.recvBuffer ws.cursor ws.count

/-- Nothing is lost, read twice or invented: what the parser has read and what it will read next are the bytes of
the stream so far, `glued` to the response or received later, and the messages are those of the stream. -/
def Loop.Faithful (glued : List UInt8) (l : Loop) : Prop :=
  match l.ws.mState with
  | .messaging =>
    l.ws.parsed ++ l.ws.unread = glued ++ l.ws.received ∧ l.messages = reports maxMSGSize l.ws.parsed
  | .closed => l.messages = session (reports maxMSGSize (glued ++ l.ws.received))
  | _ => True

/-- The first report of a piece ends the connection; if the last byte of the piece makes this report, it is not
an empty frame's, unless `more` bytes follow in the buffer. -/
def Ends (before piece : List UInt8) (more : Prop) : Prop :=
  ∃ k ≤ piece.length, ∃ e, closes e = true ∧ FirstAt maxMSGSize before piece k e ∧
    (k < piece.length ∨ more ∨ ¬Late maxMSGSize (before ++ piece))

/-- No byte of a piece before the last makes a report, and it does not end with an empty frame that makes one. -/
def Whole (before piece : List UInt8) : Prop :=
  (∀ j < piece.length, reports maxMSGSize (before ++ piece.take j) = reports maxMSGSize before) ∧
    ¬Late maxMSGSize (before ++ piece)

/-- The pieces that are taken without loss. -/
def Takes : List UInt8 → List (List UInt8) → Prop
  | _, [] => True
  | before, piece :: pieces =>
    Ends before piece False ∨ (Whole before piece ∧ Takes (before ++ piece) pieces)

/-- The same with bytes behind the response of `size` bytes: they must end the connection, or fill the buffer
with one message. -/
def Taken (size : Nat) (glued : List UInt8) (pieces : List (List UInt8)) : Prop :=
  glued = [] ∧ Takes [] pieces ∨
    glued ≠ [] ∧ glued.head?.any isCrLf = false ∧
      (Ends [] glued (size + glued.length < recvBufferSize) ∨
        size + glued.length = recvBufferSize ∧ Whole [] glued ∧ reports maxMSGSize glued ≠ [] ∧ Takes glued pieces)

/-! ### First reports -/

section First

variable {limit k k' : Nat} {before bs xs ys : List UInt8} {e e' : Event}

theorem reports_nil (limit : Nat) : reports limit [] = [] := rfl

theorem reports_mono (limit : Nat) (xs ys : List UInt8) : reports limit xs <+: reports limit (xs ++ ys) := by
  rw [reports, reports, Decoder.run_append]
  exact List.prefix_append ..

theorem not_quiet (h : FirstAt limit before bs k e) : reports limit (before ++ bs.take k) ≠ reports limit before := by
  rw [h.here]
  simp

theorem first_unique (h : FirstAt limit before bs k e) (h' : FirstAt limit before bs k' e') : k = k' ∧ e = e' := by
  obtain rfl : k = k' := by
    rcases Nat.lt_trichotomy k k' with lt | rfl | gt
    · exact absurd (h'.quiet k lt) (not_quiet h)
    · rfl
    · exact absurd (h.quiet k' gt) (not_quiet h')
  have same := h.here.symm.trans h'.here
  exact ⟨rfl, (List.cons.inj (List.append_cancel_left same)).1⟩

/-- A first report does not depend on what follows. -/
theorem first_append (hk : k ≤ xs.length) :
    FirstAt limit before (xs ++ ys) k e ↔ FirstAt limit before xs k e := by
  have same : ∀ j ≤ k, (xs ++ ys).take j = xs.take j := fun j hj =>
    List.take_append_of_le_length (hj.trans hk)
  constructor
  · rintro ⟨here, quiet⟩
    exact ⟨same k le_rfl ▸ here, fun j hj => same j hj.le ▸ quiet j hj⟩
  · rintro ⟨here, quiet⟩
    exact ⟨(same k le_rfl).symm ▸ here, fun j hj => (same j hj.le).symm ▸ quiet j hj⟩

theorem session_append {xs ys : List Event} (goesOn : ∀ x ∈ xs, closes x = false) (he : closes e = true) :
    session (xs ++ e :: ys) = xs ++ [e] := by
  induction xs with
  | nil => simp [session, he]
  | cons x xs ih =>
    simp [session, goesOn x List.mem_cons_self, ih fun y hy => goesOn y (List.mem_cons_of_mem _ hy)]

/-- A report that ends the connection ends the session. -/
theorem session_first (goesOn : ∀ x ∈ reports limit before, closes x = false)
    (h : FirstAt limit before bs k e) (he : closes e = true) :
    session (reports limit (before ++ bs)) = reports limit before ++ [e] := by
  obtain ⟨later, hlater⟩ := reports_mono limit (before ++ bs.take k) (bs.drop k)
  rw [List.append_assoc, List.take_append_drop, h.here, List.append_assoc, List.singleton_append] at hlater
  rw [← hlater, session_append goesOn he]

end First

/-! ### One call of `handleInput` -/

theorem onEvent_stays {ws : Socket} {op : OpCode} {payload : List UInt8}
    (h : closes (.message op payload) = false) : onEvent ws ⟨op, payload⟩ = (ws, true) := by
  cases op <;> simp_all [closes, onEvent]

theorem onEvent_closes {ws : Socket} {op : OpCode} {payload : List UInt8}
    (h : closes (.message op payload) = true) :
    (onEvent ws ⟨op, payload⟩).1.mState = .closed ∧ (onEvent ws ⟨op, payload⟩).1.received = ws.received := by
  cases op <;> simp_all [closes, onEvent, Socket.closeSocket]

theorem dispatch_ready {l : Loop} {ws : Socket} {status : InputStatus} {op : OpCode} {payload : List UInt8}
    {p : Parser} (hstatus : status = .messageReadyBufferIsEmpty ∨ status = .messageReadyBufferIsNotEmpty)
    (taken : WSStreamClientParser.getMessage ws.streamProcessor = (⟨op, payload⟩, p)) :
    l.dispatch (.ok (status, ws)) =
      some { l with
        ws := (onEvent { ws with streamProcessor := p } ⟨op, payload⟩).1,
        inPool := (onEvent { ws with streamProcessor := p } ⟨op, payload⟩).2,
        messages := l.messages ++ [.message op payload] } := by
  rcases hstatus with rfl | rfl <;> simp only [Loop.dispatch, taken]

/-- What a call that does not close the socket leaves as it is. -/
structure Keeps (l : Loop) (ws : Socket) (l' : Loop) : Prop where
  state : l'.ws.mState = ws.mState
  buffer : l'.ws.recvBuffer = ws.recvBuffer
  count : l'.ws.count = ws.count
  received : l'.ws.received = ws.received
  incoming : l'.incoming = l.incoming

/-- What a call does to the loop when the unread bytes are `bs`, after the stream `before`. -/
inductive Outcome (l : Loop) (ws : Socket) (before bs : List UInt8) (result : Option Loop) : Prop where
  | more {l' : Loop} (next : result = some l') (keeps : Keeps l ws l') (pool : l'.inPool = l.inPool)
      (rel : Rel .client maxMSGSize l'.ws.streamProcessor (reached maxMSGSize (before ++ bs)))
      (cursor : l'.ws.cursor = ws.cursor) (parsed : l'.ws.parsed = ws.parsed ++ bs)
      (messages : l'.messages = l.messages)
      (quiet : ∀ j < bs.length, reports maxMSGSize (before ++ bs.take j) = reports maxMSGSize before)
      (nothing : delivered maxMSGSize (before ++ bs) = reports maxMSGSize before)
  | message {k : Nat} {e : Event} {l' : Loop} (next : result = some l') (keeps : Keeps l ws l')
      (pool : l'.inPool = true) (pos : 0 < k) (le : k ≤ bs.length) (first : FirstAt maxMSGSize before bs k e)
      (stays : closes e = false)
      (last : k = bs.length →
        Rel .client maxMSGSize l'.ws.streamProcessor (reached maxMSGSize (before ++ bs)) ∧
          ¬Late maxMSGSize (before ++ bs))
      (cursor : l'.ws.cursor = if k = bs.length then 0 else ws.cursor)
      (parsed : l'.ws.parsed = ws.parsed ++ bs.take k) (messages : l'.messages = l.messages ++ [e])
  | ends {k : Nat} {e : Event} {l' : Loop} (next : result = some l') (closed : l'.ws.mState = .closed)
      (received : l'.ws.received = ws.received) (le : k ≤ bs.length) (first : FirstAt maxMSGSize before bs k e)
      (closing : closes e = true) (last : k = bs.length → ¬Late maxMSGSize (before ++ bs))
      (messages : l'.messages = l.messages ++ [e])

theorem slice_add (buff : List UInt8) {i k n : Nat} (le : i + k ≤ n) : slice buff i (i + k) = (slice buff i n).take k := by
  rw [slice, slice, List.take_drop, List.take_take, Nat.min_eq_left le]

theorem parseInput_outcome {l : Loop} {ws : Socket} {n : Nat} {before : List UInt8} (hn : n ≤ ws.recvBuffer.length)
    (hc : ws.cursor < n) (rel : Rel .client maxMSGSize ws.streamProcessor (reached maxMSGSize before))
    (prompt : ¬Late maxMSGSize before) :
    Outcome l ws before (slice ws.recvBuffer ws.cursor n) (l.dispatch (ws.parseInput n)) := by
  have len : (ws.recvBuffer.take n).length = n := by rw [List.length_take]; omega
  have blen : (slice ws.recvBuffer ws.cursor n).length = n - ws.cursor := by rw [slice, List.length_drop, len]
  have call := client_call (s := ws.recvBuffer.take n) (by decide) (by decide) rel prompt (by rw [len]; exact hc)
  unfold Socket.parseInput WSStreamClientParser.parse
  cases call with
  | more result directive rel' quiet nothing =>
    rw [result]
    simp only [directive]
    split
    · exact .more rfl ⟨rfl, rfl, rfl, rfl, rfl⟩ rfl rel' rfl rfl rfl (fun j hj => quiet j (by omega)) nothing
    · exact .more rfl ⟨rfl, rfl, rfl, rfl, rfl⟩ rfl rel' rfl rfl rfl (fun j hj => quiet j (by omega)) nothing
  | @message k q p' op payload pos le result taken first last =>
    have here := slice_add ws.recvBuffer (show ws.cursor + k ≤ n by omega)
    have full : ws.cursor + k = n ↔ k = (slice ws.recvBuffer ws.cursor n).length := by omega
    rw [result]
    dsimp only
    rw [here]
    cases hcloses : closes (.message op payload) with
    | false =>
      by_cases hk : ws.cursor + k = n
      · rw [if_neg (not_not.mpr hk), dispatch_ready (.inl rfl) taken, onEvent_stays hcloses]
        exact .message rfl ⟨rfl, rfl, rfl, rfl, rfl⟩ rfl pos (by omega) first hcloses (fun h => last (by omega))
          (if_pos (full.mp hk)).symm rfl rfl
      · rw [if_pos hk, dispatch_ready (.inr rfl) taken, onEvent_stays hcloses]
        exact .message rfl ⟨rfl, rfl, rfl, rfl, rfl⟩ rfl pos (by omega) first hcloses (fun h => last (by omega))
          (if_neg (full.not.mp hk)).symm rfl rfl
    | true =>
      by_cases hk : ws.cursor + k = n
      · rw [if_neg (not_not.mpr hk), dispatch_ready (.inl rfl) taken]
        obtain ⟨closed, received⟩ := onEvent_closes hcloses
        exact .ends rfl closed received (by omega) first hcloses (fun h => (last (by omega)).2) rfl
      · rw [if_pos hk, dispatch_ready (.inr rfl) taken]
        obtain ⟨closed, received⟩ := onEvent_closes hcloses
        exact .ends rfl closed received (by omega) first hcloses (fun h => (last (by omega)).2) rfl
  | @close k r q pos le result directive first last =>
    rw [result]
    simp only [directive]
    exact .ends rfl rfl rfl (by omega) first rfl (fun h => last (by omega)) rfl

/-! ### Runs of the loop -/

/-- Whatever the loop gets to is faithful. -/
def Loop.Always (glued : List UInt8) (l : Loop) : Prop := ∀ l', l.Reaches toupper l' → l'.Faithful glued

section Runs

variable {toupper} {glued before : List UInt8} {l l' : Loop}

theorem always_stop (h : l.step toupper = none) : l.Always toupper glued ↔ l.Faithful glued := by
  refine ⟨fun always => always l .refl, fun faithful l' reaches => ?_⟩
  rcases Relation.ReflTransGen.cases_head reaches with rfl | ⟨m, hm, -⟩
  · exact faithful
  · rw [h] at hm
    cases hm

theorem always_step (h : l.step toupper = some l') :
    l.Always toupper glued ↔ l.Faithful glued ∧ l'.Always toupper glued := by
  constructor
  · exact fun always => ⟨always l .refl, fun m hm => always m (.head h hm)⟩
  · rintro ⟨faithful, always⟩ m reaches
    rcases Relation.ReflTransGen.cases_head reaches with rfl | ⟨m', hm', later⟩
    · exact faithful
    · rw [h] at hm'
      exact always m (Option.some.inj hm' ▸ later)

/-- After a closed connection nothing happens. -/
theorem always_closed (closed : l.ws.mState = .closed) : l.Always toupper glued ↔ l.Faithful glued := by
  cases hpool : l.inPool with
  | false => exact always_stop (by simp [Loop.step, hpool])
  | true =>
    have last : l.step toupper = some { l with inPool := false } := by
      simp [Loop.step, hpool, Socket.receives, Socket.handleInput, closed, Loop.dispatch]
    rw [always_step last, always_stop (by simp [Loop.step])]
    exact and_iff_left_of_imp id

/-- The socket is about to receive, and all it has received so far is read. -/
structure Waits (glued before : List UInt8) (l : Loop) : Prop where
  state : l.ws.mState = .messaging
  pool : l.inPool = true
  cursor : l.ws.cursor = 0
  buffer : l.ws.recvBuffer.length = recvBufferSize
  parser : Rel .client maxMSGSize l.ws.streamProcessor (reached maxMSGSize before)
  prompt : ¬Late maxMSGSize before
  parsed : l.ws.parsed = before
  received : glued ++ l.ws.received = before
  messages : l.messages = reports maxMSGSize before
  goesOn : ∀ e ∈ reports maxMSGSize before, closes e = false

theorem faithful_messaging (h : l.ws.mState = .messaging) :
    l.Faithful glued ↔
      l.ws.parsed ++ l.ws.unread = glued ++ l.ws.received ∧ l.messages = reports maxMSGSize l.ws.parsed := by
  rw [Loop.Faithful, h]

theorem faithful_closed (h : l.ws.mState = .closed) :
    l.Faithful glued ↔ l.messages = session (reports maxMSGSize (glued ++ l.ws.received)) := by
  rw [Loop.Faithful, h]

theorem Waits.faithful (w : Waits glued before l) : l.Faithful glued := by
  rw [faithful_messaging w.state, Socket.unread, if_pos w.cursor, w.parsed, w.received, w.messages]
  simp

/-- The first report of a piece decides whether the piece ends the connection. -/
theorem not_ends {bs : List UInt8} {k : Nat} {e : Event} {more : Prop} (first : FirstAt maxMSGSize before bs k e)
    (stays : closes e = false) : ¬Ends before bs more := by
  rintro ⟨k', -, e', closing, first', -⟩
  rw [(first_unique first first').2, closing] at stays
  cases stays

theorem not_ends_quiet {bs : List UInt8}
    (quiet : ∀ j < bs.length, reports maxMSGSize (before ++ bs.take j) = reports maxMSGSize before)
    (nothing : delivered maxMSGSize (before ++ bs) = reports maxMSGSize before) : ¬Ends before bs False := by
  rintro ⟨k, le, e, -, first, seen⟩
  rcases le.lt_or_eq with lt | rfl
  · exact not_quiet first (quiet k lt)
  · have prompt : ¬Late maxMSGSize (before ++ bs) := by simpa using seen
    refine not_quiet first ?_
    rw [List.take_length, reports_of_prompt prompt, nothing]

theorem Waits.step (w : Waits glued before l) {piece : List UInt8} {pieces : List (List UInt8)}
    (hin : l.incoming = piece :: pieces) (hne : piece ≠ []) :
    Outcome { l with incoming := pieces }
      { l.ws.forceRecv piece with received := l.ws.received ++ piece } before piece (l.step toupper) := by
  have hpos : 0 < piece.length := List.length_pos_iff.mpr hne
  have taken : slice (l.ws.forceRecv piece).recvBuffer 0 piece.length = piece := by
    simp [slice, Socket.forceRecv]
  have called : l.step toupper = Loop.dispatch { l with incoming := pieces }
      ({ l.ws.forceRecv piece with received := l.ws.received ++ piece }.parseInput piece.length) := by
    simp [Loop.step, w.pool, Socket.receives, w.state, w.cursor, hin, Socket.handleInput, hpos, Socket.forceRecv]
  have outcome := @parseInput_outcome { l with incoming := pieces }
    { l.ws.forceRecv piece with received := l.ws.received ++ piece } piece.length _
    (by simp [Socket.forceRecv]) (by simp [Socket.forceRecv, w.cursor, hpos]) w.parser w.prompt
  rw [called]
  have cursor : (l.ws.forceRecv piece).cursor = 0 := w.cursor
  rw [cursor, taken] at outcome
  exact outcome

/-- A waiting socket takes the pieces to come without loss exactly when each of them is read in one call. -/
theorem Waits.always_iff (w : Waits glued before l)
    (hpieces : ∀ piece ∈ l.incoming, piece ≠ [] ∧ piece.length ≤ recvBufferSize) :
    l.Always toupper glued ↔ Takes before l.incoming := by
  induction hin : l.incoming generalizing l before with
  | nil =>
    rw [always_stop (by simp [Loop.step, w.pool, Socket.receives, w.state, w.cursor, hin])]
    exact iff_of_true w.faithful trivial
  | cons piece pieces ih =>
    obtain ⟨hne, hsize⟩ := hpieces piece (by rw [hin]; exact List.mem_cons_self)
    have later : ∀ piece ∈ pieces, piece ≠ [] ∧ piece.length ≤ recvBufferSize := fun x hx =>
      hpieces x (by rw [hin]; exact List.mem_cons_of_mem _ hx)
    have buffer : (l.ws.forceRecv piece).recvBuffer.length = recvBufferSize := by
      have := w.buffer
      simp only [Socket.forceRecv, List.length_append, List.length_drop]
      omega
    have received : glued ++ (l.ws.received ++ piece) = before ++ piece := by
      rw [← List.append_assoc, w.received]
    have outcome : Outcome _ _ before piece (l.step toupper) := w.step hin hne
    rw [Takes]
    cases outcome with
    | @more l' next keeps pool rel cursor parsed messages quiet nothing =>
      have state : l'.ws.mState = .messaging := keeps.state.trans w.state
      have parsed' : l'.ws.parsed = before ++ piece := parsed.trans (congrArg (· ++ piece) w.parsed)
      have messages' : l'.messages = reports maxMSGSize before := messages.trans w.messages
      rw [always_step next, and_iff_right w.faithful, or_iff_right (not_ends_quiet quiet nothing)]
      by_cases late : Late maxMSGSize (before ++ piece)
      · refine iff_of_false (fun always => ?_) (fun h => h.1.2 late)
        have same := ((faithful_messaging state).mp (always _ .refl)).2
        rw [messages', parsed', reports_eq maxMSGSize (before ++ piece), nothing, List.self_eq_append_right] at same
        exact late same
      · have same := (reports_of_prompt late).trans nothing
        rw [and_iff_right (show Whole before piece from ⟨quiet, late⟩)]
        refine ih ⟨state, pool.trans w.pool, cursor.trans w.cursor, (congrArg _ keeps.buffer).trans buffer, rel, late,
          parsed', (congrArg _ keeps.received).trans received, messages'.trans same.symm, same ▸ w.goesOn⟩
          (keeps.incoming ▸ later) keeps.incoming
    | @message k e l' next keeps pool pos le first stays last cursor parsed messages =>
      have state : l'.ws.mState = .messaging := keeps.state.trans w.state
      have cursor' : l'.ws.cursor = 0 := by
        rw [cursor]
        split
        · rfl
        · exact w.cursor
      have parsed' : l'.ws.parsed = before ++ piece.take k := parsed.trans (congrArg (· ++ piece.take k) w.parsed)
      have messages' : l'.messages = reports maxMSGSize before ++ [e] :=
        messages.trans (congrArg (· ++ [e]) w.messages)
      rw [always_step next, and_iff_right w.faithful, or_iff_right (not_ends first stays)]
      rcases le.lt_or_eq with lt | rfl
      · -- the rest of the piece is lost
        refine iff_of_false (fun always => ?_) (fun h => not_quiet first (h.1.1 k lt))
        have bytes := ((faithful_messaging state).mp (always _ .refl)).1
        rw [Socket.unread, if_pos cursor', parsed', keeps.received, received] at bytes
        have := congrArg List.length bytes
        simp at this
        omega
      · obtain ⟨rel, prompt⟩ := last rfl
        have here := first.here
        rw [List.take_length] at here parsed'
        rw [and_iff_right (show Whole before piece from ⟨first.quiet, prompt⟩)]
        refine ih ⟨state, pool, cursor', (congrArg _ keeps.buffer).trans buffer, rel, prompt, parsed',
          (congrArg _ keeps.received).trans received, messages'.trans here.symm, ?_⟩
          (keeps.incoming ▸ later) keeps.incoming
        rw [here]
        intro x hx
        rcases List.mem_append.mp hx with hx | hx
        · exact w.goesOn x hx
        · rw [List.mem_singleton.mp hx, stays]
    | @ends k e l' next closed hreceived le first closing last messages =>
      rw [always_step next, and_iff_right w.faithful, always_closed closed, faithful_closed closed]
      refine iff_of_true ?_ (.inl ⟨k, le, e, closing, first, ?_⟩)
      · have messages' : l'.messages = reports maxMSGSize before ++ [e] :=
          messages.trans (congrArg (· ++ [e]) w.messages)
        rw [messages', hreceived, received, session_first w.goesOn first closing]
      · rcases le.lt_or_eq with lt | eq
        · exact .inl lt
        · exact .inr (.inr (last eq))

/-- The socket after a response with `glued` bytes behind it, in a buffer that ends with `tail`. -/
structure Glued (size : Nat) (glued tail : List UInt8) (l : Loop) : Prop where
  state : l.ws.mState = .messaging
  pool : l.inPool = true
  cursor : l.ws.cursor = size
  behind : 0 < size
  nonempty : glued ≠ []
  buffer : l.ws.recvBuffer.drop size = glued ++ tail
  length : l.ws.recvBuffer.length = recvBufferSize
  count : l.ws.count = size + glued.length
  parser : Rel .client maxMSGSize l.ws.streamProcessor (reached maxMSGSize [])
  parsed : l.ws.parsed = []
  received : l.ws.received = []
  messages : l.messages = []

variable {size : Nat} {tail : List UInt8}

theorem Glued.total (g : Glued size glued tail l) : size + glued.length + tail.length = recvBufferSize := by
  have := congrArg List.length g.buffer
  have := List.length_pos_iff.mpr g.nonempty
  have := g.length
  simp at *
  omega

/-- The bytes behind the response, as long as the cursor stays there. -/
theorem Glued.unread (g : Glued size glued tail l) {l' : Loop} (keeps : Keeps l l.ws l')
    (cursor : l'.ws.cursor = l.ws.cursor) : l'.ws.unread = glued := by
  have := g.behind
  rw [Socket.unread, cursor, g.cursor, if_neg (by omega), keeps.buffer, keeps.count, g.count, slice, List.drop_take,
    g.buffer, Nat.add_sub_cancel_left, List.take_left]

theorem Glued.faithful (g : Glued size glued tail l) : l.Faithful glued := by
  rw [faithful_messaging g.state, g.unread ⟨rfl, rfl, rfl, rfl, rfl⟩ rfl, g.parsed, g.received, g.messages]
  simp [reports_nil]

theorem Glued.step (g : Glued size glued tail l) : Outcome l l.ws [] (glued ++ tail) (l.step toupper) := by
  have total := g.total
  have := List.length_pos_iff.mpr g.nonempty
  have := g.behind
  have hlen : 0 < recvBufferSize := by decide
  have called : l.step toupper = l.dispatch (l.ws.parseInput l.ws.recvBuffer.length) := by
    have hcursor : l.ws.cursor ≠ 0 := by rw [g.cursor]; omega
    simp [Loop.step, g.pool, Socket.receives, g.state, hcursor, Socket.handleInput, g.length, hlen]
  have outcome := parseInput_outcome (l := l) le_rfl (by rw [g.cursor, g.length]; omega) g.parser
    (by simp [Late, reached, Decoder.settle])
  rwa [← called, slice, List.take_length, g.cursor, g.buffer] at outcome

/-- Bytes behind the response are taken without loss only if they end the connection or are one message that
fills the buffer. -/
theorem Glued.always_iff (g : Glued size glued tail l)
    (hpieces : ∀ piece ∈ l.incoming, piece ≠ [] ∧ piece.length ≤ recvBufferSize) :
    l.Always toupper glued ↔
      Ends [] glued (size + glued.length < recvBufferSize) ∨
        size + glued.length = recvBufferSize ∧ Whole [] glued ∧ reports maxMSGSize glued ≠ [] ∧
          Takes glued l.incoming := by
  have total := g.total
  have hpos := List.length_pos_iff.mpr g.nonempty
  have hlen : (glued ++ tail).length = glued.length + tail.length := List.length_append
  have filled : size + glued.length = recvBufferSize → tail = [] := fun h =>
    List.eq_nil_of_length_eq_zero (by omega)
  have outcome : Outcome l l.ws [] (glued ++ tail) (l.step toupper) := g.step
  cases outcome with
  | @more l' next keeps pool rel cursor parsed messages quiet nothing =>
    rw [always_step next, and_iff_right g.faithful]
    refine iff_of_false (fun always => ?_) ?_
    · have bytes := ((faithful_messaging (keeps.state.trans g.state)).mp (always _ .refl)).1
      rw [g.unread keeps cursor, parsed, g.parsed, keeps.received, g.received] at bytes
      have := congrArg List.length bytes
      simp at this
      exact g.nonempty this.2
    · rintro (⟨k, le, e, -, first, seen⟩ | ⟨full, whole, some, -⟩)
      · rcases (Nat.le_add_right_of_le le : k ≤ glued.length + tail.length).lt_or_eq with lt | eq
        · exact not_quiet ((first_append le).mpr first) (quiet k (by omega))
        · obtain rfl : tail = [] := List.eq_nil_of_length_eq_zero (by omega)
          obtain rfl : k = glued.length := by simpa using eq
          rw [List.append_nil] at nothing
          have prompt : ¬Late maxMSGSize ([] ++ glued) := by
            rcases seen with h | h | h
            · omega
            · omega
            · exact h
          refine not_quiet first ?_
          rw [List.take_length, reports_of_prompt prompt, nothing]
      · rw [filled full, List.append_nil] at nothing
        exact some ((reports_of_prompt whole.2).trans nothing)
  | @message k e l' next keeps pool pos le first stays last cursor parsed messages =>
    have state : l'.ws.mState = .messaging := keeps.state.trans g.state
    rw [always_step next, and_iff_right g.faithful]
    have notEnds : ¬Ends [] glued (size + glued.length < recvBufferSize) := by
      rintro ⟨k', le', e', closing, first', -⟩
      rw [(first_unique first ((first_append le').mpr first')).2, closing] at stays
      cases stays
    rw [or_iff_right notEnds]
    rcases le.lt_or_eq with lt | rfl
    · -- the message is read again
      rw [if_neg lt.ne] at cursor
      refine iff_of_false (fun always => ?_) ?_
      · have bytes := ((faithful_messaging state).mp (always _ .refl)).1
        rw [g.unread keeps cursor, parsed, g.parsed, keeps.received, g.received] at bytes
        have := congrArg List.length bytes
        simp only [List.nil_append, List.append_nil, List.length_append, List.length_take] at this
        omega
      · rintro ⟨full, whole, -, -⟩
        rw [filled full, List.append_nil] at first lt
        exact not_quiet first (whole.1 k lt)
    · rw [if_pos rfl] at cursor
      rw [List.take_length, g.parsed, List.nil_append] at parsed
      by_cases full : size + glued.length = recvBufferSize
      · obtain rfl := filled full
        obtain ⟨rel, prompt⟩ := last rfl
        rw [List.append_nil] at *
        have here := first.here
        rw [List.take_length, List.nil_append, reports_nil, List.nil_append] at here
        have w : Waits glued glued l' := by
          refine ⟨state, pool, cursor, (congrArg _ keeps.buffer).trans g.length, rel, prompt, parsed, ?_, ?_, ?_⟩
          · rw [keeps.received, g.received, List.append_nil]
          · rw [messages, g.messages, here]
            rfl
          · rw [here]
            simpa using stays
        rw [w.always_iff (keeps.incoming ▸ hpieces), keeps.incoming, and_iff_right full,
          and_iff_right (show Whole [] glued from ⟨first.quiet, prompt⟩), and_iff_right (by rw [here]; simp)]
      · -- bytes that were not received are read
        refine iff_of_false (fun always => ?_) (fun h => full h.1)
        have bytes := ((faithful_messaging state).mp (always _ .refl)).1
        rw [Socket.unread, if_pos cursor, parsed, keeps.received, g.received] at bytes
        have := congrArg List.length bytes
        simp only [List.append_nil, List.length_append] at this
        omega
  | @ends k e l' next closed hreceived le first closing last messages =>
    rw [always_step next, and_iff_right g.faithful, always_closed closed, faithful_closed closed, messages, hreceived,
      g.messages, g.received, List.append_nil, List.nil_append]
    by_cases hk : k ≤ glued.length
    · have first' := (first_append hk).mp first
      have finished := session_first (by simp [reports_nil]) first' closing
      rw [List.nil_append, reports_nil, List.nil_append] at finished
      refine iff_of_true finished.symm (.inl ⟨k, hk, e, closing, first', ?_⟩)
      rcases hk.lt_or_eq with lt | eq
      · exact .inl lt
      · by_cases full : size + glued.length = recvBufferSize
        · obtain rfl := filled full
          rw [List.append_nil] at last
          exact .inr (.inr (last eq))
        · exact .inr (.inl (by omega))
    · have quiet := first.quiet glued.length (by omega)
      rw [List.take_left, List.nil_append, reports_nil] at quiet
      refine iff_of_false (by rw [quiet]; simp [session]) ?_
      rintro (⟨k', le', e', -, first', -⟩ | ⟨full, -⟩)
      · exact hk ((first_unique first ((first_append le').mpr first')).1 ▸ le')
      · obtain rfl := filled full
        rw [List.append_nil] at le
        exact hk le

end Runs

/-- The loop after the response, which arrived with the first `bytes`. -/
def Loop.afterResponse (accept stale bytes : List UInt8) (pieces : List (List UInt8)) : Loop where
  ws :=
    { cursor := (responseOK toupper 0 bytes accept).2, mState := .messaging, recvBuffer := bytes ++ stale.drop bytes.length,
      streamProcessor := fresh 512 maxMSGSize, accept, closeCode := none, count := bytes.length, received := [],
      parsed := [] }
  incoming := pieces
  inPool := true
  messages := []

theorem start_step {accept bytes : List UInt8} (stale : List UInt8) (pieces : List (List UInt8)) (hne : bytes ≠ [])
    (ok : (responseOK toupper 0 bytes accept).1 = true) :
    (Loop.start accept stale (bytes :: pieces)).step toupper = some (Loop.afterResponse toupper accept stale bytes pieces) := by
  unfold Loop.afterResponse
  generalize hr : responseOK toupper 0 bytes accept = r at ok
  obtain ⟨verdict, cursor⟩ := r
  obtain rfl : verdict = true := ok
  by_cases hc : cursor = 0 <;>
    simp [Loop.step, Loop.start, Socket.receives, Socket.handleInput, Socket.forceRecv, hne, hr, hc, Loop.dispatch, fresh]

/-- A cursor that is not at the bytes behind the response misses some of them. -/
theorem unread_short {ws : Socket} {n k : Nat} (count : ws.count = n + k) (pos : 0 < k)
    (cursor : ws.cursor = 0 ∨ n < ws.cursor) : ws.unread.length < k := by
  unfold Socket.unread
  split
  · exact pos
  · rw [slice, List.length_drop, List.length_take, count]
    omega

/-- Every byte behind the response is read once and in order, nothing else is, and the messages are those of the
stream, exactly when each piece that `recv` returns is read in one call. -/
theorem client_input_iff (empty : toupper [] = []) (accept resp glued stale : List UInt8)
    (pieces : List (List UInt8)) (response : Response toupper accept resp) (hsize : resp.length + glued.length ≤ recvBufferSize)
    (hstale : stale.length = recvBufferSize)
    (hpieces : ∀ piece ∈ pieces, piece ≠ [] ∧ piece.length ≤ recvBufferSize) :
    (∀ l, (Loop.start accept stale ((resp ++ glued) :: pieces)).Reaches toupper l → l.Faithful glued) ↔
      Taken resp.length glued pieces := by
  have long := response.long
  obtain ⟨ok, alone, plain, broken⟩ := responseOK_append empty response glued
  have hne : resp ++ glued ≠ [] := List.ne_nil_of_length_pos (by simp; omega)
  have first : (Loop.start accept stale ((resp ++ glued) :: pieces)).Faithful glued := trivial
  have rel := rel_fresh .client 512 maxMSGSize
  show Loop.Always toupper glued _ ↔ _
  rw [always_step (start_step toupper stale pieces hne ok), and_iff_right first]
  have buffer : (resp ++ glued ++ stale.drop (resp ++ glued).length).length = recvBufferSize := by
    simp
    omega
  unfold Taken
  by_cases hg : glued = []
  · have w : Waits glued [] (Loop.afterResponse toupper accept stale (resp ++ glued) pieces) :=
      ⟨rfl, rfl, alone hg, buffer, rel, by simp [Late, reached, Decoder.settle], rfl, by simp [hg, Loop.afterResponse],
        rfl, by simp [reports_nil]⟩
    rw [w.always_iff hpieces]
    simp [hg, Loop.afterResponse]
  · cases hb : glued.head?.any isCrLf with
    | false =>
      have g : Glued resp.length glued (stale.drop (resp ++ glued).length)
          (Loop.afterResponse toupper accept stale (resp ++ glued) pieces) :=
        ⟨rfl, rfl, plain hg hb, by omega, hg, by simp [Loop.afterResponse], buffer, by simp [Loop.afterResponse], rel,
          rfl, rfl, rfl⟩
      rw [g.always_iff hpieces]
      simp [hg, Loop.afterResponse]
    | true =>
      -- the line breaks at the beginning of the frames are taken for a part of the response
      refine iff_of_false (fun always => ?_) (by simp [hg])
      have bytes := ((faithful_messaging rfl).mp (always _ .refl)).1
      have short : (Loop.afterResponse toupper accept stale (resp ++ glued) pieces).ws.unread.length < glued.length :=
        unread_short List.length_append (List.length_pos_iff.mpr hg) (broken hb)
      have same : (Loop.afterResponse toupper accept stale (resp ++ glued) pieces).ws.unread = glued ++ [] := bytes
      rw [same, List.append_nil] at short
      exact absurd short (Nat.lt_irrefl _)

/-- The response of RFC 6455, section 1.3. -/
def sampleAccept : List UInt8 := ascii "s3pPLMBiTxaQ9kYGzzhZRbK+xOo="

def sampleResponse : List UInt8 :=
  statusLine ++ ascii "Upgrade: websocket\r\nConnection: Upgrade\r\nSec-WebSocket-Accept: " ++ sampleAccept ++
    ascii "\r\n\r\n"

theorem sampleResponse_length : sampleResponse.length = 129 := by
  simp [sampleResponse, sampleAccept, statusLine, ascii]

theorem sampleResponse_headers : accepted capitals (readHeaders (sampleResponse.drop 34) []).1 sampleAccept = true ∧
    (readHeaders (sampleResponse.drop 34) []).2 = some [] := by decide +kernel

theorem sampleResponse_accepted : Response capitals sampleAccept sampleResponse where
  key := by decide +kernel
  long := by rw [sampleResponse_length]; decide
  status := by simp [sampleResponse, statusLine, ascii]
  headers := sampleResponse_headers.1
  complete := sampleResponse_headers.2

def unusedBuffer : List UInt8 := List.replicate recvBufferSize 0

/-- Two texts, each in a piece of its own. -/
def twoPieces : List (List UInt8) := [[0x81, 0x01, 97], [0x81, 0x01, 98]]

theorem twoPieces_taken : Taken sampleResponse.length [] twoPieces := by
  refine .inl ⟨rfl, .inr ⟨?_, .inr ⟨?_, trivial⟩⟩⟩
  · exact ⟨by decide +kernel, not_not.mpr (by decide +kernel)⟩
  · exact ⟨by decide +kernel, not_not.mpr (by decide +kernel)⟩

theorem client_input_two_pieces :
    Taken sampleResponse.length [] twoPieces ∧
    ∀ l, (Loop.start sampleAccept unusedBuffer ((sampleResponse ++ []) :: twoPieces)).Reaches capitals l → l.Faithful [] :=
  ⟨twoPieces_taken,
    (client_input_iff capitals rfl sampleAccept sampleResponse [] unusedBuffer twoPieces sampleResponse_accepted
      (by rw [sampleResponse_length]; decide) List.length_replicate (by decide +kernel)).mpr twoPieces_taken⟩

/-- The same two texts in one piece. -/
def onePiece : List UInt8 := [0x81, 0x01, 97, 0x81, 0x01, 98]

/-- The second text is lost. -/
theorem client_input_counterexample :
    reports maxMSGSize onePiece = [.message .text [97], .message .text [98]] ∧
    ∃ l, (Loop.start sampleAccept unusedBuffer [sampleResponse, onePiece]).Reaches capitals l ∧ l.step capitals = none ∧
      l.messages = [.message .text [97]] ∧ ¬l.Faithful [] := by
  refine ⟨by decide +kernel, ?_⟩
  have nonempty : sampleResponse ≠ [] := List.ne_nil_of_length_pos (by rw [sampleResponse_length]; decide)
  have ok := (responseOK_append rfl sampleResponse_accepted []).1
  rw [List.append_nil] at ok
  have first := start_step capitals unusedBuffer [onePiece] nonempty ok
  have facts : (Loop.afterResponse capitals sampleAccept unusedBuffer sampleResponse [onePiece]).step capitals |>.any fun l =>
      (l.step capitals).isNone ∧ l.messages = [.message .text [97]] ∧ l.ws.mState = .messaging ∧ l.ws.cursor = 0 ∧
        l.ws.parsed = [0x81, 0x01, 97] ∧ l.ws.received = onePiece := by
    decide +kernel
  cases second : (Loop.afterResponse capitals sampleAccept unusedBuffer sampleResponse [onePiece]).step capitals with
  | none => simp [second] at facts
  | some l =>
    simp only [second, Option.any_some, decide_eq_true_eq] at facts
    obtain ⟨stop, messages, state, cursor, parsed, received⟩ := facts
    refine ⟨l, .head first (.head second .refl), Option.isNone_iff_eq_none.mp stop, messages, fun faithful => ?_⟩
    have bytes := ((faithful_messaging state).mp faithful).1
    rw [Socket.unread, if_pos cursor, parsed, received] at bytes
    cases bytes

end LAppS.ClientWebSocket
