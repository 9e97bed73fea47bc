import LAppS.ClientWebSocket.Input
import LAppS.StreamProcessing.Limits

/-!
# The buffers that a client connection feeds

The cursor of a client socket may stay behind a message, but it is always inside the buffer that the parser is called
with. What is proved of the parser for any such buffers holds for the loop of `cws_eventloop`.
-/

namespace LAppS.ClientWebSocket
open Rfc6455 StreamProcessing

/-- A parser of a client connection that is reached, and a cursor in the buffer. -/
structure Feeds (ws : Socket) : Prop where
  parser : ∃ frags, StreamProcessing.Reached .client 512 maxMSGSize frags ws.streamProcessor
  cursor : ws.cursor = 0 ∨ ws.cursor < ws.recvBuffer.length

/-- What holds of a socket in the loop: it is fed only when the handshake is over. -/
structure Fed (ws : Socket) : Prop where
  states : ws.mState = .handshake ∨ ws.mState = .messaging ∨ ws.mState = .handshakeFailed ∨ ws.mState = .closed
  handshake : ws.mState = .handshake → ws.cursor = 0 ∧ ws.streamProcessor = Parser.new 512
  messaging : ws.mState = .messaging → Feeds ws

variable {toupper : List UInt8 → List UInt8}

section Calls

variable {ws ws' : Socket} {l l' : Loop} {n : Nat}

theorem Feeds.fed (feeds : Feeds ws) (state : ws.mState = .messaging) : Fed ws := by
  refine ⟨.inr (.inl state), fun other => ?_, fun _ => feeds⟩
  rw [state] at other
  cases other

theorem fed_ended (state : ws.mState = .handshakeFailed ∨ ws.mState = .closed) : Fed ws := by
  refine ⟨.inr (.inr state), fun other => ?_, fun other => ?_⟩ <;> rw [other] at state <;> simp at state

theorem onEvent_fed (feeds : Feeds ws) (state : ws.mState = .messaging) (event : WSEvent) :
    Fed (onEvent ws event).1 := by
  unfold onEvent
  split
  · split
    · exact feeds.fed state
    · exact fed_ended (.inr rfl)
  case h_2 | h_3 | h_4 => exact feeds.fed state
  case h_5 => exact fed_ended (.inr rfl)
  case h_6 => exact fed_ended (.inr rfl)

/-- A call of `parse` with a buffer that has bytes behind the cursor, and what the loop does with its status. -/
theorem parseInput_fed (feeds : Feeds ws) (state : ws.mState = .messaging)
    (inside : ws.cursor < (ws.recvBuffer.take n).length) :
    ∃ l', l.dispatch (ws.parseInput n) = some l' ∧ Fed l'.ws := by
  obtain ⟨⟨frags, reached⟩, cursor⟩ := feeds
  have small : maxMSGSize < 2 ^ 63 := by decide
  unfold Socket.parseInput
  cases parsed : WSStreamClientParser.parse ws.streamProcessor (ws.recvBuffer.take n) ws.cursor with
  | error e => exact absurd parsed (reached.parse_ne_error small inside e)
  | ok x =>
    obtain ⟨r, q⟩ := x
    dsimp only
    cases directive : r.directive with
    | more =>
      have feeds : ∀ parsed, Feeds { ws with streamProcessor := q, parsed } := fun _ =>
        ⟨⟨_, reached.more inside parsed directive⟩, cursor⟩
      dsimp only
      split
      · exact ⟨_, rfl, (feeds _).fed state⟩
      · exact ⟨_, rfl, (feeds _).fed state⟩
    | takeReadyMessage =>
      have taken := reached.message inside parsed directive rfl
      have feeds : ∀ c parsed, c = 0 ∨ c < ws.recvBuffer.length →
          Feeds { ws with streamProcessor := (WSStreamClientParser.getMessage q).2, cursor := c, parsed } :=
        fun _ _ cursor => ⟨⟨_, taken⟩, cursor⟩
      dsimp only
      split
      · exact ⟨_, rfl, onEvent_fed (feeds _ _ cursor) state _⟩
      · exact ⟨_, rfl, onEvent_fed (feeds 0 _ (.inl rfl)) state _⟩
    | closeWithCode => exact ⟨_, rfl, fed_ended (.inr rfl)⟩
    | continue_ => exact absurd directive (parse_directive parsed)

theorem handshake_fed (cursor : ws.cursor = 0) (parser : ws.streamProcessor = Parser.new 512)
    (state : ws.mState = .handshake) (bytes : List UInt8) :
    ∃ l', l.dispatch (ws.handleInput toupper bytes) = some l' ∧ Fed l'.ws := by
  have read : (ws.forceRecv bytes).recvBuffer.take bytes.length = bytes := by simp [Socket.forceRecv]
  have start : (ws.forceRecv bytes).cursor = 0 := cursor
  simp only [Socket.handleInput, state, read, start]
  by_cases nothing : bytes = []
  · simp only [if_pos nothing]
    exact ⟨_, rfl, fed_ended (.inl rfl)⟩
  · have inside := responseOK_cursor toupper nothing (ws.forceRecv bytes).accept
    simp only [if_neg nothing]
    generalize responseOK toupper 0 bytes (ws.forceRecv bytes).accept = r at inside
    obtain ⟨ok, cursor'⟩ := r
    cases ok with
    | false => exact ⟨_, rfl, fed_ended (.inl rfl)⟩
    | true =>
      have fits : cursor' < (ws.forceRecv bytes).recvBuffer.length := by
        simp only [Socket.forceRecv, List.length_append]
        exact Nat.lt_add_right _ inside
      have upgraded : Feeds { ws.forceRecv bytes with
          cursor := cursor', mState := .messaging,
          streamProcessor := (ws.forceRecv bytes).streamProcessor.setMaxMSGSize maxMSGSize } := by
        refine ⟨⟨[], ?_⟩, .inr fits⟩
        show StreamProcessing.Reached _ _ _ _ (ws.streamProcessor.setMaxMSGSize maxMSGSize)
        rw [parser]
        exact .fresh
      simp only [if_true]
      split <;> exact ⟨_, rfl, upgraded.fed rfl⟩

theorem messaging_fed (feeds : Feeds ws) (state : ws.mState = .messaging) (bytes : List UInt8) :
    ∃ l', l.dispatch (ws.handleInput toupper bytes) = some l' ∧ Fed l'.ws := by
  simp only [Socket.handleInput, state]
  by_cases cursor : ws.cursor = 0
  · rw [if_pos cursor]
    have feeds' : ∀ received, Feeds { ws.forceRecv bytes with received } := fun _ => ⟨feeds.parser, .inl cursor⟩
    split
    · rename_i nonempty
      refine parseInput_fed (feeds' _) state ?_
      have length : ((ws.forceRecv bytes).recvBuffer.take bytes.length).length = bytes.length := by
        simp [Socket.forceRecv]
      show ws.cursor < ((ws.forceRecv bytes).recvBuffer.take bytes.length).length
      omega
    · exact ⟨_, rfl, (feeds' (ws.forceRecv bytes).received).fed state⟩
  · rw [if_neg cursor]
    have inside := feeds.cursor.resolve_left cursor
    rw [if_pos (by omega)]
    exact parseInput_fed feeds state (by rw [List.take_length]; exact inside)

/-- A call of `handleInput` never throws, and feeds the parser as it should be. -/
theorem handleInput_fed (fed : Fed ws) (bytes : List UInt8) :
    ∃ l', l.dispatch (ws.handleInput toupper bytes) = some l' ∧ Fed l'.ws := by
  rcases fed.states with state | state | state | state
  · exact handshake_fed (fed.handshake state).1 (fed.handshake state).2 state bytes
  · exact messaging_fed (fed.messaging state) state bytes
  all_goals
    simp only [Socket.handleInput, state]
    exact ⟨_, rfl, fed⟩

theorem step_fed (fed : Fed l.ws) (next : l.step toupper = some l') : Fed l'.ws := by
  unfold Loop.step at next
  split at next
  · cases next
  · split at next
    · split at next
      · cases next
      · rename_i bytes incoming _
        obtain ⟨l'', called, fed'⟩ := @handleInput_fed toupper l.ws { l with incoming } fed bytes
        rw [called] at next
        cases next
        exact fed'
    · obtain ⟨l'', called, fed'⟩ := @handleInput_fed toupper l.ws l fed []
      rw [called] at next
      cases next
      exact fed'

end Calls

/-! ### The calls of the parser -/

def Socket.parseCall (ws : Socket) (received : Nat) : ParseCall := ⟨ws.streamProcessor, ws.recvBuffer.take received, ws.cursor⟩

/-- The calls of `parse` that `handleInput` makes. -/
def Socket.parseCalls (ws : Socket) (bytes : List UInt8) : List ParseCall :=
  if ws.mState = .messaging then
    if ws.cursor = 0 then
      if bytes.length > 0 then [(ws.forceRecv bytes).parseCall bytes.length] else []
    else if ws.recvBuffer.length > 0 then [ws.parseCall ws.recvBuffer.length]
    else []
  else []

/-- The calls of `parse` that the next step of the loop makes. -/
def Loop.parseCalls (l : Loop) : List ParseCall :=
  if !l.inPool then []
  else if l.ws.receives then
    match l.incoming with
    | [] => []
    | bytes :: _ => l.ws.parseCalls bytes
  else l.ws.parseCalls []

/-- In every run of the loop the parser of a connection is one that is reached by feeding it. -/
theorem run_fed {accept recvBuffer : List UInt8} {incoming : List (List UInt8)} {l : Loop}
    (run : (Loop.start accept recvBuffer incoming).Reaches toupper l) : Fed l.ws := by
  induction run with
  | refl => exact ⟨.inl rfl, fun _ => ⟨rfl, rfl⟩, fun other => by cases other⟩
  | tail _ next fed => exact step_fed fed next

theorem Fed.parseCalls_safe {ws : Socket} (fed : Fed ws) (bytes : List UInt8) :
    ∀ call ∈ ws.parseCalls bytes, Safe .client call := by
  have small : maxMSGSize < 2 ^ 63 := by decide
  unfold Socket.parseCalls
  split
  next state =>
    obtain ⟨⟨frags, reached⟩, cursor⟩ := fed.messaging state
    split
    next start =>
      split
      next some =>
        intro call member
        obtain rfl := List.mem_singleton.mp member
        refine reached.safe small ?_
        show ws.cursor < ((ws.forceRecv bytes).recvBuffer.take bytes.length).length
        simp [Socket.forceRecv]
        omega
      next => simp
    next later =>
      split
      next =>
        intro call member
        obtain rfl := List.mem_singleton.mp member
        refine reached.safe small ?_
        rw [List.take_length]
        exact cursor.resolve_left later
      next => simp
  next => simp

theorem Fed.loop_safe {l : Loop} (fed : Fed l.ws) : ∀ call ∈ l.parseCalls, Safe .client call := by
  unfold Loop.parseCalls
  split
  · simp
  · split
    · split
      · simp
      · exact fed.parseCalls_safe _
    · exact fed.parseCalls_safe _

end LAppS.ClientWebSocket

namespace LAppS.StreamProcessing
open ClientWebSocket DefiniteCloseCode

/-- Whatever is fed, no call of `processPayload` leaves its bounds and no exception is thrown: to a parser that buffers were
fed to, by `processInput` with any handler, chunk after chunk, and by the loop of the client. -/
theorem payload_in_bounds {σ : Type} {limit : Nat} (small : limit < 2 ^ 63) (role : Role) (presz : Nat) (h : Handler σ) (w : σ)
    (toupper : List UInt8 → List UInt8) :
    (∀ frags p stream offset, Reached role presz limit frags p → offset < stream.length → Safe role ⟨p, stream, offset⟩) ∧
      (∀ chunks, [] ∉ chunks → ∀ call ∈ feedCalls role h w (fresh presz limit) chunks, Safe role call) ∧
        ∀ accept recvBuffer incoming l, (Loop.start accept recvBuffer incoming).Reaches toupper l →
          ∀ call ∈ l.parseCalls, Safe .client call :=
  ⟨fun _ _ _ _ reached inside => reached.safe small inside, fun _ nonempty => feedCalls_safe small .fresh nonempty,
    fun _ _ _ _ run => (run_fed run).loop_safe⟩

/-- A first fragment of three bytes that is cut after its first byte: the second chunk brings the rest of it, to a buffer that
is enlarged already, and the last fragment. -/
theorem payload_in_bounds_resumed :
    ∃ call ∈ feedCalls .client recorder [] (fresh 16 1000) [[1, 3, 97], [98, 99, 128, 1, 100]],
      call.stream = [98, 99, 128, 1, 100] ∧
        ∃ first last, payloadCalls .client call.parser call.stream call.cursor = [first, last] ∧
          (first.opening = false ∧ first.parser.mPLBytesReady = 1 ∧ InBounds .client call.stream first) ∧
            last.opening = true ∧ InBounds .client call.stream last := by
  obtain ⟨-, safe, -⟩ := payload_in_bounds (show 1000 < 2 ^ 63 by decide) .client 16 recorder [] id
  obtain ⟨q, cut, first, last, calls, resumes, ready, opens⟩ : ∃ q,
      parse .client (fresh 16 1000) [1, 3, 97] 0 = .ok (⟨0, .more, normal⟩, q) ∧
        ∃ first last, payloadCalls .client q [98, 99, 128, 1, 100] 0 = [first, last] ∧ first.opening = false ∧
          first.parser.mPLBytesReady = 1 ∧ last.opening = true :=
    ⟨_, parse_stop rfl (by decide), ⟨false, _, 0⟩, ⟨true, _, 4⟩,
      (payloadCalls_again rfl rfl rfl).trans (congrArg _ (payloadCalls_once rfl (fun _ => by decide))), rfl, rfl, rfl⟩
  have member : ⟨q, [98, 99, 128, 1, 100], 0⟩ ∈
      feedCalls .client recorder [] (fresh 16 1000) [[1, 3, 97], [98, 99, 128, 1, 100]] := by
    rw [feedCalls, drain_more cut rfl]
    exact List.mem_append_right _ (List.mem_append_left _ mem_drainCalls)
  have inBounds := (safe _ (by decide) _ member).inBounds
  rw [calls] at inBounds
  exact ⟨_, member, rfl, first, last, calls, ⟨resumes, ready, inBounds _ (by simp)⟩, opens, inBounds _ (by simp)⟩

end LAppS.StreamProcessing
