import LAppS.ServiceRegistry
import LAppS.WebSocketProtocol.CloseMessage

/-!
# The input of a server WebSocket

`WebSocket::handleInput` and what it enqueues to the application of the socket.
-/

namespace LAppS.WebSocket
open Rfc6455 StreamProcessing DefiniteCloseCode WebSocketProtocol

/-- The states in their order. -/
inductive State where
  | accept
  | handshake
  | messaging
  | closed
  deriving DecidableEq, Repr

structure AppInEvent where
  opcode : OpCode
  message : List UInt8
  deriving DecidableEq, Repr

/-- The socket, with all the events that it has enqueued. -/
structure Socket where
  mState : State
  mNoInput : Bool
  streamProcessor : Parser
  mApplication : Option Service
  events : List AppInEvent

namespace Socket

/-- The application's `enqueue` does not throw. A socket in `MESSAGING` has an application. -/
def enqueue (ws : Socket) (opcode : OpCode) (message : List UInt8) : Socket :=
  { ws with events := ws.events ++ [⟨opcode, message⟩] }

def closeSocket (ws : Socket) (ccode : DefiniteCloseCode) : Socket :=
  { ws.enqueue .close (ServerCloseMessage.ofCode ccode) with mNoInput := true }

variable (behind : List UInt8 → Nat → UInt8)

/-- `behind` is the memory behind the payload of a Close message. -/
def onMessage (ws : Socket) (ref : WSEvent) : Socket × Except String Bool :=
  if ws.mApplication.isNone then (ws, .error "No backend service is available")
  else
    match ref.type with
    | .text =>
      if isValidUtf8 ref.message ref.message.length then (ws.enqueue .text ref.message, .ok true)
      else (ws.closeSocket badData, .ok false)
    | .binary => (ws.enqueue .binary ref.message, .ok true)
    | .close => (ws.closeSocket (onCloseMessage ref.message (behind ref.message)), .ok false)
    | .ping => (ws.enqueue .pong (ServerPongMessage ref.message), .ok true)
    | .pong => (ws, .ok true)
    | _ => (ws.closeSocket protocolViolation, .ok false)

def handler : Handler Socket := ⟨onMessage behind, closeSocket⟩

/-- The last directive; outside of `MESSAGING` there is none. -/
def processInput (ws : Socket) (input : List UInt8) : Socket × Except String (Option Directive) :=
  if ws.mState ≠ .messaging then (ws, .ok none)
  else
    let (ws', streamProcessor, directive) := drain .server (handler behind) ws ws.streamProcessor input 0
    ({ ws' with streamProcessor }, directive.map some)

variable (tls : Bool)

/-- The loop around `recv`, which fails, or returns nothing, or some bytes. With TLS it goes on while the parser asks
for more. -/
def recvLoop (ws : Socket) : List (Option (List UInt8)) → Socket × Except String Int
  | [] | none :: _ => (ws, .ok (-1))
  | some [] :: _ => (ws, .ok 0)
  | some (b :: input) :: reads =>
    match ws.processInput behind (b :: input) with
    | (ws, .error e) => (ws, .error e)
    | (ws, .ok directive) =>
      if tls ∧ directive = some .more then recvLoop ws reads else (ws, .ok (b :: input).length)

/-- One call of `handleInput`; `busy` says whether the service holds the mutex. -/
def handleInput (ws : Socket) (busy : Bool) (reads : List (Option (List UInt8))) : Socket × Except String Int :=
  if ws.mState = .closed then (ws, .ok (-1))
  else if busy then (ws, .ok 0)
  else if ws.mNoInput then (ws, .ok 0)
  else recvLoop behind tls ws reads

end Socket

inductive Step where
  | handleInput (busy : Bool) (reads : List (Option (List UInt8)))
  | close

namespace Socket

variable (behind : List UInt8 → Nat → UInt8) (tls : Bool)

def step (ws : Socket) : Step → Socket
  | .handleInput busy reads => (ws.handleInput behind tls busy reads).1
  | .close => { ws with mState := .closed }

def run (ws : Socket) (steps : List Step) : Socket := steps.foldl (step behind tls) ws

/-! ### Before and after the CLOSE -/

/-- `P` holds of the socket until it enqueues a CLOSE, and `Q` from then on. -/
structure Phases (P Q : Socket → Prop) : Prop where
  enqueue : ∀ {ws : Socket} {op : OpCode} (message : List UInt8), P ws → op ≠ .close → P (ws.enqueue op message)
  closeSocket : ∀ {ws : Socket} (ccode : DefiniteCloseCode), P ws → Q (ws.closeSocket ccode)
  parsed : ∀ {ws : Socket} (streamProcessor : Parser), P ws → P { ws with streamProcessor }
  parsed_last : ∀ {ws : Socket} (streamProcessor : Parser), Q ws → Q { ws with streamProcessor }

section
variable {P Q : Socket → Prop} (phases : Phases P Q) {behind : List UInt8 → Nat → UInt8} {tls : Bool} {ws : Socket}
include phases

theorem Phases.onMessage (h : P ws) (m : WSEvent) : Handler.Outcome P Q (onMessage behind ws m) := by
  unfold Socket.onMessage
  split
  · exact h
  cases m.type <;> dsimp only
  case text =>
    split
    · exact phases.enqueue _ h (by decide)
    · exact phases.closeSocket _ h
  case binary => exact phases.enqueue _ h (by decide)
  case ping => exact phases.enqueue _ h (by decide)
  case pong => exact h
  all_goals exact phases.closeSocket _ h

theorem Phases.processInput (h : P ws) (input : List UInt8) :
    P (ws.processInput behind input).1 ∨
      Q (ws.processInput behind input).1 ∧ (ws.processInput behind input).2 ≠ .ok (some .more) := by
  unfold Socket.processInput
  split
  · exact .inl h
  · have ends : P (drain .server (handler behind) ws ws.streamProcessor input 0).1 ∨ _ :=
      drain_ends (fun _ m h => phases.onMessage h m) (fun _ code h => phases.closeSocket code h) h
    rcases drained : drain .server (handler behind) ws ws.streamProcessor input 0 with ⟨ws', p, r⟩
    rw [drained] at ends
    rcases ends with h | ⟨h, stops⟩
    · exact .inl (phases.parsed p h)
    · refine .inr ⟨phases.parsed_last p h, ?_⟩
      cases r with
      | error e => exact nofun
      | ok d =>
        rintro ⟨⟩
        exact stops rfl

/-- When the loop has enqueued a CLOSE, it reads nothing more. -/
theorem Phases.recvLoop (h : P ws) (reads : List (Option (List UInt8))) :
    P (ws.recvLoop behind tls reads).1 ∨
      Q (ws.recvLoop behind tls reads).1 ∧
        ∀ more, ws.recvLoop behind tls (reads ++ more) = ws.recvLoop behind tls reads := by
  induction reads generalizing ws with
  | nil => exact .inl h
  | cons read reads ih =>
    match read with
    | none => exact .inl h
    | some [] => exact .inl h
    | some (b :: input) =>
      simp only [List.cons_append, Socket.recvLoop]
      rcases processed : ws.processInput behind (b :: input) with ⟨ws', r⟩
      have outcome : P (ws.processInput behind (b :: input)).1 ∨ _ := phases.processInput h (b :: input)
      rw [processed] at outcome
      cases r with
      | error e => exact outcome.imp id fun ended => ⟨ended.1, fun _ => rfl⟩
      | ok directive =>
        dsimp only
        rcases outcome with goesOn | ⟨ended, stops⟩
        · split
          · exact ih goesOn
          · exact .inl goesOn
        · have last : ¬(tls = true ∧ directive = some .more) := by
            rintro ⟨-, rfl⟩
            exact stops rfl
          rw [if_neg last]
          exact .inr ⟨ended, fun _ => if_neg last⟩

theorem Phases.handleInput (h : P ws) (busy : Bool) (reads : List (Option (List UInt8))) :
    P (ws.handleInput behind tls busy reads).1 ∨ Q (ws.handleInput behind tls busy reads).1 := by
  unfold Socket.handleInput
  repeat' split
  · exact .inl h
  · exact .inl h
  · exact .inl h
  · exact (phases.recvLoop h reads).imp id And.left

end

/-! ### The event stream -/

def CloseLast (events : List AppInEvent) : Prop :=
  ∀ before e after, events = before ++ e :: after → e.opcode = .close → after = []

def Announced (ws : Socket) : Prop := ∃ e ∈ ws.events, e.opcode = .close

def Open (ws : Socket) : Prop := ws.mNoInput = false ∧ ¬ws.Announced

/-- The socket takes no more input. -/
def Ended (ws : Socket) : Prop := ws.mNoInput = true ∧ CloseLast ws.events

variable {behind : List UInt8 → Nat → UInt8} {tls : Bool} {ws : Socket}

theorem Open.closeLast (h : ws.Open) : CloseLast ws.events := by
  intro before e after heq hclose
  exact absurd ⟨e, by simp [heq], hclose⟩ h.2

theorem Open.enqueue (h : ws.Open) {op : OpCode} (hop : op ≠ .close) (message : List UInt8) :
    (ws.enqueue op message).Open := by
  refine ⟨h.1, ?_⟩
  rintro ⟨e, he, hclose⟩
  rcases List.mem_append.mp he with he | he
  · exact h.2 ⟨e, he, hclose⟩
  · rw [List.mem_singleton.mp he] at hclose
    exact hop hclose

theorem Open.closeSocket (h : ws.Open) (code : DefiniteCloseCode) : (ws.closeSocket code).Ended := by
  refine ⟨rfl, ?_⟩
  intro before e after heq hclose
  -- A CLOSE that is not the last event would have been there before.
  rcases List.eq_nil_or_concat after with rfl | ⟨after, last, rfl⟩
  · rfl
  · have split : ws.events = before ++ e :: after := by
      rw [List.concat_eq_append, ← List.cons_append, ← List.append_assoc] at heq
      exact (List.append_inj' heq rfl).1
    exact absurd ⟨e, by simp [split], hclose⟩ h.2

theorem open_ended : Phases Open Ended where
  enqueue := fun message h hop => h.enqueue hop message
  closeSocket := fun ccode h => h.closeSocket ccode
  parsed := fun _ h => h
  parsed_last := fun _ h => h

def Sound (ws : Socket) : Prop := ws.Open ∨ ws.Ended

theorem Sound.closeLast (h : ws.Sound) : CloseLast ws.events := h.elim Open.closeLast And.right

theorem Sound.ended (h : ws.Sound) (announced : ws.Announced) : ws.Ended :=
  h.resolve_left fun isOpen => isOpen.2 announced

theorem handleInput_noInput (h : ws.mNoInput = true) (busy : Bool) (reads : List (Option (List UInt8))) :
    (ws.handleInput behind tls busy reads).1 = ws := by
  unfold Socket.handleInput
  rw [if_pos h]
  repeat' split
  all_goals rfl

theorem Sound.handleInput_append (h : ws.Sound) {busy : Bool} {reads : List (Option (List UInt8))}
    (announced : (ws.handleInput behind tls busy reads).1.Announced) (more : List (Option (List UInt8))) :
    ws.handleInput behind tls busy (reads ++ more) = ws.handleInput behind tls busy reads := by
  unfold Socket.handleInput at announced ⊢
  split
  · rfl
  split
  · rfl
  split
  · rfl
  next closed isBusy noInput =>
    rw [if_neg closed, if_neg isBusy, if_neg noInput] at announced
    have isOpen : ws.Open := h.resolve_right fun ended => noInput ended.1
    have outcome : (ws.recvLoop behind tls reads).1.Open ∨ _ := open_ended.recvLoop isOpen reads
    rcases outcome with goesOn | ⟨-, same⟩
    · exact absurd announced goesOn.2
    · exact same more

theorem Sound.step (h : ws.Sound) (s : Step) : (ws.step behind tls s).Sound := by
  cases s with
  | close => exact h
  | handleInput busy reads =>
    rcases h with isOpen | ended
    · exact open_ended.handleInput isOpen busy reads
    · show (ws.handleInput behind tls busy reads).1.Sound
      rw [handleInput_noInput ended.1]
      exact .inr ended

theorem Sound.run (h : ws.Sound) (steps : List Step) : (ws.run behind tls steps).Sound := by
  induction steps generalizing ws with
  | nil => exact h
  | cons s steps ih => exact ih (h.step s)

/-- Nothing more is enqueued or parsed. -/
theorem Ended.run (h : ws.Ended) (steps : List Step) :
    (ws.run behind tls steps).events = ws.events ∧
      (ws.run behind tls steps).streamProcessor = ws.streamProcessor := by
  induction steps generalizing ws with
  | nil => exact ⟨rfl, rfl⟩
  | cons s steps ih =>
    cases s with
    | close => exact ih (show Ended { ws with mState := .closed } from h)
    | handleInput busy reads =>
      have same : ws.step behind tls (.handleInput busy reads) = ws := handleInput_noInput h.1 busy reads
      rw [Socket.run, List.foldl_cons, same]
      exact ih h

theorem run_append (ws : Socket) (steps more : List Step) :
    ws.run behind tls (steps ++ more) = (ws.run behind tls steps).run behind tls more :=
  List.foldl_append

/-- The event stream of a socket ends with its CLOSE; whatever is received then, by a later call of `handleInput` or
by the one that has enqueued the CLOSE, is not looked at. -/
theorem event_stream_ends_with_close (behind : List UInt8 → Nat → UInt8) (tls : Bool) (ws : Socket)
    (fresh : ws.events = []) (steps : List Step) :
    CloseLast (ws.run behind tls steps).events ∧
    (∀ more, (ws.run behind tls steps).Announced →
      (ws.run behind tls (steps ++ more)).events = (ws.run behind tls steps).events ∧
      (ws.run behind tls (steps ++ more)).streamProcessor = (ws.run behind tls steps).streamProcessor) ∧
    ∀ busy reads more, (ws.run behind tls (steps ++ [.handleInput busy reads])).Announced →
      ws.run behind tls (steps ++ [.handleInput busy (reads ++ more)]) =
        ws.run behind tls (steps ++ [.handleInput busy reads]) := by
  have start : ws.Sound := by
    cases noInput : ws.mNoInput with
    | false => exact .inl ⟨noInput, fun ⟨e, he, _⟩ => by simp [fresh] at he⟩
    | true => exact .inr ⟨noInput, fun before e after heq => by simp [fresh] at heq⟩
  have sound : (ws.run behind tls steps).Sound := start.run steps
  refine ⟨sound.closeLast, ?_, ?_⟩
  · intro more announced
    rw [run_append]
    exact (sound.ended announced).run more
  · intro busy reads more announced
    have one (reads : List (Option (List UInt8))) : ws.run behind tls (steps ++ [.handleInput busy reads]) =
        ((ws.run behind tls steps).handleInput behind tls busy reads).1 := run_append ws steps _
    rw [one] at announced
    rw [one, one, sound.handleInput_append announced]

def connected : Socket := ⟨.messaging, false, fresh 512 1024, some ⟨1, "echo", some "/echo", 1024⟩, []⟩

/-- A masked text "hi", a masked Close without payload and the beginning of a text behind it. -/
def farewell : List (Option (List UInt8)) :=
  [some [0x81, 0x82, 0, 0, 0, 0, 0x68], some [0x69, 0x88, 0x80, 0, 0, 0, 0, 0x81, 0x82]]

theorem event_stream_of_farewell :
    connected.events = [] ∧ (connected.run (fun _ _ => 0) true [.handleInput false farewell]).Announced ∧
    CloseLast (connected.run (fun _ _ => 0) true [.handleInput false farewell]).events ∧
    ((connected.run (fun _ _ => 0) true [.handleInput false farewell]).Announced →
      connected.run (fun _ _ => 0) true [.handleInput false (farewell ++ farewell)] =
        connected.run (fun _ _ => 0) true [.handleInput false farewell]) :=
  have ends := event_stream_ends_with_close (fun _ _ => 0) true connected rfl
  ⟨rfl, ⟨⟨.close, [0x88, 0x02, 0x03, 0xe8]⟩, by decide +kernel, rfl⟩, (ends [.handleInput false farewell]).1,
    (ends []).2.2 false farewell farewell⟩

/-! ### Texts -/

/-- A text is enqueued when it is UTF-8, and otherwise a CLOSE alone; the check stays in the payload. -/
theorem text_reaches_application (behind : List UInt8 → Nat → UInt8) (ws : Socket) (p : List UInt8)
    (served : ws.mApplication.isSome = true) :
    (Utf8.WellFormed p → (ws.onMessage behind ⟨.text, p⟩).1.events = ws.events ++ [⟨.text, p⟩]) ∧
    (¬Utf8.WellFormed p →
      (ws.onMessage behind ⟨.text, p⟩).1.events = ws.events ++ [⟨.close, ServerCloseMessage.ofCode badData⟩]) ∧
    isValidUtf8Checked p p.length = some (isValidUtf8 p p.length) := by
  have valid : isValidUtf8 p p.length = true ↔ Utf8.WellFormed p := by
    rw [isValidUtf8_iff (Nat.le_refl _), List.take_length]
  have app : ¬ws.mApplication.isNone = true := by rw [← Option.not_isSome, served]; decide
  refine ⟨?_, ?_, isValidUtf8Checked_eq (Nat.le_refl _)⟩
  · intro wellFormed
    simp only [onMessage, if_neg app, if_pos (valid.mpr wellFormed), enqueue]
  · intro malformed
    simp only [onMessage, if_neg app, if_neg (mt valid.mp malformed), closeSocket, enqueue]

/-- "é" is enqueued. -/
theorem text_reaches_echo :
    Utf8.WellFormed [0xc3, 0xa9] ∧
    (connected.onMessage (fun _ _ => 0) ⟨.text, [0xc3, 0xa9]⟩).1.events = [⟨.text, [0xc3, 0xa9]⟩] :=
  have encoded : Utf8.WellFormed [0xc3, 0xa9] := ⟨['é'], by decide⟩
  ⟨encoded, (text_reaches_application (fun _ _ => 0) connected [0xc3, 0xa9] rfl).1 encoded⟩

end Socket
end LAppS.WebSocket
