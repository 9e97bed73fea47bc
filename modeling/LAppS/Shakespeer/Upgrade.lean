import LAppS.Shakespeer
import LAppS.WebSocket.Input

/-!
# What an upgrade leaves on the wire and in the socket

The 101 response is sent before the ACL of the service is asked, so that a peer that the ACL filters gets both responses;
a target without a service ends the handshake with an exception, and the peer gets none.
-/

namespace LAppS

namespace WebSocket

/-- The place of a state in their order. -/
def State.rank : State → Nat
  | .accept => 0
  | .handshake => 1
  | .messaging => 2
  | .closed => 3

namespace Socket

def setState (ws : Socket) (state : State) : Except String Socket :=
  if ws.mState.rank ≤ state.rank then .ok { ws with mState := state }
  else .error "Connection::setState(), - new state is out of order"

def setApplication (ws : Socket) (app : Service) : Socket :=
  { ws with mApplication := some app, streamProcessor := ws.streamProcessor.setMaxMSGSize app.maxMSGSize }

def close (ws : Socket) : Socket := { ws with mState := .closed }

end Socket
end WebSocket

namespace Shakespeer
open HTTPRequestParser
open ClientWebSocket (ascii capitals)
open WebSocket (Socket)

variable (toupper : List UInt8 → List UInt8)

/-- The socket after `handshake`, and the bytes that were written to it. An exception of `setState` closes the socket, one
of the lookup or of the configuration leaves `handshake` before anything is written. -/
def handshakeWith (digest : List UInt8 → List UInt8) (shl32 : Word) (sh : Shakespeer) (p : Peer) (ws : Socket) :
    Socket × List UInt8 :=
  match handshake toupper digest shl32 sh p with
  | .error _ => (ws, [])
  | .ok ⟨sends, none⟩ => (ws.close, sends.flatten)
  | .ok ⟨sends, some app⟩ =>
    match ws.setState .messaging with
    | .ok ws => (ws.setApplication app, sends.flatten)
    | .error _ => (ws.close, sends.flatten)

/-! ### The intended outcome -/

def Filtered (shl32 : Word) (p : Peer) (app : Service) : Prop := p.peerip.any ((p.acl app).filterIP shl32) = true

instance (shl32 : Word) (p : Peer) (app : Service) : Decidable (Filtered shl32 p app) :=
  inferInstanceAs (Decidable (_ = true))

/-- The request is not an upgrade, or there is no service for its target, or the service filters the peer. -/
inductive Rejected (shl32 : Word) (p : Peer) (bytes : { bytes : List UInt8 // bytes.length ≤ 1024 }) : Prop where
  | request (refused : requestOf toupper bytes.1 bytes.2 = none)
  | target {request : Request} (accepted : requestOf toupper bytes.1 bytes.2 = some request)
      (unknown : ∀ app, ¬Registered p.registry (text request.requestTarget) app)
  | peer {request : Request} {app : Service} (accepted : requestOf toupper bytes.1 bytes.2 = some request)
      (registered : Registered p.registry (text request.requestTarget) app) (filtered : Filtered shl32 p app)

/-- The 101 response and a socket that serves the application. -/
structure Upgraded (digest : List UInt8 → List UInt8) (p : Peer) (bytes : { bytes : List UInt8 // bytes.length ≤ 1024 })
    (ws : Socket) (written : List UInt8) (request : Request) (app : Service) : Prop where
  accepted : requestOf toupper bytes.1 bytes.2 = some request
  registered : Registered p.registry (text request.requestTarget) app
  response : prepareOKResponse digest p.config app.name (request.mHeaders.get (ascii "Sec-WebSocket-Key")) = .ok written
  messaging : ws.mState = .messaging
  application : ws.mApplication = some app
  limit : ws.streamProcessor.mMaxMSGSize = app.maxMSGSize

/-- The peer is told what has become of the socket. -/
structure Announced (digest : List UInt8 → List UInt8) (shl32 : Word) (p : Peer)
    (bytes : { bytes : List UInt8 // bytes.length ≤ 1024 }) (outcome : Socket × List UInt8) : Prop where
  rejected : Rejected toupper shl32 p bytes → outcome.2 = forbidden ∧ outcome.1.mState = .closed
  upgraded : ¬Rejected toupper shl32 p bytes → ∃ request app, Upgraded toupper digest p bytes outcome.1 outcome.2 request app

/-- An upgrade request is for a service that has a well-typed configuration and does not filter the peer. -/
structure Admissible (shl32 : Word) (p : Peer) (bytes : { bytes : List UInt8 // bytes.length ≤ 1024 }) : Prop where
  served : ∀ request, requestOf toupper bytes.1 bytes.2 = some request →
    ∃ app, Registered p.registry (text request.requestTarget) app ∧ WellTyped p.config app.name ∧ ¬Filtered shl32 p app

/-! ### The outcome case by case -/

theorem registered_unique {r : ServiceRegistry} {target : String} {app app' : Service} (h : Registered r target app)
    (h' : Registered r target app') : app = app' := by
  obtain ⟨name, holder, named, found, here⟩ := h
  obtain ⟨name', holder', named', found', here'⟩ := h'
  obtain rfl := Option.some.inj (named.symm.trans named')
  obtain rfl := Option.some.inj (found.symm.trans found')
  exact Option.some.inj (here.symm.trans here')

theorem response_ne_nil {digest : List UInt8 → List UInt8} {config : Json} {appName : String}
    {key response : List UInt8} (h : prepareOKResponse digest config appName key = .ok response) : response ≠ [] := by
  obtain ⟨services, _, h⟩ := Json.bind_ok h
  obtain ⟨entry, _, h⟩ := Json.bind_ok h
  obtain ⟨extraHeaders, _, h⟩ := Json.bind_ok h
  obtain ⟨protocol, _, h⟩ := Json.bind_ok h
  cases h
  simp [ascii]

section Outcome

variable {toupper} {digest : List UInt8 → List UInt8} {shl32 : Word} {sh : Shakespeer} {p : Peer} {ws : Socket}
  {bytes : { bytes : List UInt8 // bytes.length ≤ 1024 }} {request : Request} {app : Service} {response : List UInt8}

theorem handshakeWith_refused (received : p.received = some bytes) (refused : requestOf toupper bytes.1 bytes.2 = none) :
    handshakeWith toupper digest shl32 sh p ws = (ws.close, forbidden) := by
  have answer : handshake toupper digest shl32 sh p = .ok ⟨[forbidden], none⟩ := by
    simp only [handshake, received, parseHeader_receive, refused]
  simp only [handshakeWith, answer, List.flatten_singleton]

/-- Both responses are written. -/
theorem handshakeWith_filtered (received : p.received = some bytes) (sent : 0 < p.sent)
    (accepted : requestOf toupper bytes.1 bytes.2 = some request)
    (registered : Registered p.registry (text request.requestTarget) app)
    (prepared : prepareOKResponse digest p.config app.name (request.mHeaders.get (ascii "Sec-WebSocket-Key")) =
      .ok response) (filtered : Filtered shl32 p app) :
    handshakeWith toupper digest shl32 sh p ws = (ws.close, response ++ forbidden) := by
  obtain ⟨r', found⟩ := findByTarget_ok_iff.mpr registered
  have answer : handshake toupper digest shl32 sh p = .ok ⟨[response, forbidden], none⟩ := by
    simp only [handshake, received, parseHeader_receive, accepted, found, prepared, bind, Except.bind, if_pos sent,
      if_pos (show p.peerip.any ((p.acl app).filterIP shl32) = true from filtered)]
    rfl
  simp only [handshakeWith, answer]
  simp

theorem handshakeWith_upgraded (shaking : ws.mState = .handshake) (received : p.received = some bytes)
    (sent : 0 < p.sent) (accepted : requestOf toupper bytes.1 bytes.2 = some request)
    (registered : Registered p.registry (text request.requestTarget) app)
    (prepared : prepareOKResponse digest p.config app.name (request.mHeaders.get (ascii "Sec-WebSocket-Key")) =
      .ok response) (passes : ¬Filtered shl32 p app) :
    handshakeWith toupper digest shl32 sh p ws = ({ ws with mState := .messaging }.setApplication app, response) := by
  obtain ⟨r', found⟩ := findByTarget_ok_iff.mpr registered
  have answer : handshake toupper digest shl32 sh p = .ok ⟨[response], some app⟩ := by
    simp only [handshake, received, parseHeader_receive, accepted, found, prepared, bind, Except.bind, if_pos sent,
      if_neg (show ¬p.peerip.any ((p.acl app).filterIP shl32) = true from passes)]
    rfl
  have next : ws.setState .messaging = .ok { ws with mState := .messaging } := by
    rw [Socket.setState, if_pos (by rw [shaking]; decide)]
  simp only [handshakeWith, answer, next, List.flatten_singleton]

/-- Without a service or a well-typed configuration nothing is written, and the socket stays as it is. -/
theorem handshakeWith_throws (throws : ¬Answerable toupper p) : handshakeWith toupper digest shl32 sh p ws = (ws, []) := by
  rw [← handshake_ok_iff toupper digest shl32 sh] at throws
  unfold handshakeWith
  cases answer : handshake toupper digest shl32 sh p with
  | error e => rfl
  | ok a => exact absurd ⟨a, answer⟩ throws

theorem answerable_of_received (received : p.received = some bytes) :
    Answerable toupper p ↔ ∀ request, requestOf toupper bytes.1 bytes.2 = some request →
      ∃ app, Registered p.registry (text request.requestTarget) app ∧ WellTyped p.config app.name := by
  constructor
  · intro h request accepted
    exact h bytes request received accepted
  · intro h bytes' request received' accepted
    obtain rfl := Option.some.inj (received.symm.trans received')
    exact h request accepted

theorem rejected_iff (accepted : requestOf toupper bytes.1 bytes.2 = some request)
    (registered : Registered p.registry (text request.requestTarget) app) :
    Rejected toupper shl32 p bytes ↔ Filtered shl32 p app := by
  constructor
  · intro h
    cases h with
    | request refused => cases accepted.symm.trans refused
    | target accepted' unknown =>
      obtain rfl := Option.some.inj (accepted.symm.trans accepted')
      exact absurd registered (unknown app)
    | peer accepted' registered' filtered =>
      obtain rfl := Option.some.inj (accepted.symm.trans accepted')
      rwa [registered_unique registered registered']
  · intro filtered
    exact .peer accepted registered filtered

/-- The peer is told what has become of the socket exactly when the request is admissible or no upgrade at all. -/
theorem announced_iff_admissible (toupper : List UInt8 → List UInt8) (digest : List UInt8 → List UInt8) (shl32 : Word) (sh : Shakespeer)
    (shaking : ws.mState = .handshake) (received : p.received = some bytes) (sent : 0 < p.sent) :
    Announced toupper digest shl32 p bytes (handshakeWith toupper digest shl32 sh p ws) ↔ Admissible toupper shl32 p bytes := by
  cases accepted : requestOf toupper bytes.1 bytes.2 with
  | none =>
    rw [handshakeWith_refused received accepted]
    refine iff_of_true ⟨fun _ => ⟨rfl, rfl⟩, fun h => absurd (.request accepted) h⟩ ⟨?_⟩
    intro request accepted'
    cases accepted.symm.trans accepted'
  | some request =>
    by_cases answerable : Answerable toupper p
    · obtain ⟨app, registered, wellTyped⟩ := answerable bytes request received accepted
      obtain ⟨response, prepared⟩ :=
        (prepareOKResponse_ok_iff digest (request.mHeaders.get (ascii "Sec-WebSocket-Key"))).mpr wellTyped
      have rejected : Rejected toupper shl32 p bytes ↔ Filtered shl32 p app := rejected_iff accepted registered
      by_cases filtered : Filtered shl32 p app
      · rw [handshakeWith_filtered received sent accepted registered prepared filtered]
        refine iff_of_false ?_ ?_
        · intro announced
          obtain ⟨only, _⟩ := announced.rejected (rejected.mpr filtered)
          exact response_ne_nil prepared (List.append_left_eq_self.mp only)
        · intro admissible
          obtain ⟨app', registered', _, passes⟩ := admissible.served request accepted
          rw [registered_unique registered' registered] at passes
          exact passes filtered
      · rw [handshakeWith_upgraded shaking received sent accepted registered prepared filtered]
        refine iff_of_true ⟨fun h => absurd (rejected.mp h) filtered, fun _ => ?_⟩ ⟨?_⟩
        · exact ⟨request, app, accepted, registered, prepared, rfl, rfl, rfl⟩
        · intro request' accepted'
          obtain rfl := Option.some.inj (accepted.symm.trans accepted')
          exact ⟨app, registered, wellTyped, filtered⟩
    · rw [handshakeWith_throws answerable]
      refine iff_of_false ?_ ?_
      · intro announced
        by_cases rejected : Rejected toupper shl32 p bytes
        · cases (announced.rejected rejected).1
        · obtain ⟨_, _, upgraded⟩ := announced.upgraded rejected
          cases shaking.symm.trans upgraded.messaging
      · intro admissible
        refine answerable ((answerable_of_received received).mpr fun request' accepted' => ?_)
        obtain ⟨app, registered, wellTyped, _⟩ := admissible.served request' accepted'
        exact ⟨app, registered, wellTyped⟩

end Outcome

/-! ### A peer that asks for a service -/

def echo : Service := ⟨0, "echo", some "/echo", 65536⟩

/-- A peer at 127.0.0.1 that asks for the service, with a policy for it. -/
def peerOf (policy : NetworkACLPolicy) : Peer where
  received := some asksForEcho
  sent := 1
  peerip := some 16777343
  registry := ServiceRegistry.new.reg echo
  config := .null
  acl := fun _ => NetworkACL.new policy

def shakingSocket : Socket := ⟨.handshake, false, StreamProcessing.Parser.new 512, none, []⟩

theorem accepted_echo : ∃ request, requestOf capitals asksForEcho.1 asksForEcho.2 = some request ∧
    Registered (ServiceRegistry.new.reg echo) (text request.requestTarget) echo := by
  obtain ⟨request, accepted, target⟩ := Option.map_eq_some_iff.mp requestOf_echo
  refine ⟨request, accepted, ?_⟩
  rw [target]
  exact ⟨"echo", ⟨0, [echo]⟩, rfl, rfl, rfl⟩

theorem wellTyped_null (appName : String) : WellTyped .null appName :=
  ⟨.null, .null, rfl, rfl, by simp [Json.find], by simp [Json.find]⟩

theorem announced_to_echo_peer : Announced capitals (fun _ => []) 1 (peerOf .allow) asksForEcho
    (handshakeWith capitals (fun _ => []) 1 unused (peerOf .allow) shakingSocket) := by
  refine (announced_iff_admissible capitals (fun _ => []) 1 unused rfl rfl Int.one_pos).mpr ⟨fun request' accepted' => ?_⟩
  obtain ⟨request, accepted, registered⟩ := accepted_echo
  obtain rfl := Option.some.inj (accepted.symm.trans accepted')
  exact ⟨echo, registered, wellTyped_null _, by decide⟩

/-- The peer gets the 101 response and then the 403 response. -/
theorem upgrade_announced_counterexample : ¬Announced capitals (fun _ => []) 1 (peerOf .deny) asksForEcho
    (handshakeWith capitals (fun _ => []) 1 unused (peerOf .deny) shakingSocket) := by
  obtain ⟨request, accepted, registered⟩ := accepted_echo
  obtain ⟨response, prepared⟩ := (prepareOKResponse_ok_iff (fun _ => [])
    (request.mHeaders.get (ascii "Sec-WebSocket-Key"))).mpr (wellTyped_null echo.name)
  have filtered : Filtered 1 (peerOf .deny) echo := by decide
  rw [handshakeWith_filtered (p := peerOf .deny) rfl Int.one_pos accepted registered prepared filtered]
  intro announced
  obtain ⟨only, _⟩ := announced.rejected (.peer accepted registered filtered)
  exact response_ne_nil prepared (List.append_left_eq_self.mp only)

end Shakespeer
end LAppS
