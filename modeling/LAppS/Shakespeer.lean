import LAppS.ClientWebSocket.Handshake
import LAppS.Json
import LAppS.NetworkACL.Match
import LAppS.ServiceRegistry
import Mathlib.Data.List.Infix

/-!
# The handshake of the server

`HTTPRequestParser` reads the upgrade request, and `Shakespeer::handshake` looks for the service of its target and
answers. A `std::string` that is a key of the registry or of the configuration has a character for every byte.
-/

namespace LAppS

namespace HTTPRequestParser
open ClientWebSocket

def isKeyByte (b : UInt8) : Bool := b ≠ 32 && b ≠ 13 && b ≠ 10 && b ≠ 58

def isBlankOrCrLf (b : UInt8) : Bool := b = 32 || b = 13 || b = 10

def isBlankOrTab (b : UInt8) : Bool := b = 32 || b = 9

def afterHeader (rest : List UInt8) : List UInt8 :=
  (((rest.dropWhile isKeyByte).dropWhile isBlankOrColon).dropWhile isNotCrLf).dropWhile isBlankOrCrLf

/-- Every round of the loop reads something. -/
theorem afterHeader_length {rest : List UInt8} (h : rest ≠ []) : (afterHeader rest).length < rest.length := by
  obtain ⟨b, rest, rfl⟩ := List.exists_cons_of_ne_nil h
  rw [afterHeader, List.length_cons, Nat.lt_succ_iff]
  by_cases key : isKeyByte b = true
  · rw [List.dropWhile_cons_of_pos key]
    exact ((length_dropWhile_le ..).trans (length_dropWhile_le ..)).trans
      ((length_dropWhile_le ..).trans (length_dropWhile_le ..))
  · rw [List.dropWhile_cons_of_neg key]
    by_cases blank : isBlankOrColon b = true
    · rw [List.dropWhile_cons_of_pos blank]
      exact (length_dropWhile_le ..).trans ((length_dropWhile_le ..).trans (length_dropWhile_le ..))
    · -- the byte ends a line
      have crlf : ¬isNotCrLf b = true ∧ isBlankOrCrLf b = true := by
        simp_all [isKeyByte, isBlankOrColon, isNotCrLf, isBlankOrCrLf]
        grind
      rw [List.dropWhile_cons_of_neg blank, List.dropWhile_cons_of_neg crlf.1, List.dropWhile_cons_of_pos crlf.2]
      exact length_dropWhile_le ..

def collectHeaders (rest : List UInt8) (headers : Headers) : Headers :=
  if _h : rest ≠ [] then
    let key := rest.takeWhile isKeyByte
    let value := ((rest.dropWhile isKeyByte).dropWhile isBlankOrColon).takeWhile isNotCrLf
    collectHeaders (afterHeader rest) (headers.emplace key value)
  else headers
termination_by rest.length
decreasing_by exact afterHeader_length _h

def mMinSize : Nat := 168

def malformedHTTPRequest (optional : String) : String :=
  "HTTPRequestParser::HTTPRequestParser() - malformed HTTP request: " ++ optional

structure Request where
  requestTarget : List UInt8
  httpVersion : List UInt8
  mHeaders : Headers

/-- The minimal size is that of the buffer. The target begins at the fifth byte, also behind a CRLF. -/
def parse (ref : List UInt8) (bufflen : Nat) : Except String Request :=
  if ref.length < mMinSize then .error (malformedHTTPRequest "")
  else
    let line := if (ascii "\r\n").isPrefixOf ref then ref.drop 2 else ref
    if (ascii "GET").isPrefixOf line then
      if (ascii "GET ").isPrefixOf line then
        let rest := (ref.take bufflen).drop 4
        let requestTarget := rest.takeWhile fun b => !isBlankOrTab b
        let rest := (rest.dropWhile fun b => !isBlankOrTab b).dropWhile isBlankOrTab
        let httpVersion := rest.takeWhile fun b => isNotCrLf b && !isBlankOrTab b
        let rest := (rest.dropWhile fun b => isNotCrLf b && !isBlankOrTab b).dropWhile
          fun b => isCrLf b || isBlankOrTab b
        let mHeaders := collectHeaders rest []
        if mHeaders.isEmpty then .error "HTTPRequestParser::parse() - malformed or unsupported GET Request"
        else .ok ⟨requestTarget, httpVersion, mHeaders⟩
      else .error (malformedHTTPRequest "No space after MODE[GET]")
    else .error (malformedHTTPRequest "Only GET requests are accepted")

end HTTPRequestParser

/-- The buffer keeps the bytes of earlier requests. -/
structure Shakespeer where
  headerBuffer : List UInt8
  size_eq : headerBuffer.length = 1024

namespace Shakespeer
open ClientWebSocket HTTPRequestParser

variable (toupper : List UInt8 → List UInt8)

def unused : Shakespeer := ⟨List.replicate 1024 0, List.length_replicate⟩

/-- The characters of a `std::string`. -/
def text (bs : List UInt8) : String := String.ofList (bs.map fun b => Char.ofNat b.toNat)

/-- The bytes that `recv` gets, with a zero behind them. -/
def receive (sh : Shakespeer) (bytes : List UInt8) (fits : bytes.length ≤ 1024) : Shakespeer where
  headerBuffer := (bytes ++ sh.headerBuffer.drop bytes.length).set bytes.length 0
  size_eq := by
    rw [List.length_set, List.length_append, List.length_drop, sh.size_eq]
    omega

def isUpgrade (headers : Headers) : Bool :=
  decide (ascii "UPGRADE" <:+: toupper (headers.get (ascii "Connection"))) &&
    toupper (headers.get (ascii "Upgrade")) = ascii "WEBSOCKET" &&
    headers.get (ascii "Sec-WebSocket-Version") = ascii "13" &&
    !(headers.get (ascii "Sec-WebSocket-Key")).isEmpty

/-- The request, when it is accepted. -/
def parseHeader (sh : Shakespeer) (bufflen : Nat) : Option Request :=
  match parse sh.headerBuffer bufflen with
  | .ok request => if isUpgrade toupper request.mHeaders then some request else none
  | .error _ => none

def forbidden : List UInt8 := ascii "HTTP/1.1 403 Forbidden"

/-- The lines of the configured headers, for a value that can be iterated with its keys. -/
def headerLines : Json → Except String (List UInt8)
  | .null | .array [] => .ok []
  | .object members => members.foldlM (fun lines m => do
      let value ← m.2.toText
      return lines ++ ascii (m.1 ++ ": " ++ value ++ "\r\n")) []
  | _ => .error "cannot use key() for non-object iterators"

def protocolLine (alias_ : Json) : Except String (List UInt8) := do
  let protoAlias ← alias_.toText
  return ascii ("Sec-WebSocket-Protocol: " ++ protoAlias ++ "\r\n")

/-- The protocol of the service is not sent: only an alias is. -/
def prepareOKResponse (digest : List UInt8 → List UInt8) (config : Json) (appName : String) (key : List UInt8) :
    Except String (List UInt8) := do
  let services ← config.index "services"
  let entry ← services.index appName
  let extraHeaders ← (entry.find "extra_headers").elim (.ok []) headerLines
  let protocol ← (entry.find "proto_alias").elim (.ok []) protocolLine
  return ascii ("HTTP/1.1 101 Switching Protocols\r\nUpgrade: websocket\r\nConnection: Upgrade\r\n" ++
    "Server: LAppS/0.7.0\r\n") ++ extraHeaders ++ protocol ++ ascii "Sec-WebSocket-Accept: " ++
    digest (key ++ ascii "258EAFA5-E914-47DA-95CA-C5AB0DC85B11") ++ ascii "\r\n\r\n"

/-- What the socket, the registry and the configuration contribute to a handshake. -/
structure Peer where
  /-- The bytes that `recv` gets, unless it fails. -/
  received : Option { bytes : List UInt8 // bytes.length ≤ 1024 }
  sent : Int
  peerip : Option Word
  registry : ServiceRegistry
  config : Json
  acl : Service → NetworkACL

/-- What is sent to the peer, and the application of a socket that goes on. Without one the socket is closed. -/
structure Answer where
  sends : List (List UInt8)
  application : Option Service

/-- The exceptions of `findByTarget` and of the configuration leave the function. -/
def handshake (digest : List UInt8 → List UInt8) (shl32 : Word) (sh : Shakespeer) (p : Peer) : Except String Answer :=
  match p.received with
  | none => .ok ⟨[], none⟩
  | some ⟨bytes, fits⟩ =>
    match (sh.receive bytes fits).parseHeader toupper bytes.length with
    | none => .ok ⟨[forbidden], none⟩
    | some request => do
      let (app, _) ← p.registry.findByTarget (text request.requestTarget)
      let response ← prepareOKResponse digest p.config app.name (request.mHeaders.get (ascii "Sec-WebSocket-Key"))
      if 0 < p.sent then
        if p.peerip.any ((p.acl app).filterIP shl32) then return ⟨[response, forbidden], none⟩
        else return ⟨[response], some app⟩
      else return ⟨[response], none⟩

/-! ### What a request is -/

/-- The request that these bytes are, when they are accepted. -/
def requestOf (bytes : List UInt8) (fits : bytes.length ≤ 1024) : Option Request :=
  (unused.receive bytes fits).parseHeader toupper bytes.length

theorem headerBuffer_receive (sh : Shakespeer) (bytes : List UInt8) (fits : bytes.length ≤ 1024) :
    ∃ rest, (sh.receive bytes fits).headerBuffer = bytes ++ rest ∧ ∀ b ∈ rest.head?, b = 0 := by
  refine ⟨(sh.headerBuffer.drop bytes.length).set 0 0, ?_, ?_⟩
  · show (bytes ++ sh.headerBuffer.drop bytes.length).set bytes.length 0 = _
    rw [List.set_append_right _ _ (Nat.le_refl _), Nat.sub_self]
  · cases sh.headerBuffer.drop bytes.length <;> simp

/-- Bytes that are not zero are found in what was received. -/
theorem prefix_receive {s : Shakespeer} {bytes p : List UInt8} {f : bytes.length ≤ 1024} (nonzero : 0 ∉ p) :
    p <+: (s.receive bytes f).headerBuffer ↔ p <+: bytes := by
  obtain ⟨rest, eq, zero⟩ := headerBuffer_receive s bytes f
  rw [eq]
  constructor
  · intro h
    rcases List.prefix_or_prefix_of_prefix h (List.prefix_append bytes rest) with inside | ⟨q, rfl⟩
    · exact inside
    · obtain ⟨t, ht⟩ := (List.prefix_append_right_inj bytes).mp h
      cases q with
      | nil => exact ⟨[], by simp⟩
      | cons b q =>
        rw [← ht] at zero
        have : b = 0 := zero b rfl
        simp [this] at nonzero
  · intro h
    exact h.trans (List.prefix_append bytes rest)

theorem drop_prefix_iff {q p l : List UInt8} (h : q <+: l) : p <+: l.drop q.length ↔ q ++ p <+: l := by
  obtain ⟨t, rfl⟩ := h
  rw [List.drop_left, List.prefix_append_right_inj]

theorem line_receive {sh : Shakespeer} {bytes p : List UInt8} {fits : bytes.length ≤ 1024} (nonzero : 0 ∉ p) :
    p.isPrefixOf (if (ascii "\r\n").isPrefixOf (sh.receive bytes fits).headerBuffer then
      (sh.receive bytes fits).headerBuffer.drop 2 else (sh.receive bytes fits).headerBuffer) =
    if ascii "\r\n" <+: bytes then decide (ascii "\r\n" ++ p <+: bytes) else decide (p <+: bytes) := by
  have nonzero' : 0 ∉ ascii "\r\n" := by decide
  rw [Bool.eq_iff_iff, List.isPrefixOf_iff_prefix]
  by_cases crlf : ascii "\r\n" <+: bytes
  · have crlf' := (prefix_receive (s := sh) (f := fits) nonzero').mpr crlf
    rw [if_pos (List.isPrefixOf_iff_prefix.mpr crlf'), if_pos crlf, decide_eq_true_iff]
    exact (drop_prefix_iff crlf').trans (prefix_receive (by simp [nonzero, nonzero']))
  · have none : ¬(ascii "\r\n").isPrefixOf (sh.receive bytes fits).headerBuffer = true :=
      fun h => crlf ((prefix_receive nonzero').mp (List.isPrefixOf_iff_prefix.mp h))
    rw [if_neg none, if_neg crlf, decide_eq_true_iff]
    exact prefix_receive nonzero

theorem take_receive (sh : Shakespeer) (bytes : List UInt8) (fits : bytes.length ≤ 1024) :
    (sh.receive bytes fits).headerBuffer.take bytes.length = bytes := by
  obtain ⟨rest, eq, _⟩ := headerBuffer_receive sh bytes fits
  rw [eq, List.take_left]

/-- What an earlier peer has left in the buffer plays no part. -/
theorem parse_receive (sh sh' : Shakespeer) (bytes : List UInt8) (fits : bytes.length ≤ 1024) :
    parse (sh.receive bytes fits).headerBuffer bytes.length = parse (sh'.receive bytes fits).headerBuffer bytes.length := by
  have get : 0 ∉ ascii "GET" := by decide
  have space : 0 ∉ ascii "GET " := by decide
  simp only [parse, (sh.receive bytes fits).size_eq, (sh'.receive bytes fits).size_eq, line_receive get,
    line_receive space, take_receive]

theorem parseHeader_receive (sh : Shakespeer) (bytes : List UInt8) (fits : bytes.length ≤ 1024) :
    (sh.receive bytes fits).parseHeader toupper bytes.length = requestOf toupper bytes fits := by
  rw [requestOf, parseHeader, parse_receive sh unused bytes fits]
  rfl

/-! ### When a request is answered -/

/-- The instance that is next for the target. -/
def Registered (r : ServiceRegistry) (target : String) (app : Service) : Prop :=
  ∃ name holder, r.mTargets2Names.lookup target = some name ∧ r.mServices.lookup name = some holder ∧
    holder.mInstances[if holder.current + 1 < holder.mInstances.length then holder.current + 1 else 0]? = some app

theorem findByTarget_ok_iff {r : ServiceRegistry} {target : String} {app : Service} :
    (∃ r', r.findByTarget target = .ok (app, r')) ↔ Registered r target app := by
  constructor
  · rintro ⟨r', h⟩
    unfold ServiceRegistry.findByTarget at h
    split at h
    next name named =>
      split at h
      next holder found =>
        obtain ⟨⟨s, holder'⟩, next, result⟩ := Json.bind_ok h
        unfold ServicesInstanceHolder.next at next
        dsimp only at next
        split at next
        next s' here =>
          cases next
          cases result
          exact ⟨name, holder, named, found, here⟩
        · cases next
      · cases h
    · cases h
  · rintro ⟨name, holder, named, found, here⟩
    simp only [ServiceRegistry.findByTarget, named, found, ServicesInstanceHolder.next, here]
    exact ⟨_, rfl⟩

/-- Headers as they are configured: texts by their names, or none. -/
def HeaderTable (v : Json) : Prop :=
  v = .null ∨ v = .array [] ∨ ∃ members, v = .object members ∧ ∀ m ∈ members, ∃ value, m.2 = .string value

theorem toText_ok_iff {v : Json} : (∃ s, v.toText = .ok s) ↔ ∃ s, v = .string s := by
  cases v <;> simp [Json.toText]

theorem foldlM_lines_ok_iff {members : List (String × Json)} {before : List UInt8} :
    (∃ lines, members.foldlM (fun lines m => do
      let value ← m.2.toText
      return lines ++ ascii (m.1 ++ ": " ++ value ++ "\r\n")) before = Except.ok lines) ↔
    ∀ m ∈ members, ∃ value, m.2 = .string value := by
  induction members generalizing before with
  | nil => exact iff_of_true ⟨before, rfl⟩ (by simp)
  | cons m members ih =>
    rw [List.forall_mem_cons, ← toText_ok_iff]
    constructor
    · rintro ⟨lines, h⟩
      obtain ⟨next, line, rest⟩ := Json.bind_ok h
      obtain ⟨value, htext, _⟩ := Json.bind_ok line
      exact ⟨⟨value, htext⟩, ih.mp ⟨lines, rest⟩⟩
    · rintro ⟨⟨value, htext⟩, texts⟩
      obtain ⟨lines, rest⟩ := ih.mpr texts
      exact ⟨lines, by rw [List.foldlM_cons, htext]; exact rest⟩

theorem headerLines_ok_iff {v : Json} : (∃ lines, headerLines v = .ok lines) ↔ HeaderTable v := by
  cases v with
  | object members =>
    rw [headerLines, foldlM_lines_ok_iff]
    simp [HeaderTable]
  | array elements => cases elements <;> simp [headerLines, HeaderTable]
  | _ => simp [headerLines, HeaderTable]

theorem protocolLine_ok_iff {v : Json} : (∃ line, protocolLine v = .ok line) ↔ ∃ s, v = .string s := by
  rw [← toText_ok_iff]
  constructor
  · rintro ⟨line, h⟩
    obtain ⟨s, htext, _⟩ := Json.bind_ok h
    exact ⟨s, htext⟩
  · rintro ⟨s, htext⟩
    exact ⟨_, by rw [protocolLine, htext]; rfl⟩

theorem elim_ok_iff {o : Option Json} {f : Json → Except String (List UInt8)} :
    (∃ r, o.elim (.ok []) f = .ok r) ↔ ∀ v, o = some v → ∃ r, f v = .ok r := by
  cases o <;> simp

structure WellTyped (config : Json) (appName : String) : Prop where
  entry : ∃ services entry, config.index "services" = .ok services ∧ services.index appName = .ok entry ∧
    (∀ v, entry.find "extra_headers" = some v → HeaderTable v) ∧
    ∀ v, entry.find "proto_alias" = some v → ∃ s, v = .string s

theorem prepareOKResponse_ok_iff (digest : List UInt8 → List UInt8) {config : Json} {appName : String}
    (key : List UInt8) : (∃ response, prepareOKResponse digest config appName key = .ok response) ↔
      WellTyped config appName := by
  constructor
  · rintro ⟨response, h⟩
    obtain ⟨services, hservices, h⟩ := Json.bind_ok h
    obtain ⟨entry, hentry, h⟩ := Json.bind_ok h
    obtain ⟨extraHeaders, hextraHeaders, h⟩ := Json.bind_ok h
    obtain ⟨protocol, hprotocol, _⟩ := Json.bind_ok h
    refine ⟨services, entry, hservices, hentry, fun v found => ?_, fun v found => ?_⟩
    · exact headerLines_ok_iff.mp (elim_ok_iff.mp ⟨_, hextraHeaders⟩ v found)
    · exact protocolLine_ok_iff.mp (elim_ok_iff.mp ⟨_, hprotocol⟩ v found)
  · rintro ⟨services, entry, hservices, hentry, headers, alias_⟩
    obtain ⟨extraHeaders, hextraHeaders⟩ := elim_ok_iff.mpr fun v found => headerLines_ok_iff.mpr (headers v found)
    obtain ⟨protocol, hprotocol⟩ := elim_ok_iff.mpr fun v found => protocolLine_ok_iff.mpr (alias_ v found)
    simp only [prepareOKResponse, hservices, hentry, hextraHeaders, hprotocol, bind, Except.bind]
    exact ⟨_, rfl⟩

/-- A request that is accepted is for a registered target, and the service has a well-typed configuration. -/
def Answerable (p : Peer) : Prop :=
  ∀ bytes request, p.received = some bytes → requestOf toupper bytes.1 bytes.2 = some request →
    ∃ app, Registered p.registry (text request.requestTarget) app ∧ WellTyped p.config app.name

theorem handshake_ok_iff (digest : List UInt8 → List UInt8) (shl32 : Word) (sh : Shakespeer) {p : Peer} :
    (∃ answer, handshake toupper digest shl32 sh p = .ok answer) ↔ Answerable toupper p := by
  unfold handshake
  split
  next received => simp [Answerable, received]
  next bytes fits received =>
    rw [parseHeader_receive]
    split
    next refused =>
      refine iff_of_true ⟨_, rfl⟩ ?_
      intro bytes' request received' accepted
      obtain rfl := Option.some.inj (received.symm.trans received')
      rw [refused] at accepted
      cases accepted
    next request accepted =>
      constructor
      · rintro ⟨answer, h⟩ bytes' request' received' accepted'
        obtain rfl := Option.some.inj (received.symm.trans received')
        obtain rfl := Option.some.inj (accepted.symm.trans accepted')
        obtain ⟨⟨app, r'⟩, found, h⟩ := Json.bind_ok h
        obtain ⟨response, prepared, _⟩ := Json.bind_ok h
        exact ⟨app, findByTarget_ok_iff.mp ⟨r', found⟩, (prepareOKResponse_ok_iff digest _).mp ⟨response, prepared⟩⟩
      · intro answerable
        obtain ⟨app, registered, wellTyped⟩ := answerable _ _ received accepted
        obtain ⟨r', found⟩ := findByTarget_ok_iff.mpr registered
        obtain ⟨response, prepared⟩ :=
          (prepareOKResponse_ok_iff digest (request.mHeaders.get (ascii "Sec-WebSocket-Key"))).mpr wellTyped
        rw [found]
        simp only [bind, Except.bind, prepared]
        split
        · split
          · exact ⟨_, rfl⟩
          · exact ⟨_, rfl⟩
        · exact ⟨_, rfl⟩

/-- The request of RFC 6455, section 1.3, for a target. -/
def upgradeRequest (target : List UInt8) : List UInt8 :=
  ascii "GET " ++ target ++ ascii " HTTP/1.1\r\nHost: server.example.com\r\n" ++
    ascii "Upgrade: websocket\r\nConnection: Upgrade\r\nSec-WebSocket-Key: dGhlIHNhbXBsZSBub25jZQ==\r\n" ++
    ascii "Sec-WebSocket-Version: 13\r\n\r\n"

theorem upgradeRequest_fits : (upgradeRequest (ascii "/echo")).length ≤ 1024 := by
  decide +kernel

def asksForEcho : { bytes : List UInt8 // bytes.length ≤ 1024 } := ⟨upgradeRequest (ascii "/echo"), upgradeRequest_fits⟩

theorem requestOf_echo : (requestOf capitals asksForEcho.1 asksForEcho.2).map (text ·.requestTarget) = some "/echo" := by
  decide +kernel

end Shakespeer
end LAppS
