import LAppS.ClientWebSocket.Connect
import LAppS.Shakespeer.Request
import Mathlib.Data.List.DropRight
import LAppS.Shakespeer.Upgrade

/-!
# The handshake of a client with a server

`ClientWebSocket::wsUpgrade` writes the request, `Shakespeer::handshake` answers it, and `responseOK` reads the answer. For a
host in brackets the `Host` header has the address without them: the server reads no colons at the beginning of a value.
-/

namespace LAppS.ClientWebSocket
open Bytes URIView HTTPRequestParser

variable (base64encode : List UInt8 → List UInt8)

/-- The key, from the two numbers of the generator. -/
def secWebSocketKey (rng1 rng2 : UInt64) : List UInt8 := base64encode (leBytes 8 rng1.toNat ++ leBytes 8 rng2.toNat)

def wsUpgrade (c : Opened) (rng1 rng2 : UInt64) : List UInt8 :=
  ascii "GET " ++ c.requestTarget ++ ascii " " ++ ascii "HTTP/1.1\r\n" ++ ascii "Host: " ++ c.hostname ++ ascii "\r\n" ++
    ascii "Upgrade: websocket\r\n" ++ ascii "Connection: Upgrade\r\n" ++ ascii "User-Agent: LAppS/0.7.0\r\n" ++
    ascii "Sec-WebSocket-Key: " ++ secWebSocketKey base64encode rng1 rng2 ++ ascii "\r\n" ++
    (if c.tls then ascii "Origin: https://" else ascii "Origin: http://") ++ c.hostname ++ ascii "\r\n" ++
    ascii "Sec-WebSocket-Version: 13\r\n\r\n"

/-! ### What the constructor has taken from the URI -/

theorem connect_names {tls : Bool} {uri : List UInt8} {c : Opened} {v : URIView} {n : Nat} (h : URIView.parse uri = .ok (v, n))
    (opened : connect tls uri = .ok c) :
    (∀ b ∈ c.hostname, b ∈ v.host.text uri) ∧
      c.requestTarget = if v.path.length = 0 then ascii "/" else v.path.text uri := by
  unfold connect at opened
  rw [h] at opened
  dsimp only at opened
  split at opened
  next valid =>
    split at opened
    · cases opened
    next scheme =>
      split at opened
      next host =>
        cases opened
        refine ⟨fun b hb => ?_, rfl⟩
        dsimp only at hb
        split at hb
        · exact List.mem_of_mem_drop (List.mem_of_mem_take hb)
        · exact hb
      · cases opened
  · cases opened

/-- Neither the host nor the target has a blank, a tab or a line break. -/
structure Plain (c : Opened) : Prop where
  hostname : ∀ b ∈ c.hostname, isNotCrLf b = true
  target : ∀ b ∈ c.requestTarget, isBlankOrTab b = false

set_option maxRecDepth 4096 in
theorem connect_plain {tls : Bool} {uri : List UInt8} {c : Opened} (opened : connect tls uri = .ok c) : Plain c := by
  cases h : URIView.parse uri with
  | error e =>
    rw [connect, h] at opened
    cases opened
  | ok parsed =>
    obtain ⟨v, n⟩ := parsed
    obtain ⟨p, rfl, spelled, viewed, -⟩ := connect_ok h opened
    obtain ⟨hostname, target⟩ := connect_names h opened
    obtain ⟨-, -, host, -, path, length⟩ := Parts.texts viewed
    have other {r : Grammar.Rule} {a : UInt8} (unused : r.uses a = false) {w : List UInt8} (hw : w ∈ r.lang) {b : UInt8} (hb : b ∈ w) :
        b ≠ a := fun same => not_mem_of_uses unused hw (same ▸ hb)
    constructor
    · intro b hb
      have inHost := hostname b hb
      rw [host] at inHost
      have noReturn := other (a := 13) (by decide) spelled.host.mem inHost
      have noFeed := other (a := 10) (by decide) spelled.host.mem inHost
      simp [isNotCrLf, noReturn, noFeed]
    · rw [target, path]
      split
      · decide
      · intro b hb
        have noBlank := other (a := 32) (by decide) spelled.path hb
        have noTab := other (a := 9) (by decide) spelled.path hb
        simp [isBlankOrTab, noBlank, noTab]

/-! ### The lines of the request -/

def hostName : List UInt8 := ascii "Host"

/-- The lines behind that of the host. -/
def requestLines (c : Opened) (key : List UInt8) : List (List UInt8 × List UInt8) :=
  [(ascii "Upgrade", ascii "websocket"), (ascii "Connection", ascii "Upgrade"), (ascii "User-Agent", ascii "LAppS/0.7.0"),
    (ascii "Sec-WebSocket-Key", key), (ascii "Origin", (if c.tls then ascii "https://" else ascii "http://") ++ c.hostname),
    (ascii "Sec-WebSocket-Version", ascii "13")]

theorem wsUpgrade_eq (c : Opened) (rng1 rng2 : UInt64) :
    wsUpgrade base64encode c rng1 rng2 = written c.requestTarget (ascii "HTTP/1.1")
      ((hostName, c.hostname) :: requestLines c (secWebSocketKey base64encode rng1 rng2)) := by
  have names : ascii "Host: " = hostName ++ [58, 32] ∧ ascii "HTTP/1.1\r\n" = ascii "HTTP/1.1" ++ crlf ∧
      ascii "Upgrade: websocket\r\n" = lineOf (ascii "Upgrade", ascii "websocket") ∧
      ascii "Connection: Upgrade\r\n" = lineOf (ascii "Connection", ascii "Upgrade") ∧
      ascii "User-Agent: LAppS/0.7.0\r\n" = lineOf (ascii "User-Agent", ascii "LAppS/0.7.0") ∧
      ascii "Sec-WebSocket-Key: " = ascii "Sec-WebSocket-Key" ++ [58, 32] ∧
      ascii "Sec-WebSocket-Version: 13\r\n\r\n" = lineOf (ascii "Sec-WebSocket-Version", ascii "13") ++ crlf ∧
      ascii "Origin: https://" = ascii "Origin" ++ [58, 32] ++ ascii "https://" ∧
      ascii "Origin: http://" = ascii "Origin" ++ [58, 32] ++ ascii "http://" ∧ ascii "\r\n" = crlf ∧ ascii " " = [32] := by
    decide
  obtain ⟨host, version, upgrade, connection, agent, key, last, https, http, break_, blank⟩ := names
  have origin : (if c.tls then ascii "Origin: https://" else ascii "Origin: http://") =
      ascii "Origin" ++ [58, 32] ++ (if c.tls then ascii "https://" else ascii "http://") := by
    split
    · exact https
    · exact http
  rw [wsUpgrade, origin, host, version, upgrade, connection, agent, key, last, break_, blank]
  simp only [written, linesOf, requestLines, List.flatMap_cons, List.flatMap_nil, lineOf, List.append_assoc, List.cons_append,
    List.nil_append, List.append_nil]

section Request

variable {c : Opened} {key k : List UInt8}

/-- A key as `base64encode` makes it. -/
structure IsKey (key : List UInt8) : Prop where
  nonempty : key ≠ []
  visible : ∀ b ∈ key, isVisible b = true

theorem isKey_secWebSocketKey {base64encode : List UInt8 → List UInt8} (encodes : Encodes base64encode)
    (rng1 rng2 : UInt64) : IsKey (secWebSocketKey base64encode rng1 rng2) := by
  have size : (leBytes 8 rng1.toNat ++ leBytes 8 rng2.toNat).length = 16 := by
    rw [List.length_append, length_leBytes, length_leBytes]
  have short : (leBytes 8 rng1.toNat ++ leBytes 8 rng2.toNat).length ≤ 20 := by rw [size]; decide
  refine ⟨fun empty => ?_, fun b hb => isVisible_of_isBase64 (encodes.characters _ short b hb)⟩
  have length := encodes.length _ short
  rw [size] at length
  change (secWebSocketKey base64encode rng1 rng2).length = 24 at length
  rw [empty] at length
  cases length

set_option maxRecDepth 4096 in
theorem requestLines_plain (plain : Plain c) (hkey : IsKey key) : ∀ line ∈ requestLines c key, HeaderLine line := by
  have name (n : List UInt8) (h : (!n.isEmpty && n.all fun b => isKeyByte b && b != 9) = true) {value : List UInt8}
      (hvalue : ∀ b ∈ value, isNotCrLf b = true) (begins : ∀ b ∈ value.head?, isBlankOrColon b = false) : HeaderLine (n, value) := by
    rw [Bool.and_eq_true, List.all_eq_true, Bool.not_eq_true', List.isEmpty_eq_false_iff] at h
    refine ⟨h.1, fun b hb => ?_, hvalue, begins⟩
    have := h.2 b hb
    rw [Bool.and_eq_true, bne_iff_ne] at this
    exact this
  have keyValue : ∀ b ∈ key, isNotCrLf b = true ∧ isBlankOrColon b = false := by
    intro b hb
    have visible := hkey.visible b hb
    rw [isVisible, Bool.and_eq_true, Bool.not_eq_true'] at visible
    exact visible
  have scheme : (∀ b ∈ (if c.tls then ascii "https://" else ascii "http://"), isNotCrLf b = true) ∧
      (if c.tls then ascii "https://" else ascii "http://").head? = some 104 := by
    split <;> decide
  intro line hline
  simp only [requestLines, List.mem_cons, List.not_mem_nil, or_false] at hline
  rcases hline with rfl | rfl | rfl | rfl | rfl | rfl
  · exact name _ (by decide) (by decide) (by decide)
  · exact name _ (by decide) (by decide) (by decide)
  · exact name _ (by decide) (by decide) (by decide)
  · exact name _ (by decide) (fun b hb => (keyValue b hb).1) fun b hb => (keyValue b (List.mem_of_mem_head? hb)).2
  · refine name _ (by decide) (fun b hb => ?_) fun b hb => ?_
    · exact (List.mem_append.mp hb).elim (scheme.1 b) (plain.hostname b)
    · rw [List.head?_append, scheme.2] at hb
      cases hb
      decide
  · exact name _ (by decide) (by decide) (by decide)

/-- Blanks and colons before a value are not read. -/
theorem collectHeaders_skip {name value tail : List UInt8} {headers : Headers} (hname : ∀ b ∈ name, isKeyByte b = true) :
    collectHeaders (lineOf (name, value) ++ tail) headers =
      collectHeaders (lineOf (name, value.dropWhile isBlankOrColon) ++ tail) headers := by
  have spelled (w : List UInt8) : lineOf (name, w) ++ tail = name ++ 58 :: 32 :: (w ++ 13 :: (10 :: tail)) := by simp [lineOf, crlf]
  have first (w : List UInt8) : (lineOf (name, w) ++ tail).takeWhile isKeyByte = name := by
    rw [spelled, takeWhile_append_stop (by decide) hname]
  have atValue (w : List UInt8) : ((lineOf (name, w) ++ tail).dropWhile isKeyByte).dropWhile isBlankOrColon =
      w.dropWhile isBlankOrColon ++ 13 :: (10 :: tail) := by
    rw [spelled, dropWhile_append_all (by decide) hname, List.dropWhile_cons_of_pos (by decide),
      List.dropWhile_cons_of_pos (by decide), dropWhile_append_stop (by decide)]
  have some_ (w : List UInt8) : lineOf (name, w) ++ tail ≠ [] := by
    rw [spelled]
    simp
  rw [collectHeaders.eq_def, collectHeaders.eq_def (lineOf (name, value.dropWhile isBlankOrColon) ++ tail), dif_pos (some_ _),
    dif_pos (some_ _)]
  simp only [afterHeader, first, atValue, List.dropWhile_idempotent]

set_option maxRecDepth 4096 in
/-- The headers that the server collects. -/
theorem collectHeaders_request (plain : Plain c) (hkey : IsKey key) :
    collectHeaders (linesOf ((hostName, c.hostname) :: requestLines c key) ++ crlf) [] =
      (requestLines c key).foldl addHeader [(hostName, c.hostname.dropWhile isBlankOrColon)] := by
  have hostLine : HeaderLine (hostName, c.hostname.dropWhile isBlankOrColon) := by
    have name : hostName ≠ [] ∧ ∀ b ∈ hostName, isKeyByte b = true ∧ b ≠ 9 := by decide
    refine ⟨name.1, name.2, fun b hb => plain.hostname b ((List.dropWhile_sublist _).mem hb), fun b hb => ?_⟩
    have stops := List.head?_dropWhile_not isBlankOrColon c.hostname
    rw [Option.mem_def.mp hb] at stops
    exact stops
  have all : ∀ line ∈ (hostName, c.hostname.dropWhile isBlankOrColon) :: requestLines c key, HeaderLine line :=
    List.forall_mem_cons.mpr ⟨hostLine, requestLines_plain plain hkey⟩
  rw [linesOf, List.flatMap_cons, List.append_assoc, collectHeaders_skip (by decide)]
  have canonical := collectHeaders_lines all (List.cons_ne_nil _ _) []
  rw [linesOf, List.flatMap_cons, List.append_assoc] at canonical
  rw [canonical, List.foldl_cons]
  rfl

set_option maxRecDepth 4096 in
theorem parts_request (plain : Plain c) (hkey : IsKey key) :
    (Members.parts ((written c.requestTarget (ascii "HTTP/1.1") ((hostName, c.hostname) :: requestLines c key)).drop 4)).requestTarget =
        c.requestTarget ∧
      (Members.parts ((written c.requestTarget (ascii "HTTP/1.1") ((hostName, c.hostname) :: requestLines c key)).drop 4)).mHeaders =
        (requestLines c key).foldl addHeader [(hostName, c.hostname.dropWhile isBlankOrColon)] := by
  -- the first of the headers begins with the letter H
  obtain ⟨more, block⟩ : ∃ more, linesOf ((hostName, c.hostname) :: requestLines c key) ++ crlf = 72 :: more := ⟨_, rfl⟩
  have version : ∀ b ∈ ascii "HTTP/1.1", isVersionByte b = true := by decide
  obtain ⟨target, headersAt⟩ := parts_of_block (b := 72) more plain.target version (by decide) (by decide)
  rw [written_drop, block]
  refine ⟨target, ?_⟩
  rw [Members.parts, headersAt, ← block, collectHeaders_request plain hkey]

/-- The value of the first line of a name that is not that of the host. -/
theorem get_request (other : k ≠ hostName) :
    Headers.get ((requestLines c key).foldl addHeader [(hostName, c.hostname.dropWhile isBlankOrColon)]) k =
      ((requestLines c key).lookup k).getD [] := by
  have none_ : List.lookup k [(hostName, c.hostname.dropWhile isBlankOrColon)] = none := by
    rw [List.lookup_cons, beq_eq_false_iff_ne.mpr other]
    rfl
  rw [Headers.get, lookup_foldl_emplace, none_, Option.none_or]

set_option maxRecDepth 4096 in
theorem isUpgrade_request {toupper : List UInt8 → List UInt8} (capitalizes : Capitalizes toupper) (hkey : IsKey key) :
    Shakespeer.isUpgrade toupper ((requestLines c key).foldl addHeader [(hostName, c.hostname.dropWhile isBlankOrColon)]) = true := by
  have connection : ((requestLines c key).lookup (ascii "Connection")).getD [] = ascii "Upgrade" := rfl
  have upgrade : ((requestLines c key).lookup (ascii "Upgrade")).getD [] = ascii "websocket" := rfl
  have version : ((requestLines c key).lookup (ascii "Sec-WebSocket-Version")).getD [] = ascii "13" := rfl
  have key_ : ((requestLines c key).lookup (ascii "Sec-WebSocket-Key")).getD [] = key := rfl
  rw [Shakespeer.isUpgrade, get_request (by decide), get_request (by decide), get_request (by decide), get_request (by decide),
    connection, upgrade, version, key_, List.isEmpty_eq_false_iff.mpr hkey.nonempty, capitalizes _ (by decide),
    capitalizes _ (by decide)]
  decide

/-- The server accepts the request of a client and finds the target and the key in it. -/
theorem requestOf_request {toupper : List UInt8 → List UInt8} (capitalizes : Capitalizes toupper) (plain : Plain c)
    (hkey : IsKey key) {bytes : List UInt8}
    (hbytes : bytes = written c.requestTarget (ascii "HTTP/1.1") ((hostName, c.hostname) :: requestLines c key))
    (fits : bytes.length ≤ 1024) :
    ∃ request, Shakespeer.requestOf toupper bytes fits = some request ∧ request.requestTarget = c.requestTarget ∧
      request.mHeaders.get (ascii "Sec-WebSocket-Key") = key := by
  obtain ⟨rest, buffer, -⟩ := Shakespeer.headerBuffer_receive Shakespeer.unused bytes fits
  have stored : Stored (Shakespeer.unused.receive bytes fits).headerBuffer bytes :=
    ⟨(Shakespeer.unused.receive bytes fits).size_eq, rest, buffer.symm⟩
  have get : ascii "GET " <+: bytes := by
    rw [hbytes]
    exact get_written _ _ _
  obtain ⟨target, headers⟩ := parts_request plain hkey
  rw [← hbytes] at target headers
  have found : Headers.get (Members.parts (bytes.drop 4)).mHeaders (ascii "Sec-WebSocket-Key") = key := by
    rw [headers, get_request (by decide)]
    rfl
  have some_ : Members.noHeaders (Members.parts (bytes.drop 4)).mHeaders = none := by
    refine Members.noHeaders_eq_none_iff.mpr ⟨ascii "Upgrade", ascii "websocket", ?_⟩
    rw [headers, lookup_foldl_emplace]
    rfl
  let request : Request := ⟨(Members.parts (bytes.drop 4)).requestTarget, (Members.parts (bytes.drop 4)).httpVersion,
    (Members.parts (bytes.drop 4)).mHeaders⟩
  have parsed : HTTPRequestParser.parse (Shakespeer.unused.receive bytes fits).headerBuffer bytes.length = .ok request := by
    rw [← Members.result_parse_new, show Members.new = Members.new.clear from rfl, Members.parse_get _ stored get, some_]
    rfl
  refine ⟨request, ?_, target, found⟩
  rw [Shakespeer.requestOf, Shakespeer.parseHeader, parsed]
  have upgrade : Shakespeer.isUpgrade toupper request.mHeaders = true := by
    change Shakespeer.isUpgrade toupper (Members.parts (bytes.drop 4)).mHeaders = true
    rw [headers, isUpgrade_request capitalizes hkey]
  exact if_pos upgrade

end Request

end LAppS.ClientWebSocket

namespace LAppS.Shakespeer
open ClientWebSocket

/-- A client and a server complete a handshake. Whatever URI the client has accepted, the server accepts its request and goes
on to the service of the target, and the client accepts what the server has sent, with the frames behind it left to read. -/
theorem handshake_completes {toupper base64encode : List UInt8 → List UInt8} (capitalizes : Capitalizes toupper)
    (encodes : Encodes base64encode) (sha1digest : List UInt8 → Digest) (shl32 : Word) (sh : Shakespeer) {tls : Bool}
    {uri : List UInt8} {c : Opened} (opened : connect tls uri = .ok c) (rng1 rng2 : UInt64)
    (fits : (wsUpgrade base64encode c rng1 rng2).length ≤ 1024) {p : Peer}
    (received : p.received = some ⟨wsUpgrade base64encode c rng1 rng2, fits⟩) (sent : 0 < p.sent) {app : Service}
    (registered : Registered p.registry (text c.requestTarget) app) (passes : ¬Filtered shl32 p app)
    {extraHeaders : List (String × String)} {protoAlias : Option String}
    (configured : Configured p.config app.name extraHeaders protoAlias)
    (plain : ∀ line ∈ configuredLines extraHeaders protoAlias, PlainLine line ∧ line.1 ≠ acceptName)
    {ws : WebSocket.Socket} (shaking : ws.mState = .handshake) (cursor : Nat) {frames : List UInt8}
    (first : frames.head?.any isCrLf = false) :
    ∃ response, handshakeWith toupper (acceptOf base64encode sha1digest) shl32 sh p ws =
        ({ ws with mState := .messaging }.setApplication app, response) ∧
      responseOK toupper cursor (response ++ frames)
          (requiredAcceptKey base64encode sha1digest (secWebSocketKey base64encode rng1 rng2)) =
        (true, if frames = [] then 0 else response.length) := by
  obtain ⟨request, accepted, target, key⟩ := requestOf_request capitalizes (connect_plain opened)
    (isKey_secWebSocketKey encodes rng1 rng2) (wsUpgrade_eq base64encode c rng1 rng2) fits
  rw [← target] at registered
  have prepared := prepareOKResponse_lines configured (acceptOf base64encode sha1digest)
    (request.mHeaders.get (ascii "Sec-WebSocket-Key"))
  refine ⟨_, handshakeWith_upgraded shaking received sent accepted registered prepared passes, ?_⟩
  rw [key]
  exact responseOK_of_response (response_of_lines capitalizes (fun line h => (plain line h).1) (fun line h => (plain line h).2)
    (encodes.length_acceptOf ..) (encodes.isVisible_acceptOf _ _)) cursor first

/-- `ws://[::1]/echo`. -/
def loopbackUri : List UInt8 := [119, 115, 58, 47, 47, 91, 58, 58, 49, 93, 47, 101, 99, 104, 111]

def loopback : Opened := ⟨[58, 58, 49], 80, false, ascii "/echo", .upgrade⟩

theorem loopback_opened : connect false loopbackUri = .ok loopback := by
  have parsed : URIView.parse loopbackUri =
      .ok (⟨true, .absolute, ⟨0, 2⟩, .empty, ⟨5, 5⟩, .empty, ⟨10, 5⟩, .empty, .empty⟩, 15) := by decide
  rw [connect, parsed]
  rfl

/-- The nonce of RFC 6455, section 1.3, in two numbers. -/
def sampleNonce : UInt64 × UInt64 := (0x706d617320656874, 0x65636e6f6e20656c)

example : secWebSocketKey base64 sampleNonce.1 sampleNonce.2 = ascii "dGhlIHNhbXBsZSBub25jZQ==" := by decide

/-- The request of the client at the loopback interface. -/
def loopbackRequest : List UInt8 := wsUpgrade base64 loopback sampleNonce.1 sampleNonce.2

set_option maxRecDepth 4096 in
theorem loopback_fits : loopbackRequest.length ≤ 1024 := by decide

theorem handshake_completes_loopback :
    ∃ response, handshakeWith capitals (acceptOf base64 fun _ => sampleDigest) 1 unused
        { peerOf .allow with received := some ⟨loopbackRequest, loopback_fits⟩, config := echoConfig } shakingSocket =
        ({ shakingSocket with mState := .messaging }.setApplication echo, response) ∧
      responseOK capitals 0 (response ++ [138, 0])
          (requiredAcceptKey base64 (fun _ => sampleDigest) (secWebSocketKey base64 sampleNonce.1 sampleNonce.2)) =
        (true, if [138, 0] = ([] : List UInt8) then 0 else response.length) := by
  have registered : Registered (ServiceRegistry.new.reg echo) (text loopback.requestTarget) echo :=
    ⟨"echo", ⟨0, [echo]⟩, by decide, rfl, rfl⟩
  exact handshake_completes (fun _ _ => rfl) encodes_base64 (fun _ => sampleDigest) 1 unused loopback_opened _ _ loopback_fits rfl
    Int.one_pos registered (by decide) configured_echo (by decide) rfl 0 rfl

end LAppS.Shakespeer
