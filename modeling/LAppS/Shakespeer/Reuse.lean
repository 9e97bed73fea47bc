import LAppS.Shakespeer

/-!
# A parser for all handshakes

A worker has one `Shakespeer`, with one `headerBuffer` and one `HTTPRequestParser`. Both keep what an earlier handshake
has left in them, also one that ended with an exception in the middle of `parse`.
-/

namespace LAppS

namespace HTTPRequestParser
open ClientWebSocket

/-- The members of the parser. -/
structure Members where
  httpVersion : List UInt8
  requestTarget : List UInt8
  mMinSize : Nat
  mHeaders : Headers

namespace Members

def new : Members := ⟨[], [], HTTPRequestParser.mMinSize, []⟩

def clear (m : Members) : Members :=
  { m with mHeaders := [], requestTarget := [], httpVersion := [], mMinSize := HTTPRequestParser.mMinSize }

/-- `parse` adds to the members; what it has added stays when it throws. -/
def parse (m : Members) (ref : List UInt8) (bufflen : Nat) : Members × Option String :=
  if ref.length < m.mMinSize then (m, some (malformedHTTPRequest ""))
  else
    let line := if (ascii "\r\n").isPrefixOf ref then ref.drop 2 else ref
    if (ascii "GET").isPrefixOf line then
      if (ascii "GET ").isPrefixOf line then
        let rest := (ref.take bufflen).drop 4
        let m := { m with requestTarget := m.requestTarget ++ rest.takeWhile fun b => !isBlankOrTab b }
        let rest := (rest.dropWhile fun b => !isBlankOrTab b).dropWhile isBlankOrTab
        let m := { m with httpVersion := m.httpVersion ++ rest.takeWhile fun b => isNotCrLf b && !isBlankOrTab b }
        let rest := (rest.dropWhile fun b => isNotCrLf b && !isBlankOrTab b).dropWhile
          fun b => isCrLf b || isBlankOrTab b
        let m := { m with mHeaders := collectHeaders rest m.mHeaders }
        if m.mHeaders.isEmpty then (m, some "HTTPRequestParser::parse() - malformed or unsupported GET Request")
        else (m, none)
      else (m, some (malformedHTTPRequest "No space after MODE[GET]"))
    else (m, some (malformedHTTPRequest "Only GET requests are accepted"))

/-- `operator[]`. -/
def get (m : Members) (key : List UInt8) : List UInt8 := m.mHeaders.get key

def getRequestTarget (m : Members) : List UInt8 := m.requestTarget

/-- What `parse` has left, as the request. -/
def result : Members × Option String → Except String Request
  | (m, none) => .ok ⟨m.requestTarget, m.httpVersion, m.mHeaders⟩
  | (_, some e) => .error e

theorem result_parse_new (ref : List UInt8) (bufflen : Nat) :
    result (new.parse ref bufflen) = HTTPRequestParser.parse ref bufflen := by
  unfold Members.parse HTTPRequestParser.parse new
  dsimp only [List.nil_append]
  split_ifs
  all_goals rfl

end Members
end HTTPRequestParser

namespace Shakespeer
open ClientWebSocket HTTPRequestParser

variable (toupper : List UInt8 → List UInt8)

/-- The object of a worker, with the parser that it uses again and again. -/
structure Reused extends Shakespeer where
  mHTTPRParser : Members

/-- What `recv` gets for a handshake, unless it fails. -/
abbrev Received := Option { bytes : List UInt8 // bytes.length ≤ 1024 }

namespace Reused

def new : Reused := ⟨unused, Members.new⟩

/-- The verdict, and the object with what `parse` has left. -/
def parseHeader (sh : Reused) (bufflen : Nat) : Reused × Bool :=
  let (mHTTPRParser, exception) := sh.mHTTPRParser.parse sh.headerBuffer bufflen
  ({ sh with mHTTPRParser }, exception.isNone && isUpgrade toupper mHTTPRParser.mHeaders)

/-- `handshake` up to the verdict of `parseHeader`. -/
def readRequest (sh : Reused) (received : Received) : Reused × Bool :=
  let sh := { sh with mHTTPRParser := sh.mHTTPRParser.clear }
  match received with
  | none => (sh, false)
  | some ⟨bytes, fits⟩ => { sh with toShakespeer := sh.receive bytes fits }.parseHeader toupper bytes.length

/-- The object after earlier handshakes. -/
def after (history : List Received) : Reused :=
  history.foldl (fun sh received => (sh.readRequest toupper received).1) new

end Reused

/-! ### The bytes received now decide -/

/-- The buffer has a zero behind what was received, so that no comparison gets to the bytes behind it. -/
theorem members_parse_receive (m : Members) (sh sh' : Shakespeer) (bytes : List UInt8) (fits : bytes.length ≤ 1024) :
    m.parse (sh.receive bytes fits).headerBuffer bytes.length =
      m.parse (sh'.receive bytes fits).headerBuffer bytes.length := by
  have get : 0 ∉ ascii "GET" := by decide
  have space : 0 ∉ ascii "GET " := by decide
  simp only [Members.parse, (sh.receive bytes fits).size_eq, (sh'.receive bytes fits).size_eq, line_receive get,
    line_receive space, take_receive]

theorem parseHeader_isSome (sh : Shakespeer) (bufflen : Nat) :
    (sh.parseHeader toupper bufflen).isSome = ((Members.new.parse sh.headerBuffer bufflen).2.isNone &&
      isUpgrade toupper (Members.new.parse sh.headerBuffer bufflen).1.mHeaders) := by
  rw [Shakespeer.parseHeader, ← Members.result_parse_new]
  generalize Members.new.parse sh.headerBuffer bufflen = outcome
  obtain ⟨m, exception⟩ := outcome
  cases exception with
  | none =>
    show (if isUpgrade toupper m.mHeaders then _ else none : Option Request).isSome = isUpgrade toupper m.mHeaders
    cases isUpgrade toupper m.mHeaders <;> rfl
  | some e => rfl

/-- A handshake leaves in the members what a new object would have in them, and accepts the same requests. -/
theorem readRequest_some (sh : Reused) (bytes : List UInt8) (fits : bytes.length ≤ 1024) :
    (sh.readRequest toupper (some ⟨bytes, fits⟩)).1.mHTTPRParser =
        (Members.new.parse (unused.receive bytes fits).headerBuffer bytes.length).1 ∧
      (sh.readRequest toupper (some ⟨bytes, fits⟩)).2 = (requestOf toupper bytes fits).isSome := by
  have same := members_parse_receive Members.new sh.toShakespeer unused bytes fits
  refine ⟨congrArg Prod.fst same, ?_⟩
  rw [requestOf, parseHeader_isSome, ← same]
  rfl

/-- The verdict, the target and the headers of a handshake do not depend on the handshakes before it. -/
theorem handshakes_do_not_leak (history history' : List Received) (bytes : { bytes : List UInt8 // bytes.length ≤ 1024 }) :
    let now := (Reused.after toupper history).readRequest toupper (some bytes)
    let now' := (Reused.after toupper history').readRequest toupper (some bytes)
    now.2 = now'.2 ∧ now.1.mHTTPRParser.getRequestTarget = now'.1.mHTTPRParser.getRequestTarget ∧
      ∀ name, now.1.mHTTPRParser.get name = now'.1.mHTTPRParser.get name := by
  obtain ⟨members, verdict⟩ := readRequest_some toupper (Reused.after toupper history) bytes.1 bytes.2
  obtain ⟨members', verdict'⟩ := readRequest_some toupper (Reused.after toupper history') bytes.1 bytes.2
  refine ⟨verdict.trans verdict'.symm, ?_, ?_⟩
  · rw [members, members']
  · intro name
    rw [members, members']

end Shakespeer
end LAppS
