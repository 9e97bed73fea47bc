import LAppS.Shakespeer

/-!
# The client accepts the response of the server

The response that `prepareOKResponse` makes is a status line, header lines and a blank line. The client's loop reads one
line in a round and keeps the first value of a name, so that a configured header cannot take the place of `Upgrade` and
`Connection`, which come before it.
-/

namespace LAppS.ClientWebSocket

/-! ### The accept value -/

/-- The characters of Base64 (RFC 4648, section 4). -/
def isBase64 (b : UInt8) : Bool :=
  65 ≤ b && b ≤ 90 || 97 ≤ b && b ≤ 122 || 48 ≤ b && b ≤ 57 || b = 43 || b = 47 || b = 61

/-- What `wolf::base64encode`, which is not part of the repository, makes of a digest or a nonce: Base64 in one line. -/
structure Encodes (base64encode : List UInt8 → List UInt8) : Prop where
  length : ∀ bs, bs.length ≤ 20 → (base64encode bs).length = (bs.length + 2) / 3 * 4
  characters : ∀ bs, bs.length ≤ 20 → ∀ b ∈ base64encode bs, isBase64 b = true

/-- A digest of SHA-1. -/
abbrev Digest := { digest : List UInt8 // digest.length = 20 }

/-- The accept value for the text that is hashed. -/
def acceptOf (base64encode : List UInt8 → List UInt8) (sha1digest : List UInt8 → Digest) (text : List UInt8) :
    List UInt8 := base64encode (sha1digest text).1

def isVisible (b : UInt8) : Bool := isNotCrLf b && !isBlankOrColon b

theorem isVisible_of_isBase64 {b : UInt8} (h : isBase64 b = true) : isVisible b = true := by
  by_contra hidden
  have other : ((b = 13 ∨ b = 10) ∨ b = 9) ∨ b = 32 ∨ b = 58 := by
    simp only [isVisible, isNotCrLf, isBlankOrColon, Bool.and_eq_true, decide_eq_true_eq, Bool.not_eq_true',
      Bool.or_eq_false_iff, decide_eq_false_iff_not] at hidden
    tauto
  rcases other with ((rfl | rfl) | rfl) | rfl | rfl <;> exact absurd h (by decide)

section Accept

variable {base64encode : List UInt8 → List UInt8} (encodes : Encodes base64encode) (sha1digest : List UInt8 → Digest)
include encodes

theorem Encodes.length_acceptOf (text : List UInt8) : (acceptOf base64encode sha1digest text).length = 28 := by
  have length := (sha1digest text).2
  rw [acceptOf, encodes.length _ length.le, length]

theorem Encodes.isVisible_acceptOf (text : List UInt8) :
    ∀ b ∈ acceptOf base64encode sha1digest text, isVisible b = true := fun b hb =>
  isVisible_of_isBase64 (encodes.characters _ (sha1digest text).2.le b hb)

end Accept

/-! ### Header lines -/

def crlf : List UInt8 := [13, 10]

/-- The bytes of a line with a name and a value. -/
def lineOf (line : List UInt8 × List UInt8) : List UInt8 := line.1 ++ 58 :: 32 :: line.2 ++ crlf

def linesOf (lines : List (List UInt8 × List UInt8)) : List UInt8 := lines.flatMap lineOf

/-- A name that is not empty and has no colon, and no line break in the name or in the value. -/
structure PlainLine (line : List UInt8 × List UInt8) : Prop where
  nonempty : line.1 ≠ []
  noColon : ∀ b ∈ line.1, isNotColon b = true
  name : ∀ b ∈ line.1, isNotCrLf b = true
  value : ∀ b ∈ line.2, isNotCrLf b = true

theorem plainLine_iff {line : List UInt8 × List UInt8} : PlainLine line ↔
    (!line.1.isEmpty && line.1.all isNotColon && line.1.all isNotCrLf && line.2.all isNotCrLf) = true := by
  simp only [Bool.and_eq_true, List.all_eq_true, Bool.not_eq_true', List.isEmpty_eq_false_iff]
  constructor
  · intro plain
    exact ⟨⟨⟨plain.nonempty, plain.noColon⟩, plain.name⟩, plain.value⟩
  · intro plain
    obtain ⟨⟨⟨nonempty, noColon⟩, name⟩, value⟩ := plain
    exact ⟨nonempty, noColon, name, value⟩

instance (line : List UInt8 × List UInt8) : Decidable (PlainLine line) := decidable_of_iff _ plainLine_iff.symm

/-- What a round of the loop does with a line. Blanks and colons before a value are not read. -/
def addLine (headers : Headers) (line : List UInt8 × List UInt8) : Headers :=
  let value := line.2.dropWhile isBlankOrColon
  if line.1 ≠ [] ∧ value ≠ [] then headers.emplace line.1 value else headers

theorem dropWhile_append_stop {p : UInt8 → Bool} {c : UInt8} (stops : ¬p c = true) (xs ys : List UInt8) :
    (xs ++ c :: ys).dropWhile p = xs.dropWhile p ++ c :: ys := by
  rw [List.dropWhile_append]
  split
  next done =>
    rw [List.isEmpty_iff.mp done, List.dropWhile_cons_of_neg stops]
    rfl
  · rfl

theorem takeWhile_append_stop {p : UInt8 → Bool} {c : UInt8} (stops : ¬p c = true) {xs : List UInt8}
    (all : ∀ b ∈ xs, p b = true) (ys : List UInt8) : (xs ++ c :: ys).takeWhile p = xs := by
  rw [List.takeWhile_append_of_pos all, List.takeWhile_cons_of_neg stops, List.append_nil]

theorem dropWhile_append_all {p : UInt8 → Bool} {c : UInt8} (stops : ¬p c = true) {xs : List UInt8}
    (all : ∀ b ∈ xs, p b = true) (ys : List UInt8) : (xs ++ c :: ys).dropWhile p = c :: ys := by
  rw [List.dropWhile_append_of_pos all, List.dropWhile_cons_of_neg stops]

section Lines

variable {line : List UInt8 × List UInt8} {lines : List (List UInt8 × List UInt8)}

/-- One round reads one line, behind the line break that the round before has left. -/
theorem readHeaders_line (plain : PlainLine line) {sep : List UInt8} (hsep : sep = [] ∨ sep = crlf) (tail : List UInt8)
    (headers : Headers) :
    readHeaders (sep ++ (lineOf line ++ tail)) headers = readHeaders (crlf ++ tail) (addLine headers line) := by
  obtain ⟨b, name, named⟩ := List.exists_cons_of_ne_nil plain.nonempty
  have first : ¬isCrLf b = true := by
    have := plain.name b (by simp [named])
    simp_all [isNotCrLf, isCrLf]
  have sepBreaks : ∀ c ∈ sep, isCrLf c = true := by rcases hsep with rfl | rfl <;> simp [crlf, isCrLf]
  have sepShort : sep.length ≠ 4 := by rcases hsep with rfl | rfl <;> simp [crlf]
  have spelled : lineOf line ++ tail = line.1 ++ 58 :: 32 :: (line.2 ++ 13 :: (10 :: tail)) := by simp [lineOf, crlf]
  have begins : lineOf line ++ tail = b :: (name ++ 58 :: 32 :: (line.2 ++ 13 :: (10 :: tail))) := by
    rw [spelled, named]; rfl
  have broken : (sep ++ (lineOf line ++ tail)).takeWhile isCrLf = sep := by
    rw [begins, takeWhile_append_stop first sepBreaks]
  have here : (sep ++ (lineOf line ++ tail)).dropWhile isCrLf = lineOf line ++ tail := by
    rw [begins, dropWhile_append_all first sepBreaks]
  have key : (lineOf line ++ tail).takeWhile isNotColon = line.1 := by
    rw [spelled, takeWhile_append_stop (by decide) plain.noColon]
  have atValue : ((lineOf line ++ tail).dropWhile isNotColon).dropWhile isBlankOrColon =
      line.2.dropWhile isBlankOrColon ++ 13 :: (10 :: tail) := by
    rw [spelled, dropWhile_append_all (by decide) plain.noColon, List.dropWhile_cons_of_pos (by decide),
      List.dropWhile_cons_of_pos (by decide), dropWhile_append_stop (by decide)]
  have valueBytes : ∀ c ∈ line.2.dropWhile isBlankOrColon, isNotCrLf c = true := fun c hc =>
    plain.value c ((List.dropWhile_sublist _).subset hc)
  have after : afterValue (lineOf line ++ tail) = crlf ++ tail := by
    rw [afterValue, atValue, dropWhile_append_all (by decide) valueBytes]
    rfl
  rw [readHeaders, dif_pos (by rw [begins]; simp)]
  simp only [broken, here, key, atValue, after, if_neg sepShort, takeWhile_append_stop (c := 13) (by decide) valueBytes]
  rfl

theorem readHeaders_lines (plain : ∀ line ∈ lines, PlainLine line) (tail : List UInt8) (headers : Headers) :
    readHeaders (crlf ++ (linesOf lines ++ tail)) headers = readHeaders (crlf ++ tail) (lines.foldl addLine headers) := by
  induction lines generalizing headers with
  | nil => rfl
  | cons line lines ih =>
    rw [linesOf, List.flatMap_cons, List.append_assoc, readHeaders_line (plain line List.mem_cons_self) (.inr rfl)]
    exact ih (fun l hl => plain l (List.mem_cons_of_mem _ hl)) _

/-- The first line has no line break before it. -/
theorem readHeaders_all (plain : ∀ line ∈ lines, PlainLine line) (nonempty : lines ≠ []) :
    readHeaders (linesOf lines ++ crlf) [] = (lines.foldl addLine [], some []) := by
  obtain ⟨line, lines, rfl⟩ := List.exists_cons_of_ne_nil nonempty
  have first := readHeaders_line (plain line List.mem_cons_self) (.inl rfl) (linesOf lines ++ crlf) []
  rw [List.nil_append, ← List.append_assoc] at first
  rw [linesOf, List.flatMap_cons]
  refine first.trans ((readHeaders_lines (fun l hl => plain l (List.mem_cons_of_mem _ hl)) crlf _).trans ?_)
  rw [readHeaders, dif_pos (by decide)]
  rfl

theorem prefix_foldl_addLine (headers : Headers) : headers <+: lines.foldl addLine headers := by
  induction lines generalizing headers with
  | nil => exact List.prefix_rfl
  | cons line lines ih => exact (prefix_line headers line.1 _).trans (ih _)

theorem lookup_addLine {headers : Headers} {key : List UInt8} (other : line.1 ≠ key) :
    (addLine headers line).lookup key = headers.lookup key := by
  unfold addLine Headers.emplace
  dsimp only
  split
  · split
    · rfl
    · rw [List.lookup_append, List.lookup_cons, beq_eq_false_iff_ne.mpr other.symm]
      simp
  · rfl

theorem lookup_foldl_addLine {headers : Headers} {key : List UInt8} (others : ∀ line ∈ lines, line.1 ≠ key) :
    (lines.foldl addLine headers).lookup key = headers.lookup key := by
  induction lines generalizing headers with
  | nil => rfl
  | cons line lines ih =>
    rw [List.foldl_cons, ih fun l hl => others l (List.mem_cons_of_mem _ hl)]
    exact lookup_addLine (others line List.mem_cons_self)

/-- A name that was not there before gets its value. -/
theorem get_addLine_new {headers : Headers} (nonempty : line.1 ≠ []) (hvalue : line.2 ≠ [])
    (visible : ∀ b ∈ line.2, isVisible b = true) (new : headers.lookup line.1 = none) :
    (addLine headers line).get line.1 = line.2 := by
  obtain ⟨b, rest, spelled⟩ := List.exists_cons_of_ne_nil hvalue
  have hb : ¬isBlankOrColon b = true := by
    have := visible b (by simp [spelled])
    simp_all [isVisible]
  have whole : line.2.dropWhile isBlankOrColon = line.2 := by rw [spelled, List.dropWhile_cons_of_neg hb]
  have absent : ¬(headers.any fun h => decide (h.1 = line.1)) = true := by
    rw [List.lookup_eq_none_iff] at new
    simp only [List.any_eq_true, decide_eq_true_eq, not_exists, not_and]
    intro h hmem same
    have := new h hmem
    simp [same] at this
  have appended : addLine headers line = headers ++ [(line.1, line.2)] := by
    rw [addLine, whole, if_pos ⟨nonempty, hvalue⟩, Headers.emplace, if_neg absent]
  rw [appended, Headers.get, List.lookup_append, new, List.lookup_cons_self]
  rfl

end Lines

/-! ### The response -/

/-- The lines before the configured ones. -/
def fixedLines : List (List UInt8 × List UInt8) :=
  [(ascii "Upgrade", ascii "websocket"), (ascii "Connection", ascii "Upgrade"), (ascii "Server", ascii "LAppS/0.7.0")]

def acceptName : List UInt8 := ascii "Sec-WebSocket-Accept"

theorem fixedLines_plain : ∀ line ∈ fixedLines, PlainLine line := by decide +kernel

section Response

variable {toupper : List UInt8 → List UInt8} {lines : List (List UInt8 × List UInt8)} {accept : List UInt8}

theorem acceptLine_plain (visible : ∀ b ∈ accept, isVisible b = true) : PlainLine (acceptName, accept) := by
  have name : acceptName ≠ [] ∧ (∀ b ∈ acceptName, isNotColon b = true) ∧ ∀ b ∈ acceptName, isNotCrLf b = true := by
    decide +kernel
  refine ⟨name.1, name.2.1, name.2.2, fun b hb => ?_⟩
  have := visible b hb
  simp_all [isVisible]

/-- The fixed lines come first and the accept value is new, so that the client finds what it asks for. -/
theorem accepted_lines (capitalizes : Capitalizes toupper) (others : ∀ line ∈ lines, line.1 ≠ acceptName)
    (nonempty : accept ≠ []) (visible : ∀ b ∈ accept, isVisible b = true) :
    accepted toupper ((fixedLines ++ lines ++ [(acceptName, accept)]).foldl addLine []) accept = true := by
  have fixed : fixedLines.foldl addLine [] = fixedLines := by decide +kernel
  have split : (fixedLines ++ lines ++ [(acceptName, accept)]).foldl addLine [] =
      addLine (lines.foldl addLine fixedLines) (acceptName, accept) := by
    rw [List.foldl_append, List.foldl_append, fixed]
    rfl
  have extends_ : fixedLines <+: addLine (lines.foldl addLine fixedLines) (acceptName, accept) :=
    (prefix_foldl_addLine fixedLines).trans (prefix_line _ _ _)
  have new : (lines.foldl addLine fixedLines).lookup acceptName = none := by
    rw [lookup_foldl_addLine others]
    decide +kernel
  have value : (addLine (lines.foldl addLine fixedLines) (acceptName, accept)).get acceptName = accept :=
    get_addLine_new (show acceptName ≠ [] by decide +kernel) nonempty visible new
  have connection : (addLine (lines.foldl addLine fixedLines) (acceptName, accept)).get (ascii "Connection") =
      Headers.get fixedLines (ascii "Connection") := get_extends extends_ (by decide +kernel)
  have upgrade : (addLine (lines.foldl addLine fixedLines) (acceptName, accept)).get (ascii "Upgrade") =
      Headers.get fixedLines (ascii "Upgrade") := get_extends extends_ (by decide +kernel)
  have some_ : ¬(addLine (lines.foldl addLine fixedLines) (acceptName, accept)).isEmpty = true := by
    obtain ⟨more, h⟩ := extends_
    rw [← h]
    simp [fixedLines]
  have capitals : toupper (Headers.get fixedLines (ascii "Connection")) = ascii "UPGRADE" ∧
      toupper (Headers.get fixedLines (ascii "Upgrade")) = ascii "WEBSOCKET" := by
    rw [capitalizes _ (by decide +kernel), capitalizes _ (by decide +kernel)]
    decide +kernel
  rw [split, accepted, connection, upgrade]
  simp only [Bool.and_eq_true, decide_eq_true_eq, Bool.not_eq_true']
  exact ⟨⟨⟨by simpa using some_, capitals.1⟩, capitals.2⟩, value⟩

/-- A status line, lines that begin with the fixed ones, and the line of the accept value. -/
theorem response_of_lines (capitalizes : Capitalizes toupper) (plain : ∀ line ∈ lines, PlainLine line)
    (others : ∀ line ∈ lines, line.1 ≠ acceptName) (long : accept.length = 28)
    (visible : ∀ b ∈ accept, isVisible b = true) :
    Response toupper accept (statusLine ++ (linesOf (fixedLines ++ lines ++ [(acceptName, accept)]) ++ crlf)) := by
  have nonempty : accept ≠ [] := fun h => by simp [h] at long
  have status : statusLine.length = 34 := by simp [statusLine, ascii]
  have allPlain : ∀ line ∈ fixedLines ++ lines ++ [(acceptName, accept)], PlainLine line := by
    intro line h
    simp only [List.mem_append, List.mem_singleton] at h
    rcases h with (h | h) | rfl
    · exact fixedLines_plain line h
    · exact plain line h
    · exact acceptLine_plain visible
  have read := readHeaders_all allPlain (by simp)
  have rest : (statusLine ++ (linesOf (fixedLines ++ lines ++ [(acceptName, accept)]) ++ crlf)).drop 34 =
      linesOf (fixedLines ++ lines ++ [(acceptName, accept)]) ++ crlf := by
    rw [← status, List.drop_left]
  refine ⟨nonempty, ?_, by rw [← status, List.take_left], ?_, ?_⟩
  · have fixed : (linesOf fixedLines).length = 62 := by simp [linesOf, fixedLines, ascii, lineOf, crlf]
    have name : acceptName.length = 20 := by decide +kernel
    have acceptLine : (lineOf (acceptName, accept)).length = 52 := by simp [lineOf, crlf, name, long]
    have parts : linesOf (fixedLines ++ lines ++ [(acceptName, accept)]) =
        linesOf fixedLines ++ linesOf lines ++ lineOf (acceptName, accept) := by simp [linesOf]
    simp only [parts, List.length_append, status, fixed, acceptLine]
    omega
  · have headers : (readHeaders (linesOf (fixedLines ++ lines ++ [(acceptName, accept)]) ++ crlf) []).1 =
        (fixedLines ++ lines ++ [(acceptName, accept)]).foldl addLine [] := by rw [read]
    rw [rest, headers]
    exact accepted_lines capitalizes others nonempty visible
  · rw [rest, read]

theorem responseOK_of_response {resp : List UInt8} (response : Response toupper accept resp) (cursor : Nat)
    {frames : List UInt8} (first : frames.head?.any isCrLf = false) :
    responseOK toupper cursor (resp ++ frames) accept = (true, if frames = [] then 0 else resp.length) := by
  have long := response.long
  have status : (resp ++ frames).take 34 = statusLine := by
    rw [List.take_append_of_le_length (by omega), response.status]
  have rest : (resp ++ frames).drop 34 = resp.drop 34 ++ frames := List.drop_append_of_le_length (by omega)
  have read := (readHeaders_append (resp.drop 34) [] frames response.complete).1 first
  have enough : ¬(resp ++ frames).length < 113 := by
    rw [List.length_append]
    omega
  simp only [responseOK, if_neg enough, status, if_true, rest, read, response.headers]
  by_cases h : frames = []
  · simp [h]
  · simp [h]

end Response

end LAppS.ClientWebSocket

namespace LAppS.Shakespeer
open ClientWebSocket

/-! ### The configuration -/

/-- The members of the configured headers, which may also be null or an empty list. -/
inductive HeaderMembers : Option Json → List (String × String) → Prop where
  | missing : HeaderMembers none []
  | null : HeaderMembers (some .null) []
  | empty : HeaderMembers (some (.array [])) []
  | object (members : List (String × String)) :
      HeaderMembers (some (.object (members.map fun m => (m.1, .string m.2)))) members

/-- What the configuration has for a service. -/
structure Configured (config : Json) (appName : String) (extraHeaders : List (String × String))
    (protoAlias : Option String) : Prop where
  entry : ∃ services entry, config.index "services" = .ok services ∧ services.index appName = .ok entry ∧
    HeaderMembers (entry.find "extra_headers") extraHeaders ∧ entry.find "proto_alias" = protoAlias.map .string

/-- Names without a colon that are not that of the accept value, and no line breaks. -/
structure PlainHeaders (extraHeaders : List (String × String)) (protoAlias : Option String) : Prop where
  lines : ∀ m ∈ extraHeaders, PlainLine (ascii m.1, ascii m.2)
  others : ∀ m ∈ extraHeaders, ascii m.1 ≠ ascii "Sec-WebSocket-Accept"
  alias_ : ∀ a ∈ protoAlias, ∀ b ∈ ascii a, isNotCrLf b = true

/-- The lines that are configured. -/
def configuredLines (extraHeaders : List (String × String)) (protoAlias : Option String) :
    List (List UInt8 × List UInt8) :=
  extraHeaders.map (fun m => (ascii m.1, ascii m.2)) ++
    (protoAlias.map fun a => (ascii "Sec-WebSocket-Protocol", ascii a)).toList

theorem ascii_append (s t : String) : ascii (s ++ t) = ascii s ++ ascii t := by
  simp [ascii]

theorem ascii_line (name value : String) : ascii (name ++ ": " ++ value ++ "\r\n") = lineOf (ascii name, ascii value) := by
  simp only [ascii_append, lineOf, List.append_assoc]
  rfl

theorem headerLines_members (members : List (String × String)) (before : List UInt8) :
    (members.map fun m => (m.1, Json.string m.2)).foldlM (fun lines m => do
      let value ← m.2.toText
      return lines ++ ascii (m.1 ++ ": " ++ value ++ "\r\n")) before =
    (.ok (before ++ linesOf (members.map fun m => (ascii m.1, ascii m.2))) : Except String _) := by
  induction members generalizing before with
  | nil => simp [linesOf, pure, Except.pure]
  | cons m members ih =>
    rw [List.map_cons, List.foldlM_cons]
    refine (ih (before ++ ascii (m.1 ++ ": " ++ m.2 ++ "\r\n"))).trans ?_
    rw [ascii_line, List.append_assoc]
    rfl

theorem headerLines_of_members {v : Option Json} {members : List (String × String)} (h : HeaderMembers v members) :
    v.elim (.ok []) headerLines = .ok (linesOf (members.map fun m => (ascii m.1, ascii m.2))) := by
  cases h with
  | missing => rfl
  | null => rfl
  | empty => rfl
  | object => exact headerLines_members members []

theorem protocolLine_of_alias (protoAlias : Option String) :
    (protoAlias.map Json.string).elim (.ok []) protocolLine =
      .ok (linesOf (protoAlias.map fun a => (ascii "Sec-WebSocket-Protocol", ascii a)).toList) := by
  cases protoAlias with
  | none => rfl
  | some a =>
    have line := ascii_line "Sec-WebSocket-Protocol" a
    simp only [Option.map_some, Option.elim_some, protocolLine, Json.toText, bind, Except.bind, Option.toList_some,
      linesOf, List.flatMap_cons, List.flatMap_nil, List.append_nil, ← line]
    rfl

/-- The response is made of the lines that the client reads. -/
theorem prepareOKResponse_lines {config : Json} {appName : String} {extraHeaders : List (String × String)}
    {protoAlias : Option String} (configured : Configured config appName extraHeaders protoAlias)
    (digest : List UInt8 → List UInt8) (key : List UInt8) :
    prepareOKResponse digest config appName key =
      .ok (statusLine ++ (linesOf (fixedLines ++ configuredLines extraHeaders protoAlias ++
        [(acceptName, digest (key ++ ascii "258EAFA5-E914-47DA-95CA-C5AB0DC85B11"))]) ++ crlf)) := by
  obtain ⟨services, entry, hservices, hentry, headers, alias_⟩ := configured.entry
  have begin_ : ascii ("HTTP/1.1 101 Switching Protocols\r\nUpgrade: websocket\r\nConnection: Upgrade\r\n" ++
      "Server: LAppS/0.7.0\r\n") = statusLine ++ linesOf fixedLines := by
    simp [ascii, statusLine, linesOf, fixedLines, lineOf, crlf]
  have name : ascii "Sec-WebSocket-Accept: " = acceptName ++ [58, 32] := by simp [ascii, acceptName]
  have end_ : ascii "\r\n\r\n" = crlf ++ crlf := by decide
  simp only [prepareOKResponse, hservices, hentry, headerLines_of_members headers, alias_, protocolLine_of_alias, bind,
    Except.bind]
  show Except.ok _ = _
  rw [begin_, name, end_]
  simp [configuredLines, linesOf, lineOf]

/-- The accept value that the client asks for. -/
def requiredAcceptKey (base64encode : List UInt8 → List UInt8) (sha1digest : List UInt8 → Digest) (key : List UInt8) :
    List UInt8 := acceptOf base64encode sha1digest (key ++ ascii "258EAFA5-E914-47DA-95CA-C5AB0DC85B11")

/-- The client accepts what the server prepares and finds the first byte behind it. -/
theorem client_accepts_response {toupper base64encode : List UInt8 → List UInt8} (capitalizes : Capitalizes toupper)
    (encodes : Encodes base64encode) (sha1digest : List UInt8 → Digest) (key frames : List UInt8) (cursor : Nat)
    {config : Json} {appName : String} {extraHeaders : List (String × String)} {protoAlias : Option String}
    (configured : Configured config appName extraHeaders protoAlias) (plain : PlainHeaders extraHeaders protoAlias)
    (first : frames.head?.any isCrLf = false) :
    ∃ response, prepareOKResponse (acceptOf base64encode sha1digest) config appName key = .ok response ∧
      responseOK toupper cursor (response ++ frames) (requiredAcceptKey base64encode sha1digest key) =
        (true, if frames = [] then 0 else response.length) := by
  refine ⟨_, prepareOKResponse_lines configured (acceptOf base64encode sha1digest) key, ?_⟩
  refine responseOK_of_response (response_of_lines capitalizes ?_ ?_ (encodes.length_acceptOf ..)
    (encodes.isVisible_acceptOf _ _)) cursor first
  · intro line h
    simp only [configuredLines, List.mem_append, List.mem_map, Option.mem_toList] at h
    rcases h with ⟨m, hm, rfl⟩ | h
    · exact plain.lines m hm
    · obtain ⟨a, ha, rfl⟩ := Option.map_eq_some_iff.mp h
      have name : PlainLine (ascii "Sec-WebSocket-Protocol", []) := by decide +kernel
      exact ⟨name.nonempty, name.noColon, name.name, plain.alias_ a ha⟩
  · intro line h
    simp only [configuredLines, List.mem_append, List.mem_map, Option.mem_toList] at h
    rcases h with ⟨m, hm, rfl⟩ | h
    · exact plain.others m hm
    · obtain ⟨a, ha, rfl⟩ := Option.map_eq_some_iff.mp h
      show ascii "Sec-WebSocket-Protocol" ≠ acceptName
      decide +kernel

/-- A service with a header that has no value, and an alias. -/
def echoConfig : Json :=
  .object [("services", .object [("echo", .object
    [("extra_headers", .object [("X-Empty", .string "")]), ("proto_alias", .string "chat")])])]

theorem configured_echo : Configured echoConfig "echo" [("X-Empty", "")] (some "chat") where
  entry := ⟨_, _, rfl, rfl, .object [("X-Empty", "")], rfl⟩

theorem plainHeaders_echo : PlainHeaders [("X-Empty", "")] (some "chat") where
  lines := by decide +kernel
  others := by decide +kernel
  alias_ := by decide +kernel

/-- The character for six bits. -/
def sextet (n : Nat) : UInt8 :=
  if n < 26 then UInt8.ofNat (65 + n)
  else if n < 52 then UInt8.ofNat (71 + n)
  else if n < 62 then UInt8.ofNat (n - 4)
  else if n = 62 then 43
  else 47

/-- The encoding of RFC 4648, section 4. -/
def base64 : List UInt8 → List UInt8
  | a :: b :: c :: rest =>
    sextet (a.toNat / 4) :: sextet (a.toNat % 4 * 16 + b.toNat / 16) :: sextet (b.toNat % 16 * 4 + c.toNat / 64) ::
      sextet (c.toNat % 64) :: base64 rest
  | [a, b] => [sextet (a.toNat / 4), sextet (a.toNat % 4 * 16 + b.toNat / 16), sextet (b.toNat % 16 * 4), 61]
  | [a] => [sextet (a.toNat / 4), sextet (a.toNat % 4 * 16), 61, 61]
  | [] => []

theorem isBase64_sextet (n : Nat) : isBase64 (sextet n) = true := by
  have small : ∀ n < 63, isBase64 (sextet n) = true := by decide
  by_cases h : n < 63
  · exact small n h
  · rw [sextet, if_neg (by omega), if_neg (by omega), if_neg (by omega), if_neg (by omega)]
    decide

theorem length_base64 (bs : List UInt8) : (base64 bs).length = (bs.length + 2) / 3 * 4 := by
  fun_induction base64 bs with
  | case1 a b c rest ih => simp only [List.length_cons, ih]; omega
  | case2 a b => simp
  | case3 a => simp
  | case4 => rfl

theorem isBase64_base64 (bs : List UInt8) : ∀ b ∈ base64 bs, isBase64 b = true := by
  have pad : isBase64 61 = true := by decide
  fun_induction base64 bs with
  | case1 a b c rest ih => simpa only [List.forall_mem_cons, isBase64_sextet, true_and] using ih
  | case2 a b => simp [isBase64_sextet, pad]
  | case3 a => simp [isBase64_sextet, pad]
  | case4 => simp

theorem encodes_base64 : Encodes base64 := ⟨fun bs _ => length_base64 bs, fun bs _ => isBase64_base64 bs⟩

/-- The digest for the key of RFC 6455, section 1.3. -/
def sampleDigest : Digest := ⟨[179, 122, 79, 44, 192, 98, 79, 22, 144, 246, 70, 6, 207, 56, 89, 69, 178, 190, 196, 234], rfl⟩

example : base64 sampleDigest.1 = ascii "s3pPLMBiTxaQ9kYGzzhZRbK+xOo=" := by decide

theorem client_accepts_response_with_pong :
    ∃ response, prepareOKResponse (acceptOf base64 fun _ => sampleDigest) echoConfig "echo"
        (ascii "dGhlIHNhbXBsZSBub25jZQ==") = .ok response ∧
      responseOK capitals 0 (response ++ [138, 0])
          (requiredAcceptKey base64 (fun _ => sampleDigest) (ascii "dGhlIHNhbXBsZSBub25jZQ==")) =
        (true, if [138, 0] = ([] : List UInt8) then 0 else response.length) :=
  client_accepts_response (fun _ _ => rfl) encodes_base64 (fun _ => sampleDigest) _ [138, 0] 0 configured_echo
    plainHeaders_echo rfl

end LAppS.Shakespeer
