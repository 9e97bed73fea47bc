import LAppS.ClientWebSocket.Agreement
import LAppS.Shakespeer.Reuse

/-!
# What a request says

`HTTPRequestParser::parse` on a request that is written as RFC 7230 has it. The first line is looked for behind a CRLF,
if there is one, but the target at the fifth byte of the buffer in both cases.
-/

namespace LAppS.HTTPRequestParser
open ClientWebSocket

/-- The buffer of a `Shakespeer` has these bytes at its beginning. -/
structure Stored (ref bytes : List UInt8) : Prop where
  size : ref.length = 1024
  starts : bytes <+: ref

/-! ### The parts of a request -/

def isVersionByte (b : UInt8) : Bool := isNotCrLf b && !isBlankOrTab b

def isLineSpace (b : UInt8) : Bool := isCrLf b || isBlankOrTab b

/-- What follows the target and the blanks behind it. -/
def behindTarget (rest : List UInt8) : List UInt8 :=
  (rest.dropWhile fun b => !isBlankOrTab b).dropWhile isBlankOrTab

/-- Where the headers begin. -/
def behindVersion (rest : List UInt8) : List UInt8 := (rest.dropWhile isVersionByte).dropWhile isLineSpace

namespace Members

/-- The members after the parts of a request, of which `rest` begins with the target. -/
def parts (rest : List UInt8) : Members where
  httpVersion := (behindTarget rest).takeWhile isVersionByte
  requestTarget := rest.takeWhile fun b => !isBlankOrTab b
  mMinSize := HTTPRequestParser.mMinSize
  mHeaders := collectHeaders (behindVersion (behindTarget rest)) []

/-- The exception of a request without headers. -/
def noHeaders (headers : Headers) : Option String :=
  if headers.isEmpty then some "HTTPRequestParser::parse() - malformed or unsupported GET Request" else none

theorem noHeaders_eq_none_iff {headers : Headers} : noHeaders headers = none ↔ ∃ k v, headers.lookup k = some v := by
  cases headers with
  | nil => simp [noHeaders]
  | cons line headers => exact iff_of_true rfl ⟨line.1, line.2, List.lookup_cons_self⟩

section Parse

variable {ref bytes : List UInt8} (m : Members)

theorem take_stored (stored : Stored ref bytes) : ref.take bytes.length = bytes := by
  obtain ⟨rest, rfl⟩ := stored.starts
  exact List.take_left

theorem parse_stored {line : List UInt8} (stored : Stored ref bytes)
    (hline : (if (ascii "\r\n").isPrefixOf ref then ref.drop 2 else ref) = line) (get : ascii "GET " <+: line) :
    m.clear.parse ref bytes.length = (parts (bytes.drop 4), noHeaders (parts (bytes.drop 4)).mHeaders) := by
  have long : ¬ref.length < m.clear.mMinSize := by
    rw [stored.size]
    show ¬1024 < 168
    decide
  have word : (ascii "GET").isPrefixOf line = true := by
    refine List.isPrefixOf_iff_prefix.mpr (List.IsPrefix.trans ?_ get)
    exact ⟨[32], by decide⟩
  have space : (ascii "GET ").isPrefixOf line = true := List.isPrefixOf_iff_prefix.mpr get
  simp only [Members.parse, if_neg long, hline, word, space, if_true, take_stored stored]
  change (if (parts (bytes.drop 4)).mHeaders.isEmpty then (parts (bytes.drop 4), some _)
    else (parts (bytes.drop 4), none)) = _
  rw [noHeaders]
  split
  · rfl
  · rfl

theorem parse_get (stored : Stored ref bytes) (get : ascii "GET " <+: bytes) :
    m.clear.parse ref bytes.length = (parts (bytes.drop 4), noHeaders (parts (bytes.drop 4)).mHeaders) := by
  have line := get.trans stored.starts
  refine parse_stored m stored (if_neg ?_) line
  intro crlf
  obtain ⟨tail, rfl⟩ := line
  simp [ascii] at crlf

/-- Behind a CRLF, too, the target is looked for at the fifth byte. -/
theorem parse_crlf (stored : Stored ref (crlf ++ bytes)) (get : ascii "GET " <+: bytes) :
    m.clear.parse ref (crlf ++ bytes).length =
      (parts (bytes.drop 2), noHeaders (parts (bytes.drop 2)).mHeaders) := by
  have here : ascii "\r\n" <+: ref := (List.prefix_append crlf bytes).trans stored.starts
  obtain ⟨tail, rfl⟩ := stored.starts
  exact parse_stored m stored (if_pos (List.isPrefixOf_iff_prefix.mpr here))
    (get.trans (List.prefix_append bytes tail))

end Parse

end Members

/-! ### A request as it is written -/

/-- A name without blanks and colons, and a value that does not begin with one; no line break in either. -/
structure HeaderLine (line : List UInt8 × List UInt8) : Prop where
  nonempty : line.1 ≠ []
  name : ∀ b ∈ line.1, isKeyByte b = true ∧ b ≠ 9
  value : ∀ b ∈ line.2, isNotCrLf b = true
  begins : ∀ b ∈ line.2.head?, isBlankOrColon b = false

/-- The bytes of a request. -/
def written (target version : List UInt8) (lines : List (List UInt8 × List UInt8)) : List UInt8 :=
  ascii "GET " ++ target ++ [32] ++ version ++ crlf ++ linesOf lines ++ crlf

section Written

variable {line : List UInt8 × List UInt8} {lines : List (List UInt8 × List UInt8)}

theorem HeaderLine.first (plain : HeaderLine line) (tail : List UInt8) :
    ∃ b rest, lineOf line ++ tail = b :: rest ∧ isKeyByte b = true ∧ b ≠ 9 := by
  obtain ⟨b, name, named⟩ := List.exists_cons_of_ne_nil plain.nonempty
  refine ⟨b, name ++ 58 :: 32 :: line.2 ++ crlf ++ tail, ?_, plain.name b (by simp [named])⟩
  simp [lineOf, named]

/-- What is left of a value behind the blanks and colons before it. -/
theorem HeaderLine.atValue (plain : HeaderLine line) (tail : List UInt8) :
    ((lineOf line ++ tail).dropWhile isKeyByte).dropWhile isBlankOrColon = line.2 ++ 13 :: (10 :: tail) := by
  have spelled : lineOf line ++ tail = line.1 ++ 58 :: 32 :: (line.2 ++ 13 :: (10 :: tail)) := by simp [lineOf, crlf]
  have own : line.2.dropWhile isBlankOrColon = line.2 := by
    cases hvalue : line.2 with
    | nil => rfl
    | cons b value =>
      have := plain.begins b (by simp [hvalue])
      rw [List.dropWhile_cons_of_neg (by simp [this])]
  rw [spelled, dropWhile_append_all (by decide) fun b hb => (plain.name b hb).1, List.dropWhile_cons_of_pos (by decide),
    List.dropWhile_cons_of_pos (by decide), dropWhile_append_stop (by decide), own]

/-- A round reads a line, and the blank line with the last one. -/
theorem collectHeaders_line (plain : HeaderLine line) {tail : List UInt8} (headers : Headers)
    (hnext : tail = crlf ∨ ∃ b rest, tail = b :: rest ∧ isKeyByte b = true ∧ b ≠ 9) :
    collectHeaders (lineOf line ++ tail) headers =
      collectHeaders (if tail = crlf then [] else tail) (headers.emplace line.1 line.2) := by
  have key : (lineOf line ++ tail).takeWhile isKeyByte = line.1 := by
    have spelled : lineOf line ++ tail = line.1 ++ 58 :: (32 :: (line.2 ++ crlf ++ tail)) := by simp [lineOf]
    rw [spelled, takeWhile_append_stop (by decide) fun b hb => (plain.name b hb).1]
  have value := takeWhile_append_stop (p := isNotCrLf) (c := 13) (by decide) plain.value (10 :: tail)
  have after : afterHeader (lineOf line ++ tail) = if tail = crlf then [] else tail := by
    rw [afterHeader, plain.atValue, dropWhile_append_all (by decide) plain.value,
      List.dropWhile_cons_of_pos (by decide), List.dropWhile_cons_of_pos (by decide)]
    rcases hnext with rfl | ⟨b, rest, rfl, keyByte, _⟩
    · rfl
    · have stops : ¬isBlankOrCrLf b = true := by simp_all [isKeyByte, isBlankOrCrLf]
      have other : b :: rest ≠ crlf := by
        rintro h
        obtain ⟨rfl, -⟩ := List.cons.inj h
        exact stops (by decide)
      rw [List.dropWhile_cons_of_neg stops, if_neg other]
  obtain ⟨b, rest, begins, -⟩ := plain.first tail
  rw [collectHeaders, dif_pos (by rw [begins]; simp)]
  simp only [key, plain.atValue, value, after]

def addHeader (headers : Headers) (line : List UInt8 × List UInt8) : Headers := headers.emplace line.1 line.2

theorem collectHeaders_lines (plain : ∀ line ∈ lines, HeaderLine line) (nonempty : lines ≠ []) (headers : Headers) :
    collectHeaders (linesOf lines ++ crlf) headers = lines.foldl addHeader headers := by
  induction lines generalizing headers with
  | nil => exact absurd rfl nonempty
  | cons line lines ih =>
    have here := plain line List.mem_cons_self
    have others := fun l hl => plain l (List.mem_cons_of_mem line hl)
    rw [linesOf, List.flatMap_cons, List.append_assoc, List.foldl_cons]
    by_cases last : lines = []
    · subst last
      rw [List.flatMap_nil, List.nil_append, collectHeaders_line here headers (.inl rfl), if_pos rfl, collectHeaders]
      rfl
    · obtain ⟨next, more, rfl⟩ := List.exists_cons_of_ne_nil last
      obtain ⟨b, rest, begins, keyByte⟩ := (others next List.mem_cons_self).first (linesOf more ++ crlf)
      have spelled : (next :: more).flatMap lineOf ++ crlf = b :: rest := by
        rw [List.flatMap_cons, List.append_assoc]
        exact begins
      have other : ¬b :: rest = crlf := by
        intro h
        obtain ⟨rfl, -⟩ := List.cons.inj h
        exact absurd keyByte.1 (by decide)
      rw [collectHeaders_line here headers (.inr ⟨b, rest, spelled, keyByte⟩), spelled, if_neg other, ← spelled]
      exact ih others last _

theorem lookup_emplace (headers : Headers) (key value k : List UInt8) :
    (headers.emplace key value).lookup k = (headers.lookup k).or (if k = key then some value else none) := by
  unfold Headers.emplace
  split
  next present =>
    by_cases same : k = key
    · subst same
      obtain ⟨⟨k', v⟩, mem, hk⟩ := List.any_eq_true.mp present
      have found : (headers.lookup k).isSome := by
        rw [List.lookup_isSome_iff]
        exact ⟨(k', v), mem, by simpa using (decide_eq_true_eq.mp hk).symm⟩
      obtain ⟨w, hw⟩ := Option.isSome_iff_exists.mp found
      rw [hw, Option.some_or]
    · rw [if_neg same, Option.or_none]
  next absent =>
    rw [List.lookup_append, List.lookup_cons, List.lookup_nil]
    by_cases same : k = key
    · rw [if_pos same, beq_iff_eq.mpr same]
    · rw [if_neg same, beq_eq_false_iff_ne.mpr same]

/-- The first value of a name stays. -/
theorem lookup_foldl_emplace (headers : Headers) (k : List UInt8) :
    (lines.foldl addHeader headers).lookup k = (headers.lookup k).or (lines.lookup k) := by
  induction lines generalizing headers with
  | nil => rw [List.foldl_nil, List.lookup_nil, Option.or_none]
  | cons line lines ih =>
    rw [List.foldl_cons, ih, addHeader, lookup_emplace, Option.or_assoc, List.lookup_cons]
    by_cases same : k = line.1
    · rw [if_pos same, beq_iff_eq.mpr same, Option.some_or]
    · rw [if_neg same, beq_eq_false_iff_ne.mpr same, Option.none_or]

theorem get_written (target version : List UInt8) (lines : List (List UInt8 × List UInt8)) :
    ascii "GET " <+: written target version lines :=
  ⟨target ++ [32] ++ version ++ crlf ++ linesOf lines ++ crlf, by simp [written]⟩

/-- The version may be empty, and then the line break ends the blanks behind the target. -/
theorem behindTarget_of_line {target version : List UInt8} (more : List UInt8)
    (htarget : ∀ b ∈ target, isBlankOrTab b = false) (hversion : ∀ b ∈ version, isVersionByte b = true) :
    behindTarget (target ++ 32 :: (version ++ 13 :: more)) = version ++ 13 :: more := by
  have all : ∀ b ∈ target, (!isBlankOrTab b) = true := fun b hb => by rw [htarget b hb]; rfl
  rw [behindTarget, dropWhile_append_all (by decide) all, List.dropWhile_cons_of_pos (by decide)]
  cases version with
  | nil => exact List.dropWhile_cons_of_neg (by decide)
  | cons b version =>
    have := hversion b List.mem_cons_self
    exact List.dropWhile_cons_of_neg (by simp_all [isVersionByte])

/-- The target, and where the headers begin: at a byte of a name. -/
theorem parts_of_block {target version : List UInt8} {b : UInt8} (more : List UInt8) (htarget : ∀ b ∈ target, isBlankOrTab b = false)
    (hversion : ∀ b ∈ version, isVersionByte b = true) (keyByte : isKeyByte b = true) (tab : b ≠ 9) :
    (Members.parts (target ++ 32 :: (version ++ 13 :: (10 :: (b :: more))))).requestTarget = target ∧
      behindVersion (behindTarget (target ++ 32 :: (version ++ 13 :: (10 :: (b :: more))))) = b :: more := by
  have all : ∀ b ∈ target, (!isBlankOrTab b) = true := fun b hb => by rw [htarget b hb]; rfl
  constructor
  · exact takeWhile_append_stop (by decide) all _
  · have stops : ¬isLineSpace b = true := by simp_all [isKeyByte, isLineSpace, isCrLf, isBlankOrTab]
    rw [behindTarget_of_line _ htarget hversion, behindVersion, dropWhile_append_all (by decide) hversion,
      List.dropWhile_cons_of_pos (by decide), List.dropWhile_cons_of_pos (by decide), List.dropWhile_cons_of_neg stops]

theorem written_drop (target version : List UInt8) (lines : List (List UInt8 × List UInt8)) :
    (written target version lines).drop 4 = target ++ 32 :: (version ++ 13 :: (10 :: (linesOf lines ++ crlf))) := by
  have four : (ascii "GET ").length = 4 := by decide
  simp only [written, List.append_assoc, ← four, List.drop_left]
  simp [crlf]

theorem parts_written {target version : List UInt8} (htarget : ∀ b ∈ target, isBlankOrTab b = false)
    (hversion : ∀ b ∈ version, isVersionByte b = true) (plain : ∀ line ∈ lines, HeaderLine line)
    (nonempty : lines ≠ []) :
    (Members.parts ((written target version lines).drop 4)).requestTarget = target ∧
      behindVersion (behindTarget ((written target version lines).drop 4)) = linesOf lines ++ crlf := by
  obtain ⟨line, lines, rfl⟩ := List.exists_cons_of_ne_nil nonempty
  obtain ⟨b, more, begins, keyByte, tab⟩ := (plain line List.mem_cons_self).first (linesOf lines ++ crlf)
  have headers : linesOf (line :: lines) ++ crlf = b :: more := by
    rw [linesOf, List.flatMap_cons, List.append_assoc]
    exact begins
  rw [written_drop, headers]
  exact parts_of_block _ htarget hversion keyByte tab

end Written

/-- A request as it is written is recovered: its target, and for every name the value of the first header of that name. -/
theorem parse_recovers (m : Members) (target version : List UInt8) (lines : List (List UInt8 × List UInt8))
    (ref : List UInt8) (htarget : ∀ b ∈ target, isBlankOrTab b = false)
    (hversion : ∀ b ∈ version, isVersionByte b = true) (plain : ∀ line ∈ lines, HeaderLine line) (nonempty : lines ≠ [])
    (stored : Stored ref (written target version lines)) :
    let parsed := m.clear.parse ref (written target version lines).length
    parsed.2 = none ∧ parsed.1.getRequestTarget = target ∧ ∀ k, parsed.1.get k = (lines.lookup k).getD [] := by
  obtain ⟨targeted, headersAt⟩ := parts_written htarget hversion plain nonempty
  have headers : (Members.parts ((written target version lines).drop 4)).mHeaders = lines.foldl addHeader [] := by
    rw [Members.parts, headersAt, collectHeaders_lines plain nonempty]
  have found (k : List UInt8) : (Members.parts ((written target version lines).drop 4)).mHeaders.lookup k =
      lines.lookup k := by
    rw [headers, lookup_foldl_emplace, List.lookup_nil, Option.none_or]
  rw [Members.parse_get m stored (get_written target version lines)]
  refine ⟨?_, targeted, fun k => congrArg (Option.getD · []) (found k)⟩
  obtain ⟨line, lines, rfl⟩ := List.exists_cons_of_ne_nil nonempty
  exact Members.noHeaders_eq_none_iff.mpr ⟨line.1, line.2, (found line.1).trans List.lookup_cons_self⟩

/-- A header without a value before another of the same name. -/
def twice : List (List UInt8 × List UInt8) := [(ascii "Origin", []), (ascii "Origin", ascii "a: b")]

theorem twice_plain : ∀ line ∈ twice, HeaderLine line := by
  intro line hline
  simp only [twice, List.mem_cons, List.not_mem_nil, or_false] at hline
  rcases hline with rfl | rfl
  · exact ⟨by decide, by decide +kernel, by decide +kernel, by decide +kernel⟩
  · exact ⟨by decide, by decide +kernel, by decide +kernel, by decide +kernel⟩

/-- The buffer with a request in it. -/
def bufferOf (bytes : List UInt8) : List UInt8 := bytes ++ List.replicate (1024 - bytes.length) 0

theorem stored_bufferOf {bytes : List UInt8} (fits : bytes.length ≤ 1024) : Stored (bufferOf bytes) bytes :=
  ⟨by simp [bufferOf]; omega, List.prefix_append ..⟩

theorem parse_recovers_twice :
    (Members.new.clear.parse (bufferOf (written (ascii "/") (ascii "HTTP/1.1") twice))
      (written (ascii "/") (ascii "HTTP/1.1") twice).length).1.get (ascii "Origin") = [] :=
  (parse_recovers Members.new (ascii "/") (ascii "HTTP/1.1") twice _ (by decide +kernel) (by decide +kernel) twice_plain
    (by decide) (stored_bufferOf (by decide +kernel))).2.2 (ascii "Origin")

end LAppS.HTTPRequestParser
