import LAppS.Shakespeer.Request
import Mathlib.Data.List.TakeWhile

/-!
# A line break before a request

Behind a CRLF the request line is read two bytes too early: the target is the `T` of `GET`, the target of the request
is skipped as the version, and the version is read as a header line. For which requests this changes nothing is told
from the lines of their text.
-/

namespace LAppS.HTTPRequestParser
open ClientWebSocket

/-! ### The lines of a text -/

/-- The header that a line spells: a name up to a blank or a colon, and what follows the blanks and colons behind
it. -/
def headerOf (line : List UInt8) : List UInt8 × List UInt8 :=
  (line.takeWhile isKeyByte, (line.dropWhile isKeyByte).dropWhile isBlankOrColon)

/-- The lines of a text without the blanks before them; a line of blanks is none. -/
def textLines (text : List UInt8) : List (List UInt8) :=
  ((text.splitOnP isCrLf).map (·.dropWhile (· = 32))).filter (!·.isEmpty)

/-- The headers that the lines of a text spell, in their order. -/
def spelled (text : List UInt8) : Headers := (textLines text).map headerOf

section Lines

variable {p q : UInt8 → Bool} {b : UInt8} {text : List UInt8}

theorem dropWhile_dropWhile (h : ∀ b, p b = true → q b = true) (xs : List UInt8) :
    (xs.dropWhile p).dropWhile q = xs.dropWhile q := by
  induction xs with
  | nil => rfl
  | cons b xs ih =>
    by_cases hb : p b = true
    · rw [List.dropWhile_cons_of_pos hb, List.dropWhile_cons_of_pos (h b hb), ih]
    · rw [List.dropWhile_cons_of_neg hb]

theorem dropWhile_takeWhile (h : ∀ b, p b = true → q b = true) (xs : List UInt8) :
    (xs.takeWhile q).dropWhile p = (xs.dropWhile p).takeWhile q := by
  induction xs with
  | nil => rfl
  | cons b xs ih =>
    by_cases hb : p b = true
    · rw [List.takeWhile_cons_of_pos (h b hb), List.dropWhile_cons_of_pos hb, List.dropWhile_cons_of_pos hb, ih]
    · rw [List.dropWhile_cons_of_neg hb]
      by_cases hq : q b = true
      · rw [List.takeWhile_cons_of_pos hq, List.dropWhile_cons_of_neg hb]
      · rw [List.takeWhile_cons_of_neg hq, List.dropWhile_nil]

theorem takeWhile_takeWhile (h : ∀ b, p b = true → q b = true) (xs : List UInt8) :
    (xs.takeWhile q).takeWhile p = xs.takeWhile p := by
  have both : (fun b => decide (p b = true ∧ q b = true)) = p := by
    funext b
    rw [Bool.eq_iff_iff, decide_eq_true_eq]
    exact and_iff_left_of_imp (h b)
  rw [List.takeWhile_takeWhile, both]

theorem any_head?_dropWhile (p : UInt8 → Bool) (xs : List UInt8) : (xs.dropWhile p).head?.any p = false := by
  have stops := List.head?_dropWhile_not p xs
  cases rest : xs.dropWhile p with
  | nil => rfl
  | cons b tail =>
    rw [rest, List.head?_cons] at stops
    simpa using stops

theorem any_head?_mono (h : ∀ b, p b = true → q b = true) (hq : text.head?.any q = false) :
    text.head?.any p = false := by
  cases text with
  | nil => rfl
  | cons b text => exact Bool.eq_false_iff.mpr fun hp => Bool.eq_false_iff.mp hq (h b hp)

theorem isNotCrLf_iff : isNotCrLf b = true ↔ isCrLf b = false := by simp [isNotCrLf, isCrLf]

theorem isBlankOrCrLf_of_isCrLf (h : isCrLf b = true) : isBlankOrCrLf b = true := by
  simp only [isCrLf, Bool.or_eq_true, decide_eq_true_eq] at h
  rcases h with rfl | rfl <;> decide

theorem isLineSpace_of_isBlankOrCrLf (h : isBlankOrCrLf b = true) : isLineSpace b = true := by
  simp only [isBlankOrCrLf, Bool.or_eq_true, decide_eq_true_eq] at h
  rcases h with (rfl | rfl) | rfl <;> decide

theorem isLineSpace_of_isVersionByte (h : isVersionByte b = true) : isLineSpace b = false := by
  simp_all [isVersionByte, isLineSpace, isNotCrLf, isCrLf]

theorem isNotCrLf_of_isKeyByte (h : isKeyByte b = true) : isNotCrLf b = true := by simp_all [isKeyByte, isNotCrLf]

theorem isNotCrLf_of_isBlankOrColon (h : isBlankOrColon b = true) : isNotCrLf b = true := by
  simp only [isBlankOrColon, Bool.or_eq_true, decide_eq_true_eq] at h
  rcases h with (rfl | rfl) | rfl <;> decide

theorem textLines_append (xs text : List UInt8) (hb : isCrLf b = true) :
    textLines (xs ++ b :: text) = textLines xs ++ textLines text := by
  rw [textLines, List.splitOnP_append_cons xs text hb, List.map_append, List.filter_append]
  rfl

theorem textLines_cons (hb : isBlankOrCrLf b = true) (text : List UInt8) : textLines (b :: text) = textLines text := by
  by_cases crlf : isCrLf b = true
  · exact textLines_append [] text crlf
  · have blank : b = 32 := by simp_all [isBlankOrCrLf, isCrLf]
    obtain ⟨line, lines, split⟩ := List.exists_cons_of_ne_nil (List.splitOnP_ne_nil isCrLf text)
    rw [textLines, textLines, List.splitOnP_cons_eq_if_modifyHead, if_neg crlf, split, List.modifyHead_cons,
      List.map_cons, List.map_cons, List.dropWhile_cons_of_pos (by rw [blank]; rfl)]

/-- The blanks and line breaks before a text are no part of its lines. -/
theorem textLines_dropWhile (text : List UInt8) : textLines (text.dropWhile isBlankOrCrLf) = textLines text := by
  induction text with
  | nil => rfl
  | cons b text ih =>
    by_cases hb : isBlankOrCrLf b = true
    · rw [List.dropWhile_cons_of_pos hb, ih, textLines_cons hb]
    · rw [List.dropWhile_cons_of_neg hb]

theorem textLines_line (hb : isBlankOrCrLf b = false) {line : List UInt8} (one : ∀ c ∈ b :: line, isNotCrLf c = true) :
    textLines (b :: line) = [b :: line] := by
  have blank : b ≠ 32 := by simp_all [isBlankOrCrLf]
  rw [textLines, List.splitOnP_eq_singleton fun c hc => isNotCrLf_iff.mp (one c hc), List.map_singleton,
    List.dropWhile_cons_of_neg (by simpa using blank)]
  rfl

/-- What begins with a line break has lines of its own. -/
theorem spelled_append (xs text : List UInt8) :
    spelled (xs ++ text.dropWhile isNotCrLf) = spelled xs ++ spelled (text.dropWhile isNotCrLf) := by
  cases rest : text.dropWhile isNotCrLf with
  | nil => exact (congrArg spelled (List.append_nil xs)).trans (List.append_nil _).symm
  | cons c tail =>
    have stops : isCrLf c = true := by
      have := any_head?_dropWhile isNotCrLf text
      rw [rest] at this
      simpa [isNotCrLf, isCrLf, Decidable.or_iff_not_imp_left] using this
    rw [spelled, textLines_append _ _ stops, List.map_append, spelled, spelled,
      textLines_cons (isBlankOrCrLf_of_isCrLf stops)]

/-- A round of the loop reads the header of a line. -/
theorem headerOf_line (text : List UInt8) : headerOf (text.takeWhile isNotCrLf) =
    (text.takeWhile isKeyByte, ((text.dropWhile isKeyByte).dropWhile isBlankOrColon).takeWhile isNotCrLf) := by
  rw [headerOf, takeWhile_takeWhile fun _ => isNotCrLf_of_isKeyByte, dropWhile_takeWhile fun _ => isNotCrLf_of_isKeyByte,
    dropWhile_takeWhile fun _ => isNotCrLf_of_isBlankOrColon]

theorem afterHeader_eq (text : List UInt8) :
    afterHeader text = (text.dropWhile isNotCrLf).dropWhile isBlankOrCrLf := by
  rw [afterHeader, dropWhile_dropWhile fun _ => isNotCrLf_of_isBlankOrColon,
    dropWhile_dropWhile fun _ => isNotCrLf_of_isKeyByte]

/-- The headers that are collected are those that the lines spell, the first one of each name. -/
theorem lookup_collectHeaders (text : List UInt8) (headers : Headers) (begins : text.head?.any isBlankOrCrLf = false)
    (k : List UInt8) : (collectHeaders text headers).lookup k = (headers.lookup k).or ((spelled text).lookup k) := by
  fun_induction collectHeaders text headers with
  | case1 text headers hne key value ih =>
    obtain ⟨b, rest, rfl⟩ := List.exists_cons_of_ne_nil hne
    have hb : isBlankOrCrLf b = false := begins
    have inLine : isNotCrLf b = true := by simp_all [isBlankOrCrLf, isNotCrLf]
    have next : spelled (afterHeader (b :: rest)) = spelled ((b :: rest).dropWhile isNotCrLf) := by
      rw [spelled, afterHeader_eq, textLines_dropWhile]
      rfl
    have line : spelled ((b :: rest).takeWhile isNotCrLf) = [(key, value)] := by
      have one : ∀ c ∈ (b :: rest).takeWhile isNotCrLf, isNotCrLf c = true := fun c hc => List.mem_takeWhile_imp hc
      have header := headerOf_line (b :: rest)
      rw [List.takeWhile_cons_of_pos inLine] at one header ⊢
      rw [spelled, textLines_line hb one, List.map_singleton, header]
    have split : spelled (b :: rest) =
        spelled ((b :: rest).takeWhile isNotCrLf) ++ spelled ((b :: rest).dropWhile isNotCrLf) := by
      rw [← spelled_append, List.takeWhile_append_dropWhile]
    have stops : (afterHeader (b :: rest)).head?.any isBlankOrCrLf = false := by
      rw [afterHeader_eq]
      exact any_head?_dropWhile ..
    rw [ih stops, next, lookup_emplace, split, line, List.lookup_append, List.lookup_cons,
      List.lookup_nil, Option.or_assoc]
    by_cases same : k = key
    · rw [if_pos same, beq_iff_eq.mpr same]
    · rw [if_neg same, beq_eq_false_iff_ne.mpr same]
  | case2 text headers hnil =>
    rw [not_not.mp hnil]
    exact (Option.or_none).symm

end Lines

/-! ### A line break before the request -/

/-- The second outcome is a success with the target and the headers of the first. -/
structure SameRequest (parsed parsed' : Members × Option String) : Prop where
  succeeds : parsed'.2 = none
  target : parsed'.1.getRequestTarget = parsed.1.getRequestTarget
  headers : ∀ k, parsed'.1.mHeaders.lookup k = parsed.1.mHeaders.lookup k

/-- The first header line of a request, of which `text` follows the target. -/
def firstLine (text : List UInt8) : List UInt8 := (behindVersion text).takeWhile isNotCrLf

/-- What stands from behind the target to the end of the first header line. -/
def opening (text : List UInt8) : List UInt8 :=
  text.takeWhile isVersionByte ++ (text.dropWhile isVersionByte).takeWhile isLineSpace ++ firstLine text

/-- The value that the first line of a name has is also that of the first of these other lines that have the name. -/
def Repeated (lines others : Headers) : Prop := ∀ k v, lines.lookup k = some v → others.lookup k = some v

/-- The target is the letter in which `GET` ends. There is no version, or the lines up to the first header line, that
of the version among them, repeat header lines of the request, and the first header line is not lost by them. -/
structure Aligned (r : List UInt8) : Prop where
  target : (r.drop 4).takeWhile (fun b => !isBlankOrTab b) = ascii "T"
  lines : (behindTarget (r.drop 4)).takeWhile isVersionByte = [] ∨
    Repeated (spelled (opening (behindTarget (r.drop 4)))) (spelled (behindVersion (behindTarget (r.drop 4)))) ∧
      Repeated (spelled (firstLine (behindTarget (r.drop 4)))) (spelled (behindTarget (r.drop 4)))

theorem lookup_append_eq_iff {lines lines' others : Headers} :
    (∀ k, (lines ++ others).lookup k = (lines' ++ others).lookup k) ↔
      Repeated lines (lines' ++ others) ∧ Repeated lines' (lines ++ others) := by
  constructor
  · intro same
    refine ⟨fun k v found => ?_, fun k v found => ?_⟩
    · rw [← same, List.lookup_append, found, Option.some_or]
    · rw [same, List.lookup_append, found, Option.some_or]
  · rintro ⟨repeated, repeated'⟩ k
    cases found : lines.lookup k with
    | some v => rw [repeated k v found, List.lookup_append, found, Option.some_or]
    | none =>
      cases found' : lines'.lookup k with
      | some v => rw [repeated' k v found', List.lookup_append, found', Option.some_or]
      | none => rw [List.lookup_append, List.lookup_append, found, found']

/-- Behind a line break the target is the `T` of `GET`, and the target of the request is read as the version. -/
theorem parts_crlf {r : List UInt8} (get : ascii "GET " <+: r) :
    (Members.parts (r.drop 2)).requestTarget = ascii "T" ∧
      (Members.parts (r.drop 2)).mHeaders = collectHeaders (behindVersion ((r.drop 4).dropWhile isBlankOrTab)) [] := by
  obtain ⟨t, rfl⟩ := get
  constructor
  · rfl
  · rfl

/-- A target `T` is skipped as a version is. -/
theorem headers_behind_T {t : List UInt8} (target : t.takeWhile (fun b => !isBlankOrTab b) = ascii "T") :
    behindVersion (t.dropWhile isBlankOrTab) = (behindTarget t).dropWhile isLineSpace := by
  have split : t = 84 :: t.dropWhile fun b => !isBlankOrTab b := by
    have := List.takeWhile_append_dropWhile (p := fun b => !isBlankOrTab b) (l := t)
    rw [target] at this
    exact this.symm
  have ends : (t.dropWhile fun b => !isBlankOrTab b).dropWhile isVersionByte = t.dropWhile fun b => !isBlankOrTab b := by
    cases rest : t.dropWhile fun b => !isBlankOrTab b with
    | nil => rfl
    | cons b u =>
      have blank : isBlankOrTab b = true := by
        have stops := any_head?_dropWhile (fun b => !isBlankOrTab b) t
        rw [rest] at stops
        simpa using stops
      exact List.dropWhile_cons_of_neg (by simp [isVersionByte, blank])
  have blanks : ∀ b, isBlankOrTab b = true → isLineSpace b = true := fun b hb => by simp [isLineSpace, hb]
  rw [behindTarget, dropWhile_dropWhile blanks]
  generalize (t.dropWhile fun b => !isBlankOrTab b) = u at split ends
  subst split
  rw [List.dropWhile_cons_of_neg (by decide), behindVersion, List.dropWhile_cons_of_pos (by decide), ends]

/-- With a version, its line is read as a header line where the line break is in front. -/
theorem lookup_behind_iff {text : List UInt8} :
    (∀ k, (collectHeaders (text.dropWhile isLineSpace) []).lookup k = (collectHeaders (behindVersion text) []).lookup k) ↔
      text.takeWhile isVersionByte = [] ∨ Repeated (spelled (opening text)) (spelled (behindVersion text)) ∧
        Repeated (spelled (firstLine text)) (spelled text) := by
  by_cases version : text.takeWhile isVersionByte = []
  · have none : text.dropWhile isVersionByte = text := by
      have := List.takeWhile_append_dropWhile (p := isVersionByte) (l := text)
      rwa [version, List.nil_append] at this
    refine iff_of_true (fun k => ?_) (.inl version)
    rw [behindVersion, none]
  · have own : behindVersion text = firstLine text ++ (behindVersion text).dropWhile isNotCrLf :=
      List.takeWhile_append_dropWhile.symm
    have whole : text = opening text ++ (behindVersion text).dropWhile isNotCrLf := by
      rw [opening, List.append_assoc, ← own, List.append_assoc, behindVersion, List.takeWhile_append_dropWhile,
        List.takeWhile_append_dropWhile]
    have ownLines : spelled (behindVersion text) =
        spelled (firstLine text) ++ spelled ((behindVersion text).dropWhile isNotCrLf) := by
      rw [← spelled_append, ← own]
    have lines : spelled text = spelled (opening text) ++ spelled ((behindVersion text).dropWhile isNotCrLf) := by
      rw [← spelled_append, ← whole]
    obtain ⟨b, rest, rfl⟩ : ∃ b rest, text = b :: rest := by
      refine List.exists_cons_of_ne_nil ?_
      rintro rfl
      exact version rfl
    have hb : isVersionByte b = true := by
      by_contra hb
      exact version (List.takeWhile_cons_of_neg hb)
    have begins := isLineSpace_of_isVersionByte hb
    have others : (behindVersion (b :: rest)).head?.any isBlankOrCrLf = false :=
      any_head?_mono (fun _ => isLineSpace_of_isBlankOrCrLf) (any_head?_dropWhile ..)
    have here : (b :: rest).head?.any isBlankOrCrLf = false :=
      any_head?_mono (fun _ => isLineSpace_of_isBlankOrCrLf) begins
    rw [List.dropWhile_cons_of_neg (by simp [begins]), or_iff_right version]
    simp only [lookup_collectHeaders _ _ here, lookup_collectHeaders _ _ others, List.lookup_nil, Option.none_or]
    rw [lines, ownLines]
    exact lookup_append_eq_iff

theorem aligned_iff {r : List UInt8} :
    Aligned r ↔ (r.drop 4).takeWhile (fun b => !isBlankOrTab b) = ascii "T" ∧
      ∀ k, (collectHeaders ((behindTarget (r.drop 4)).dropWhile isLineSpace) []).lookup k =
        (collectHeaders (behindVersion (behindTarget (r.drop 4))) []).lookup k :=
  ⟨fun aligned => ⟨aligned.target, lookup_behind_iff.mpr aligned.lines⟩,
    fun ⟨target, lookups⟩ => ⟨target, lookup_behind_iff.mp lookups⟩⟩

/-- The line break is ignored exactly for the requests that it does not matter for. -/
theorem crlf_ignored_iff (m m' : Members) {r ref ref' : List UInt8} (get : ascii "GET " <+: r) (stored : Stored ref r)
    (stored' : Stored ref' (crlf ++ r)) (succeeds : (m.clear.parse ref r.length).2 = none) :
    SameRequest (m.clear.parse ref r.length) (m'.clear.parse ref' (crlf ++ r).length) ↔ Aligned r := by
  obtain ⟨target', headers'⟩ := parts_crlf get
  rw [Members.parse_get m stored get] at succeeds ⊢
  rw [Members.parse_crlf m' stored' get, aligned_iff]
  constructor
  · intro h
    have target : (r.drop 4).takeWhile (fun b => !isBlankOrTab b) = ascii "T" := h.target.symm.trans target'
    refine ⟨target, fun k => ?_⟩
    rw [← headers_behind_T target, ← headers']
    exact h.headers k
  · rintro ⟨target, headers⟩
    have lookups (k : List UInt8) : (Members.parts (r.drop 2)).mHeaders.lookup k =
        (Members.parts (r.drop 4)).mHeaders.lookup k := by
      rw [headers', headers_behind_T target]
      exact headers k
    refine ⟨?_, target'.trans target.symm, lookups⟩
    obtain ⟨k, v, found⟩ := Members.noHeaders_eq_none_iff.mp succeeds
    exact Members.noHeaders_eq_none_iff.mpr ⟨k, v, (lookups k).trans found⟩

/-- For a request as it is written: the target is `T`, and there is no version, or a header repeats it. -/
theorem aligned_written {target version : List UInt8} {lines : List (List UInt8 × List UInt8)}
    (htarget : ∀ b ∈ target, isBlankOrTab b = false) (hversion : ∀ b ∈ version, isVersionByte b = true)
    (plain : ∀ line ∈ lines, HeaderLine line) (nonempty : lines ≠ []) :
    Aligned (written target version lines) ↔
      target = ascii "T" ∧ (version = [] ∨ lines.lookup (headerOf version).1 = some (headerOf version).2) := by
  obtain ⟨targeted, headersAt⟩ := parts_written htarget hversion plain nonempty
  have text : behindTarget ((written target version lines).drop 4) =
      version ++ 13 :: (10 :: (linesOf lines ++ crlf)) := by
    rw [written_drop, behindTarget_of_line _ htarget hversion]
  have found (k : List UInt8) : (collectHeaders (linesOf lines ++ crlf) []).lookup k = lines.lookup k := by
    rw [collectHeaders_lines plain nonempty, lookup_foldl_emplace, List.lookup_nil, Option.none_or]
  have lookup_spelled (k : List UInt8) : (spelled (linesOf lines ++ crlf)).lookup k = lines.lookup k := by
    have begins : (linesOf lines ++ crlf).head?.any isBlankOrCrLf = false := by
      rw [← headersAt]
      exact any_head?_mono (fun _ => isLineSpace_of_isBlankOrCrLf) (any_head?_dropWhile ..)
    rw [← found, lookup_collectHeaders _ _ begins]
    rfl
  rw [aligned_iff, headersAt, text]
  refine and_congr (Eq.congr_left targeted) ?_
  cases version with
  | nil =>
    refine iff_of_true ?_ (.inl rfl)
    rw [← text, ← headersAt]
    exact lookup_behind_iff.mpr (.inl (by rw [text]; rfl))
  | cons b version =>
    have hb := isLineSpace_of_isVersionByte (hversion b List.mem_cons_self)
    have hb' : isBlankOrCrLf b = false :=
      Bool.eq_false_iff.mpr fun h => Bool.eq_false_iff.mp hb (isLineSpace_of_isBlankOrCrLf h)
    have inLine : ∀ c ∈ b :: version, isNotCrLf c = true := fun c hc =>
      (Bool.and_eq_true _ _ ▸ hversion c hc : _ ∧ _).1
    have lines' : spelled (b :: version ++ 13 :: (10 :: (linesOf lines ++ crlf))) =
        headerOf (b :: version) :: spelled (linesOf lines ++ crlf) := by
      rw [spelled, textLines_append _ _ (by decide), textLines_line hb' inLine, textLines_cons (by decide)]
      rfl
    rw [List.cons_append, List.dropWhile_cons_of_neg (by simp [hb]), ← List.cons_append]
    simp only [lookup_collectHeaders (b :: version ++ _) [] hb', lines', found, List.lookup_nil,
      Option.none_or, reduceCtorEq, false_or]
    constructor
    · intro same
      rw [← same]
      exact List.lookup_cons_self
    · intro repeated k
      rw [List.lookup_cons]
      cases own : k == (headerOf (b :: version)).1 with
      | true => rw [beq_iff_eq.mp own, repeated]
      | false => rw [lookup_spelled]

/-- A request for `T` that has its version for a header, too. -/
def versioned : List UInt8 := written (ascii "T") (ascii "HTTP/1.1") [(ascii "HTTP/1.1", [])]

set_option maxRecDepth 4096 in
theorem versioned_aligned : Aligned versioned := by
  refine (aligned_written (by decide) (by decide) ?_ (by decide)).mpr ⟨rfl, .inr (by decide)⟩
  intro line hline
  rw [List.mem_singleton.mp hline]
  exact ⟨by decide, by decide, by decide, by decide⟩

theorem crlf_ignored_versioned :
    SameRequest (Members.new.clear.parse (bufferOf versioned) versioned.length)
      (Members.new.clear.parse (bufferOf (crlf ++ versioned)) (crlf ++ versioned).length) :=
  (crlf_ignored_iff Members.new Members.new (get_written ..) (stored_bufferOf (by decide +kernel))
    (stored_bufferOf (by decide +kernel)) (by decide +kernel)).mpr versioned_aligned

/-- The target of a usual request is another one behind a line break. -/
theorem crlf_ignored_counterexample :
    let r := Shakespeer.upgradeRequest (ascii "/echo")
    let parsed := Members.new.clear.parse (bufferOf r) r.length
    let parsed' := Members.new.clear.parse (bufferOf (crlf ++ r)) (crlf ++ r).length
    ascii "GET " <+: r ∧ (crlf ++ r).length ≤ 1024 ∧ parsed.2 = none ∧ parsed.1.getRequestTarget = ascii "/echo" ∧
      parsed'.2 = none ∧ parsed'.1.getRequestTarget = ascii "T" := by
  decide +kernel

end LAppS.HTTPRequestParser
