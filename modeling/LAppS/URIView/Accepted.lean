import LAppS.URIView.Parse

/-!
# Accepted URIs

What `parse_uri` has read when it accepts a URI, stage by stage. It goes through the scanners from the scheme to the
path; behind a path nothing is left, or a line feed with anything behind it.
-/

namespace LAppS.URIView
open Regex Grammar

/-! ### The words of the rules -/

theorem mem_char {a : UInt8} {w : List UInt8} : w ∈ (char a).lang ↔ w = [a] := by
  constructor
  · rintro ⟨b, inside, rfl⟩
    have : a ≤ b ∧ b ≤ a := by simpa [inRanges] using inside
    rw [UInt8.le_antisymm this.2 this.1]
  · rintro rfl
    exact ⟨a, by simp [inRanges], rfl⟩

theorem mem_string {s w : List UInt8} : w ∈ (string s).lang ↔ w = s := by
  induction s generalizing w with
  | nil => exact Language.mem_one w
  | cons a s ih =>
    show w ∈ (char a).lang * (string s).lang ↔ _
    rw [Language.mem_mul]
    constructor
    · rintro ⟨x, hx, y, hy, rfl⟩
      rw [mem_char.mp hx, ih.mp hy]
      rfl
    · rintro rfl
      exact ⟨[a], mem_char.mpr rfl, s, ih.mpr rfl, rfl⟩

theorem mem_marked {a : UInt8} {r : Rule} {w : List UInt8} : w ∈ (comp (char a) r).lang ↔ ∃ x ∈ r.lang, w = a :: x := by
  show w ∈ (char a).lang * r.lang ↔ _
  rw [Language.mem_mul]
  constructor
  · rintro ⟨x, hx, y, hy, rfl⟩
    exact ⟨y, hy, by rw [mem_char.mp hx]; rfl⟩
  · rintro ⟨x, hx, rfl⟩
    exact ⟨[a], mem_char.mpr rfl, x, hx, rfl⟩

theorem mem_schema {w : List UInt8} : w ∈ Grammar.schema.lang ↔ ∃ s ∈ scheme.lang, w = s ++ schemeEnd := by
  show w ∈ scheme.lang * (string schemeEnd).lang ↔ _
  rw [Language.mem_mul]
  constructor
  · rintro ⟨x, hx, y, hy, rfl⟩
    exact ⟨x, hx, by rw [mem_string.mp hy]⟩
  · rintro ⟨x, hx, rfl⟩
    exact ⟨x, hx, schemeEnd, mem_string.mpr rfl, rfl⟩

/-- A userinfo that matches ends with its only `@`. -/
theorem mem_userinfo {w : List UInt8} (h : w ∈ Grammar.userinfo.lang) : ∃ x, w = x ++ [64] ∧ x ≠ [] := by
  obtain ⟨name, hname, rest, hrest, rfl⟩ := Language.mem_mul.mp h
  obtain ⟨password, _, last, hlast, rfl⟩ := Language.mem_mul.mp hrest
  obtain ⟨at_, hat, nothing, hnothing, rfl⟩ := Language.mem_mul.mp hlast
  rw [mem_char.mp hat, (Language.mem_one _).mp hnothing]
  refine ⟨name ++ password, by simp, ?_⟩
  have nonempty : name ≠ [] := by
    rintro rfl
    exact absurd (nullable_iff.mpr hname) (by decide)
  simp [nonempty]

theorem ne_nil_of_mem {r : Rule} (h : r.nullable = false) {w : List UInt8} (hw : w ∈ r.lang) : w ≠ [] := by
  rintro rfl
  rw [nullable_iff.mpr hw] at h
  cases h

section Path

theorem mem_pathCharset {c : UInt8} (h : inRanges [(0x21, 0x2e), (0x30, 0x7e)] c = true) : [c] ∈ pathCharset.lang :=
  .inr ⟨c, h, rfl⟩

theorem segment_append {x : List UInt8} {c : UInt8} (hx : x ∈ pathSegment.lang) (hc : [c] ∈ pathCharset.lang) :
    x ++ [c] ∈ pathSegment.lang := by
  obtain ⟨y, hy, rfl⟩ := mem_marked.mp hx
  refine mem_marked.mpr ⟨y ++ [c], ?_, rfl⟩
  have same : (many1 pathCharset).lang = (pathCharset.star).lang * pathCharset.lang :=
    (Language.mul_self_kstar_comm _).symm
  rw [same]
  refine Language.append_mem_mul ?_ hc
  show y ∈ pathCharset.star.lang
  have : y ∈ (1 : Language UInt8) + pathCharset.lang * pathCharset.star.lang := .inr hy
  rwa [show pathCharset.star.lang = _ from (Language.one_add_self_mul_kstar_eq_kstar _).symm]

/-- A path goes on with every character of a segment, also with `?` and `#`. -/
theorem path_append {w : List UInt8} {c : UInt8} (hw : w ∈ pathAbempty.lang) (nonempty : w ≠ [])
    (hc : [c] ∈ pathCharset.lang) : w ++ [c] ∈ pathAbempty.lang := by
  have single : [47, c] ∈ pathSegment.lang := by
    refine mem_marked.mpr ⟨[c], ?_, rfl⟩
    exact Language.mem_mul.mpr ⟨[c], hc, [], Language.nil_mem_kstar _, rfl⟩
  have ended {x : List UInt8} (hx : x ∈ pathSegment.star.lang) : x ∈ pathAbempty.lang :=
    .inr (Language.mem_mul.mpr ⟨x, hx, [], .inr (Language.nil_mem_one), List.append_nil x⟩)
  rcases hw with slash | hw
  · rw [mem_char.mp slash]
    refine ended ?_
    exact Language.mem_kstar.mpr ⟨[[47, c]], rfl, by simpa using single⟩
  · obtain ⟨segments, hsegments, last, hlast, rfl⟩ := Language.mem_mul.mp hw
    obtain ⟨parts, rfl, hparts⟩ := Language.mem_kstar.mp hsegments
    rcases hlast with slash | none
    · rw [mem_char.mp slash]
      refine ended (Language.mem_kstar.mpr ⟨parts ++ [[47, c]], by simp, ?_⟩)
      intro y hy
      rcases List.mem_append.mp hy with hy | hy
      · exact hparts y hy
      · rwa [List.mem_singleton.mp hy]
    · obtain rfl := (Language.mem_one last).mp none
      rcases List.eq_nil_or_concat parts with rfl | ⟨parts, part, rfl⟩
      · simp at nonempty
      · refine ended (Language.mem_kstar.mpr ⟨parts ++ [part ++ [c]], by simp, ?_⟩)
        intro y hy
        rcases List.mem_append.mp hy with hy | hy
        · exact hparts y (by simp [hy])
        · rw [List.mem_singleton.mp hy]
          exact segment_append (hparts part (by simp)) hc

/-- A path that is not empty begins with a slash. -/
theorem path_head {w : List UInt8} (hw : w ∈ pathAbempty.lang) (nonempty : w ≠ []) : w.head? = some 47 := by
  rcases hw with slash | hw
  · rw [mem_char.mp slash]
    rfl
  · obtain ⟨segments, hsegments, last, hlast, rfl⟩ := Language.mem_mul.mp hw
    cases segments with
    | nil =>
      rcases hlast with slash | none
      · rw [mem_char.mp slash]
        rfl
      · exact absurd ((Language.mem_one last).mp none) nonempty
    | cons b segments =>
      obtain ⟨x, y, _, hx, _⟩ := cons_mem_kstar.mp hsegments
      obtain ⟨_, _, begins⟩ := mem_marked.mp hx
      rw [(List.cons.inj begins).1]
      rfl

end Path

/-! ### The scanners -/

inductive Scanned (rule : Rule) (input : List UInt8) : Token → Prop where
  | endOfInput (done : input = []) : Scanned rule input .endOfInput
  | rule {w rest : List UInt8} (text : input = w ++ rest) (longest : Longest rule w rest)
      (feed : w = [] → input.head? = some 10) : Scanned rule input (.rule w.length)
  | anyByte (visible : ∀ b ∈ input.head?, b ≠ 10) (nonempty : input ≠ [])
      (none : ∀ x y, input = x ++ y → x ≠ [] → x ∉ rule.lang) : Scanned rule input .anyByte
  | nothing (feed : input.head? = some 10) (none : ∀ x y, input = x ++ y → x ∉ rule.lang) : Scanned rule input .nothing

theorem scanned (rule : Rule) (input : List UInt8) : Scanned rule input (scan rule input) := by
  unfold scan
  split
  · exact .endOfInput rfl
  next b s =>
    split
    next n found =>
      obtain ⟨w, rest, text, rfl, longest⟩ := longest_spec found
      split
      next empty =>
        obtain rfl := List.eq_nil_of_length_eq_zero empty.1
        refine .anyByte (by simpa using empty.2) (by simp) fun x y eq hx mem => hx ?_
        have := longest.longest x y (by rw [← eq, text]) mem
        exact List.eq_nil_of_length_eq_zero (by simpa using this)
      next other =>
        refine .rule text longest ?_
        rintro rfl
        simpa using other
    next none =>
      have nowhere := longest_eq_none_iff.mp none
      split
      next visible => exact .anyByte (by simpa using visible) (by simp) fun x y eq _ => nowhere x y eq
      next feed => exact .nothing (by simpa using feed) nowhere

/-- A query or a fragment, the end of the input, a line feed, or something else. -/
theorem parseMarked_cases (rule : Rule) (input : List UInt8) :
    input = [] ∧ parseMarked rule input = ⟨0, false⟩ ∨ input.head? = some 10 ∧ parseMarked rule input = ⟨0, true⟩ ∨
      (∃ w rest, input = w ++ rest ∧ w ≠ [] ∧ Longest rule w rest ∧ parseMarked rule input = ⟨w.length, true⟩) ∨
      parseMarked rule input = ⟨1, false⟩ := by
  have token := scanned rule input
  unfold parseMarked
  generalize scan rule input = t at token ⊢
  cases token with
  | endOfInput done => exact .inl ⟨done, rfl⟩
  | @rule w rest text longest feed =>
    by_cases empty : w = []
    · subst empty
      exact .inr (.inl ⟨feed rfl, rfl⟩)
    · exact .inr (.inr (.inl ⟨w, rest, text, empty, longest, rfl⟩))
  | anyByte => exact .inr (.inr (.inr rfl))
  | nothing feed _ => exact .inr (.inl ⟨feed, rfl⟩)

/-! ### The stages -/

section Stages

variable {uri : List UInt8} {v : URIView} {o : Nat}

theorem atFragment_accepts (h : (atFragmentParsing uri v o).2.value = true) :
    uri.drop o = [] ∧ atFragmentParsing uri v o = (v, ⟨o, true⟩) ∨
      (uri.drop o).head? = some 10 ∧ atFragmentParsing uri v o = ({ v with fragment := ⟨o, 0⟩ }, ⟨o, true⟩) ∨
      ∃ w rest, uri.drop o = w ++ rest ∧ w ≠ [] ∧ Longest Grammar.fragment w rest ∧
        atFragmentParsing uri v o = ({ v with fragment := ⟨o, w.length⟩ }, ⟨o + w.length, true⟩) := by
  unfold atFragmentParsing parseFragment at h ⊢
  rcases parseMarked_cases Grammar.fragment (uri.drop o) with ⟨done, result⟩ | ⟨feed, result⟩ |
    ⟨w, rest, text, nonempty, longest, result⟩ | result
  · rw [result]
    exact .inl ⟨done, rfl⟩
  · rw [result]
    exact .inr (.inl ⟨feed, rfl⟩)
  · rw [result]
    exact .inr (.inr ⟨w, rest, text, nonempty, longest, rfl⟩)
  · rw [result] at h
    cases h

/-- The path and what the stages behind it have set. -/
structure PathRead (v : URIView) (o : Nat) (path rest : List UInt8) (out : URIView × ParsingResult) : Prop where
  mem : path ∈ pathAbempty.lang
  length : out.2.length = o + path.length
  ended : rest = [] ∧ out.1 = { v with path := ⟨o, path.length⟩ } ∨
    rest.head? = some 10 ∧ out.1 = { v with
      path := ⟨o, path.length⟩
      query := ⟨o + path.length + 1, 4294967295⟩
      fragment := ⟨o + path.length, 0⟩ }

theorem parsePathAbempty_accepts {input : List UInt8} (h : (parsePathAbempty input).value = true) :
    ∃ path rest, input = path ++ rest ∧ path ∈ pathAbempty.lang ∧ (path = [] → rest = [] ∨ rest.head? = some 10) ∧
      (∀ c ∈ rest.head?, path ≠ [] → [c] ∉ pathCharset.lang) ∧ parsePathAbempty input = ⟨path.length, true⟩ := by
  have empty : [] ∈ pathAbempty.lang := nullable_iff.mp (by decide)
  have token := scanned pathAbempty input
  unfold parsePathAbempty at h ⊢
  generalize scan pathAbempty input = t at token h ⊢
  cases token with
  | endOfInput done =>
    subst done
    exact ⟨[], [], rfl, empty, fun _ => .inl rfl, by simp, rfl⟩
  | @rule path rest text longest feed =>
    refine ⟨path, rest, text, longest.mem, ?_, ?_, rfl⟩
    · rintro rfl
      rw [text] at feed
      exact .inr (feed rfl)
    · intro c hc nonempty mem
      obtain ⟨rest, rfl⟩ := List.head?_eq_some_iff.mp hc
      have := longest.longest (path ++ [c]) rest (by simp) (path_append longest.mem nonempty mem)
      rw [List.length_append, List.length_singleton] at this
      omega
  | anyByte => cases h
  | nothing _ none => exact absurd empty (none [] input rfl)

theorem mem_query_head {w : List UInt8} (h : w ∈ Grammar.query.lang) : w.head? = some 63 := by
  obtain ⟨x, _, rfl⟩ := mem_marked.mp h
  rfl

theorem mem_fragment_head {w : List UInt8} (h : w ∈ Grammar.fragment.lang) : w.head? = some 35 := by
  obtain ⟨x, _, rfl⟩ := mem_marked.mp h
  rfl

/-- Behind a path there is no mark of a query or of a fragment. -/
theorem atQuery_accepts {rest : List UInt8} (behind : uri.drop o = rest) (noQuery : rest.head? ≠ some 63)
    (noFragment : rest.head? ≠ some 35) (h : (atQueryParsing uri v o).2.value = true) :
    rest = [] ∧ atQueryParsing uri v o = (v, ⟨o, true⟩) ∨
      rest.head? = some 10 ∧
        atQueryParsing uri v o = ({ v with query := ⟨o + 1, 4294967295⟩, fragment := ⟨o, 0⟩ }, ⟨o, true⟩) := by
  have head_append {w t : List UInt8} (nonempty : w ≠ []) : (w ++ t).head? = w.head? := by
    rw [List.head?_append_of_ne_nil w nonempty]
  unfold atQueryParsing parseQuery at h ⊢
  rw [behind] at h ⊢
  rcases parseMarked_cases Grammar.query rest with ⟨done, result⟩ | ⟨feed, result⟩ | ⟨w, t, text, nonempty, longest, _⟩ |
    result
  · simp only [result, Bool.false_eq_true, if_false, ne_eq, not_true_eq_false] at h ⊢
    rcases atFragment_accepts h with ⟨_, out⟩ | ⟨feed, _⟩ | ⟨w, t, text, nonempty, _, _⟩
    · exact .inl ⟨done, out⟩
    · rw [behind, done] at feed
      cases feed
    · rw [behind, done] at text
      exact absurd (List.append_eq_nil_iff.mp text.symm).1 nonempty
  · simp only [result, if_true, Nat.add_zero] at h ⊢
    rcases atFragment_accepts h with ⟨done, _⟩ | ⟨_, out⟩ | ⟨w, t, text, nonempty, longest, _⟩
    · rw [behind] at done
      rw [done] at feed
      cases feed
    · exact .inr ⟨feed, out⟩
    · rw [behind] at text
      rw [text, head_append nonempty] at noFragment
      exact absurd (mem_fragment_head longest.mem) noFragment
  · rw [text, head_append nonempty] at noQuery
    exact absurd (mem_query_head longest.mem) noQuery
  · simp only [result, Bool.false_eq_true, if_false] at h
    cases h

theorem atAbemptyPath_accepts (h : (atAbemptyPathParsing uri v o).2.value = true) :
    ∃ path rest, uri.drop o = path ++ rest ∧ PathRead v o path rest (atAbemptyPathParsing uri v o) := by
  unfold atAbemptyPathParsing at h ⊢
  cases accepted : (parsePathAbempty (uri.drop o)).value with
  | false =>
    simp only [accepted] at h
    cases h
  | true =>
    obtain ⟨path, rest, text, mem, alone, stops, result⟩ := parsePathAbempty_accepts accepted
    have behind : uri.drop (o + path.length) = rest := by rw [← List.drop_drop, text, List.drop_left]
    -- the path would go on with the mark
    have noMark (c : UInt8) (hc : c = 63 ∨ c = 35) : rest.head? ≠ some c := by
      intro head
      by_cases empty : path = []
      · rcases alone empty with rfl | feed
        · cases head
        · rw [head] at feed
          rcases hc with rfl | rfl <;> cases feed
      · refine stops c head empty (mem_pathCharset ?_)
        rcases hc with rfl | rfl <;> decide
    simp only [result, Bool.not_true, Bool.false_eq_true, if_false] at h ⊢
    rcases atQuery_accepts behind (noMark 63 (.inl rfl)) (noMark 35 (.inr rfl)) h with ⟨done, out⟩ | ⟨feed, out⟩
    · exact ⟨path, rest, text, mem, by rw [out], .inl ⟨done, by rw [out]⟩⟩
    · exact ⟨path, rest, text, mem, by rw [out], .inr ⟨feed, by rw [out]⟩⟩

theorem parsePort_cases (input : List UInt8) :
    input = [] ∧ parsePort input = ⟨0, false⟩ ∨ input ≠ [] ∧ parsePort input = ⟨1, false⟩ ∨
      ∃ p rest, input = 58 :: p ++ rest ∧ Longest (comp (char 58) Grammar.port) (58 :: p) rest ∧
        parsePort input = ⟨p.length + 1, true⟩ := by
  have token := scanned (comp (char 58) Grammar.port) input
  unfold parsePort
  generalize scan (comp (char 58) Grammar.port) input = t at token ⊢
  cases token with
  | endOfInput done => exact .inl ⟨done, rfl⟩
  | rule text longest _ =>
    obtain ⟨p, _, rfl⟩ := mem_marked.mp longest.mem
    exact .inr (.inr ⟨p, _, text, longest, rfl⟩)
  | anyByte _ nonempty _ => exact .inr (.inl ⟨nonempty, rfl⟩)
  | nothing feed _ =>
    refine .inr (.inl ⟨?_, rfl⟩)
    rintro rfl
    cases feed

/-- The text of a port, with its colon. -/
def portText (port : Option (List UInt8)) : List UInt8 := port.elim [] (58 :: ·)

def setPort (v : URIView) (o : Nat) (port : Option (List UInt8)) : URIView :=
  { v with port := port.elim v.port fun p => ⟨o + 1, p.length⟩ }

/-- A host and maybe a port end the URI, or a path follows. -/
structure PortRead (v : URIView) (o : Nat) (port : Option (List UInt8)) (path rest : List UInt8)
    (out : URIView × ParsingResult) : Prop where
  mem : ∀ p ∈ port, p ∈ Grammar.port.lang
  ended : path = [] ∧ rest = [] ∧ out = (setPort v o port, ⟨o + (portText port).length, true⟩) ∨
    PathRead (setPort v o port) (o + (portText port).length) path rest out

theorem atPort_accepts (h : (atPortParsing uri v o).2.value = true) :
    (uri.drop o).head? ≠ some 10 ∧ (uri.drop o = [] → 0 < v.host.length) ∧
      ∃ port path rest, uri.drop o = portText port ++ (path ++ rest) ∧
        PortRead v o port path rest (atPortParsing uri v o) := by
  unfold atPortParsing at h ⊢
  rcases parsePort_cases (uri.drop o) with ⟨done, result⟩ | ⟨more, result⟩ | ⟨p, rest, text, longest, result⟩
  · -- the host ends the URI
    simp only [result, Bool.false_eq_true, if_false, Nat.zero_add, zero_ne_one, false_and] at h ⊢
    split at h
    next ended =>
      rw [if_pos ended]
      exact ⟨by simp [done], fun _ => ended.2, none, [], [], done, by simp, .inl ⟨rfl, rfl, rfl⟩⟩
    · cases h
  · have goesOn : ¬o = uri.length := fun e => more (by rw [e, List.drop_length])
    simp only [result, Bool.false_eq_true, if_false, true_and, goesOn, false_and] at h ⊢
    by_cases slash : (uri.drop o).head? = some 47
    · rw [if_pos slash] at h ⊢
      obtain ⟨path, rest, text, read⟩ := atAbemptyPath_accepts h
      exact ⟨by rw [slash]; decide, fun done => absurd done more, none, path, rest, text, by simp, .inr read⟩
    · rw [if_neg slash] at h
      cases h
  · have colon : (uri.drop o).head? = some 58 := by rw [text]; rfl
    have behind : uri.drop (o + (p.length + 1)) = rest := by
      rw [← List.drop_drop, text]
      exact List.drop_left
    have mem : ∀ q ∈ some p, q ∈ Grammar.port.lang := by
      intro q hq
      obtain rfl := Option.some.inj hq
      obtain ⟨x, hx, eq⟩ := mem_marked.mp longest.mem
      rwa [(List.cons.inj eq).2]
    have more : uri.drop o ≠ [] := by simp [text]
    refine ⟨by rw [colon]; decide, fun done => absurd done more, ?_⟩
    simp only [result, if_true, Nat.add_sub_cancel] at h ⊢
    split at h
    next ended =>
      rw [if_pos ended]
      have done : rest = [] := by
        rw [← behind, ended.1]
        exact List.drop_length
      exact ⟨some p, [], [], by rw [text, done]; rfl, mem, .inl ⟨rfl, rfl, rfl⟩⟩
    next other =>
      rw [if_neg other]
      obtain ⟨path, rest', text', read⟩ := atAbemptyPath_accepts h
      rw [behind] at text'
      exact ⟨some p, path, rest', by rw [text, text']; rfl, mem, .inr read⟩

theorem parseHost_cases (input : List UInt8) :
    (input = [] ∨ input.head? = some 10) ∧ parseHost input = ⟨0, true⟩ ∨ parseHost input = ⟨1, false⟩ ∨
      ∃ w rest, input = w ++ rest ∧ Longest Grammar.host w rest ∧ w ≠ [] ∧ parseHost input = ⟨w.length, true⟩ := by
  have token := scanned Grammar.host input
  unfold parseHost
  generalize scan Grammar.host input = t at token ⊢
  cases token with
  | endOfInput done => exact .inl ⟨.inl done, rfl⟩
  | rule text longest _ => exact .inr (.inr ⟨_, _, text, longest, ne_nil_of_mem (by decide +kernel) longest.mem, rfl⟩)
  | anyByte => exact .inr (.inl rfl)
  | nothing feed _ => exact .inl ⟨.inr feed, rfl⟩

theorem atHost_accepts (h : (atHostParsing uri v o).2.value = true) :
    ∃ host rest, uri.drop o = host ++ rest ∧ Longest Grammar.host host rest ∧ host ≠ [] ∧
      atHostParsing uri v o = atPortParsing uri { v with host := ⟨o, host.length⟩ } (o + host.length) := by
  unfold atHostParsing at h ⊢
  rcases parseHost_cases (uri.drop o) with ⟨nothing, result⟩ | result | ⟨host, rest, text, longest, nonempty, result⟩
  · -- an empty host is not accepted
    simp only [result, Bool.not_true, Bool.false_eq_true, if_false, Nat.add_zero] at h
    obtain ⟨noFeed, ends, _⟩ := atPort_accepts h
    rcases nothing with done | feed
    · exact absurd (ends done) (Nat.lt_irrefl 0)
    · exact absurd feed noFeed
  · simp only [result, Bool.not_false, if_true, ne_eq, one_ne_zero, not_false_eq_true, true_or] at h
    cases h
  · refine ⟨host, rest, text, longest, nonempty, ?_⟩
    simp only [result, Bool.not_true, Bool.false_eq_true, if_false]

/-- The text of a userinfo, with its `@`. -/
def userinfoText (userinfo : Option (List UInt8)) : List UInt8 := userinfo.elim [] (· ++ [64])

def setUserinfo (v : URIView) (o : Nat) (userinfo : Option (List UInt8)) : URIView :=
  { v with userinfo := userinfo.elim v.userinfo fun w => ⟨o, w.length⟩ }

/-- The userinfo that the scanner finds. -/
structure UserinfoRead (input : List UInt8) (userinfo : Option (List UInt8)) (rest : List UInt8) : Prop where
  text : input = userinfoText userinfo ++ rest
  found : ∀ w ∈ userinfo, w ≠ [] ∧ Longest Grammar.userinfo (w ++ [64]) rest
  none : userinfo = none → ∀ x y, input = x ++ y → x ∉ Grammar.userinfo.lang

theorem atUserinfo_eq (uri : List UInt8) (v : URIView) (o : Nat) : ∃ userinfo rest,
    UserinfoRead (uri.drop o) userinfo rest ∧
      atUserinfoParsing uri v o = atHostParsing uri (setUserinfo v o userinfo) (o + (userinfoText userinfo).length) := by
  have nonempty : [] ∉ Grammar.userinfo.lang := fun h => ne_nil_of_mem (by decide +kernel) h rfl
  have token := scanned Grammar.userinfo (uri.drop o)
  unfold atUserinfoParsing parseUserinfo
  generalize scan Grammar.userinfo (uri.drop o) = t at token ⊢
  cases token with
  | endOfInput done =>
    refine ⟨none, uri.drop o, ⟨rfl, by simp, fun _ x y eq => ?_⟩, rfl⟩
    rw [done] at eq
    rwa [(List.append_eq_nil_iff.mp eq.symm).1]
  | @rule w rest text longest _ =>
    obtain ⟨x, rfl, hx⟩ := mem_userinfo longest.mem
    refine ⟨some x, rest, ⟨text, ?_, by simp⟩, ?_⟩
    · intro y hy
      obtain rfl := Option.some.inj hy
      exact ⟨hx, longest⟩
    · simp [setUserinfo, userinfoText]
  | anyByte _ _ nowhere =>
    refine ⟨none, uri.drop o, ⟨rfl, by simp, fun _ x y eq => ?_⟩, rfl⟩
    by_cases empty : x = []
    · rwa [empty]
    · exact nowhere x y eq empty
  | nothing _ nowhere => exact ⟨none, uri.drop o, ⟨rfl, by simp, fun _ => nowhere⟩, rfl⟩

end Stages

/-! ### Absolute URIs -/

/-- The parts of an absolute URI, with what was not read behind them. -/
structure Parts where
  schema : List UInt8
  userinfo : Option (List UInt8)
  host : List UInt8
  port : Option (List UInt8)
  path : List UInt8
  rest : List UInt8

namespace Parts

variable (p : Parts)

def behindHost : List UInt8 := portText p.port ++ (p.path ++ p.rest)

def behindSchema : List UInt8 := userinfoText p.userinfo ++ (p.host ++ p.behindHost)

def text : List UInt8 := p.schema ++ schemeEnd ++ p.behindSchema

def userinfoOffset : Nat := (p.schema ++ schemeEnd).length

def hostOffset : Nat := p.userinfoOffset + (userinfoText p.userinfo).length

def portOffset : Nat := p.hostOffset + p.host.length

def pathOffset : Nat := p.portOffset + (portText p.port).length

/-- The parts are as the scanners find them. -/
structure Spelled : Prop where
  schema : p.schema ∈ scheme.lang
  userinfo : UserinfoRead p.behindSchema p.userinfo (p.host ++ p.behindHost)
  host : Longest Grammar.host p.host p.behindHost
  hostNonempty : p.host ≠ []
  port : ∀ q ∈ p.port, q ∈ Grammar.port.lang
  path : p.path ∈ pathAbempty.lang
  rest : p.rest = [] ∨ p.rest.head? = some 10

/-- The view has the parts. -/
structure Viewed (v : URIView) : Prop where
  type : v.type = .absolute
  schema : v.schema = ⟨0, p.schema.length⟩
  userinfo : v.userinfo = p.userinfo.elim .empty fun w => ⟨p.userinfoOffset, w.length⟩
  host : v.host = ⟨p.hostOffset, p.host.length⟩
  port : v.port = p.port.elim .empty fun w => ⟨p.portOffset + 1, w.length⟩
  path : v.path = ⟨p.pathOffset, p.path.length⟩ ∨ p.path = [] ∧ v.path = .empty
  query : p.rest = [] → v.query = .empty
  fragment : v.fragment.length = 0

end Parts

theorem schema_cases (uri : List UInt8) : uri = [] ∨ parseSchema uri = ⟨1, false⟩ ∨
    uri.head? = some 10 ∧ parseSchema uri = ⟨0, false⟩ ∨
    ∃ s rest, uri = s ++ schemeEnd ++ rest ∧ s ∈ scheme.lang ∧ parseSchema uri = ⟨s.length, true⟩ := by
  have token := scanned Grammar.schema uri
  unfold parseSchema
  generalize scan Grammar.schema uri = t at token ⊢
  cases token with
  | endOfInput done => exact .inl done
  | rule text longest _ =>
    obtain ⟨s, hs, rfl⟩ := mem_schema.mp longest.mem
    refine .inr (.inr (.inr ⟨s, _, text, hs, ?_⟩))
    rw [List.length_append]
    rfl
  | anyByte => exact .inr (.inl rfl)
  | nothing feed _ => exact .inr (.inr (.inl ⟨feed, rfl⟩))

/-- A word of a rule without line feeds does not begin with one. -/
theorem head_ne_feed {r : Rule} (h : r.uses 10 = false) {w rest : List UInt8} (hw : w ∈ r.lang) (nonempty : w ≠ []) :
    (w ++ rest).head? ≠ some 10 := by
  obtain ⟨b, w, rfl⟩ := List.exists_cons_of_ne_nil nonempty
  intro head
  obtain rfl := Option.some.inj head
  rw [uses_of_mem hw List.mem_cons_self] at h
  cases h

theorem atUserinfo_feed {uri : List UInt8} {v : URIView} (feed : uri.head? = some 10) :
    (atUserinfoParsing uri v 0).2.value = false := by
  obtain ⟨userinfo, rest, read, out⟩ := atUserinfo_eq uri v 0
  have text := read.text
  cases userinfo with
  | some w =>
    obtain ⟨_, longest⟩ := read.found w rfl
    rw [List.drop_zero] at text
    rw [text] at feed
    exact absurd feed (head_ne_feed (by decide +kernel) longest.mem (by simp [userinfoText]))
  | none =>
    rw [out]
    by_contra accepted
    obtain ⟨host, rest, text, longest, nonempty, _⟩ := atHost_accepts (Bool.of_not_eq_false accepted)
    rw [show userinfoText none = [] from rfl, List.length_nil, List.drop_zero] at text
    rw [text] at feed
    exact absurd feed (head_ne_feed (by decide +kernel) longest.mem nonempty)

/-- What is read of a URI that is accepted, from the scheme on. -/
theorem atAbsoluteForm_accepts {uri : List UInt8} (nonempty : uri ≠ [])
    (h : (atAbsoluteFormParsing uri cleared).2.value = true) :
    ∃ p : Parts, uri = p.text ∧ p.Spelled ∧ p.Viewed (atAbsoluteFormParsing uri cleared).1 ∧
      (atAbsoluteFormParsing uri cleared).2.length + p.rest.length = uri.length := by
  unfold atAbsoluteFormParsing at h ⊢
  rcases schema_cases uri with empty | result | ⟨feed, result⟩ | ⟨s, t, text, hs, result⟩
  · exact absurd empty nonempty
  · simp only [result, Bool.false_eq_true, if_false, one_ne_zero] at h
  · simp only [result, Bool.false_eq_true, if_false, if_true, atUserinfo_feed feed] at h
  · simp only [result, if_true] at h ⊢
    have start : s.length + 3 = (s ++ schemeEnd).length := by simp [schemeEnd]
    rw [start] at h ⊢
    obtain ⟨userinfo, t', userinfoRead, out⟩ := atUserinfo_eq uri _ (s ++ schemeEnd).length
    rw [out] at h ⊢
    obtain ⟨host, t'', hostText, longest, hostNonempty, out⟩ := atHost_accepts h
    rw [out] at h ⊢
    obtain ⟨_, _, port, path, rest, portTail, read⟩ := atPort_accepts h
    have behind : uri.drop (s ++ schemeEnd).length = t := by rw [text, List.drop_left]
    have t'_eq : t' = host ++ t'' := by rw [← hostText, ← List.drop_drop, userinfoRead.text, List.drop_left]
    have t''_eq : t'' = portText port ++ (path ++ rest) := by
      rw [← portTail, ← List.drop_drop, hostText, List.drop_left]
    subst t'_eq t''_eq
    rw [behind] at userinfoRead
    let p : Parts := ⟨s, userinfo, host, port, path, rest⟩
    have whole : t = p.behindSchema := userinfoRead.text
    have length : uri.length = p.pathOffset + path.length + rest.length := by
      rw [text, whole]
      simp only [p, Parts.behindSchema, Parts.behindHost, Parts.pathOffset, Parts.portOffset, Parts.hostOffset,
        Parts.userinfoOffset, List.length_append]
      omega
    have path_ : path ∈ pathAbempty.lang ∧ (rest = [] ∨ rest.head? = some 10) := by
      rcases read.ended with ⟨rfl, done, _⟩ | pathRead
      · exact ⟨nullable_iff.mp (by decide), .inl done⟩
      · exact ⟨pathRead.mem, pathRead.ended.imp And.left And.left⟩
    refine ⟨p, by rw [text, whole]; rfl, ?_, ?_⟩
    · exact ⟨hs, whole ▸ userinfoRead, longest, hostNonempty, read.mem, path_.1, path_.2⟩
    · rcases read.ended with ⟨rfl, rfl, out⟩ | ⟨_, n, ⟨rfl, out⟩ | ⟨feed, out⟩⟩
      · rw [out]
        exact ⟨⟨rfl, rfl, rfl, rfl, rfl, .inr ⟨rfl, rfl⟩, fun _ => rfl, rfl⟩, length.symm⟩
      · rw [out, n]
        exact ⟨⟨rfl, rfl, rfl, rfl, rfl, .inl rfl, fun _ => rfl, rfl⟩, length.symm⟩
      · rw [out, n]
        refine ⟨⟨rfl, rfl, rfl, rfl, rfl, .inl rfl, ?_, rfl⟩, length.symm⟩
        rintro rfl
        cases feed

end LAppS.URIView
