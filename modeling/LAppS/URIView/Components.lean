import LAppS.URIView.Accepted
import Mathlib.Data.List.TakeWhile

/-!
# The components of accepted URIs

For which URIs the view has the components that RFC 3986 gives them. A password may have a `/` or a `#`, so that the host is
looked for behind the authority; a path takes a query and a fragment; and a line feed behind a path hides the rest.
-/

namespace LAppS.URIView
open Regex Grammar

/-- What the view has of a path, with `rest` behind it that was not read. -/
structure PathForm (uri : List UInt8) (v : URIView) (n : Nat) (path rest : List UInt8) : Prop where
  path : v.path.length = path.length ∧ v.path.text uri = path
  ended : rest = [] ∨ rest.head? = some 10
  query : rest = [] → v.query = .empty
  fragment : v.fragment.length = 0
  length : n + rest.length = uri.length

/-- What the view has of a query, and of a fragment behind it. -/
structure QueryForm (uri : List UInt8) (v : URIView) (n : Nat) (q rest : List UInt8) : Prop where
  text : uri = q ++ rest
  longest : Longest Grammar.query q rest
  nonempty : q ≠ []
  path : v.path = .empty
  query : v.query = ⟨1, q.length - 1⟩
  fragment : rest = [] ∧ v.fragment = .empty ∧ n = q.length ∨ rest.head? = some 10 ∧ n = q.length ∨
    ∃ f t, rest = f ++ t ∧ f ≠ [] ∧ Longest Grammar.fragment f t ∧ v.fragment = ⟨q.length, f.length⟩ ∧
      n = q.length + f.length

theorem queryForm_of_accepts {uri : List UInt8} {v : URIView} (head : uri.head? = some 63) (short : uri.length ≤ 8192)
    (fresh : v.path = .empty ∧ v.fragment = .empty) (h : (atQueryParsing uri v 0).2.value = true) :
    (atQueryParsing uri v 0).1.type = v.type ∧ (atQueryParsing uri v 0).1.host = v.host ∧ ∃ q rest,
      QueryForm uri (atQueryParsing uri v 0).1 (atQueryParsing uri v 0).2.length q rest := by
  unfold atQueryParsing parseQuery at h ⊢
  rw [List.drop_zero] at h ⊢
  rcases parseMarked_cases Grammar.query uri with ⟨done, _⟩ | ⟨feed, _⟩ | ⟨q, rest, text, nonempty, longest, result⟩ |
    result
  · rw [done] at head
    cases head
  · cases head.symm.trans feed
  · have positive : 0 < q.length := List.length_pos_iff.mpr nonempty
    have bounded : q.length ≤ 8192 := by
      rw [text, List.length_append] at short
      omega
    have wraps : (q.length + 4294967295) % 4294967296 = q.length - 1 := by omega
    have behind : uri.drop q.length = rest := by rw [text, List.drop_left]
    simp only [result, if_true, wraps, Nat.zero_add] at h ⊢
    rcases atFragment_accepts h with ⟨done, out⟩ | ⟨feed, out⟩ | ⟨f, t, ftext, fnonempty, flongest, out⟩
    · rw [out]
      rw [behind] at done
      exact ⟨rfl, rfl, q, rest, text, longest, nonempty, fresh.1, rfl, .inl ⟨done, fresh.2, rfl⟩⟩
    · rw [out]
      rw [behind] at feed
      exact ⟨rfl, rfl, q, rest, text, longest, nonempty, fresh.1, rfl, .inr (.inl ⟨feed, rfl⟩)⟩
    · rw [out]
      rw [behind] at ftext
      exact ⟨rfl, rfl, q, rest, text, longest, nonempty, fresh.1, rfl, .inr (.inr ⟨f, t, ftext, fnonempty, flongest, rfl, rfl⟩)⟩
  · simp only [result, Bool.false_eq_true, if_false, ne_eq, one_ne_zero, not_false_eq_true, if_true] at h

theorem pathForm_of_read {uri path rest : List UInt8} {v : URIView} {out : URIView × ParsingResult}
    (text : uri = path ++ rest) (fresh : v.query = .empty ∧ v.fragment = .empty) (read : PathRead v 0 path rest out) :
    out.1.type = v.type ∧ out.1.host = v.host ∧ PathForm uri out.1 out.2.length path rest := by
  have length : out.2.length + rest.length = uri.length := by rw [read.length, text, List.length_append, Nat.zero_add]
  have sliced : (⟨0, path.length⟩ : Slice).text uri = path := by
    rw [Slice.text, List.drop_zero, text, List.take_left]
  rcases read.ended with ⟨done, view⟩ | ⟨feed, view⟩
  · rw [view]
    exact ⟨rfl, rfl, ⟨rfl, sliced⟩, .inl done, fun _ => fresh.1, congrArg Slice.length fresh.2, length⟩
  · rw [view]
    refine ⟨rfl, rfl, ⟨rfl, sliced⟩, .inr feed, ?_, rfl, length⟩
    rintro rfl
    cases feed

/-- A URI that is accepted begins with its path or its query, or it is an absolute one. -/
inductive Form (uri : List UInt8) (v : URIView) (n : Nat) : Prop where
  | star (type : v.type = .star) (host : v.host = .empty)
  | path {path rest : List UInt8} (type : v.type = .origin) (host : v.host = .empty) (head : uri.head? = some 47)
      (text : uri = path ++ rest) (mem : path ∈ pathAbempty.lang) (form : PathForm uri v n path rest)
  | query {q rest : List UInt8} (type : v.type = .origin) (host : v.host = .empty) (form : QueryForm uri v n q rest)
  | absolute {p : Parts} (head : uri.head? ≠ some 63) (text : uri = p.text) (spelled : p.Spelled) (viewed : p.Viewed v)
      (length : n + p.rest.length = uri.length)

theorem parse_accepts {uri : List UInt8} {v : URIView} {n : Nat} (h : parse uri = .ok (v, n)) (valid : v.valid = true) :
    Form uri v n := by
  obtain ⟨out, parsed, rfl, rfl⟩ : ∃ out, parseUri uri = .ok out ∧ v = { out.1 with valid := out.2.value } ∧
      n = out.2.length := by
    unfold parse at h
    cases parsed : parseUri uri with
    | error e =>
      rw [parsed] at h
      cases h
    | ok out =>
      rw [parsed] at h
      cases h
      exact ⟨out, rfl, rfl, rfl⟩
  unfold parseUri at parsed
  split at parsed
  · cases parsed
  next short =>
    split at parsed
    · cases parsed
      cases valid
    next b t =>
      split at parsed
      · cases parsed
        exact .star rfl rfl
      · split at parsed
        next slash =>
          cases parsed
          obtain ⟨path, rest, text, read⟩ := atAbemptyPath_accepts valid
          obtain ⟨type, host, form⟩ := pathForm_of_read text ⟨rfl, rfl⟩ read
          exact .path type host (by rw [slash]; rfl) text read.mem ⟨form.path, form.ended, form.query, form.fragment, form.length⟩
        next =>
          split at parsed
          next mark =>
            cases parsed
            obtain ⟨type, host, q, rest, form⟩ :=
              queryForm_of_accepts (by rw [mark]; rfl) (Nat.le_of_not_lt short) ⟨rfl, rfl⟩ valid
            exact .query type host ⟨form.text, form.longest, form.nonempty, form.path, form.query, form.fragment⟩
          next noMark =>
            cases parsed
            obtain ⟨p, text, spelled, viewed, total⟩ := atAbsoluteForm_accepts (List.cons_ne_nil b t) valid
            exact .absolute (by simpa using noMark) text spelled ⟨viewed.type, viewed.schema, viewed.userinfo, viewed.host,
              viewed.port, viewed.path, viewed.query, viewed.fragment⟩ total

theorem parse_absolute {uri : List UInt8} {v : URIView} {n : Nat} (h : parse uri = .ok (v, n)) (valid : v.valid = true)
    (absolute : v.type = .absolute) : ∃ p : Parts, uri = p.text ∧ p.Spelled ∧ p.Viewed v ∧
      n + p.rest.length = uri.length := by
  have form := parse_accepts h valid
  cases form with
  | star type => cases absolute.symm.trans type
  | path type => cases absolute.symm.trans type
  | query type => cases absolute.symm.trans type
  | absolute _ text spelled viewed length => exact ⟨_, text, spelled, viewed, length⟩

theorem not_mem_of_uses {r : Rule} {a : UInt8} (h : r.uses a = false) {w : List UInt8} (hw : w ∈ r.lang) : a ∉ w := by
  intro ha
  rw [uses_of_mem hw ha] at h
  cases h

/-! ### The authority -/

/-- What ends an authority. -/
def isDelimiter (b : UInt8) : Bool := b = 47 || b = 63 || b = 35

/-- Where the authority begins, behind the first `:` and the slashes. -/
def authorityOffset (uri : List UInt8) : Nat := (uri.takeWhile fun b => b ≠ 58).length + schemeEnd.length

def authority (uri : List UInt8) : List UInt8 := (uri.drop (authorityOffset uri)).takeWhile fun b => !isDelimiter b

/-- The slice is empty or lies in the authority. -/
def Slice.InAuthority (s : Slice) (uri : List UInt8) : Prop :=
  s.length = 0 ∨ authorityOffset uri ≤ s.offset ∧ s.offset + s.length ≤ authorityOffset uri + (authority uri).length

structure Authoritative (uri : List UInt8) (v : URIView) : Prop where
  userinfo : v.userinfo.InAuthority uri
  host : v.host.InAuthority uri
  port : v.port.InAuthority uri

/-- No userinfo has a delimiter. -/
def PlainUserinfo (uri : List UInt8) : Prop :=
  ∀ x y, uri.drop (authorityOffset uri) = x ++ y → x ∈ Grammar.userinfo.lang → ∀ b ∈ x, isDelimiter b = false

section Authority

variable {p : Parts}

theorem authorityOffset_text (spelled : p.Spelled) : authorityOffset p.text = p.userinfoOffset := by
  have noColon : ∀ b ∈ p.schema, decide (b ≠ 58) = true := fun b hb =>
    decide_eq_true fun e => not_mem_of_uses (by decide +kernel) spelled.schema (e ▸ hb)
  have spelled_ : p.text = p.schema ++ 58 :: ([47, 47] ++ p.behindSchema) := by simp [Parts.text, schemeEnd]
  have taken : (p.text.takeWhile fun b => decide (b ≠ 58)) = p.schema := by
    rw [spelled_, List.takeWhile_append_of_pos noColon, List.takeWhile_cons_of_neg (by decide), List.append_nil]
  rw [authorityOffset, taken, Parts.userinfoOffset, List.length_append]

theorem drop_authority (spelled : p.Spelled) : p.text.drop (authorityOffset p.text) = p.behindSchema := by
  rw [authorityOffset_text spelled, Parts.userinfoOffset, Parts.text, List.drop_left]

theorem host_plain (spelled : p.Spelled) : ∀ b ∈ p.host ++ portText p.port, isDelimiter b = false := by
  have plain {r : Rule} (slash : r.uses 47 = false) (mark : r.uses 63 = false) (hash : r.uses 35 = false)
      {w : List UInt8} (hw : w ∈ r.lang) {b : UInt8} (hb : b ∈ w) : isDelimiter b = false := by
    have h47 : b ≠ 47 := fun e => not_mem_of_uses slash hw (e ▸ hb)
    have h63 : b ≠ 63 := fun e => not_mem_of_uses mark hw (e ▸ hb)
    have h35 : b ≠ 35 := fun e => not_mem_of_uses hash hw (e ▸ hb)
    simp [isDelimiter, h47, h63, h35]
  intro b hb
  rcases List.mem_append.mp hb with hb | hb
  · exact plain (by decide +kernel) (by decide +kernel) (by decide +kernel) spelled.host.mem hb
  · cases hport : p.port with
    | none =>
      rw [hport] at hb
      cases hb
    | some q =>
      rw [hport] at hb
      rcases List.mem_cons.mp hb with rfl | hb
      · decide
      · exact plain (by decide) (by decide) (by decide) (spelled.port q hport) hb

/-- The host lies in the authority when the userinfo has no delimiter. -/
theorem authority_reaches (spelled : p.Spelled) (plain : ∀ b ∈ userinfoText p.userinfo, isDelimiter b = false) :
    p.pathOffset ≤ authorityOffset p.text + (authority p.text).length := by
  have all : ∀ b ∈ userinfoText p.userinfo ++ (p.host ++ portText p.port), (!isDelimiter b) = true := by
    intro b hb
    rcases List.mem_append.mp hb with hb | hb
    · rw [plain b hb]; rfl
    · rw [host_plain spelled b hb]; rfl
  have split : p.behindSchema =
      (userinfoText p.userinfo ++ (p.host ++ portText p.port)) ++ (p.path ++ p.rest) := by
    simp [Parts.behindSchema, Parts.behindHost]
  rw [authority, drop_authority spelled, authorityOffset_text spelled, split, List.takeWhile_append_of_pos all]
  simp only [List.length_append, Parts.pathOffset, Parts.portOffset, Parts.hostOffset]
  omega

theorem takeWhile_prefix_all {f : UInt8 → Bool} {xs ys : List UInt8} (h : xs.length ≤ ((xs ++ ys).takeWhile f).length) :
    ∀ b ∈ xs, f b = true := by
  have taken : (xs ++ ys).takeWhile f <+: xs ++ ys := List.takeWhile_prefix f
  have inside : xs <+: (xs ++ ys).takeWhile f := List.prefix_of_prefix_length_le (List.prefix_append xs ys) taken h
  intro b hb
  exact List.mem_takeWhile_imp (inside.subset hb)

end Authority

/-- The components lie in the authority exactly when no userinfo has a delimiter. -/
theorem authoritative_iff {uri : List UInt8} {v : URIView} {n : Nat} (h : parse uri = .ok (v, n)) (valid : v.valid = true)
    (absolute : v.type = .absolute) : Authoritative uri v ↔ PlainUserinfo uri := by
  obtain ⟨p, rfl, spelled, viewed, _⟩ := parse_absolute h valid absolute
  have start := authorityOffset_text spelled
  constructor
  · intro authoritative x y text hx
    rw [drop_authority spelled] at text
    cases found : p.userinfo with
    | none => exact absurd hx (spelled.userinfo.none found x y text)
    | some w =>
      -- the host behind the userinfo lies in the authority, so that the whole userinfo does
      have reaches : p.hostOffset ≤ authorityOffset p.text + (authority p.text).length := by
        rcases authoritative.host with empty | ⟨_, within⟩
        · rw [viewed.host] at empty
          exact absurd (List.eq_nil_of_length_eq_zero empty) spelled.hostNonempty
        · rw [viewed.host] at within
          exact (Nat.le_add_right _ _).trans within
      rw [start, Parts.hostOffset, Nat.add_le_add_iff_left, authority, drop_authority spelled, Parts.behindSchema] at reaches
      have plain := takeWhile_prefix_all reaches
      obtain ⟨_, longest⟩ := spelled.userinfo.found w found
      have within : x <+: w ++ [64] := by
        refine List.prefix_of_prefix_length_le ⟨y, text.symm⟩ ⟨p.host ++ p.behindHost, ?_⟩ ?_
        · rw [Parts.behindSchema, found]; rfl
        · refine longest.longest x y ?_ hx
          rw [← text, Parts.behindSchema, found]; rfl
      intro b hb
      have := plain b (by rw [found]; exact within.subset hb)
      simpa using this
  · intro plain
    have userinfoPlain : ∀ b ∈ userinfoText p.userinfo, isDelimiter b = false := by
      cases found : p.userinfo with
      | none => simp [userinfoText]
      | some w =>
        obtain ⟨_, longest⟩ := spelled.userinfo.found w found
        refine plain (w ++ [64]) (p.host ++ p.behindHost) ?_ longest.mem
        rw [drop_authority spelled, Parts.behindSchema, found]; rfl
    have reaches := authority_reaches spelled userinfoPlain
    simp only [Parts.pathOffset, Parts.portOffset, Parts.hostOffset] at reaches
    refine ⟨?_, .inr ?_, ?_⟩
    · rw [viewed.userinfo]
      cases found : p.userinfo with
      | none => exact .inl rfl
      | some w =>
        rw [found] at reaches
        refine .inr ⟨start.le, ?_⟩
        simp only [Option.elim_some, userinfoText, List.length_append, List.length_singleton] at reaches ⊢
        omega
    · rw [viewed.host, start]
      simp only [Parts.hostOffset]
      omega
    · rw [viewed.port]
      cases found : p.port with
      | none => exact .inl rfl
      | some w =>
        rw [found] at reaches
        refine .inr ⟨?_, ?_⟩
        · rw [start]
          simp only [Option.elim_some, Parts.portOffset, Parts.hostOffset]
          omega
        · simp only [Option.elim_some, portText, List.length_cons, Parts.portOffset, Parts.hostOffset] at reaches ⊢
          omega

/-- `ws://u@h/`. -/
def withUserinfo : List UInt8 := [119, 115, 58, 47, 47, 117, 64, 104, 47]

def viewWithUserinfo : URIView := ⟨true, .absolute, ⟨0, 2⟩, ⟨5, 1⟩, ⟨7, 1⟩, .empty, ⟨8, 1⟩, .empty, .empty⟩

theorem authoritative_with_userinfo :
    parse withUserinfo = .ok (viewWithUserinfo, 9) ∧ (Authoritative withUserinfo viewWithUserinfo ↔ PlainUserinfo withUserinfo) :=
  ⟨by decide +kernel, authoritative_iff (n := 9) (by decide +kernel) rfl rfl⟩

/-- `ws://a:b/c@evil`. -/
def swallowed : List UInt8 := [119, 115, 58, 47, 47, 97, 58, 98, 47, 99, 64, 101, 118, 105, 108]

/-- The host is `evil`, where the authority is `a:b`. -/
theorem authority_counterexample :
    ∃ v n, parse swallowed = .ok (v, n) ∧ v.valid = true ∧ v.type = .absolute ∧ ¬Authoritative swallowed v := by
  refine ⟨⟨true, .absolute, ⟨0, 2⟩, ⟨5, 5⟩, ⟨11, 4⟩, .empty, .empty, .empty, .empty⟩, 15, by decide +kernel, rfl, rfl, ?_⟩
  intro authoritative
  rcases authoritative.host with empty | ⟨_, within⟩
  · cases empty
  · exact absurd within (by decide +kernel)

/-! ### The whole URI -/

/-- The URI is its components, and they match their rules. -/
structure Exact (uri : List UInt8) (v : URIView) (n : Nat) : Prop where
  length : n = uri.length
  host : v.host.text uri ≠ []
  text : uri = v.schema.text uri ++ schemeEnd ++
    ((if v.userinfo.text uri = [] then [] else v.userinfo.text uri ++ [64]) ++ (v.host.text uri ++
      ((if v.port.text uri = [] then [] else 58 :: v.port.text uri) ++ v.path.text uri)))
  query : v.query.length = 0
  fragment : v.fragment.length = 0
  schemaRule : v.schema.text uri ∈ scheme.lang
  userinfoRule : v.userinfo.text uri ≠ [] → v.userinfo.text uri ++ [64] ∈ Grammar.userinfo.lang
  hostRule : v.host.text uri ∈ Grammar.host.lang
  portRule : v.port.text uri ≠ [] → v.port.text uri ∈ Grammar.port.lang
  pathRule : v.path.text uri ∈ pathAbempty.lang

theorem text_slice (a b c : List UInt8) : (⟨a.length, b.length⟩ : Slice).text (a ++ (b ++ c)) = b := by
  rw [Slice.text, List.drop_left, List.take_left]

theorem text_empty (uri : List UInt8) : Slice.empty.text uri = [] := List.take_zero

namespace Parts

variable {p : Parts} {v : URIView}

/-- The texts of the slices. -/
theorem texts (viewed : p.Viewed v) :
    v.schema.text p.text = p.schema ∧ v.userinfo.text p.text = p.userinfo.getD [] ∧ v.host.text p.text = p.host ∧
      v.port.text p.text = p.port.getD [] ∧ v.path.text p.text = p.path ∧ v.path.length = p.path.length := by
  refine ⟨?_, ?_, ?_, ?_, ?_⟩
  · rw [viewed.schema, Parts.text, List.append_assoc]
    exact text_slice [] p.schema _
  · rw [viewed.userinfo]
    cases found : p.userinfo with
    | none => exact text_empty _
    | some w =>
      have split : p.text = (p.schema ++ schemeEnd) ++ (w ++ (64 :: (p.host ++ p.behindHost))) := by
        simp [Parts.text, Parts.behindSchema, found, userinfoText]
      rw [split]
      exact text_slice _ w _
  · rw [viewed.host]
    have split : p.text = (p.schema ++ schemeEnd ++ userinfoText p.userinfo) ++ (p.host ++ p.behindHost) := by
      simp [Parts.text, Parts.behindSchema]
    rw [split, Parts.hostOffset, Parts.userinfoOffset, ← List.length_append]
    exact text_slice _ p.host _
  · rw [viewed.port]
    cases found : p.port with
    | none => exact text_empty _
    | some w =>
      have split : p.text = (p.schema ++ schemeEnd ++ userinfoText p.userinfo ++ p.host ++ [58]) ++
          (w ++ (p.path ++ p.rest)) := by
        simp [Parts.text, Parts.behindSchema, Parts.behindHost, found, portText]
      have offset : p.portOffset + 1 = (p.schema ++ schemeEnd ++ userinfoText p.userinfo ++ p.host ++ [58]).length := by
        simp [Parts.portOffset, Parts.hostOffset, Parts.userinfoOffset, Nat.add_assoc]
      rw [split]
      show (⟨p.portOffset + 1, w.length⟩ : Slice).text _ = w
      rw [offset]
      exact text_slice _ w _
  · rcases viewed.path with view | ⟨empty, view⟩
    · have split : p.text = (p.schema ++ schemeEnd ++ userinfoText p.userinfo ++ p.host ++ portText p.port) ++
          (p.path ++ p.rest) := by
        simp [Parts.text, Parts.behindSchema, Parts.behindHost]
      have offset : p.pathOffset =
          (p.schema ++ schemeEnd ++ userinfoText p.userinfo ++ p.host ++ portText p.port).length := by
        simp [Parts.pathOffset, Parts.portOffset, Parts.hostOffset, Parts.userinfoOffset, Nat.add_assoc]
      rw [view, split, offset]
      exact ⟨text_slice _ p.path _, rfl⟩
    · rw [view, empty]
      exact ⟨text_empty _, rfl⟩

/-- A byte that the rules do not use is in what was not read. -/
theorem mem_text_iff (spelled : p.Spelled) {a : UInt8} (schema : scheme.uses a = false) (end_ : a ∉ schemeEnd)
    (userinfo : Grammar.userinfo.uses a = false) (host : Grammar.host.uses a = false)
    (port : (comp (char 58) Grammar.port).uses a = false) : a ∈ p.text ↔ a ∈ p.path ++ p.rest := by
  have inUserinfo : a ∉ userinfoText p.userinfo := by
    cases found : p.userinfo with
    | none => simp [userinfoText]
    | some w => exact not_mem_of_uses userinfo (spelled.userinfo.found w found).2.mem
  have inPort : a ∉ portText p.port := by
    cases found : p.port with
    | none => simp [portText]
    | some w => exact not_mem_of_uses port (mem_marked.mpr ⟨w, spelled.port w found, rfl⟩)
  have inSchema := not_mem_of_uses schema spelled.schema
  have inHost := not_mem_of_uses host spelled.host.mem
  simp only [Parts.text, Parts.behindSchema, Parts.behindHost, List.mem_append, inSchema, end_, inUserinfo, inHost, inPort,
    false_or]

theorem feed_iff (spelled : p.Spelled) : 10 ∉ p.text ↔ p.rest = [] := by
  rw [mem_text_iff spelled (by decide) (by decide) (by decide +kernel) (by decide +kernel) (by decide), List.mem_append,
    or_iff_right (not_mem_of_uses (by decide +kernel) spelled.path)]
  constructor
  · intro none
    rcases spelled.rest with done | feed
    · exact done
    · exact absurd (List.mem_of_mem_head? feed) none
  · intro done
    simp [done]

end Parts

/-- A URI that is accepted as an absolute one is decomposed exactly when it has no line feed. -/
theorem exact_iff {uri : List UInt8} {v : URIView} {n : Nat} (h : parse uri = .ok (v, n)) (valid : v.valid = true)
    (absolute : v.type = .absolute) : Exact uri v n ↔ 10 ∉ uri := by
  obtain ⟨p, rfl, spelled, viewed, length⟩ := parse_absolute h valid absolute
  rw [Parts.feed_iff spelled]
  constructor
  · intro exact_
    have total := exact_.length
    exact List.eq_nil_of_length_eq_zero (by omega)
  · intro done
    obtain ⟨schema, userinfo, host, port, path, _⟩ := Parts.texts viewed
    have userinfoText_eq : (if p.userinfo.getD [] = [] then [] else p.userinfo.getD [] ++ [64]) =
        userinfoText p.userinfo := by
      cases found : p.userinfo with
      | none => rfl
      | some w => exact if_neg (spelled.userinfo.found w found).1
    have portText_eq : (if p.port.getD [] = [] then [] else 58 :: p.port.getD []) = portText p.port := by
      cases found : p.port with
      | none => rfl
      | some w => exact if_neg (ne_nil_of_mem (by decide) (spelled.port w found))
    constructor
    · rw [done] at length
      exact length
    · rw [host]
      exact spelled.hostNonempty
    · rw [schema, userinfo, host, port, path, userinfoText_eq, portText_eq, Parts.text, Parts.behindSchema,
        Parts.behindHost, done, List.append_nil]
    · rw [viewed.query done]
      rfl
    · exact viewed.fragment
    · rw [schema]
      exact spelled.schema
    · rw [userinfo]
      cases found : p.userinfo with
      | none => simp
      | some w => exact fun _ => (spelled.userinfo.found w found).2.mem
    · rw [host]
      exact spelled.host.mem
    · rw [port]
      cases found : p.port with
      | none => simp
      | some w => exact fun _ => spelled.port w found
    · rw [path]
      exact spelled.path

theorem exact_with_userinfo : parse withUserinfo = .ok (viewWithUserinfo, 9) ∧
    (Exact withUserinfo viewWithUserinfo 9 ↔ 10 ∉ withUserinfo) :=
  ⟨by decide +kernel, exact_iff (by decide +kernel) rfl rfl⟩

/-- `ws://h/`, and a line feed. -/
def fed : List UInt8 := [119, 115, 58, 47, 47, 104, 47, 10]

/-- The line feed is not read. -/
theorem exact_counterexample :
    ∃ v n, parse fed = .ok (v, n) ∧ v.valid = true ∧ v.type = .absolute ∧ ¬Exact fed v n := by
  refine ⟨⟨true, .absolute, ⟨0, 2⟩, .empty, ⟨5, 1⟩, .empty, ⟨6, 1⟩, ⟨8, 4294967295⟩, ⟨7, 0⟩⟩, 7, by decide +kernel, rfl, rfl,
    ?_⟩
  intro exact_
  cases exact_.length

/-! ### Query and fragment -/

/-- The text between the first `?`, if it is before any `#`, and the next `#` or the end. -/
def queryOf (uri : List UInt8) : List UInt8 := ((uri.takeWhile fun b => b ≠ 35).dropWhile fun b => b ≠ 63).drop 1

/-- The text from the first `#` on. -/
def fragmentOf (uri : List UInt8) : List UInt8 := uri.dropWhile fun b => b ≠ 35

def Slice.Is (s : Slice) (uri w : List UInt8) : Prop := s.length = w.length ∧ s.text uri = w

/-- Query and fragment are split off the path, and everything is read. -/
structure Split (uri : List UInt8) (v : URIView) (n : Nat) : Prop where
  path : ∀ b ∈ v.path.text uri, b ≠ 63 ∧ b ≠ 35
  query : v.query.Is uri (queryOf uri)
  fragment : v.fragment.Is uri (fragmentOf uri)
  consumed : n = uri.length

/-- A query, maybe with a fragment; or a URI without any, and without line feeds. -/
def Separable (uri : List UInt8) : Prop :=
  if uri.head? = some 63 then uri ∈ (comp Grammar.query (opt Grammar.fragment)).lang else 10 ∉ uri ∧ 63 ∉ uri ∧ 35 ∉ uri

theorem dropWhile_ne_eq_nil {a : UInt8} {uri : List UInt8} (h : a ∉ uri) : (uri.dropWhile fun b => b ≠ a) = [] := by
  rw [List.dropWhile_eq_nil_iff]
  intro b hb
  exact decide_eq_true fun e => h (e ▸ hb)

theorem takeWhile_ne_eq_self {a : UInt8} {uri : List UInt8} (h : a ∉ uri) : (uri.takeWhile fun b => b ≠ a) = uri := by
  rw [List.takeWhile_eq_self_iff]
  intro b hb
  exact decide_eq_true fun e => h (e ▸ hb)

/-- With a path, everything else of the URI has no mark of a query. -/
theorem split_iff_of_pathForm {uri path rest : List UInt8} {v : URIView} {n : Nat} (form : PathForm uri v n path rest)
    (head : uri.head? ≠ some 63) (marks : 63 ∈ uri ↔ 63 ∈ path ++ rest) (feeds : 10 ∉ uri ↔ rest = []) :
    Split uri v n ↔ Separable uri := by
  rw [Separable, if_neg head, feeds]
  constructor
  · intro split
    have done : rest = [] := by
      have := form.length
      have := split.consumed
      exact List.eq_nil_of_length_eq_zero (by omega)
    refine ⟨done, ?_, ?_⟩
    · rw [marks, done, List.append_nil, ← form.path.2]
      intro mark
      exact (split.path 63 mark).1 rfl
    · intro hash
      have none : fragmentOf uri = [] :=
        List.eq_nil_of_length_eq_zero (split.fragment.1.symm.trans form.fragment)
      rw [fragmentOf, List.dropWhile_eq_nil_iff] at none
      simpa using none 35 hash
  · rintro ⟨done, noMark, noHash⟩
    have inPath (a : UInt8) (h : a ∉ uri) : a ∉ v.path.text uri := fun ha =>
      h (List.mem_of_mem_drop (List.mem_of_mem_take ha))
    refine ⟨?_, ?_, ?_, ?_⟩
    · intro b hb
      exact ⟨fun e => inPath 63 noMark (e ▸ hb), fun e => inPath 35 noHash (e ▸ hb)⟩
    · rw [queryOf, takeWhile_ne_eq_self noHash, dropWhile_ne_eq_nil noMark, form.query done]
      exact ⟨rfl, text_empty uri⟩
    · rw [fragmentOf, dropWhile_ne_eq_nil noHash]
      refine ⟨form.fragment, ?_⟩
      rw [Slice.text, form.fragment, List.take_zero]
    · have := form.length
      rw [done] at this
      exact this

section Query

variable {uri q rest : List UInt8} {v : URIView} {n : Nat}

/-- A query ends at a `#`, so that no other word of the rule with a fragment behind it is longer or shorter. -/
theorem query_eq {q' f : List UInt8} (longest : Longest Grammar.query q rest) (hq' : q' ∈ Grammar.query.lang)
    (hf : f ∈ (opt Grammar.fragment).lang) (text : q ++ rest = q' ++ f) : q = q' ∧ rest = f := by
  have le : q'.length ≤ q.length := longest.longest q' f text hq'
  have within : q' <+: q := List.prefix_of_prefix_length_le ⟨f, text.symm⟩ (List.prefix_append q rest) le
  obtain ⟨more, rfl⟩ := within
  rw [List.append_assoc] at text
  have tail := List.append_cancel_left text
  rcases hf with hf | hf
  · -- the fragment begins with the `#` that the query does not have
    have head := mem_fragment_head hf
    rw [← tail] at head
    cases more with
    | nil => exact ⟨List.append_nil q', tail⟩
    | cons b more =>
      obtain rfl := Option.some.inj head
      have : 35 ∈ q' ++ 35 :: more := by simp
      exact absurd this (not_mem_of_uses (by decide +kernel) longest.mem)
  · obtain rfl := (Language.mem_one f).mp hf
    obtain ⟨rfl, rfl⟩ := List.append_eq_nil_iff.mp tail
    exact ⟨List.append_nil q', rfl⟩

theorem queryOf_append {f : List UInt8} (hq : q ∈ Grammar.query.lang) (hf : f = [] ∨ f.head? = some 35) :
    queryOf (q ++ f) = q.drop 1 ∧ fragmentOf (q ++ f) = f := by
  have noHash : ∀ b ∈ q, decide (b ≠ 35) = true := fun b hb =>
    decide_eq_true fun e => not_mem_of_uses (by decide +kernel) hq (e ▸ hb)
  obtain ⟨x, _, mark⟩ := mem_marked.mp hq
  have whole : (q.dropWhile fun b => decide (b ≠ 63)) = q := by rw [mark, List.dropWhile_cons_of_neg (by decide)]
  rcases hf with rfl | hash
  · rw [List.append_nil, queryOf, fragmentOf, List.takeWhile_eq_self_iff.mpr noHash, whole,
      List.dropWhile_eq_nil_iff.mpr noHash]
    exact ⟨rfl, rfl⟩
  · obtain ⟨t, rfl⟩ := List.head?_eq_some_iff.mp hash
    rw [queryOf, fragmentOf, List.takeWhile_append_of_pos noHash, List.takeWhile_cons_of_neg (by decide),
      List.append_nil, whole, List.dropWhile_append_of_pos noHash, List.dropWhile_cons_of_neg (by decide)]
    exact ⟨rfl, rfl⟩

theorem text_query (hq : q ∈ Grammar.query.lang) : (⟨1, q.length - 1⟩ : Slice).Is (q ++ rest) (q.drop 1) := by
  obtain ⟨x, _, rfl⟩ := mem_marked.mp hq
  exact ⟨by simp, by simp [Slice.text]⟩

theorem split_iff_of_queryForm (form : QueryForm uri v n q rest) : Split uri v n ↔ Separable uri := by
  have mem := form.longest.mem
  have head : uri.head? = some 63 := by
    rw [form.text, List.head?_append_of_ne_nil q form.nonempty]
    exact mem_query_head mem
  have total : uri.length = q.length + rest.length := by rw [form.text, List.length_append]
  rw [Separable, if_pos head]
  constructor
  · intro split
    have consumed := split.consumed
    rcases form.fragment with ⟨done, _⟩ | ⟨feed, read⟩ | ⟨f, t, text, _, longest, _, read⟩
    · rw [form.text, done]
      exact Language.append_mem_mul mem (.inr Language.nil_mem_one)
    · have done : rest = [] := List.eq_nil_of_length_eq_zero (by omega)
      rw [done] at feed
      cases feed
    · have done : t = [] := by
        rw [text, List.length_append] at total
        exact List.eq_nil_of_length_eq_zero (by omega)
      rw [form.text, text, done, List.append_nil]
      exact Language.append_mem_mul mem (.inl longest.mem)
  · intro separable
    obtain ⟨q', hq', f, hf, text⟩ := Language.mem_mul.mp separable
    obtain ⟨rfl, rfl⟩ := query_eq form.longest hq' hf (form.text.symm.trans text.symm)
    have ended : rest = [] ∨ rest.head? = some 35 := by
      rcases hf with hf | hf
      · exact .inr (mem_fragment_head hf)
      · exact .inl ((Language.mem_one rest).mp hf)
    have settled : v.fragment.Is uri rest ∧ n = q.length + rest.length := by
      rcases form.fragment with ⟨done, view, read⟩ | ⟨feed, _⟩ | ⟨f, t, ftext, nonempty, longest, view, read⟩
      · rw [view, done]
        exact ⟨⟨rfl, text_empty _⟩, read⟩
      · rcases ended with done | hash
        · rw [done] at feed
          cases feed
        · cases feed.symm.trans hash
      · have whole : t = [] := by
          rcases hf with hf | hf
          · have := longest.longest rest [] (by rw [List.append_nil, ftext]) hf
            rw [ftext, List.length_append] at this
            exact List.eq_nil_of_length_eq_zero (by omega)
          · rw [(Language.mem_one rest).mp hf] at ftext
            exact absurd (List.append_eq_nil_iff.mp ftext.symm).1 nonempty
        rw [whole, List.append_nil] at ftext
        rw [view, read, form.text, ftext]
        refine ⟨⟨rfl, ?_⟩, rfl⟩
        simpa using text_slice q f []
    obtain ⟨query, fragment⟩ := queryOf_append mem ended
    refine ⟨by rw [form.path, text_empty]; simp, ?_, ?_, ?_⟩
    · rw [form.query, form.text, query]
      exact text_query mem
    · have same : fragmentOf uri = rest := by rw [form.text, fragment]
      rw [same]
      exact settled.1
    · rw [settled.2, total]

end Query

/-- Query and fragment are split off exactly when the URI is a query, maybe with a fragment, or has none. -/
theorem split_iff {uri : List UInt8} {v : URIView} {n : Nat} (h : parse uri = .ok (v, n)) (valid : v.valid = true)
    (type : v.type = .origin ∨ v.type = .absolute) : Split uri v n ↔ Separable uri := by
  have form := parse_accepts h valid
  cases form with
  | star star _ =>
    rw [star] at type
    rcases type with h | h <;> cases h
  | @path path rest _ _ head text mem form =>
    refine split_iff_of_pathForm form (by rw [head]; decide) (by rw [text]) ?_
    have noFeed : 10 ∉ path := not_mem_of_uses (by decide +kernel) mem
    rw [text, List.mem_append, or_iff_right noFeed]
    rcases form.ended with done | feed
    · simp [done]
    · refine iff_of_false (fun none => none (List.mem_of_mem_head? feed)) ?_
      rintro rfl
      cases feed
  | query _ _ form => exact split_iff_of_queryForm form
  | @absolute p head text spelled viewed length =>
    subst text
    obtain ⟨_, _, _, _, path, pathLength⟩ := Parts.texts viewed
    have form : PathForm p.text v n p.path p.rest :=
      ⟨⟨pathLength, path⟩, spelled.rest, viewed.query, viewed.fragment, length⟩
    refine split_iff_of_pathForm form head ?_ (Parts.feed_iff spelled)
    exact Parts.mem_text_iff spelled (by decide) (by decide) (by decide +kernel) (by decide +kernel) (by decide)

theorem split_with_userinfo : parse withUserinfo = .ok (viewWithUserinfo, 9) ∧
    (Split withUserinfo viewWithUserinfo 9 ↔ Separable withUserinfo) :=
  ⟨by decide +kernel, split_iff (by decide +kernel) rfl (.inr rfl)⟩

/-- `/a?b`. -/
def pathWithQuery : List UInt8 := [47, 97, 63, 98]

/-- The path takes the query. -/
theorem split_counterexample :
    ∃ v n, parse pathWithQuery = .ok (v, n) ∧ v.valid = true ∧ v.type = .origin ∧ ¬Split pathWithQuery v n := by
  refine ⟨⟨true, .origin, .empty, .empty, .empty, .empty, ⟨0, 4⟩, .empty, .empty⟩, 4, by decide +kernel, rfl, rfl, ?_⟩
  intro split
  exact (split.path 63 (by decide)).1 rfl

end LAppS.URIView
