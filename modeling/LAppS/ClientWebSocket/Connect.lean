import LAppS.ClientWebSocket.Input
import LAppS.Shakespeer
import LAppS.URIView.Components

/-!
# The constructor of a client connection

`ClientWebSocket::ClientWebSocket` takes the scheme, the host and the port from the URI. It looks at the first three
characters of the scheme, narrows the port to 16 bits, and sets `tls` for one of the schemes only.
-/

namespace LAppS.ClientWebSocket
open Regex URIView

def isDigit (b : UInt8) : Bool := 48 ≤ b && b ≤ 57

def decimal (digits : List UInt8) : Nat := digits.foldl (fun n b => 10 * n + (b.toNat - 48)) 0

/-- `strtol` for a text that begins with a digit; it reads on behind the view. -/
def strtol (text : List UInt8) : Nat := decimal (text.takeWhile isDigit)

/-- The connection that is opened. -/
structure Opened where
  hostname : List UInt8
  port : Nat
  tls : Bool
  requestTarget : List UInt8
  mState : State

/-- `operator[]` of a view, which reads on behind it. -/
def byteAt (uri : List UInt8) (s : Slice) (i : Nat) : UInt8 := uri.getD (s.offset + i) 0

/-- `tls` is the member before it is assigned, and `open` succeeds. -/
def connect (tls : Bool) (uri : List UInt8) : Except String Opened :=
  match URIView.parse uri with
  | .error e => .error e
  | .ok (v, parsed) =>
    if parsed > 0 ∧ v.valid then
      let port := if v.port.length ≠ 0 then strtol (uri.drop v.port.offset) % 65536 else 0
      if v.schema.length ≠ 0 ∧ ¬(byteAt uri v.schema 0 = 119 ∧ byteAt uri v.schema 1 = 115) then
        .error ("Invalid schema `" ++ Shakespeer.text (v.schema.text uri) ++ "' in URI " ++ Shakespeer.text uri)
      else
        let tls := if v.schema.length ≠ 0 ∧ byteAt uri v.schema 2 = 115 then true else tls
        let port := if tls then if port = 0 then 443 else port else if port = 0 then 80 else port
        if v.host.length > 0 then
          let host := v.host.text uri
          .ok {
            hostname := if byteAt uri v.host 0 = 91 then (host.drop 1).take (host.length - 2) else host
            port
            tls
            requestTarget := if v.path.length = 0 then ascii "/" else v.path.text uri
            mState := if tls then .connect else .upgrade }
        else .error ("Invalid hostname `" ++ Shakespeer.text (v.host.text uri) ++ "' in URI " ++ Shakespeer.text uri)
    else .error ("The URI ´" ++ Shakespeer.text uri ++ "' is invalid")

/-! ### The URI of a connection -/

def ws : List UInt8 := [119, 115]

def wss : List UInt8 := [119, 115, 115]

/-- The connection is the one that the components of the URI ask for. -/
structure AsWritten (uri : List UInt8) (v : URIView) (c : Opened) : Prop where
  scheme : v.schema.text uri = ws ∨ v.schema.text uri = wss
  tls : c.tls = true ↔ v.schema.text uri = wss
  port : c.port = if v.port.text uri ≠ [] then decimal (v.port.text uri) else if v.schema.text uri = wss then 443 else 80

/-- The scheme `wss`, or `ws` with a member that is false already, and a port of 16 bits. -/
structure Supported (tls : Bool) (scheme port : List UInt8) : Prop where
  scheme : scheme = wss ∨ scheme = ws ∧ tls = false
  port : port ≠ [] → decimal port ≤ 65535

section Connect

variable {tls : Bool} {uri : List UInt8} {c : Opened} {p : Parts} {v : URIView}

theorem decimal_pos {b : UInt8} (hb : 48 < b.toNat) (digits : List UInt8) : 0 < decimal (b :: digits) := by
  have grows (n : Nat) (hn : 0 < n) : 0 < digits.foldl (fun n b => 10 * n + (b.toNat - 48)) n := by
    induction digits generalizing n with
    | nil => exact hn
    | cons d digits ih => exact ih (10 * n + (d.toNat - 48)) (by omega)
  exact grows (10 * 0 + (b.toNat - 48)) (by omega)

/-- A port is made of digits, the first of them not a zero. -/
theorem mem_port {q : List UInt8} (h : q ∈ Grammar.port.lang) : (∀ b ∈ q, isDigit b = true) ∧ 0 < decimal q := by
  constructor
  · intro b hb
    have used := uses_of_mem h hb
    simp only [Grammar.port, Grammar.digit, atMost, opt, uses, inRanges, List.any_cons, List.any_nil, Bool.or_false,
      Bool.or_self, Bool.or_eq_true, Bool.and_eq_true, decide_eq_true_eq] at used
    simp only [isDigit, Bool.and_eq_true, decide_eq_true_eq]
    rcases used with ⟨low, high⟩ | digit
    · exact ⟨UInt8.le_trans (by decide) low, high⟩
    · exact digit
  · obtain ⟨first, ⟨b, inside, rfl⟩, rest, _, rfl⟩ := Language.mem_mul.mp h
    refine decimal_pos ?_ rest
    have low : (49 : UInt8) ≤ b := by
      simp only [inRanges, List.any_cons, List.any_nil, Bool.or_false, Bool.and_eq_true, decide_eq_true_eq] at inside
      exact inside.1
    exact UInt8.le_iff_toNat_le.mp low

/-- The text behind a port does not begin with a digit. -/
theorem strtol_port (spelled : p.Spelled) {q : List UInt8} (found : p.port = some q) :
    strtol (p.text.drop (p.portOffset + 1)) = decimal q := by
  have split : p.text = (p.schema ++ Grammar.schemeEnd ++ userinfoText p.userinfo ++ p.host ++ [58]) ++
      (q ++ (p.path ++ p.rest)) := by
    simp [Parts.text, Parts.behindSchema, Parts.behindHost, found, portText]
  have offset : p.portOffset + 1 =
      (p.schema ++ Grammar.schemeEnd ++ userinfoText p.userinfo ++ p.host ++ [58]).length := by
    simp [Parts.portOffset, Parts.hostOffset, Parts.userinfoOffset, Nat.add_assoc]
  have stops : (p.path ++ p.rest).takeWhile isDigit = [] := by
    by_cases empty : p.path = []
    · rcases spelled.rest with done | feed
      · rw [empty, done]
        rfl
      · obtain ⟨t, ht⟩ := List.head?_eq_some_iff.mp feed
        rw [empty, ht]
        rfl
    · obtain ⟨t, ht⟩ := List.head?_eq_some_iff.mp (path_head spelled.path empty)
      rw [ht]
      rfl
  rw [strtol, split, offset, List.drop_left,
    List.takeWhile_append_of_pos (mem_port (spelled.port q found)).1, stops, List.append_nil]

/-- What the constructor has done when it does not throw. -/
structure Constructed (tls : Bool) (uri : List UInt8) (v : URIView) (c : Opened) : Prop where
  tls_eq : c.tls = if byteAt uri v.schema 2 = 115 then true else tls
  port : c.port =
    let port := if v.port.length ≠ 0 then strtol (uri.drop v.port.offset) % 65536 else 0
    if port = 0 then if c.tls then 443 else 80 else port

theorem default_port (tls : Bool) (port : Nat) :
    (if tls then if port = 0 then 443 else port else if port = 0 then 80 else port) =
      if port = 0 then if tls then 443 else 80 else port := by
  cases tls with
  | false => rfl
  | true => rfl

theorem connect_ok {n : Nat} (h : URIView.parse uri = .ok (v, n)) (opened : connect tls uri = .ok c) :
    ∃ p : Parts, uri = p.text ∧ p.Spelled ∧ p.Viewed v ∧ Constructed tls uri v c := by
  unfold connect at opened
  rw [h] at opened
  dsimp only at opened
  split at opened
  next valid =>
    have form := parse_accepts h valid.2
    split at opened
    · cases opened
    next scheme =>
      split at opened
      next host =>
        cases form with
        | star _ empty => rw [empty] at host; cases host
        | path _ empty => rw [empty] at host; cases host
        | query _ empty => rw [empty] at host; cases host
        | @absolute p _ text spelled viewed _ =>
          have named : v.schema.length ≠ 0 := by
            rw [viewed.schema]
            exact fun e => ne_nil_of_mem (by decide) spelled.schema (List.eq_nil_of_length_eq_zero e)
          cases opened
          refine ⟨p, text, spelled, viewed, ?_, ?_⟩
          · simp only [named, ne_eq, not_false_eq_true, true_and]
          · exact default_port _ _
      · cases opened
  · cases opened

/-- The byte behind the scheme `ws` is the colon. -/
theorem tls_of_scheme (viewed : p.Viewed v) (constructed : Constructed tls p.text v c) :
    (p.schema = ws → c.tls = tls) ∧ (p.schema = wss → c.tls = true) := by
  have byte (i : Nat) : byteAt p.text v.schema i = (p.schema ++ 58 :: ([47, 47] ++ p.behindSchema)).getD i 0 := by
    rw [byteAt, viewed.schema, Nat.zero_add, Parts.text, List.append_assoc]
    rfl
  rw [constructed.tls_eq, byte 2]
  constructor
  · intro scheme
    rw [scheme]
    rfl
  · intro scheme
    rw [scheme]
    rfl

theorem port_of_constructed (spelled : p.Spelled) (viewed : p.Viewed v) (constructed : Constructed tls p.text v c) :
    c.port = match p.port with
      | some q => if decimal q % 65536 = 0 then if c.tls then 443 else 80 else decimal q % 65536
      | none => if c.tls then 443 else 80 := by
  rw [constructed.port, viewed.port]
  cases found : p.port with
  | none => rfl
  | some q =>
    have nonempty : q.length ≠ 0 := fun e =>
      ne_nil_of_mem (by decide) (spelled.port q found) (List.eq_nil_of_length_eq_zero e)
    simp only [Option.elim_some, ne_eq, nonempty, not_false_eq_true, if_true, strtol_port spelled found]

/-- A connection is the one that the URI asks for exactly when the scheme and the port are supported. -/
theorem as_written_iff {n : Nat} (h : URIView.parse uri = .ok (v, n)) (opened : connect tls uri = .ok c) :
    AsWritten uri v c ↔ Supported tls (v.schema.text uri) (v.port.text uri) := by
  obtain ⟨p, rfl, spelled, viewed, constructed⟩ := connect_ok h opened
  obtain ⟨schema, _, _, port, _, _⟩ := Parts.texts viewed
  obtain ⟨tlsWs, tlsWss⟩ := tls_of_scheme viewed constructed
  have number := port_of_constructed spelled viewed constructed
  have different : ws ≠ wss := by decide
  constructor
  · rintro ⟨scheme, tls_, port_⟩
    rw [schema] at scheme tls_ port_ ⊢
    rw [port] at port_ ⊢
    constructor
    · rcases scheme with scheme | scheme
      · refine .inr ⟨scheme, ?_⟩
        rw [← tlsWs scheme, ← Bool.not_eq_true, tls_, scheme]
        exact different
      · exact .inl scheme
    · intro given
      rw [if_pos given] at port_
      cases found : p.port with
      | none =>
        rw [found] at given
        exact absurd rfl given
      | some q =>
        -- a number of 16 bits is opened
        rw [found] at port_ number
        rw [Option.getD_some] at port_ ⊢
        rw [← port_, number]
        dsimp only
        split
        · split <;> decide
        · omega
  · rintro ⟨scheme, port_⟩
    rw [schema] at scheme
    rw [port] at port_
    have tls_ : c.tls = true ↔ p.schema = wss := by
      rcases scheme with scheme | ⟨scheme, unset⟩
      · exact iff_of_true (tlsWss scheme) scheme
      · rw [tlsWs scheme, unset, scheme]
        exact iff_of_false (by decide) different
    refine ⟨?_, ?_, ?_⟩
    · rw [schema]
      exact scheme.symm.imp_left And.left
    · rw [schema]
      exact tls_
    · rw [schema, port, number]
      cases found : p.port with
      | none => simp only [Option.getD_none, ne_eq, not_true_eq_false, if_false, tls_]
      | some q =>
        have nonempty := ne_nil_of_mem (by decide) (spelled.port q found)
        have positive := (mem_port (spelled.port q found)).2
        rw [found] at port_
        have small := port_ nonempty
        have same : decimal q % 65536 = decimal q := Nat.mod_eq_of_lt (by rw [Option.getD_some] at small; omega)
        simp only [Option.getD_some, ne_eq, nonempty, not_false_eq_true, if_true, same,
          if_neg (Nat.pos_iff_ne_zero.mp positive)]

end Connect

/-- `wss://h:8080/`. -/
def secureUri : List UInt8 := [119, 115, 115, 58, 47, 47, 104, 58, 56, 48, 56, 48, 47]

theorem as_written_secure : ∃ v n c, URIView.parse secureUri = .ok (v, n) ∧ connect false secureUri = .ok c ∧
    (AsWritten secureUri v c ↔ Supported false (v.schema.text secureUri) (v.port.text secureUri)) := by
  have parsed : URIView.parse secureUri =
      .ok (⟨true, .absolute, ⟨0, 3⟩, .empty, ⟨6, 1⟩, ⟨8, 4⟩, ⟨12, 1⟩, .empty, .empty⟩, 13) := by decide +kernel
  have opened : connect false secureUri = .ok ⟨[104], 8080, true, [47], .connect⟩ := by
    rw [connect, parsed]
    rfl
  exact ⟨_, _, _, parsed, opened, as_written_iff parsed opened⟩

/-- `ws://h:65537/`. -/
def widePort : List UInt8 := [119, 115, 58, 47, 47, 104, 58, 54, 53, 53, 51, 55, 47]

/-- The port 1 is opened. -/
theorem as_written_counterexample : ∃ v n c, URIView.parse widePort = .ok (v, n) ∧ connect false widePort = .ok c ∧
    ¬AsWritten widePort v c := by
  have parsed : URIView.parse widePort =
      .ok (⟨true, .absolute, ⟨0, 2⟩, .empty, ⟨5, 1⟩, ⟨7, 5⟩, ⟨12, 1⟩, .empty, .empty⟩, 13) := by decide +kernel
  have opened : connect false widePort = .ok ⟨[104], 1, false, [47], .upgrade⟩ := by
    rw [connect, parsed]
    rfl
  refine ⟨_, _, _, parsed, opened, ?_⟩
  intro asWritten
  exact absurd asWritten.port (by decide)

end LAppS.ClientWebSocket
