import LAppS.URIView.Grammar

/-!
# The parser of the URIs

`URIView::parse_uri` over its scanners. A scanner takes the longest match of its rule, and where this matches nothing one
byte by the rule `.`, which does not match a line feed. For a line feed no rule is left, and the scanners return what the
generated code returns. A `std::string_view` is an offset and a length in the text that is parsed; the text has a zero
behind it.
-/

namespace LAppS

namespace URIView
open Regex Grammar

structure ParsingResult where
  length : Nat
  value : Bool
  deriving DecidableEq, Repr

/-- What a scanner has found at the beginning of its input. -/
inductive Token where
  | endOfInput
  | rule (length : Nat)
  | anyByte
  | nothing
  deriving DecidableEq, Repr

def scan (rule : Rule) (input : List UInt8) : Token :=
  match input with
  | [] => .endOfInput
  | b :: _ =>
    match rule.longest input with
    | some n => if n = 0 ∧ b ≠ 10 then .anyByte else .rule n
    | none => if b ≠ 10 then .anyByte else .nothing

def parsePathAbempty (input : List UInt8) : ParsingResult :=
  match scan pathAbempty input with
  | .endOfInput | .nothing => ⟨0, true⟩
  | .rule n => ⟨n, true⟩
  | .anyByte => ⟨1, false⟩

/-- The scanner for a query and for a fragment. -/
def parseMarked (rule : Rule) (input : List UInt8) : ParsingResult :=
  match scan rule input with
  | .endOfInput => ⟨0, false⟩
  | .rule n => ⟨n, true⟩
  | .anyByte => ⟨1, false⟩
  | .nothing => ⟨0, true⟩

def parseQuery : List UInt8 → ParsingResult := parseMarked query

def parseFragment : List UInt8 → ParsingResult := parseMarked fragment

def parseSchema (input : List UInt8) : ParsingResult :=
  match scan schema input with
  | .endOfInput | .nothing => ⟨0, false⟩
  | .rule n => ⟨n - 3, true⟩
  | .anyByte => ⟨1, false⟩

def parseUserinfo (input : List UInt8) : ParsingResult :=
  match scan userinfo input with
  | .endOfInput | .nothing | .anyByte => ⟨0, false⟩
  | .rule n => ⟨n - 1, true⟩

def parseHost (input : List UInt8) : ParsingResult :=
  match scan host input with
  | .endOfInput | .nothing => ⟨0, true⟩
  | .rule n => ⟨n, true⟩
  | .anyByte => ⟨1, false⟩

def parsePort (input : List UInt8) : ParsingResult :=
  match scan (comp (char 58) port) input with
  | .endOfInput => ⟨0, false⟩
  | .rule n => ⟨n, true⟩
  | .anyByte | .nothing => ⟨1, false⟩

inductive URIType where
  | invalid | absolute | authority | origin | star
  deriving DecidableEq, Repr

/-- A `std::string_view` into the text. -/
structure Slice where
  offset : Nat
  length : Nat
  deriving DecidableEq, Repr

def Slice.empty : Slice := ⟨0, 0⟩

def Slice.text (s : Slice) (uri : List UInt8) : List UInt8 := (uri.drop s.offset).take s.length

end URIView

structure URIView where
  valid : Bool
  type : URIView.URIType
  schema : URIView.Slice
  userinfo : URIView.Slice
  host : URIView.Slice
  port : URIView.Slice
  path : URIView.Slice
  query : URIView.Slice
  fragment : URIView.Slice
  deriving DecidableEq, Repr

namespace URIView

/-- All members as `parse` sets them at its beginning. -/
def cleared : URIView := ⟨false, .invalid, .empty, .empty, .empty, .empty, .empty, .empty, .empty⟩

variable (uri : List UInt8)

def atFragmentParsing (v : URIView) (offset : Nat) : URIView × ParsingResult :=
  let result := parseFragment (uri.drop offset)
  if result.value then ({ v with fragment := ⟨offset, result.length⟩ }, ⟨offset + result.length, true⟩)
  else if result.length = 0 then (v, ⟨offset, true⟩)
  else (v, ⟨result.length + offset, false⟩)

/-- No code sets the type `AUTHORITY`, for which the query is left out. The length of the query is an `uint32_t`. -/
def atQueryParsing (v : URIView) (offset : Nat) : URIView × ParsingResult :=
  let result := parseQuery (uri.drop offset)
  if result.value then
    atFragmentParsing uri { v with query := ⟨offset + 1, (result.length + 4294967295) % 4294967296⟩ }
      (offset + result.length)
  else if result.length ≠ 0 then (v, ⟨result.length + offset, false⟩)
  else atFragmentParsing uri v offset

def atAbemptyPathParsing (v : URIView) (offset : Nat) : URIView × ParsingResult :=
  let result := parsePathAbempty (uri.drop offset)
  if !result.value then (v, ⟨offset + result.length, false⟩)
  else atQueryParsing uri { v with path := ⟨offset, result.length⟩ } (offset + result.length)

def atPortParsing (v : URIView) (offset : Nat) : URIView × ParsingResult :=
  let result := parsePort (uri.drop offset)
  if result.value then
    let v := { v with port := ⟨offset + 1, result.length - 1⟩ }
    let offset := offset + result.length
    if offset = uri.length ∧ v.host.length > 0 then (v, ⟨offset, true⟩) else atAbemptyPathParsing uri v offset
  else if result.length = 1 ∧ (uri.drop offset).head? = some 47 then atAbemptyPathParsing uri v offset
  else if offset = uri.length ∧ v.host.length > 0 then (v, ⟨result.length + offset, true⟩)
  else (v, ⟨result.length + offset, false⟩)

def atHostParsing (v : URIView) (offset : Nat) : URIView × ParsingResult :=
  let result := parseHost (uri.drop offset)
  if !result.value then
    if result.length ≠ 0 ∨ v.type = .absolute ∧ result.length = 0 then (v, ⟨result.length + offset, false⟩)
    else atPortParsing uri v offset
  else atPortParsing uri { v with host := ⟨offset, result.length⟩ } (offset + result.length)

def atUserinfoParsing (v : URIView) (offset : Nat) : URIView × ParsingResult :=
  let result := parseUserinfo (uri.drop offset)
  if !result.value then
    if result.length ≠ 0 then (v, ⟨result.length + offset, false⟩) else atHostParsing uri v offset
  else atHostParsing uri { v with userinfo := ⟨offset, result.length⟩ } (offset + (result.length + 1))

def atAbsoluteFormParsing (v : URIView) : URIView × ParsingResult :=
  let result := parseSchema uri
  if result.value then
    atUserinfoParsing uri { v with type := .absolute, schema := ⟨0, result.length⟩ } (result.length + 3)
  else if result.length = 0 then atUserinfoParsing uri v 0
  else (v, ⟨0, false⟩)

def parseUri : Except String (URIView × ParsingResult) :=
  if uri.length > 8192 then .error "uri length exceed practically usable length 8192 8-bit symbols"
  else
    match uri with
    | [] => .ok (cleared, ⟨0, false⟩)
    | b :: _ =>
      if b = 42 then .ok ({ cleared with type := .star }, ⟨0, true⟩)
      else if b = 47 then .ok (atAbemptyPathParsing uri { cleared with type := .origin } 0)
      else if b = 63 then .ok (atQueryParsing uri { cleared with type := .origin } 0)
      else .ok (atAbsoluteFormParsing uri cleared)

/-- The view and the length that is returned. -/
def parse : Except String (URIView × Nat) := do
  let (v, result) ← parseUri uri
  return ({ v with valid := result.value }, result.length)

end URIView
end LAppS
