import LAppS.Lua.Api

/-!
# The JSON values of the nljson module

The kinds of numbers are kept apart, as they are pushed on the Lua stack in different ways. Strings are bytes. Memory is
not bounded: an array can grow to any size.
-/

namespace LAppS.Nljson
open Lua

inductive Json where
  | null
  | boolean (b : Bool)
  | integer (i : Int)
  | unsigned (n : Nat)
  | float (x : Number)
  | string (s : Bytes)
  | array (elements : List Json)
  | object (members : List (Bytes × Json))

/-- The exceptions of the module and of the JSON library. -/
inductive Thrown where
  | usage
  | notPod
  | notTable
  | stringKeyForNonMap
  | numericalIndexForNonArray
  | typeError
  | outOfRange
  | callback
  deriving DecidableEq

abbrev Run (α : Type) := Except (Fault Thrown) α

abbrev LuaValue := Value Json

abbrev LuaStack := Stack Json

namespace Json

def isArray : Json → Bool
  | .array _ => true
  | _ => false

def isObject : Json → Bool
  | .object _ => true
  | _ => false

/-- The members of an object. -/
def members : Json → List (Bytes × Json)
  | .object members => members
  | _ => []

def elements : Json → List Json
  | .array elements => elements
  | _ => []

/-- `object[key] = v`, in the order of the keys. -/
def setMember (key : Bytes) (v : Json) : List (Bytes × Json) → List (Bytes × Json)
  | [] => [(key, v)]
  | (k, w) :: members =>
    if key = k then (k, v) :: members
    else if key < k then (key, v) :: (k, w) :: members
    else (k, w) :: setMember key v members

/-- `array[index]` makes the elements up to the index from nulls. -/
def grow (index : Nat) (elements : List Json) : List Json :=
  elements ++ List.replicate (index + 1 - elements.length) .null

/-- `array[index] = v`. -/
def setElement (index : Nat) (v : Json) (elements : List Json) : List Json := (grow index elements).set index v

/-- A member or an element. -/
inductive Place where
  | member (name : Bytes)
  | element (index : Nat)
  deriving DecidableEq

/-- `j[place]`, which makes a null where there is nothing. -/
def get (j : Json) : Place → Json
  | .member name => (j.members.lookup name).getD .null
  | .element index => j.elements[index]?.getD .null

/-- `j[place] = v`. -/
def put (j : Json) (v : Json) : Place → Json
  | .member name => .object (setMember name v j.members)
  | .element index => .array (setElement index v j.elements)

theorem lookup_cons_eq (key : Bytes) (v : Json) (members : List (Bytes × Json)) (k : Bytes) :
    ((key, v) :: members).lookup k = if k = key then some v else members.lookup k := by
  rw [List.lookup_cons]
  by_cases same : k = key
  · rw [if_pos same, beq_iff_eq.mpr same]
  · rw [if_neg same, beq_eq_false_iff_ne.mpr same]

theorem lookup_setMember (key : Bytes) (v : Json) (members : List (Bytes × Json)) (k : Bytes) :
    (setMember key v members).lookup k = if k = key then some v else members.lookup k := by
  induction members with
  | nil => rw [setMember, lookup_cons_eq]
  | cons m members ih =>
    obtain ⟨name, w⟩ := m
    rw [setMember]
    split
    next same =>
      subst same
      simp only [lookup_cons_eq]
      split <;> rfl
    next other =>
      split
      · rw [lookup_cons_eq]
      · rw [lookup_cons_eq, lookup_cons_eq, ih]
        by_cases own : k = name
        · subst own
          rw [if_pos rfl, if_neg (Ne.symm other), if_pos rfl]
        · rw [if_neg own, if_neg own]

@[simp] theorem length_grow (index : Nat) (elements : List Json) :
    (grow index elements).length = max (index + 1) elements.length := by
  rw [grow, List.length_append, List.length_replicate]
  omega

@[simp] theorem length_setElement (index : Nat) (v : Json) (elements : List Json) :
    (setElement index v elements).length = max (index + 1) elements.length := by
  rw [setElement, List.length_set, length_grow]

/-- An element up to the end is set alone. -/
theorem getElem?_setElement {index : Nat} (v : Json) {elements : List Json} (inside : index ≤ elements.length) (i : Nat) :
    (setElement index v elements)[i]? = if i = index then some v else elements[i]? := by
  by_cases own : i = index
  · subst own
    rw [if_pos rfl, setElement, List.getElem?_set_self (by rw [length_grow]; omega)]
  · rw [if_neg own, setElement, List.getElem?_set_ne (Ne.symm own), grow]
    by_cases old : i < elements.length
    · rw [List.getElem?_append_left old]
    · rw [List.getElem?_eq_none (by simp; omega), List.getElem?_eq_none (by omega)]

end Json

/-- `lua_pushinteger`, `lua_pushnumber` and so on, by the kind of the value. An array or object is pushed as a userdata. -/
def pushvalue (L : Conversions) : Json → LuaValue
  | .null => .nil
  | .boolean b => .boolean b
  | .integer i => .number (L.ofInteger i)
  | .unsigned n => .number (L.ofInteger (Int.bmod n 18446744073709551616))
  | .float x => .number x
  | .string s => .string s
  | .array elements => .userdata (.array elements)
  | .object members => .userdata (.object members)

end LAppS.Nljson
