import LAppS.Nljson.Json

/-!
# Lua tables as JSON

`set_lua_table` writes a Lua table into a JSON value in place. It walks the table with `lua_next`, on a stack that it
shares with `getTableType`, which walks the table before it to decide between array and object.
-/

namespace LAppS.Nljson
open Lua Nljson.Json

inductive LuaTableType where
  | array | map
  deriving DecidableEq

/-- How `getTableType` takes a key: the zero counts as no number. -/
inductive Reading where
  | plain | integral | fractional
  deriving DecidableEq

def reading (L : Conversions) (key : LuaValue) : Reading :=
  match L.toNumber key with
  | some index => if index.isZero then .plain else if index.isIntegral then .integral else .fractional
  | none => .plain

def tableType (size count : Nat) : LuaTableType := if size ≠ count then .map else .array

/-- The loop of `getTableType`. At a fraction it pops the value and leaves the key. -/
def getTableTypeLoop (L : Conversions) : Nat → LuaStack → Nat → Nat → Run (LuaTableType × LuaStack)
  | 0, _, _, _ => .error .outOfFuel
  | fuel + 1, stack, size, count => do
    match ← next stack with
    | (false, stack) => return (tableType size count, stack)
    | (true, _ :: key :: s) =>
      match reading L key with
      | .plain => getTableTypeLoop L fuel (key :: s) (size + 1) count
      | .integral => getTableTypeLoop L fuel (key :: s) (size + 1) (count + 1)
      | .fractional => return (tableType (size + 1) count, key :: s)
    | (true, _) => .error .undefined

def getTableType (L : Conversions) (fuel : Nat) (stack : LuaStack) : Run (LuaTableType × LuaStack) :=
  getTableTypeLoop L fuel (.nil :: stack) 0 0

def setPodValue : LuaValue → Run Json
  | .nil | .reference ⟨.lightuserdata, _⟩ | .reference ⟨.thread, _⟩ | .reference ⟨.function, _⟩ => .ok .null
  | .boolean b => .ok (.boolean b)
  | .number x => .ok (.float x)
  | .string s => .ok (.string (cString s))
  | _ => .error (.exception .notPod)

/-- A step of a loop, with the key that `lua_next` gave, the place in an array that it led to, and the steps of the
table that was the value. -/
inductive Visit where
  | mk (key : LuaValue) (index : Option Nat) (nested : List Visit)

def Visit.key : Visit → LuaValue
  | .mk key _ _ => key

def Visit.index : Visit → Option Nat
  | .mk _ index _ => index

def Visit.nested : Visit → List Visit
  | .mk _ _ nested => nested

structure Converted where
  stack : LuaStack
  json : Json
  visits : List Visit

/-- The switch on the type of the value on the top, whose result goes to a place that holds `old`. -/
def assign (setLuaTable : LuaStack → Json → Run Converted) (stack : LuaStack) (old : Json) : Run Converted :=
  match stack with
  | .userdata j :: _ => .ok ⟨stack, j, []⟩
  | .reference ⟨.foreign, _⟩ :: _ => .error (.luaError "nljson expected, got userdata")
  | .table _ :: _ => setLuaTable stack old
  | v :: _ => do return ⟨stack, ← setPodValue v, []⟩
  | [] => .error .undefined

/-- `size_t index = lua_tointeger(L, i) - 1`. -/
def indexOf (L : Conversions) (key : LuaValue) : Nat := ((L.toIndex key - 1) % 18446744073709551616).toNat

/-- The key as the body of the loop leaves it, and the place it stands for: `lua_tostring` replaces a number. -/
def locate (L : Conversions) (type : LuaTableType) (key : LuaValue) : Option (LuaValue × Place) :=
  match type with
  | .map => (L.textOf key).map fun text => (.string text, .member (cString text))
  | .array => some (key, .element (indexOf L key))

def Json.Place.index : Place → Option Nat
  | .member _ => none
  | .element index => some index

/-- A value of another kind becomes an empty object or array. -/
def Json.reset (j : Json) : LuaTableType → Json
  | .map => .object j.members
  | .array => .array j.elements

mutual

def setLuaTable (L : Conversions) : Nat → LuaStack → Json → Run Converted
  | 0, _, _ => .error .outOfFuel
  | fuel + 1, stack, jsref =>
    match stack with
    | .table _ :: _ => do
      let (type, stack) ← getTableType L fuel stack
      setEntries L type fuel (.nil :: stack) (jsref.reset type)
    | _ => .error (.exception .notTable)

/-- The loops over the entries, which differ in the place that a key stands for. -/
def setEntries (L : Conversions) (type : LuaTableType) : Nat → LuaStack → Json → Run Converted
  | 0, _, _ => .error .outOfFuel
  | fuel + 1, stack, jsref => do
    match ← next stack with
    | (false, stack) => return ⟨stack, jsref, []⟩
    | (true, value :: key :: s) =>
      match locate L type key with
      -- a string is made of a null pointer
      | none => .error .undefined
      | some (left, place) =>
        let r ← assign (setLuaTable L fuel) (value :: left :: s) (jsref.get place)
        let rest ← setEntries L type fuel r.stack.tail (jsref.put r.json place)
        return { rest with visits := .mk key place.index r.visits :: rest.visits }
    | (true, _) => .error .undefined

end

/-- All the keys read as numbers other than zero without a fraction. -/
def Indexed (L : Conversions) (es : List (Key × LuaValue)) : Prop :=
  ∀ e ∈ es, reading L e.1.toValue = .integral

instance (L : Conversions) (es : List (Key × LuaValue)) : Decidable (Indexed L es) :=
  inferInstanceAs (Decidable (∀ e ∈ es, reading L e.1.toValue = .integral))

def typeOf (L : Conversions) (es : List (Key × LuaValue)) : LuaTableType := if Indexed L es then .array else .map

mutual

/-- What a table makes of an old value if its entries are taken one after the other. -/
def merged (L : Conversions) : LuaValue → Json → Json
  | .table es, old => mergedEntries L (typeOf L es) es (old.reset (typeOf L es))
  | .boolean b, _ => .boolean b
  | .number x, _ => .float x
  | .string s, _ => .string (cString s)
  | .userdata j, _ => j
  | .nil, _ | .reference _, _ => .null

def mergedEntries (L : Conversions) (type : LuaTableType) : List (Key × LuaValue) → Json → Json
  | [], jsref => jsref
  | (k, v) :: es, jsref =>
    match locate L type k.toValue with
    | none => jsref
    | some (_, place) => mergedEntries L type es (jsref.put (merged L v (jsref.get place)) place)

end

end LAppS.Nljson
