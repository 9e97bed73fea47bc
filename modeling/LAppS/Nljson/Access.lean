import LAppS.Nljson.Merge

/-!
# Reading, writing and erasing members

`getval` and `setval` take Lua's indexes from one on and subtract one; `erase` does not.
-/

namespace LAppS.Nljson
open Lua Nljson.Json

/-- The stack of a call has the last argument on its top. -/
def getval (L : Conversions) : LuaStack → Run LuaValue
  | [key, .userdata jsref] =>
    match key, jsref with
    -- the access to a constant object or array expects the member to exist
    | .string s, .object members => (members.lookup (cString s)).elim (.error .undefined) fun j => .ok (pushvalue L j)
    | .number _, .array elements => elements[indexOf L key]?.elim (.error .undefined) fun j => .ok (pushvalue L j)
    | .string _, _ | .number _, _ => .error (.exception .typeError)
    | _, _ => .ok key
  | [_, _] => .error (.luaError "nljson expected")
  | _ => .error (.exception .usage)

/-- The value that the userdata holds afterwards, and the result. -/
def setval (L : Conversions) (fuel : Nat) (stack : LuaStack) : Run (Json × LuaValue) :=
  match stack with
  | [value, key, .userdata jsref] =>
    let store (place : Place) : Run (Json × LuaValue) := do
      let r ← assign (setLuaTable L fuel) stack (jsref.get place)
      let jsref := jsref.put r.json place
      return (jsref, pushvalue L (jsref.get place))
    match key with
    | .string s => if jsref.isObject then store (.member (cString s)) else .error (.exception .stringKeyForNonMap)
    | .number _ =>
      if jsref.isArray then store (.element (indexOf L key)) else .error (.exception .numericalIndexForNonArray)
    | _ => .ok (jsref, value)
  | [_, _, _] => .error (.luaError "nljson expected")
  | _ => .error (.exception .usage)

/-- The value that the userdata holds afterwards, if there is one, and the result. -/
def erase (L : Conversions) : LuaStack → Run (Option Json × LuaValue)
  | [key, .userdata jsref] =>
    match key, jsref with
    | .number _, .array elements =>
      let idx := (L.toIndex key % 18446744073709551616).toNat
      if idx ≥ elements.length then .error (.exception .outOfRange)
      else .ok (some (.array (elements.eraseIdx idx)), .boolean true)
    | .string s, .object members =>
      if (members.lookup (cString s)).isSome then
        .ok (some (.object (members.eraseP fun m => m.1 = cString s)), .boolean true)
      else .ok (some jsref, .boolean false)
    | _, _ => .ok (some jsref, .boolean false)
  | [_, _] => .error (.luaError "nljson expected")
  | _ => .ok (none, .boolean false)

/-! ### Indexes -/

/-- An array that fits into a `std::vector`. -/
structure JsonArray where
  elements : List Json
  fits : elements.length ≤ 576460752303423487

/-- The Lua number that stands for the element behind the first `i`. -/
def luaIndex (i : Nat) : LuaValue := .number (.finite ((i + 1 : Nat) : Int))

variable {L : Conversions} {i : Nat}

theorem toIndex_luaIndex (inside : i ≤ 576460752303423487) : L.toIndex (luaIndex i) = ((i + 1 : Nat) : Int) := by
  have exact_ := L.toInteger_exact ((i + 1 : Nat) : Int) (by omega) (by omega)
  simp only [Conversions.toIndex, luaIndex, Conversions.toNumber, Option.map_some, Option.getD_some]
  exact exact_

theorem indexOf_luaIndex (inside : i ≤ 576460752303423487) : indexOf L (luaIndex i) = i := by
  rw [indexOf, toIndex_luaIndex inside]
  omega

theorem getval_luaIndex {elements : List Json} (inside : i < elements.length) (small : i ≤ 576460752303423487) :
    getval L [luaIndex i, .userdata (.array elements)] = .ok (pushvalue L elements[i]) := by
  have index : indexOf L (.number (.finite ((i + 1 : Nat) : Int))) = i := indexOf_luaIndex small
  simp only [getval, luaIndex, index, List.getElem?_eq_getElem inside, Option.elim_some]

/-- An element up to the end is read as it was set. -/
theorem getval_setElement {elements : List Json} (j : Json) (inside : i ≤ elements.length)
    (small : i ≤ 576460752303423487) :
    getval L [luaIndex i, .userdata (.array (setElement i j elements))] = .ok (pushvalue L j) := by
  have length : i < (setElement i j elements).length := by rw [length_setElement]; omega
  have own := getElem?_setElement j inside i
  rw [if_pos rfl, List.getElem?_eq_getElem length, Option.some.injEq] at own
  rw [getval_luaIndex length small, own]

theorem erase_luaIndex {elements : List Json} (small : i ≤ 576460752303423487) :
    erase L [luaIndex i, .userdata (.array elements)] =
      if i + 1 ≥ elements.length then .error (.exception .outOfRange)
      else .ok (some (.array (elements.eraseIdx (i + 1))), .boolean true) := by
  have index : L.toIndex (.number (.finite ((i + 1 : Nat) : Int)) : LuaValue) = ((i + 1 : Nat) : Int) :=
    toIndex_luaIndex small
  have place : (((i + 1 : Nat) : Int) % 18446744073709551616).toNat = i + 1 := by omega
  simp only [erase, luaIndex, index, place]

theorem setval_luaIndex {elements : List Json} {fuel : Nat} {v : LuaValue} (small : i ≤ 576460752303423487) :
    setval L fuel [v, luaIndex i, .userdata (.array elements)] = do
      let r ← assign (setLuaTable L fuel) [v, luaIndex i, .userdata (.array elements)] (elements[i]?.getD .null)
      return (.array (setElement i r.json elements), pushvalue L r.json) := by
  have index : indexOf L (.number (.finite ((i + 1 : Nat) : Int))) = i := indexOf_luaIndex small
  have stored (j : Json) : ((Json.array elements).put j (.element i)).get (.element i) = j :=
    (get_put (j := .array elements) (q := .element i) rfl j _).trans (if_pos rfl)
  simp only [setval, luaIndex, isArray, if_true, index, stored]
  rfl

/-! ### One index for all -/

/-- After `erase` the later elements have moved up by one, as `getval` reads them. -/
def ErasesElement (L : Conversions) (a : JsonArray) (i : Fin a.elements.length) : Prop :=
  ∃ rest, erase L [luaIndex i, .userdata (.array a.elements)] = .ok (some (.array rest), .boolean true) ∧
    rest.length = a.elements.length - 1 ∧
    (∀ j < i.val, getval L [luaIndex j, .userdata (.array rest)] = getval L [luaIndex j, .userdata (.array a.elements)]) ∧
    ∀ j, i.val ≤ j → j < a.elements.length - 1 →
      getval L [luaIndex j, .userdata (.array rest)] = getval L [luaIndex (j + 1), .userdata (.array a.elements)]

/-- After `setval` the element is what was given, and no other has changed. -/
def SetsElement (L : Conversions) (a : JsonArray) (i : Fin a.elements.length) (v : LuaValue) : Prop :=
  ∃ fuel elements result, setval L fuel [v, luaIndex i, .userdata (.array a.elements)] = .ok (.array elements, result) ∧
    getval L [luaIndex i, .userdata (.array elements)] = .ok v ∧
    elements.length = a.elements.length ∧ ∀ j, j ≠ i.val → elements[j]? = a.elements[j]?

/-- The values that come back from a JSON value as they were. -/
def Returned : LuaValue → Prop
  | .nil | .boolean _ | .number _ => True
  | .string s => 0 ∉ s
  | .userdata j => j.isArray = true ∨ j.isObject = true
  | .table _ | .reference _ => False

theorem erasesElement_iff (L : Conversions) (a : JsonArray) (i : Fin a.elements.length) :
    ErasesElement L a i ↔ ∃ next : i.val + 1 < a.elements.length,
      pushvalue L a.elements[i] = pushvalue L a.elements[i.val + 1] := by
  have fits := a.fits
  have inside := i.isLt
  unfold ErasesElement
  rw [erase_luaIndex (by omega)]
  constructor
  · intro erases
    obtain ⟨rest, erased, length, before, behind⟩ := erases
    split at erased
    · cases erased
    next next =>
      have next : i.val + 1 < a.elements.length := by omega
      refine ⟨next, ?_⟩
      obtain rfl : a.elements.eraseIdx (i.val + 1) = rest := by simpa using erased
      have moved := behind i.val (Nat.le_refl _) (by omega)
      rw [getval_luaIndex (by omega) (by omega), getval_luaIndex next (by omega)] at moved
      rw [List.getElem_eraseIdx_of_lt _ (by omega)] at moved
      exact Except.ok.inj moved
  · intro condition
    obtain ⟨next, same⟩ := condition
    have length : (a.elements.eraseIdx (i.val + 1)).length = a.elements.length - 1 := List.length_eraseIdx_of_lt next
    refine ⟨a.elements.eraseIdx (i.val + 1), if_neg (by omega), length, ?_, ?_⟩
    · intro j hj
      rw [getval_luaIndex (by omega) (by omega), getval_luaIndex (by omega) (by omega),
        List.getElem_eraseIdx_of_lt _ (by omega)]
    · intro j low high
      rw [getval_luaIndex (by omega) (by omega), getval_luaIndex (by omega) (by omega)]
      rcases Nat.eq_or_lt_of_le low with rfl | low
      · rw [List.getElem_eraseIdx_of_lt _ (by omega)]
        exact congrArg _ same
      · rw [List.getElem_eraseIdx_of_ge _ (by omega)]

/-- A value other than a table is stored, and reads as it was, exactly if it is one that returns. -/
theorem assign_returned_iff {f : LuaStack → Json → Run Converted} {v : LuaValue} {s : LuaStack} {old : Json}
    (nonTable : ∀ es, v ≠ .table es) :
    (∃ r, assign f (v :: s) old = .ok r ∧ pushvalue L r.json = v) ↔ Returned v := by
  have stored : ∀ {j : Json}, assign f (v :: s) old = .ok ⟨v :: s, j, []⟩ →
      ((∃ r, assign f (v :: s) old = .ok r ∧ pushvalue L r.json = v) ↔ pushvalue L j = v) := by
    intro j stored
    rw [stored]
    constructor
    · intro found
      obtain ⟨r, same, pushed⟩ := found
      obtain rfl := Except.ok.inj same
      exact pushed
    · exact fun pushed => ⟨_, rfl, pushed⟩
  cases v with
  | table es => exact absurd rfl (nonTable es)
  | nil => exact (stored (j := .null) rfl).trans (iff_of_true rfl trivial)
  | boolean b => exact (stored (j := .boolean b) rfl).trans (iff_of_true rfl trivial)
  | number x => exact (stored (j := .float x) rfl).trans (iff_of_true rfl trivial)
  | string text =>
    refine (stored (j := .string (cString text)) rfl).trans ?_
    rw [pushvalue, Returned, Value.string.injEq]
    exact cString_eq_self_iff
  | userdata j =>
    refine (stored (j := j) rfl).trans ?_
    cases j <;> simp [pushvalue, Returned, isArray, isObject]
  | reference r =>
    obtain ⟨kind, number⟩ := r
    cases kind with
    | foreign | cdata =>
      apply iff_of_false _ id
      intro found
      obtain ⟨r, failed, _⟩ := found
      cases failed
    | function | thread | lightuserdata => exact (stored (j := .null) rfl).trans (iff_of_false nofun id)

theorem setsElement_iff (L : Conversions) (a : JsonArray) (i : Fin a.elements.length) {v : LuaValue}
    (nonTable : ∀ es, v ≠ .table es) : SetsElement L a i v ↔ Returned v := by
  have fits := a.fits
  have inside := i.isLt
  have read (j : Json) := getval_setElement (L := L) j (Nat.le_of_lt inside) (by omega)
  constructor
  · intro sets
    obtain ⟨fuel, elements, result, set, returned, _⟩ := sets
    rw [setval_luaIndex (by omega)] at set
    obtain ⟨r, assigned, done⟩ := bind_ok set
    obtain ⟨same, -⟩ := Prod.mk.inj (Except.ok.inj done)
    obtain rfl := Json.array.inj same
    rw [read] at returned
    exact (assign_returned_iff nonTable).mp ⟨r, assigned, Except.ok.inj returned⟩
  · intro returned
    have stored : ∃ r, assign (setLuaTable L 0) [v, luaIndex i, .userdata (.array a.elements)]
        (a.elements[i.val]?.getD .null) = .ok r ∧ pushvalue L r.json = v := (assign_returned_iff nonTable).mpr returned
    obtain ⟨r, assigned, pushed⟩ := stored
    refine ⟨0, setElement i r.json a.elements, v, ?_, ?_, ?_, ?_⟩
    · rw [setval_luaIndex (by omega), assigned, ← pushed]
      rfl
    · rw [read, pushed]
    · rw [length_setElement]
      omega
    · intro j other
      rw [getElem?_setElement _ (Nat.le_of_lt inside), if_neg other]

/-- Reading, writing and erasing agree on an index exactly if there is an element behind it that Lua cannot tell from
it, and the value is one that a JSON value keeps. -/
theorem index_laws_iff (L : Conversions) (a : JsonArray) (i : Fin a.elements.length) (v : LuaValue)
    (nonTable : ∀ es, v ≠ .table es) :
    ErasesElement L a i ∧ SetsElement L a i v ↔
      (∃ next : i.val + 1 < a.elements.length, pushvalue L a.elements[i] = pushvalue L a.elements[i.val + 1]) ∧
        Returned v := by
  rw [erasesElement_iff, setsElement_iff L a i nonTable]

theorem pair_fits (x y : Json) : [x, y].length ≤ 576460752303423487 := by
  rw [List.length_cons, List.length_singleton]
  decide

def pair (x y : Json) : JsonArray := ⟨[x, y], pair_fits x y⟩

/-- Of `[true, true]` the first element may be erased. -/
theorem index_laws_twins :
    ErasesElement .decimal (pair (.boolean true) (.boolean true)) ⟨0, Nat.zero_lt_two⟩ ∧
      SetsElement .decimal (pair (.boolean true) (.boolean true)) ⟨0, Nat.zero_lt_two⟩ (.boolean false) :=
  (index_laws_iff .decimal (pair (.boolean true) (.boolean true)) ⟨0, Nat.zero_lt_two⟩ (.boolean false) nofun).mpr
    ⟨⟨Nat.one_lt_two, rfl⟩, trivial⟩

/-- `nljson.erase(a, 1)` takes the second of two elements, and `nljson.erase(a, 2)` throws. -/
theorem index_laws_counterexample :
    erase .decimal [luaIndex 0, .userdata (.array [.boolean true, .boolean false])] =
      .ok (some (.array [.boolean true]), .boolean true) ∧
    erase .decimal [luaIndex 1, .userdata (.array [.boolean true, .boolean false])] = .error (.exception .outOfRange) ∧
    ∀ i, ¬ErasesElement .decimal (pair (.boolean true) (.boolean false)) i := by
  refine ⟨rfl, rfl, ?_⟩
  intro i erases
  obtain ⟨next, same⟩ := (erasesElement_iff _ _ _).mp erases
  obtain ⟨i, inside⟩ := i
  change i + 1 < 2 at next
  obtain rfl : i = 0 := by omega
  cases same

end LAppS.Nljson
