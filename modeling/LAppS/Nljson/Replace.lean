import LAppS.Nljson.Access

/-!
# Assigning a table

An assignment is to leave the JSON of the table at its place, whatever was there. `set_lua_table` writes into an old
array or object of the same kind instead, so that old members stay, and cuts keys and strings at a NUL.
-/

namespace LAppS.Nljson
open Lua Nljson.Json

/-! ### The tables and their JSON -/

def indexKey (i : Nat) : Key := .number (.finite ((i + 1 : Nat) : Int))

/-- The keys are the numbers from one to the number of entries. Behind 2^53 not all of them are numbers of Lua. -/
def Sequence (es : List (Key × LuaValue)) : Prop :=
  es.length ≤ 9007199254740992 ∧ (∀ e ∈ es, ∃ i < es.length, e.1 = indexKey i) ∧
    ∀ i < es.length, ∃ e ∈ es, e.1 = indexKey i

instance (es : List (Key × LuaValue)) : Decidable (Sequence es) :=
  inferInstanceAs (Decidable (es.length ≤ 9007199254740992 ∧ (∀ e ∈ es, ∃ i < es.length, e.1 = indexKey i) ∧
    ∀ i < es.length, ∃ e ∈ es, e.1 = indexKey i))

/-- Booleans, numbers, strings and tables of these, each with the keys 1 to n or with strings for keys. -/
def Plain : LuaValue → Prop
  | .boolean _ | .number _ | .string _ => True
  | .table es => (es.map Prod.fst).Nodup ∧ (Sequence es ∨ Keyed es) ∧ ∀ e ∈ es, Plain e.2
  | _ => False
termination_by v => sizeOf v
decreasing_by exact Value.sizeOf_entry_lt ‹_›

structure PlainTable where
  entries : List (Key × LuaValue)
  plain : Plain (.table entries)

/-- A table without entries is taken for a sequence. -/
def shapeOf (es : List (Key × LuaValue)) : LuaTableType := if Sequence es then .array else .map

/-- The member or element that a key is for, byte for byte. -/
def Names : Key → Place → Prop
  | key, .member name => key = .string name
  | key, .element i => key = indexKey i

/-- The JSON value is what the Lua value converts to: an array element by element, an object member by member. -/
def Represents : LuaValue → Json → Prop
  | .boolean b, j => j = .boolean b
  | .number x, j => j = .float x
  | .string s, j => j = .string s
  | .table es, j => j.OfType (shapeOf es) ∧ (∀ p, j.Has p ↔ ∃ e ∈ es, Names e.1 p) ∧
    ∀ e ∈ es, ∀ p, Names e.1 p → Represents e.2 (j.get p)
  | _, _ => False
termination_by v => sizeOf v
decreasing_by exact Value.sizeOf_entry_lt ‹_›

/-! ### Assignments -/

/-- A string that is read as a C string. -/
def cut : LuaValue → LuaValue
  | .string s => .string (cString s)
  | v => v

/-- The old value and the values that are assigned to its place, the last one first, leave what the first argument is
to be. A table leaves the members below it; a key that is cut adds to the values of another place. -/
def Leaves (L : Conversions) : LuaValue → List LuaValue → Json → Prop
  | .table es, us, old =>
    Typed L (shapeOf es) us old ∧
    (∀ p, (below L (shapeOf es) us old).Has p → ∃ e ∈ es, Names e.1 p) ∧
    (∀ d ∈ latest L (shapeOf es) us, ∀ p, placeOf L (shapeOf es) d.1 = some p → ∃ e ∈ es, Names e.1 p) ∧
    ∀ e ∈ es, ∀ p, Names e.1 p →
      Leaves L e.2 (valuesAt L (shapeOf es) p (latest L (shapeOf es) us)) ((below L (shapeOf es) us old).get p)
  | v, [], old => Represents v old
  | v, u :: _, _ => cut u = v
termination_by v => sizeOf v
decreasing_by exact Value.sizeOf_entry_lt ‹_›

/-- A member of an object, or an element of an array or the place behind its last one. -/
inductive Slot where
  | member (members : List (Bytes × Json)) (key : Bytes)
  | element (a : JsonArray) (i : Fin (a.elements.length + 1))

namespace Slot

def container : Slot → Json
  | .member members _ => .object members
  | .element a _ => .array a.elements

def key : Slot → LuaValue
  | .member _ key => .string key
  | .element _ i => luaIndex i

def place : Slot → Place
  | .member _ key => .member (cString key)
  | .element _ i => .element i

def old (slot : Slot) : Json := slot.container.get slot.place

end Slot

/-- All other members and elements are as they were. -/
def SameElsewhere (before after : Json) : Place → Prop
  | .member name => after.isObject = true ∧ ∀ other ≠ name, after.members.lookup other = before.members.lookup other
  | .element i => after.isArray = true ∧ ∀ k ≠ i, after.elements[k]? = before.elements[k]?

/-- After `setval` the value that `getval` reads is the JSON of the table, and no other has changed. -/
def Replaces (L : Conversions) (slot : Slot) (t : PlainTable) : Prop :=
  ∃ fuel o result j, setval L fuel [.table t.entries, slot.key, .userdata slot.container] = .ok (o, result) ∧
    getval L [slot.key, .userdata o] = .ok (.userdata j) ∧ Represents (.table t.entries) j ∧
    SameElsewhere slot.container o slot.place

/-! ### Plain values -/

variable {L : Conversions} {es : List (Key × LuaValue)} {us : List LuaValue} {v : LuaValue} {j old : Json} {p q : Place}

theorem plain_table : Plain (.table es) ↔
    (es.map Prod.fst).Nodup ∧ (Sequence es ∨ Keyed es) ∧ ∀ e ∈ es, Plain e.2 := by
  rw [Plain]

theorem represents_table : Represents (.table es) j ↔
    j.OfType (shapeOf es) ∧ (∀ p, j.Has p ↔ ∃ e ∈ es, Names e.1 p) ∧
      ∀ e ∈ es, ∀ p, Names e.1 p → Represents e.2 (j.get p) := by
  rw [Represents]

theorem leaves_table : Leaves L (.table es) us old ↔
    Typed L (shapeOf es) us old ∧
    (∀ p, (below L (shapeOf es) us old).Has p → ∃ e ∈ es, Names e.1 p) ∧
    (∀ d ∈ latest L (shapeOf es) us, ∀ p, placeOf L (shapeOf es) d.1 = some p → ∃ e ∈ es, Names e.1 p) ∧
    ∀ e ∈ es, ∀ p, Names e.1 p →
      Leaves L e.2 (valuesAt L (shapeOf es) p (latest L (shapeOf es) us)) ((below L (shapeOf es) us old).get p) := by
  rw [Leaves]

theorem indexKey_injective {i k : Nat} (same : indexKey i = indexKey k) : i = k := by
  have cast := Rat.intCast_inj.mp (Number.finite.inj (Key.number.inj same))
  omega

theorem Sequence.indexed (sequence : Sequence es) : Indexed L es := by
  intro e he
  obtain ⟨i, _, key⟩ := sequence.2.1 e he
  have nonzero : (Number.finite (((i + 1 : Nat) : Int) : Rat)).isZero = false := by
    rw [Number.isZero, decide_eq_false_iff_not, Rat.intCast_eq_zero_iff]
    omega
  have integral : (Number.finite (((i + 1 : Nat) : Int) : Rat)).isIntegral = true := by
    rw [Number.isIntegral, Rat.den_intCast]
    rfl
  rw [key, indexKey, Key.toValue, reading, Conversions.toNumber]
  simp only [nonzero, integral]
  rfl

theorem keys_of_plain (plain : Plain (.table es)) : Indexed L es ∨ Keyed es :=
  (plain_table.mp plain).2.1.imp_left Sequence.indexed

theorem wellFormed_of_plain (v : LuaValue) (plain : Plain v) : v.WellFormed := by
  induction v using Value.nested_induction with
  | leaf v leaf =>
    cases v with
    | table es => exact absurd rfl (leaf es)
    | _ => simp [Value.WellFormed]
  | table es ih =>
    obtain ⟨distinct, _, nested⟩ := plain_table.mp plain
    exact Value.wellFormed_table.mpr ⟨distinct, fun e he => ih e he (nested e he)⟩

/-- The keys of a table name all the places up to one that they name. -/
theorem names_upto (plain : Plain (.table es)) (named : ∃ e ∈ es, Names e.1 q) (upto : p.Upto q) :
    ∃ e ∈ es, Names e.1 p := by
  cases q with
  | member name =>
    cases p with
    | member other => obtain rfl : other = name := upto; exact named
    | element => cases upto
  | element k =>
    cases p with
    | member => cases upto
    | element i =>
      obtain ⟨e, he, key⟩ := named
      have key : e.1 = indexKey k := key
      rcases (plain_table.mp plain).2.1 with sequence | keyed
      · obtain ⟨k', inside, same⟩ := sequence.2.1 e he
        obtain rfl := indexKey_injective (key.symm.trans same)
        exact sequence.2.2 i (Nat.lt_of_le_of_lt upto inside)
      · obtain ⟨name, string⟩ := keyed e he
        rw [key] at string
        cases string

theorem not_represents_null (v : LuaValue) : ¬Represents v .null := by
  intro represents
  cases v with
  | table es =>
    have type := (represents_table.mp represents).1
    generalize shapeOf es = shape at type
    cases shape <;> cases type
  | _ => rw [Represents] at represents; cases represents; all_goals nofun

theorem walkable_of_plain (plain : ∀ u ∈ us, Plain u) : Walkable L us := by
  intro es member
  exact fixed_of_keys (keys_of_plain (plain _ member))

theorem plain_latest {type : LuaTableType} (plain : ∀ u ∈ us, Plain u) {d : Key × LuaValue}
    (member : d ∈ latest L type us) : Plain d.2 := by
  induction us with
  | nil => cases member
  | cons u us ih =>
    cases u with
    | table es =>
      rw [latest] at member
      split at member
      · rcases List.mem_append.mp member with earlier | own
        · exact ih (fun u hu => plain u (List.mem_cons_of_mem _ hu)) earlier
        · exact (plain_table.mp (plain _ List.mem_cons_self)).2.2 d own
      · cases member
    | _ => cases member

/-! ### What assignments leave -/

theorem not_represents_container {type : LuaTableType} (leaf : ∀ es, v ≠ .table es) (container : j.OfType type) :
    ¬Represents v j := by
  cases v with
  | table es => exact absurd rfl (leaf es)
  | boolean | number | string =>
    rw [Represents]
    rintro rfl
    cases type <;> cases container
  | _ => rw [Represents]; exact id; all_goals nofun

theorem represents_leaf_iff (leaf : ∀ es, v ≠ .table es) (plain : Plain v) {u : LuaValue} (assigned : Plain u) :
    Represents v (merged L u old) ↔ cut u = v := by
  cases u with
  | table es =>
    apply iff_of_false
    · exact not_represents_container leaf ofType_table
    · exact fun same => leaf es same.symm
  | boolean | number | string =>
    rw [merged]
    cases v with
    | table es => exact absurd rfl (leaf es)
    | boolean | number | string => simp [Represents, cut]
    | _ => simp [Plain] at plain
  | _ => simp [Plain] at assigned

theorem represents_iff (v : LuaValue) (plain : Plain v) (assigned : ∀ u ∈ us, Plain u) :
    Represents v (us.foldr (merged L) old) ↔ Leaves L v us old := by
  induction v using Value.nested_induction generalizing us old with
  | leaf v leaf =>
    cases us with
    | nil =>
      cases v with
      | table es => exact absurd rfl (leaf es)
      | _ => rw [Leaves]; rfl; nofun
    | cons u us =>
      rw [List.foldr_cons, represents_leaf_iff leaf plain (assigned u List.mem_cons_self)]
      cases v with
      | table es => exact absurd rfl (leaf es)
      | _ => rw [Leaves]; nofun
  | table es ih =>
    rw [represents_table, leaves_table, ofType_foldr]
    apply and_congr_right
    intro typed
    have walkable := walkable_of_plain (L := L) assigned
    have has := has_foldr walkable typed
    have each : ∀ e ∈ es, ∀ p, Represents e.2 ((us.foldr (merged L) old).get p) ↔
        Leaves L e.2 (valuesAt L (shapeOf es) p (latest L (shapeOf es) us)) ((below L (shapeOf es) us old).get p) := by
      intro e he p
      rw [get_foldr walkable typed]
      apply ih e he ((plain_table.mp plain).2.2 e he)
      intro u member
      obtain ⟨d, hd, rfl⟩ := mem_of_valuesAt member
      exact plain_latest assigned hd
    constructor
    · intro represents
      obtain ⟨places, values⟩ := represents
      refine ⟨?_, ?_, fun e he p named => (each e he p).mp (values e he p named)⟩
      · intro p there
        exact (places p).mp ((has p).mpr (.inl there))
      · intro d hd p found
        exact (places p).mp ((has p).mpr (.inr ⟨d, hd, p, found, p.upto_refl⟩))
    · intro leaves
      obtain ⟨there, added, values⟩ := leaves
      have values : ∀ e ∈ es, ∀ p, Names e.1 p → Represents e.2 ((us.foldr (merged L) old).get p) :=
        fun e he p named => (each e he p).mpr (values e he p named)
      refine ⟨fun p => ⟨?_, ?_⟩, values⟩
      · intro place
        rcases (has p).mp place with before | ⟨d, hd, q, found, upto⟩
        · exact there p before
        · exact names_upto plain (added d hd q found) upto
      · -- where nothing is, a null is read, which is the JSON of no value
        intro named
        obtain ⟨e, he, named⟩ := named
        by_contra missing
        have value := values e he p named
        rw [get_of_not_has missing] at value
        exact not_represents_null _ value

/-! ### Tables that are assigned -/

theorem convertible_of_plain (v : LuaValue) {visits : List Visit} (plain : Plain v) (assigned : Assigned L v visits) :
    Convertible L v := by
  induction v using Value.nested_induction generalizing visits with
  | leaf v leaf => exact (convertible_leaf leaf).mpr (assigned_leaf leaf assigned).1
  | table es ih =>
    obtain ⟨distinct, _, nested⟩ := plain_table.mp plain
    obtain ⟨fuel, s, old, r, run, rfl⟩ := assigned_table assigned
    obtain ⟨whole, visited⟩ := setLuaTable_visited distinct run
    have keys := keys_of_plain (L := L) plain
    have once := visited.once distinct keys
    refine convertible_table.mpr ⟨whole, keys, ?_⟩
    intro e he
    obtain ⟨visit, _, _, assigned, _⟩ := visited.assigned distinct once he
    exact ih e he (nested e he) assigned

/-- A plain table is assigned exactly if no key in it has a fraction, and then its entries are taken in turn. -/
theorem assign_plain_iff (plain : Plain (.table es)) {s : LuaStack} :
    (∃ fuel r, assign (setLuaTable L fuel) (.table es :: s) old = .ok r ∧ r.json = j) ↔
      Convertible L (.table es) ∧ merged L (.table es) old = j := by
  have runs := runs_of_convertible (L := L) (.table es) (wellFormed_of_plain _ plain)
  constructor
  · intro found
    obtain ⟨fuel, r, assigned, rfl⟩ := found
    have convertible := convertible_of_plain _ plain ⟨fuel, s, old, r, assigned, rfl⟩
    obtain ⟨bound, runs⟩ := runs convertible
    obtain ⟨r', again, json⟩ := runs bound (Nat.le_refl _) s old
    have same : r = r' := setLuaTable_unique (show setLuaTable L fuel (.table es :: s) old = .ok r from assigned) again
    exact ⟨convertible, by rw [same, json]⟩
  · intro condition
    obtain ⟨convertible, rfl⟩ := condition
    obtain ⟨bound, runs⟩ := runs convertible
    obtain ⟨r, assigned, json⟩ := runs bound (Nat.le_refl _) s old
    exact ⟨bound, r, assigned, json⟩

theorem Slot.index_le (a : JsonArray) (i : Fin (a.elements.length + 1)) : i.val ≤ 576460752303423487 :=
  (Nat.le_of_lt_succ i.isLt).trans a.fits

theorem setval_slot (slot : Slot) (v : LuaValue) (fuel : Nat) :
    setval L fuel [v, slot.key, .userdata slot.container] = do
      let r ← assign (setLuaTable L fuel) [v, slot.key, .userdata slot.container] slot.old
      return (slot.container.put r.json slot.place, pushvalue L r.json) := by
  cases slot with
  | member members key =>
    have stored (j : Json) : ((Json.object members).put j (.member (cString key))).get (.member (cString key)) = j :=
      (get_put (j := .object members) (q := .member (cString key)) rfl j _).trans (if_pos rfl)
    simp only [setval, Slot.key, Slot.container, isObject, if_true, stored]
    rfl
  | element a i => exact setval_luaIndex (Slot.index_le a i)

theorem getval_slot (slot : Slot) (j : Json) :
    getval L [slot.key, .userdata (slot.container.put j slot.place)] = .ok (pushvalue L j) := by
  cases slot with
  | member members key =>
    simp only [Slot.key, Slot.container, Slot.place, put, getval, Json.members, lookup_setMember, if_true, Option.elim_some]
  | element a i => exact getval_setElement j (Nat.le_of_lt_succ i.isLt) (Slot.index_le a i)

theorem sameElsewhere_put (slot : Slot) (j : Json) :
    SameElsewhere slot.container (slot.container.put j slot.place) slot.place := by
  cases slot with
  | member members key =>
    refine ⟨rfl, ?_⟩
    intro other ne
    exact (lookup_setMember _ _ _ _).trans (if_neg ne)
  | element a i =>
    refine ⟨rfl, ?_⟩
    intro k ne
    exact (getElem?_setElement _ (Nat.le_of_lt_succ i.isLt) k).trans (if_neg ne)

theorem pushvalue_eq_userdata {k : Json} (pushed : pushvalue L j = .userdata k) : j = k := by
  cases j with
  | array | object => exact Value.userdata.inj pushed
  | _ => cases pushed

theorem pushvalue_table (represents : Represents (.table es) j) : pushvalue L j = .userdata j := by
  have type := (represents_table.mp represents).1
  generalize shapeOf es = shape at type
  cases shape with
  | array => obtain ⟨elements, rfl⟩ := eq_array type; rfl
  | map => obtain ⟨members, rfl⟩ := eq_object type; rfl

theorem replaces_merged (slot : Slot) (t : PlainTable) :
    Replaces L slot t ↔
      Convertible L (.table t.entries) ∧ Represents (.table t.entries) (merged L (.table t.entries) slot.old) := by
  constructor
  · intro replaces
    obtain ⟨fuel, o, result, j, set, read, represents, _⟩ := replaces
    rw [setval_slot] at set
    obtain ⟨r, assigned, done⟩ := bind_ok set
    obtain ⟨rfl, -⟩ := Prod.mk.inj (Except.ok.inj done)
    rw [getval_slot] at read
    obtain rfl := pushvalue_eq_userdata (Except.ok.inj read)
    obtain ⟨convertible, json⟩ := (assign_plain_iff t.plain).mp ⟨fuel, r, assigned, rfl⟩
    exact ⟨convertible, json ▸ represents⟩
  · intro condition
    obtain ⟨convertible, represents⟩ := condition
    obtain ⟨fuel, r, assigned, json⟩ := (assign_plain_iff (s := [slot.key, .userdata slot.container]) t.plain).mpr
      ⟨convertible, rfl⟩
    rw [← json] at represents
    refine ⟨fuel, slot.container.put r.json slot.place, pushvalue L r.json, r.json, ?_, ?_, represents, ?_⟩
    · rw [setval_slot, assigned]
      rfl
    · rw [getval_slot, pushvalue_table represents]
    · exact sameElsewhere_put slot r.json

theorem represents_merged (t : PlainTable) :
    Represents (.table t.entries) (merged L (.table t.entries) old) ↔ Leaves L (.table t.entries) [.table t.entries] old := by
  have assigned : ∀ u ∈ [Value.table t.entries], Plain u := by
    intro u member
    rw [List.mem_singleton.mp member]
    exact t.plain
  exact represents_iff _ t.plain assigned

/-! ### Tables whose keys are not cut -/

/-- The table is taken for what it is, and its keys are read whole. -/
def Direct (L : Conversions) (es : List (Key × LuaValue)) : Prop :=
  typeOf L es = shapeOf es ∧ ∀ e ∈ es, ∀ name, e.1 = .string name → 0 ∉ name

theorem placeOf_eq_iff (plain : Plain (.table es)) (direct : Direct L es) {e : Key × LuaValue} (he : e ∈ es) :
    placeOf L (shapeOf es) e.1 = some p ↔ Names e.1 p := by
  by_cases sequence : Sequence es
  · obtain ⟨i, inside, key⟩ := sequence.2.1 e he
    have short := sequence.1
    have index : indexOf L (indexKey i).toValue = i := indexOf_luaIndex (by omega)
    have place : placeOf L .array (indexKey i) = some (.element i) := by rw [placeOf, locate, index]; rfl
    rw [shapeOf, if_pos sequence, key, place, Option.some.injEq]
    cases p with
    | member name => simp [Names, indexKey]
    | element k =>
      rw [Place.element.injEq]
      exact ⟨congrArg indexKey, indexKey_injective⟩
  · obtain ⟨name, key⟩ := (plain_table.mp plain).2.1.resolve_left sequence e he
    have whole : cString name = name := cString_eq_self_iff.mpr (direct.2 e he name key)
    have place : placeOf L .map (.string name) = some (.member (cString name)) := rfl
    rw [shapeOf, if_neg sequence, key, place, whole, Option.some.injEq]
    cases p with
    | member other => simp [Names]
    | element k => simp [Names, indexKey]

theorem names_unique {key other : Key} (one : Names key p) (two : Names other p) : key = other := by
  cases p with
  | member name => exact Eq.trans one (Eq.symm two)
  | element i => exact Eq.trans one (Eq.symm two)

theorem valuesAt_none {type : LuaTableType} (none_ : ∀ d ∈ es, placeOf L type d.1 ≠ some p) :
    valuesAt L type p es = [] := by
  induction es with
  | nil => rfl
  | cons d es ih =>
    rw [valuesAt, ih fun d hd => none_ d (List.mem_cons_of_mem _ hd), if_neg (none_ d List.mem_cons_self)]
    rfl

theorem valuesAt_unique {type : LuaTableType} (distinct : (es.map Prod.fst).Nodup) {e : Key × LuaValue} (he : e ∈ es)
    (own : ∀ d ∈ es, placeOf L type d.1 = some p ↔ d.1 = e.1) : valuesAt L type p es = [e.2] := by
  induction es with
  | nil => cases he
  | cons d es ih =>
    rw [List.map_cons, List.nodup_cons] at distinct
    have rest : ∀ d ∈ es, placeOf L type d.1 = some p ↔ d.1 = e.1 := fun d hd => own d (List.mem_cons_of_mem _ hd)
    rw [valuesAt]
    rcases List.mem_cons.mp he with rfl | later
    · have others : ∀ d ∈ es, placeOf L type d.1 ≠ some p := by
        intro d hd found
        exact distinct.1 (((rest d hd).mp found) ▸ List.mem_map_of_mem hd)
      rw [valuesAt_none others, if_pos ((own e List.mem_cons_self).mpr rfl)]
      rfl
    · have other : placeOf L type d.1 ≠ some p := by
        intro found
        exact distinct.1 (((own d List.mem_cons_self).mp found) ▸ List.mem_map_of_mem later)
      rw [ih distinct.2 later rest, if_neg other]
      rfl

/-- Then the table is left alone exactly if the old value has no member that the table does not have, and the same holds
of the values of its members. -/
theorem leaves_direct_iff (plain : Plain (.table es)) (direct : Direct L es) :
    Leaves L (.table es) [.table es] old ↔
      (∀ p, (old.reset (shapeOf es)).Has p → ∃ e ∈ es, Names e.1 p) ∧
        ∀ e ∈ es, ∀ p, Names e.1 p → Leaves L e.2 [e.2] ((old.reset (shapeOf es)).get p) := by
  have entries : latest L (shapeOf es) [.table es] = es := by
    rw [latest, if_pos direct.1]
    rfl
  have under : below L (shapeOf es) [.table es] old = old.reset (shapeOf es) := by
    rw [below, if_pos direct.1]
    rfl
  have value : ∀ e ∈ es, ∀ p, Names e.1 p → valuesAt L (shapeOf es) p es = [e.2] := by
    intro e he p named
    apply valuesAt_unique (plain_table.mp plain).1 he
    intro d hd
    rw [placeOf_eq_iff plain direct hd]
    exact ⟨fun other => names_unique other named, fun same => same ▸ named⟩
  rw [leaves_table, entries, under]
  constructor
  · intro leaves
    obtain ⟨_, there, _, values⟩ := leaves
    exact ⟨there, fun e he p named => value e he p named ▸ values e he p named⟩
  · intro condition
    obtain ⟨there, values⟩ := condition
    refine ⟨direct.1, there, ?_, fun e he p named => (value e he p named).symm ▸ values e he p named⟩
    intro d hd p found
    exact ⟨d, hd, (placeOf_eq_iff plain direct hd).mp found⟩

/-- Nothing in the value is cut, and no table in it is taken for another kind. -/
def Intact (L : Conversions) : LuaValue → Prop
  | .string s => 0 ∉ s
  | .table es => Direct L es ∧ ∀ e ∈ es, Intact L e.2
  | _ => True
termination_by v => sizeOf v
decreasing_by exact Value.sizeOf_entry_lt ‹_›

theorem leaves_null (v : LuaValue) (plain : Plain v) (intact : Intact L v) : Leaves L v [v] .null := by
  induction v using Value.nested_induction with
  | leaf v leaf =>
    cases v with
    | table es => exact absurd rfl (leaf es)
    | string s =>
      rw [Intact] at intact
      rw [Leaves, cut, cString_eq_self_iff.mpr intact]
      nofun
    | _ => rw [Leaves]; rfl; nofun
  | table es ih =>
    rw [Intact] at intact
    have nothing (p : Place) : ¬(Json.null.reset (shapeOf es)).Has p := by
      generalize shapeOf es = shape
      cases shape <;> cases p <;> simp [Json.reset, Has, Json.members, Json.elements]
    refine (leaves_direct_iff plain intact.1).mpr ⟨fun p there => absurd there (nothing p), ?_⟩
    intro e he p _
    rw [get_of_not_has (nothing p)]
    exact ih e he ((plain_table.mp plain).2.2 e he) (intact.2 e he)

/-! ### Every table and every place -/

/-- `setval` replaces what was there exactly if no key of a table has a fraction, and the old value together with the
values that are written over it, as their keys are read, leaves the table. Where nothing was, this is so for every table in
which nothing is cut or taken for another kind. -/
theorem setval_replaces_iff (L : Conversions) (slot : Slot) (t : PlainTable) :
    (Replaces L slot t ↔
      Convertible L (.table t.entries) ∧ Leaves L (.table t.entries) [.table t.entries] slot.old) ∧
    (slot.old = .null ∧ Intact L (.table t.entries) → (Replaces L slot t ↔ Convertible L (.table t.entries))) := by
  rw [replaces_merged, represents_merged]
  refine ⟨.rfl, ?_⟩
  rintro ⟨empty, intact⟩
  rw [empty]
  exact and_iff_left (leaves_null _ t.plain intact)

theorem plain_flag : Plain (.table [(.string [121], .boolean true)]) := by
  refine plain_table.mpr ⟨List.nodup_singleton _, .inr ?_, ?_⟩
  · intro e he
    exact ⟨[121], by rw [List.mem_singleton.mp he]⟩
  · intro e he
    rw [List.mem_singleton.mp he, Plain]
    trivial

/-- `{y = true}`. -/
def flag : PlainTable := ⟨_, plain_flag⟩

/-- The member `a` of `{"a": {"x": true}}`. -/
def flagged : Slot := .member [([97], .object [([120], .boolean true)])] [97]

/-- The old member `x` stays. -/
theorem setval_replaces_counterexample :
    (setval .decimal 4 [.table flag.entries, flagged.key, .userdata flagged.container]).map Prod.fst =
      .ok (.object [([97], .object [([120], .boolean true), ([121], .boolean true)])]) ∧
    ¬Replaces .decimal flagged flag := by
  refine ⟨?_, ?_⟩
  · set_option maxRecDepth 2000 in rfl
  intro replaces
  obtain ⟨_, represents⟩ := (replaces_merged _ _).mp replaces
  have leaves := leaves_table.mp ((represents_merged flag).mp represents)
  have shape : shapeOf flag.entries = .map := by decide +kernel
  have type : typeOf .decimal flag.entries = .map := by decide +kernel
  have there : (below .decimal .map [.table flag.entries] flagged.old).Has (.member [120]) := by
    rw [below, if_pos type]
    rfl
  rw [shape] at leaves
  obtain ⟨e, he, named⟩ := leaves.2.1 (.member [120]) there
  obtain rfl := List.mem_singleton.mp he
  cases named

end LAppS.Nljson
