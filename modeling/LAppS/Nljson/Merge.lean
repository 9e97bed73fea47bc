import LAppS.Nljson.Convertible

/-!
# What tables make of an old value

A place of the value that is written into holds what was there before, with the values that the tables have for it
written over it one after the other.
-/

namespace LAppS.Nljson
open Lua Nljson.Json

namespace Json

def OfType : LuaTableType → Json → Prop
  | .map, j => j.isObject = true
  | .array, j => j.isArray = true

def Place.type : Place → LuaTableType
  | .member _ => .map
  | .element _ => .array

/-- There is a member or an element at the place. -/
def Has (j : Json) : Place → Prop
  | .member name => (j.members.lookup name).isSome = true
  | .element index => index < j.elements.length

/-- The places that are made with a place: an array grows up to the index. -/
def Place.Upto : Place → Place → Prop
  | .member name, .member other => name = other
  | .element index, .element other => index ≤ other
  | _, _ => False

theorem Place.upto_refl (p : Place) : p.Upto p := by
  cases p with
  | member name => exact rfl
  | element index => exact Nat.le_refl index

theorem eq_object {j : Json} (type : j.OfType .map) : ∃ members, j = .object members := by
  cases j with
  | object members => exact ⟨members, rfl⟩
  | _ => cases type

theorem eq_array {j : Json} (type : j.OfType .array) : ∃ elements, j = .array elements := by
  cases j with
  | array elements => exact ⟨elements, rfl⟩
  | _ => cases type

theorem getD_setElement (index : Nat) (v : Json) (elements : List Json) (i : Nat) :
    (setElement index v elements)[i]?.getD .null = if i = index then v else elements[i]?.getD .null := by
  by_cases own : i = index
  · subst own
    rw [if_pos rfl, setElement, List.getElem?_set_self (by rw [length_grow]; omega), Option.getD_some]
  · rw [if_neg own, setElement, List.getElem?_set_ne (Ne.symm own), grow, List.getElem?_append]
    split
    · rfl
    · -- a null is read where the array has grown, and where it ends
      rw [List.getElem?_replicate, List.getElem?_eq_none (by omega)]
      split <;> rfl

theorem get_put {j : Json} {q : Place} (type : j.OfType q.type) (v : Json) (p : Place) :
    (j.put v q).get p = if p = q then v else j.get p := by
  cases q with
  | member name =>
    obtain ⟨members, rfl⟩ := eq_object type
    cases p with
    | element index => rfl
    | member other =>
      simp only [put, get, Json.members, lookup_setMember, Place.member.injEq]
      split <;> rfl
  | element index =>
    obtain ⟨elements, rfl⟩ := eq_array type
    cases p with
    | member name => rfl
    | element i =>
      simp only [put, get, Json.elements, getD_setElement, Place.element.injEq]

theorem has_put {j : Json} {q : Place} (type : j.OfType q.type) (v : Json) (p : Place) :
    (j.put v q).Has p ↔ j.Has p ∨ p.Upto q := by
  cases q with
  | member name =>
    obtain ⟨members, rfl⟩ := eq_object type
    cases p with
    | element index => simp [put, Has, Json.elements, Place.Upto]
    | member other =>
      simp only [put, Has, Json.members, lookup_setMember, Place.Upto]
      split <;> simp [*]
  | element index =>
    obtain ⟨elements, rfl⟩ := eq_array type
    cases p with
    | member name => simp [put, Has, Json.members, Place.Upto]
    | element i =>
      simp only [put, Has, Json.elements, length_setElement, Place.Upto]
      omega

theorem ofType_put (j v : Json) (q : Place) : (j.put v q).OfType q.type := by
  cases q <;> rfl

theorem get_of_not_has {j : Json} {p : Place} (none_ : ¬j.Has p) : j.get p = .null := by
  cases p with
  | member name =>
    rw [get, Option.not_isSome_iff_eq_none.mp none_]
    rfl
  | element index =>
    rw [get, List.getElem?_eq_none (Nat.le_of_not_lt none_)]
    rfl

theorem ofType_reset (j : Json) (type : LuaTableType) : (j.reset type).OfType type := by
  cases type <;> rfl

theorem reset_of_ofType {j : Json} {type : LuaTableType} (own : j.OfType type) : j.reset type = j := by
  cases type with
  | map =>
    obtain ⟨members, rfl⟩ := eq_object own
    rfl
  | array =>
    obtain ⟨elements, rfl⟩ := eq_array own
    rfl

theorem reset_of_not_ofType {j : Json} {type : LuaTableType} (other : ¬j.OfType type) :
    j.reset type = Json.null.reset type := by
  cases type <;> cases j <;> first | rfl | exact absurd rfl other

end Json

variable {L : Conversions} {type : LuaTableType} {es : List (Key × LuaValue)} {us : List LuaValue} {j old : Json}

/-! ### The entries of a table -/

def placeOf (L : Conversions) (type : LuaTableType) (key : Key) : Option Place :=
  (locate L type key.toValue).map Prod.snd

theorem type_placeOf {key : Key} {p : Place} (found : placeOf L type key = some p) : p.type = type := by
  cases type with
  | array =>
    obtain rfl := Option.some.inj found
    rfl
  | map =>
    obtain ⟨l, located, rfl⟩ := Option.map_eq_some_iff.mp found
    obtain ⟨text, _, rfl⟩ := Option.map_eq_some_iff.mp located
    rfl

/-- The values for a place, the last one first. -/
def valuesAt (L : Conversions) (type : LuaTableType) (p : Place) : List (Key × LuaValue) → List LuaValue
  | [] => []
  | e :: es => valuesAt L type p es ++ if placeOf L type e.1 = some p then [e.2] else []

theorem mem_of_valuesAt {p : Place} {v : LuaValue} (member : v ∈ valuesAt L type p es) : ∃ e ∈ es, e.2 = v := by
  induction es with
  | nil => cases member
  | cons e es ih =>
    rw [valuesAt, List.mem_append] at member
    rcases member with later | own
    · obtain ⟨d, hd, same⟩ := ih later
      exact ⟨d, List.mem_cons_of_mem _ hd, same⟩
    · split at own
      · exact ⟨e, List.mem_cons_self, (List.mem_singleton.mp own).symm⟩
      · cases own

theorem ofType_mergedEntries (own : j.OfType type) : (mergedEntries L type es j).OfType type := by
  induction es generalizing j with
  | nil => rwa [mergedEntries]
  | cons e es ih =>
    obtain ⟨k, v⟩ := e
    rw [mergedEntries]
    split
    · exact own
    next located =>
      apply ih
      have same := type_placeOf (show placeOf L type k = some _ by rw [placeOf, located]; rfl)
      exact same ▸ ofType_put _ _ _

/-- One step of the loop, at the place of the first entry. -/
theorem mergedEntries_cons {e : Key × LuaValue} (fixed : Fixed L type (e :: es)) (j : Json) :
    ∃ q, placeOf L type e.1 = some q ∧
      mergedEntries L type (e :: es) j = mergedEntries L type es (j.put (merged L e.2 (j.get q)) q) := by
  obtain ⟨q, located⟩ := fixed e List.mem_cons_self
  obtain ⟨k, v⟩ := e
  refine ⟨q, by rw [placeOf, located]; rfl, ?_⟩
  rw [mergedEntries, located]

theorem Fixed.tail {e : Key × LuaValue} (fixed : Fixed L type (e :: es)) : Fixed L type es :=
  fun d hd => fixed d (List.mem_cons_of_mem _ hd)

theorem mergedEntries_append {more : List (Key × LuaValue)} (fixed : Fixed L type es) (j : Json) :
    mergedEntries L type (es ++ more) j = mergedEntries L type more (mergedEntries L type es j) := by
  induction es generalizing j with
  | nil => rw [List.nil_append, mergedEntries]
  | cons e es ih =>
    obtain ⟨q, located⟩ := fixed e List.mem_cons_self
    obtain ⟨k, v⟩ := e
    rw [List.cons_append, mergedEntries, mergedEntries, located]
    exact ih fixed.tail _

theorem get_mergedEntries (fixed : Fixed L type es) (own : j.OfType type) (p : Place) :
    (mergedEntries L type es j).get p = (valuesAt L type p es).foldr (merged L) (j.get p) := by
  induction es generalizing j with
  | nil => rw [mergedEntries]; rfl
  | cons e es ih =>
    obtain ⟨q, here, step⟩ := mergedEntries_cons fixed j
    have same := type_placeOf here
    rw [step, ih fixed.tail (same ▸ ofType_put _ _ _), get_put (same ▸ own), valuesAt, here, List.foldr_append]
    by_cases at_ : p = q
    · subst at_
      rw [if_pos rfl, if_pos rfl]
      rfl
    · rw [if_neg at_, if_neg fun other => at_ (Option.some.inj other).symm]
      rfl

theorem has_mergedEntries (fixed : Fixed L type es) (own : j.OfType type) (p : Place) :
    (mergedEntries L type es j).Has p ↔ j.Has p ∨ ∃ e ∈ es, ∃ q, placeOf L type e.1 = some q ∧ p.Upto q := by
  induction es generalizing j with
  | nil => simp [mergedEntries]
  | cons e es ih =>
    obtain ⟨q, here, step⟩ := mergedEntries_cons fixed j
    have same := type_placeOf here
    rw [step, ih fixed.tail (same ▸ ofType_put _ _ _), has_put (same ▸ own)]
    simp only [List.exists_mem_cons_iff, here, Option.some.injEq, exists_eq_left', or_assoc]

/-! ### Values assigned to one place after another -/

/-- The type of the value that is left, the last assignment first. -/
def Typed (L : Conversions) (type : LuaTableType) : List LuaValue → Json → Prop
  | [], old => old.OfType type
  | .table es :: _, _ => typeOf L es = type
  | .userdata j :: _, _ => j.OfType type
  | _ :: _, _ => False

/-- The entries of the last tables of the type, up to the first value that is none. -/
def latest (L : Conversions) (type : LuaTableType) : List LuaValue → List (Key × LuaValue)
  | .table es :: earlier => if typeOf L es = type then latest L type earlier ++ es else []
  | _ => []

/-- What these entries are written into. -/
def below (L : Conversions) (type : LuaTableType) : List LuaValue → Json → Json
  | [], old => old.reset type
  | .table es :: earlier, old => if typeOf L es = type then below L type earlier old else Json.null.reset type
  | .userdata j :: _, _ => j.reset type
  | _ :: _, _ => Json.null.reset type

theorem ofType_table : (merged L (.table es) old).OfType (typeOf L es) := by
  rw [merged]
  exact ofType_mergedEntries (ofType_reset _ _)

theorem type_unique {type type' : LuaTableType} (one : j.OfType type) (other : j.OfType type') : type = type' := by
  cases type with
  | array =>
    obtain ⟨elements, rfl⟩ := eq_array one
    cases type' with
    | array => rfl
    | map => cases other
  | map =>
    obtain ⟨members, rfl⟩ := eq_object one
    cases type' with
    | array => cases other
    | map => rfl

theorem ofType_foldr : (us.foldr (merged L) old).OfType type ↔ Typed L type us old := by
  cases us with
  | nil => exact Iff.rfl
  | cons u us =>
    rw [List.foldr_cons]
    cases u with
    | table es =>
      constructor
      · exact fun own => type_unique ofType_table own
      · rintro rfl
        exact ofType_table
    | userdata j => rw [merged]; exact Iff.rfl
    | _ =>
      rw [merged]
      constructor
      · intro own
        cases type <;> cases own
      · exact False.elim

/-- The tables among the values leave their keys as they are. -/
def Walkable (L : Conversions) (us : List LuaValue) : Prop :=
  ∀ es, .table es ∈ us → Fixed L (typeOf L es) es

theorem fixed_latest (walkable : Walkable L us) : Fixed L type (latest L type us) := by
  induction us with
  | nil => nofun
  | cons u us ih =>
    cases u with
    | table es =>
      rw [latest]
      split
      next same =>
        subst same
        intro e he
        rcases List.mem_append.mp he with earlier | own
        · exact ih (fun es' h => walkable es' (List.mem_cons_of_mem _ h)) e earlier
        · exact walkable es List.mem_cons_self e own
      · nofun
    | _ => nofun

theorem reset_foldr (walkable : Walkable L us) :
    (us.foldr (merged L) old).reset type = mergedEntries L type (latest L type us) (below L type us old) := by
  induction us with
  | nil =>
    change old.reset type = mergedEntries L type [] (old.reset type)
    rw [mergedEntries]
  | cons u us ih =>
    have earlier : Walkable L us := fun es h => walkable es (List.mem_cons_of_mem _ h)
    rw [List.foldr_cons]
    cases u with
    | table es =>
      rw [latest, below]
      split
      next same =>
        subst same
        rw [reset_of_ofType ofType_table, merged, ih earlier, mergedEntries_append (fixed_latest earlier)]
      next other =>
        rw [mergedEntries]
        exact reset_of_not_ofType fun own => other (type_unique ofType_table own)
    | userdata j =>
      change (merged L (.userdata j) _).reset type = mergedEntries L type [] (j.reset type)
      rw [merged, mergedEntries]
    | nil | reference =>
      change (merged L _ _).reset type = mergedEntries L type [] (Json.null.reset type)
      rw [merged, mergedEntries]
    | boolean | number | string =>
      change (merged L _ _).reset type = mergedEntries L type [] (Json.null.reset type)
      rw [merged, mergedEntries]
      cases type <;> rfl

theorem ofType_below : (below L type us old).OfType type := by
  induction us with
  | nil => exact ofType_reset _ _
  | cons u us ih =>
    cases u with
    | table es =>
      rw [below]
      split
      · exact ih
      · exact ofType_reset _ _
    | _ => exact ofType_reset _ _

theorem foldr_merged (walkable : Walkable L us) (typed : Typed L type us old) :
    us.foldr (merged L) old = mergedEntries L type (latest L type us) (below L type us old) := by
  rw [← reset_foldr walkable, reset_of_ofType (ofType_foldr.mpr typed)]

/-- At each place the values for it are assigned in turn. -/
theorem get_foldr (walkable : Walkable L us) (typed : Typed L type us old) (p : Place) :
    (us.foldr (merged L) old).get p =
      (valuesAt L type p (latest L type us)).foldr (merged L) ((below L type us old).get p) := by
  rw [foldr_merged walkable typed, get_mergedEntries (fixed_latest walkable) ofType_below]

theorem has_foldr (walkable : Walkable L us) (typed : Typed L type us old) (p : Place) :
    (us.foldr (merged L) old).Has p ↔
      (below L type us old).Has p ∨ ∃ e ∈ latest L type us, ∃ q, placeOf L type e.1 = some q ∧ p.Upto q := by
  rw [foldr_merged walkable typed, has_mergedEntries (fixed_latest walkable) ofType_below]

end LAppS.Nljson
