import LAppS.Nljson.Walk
import Mathlib.Data.List.Nodup

/-!
# The tables that can be converted

A key with a fraction is left on the stack, a key that is a number among others is replaced while `lua_next` needs it,
and a number far from the others is taken as an index. All other tables are walked entry by entry.
-/

namespace LAppS.Nljson
open Lua Nljson.Json

variable {L : Conversions} {es post : List (Key × LuaValue)} {key v : LuaValue} {s : LuaStack} {fuel : Nat}
  {type : LuaTableType} {visits : List Visit}

/-! ### What a conversion is to do -/

/-- The law holds of every table in the value with the visits of its loop. -/
def Traced (law : List (Key × LuaValue) → List Visit → Prop) : LuaValue → List Visit → Prop
  | .table es, visits =>
    law es visits ∧ ∀ e ∈ es, ∀ visit ∈ visits, visit.key = e.1.toValue → Traced law e.2 visit.nested
  | _, visits => visits = []
termination_by v => sizeOf v
decreasing_by exact Value.sizeOf_entry_lt ‹_›

theorem traced_table {law : List (Key × LuaValue) → List Visit → Prop} :
    Traced law (.table es) visits ↔ law es visits ∧
      ∀ e ∈ es, ∀ visit ∈ visits, visit.key = e.1.toValue → Traced law e.2 visit.nested := by
  rw [Traced]

theorem traced_leaf {law : List (Key × LuaValue) → List Visit → Prop} (leaf : ∀ es, v ≠ .table es) :
    Traced law v visits ↔ visits = [] := by
  cases v with
  | table es => exact absurd rfl (leaf es)
  | _ => rw [Traced]; nofun

/-- Every entry of every table exactly once. -/
def VisitsOnce : LuaValue → List Visit → Prop :=
  Traced fun es visits => (visits.map Visit.key).Perm (es.map fun e => e.1.toValue)

/-- No place of an array behind the number of entries. -/
def IndexesWithin : LuaValue → List Visit → Prop :=
  Traced fun es visits => ∀ visit ∈ visits, ∀ index ∈ visit.index, index ≤ es.length

structure Converts (L : Conversions) (t : Table Json) : Prop where
  typed : ∀ s, ∃ fuel type, getTableType L fuel (.table t.entries :: s) = .ok (type, .table t.entries :: s)
  converted : ∀ s old, ∃ fuel r, setLuaTable L fuel (.table t.entries :: s) old = .ok r ∧
    r.stack = .table t.entries :: s ∧ VisitsOnce (.table t.entries) r.visits ∧ IndexesWithin (.table t.entries) r.visits

/-- A value other than a table that the switch accepts. -/
def Storable : LuaValue → Prop
  | .table _ | .reference ⟨.foreign, _⟩ | .reference ⟨.cdata, _⟩ => False
  | _ => True

def Keyed (es : List (Key × LuaValue)) : Prop := ∀ e ∈ es, ∃ s, e.1 = .string s

/-- No key of a table has a fraction, and the keys are all numbers other than zero or all strings. -/
def Convertible (L : Conversions) : LuaValue → Prop
  | .table es => ¬Fractional L es ∧ (Indexed L es ∨ Keyed es) ∧ ∀ e ∈ es, Convertible L e.2
  | v => Storable v
termination_by v => sizeOf v
decreasing_by exact Value.sizeOf_entry_lt ‹_›

/-- The numbers of an array lie from one to one more than the number of entries. -/
def IndexesFit (L : Conversions) : LuaValue → Prop
  | .table es => (Indexed L es → ∀ e ∈ es, indexOf L e.1.toValue ≤ es.length) ∧ ∀ e ∈ es, IndexesFit L e.2
  | _ => True
termination_by v => sizeOf v
decreasing_by exact Value.sizeOf_entry_lt ‹_›

theorem convertible_table : Convertible L (.table es) ↔
    ¬Fractional L es ∧ (Indexed L es ∨ Keyed es) ∧ ∀ e ∈ es, Convertible L e.2 := by
  rw [Convertible]

theorem indexesFit_table : IndexesFit L (.table es) ↔
    (Indexed L es → ∀ e ∈ es, indexOf L e.1.toValue ≤ es.length) ∧ ∀ e ∈ es, IndexesFit L e.2 := by
  rw [IndexesFit]

theorem convertible_leaf (leaf : ∀ es, v ≠ .table es) : Convertible L v ↔ Storable v := by
  cases v with
  | table es => exact absurd rfl (leaf es)
  | _ => rw [Convertible]; nofun

theorem indexesFit_leaf (leaf : ∀ es, v ≠ .table es) : IndexesFit L v := by
  cases v with
  | table es => exact absurd rfl (leaf es)
  | _ => rw [IndexesFit]; trivial; nofun

/-! ### The visits of a loop -/

theorem assigned_table (h : Assigned L (.table es) visits) :
    ∃ fuel s old r, setLuaTable L fuel (.table es :: s) old = .ok r ∧ r.visits = visits := h

theorem assigned_leaf (leaf : ∀ es, v ≠ .table es) (h : Assigned L v visits) : Storable v ∧ visits = [] := by
  obtain ⟨fuel, s, old, r, assigned, rfl⟩ := h
  unfold assign at assigned
  split at assigned
  next same =>
    obtain ⟨rfl, -⟩ := List.cons.inj same
    exact ⟨trivial, Except.ok.inj assigned ▸ rfl⟩
  · cases assigned
  next same =>
    obtain ⟨rfl, -⟩ := List.cons.inj same
    exact absurd rfl (leaf _)
  next same =>
    obtain ⟨rfl, -⟩ := List.cons.inj same
    obtain ⟨j, pod, done⟩ := bind_ok assigned
    refine ⟨?_, Except.ok.inj done ▸ rfl⟩
    unfold setPodValue at pod
    split at pod <;> trivial
  · cases assigned

theorem Visited.of_mem (h : Visited L type es key visits) {visit : Visit} (member : visit ∈ visits) :
    ∃ e ∈ es, ∃ left place, visit.key = e.1.toValue ∧ locate L type e.1.toValue = some (left, place) ∧
      visit.index = place.index ∧ Assigned L e.2 visit.nested ∧ after es left ≠ none := by
  induction h with
  | ended => cases member
  | @entry key left e place nested more found located assigned continues ih =>
    rcases List.mem_cons.mp member with rfl | member
    · refine ⟨e, mem_of_after found, left, place, rfl, located, rfl, assigned, ?_⟩
      cases continues with
      | ended last => simp [last]
      | entry found => simp [found]
    · exact ih member

/-- The keys follow each other as `lua_next` gives them. -/
theorem Visited.head (h : Visited L type es key visits) :
    (visits.map Visit.key).head? = (after es key).join.map fun e => e.1.toValue := by
  cases h with
  | ended last => simp [last]
  | entry found => simp [found, Visit.key]

def follower (L : Conversions) (type : LuaTableType) (es : List (Key × LuaValue)) (key : LuaValue) : Option LuaValue :=
  ((locate L type key).bind fun l => (after es l.1).join).map fun e => e.1.toValue

theorem Visited.follower (h : Visited L type es key visits) (m : Nat) (inside : m < (visits.map Visit.key).length) :
    Nljson.follower L type es (visits.map Visit.key)[m] = (visits.map Visit.key)[m + 1]? := by
  induction h generalizing m with
  | ended => simp at inside
  | entry found located assigned continues ih =>
    cases m with
    | zero =>
      have head := continues.head
      simp only [List.map_cons, List.getElem_cons_zero, List.getElem?_cons_succ, Visit.key]
      rw [← List.head?_eq_getElem?, head, Nljson.follower, located]
      rfl
    | succ m =>
      have next := ih m (by simpa using inside)
      simpa using next

/-- With a number among the keys of an object, an entry is not visited or two are followed by the same. -/
theorem Visited.keyed (h : Visited L .map es key visits)
    (once : (visits.map Visit.key).Perm (es.map fun e => e.1.toValue)) (distinct : (es.map Prod.fst).Nodup) : Keyed es := by
  intro e he
  have nodup : (visits.map Visit.key).Nodup := by
    rw [once.nodup_iff]
    have mapped := List.Nodup.map (Key.toValue_injective : Function.Injective (Key.toValue : Key → LuaValue)) distinct
    rwa [List.map_map] at mapped
  have visited : e.1.toValue ∈ visits.map Visit.key := once.mem_iff.mpr (List.mem_map_of_mem he)
  obtain ⟨visit, member, same⟩ := List.mem_map.mp visited
  obtain ⟨d, _, left, place, own, located, _, _, goesOn⟩ := h.of_mem member
  rw [← own, same] at located
  cases name : e.1 with
  | string text => exact ⟨text, rfl⟩
  | boolean | reference => simp [name, locate, Key.toValue, Conversions.textOf] at located
  | number x =>
    exfalso
    rw [name] at located visited
    obtain ⟨rfl, -⟩ : (.string (L.toText x) : LuaValue) = left ∧ _ := by
      simpa [locate, Key.toValue, Conversions.textOf] using located
    -- the text is a key as well, and both lead on to the entry behind it
    have behindText : after es ((Key.string (L.toText x)).toValue) ≠ none := goesOn
    rw [after_toValue] at behindText
    obtain ⟨entry, found⟩ := Option.ne_none_iff_exists'.mp behindText
    have other : (Key.string (L.toText x)).toValue ∈ visits.map Visit.key := by
      rw [once.mem_iff]
      obtain ⟨d, hd, same⟩ := List.mem_map.mp (mem_of_behind found)
      exact List.mem_map.mpr ⟨d, hd, by rw [same]⟩
    have equal := follower_injective nodup h.follower visited other rfl
    cases equal

/-! ### Tables that were converted -/

theorem entry_unique {d e : Key × LuaValue} (distinct : (es.map Prod.fst).Nodup) (hd : d ∈ es) (he : e ∈ es)
    (same : (d.1.toValue : LuaValue) = e.1.toValue) : d = e :=
  List.inj_on_of_nodup_map distinct hd he (Key.toValue_injective same)

/-- Every entry has been assigned, with the visits that its step records. -/
theorem Visited.assigned (h : Visited L type es key visits) (distinct : (es.map Prod.fst).Nodup)
    (once : (visits.map Visit.key).Perm (es.map fun e => e.1.toValue)) {e : Key × LuaValue} (he : e ∈ es) :
    ∃ visit ∈ visits, visit.key = e.1.toValue ∧ Assigned L e.2 visit.nested ∧
      ∃ left place, locate L type e.1.toValue = some (left, place) ∧ visit.index = place.index := by
  have visited : e.1.toValue ∈ visits.map Visit.key := once.mem_iff.mpr (List.mem_map_of_mem he)
  obtain ⟨visit, member, same⟩ := List.mem_map.mp visited
  obtain ⟨d, hd, left, place, own, located, index, assigned, _⟩ := h.of_mem member
  obtain rfl := entry_unique distinct hd he (own.symm.trans same)
  exact ⟨visit, member, same, assigned, left, place, located, index⟩

theorem convertible_of_assigned (v : LuaValue) (wellFormed : v.WellFormed) (assigned : Assigned L v visits)
    (once : VisitsOnce v visits) (within : IndexesWithin v visits) : Convertible L v ∧ IndexesFit L v := by
  induction v using Value.nested_induction generalizing visits with
  | leaf v leaf => exact ⟨(convertible_leaf leaf).mpr (assigned_leaf leaf assigned).1, indexesFit_leaf leaf⟩
  | table es ih =>
    obtain ⟨distinct, wellFormed⟩ := Value.wellFormed_table.mp wellFormed
    obtain ⟨fuel, s, old, r, run, rfl⟩ := assigned_table assigned
    obtain ⟨whole, visited⟩ := setLuaTable_visited distinct run
    obtain ⟨once, nestedOnce⟩ := traced_table.mp once
    obtain ⟨within, nestedWithin⟩ := traced_table.mp within
    have each : ∀ e ∈ es, Convertible L e.2 ∧ IndexesFit L e.2 := by
      intro e he
      obtain ⟨visit, member, same, assigned, _⟩ := visited.assigned distinct once he
      exact ih e he (wellFormed e he) assigned (nestedOnce e he visit member same) (nestedWithin e he visit member same)
    rw [convertible_table, indexesFit_table]
    refine ⟨⟨whole, ?_, fun e he => (each e he).1⟩, ?_, fun e he => (each e he).2⟩
    · by_cases indexed : Indexed L es
      · exact .inl indexed
      · rw [typeOf, if_neg indexed] at visited
        exact .inr (visited.keyed once distinct)
    · intro indexed e he
      rw [typeOf, if_pos indexed] at visited
      obtain ⟨visit, member, _, _, left, place, located, index⟩ := visited.assigned distinct once he
      obtain ⟨-, rfl⟩ := Prod.mk.inj (Option.some.inj located)
      exact within visit member _ index

/-! ### Tables that can be converted -/

/-- The keys that the body of the loop does not change. -/
def Fixed (L : Conversions) (type : LuaTableType) (es : List (Key × LuaValue)) : Prop :=
  ∀ e ∈ es, ∃ place, locate L type e.1.toValue = some (e.1.toValue, place)

theorem fixed_of_keys (keys : Indexed L es ∨ Keyed es) : Fixed L (typeOf L es) es := by
  intro e he
  unfold typeOf
  split
  · exact ⟨_, rfl⟩
  next other =>
    obtain ⟨text, name⟩ := keys.resolve_left other e he
    exact ⟨.member (cString text), by rw [name]; rfl⟩

theorem Visited.inOrder (h : Visited L type es key visits) (distinct : (es.map Prod.fst).Nodup)
    (fixed : Fixed L type es) (before : Before es key post) : visits.map Visit.key = post.map fun e => e.1.toValue := by
  induction h generalizing post with
  | ended last =>
    have none_ := Option.some.inj (before.2.symm.trans last)
    rw [List.head?_eq_none_iff.mp none_]
    rfl
  | @entry key left e place nested more found located assigned continues ih =>
    have first := Option.some.inj (before.2.symm.trans found)
    obtain ⟨post, rfl⟩ := List.head?_eq_some_iff.mp first
    obtain ⟨place', same⟩ := fixed e (mem_of_after found)
    obtain ⟨rfl, -⟩ := Prod.mk.inj (Option.some.inj (same.symm.trans located))
    rw [List.map_cons, List.map_cons, ih (before.advance distinct)]
    rfl

theorem Visited.once (h : Visited L (typeOf L es) es .nil visits) (distinct : (es.map Prod.fst).Nodup)
    (keys : Indexed L es ∨ Keyed es) : (visits.map Visit.key).Perm (es.map fun e => e.1.toValue) := by
  rw [h.inOrder distinct (fixed_of_keys keys) (.start es)]

theorem visitsOnce_of_convertible (v : LuaValue) (wellFormed : v.WellFormed) (convertible : Convertible L v)
    (assigned : Assigned L v visits) : VisitsOnce v visits ∧ (IndexesFit L v → IndexesWithin v visits) := by
  induction v using Value.nested_induction generalizing visits with
  | leaf v leaf =>
    have none_ := (assigned_leaf leaf assigned).2
    exact ⟨(traced_leaf leaf).mpr none_, fun _ => (traced_leaf leaf).mpr none_⟩
  | table es ih =>
    obtain ⟨distinct, wellFormed⟩ := Value.wellFormed_table.mp wellFormed
    obtain ⟨_, keys, convertible⟩ := convertible_table.mp convertible
    obtain ⟨fuel, s, old, r, run, rfl⟩ := assigned_table assigned
    obtain ⟨_, visited⟩ := setLuaTable_visited distinct run
    have once := visited.once distinct keys
    have each : ∀ e ∈ es, ∀ visit ∈ r.visits, visit.key = e.1.toValue →
        VisitsOnce e.2 visit.nested ∧ (IndexesFit L e.2 → IndexesWithin e.2 visit.nested) := by
      intro e he visit member same
      obtain ⟨d, hd, _, _, own, _, _, assigned, _⟩ := visited.of_mem member
      obtain rfl := entry_unique distinct hd he (own.symm.trans same)
      exact ih d hd (wellFormed d hd) (convertible d hd) assigned
    refine ⟨traced_table.mpr ⟨once, fun e he visit member same => (each e he visit member same).1⟩, ?_⟩
    intro fit
    obtain ⟨fit, nestedFit⟩ := indexesFit_table.mp fit
    refine traced_table.mpr ⟨?_, fun e he visit member same => (each e he visit member same).2 (nestedFit e he)⟩
    intro visit member index here
    obtain ⟨d, hd, left, place, _, located, own, _, _⟩ := visited.of_mem member
    by_cases indexed : Indexed L es
    · rw [typeOf, if_pos indexed] at located
      obtain ⟨-, rfl⟩ := Prod.mk.inj (Option.some.inj located)
      rw [own] at here
      obtain rfl := Option.some.inj here
      exact fit indexed d hd
    · rw [typeOf, if_neg indexed] at located
      obtain ⟨text, _, same⟩ := Option.map_eq_some_iff.mp located
      obtain ⟨-, rfl⟩ := Prod.mk.inj same
      rw [own] at here
      cases here

/-- With enough fuel the value is assigned, and gives what its entries give one after the other. -/
def Runs (L : Conversions) (v : LuaValue) (bound : Nat) : Prop :=
  ∀ fuel ≥ bound, ∀ s old, ∃ r, assign (setLuaTable L fuel) (v :: s) old = .ok r ∧ r.json = merged L v old

theorem runs_leaf (leaf : ∀ es, v ≠ .table es) (storable : Storable v) : Runs L v 0 := by
  intro fuel _ s old
  cases v with
  | table es => exact absurd rfl (leaf es)
  | nil => exact ⟨_, rfl, by rw [merged]⟩
  | boolean | number | string | userdata => exact ⟨_, rfl, by rw [merged]⟩
  | reference r =>
    obtain ⟨kind, id⟩ := r
    cases kind with
    | foreign | cdata => exact storable.elim
    | function | thread | lightuserdata => exact ⟨_, rfl, by rw [merged]⟩

theorem common_bound (each : ∀ e ∈ es, ∃ bound, Runs L e.2 bound) : ∃ bound, ∀ e ∈ es, Runs L e.2 bound := by
  induction es with
  | nil => exact ⟨0, by simp⟩
  | cons e es ih =>
    obtain ⟨first, run⟩ := each e List.mem_cons_self
    obtain ⟨others, rest⟩ := ih fun d hd => each d (List.mem_cons_of_mem _ hd)
    refine ⟨max first others, ?_⟩
    intro d hd
    rcases List.mem_cons.mp hd with rfl | hd
    · exact fun fuel enough => run fuel (by omega)
    · exact fun fuel enough => rest d hd fuel (by omega)

theorem setEntries_merged {bound : Nat} (distinct : (es.map Prod.fst).Nodup) (fixed : Fixed L type es)
    (runs : ∀ e ∈ es, Runs L e.2 bound) (before : Before es key post) (enough : bound + post.length < fuel)
    (jsref : Json) :
    ∃ r, setEntries L type fuel (key :: .table es :: s) jsref = .ok r ∧ r.json = mergedEntries L type post jsref := by
  induction post generalizing key fuel jsref with
  | nil =>
    obtain ⟨fuel, rfl⟩ : ∃ n, fuel = n + 1 := ⟨fuel - 1, by omega⟩
    rw [setEntries, next_end before.2]
    exact ⟨_, rfl, by rw [mergedEntries]⟩
  | cons e post ih =>
    rw [List.length_cons] at enough
    obtain ⟨fuel, rfl⟩ : ∃ n, fuel = n + 1 := ⟨fuel - 1, by omega⟩
    have he : e ∈ es := mem_of_after before.2
    obtain ⟨place, located⟩ := fixed e he
    obtain ⟨a, assigned, json⟩ := runs e he fuel (by omega) (e.1.toValue :: .table es :: s) (jsref.get place)
    have kept := assign_stack (setLuaTable_stack fuel).1 assigned
    obtain ⟨rest, continues, done⟩ := ih (before.advance distinct)
      (show bound + post.length < fuel by omega) (jsref.put a.json place)
    refine ⟨{ rest with visits := .mk e.1.toValue place.index a.visits :: rest.visits }, ?_, ?_⟩
    · rw [setEntries, next_entry before.2]
      simp only [bind, Except.bind, located, assigned, kept, List.tail_cons, continues]
      rfl
    · rw [json] at done
      obtain ⟨k, v⟩ := e
      rw [mergedEntries, located]
      exact done

theorem runs_of_convertible (v : LuaValue) (wellFormed : v.WellFormed) (convertible : Convertible L v) :
    ∃ bound, Runs L v bound := by
  induction v using Value.nested_induction with
  | leaf v leaf => exact ⟨0, runs_leaf leaf ((convertible_leaf leaf).mp convertible)⟩
  | table es ih =>
    obtain ⟨distinct, wellFormed⟩ := Value.wellFormed_table.mp wellFormed
    obtain ⟨whole, keys, convertible⟩ := convertible_table.mp convertible
    obtain ⟨bound, runs⟩ := common_bound fun e he => ih e he (wellFormed e he) (convertible e he)
    refine ⟨bound + es.length + 2, ?_⟩
    intro fuel enough s old
    obtain ⟨fuel, rfl⟩ : ∃ n, fuel = n + 1 := ⟨fuel - 1, by omega⟩
    obtain ⟨r, entries, json⟩ := setEntries_merged (s := s) distinct (fixed_of_keys keys) runs (.start es)
      (show bound + es.length < fuel by omega) (old.reset (typeOf L es))
    refine ⟨r, ?_, ?_⟩
    · have typed := getTableType_whole (s := s) distinct whole (show es.length < fuel by omega)
      rw [assign, setLuaTable, typed]
      exact entries
    · rw [json, merged]

/-! ### Every table -/

theorem convertible_of_converts {t : Table Json} (converts : Converts L t) :
    Convertible L (.table t.entries) ∧ IndexesFit L (.table t.entries) := by
  obtain ⟨fuel, r, run, _, once, within⟩ := converts.converted [] .null
  exact convertible_of_assigned _ t.wellFormed ⟨fuel, [], .null, r, run, rfl⟩ once within

/-- `getTableType` and `set_lua_table` keep the stack, visit every entry once and stay within the number of entries
exactly on tables without a fraction among the keys, whose keys are numbers close to the beginning or strings. -/
theorem converts_iff (L : Conversions) (t : Table Json) :
    Converts L t ↔ Convertible L (.table t.entries) ∧ IndexesFit L (.table t.entries) := by
  constructor
  · exact convertible_of_converts
  · intro fits
    obtain ⟨convertible, fit⟩ := fits
    have distinct := (Value.wellFormed_table.mp t.wellFormed).1
    refine ⟨fun s => ?_, fun s old => ?_⟩
    · have whole := (convertible_table.mp convertible).1
      exact ⟨t.entries.length + 1, _, getTableType_whole distinct whole (Nat.lt_succ_self _)⟩
    · obtain ⟨bound, runs⟩ := runs_of_convertible _ t.wellFormed convertible
      obtain ⟨r, run, _⟩ := runs bound (Nat.le_refl _) s old
      have traced := visitsOnce_of_convertible _ t.wellFormed convertible ⟨bound, s, old, r, run, rfl⟩
      exact ⟨bound, r, run, (setLuaTable_stack bound).1 _ _ _ run, traced.1, traced.2 fit⟩

/-- `{[1.5] = true}`, `{[1] = true, x = true}` and `{[1000000] = true}`. -/
def fraction : List (Key × LuaValue) := [(.number (.finite (mkRat 3 2)), .boolean true)]

def mixed : List (Key × LuaValue) := [(.number (.finite 1), .boolean true), (.string [120], .boolean true)]

def sparse : List (Key × LuaValue) := [(.number (.finite 1000000), .boolean true)]

theorem converts_counterexample :
    getTableType .decimal 2 [.table fraction] = .ok (.map, [.number (.finite (mkRat 3 2)), .table fraction]) ∧
    setLuaTable .decimal 4 [.table mixed] .null = .error (.luaError "invalid key to 'next'") ∧
    ∀ t : Table Json, t.entries ∈ [fraction, mixed, sparse] → ¬Converts .decimal t := by
  refine ⟨rfl, ?_, ?_⟩
  · set_option maxRecDepth 2000 in rfl
  intro t among converts
  obtain ⟨convertible, fit⟩ := convertible_of_converts converts
  rw [convertible_table] at convertible
  rw [indexesFit_table] at fit
  simp only [List.mem_cons, List.not_mem_nil, or_false] at among
  obtain same | same | same := among
  · rw [same] at convertible
    exact convertible.1 ⟨_, List.mem_singleton_self _, rfl⟩
  · rw [same] at convertible
    rcases convertible.2.1 with indexed | keyed
    · exact absurd (indexed (.string [120], .boolean true) (by simp [mixed])) (by decide +kernel)
    · obtain ⟨text, name⟩ := keyed (.number (.finite 1), .boolean true) (by simp [mixed])
      cases name
  · rw [same] at fit
    have indexed : Indexed .decimal sparse := by decide +kernel
    have low := fit.1 indexed _ (List.mem_singleton_self _)
    exact absurd low (by decide +kernel)

end LAppS.Nljson
