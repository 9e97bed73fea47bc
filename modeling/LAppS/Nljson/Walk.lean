import LAppS.Nljson.Table

/-!
# Walks over Lua tables

What `getTableType` and the loops of `set_lua_table` have done when they return, and what they do with a table whose keys
`lua_tostring` leaves as they are.
-/

namespace LAppS.Nljson
open Lua Nljson.Json

variable {L : Conversions} {es post : List (Key × LuaValue)} {key : LuaValue} {s stack : LuaStack} {fuel : Nat}

theorem bind_ok {α β : Type} {x : Run α} {f : α → Run β} {b : β} (h : x >>= f = .ok b) :
    ∃ a, x = .ok a ∧ f a = .ok b := by
  cases x with
  | error e => cases h
  | ok a => exact ⟨a, rfl, h⟩

/-! ### The type of a table -/

theorem getTableTypeLoop_walk (distinct : (es.map Prod.fst).Nodup) (before : Before es key post)
    (whole : ∀ e ∈ post, reading L e.1.toValue ≠ .fractional) (enough : post.length < fuel) (size count : Nat) :
    getTableTypeLoop L fuel (key :: .table es :: s) size count =
      .ok (tableType (size + post.length) (count + post.countP fun e => reading L e.1.toValue = .integral),
        .table es :: s) := by
  induction post generalizing key fuel size count with
  | nil =>
    obtain ⟨fuel, rfl⟩ : ∃ n, fuel = n + 1 := ⟨fuel - 1, by omega⟩
    rw [getTableTypeLoop, next_end before.2]
    rfl
  | cons e post ih =>
    obtain ⟨fuel, rfl⟩ : ∃ n, fuel = n + 1 := ⟨fuel - 1, by omega⟩
    have rest := ih (before.advance distinct) (fun d hd => whole d (List.mem_cons_of_mem _ hd))
      (by simpa using enough)
    rw [getTableTypeLoop, next_entry before.2]
    simp only [bind, Except.bind]
    cases read : reading L e.1.toValue with
    | plain =>
      dsimp only
      rw [rest, List.countP_cons_of_neg (by simp [read]), List.length_cons, Nat.add_right_comm, Nat.add_assoc]
    | integral =>
      dsimp only
      rw [rest, List.countP_cons_of_pos (by simp [read]), List.length_cons, Nat.add_right_comm, Nat.add_assoc,
        Nat.add_right_comm count, Nat.add_assoc count]
    | fractional => exact absurd read (whole e List.mem_cons_self)

/-- At a fraction the walk ends, and the key is left on the stack. -/
theorem getTableTypeLoop_fractional (distinct : (es.map Prod.fst).Nodup) (before : Before es key post)
    (fraction : ∃ e ∈ post, reading L e.1.toValue = .fractional) (enough : post.length < fuel) {size count : Nat}
    (counted : count ≤ size) :
    ∃ k : Key, getTableTypeLoop L fuel (key :: .table es :: s) size count = .ok (.map, k.toValue :: .table es :: s) := by
  induction post generalizing key fuel size count with
  | nil => simp at fraction
  | cons e post ih =>
    obtain ⟨fuel, rfl⟩ : ∃ n, fuel = n + 1 := ⟨fuel - 1, by omega⟩
    rw [getTableTypeLoop, next_entry before.2]
    simp only [bind, Except.bind]
    have later : reading L e.1.toValue ≠ .fractional → ∃ d ∈ post, reading L d.1.toValue = .fractional := by
      intro other
      obtain ⟨d, hd, read⟩ := fraction
      rcases List.mem_cons.mp hd with rfl | hd
      · exact absurd read other
      · exact ⟨d, hd, read⟩
    have rest := fun count' (counted : count' ≤ size + 1) other =>
      ih (before.advance distinct) (later other) (by simpa using enough) counted
    cases read : reading L e.1.toValue with
    | plain => exact rest count (by omega) (by simp [read])
    | integral => exact rest (count + 1) (by omega) (by simp [read])
    | fractional =>
      refine ⟨e.1, ?_⟩
      have unequal : tableType (size + 1) count = .map := if_pos (by omega)
      rw [← unequal]
      rfl

def Fractional (L : Conversions) (es : List (Key × LuaValue)) : Prop :=
  ∃ e ∈ es, reading L e.1.toValue = .fractional

theorem getTableType_whole (distinct : (es.map Prod.fst).Nodup) (whole : ¬Fractional L es) (enough : es.length < fuel) :
    getTableType L fuel (.table es :: s) = .ok (typeOf L es, .table es :: s) := by
  have walk := getTableTypeLoop_walk (s := s) distinct (.start es)
    (fun e he read => whole ⟨e, he, read⟩) enough 0 0
  rw [getTableType, walk, Nat.zero_add, Nat.zero_add]
  have same : tableType es.length (es.countP fun e => reading L e.1.toValue = .integral) = typeOf L es := by
    have all : (es.countP fun e => reading L e.1.toValue = .integral) = es.length ↔ Indexed L es := by
      rw [List.countP_eq_length]
      simp [Indexed]
    by_cases indexed : Indexed L es
    · rw [typeOf, if_pos indexed, all.mpr indexed, tableType, if_neg (by simp)]
    · rw [typeOf, if_neg indexed, tableType, if_pos fun same => indexed (all.mp same.symm)]
  rw [same]

theorem getTableType_fractional (distinct : (es.map Prod.fst).Nodup) (fraction : Fractional L es)
    (enough : es.length < fuel) :
    ∃ k : Key, getTableType L fuel (.table es :: s) = .ok (.map, k.toValue :: .table es :: s) :=
  getTableTypeLoop_fractional distinct (.start es) fraction enough (Nat.le_refl 0)

/-! ### More fuel -/

/-- What the one returns, the other returns. -/
def Within {α : Type} (x y : Run α) : Prop := ∀ r, x = .ok r → y = .ok r

theorem Within.bind {α β : Type} {x y : Run α} {f g : α → Run β} (first : Within x y) (rest : ∀ a, Within (f a) (g a)) :
    Within (x >>= f) (y >>= g) := by
  intro r h
  obtain ⟨a, returned, h⟩ := bind_ok h
  rw [first a returned]
  exact rest a r h

theorem Within.refl {α : Type} (x : Run α) : Within x x := fun _ h => h

theorem getTableTypeLoop_succ (fuel : Nat) (stack : LuaStack) (size count : Nat) :
    Within (getTableTypeLoop L fuel stack size count) (getTableTypeLoop L (fuel + 1) stack size count) := by
  induction fuel generalizing stack size count with
  | zero => nofun
  | succ fuel ih =>
    rw [getTableTypeLoop, getTableTypeLoop]
    apply Within.bind (.refl _)
    intro a
    split
    · exact .refl _
    · split
      · exact ih _ _ _
      · exact ih _ _ _
      · exact .refl _
    · exact .refl _

theorem assign_within {f g : LuaStack → Json → Run Converted} (h : ∀ stack old, Within (f stack old) (g stack old))
    (stack : LuaStack) (old : Json) : Within (assign f stack old) (assign g stack old) := by
  unfold assign
  split
  · exact .refl _
  · exact .refl _
  · exact h _ _
  · exact .refl _
  · exact .refl _

theorem setLuaTable_succ (fuel : Nat) :
    (∀ stack jsref, Within (setLuaTable L fuel stack jsref) (setLuaTable L (fuel + 1) stack jsref)) ∧
      ∀ type stack jsref, Within (setEntries L type fuel stack jsref) (setEntries L type (fuel + 1) stack jsref) := by
  induction fuel with
  | zero => exact ⟨nofun, nofun⟩
  | succ fuel ih =>
    refine ⟨?_, ?_⟩
    · intro stack jsref
      unfold setLuaTable
      dsimp only
      split
      · apply Within.bind (getTableTypeLoop_succ fuel _ 0 0)
        intro a
        exact ih.2 _ _ _
      · exact .refl _
    · intro type stack jsref
      rw [setEntries, setEntries]
      apply Within.bind (.refl _)
      intro a
      split
      · exact .refl _
      · split
        · exact .refl _
        · apply Within.bind (assign_within ih.1 _ _)
          intro r
          exact Within.bind (ih.2 _ _ _) fun _ => .refl _
      · exact .refl _

theorem setLuaTable_mono {fuel fuel' : Nat} (le : fuel ≤ fuel') (stack : LuaStack) (jsref : Json) :
    Within (setLuaTable L fuel stack jsref) (setLuaTable L fuel' stack jsref) := by
  induction le with
  | refl => exact .refl _
  | step _ ih => exact fun r h => (setLuaTable_succ _).1 _ _ r (ih r h)

theorem getTableType_mono {fuel fuel' : Nat} (le : fuel ≤ fuel') (stack : LuaStack) :
    Within (getTableType L fuel stack) (getTableType L fuel' stack) := by
  induction le with
  | refl => exact .refl _
  | step _ ih => exact fun r h => getTableTypeLoop_succ _ _ 0 0 r (ih r h)

/-- The result does not depend on the fuel. -/
theorem setLuaTable_unique {fuel fuel' : Nat} {jsref : Json} {r r' : Converted}
    (h : setLuaTable L fuel stack jsref = .ok r) (h' : setLuaTable L fuel' stack jsref = .ok r') : r = r' := by
  have left := setLuaTable_mono (Nat.le_max_left fuel fuel') stack jsref r h
  have right := setLuaTable_mono (Nat.le_max_right fuel fuel') stack jsref r' h'
  exact Except.ok.inj (left.symm.trans right)

/-! ### What a loop has done -/

/-- What one turn of a loop has done, or that there is none. -/
inductive Turn (L : Conversions) (type : LuaTableType) (fuel : Nat) (key : LuaValue) (es : List (Key × LuaValue))
    (s : LuaStack) (jsref : Json) : Converted → Prop where
  | ended (last : after es key = some none) : Turn L type fuel key es s jsref ⟨.table es :: s, jsref, []⟩
  | entry {e : Key × LuaValue} {left : LuaValue} {place : Place} {a rest : Converted}
      (found : after es key = some (some e)) (located : locate L type e.1.toValue = some (left, place))
      (assigned : assign (setLuaTable L fuel) (e.2 :: left :: .table es :: s) (jsref.get place) = .ok a)
      (continues : setEntries L type fuel a.stack.tail (jsref.put a.json place) = .ok rest) :
      Turn L type fuel key es s jsref { rest with visits := .mk e.1.toValue place.index a.visits :: rest.visits }

theorem setEntries_turn {type : LuaTableType} {jsref : Json} {r : Converted}
    (h : setEntries L type (fuel + 1) stack jsref = .ok r) :
    ∃ key es s, stack = key :: .table es :: s ∧ Turn L type fuel key es s jsref r := by
  rw [setEntries] at h
  obtain ⟨found, step, h⟩ := bind_ok h
  obtain ⟨key, es, s, rfl, ⟨last, rfl⟩ | ⟨e, entry, rfl⟩⟩ := next_ok step
  · obtain rfl := Except.ok.inj h
    exact ⟨key, es, s, rfl, .ended last⟩
  · refine ⟨key, es, s, rfl, ?_⟩
    cases located : locate L type e.1.toValue with
    | none =>
      simp only [located] at h
      cases h
    | some place =>
      simp only [located] at h
      obtain ⟨a, assigned, h⟩ := bind_ok h
      obtain ⟨rest, continues, h⟩ := bind_ok h
      obtain rfl := Except.ok.inj h
      exact .entry entry located assigned continues

theorem assign_stack {f : LuaStack → Json → Run Converted} {old : Json} {r : Converted}
    (nested : ∀ stack jsref r, f stack jsref = .ok r → r.stack = stack) (h : assign f stack old = .ok r) :
    r.stack = stack := by
  unfold assign at h
  split at h
  · exact Except.ok.inj h ▸ rfl
  · cases h
  · exact nested _ _ _ h
  · obtain ⟨j, _, h⟩ := bind_ok h
    exact Except.ok.inj h ▸ rfl
  · cases h

theorem getTableType_ok {r : LuaTableType × LuaStack} (distinct : (es.map Prod.fst).Nodup)
    (h : getTableType L fuel (.table es :: s) = .ok r) :
    ¬Fractional L es ∧ r = (typeOf L es, .table es :: s) ∨
      Fractional L es ∧ ∃ k : Key, r = (.map, k.toValue :: .table es :: s) := by
  have more := getTableType_mono (Nat.le_max_left fuel (es.length + 1)) _ r h
  have enough : es.length < max fuel (es.length + 1) := by omega
  by_cases fraction : Fractional L es
  · obtain ⟨k, left⟩ := getTableType_fractional (s := s) distinct fraction enough
    exact .inr ⟨fraction, k, Except.ok.inj (more.symm.trans left)⟩
  · exact .inl ⟨fraction, Except.ok.inj (more.symm.trans (getTableType_whole distinct fraction enough))⟩

theorem getTableTypeLoop_stack {size count : Nat} {r : LuaTableType × LuaStack}
    (h : getTableTypeLoop L fuel (key :: stack) size count = .ok r) :
    r.2 = stack ∨ ∃ k : Key, r.2 = k.toValue :: stack := by
  induction fuel generalizing key size count with
  | zero => cases h
  | succ fuel ih =>
    rw [getTableTypeLoop] at h
    obtain ⟨found, step, continues⟩ := bind_ok h
    obtain ⟨key, es, s, same, ⟨last, rfl⟩ | ⟨e, entry, rfl⟩⟩ := next_ok step
    · obtain ⟨-, rfl⟩ := List.cons.inj same
      exact .inl (Except.ok.inj continues ▸ rfl)
    · obtain ⟨-, rfl⟩ := List.cons.inj same
      dsimp only at continues
      split at continues
      · exact ih continues
      · exact ih continues
      · exact .inr ⟨e.1, Except.ok.inj continues ▸ rfl⟩

/-- A call that returns leaves the stack as it found it. -/
theorem setLuaTable_stack (fuel : Nat) :
    (∀ stack jsref r, setLuaTable L fuel stack jsref = .ok r → r.stack = stack) ∧
      ∀ type key stack jsref r, setEntries L type fuel (key :: stack) jsref = .ok r → r.stack = stack := by
  induction fuel with
  | zero => exact ⟨nofun, nofun⟩
  | succ fuel ih =>
    refine ⟨?_, ?_⟩
    · intro stack jsref r h
      unfold setLuaTable at h
      dsimp only at h
      split at h
      · obtain ⟨typed, walked, h⟩ := bind_ok h
        have kept := ih.2 _ _ _ _ _ h
        rcases getTableTypeLoop_stack walked with same | ⟨k, left⟩
        · rw [kept, same]
        · -- with a key left on the stack, `lua_next` finds no table
          rw [left] at h
          cases fuel with
          | zero => cases h
          | succ fuel =>
            obtain ⟨_, _, _, same, _⟩ := setEntries_turn h
            have table := (List.cons.inj (List.cons.inj same).2).1
            cases k <;> cases table
      · cases h
    · intro type key stack jsref r h
      obtain ⟨key', es, s, same, turn⟩ := setEntries_turn h
      obtain ⟨-, rfl⟩ := List.cons.inj same
      cases turn with
      | ended => rfl
      | entry found located assigned continues =>
        rw [assign_stack ih.1 assigned] at continues
        have kept := ih.2 _ _ _ _ _ continues
        exact kept

/-- The value was assigned to some place, with these visits. -/
def Assigned (L : Conversions) (v : LuaValue) (visits : List Visit) : Prop :=
  ∃ fuel s old r, assign (setLuaTable L fuel) (v :: s) old = .ok r ∧ r.visits = visits

/-- The entries that a loop visits from a key on. -/
inductive Visited (L : Conversions) (type : LuaTableType) (es : List (Key × LuaValue)) : LuaValue → List Visit → Prop where
  | ended {key : LuaValue} (last : after es key = some none) : Visited L type es key []
  | entry {key left : LuaValue} {e : Key × LuaValue} {place : Place} {visits more : List Visit}
      (found : after es key = some (some e)) (located : locate L type e.1.toValue = some (left, place))
      (assigned : Assigned L e.2 visits) (continues : Visited L type es left more) :
      Visited L type es key (.mk e.1.toValue place.index visits :: more)

theorem setEntries_visited {type : LuaTableType} {jsref : Json} {r : Converted}
    (h : setEntries L type fuel (key :: .table es :: s) jsref = .ok r) : Visited L type es key r.visits := by
  induction fuel generalizing key jsref r with
  | zero => cases h
  | succ fuel ih =>
    obtain ⟨key', es', s', same, turn⟩ := setEntries_turn h
    cases same
    cases turn with
    | ended last => exact .ended last
    | entry found located assigned continues =>
      have kept := assign_stack (setLuaTable_stack fuel).1 assigned
      rw [kept] at continues
      exact .entry found located ⟨fuel, _, _, _, assigned, rfl⟩ (ih continues)

theorem setLuaTable_visited {jsref : Json} {r : Converted} (distinct : (es.map Prod.fst).Nodup)
    (h : setLuaTable L fuel (.table es :: s) jsref = .ok r) :
    ¬Fractional L es ∧ Visited L (typeOf L es) es .nil r.visits := by
  cases fuel with
  | zero => cases h
  | succ fuel =>
    rw [setLuaTable] at h
    obtain ⟨typed, walked, h⟩ := bind_ok h
    rcases getTableType_ok distinct walked with ⟨whole, rfl⟩ | ⟨-, k, rfl⟩
    · exact ⟨whole, setEntries_visited h⟩
    · cases fuel with
      | zero => cases h
      | succ fuel =>
        obtain ⟨_, _, _, same, _⟩ := setEntries_turn h
        have table := (List.cons.inj (List.cons.inj same).2).1
        cases k <;> cases table

end LAppS.Nljson
