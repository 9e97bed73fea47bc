import Mathlib.Data.List.Perm.Basic
import Mathlib.Data.List.TakeWhile
import Mathlib.Data.Rat.Defs

/-!
# Lua values on the stack of the C API

A table is the list of its entries in the order in which `next` gives them; what `next` does depends on this order and on
the key that is found on the stack. Numbers are exact; the conversions between numbers, integers and texts are
parameters.
-/

namespace Lua

abbrev Bytes := List UInt8

/-- What is left of a string that is read as a C string. -/
def cString (s : Bytes) : Bytes := s.takeWhile (· ≠ 0)

theorem cString_eq_self_iff {s : Bytes} : cString s = s ↔ 0 ∉ s := by
  rw [cString, List.takeWhile_eq_self_iff]
  constructor
  · intro nonzero nul
    simpa using nonzero 0 nul
  · intro nul c hc
    simpa using ne_of_mem_of_not_mem hc nul

inductive Number where
  | finite (q : Rat)
  | infinite (negative : Bool)
  | nan
  deriving DecidableEq

namespace Number

def isZero : Number → Bool
  | .finite q => q = 0
  | _ => false

/-- `floor(x) == x`. -/
def isIntegral : Number → Bool
  | .finite q => q.den = 1
  | .infinite _ => true
  | .nan => false

end Number

structure Conversions where
  /-- The number that a text reads as. -/
  ofText : Bytes → Option Number
  toText : Number → Bytes
  toInteger : Number → Int
  ofInteger : Int → Number
  toInteger_exact : ∀ i : Int, -9223372036854775808 ≤ i → i < 9223372036854775808 → toInteger (.finite i) = i
  ofInteger_exact : ∀ i : Int, -9007199254740992 ≤ i → i ≤ 9007199254740992 → ofInteger i = .finite i

/-- Towards zero, and the lowest of the integers where there is none. -/
def Number.toInt64 : Number → Int
  | .finite q =>
    let i := q.num.tdiv q.den
    if -9223372036854775808 ≤ i ∧ i < 9223372036854775808 then i else -9223372036854775808
  | _ => -9223372036854775808

theorem Number.toInt64_exact (i : Int) (low : -9223372036854775808 ≤ i) (high : i < 9223372036854775808) :
    Number.toInt64 (.finite i) = i := by
  simp [Number.toInt64, low, high]

/-- Decimal texts of integers, and integers of 64 bits. -/
def Conversions.decimal : Conversions where
  ofText s :=
    if !s.isEmpty && s.all fun c => Nat.ble 48 c.toNat && Nat.ble c.toNat 57 then
      some (.finite ((s.foldl (fun n c => 10 * n + (c.toNat - 48)) 0 : Nat) : Int))
    else none
  toText
    | .finite q => (toString q.num).toList.map fun c => UInt8.ofNat c.toNat
    | _ => []
  toInteger := Number.toInt64
  ofInteger i := .finite i
  toInteger_exact := Number.toInt64_exact
  ofInteger_exact _ _ _ := rfl

/-- The kinds of values that are compared by identity. `foreign` is a userdata of another type. -/
inductive Kind where
  | function | thread | lightuserdata | cdata | foreign
  deriving DecidableEq

structure Reference where
  kind : Kind
  id : Nat
  deriving DecidableEq

inductive Key where
  | string (s : Bytes)
  | number (x : Number)
  | boolean (b : Bool)
  | reference (r : Reference)
  deriving DecidableEq

inductive Value (υ : Type) where
  | nil
  | boolean (b : Bool)
  | number (x : Number)
  | string (s : Bytes)
  | table (entries : List (Key × Value υ))
  | userdata (u : υ)
  | reference (r : Reference)

variable {υ ε : Type}

theorem Value.sizeOf_entry_lt [SizeOf υ] {es : List (Key × Value υ)} {e : Key × Value υ} (member : e ∈ es) :
    sizeOf e.2 < sizeOf (Value.table es) := by
  have inner := List.sizeOf_lt_of_mem member
  have pair : sizeOf e.2 < sizeOf e := by
    obtain ⟨key, value⟩ := e
    simp only [Prod.mk.sizeOf_spec]
    omega
  simp only [Value.table.sizeOf_spec]
  omega

/-- What holds of a value that is not a table, and of a table if it holds of its values, holds of every value. -/
theorem Value.nested_induction {P : Value υ → Prop} (leaf : ∀ v : Value υ, (∀ es, v ≠ .table es) → P v)
    (table : ∀ es : List (Key × Value υ), (∀ e ∈ es, P e.2) → P (.table es)) : ∀ v, P v
  | .table es => table es fun e _ => nested_induction leaf table e.2
  | .nil | .boolean _ | .number _ | .string _ | .userdata _ | .reference _ => leaf _ (by simp)
termination_by v => sizeOf v
decreasing_by exact Value.sizeOf_entry_lt ‹_›

/-- The keys of every table are distinct. -/
def Value.WellFormed : Value υ → Prop
  | .table es => (es.map Prod.fst).Nodup ∧ ∀ e ∈ es, e.2.WellFormed
  | _ => True
termination_by v => sizeOf v
decreasing_by exact Value.sizeOf_entry_lt ‹_›

structure Table (υ : Type) where
  entries : List (Key × Value υ)
  wellFormed : (Value.table entries).WellFormed

theorem Value.wellFormed_table {es : List (Key × Value υ)} :
    (Value.table es).WellFormed ↔ (es.map Prod.fst).Nodup ∧ ∀ e ∈ es, e.2.WellFormed := by
  rw [Value.WellFormed]

def Key.toValue : Key → Value υ
  | .string s => .string s
  | .number x => .number x
  | .boolean b => .boolean b
  | .reference r => .reference r

/-- Tables and userdata are compared by identity and are never keys here. -/
def Value.toKey : Value υ → Option Key
  | .string s => some (.string s)
  | .number x => some (.number x)
  | .boolean b => some (.boolean b)
  | .reference r => some (.reference r)
  | _ => none

@[simp] theorem Key.toKey_toValue (k : Key) : (k.toValue : Value υ).toKey = some k := by cases k <;> rfl

theorem Key.toValue_injective : Function.Injective (Key.toValue : Key → Value υ) := by
  intro a b same
  have := congrArg Value.toKey same
  simpa using this

/-- `lua_isnumber` and `lua_tonumber`: a string may read as a number. -/
def Conversions.toNumber (L : Conversions) : Value υ → Option Number
  | .number x => some x
  | .string s => L.ofText s
  | _ => none

/-- `lua_tointeger`. -/
def Conversions.toIndex (L : Conversions) (v : Value υ) : Int := ((L.toNumber v).map L.toInteger).getD 0

/-- `lua_tostring`, which leaves the text on the stack. -/
def Conversions.textOf (L : Conversions) : Value υ → Option Bytes
  | .string s => some s
  | .number x => some (L.toText x)
  | _ => none

/-- How a call ends that does not return. -/
inductive Fault (ε : Type) where
  | luaError (message : String)
  | exception (e : ε)
  /-- The API was used outside of its contract. -/
  | undefined
  | outOfFuel

abbrev Stack (υ : Type) := List (Value υ)

/-! ### Traversal -/

/-- The entry behind the one with the key, if there is an entry with the key. -/
def behind (es : List (Key × Value υ)) (k : Key) : Option (Option (Key × Value υ)) :=
  match es.dropWhile (·.1 ≠ k) with
  | [] => none
  | _ :: rest => some rest.head?

/-- The entry that follows the key in the traversal; `nil` stands before the first one. -/
def after (es : List (Key × Value υ)) : Value υ → Option (Option (Key × Value υ))
  | .nil => some es.head?
  | key => key.toKey.bind (behind es)

/-- `lua_next(L, lua_gettop(L) - 1)`: the key on the top gives way to the next key and its value, or to nothing at the
end of the table below it. -/
def next : Stack υ → Except (Fault ε) (Bool × Stack υ)
  | key :: .table es :: s =>
    match after es key with
    | none => .error (.luaError "invalid key to 'next'")
    | some none => .ok (false, .table es :: s)
    | some (some e) => .ok (true, e.2 :: e.1.toValue :: .table es :: s)
  | _ => .error .undefined

theorem behind_append {pre post : List (Key × Value υ)} {e : Key × Value υ} (fresh : e.1 ∉ pre.map Prod.fst) :
    behind (pre ++ e :: post) e.1 = some post.head? := by
  have skip : (pre ++ e :: post).dropWhile (·.1 ≠ e.1) = e :: post := by
    rw [List.dropWhile_append_of_pos, List.dropWhile_cons_of_neg]
    · simp
    · intro d hd
      have other : d.1 ≠ e.1 := fun same => fresh (same ▸ List.mem_map_of_mem hd)
      simpa using other
  rw [behind, skip]

theorem mem_of_behind {es : List (Key × Value υ)} {k : Key} {entry : Option (Key × Value υ)}
    (h : behind es k = some entry) : k ∈ es.map Prod.fst := by
  by_contra missing
  have all : es.dropWhile (·.1 ≠ k) = [] := by
    rw [List.dropWhile_eq_nil_iff]
    intro d hd
    have other : d.1 ≠ k := fun same => missing (same ▸ List.mem_map_of_mem hd)
    simpa using other
  rw [behind, all] at h
  cases h

theorem after_toValue (es : List (Key × Value υ)) (k : Key) : after es k.toValue = behind es k := by
  cases k <;> rfl

/-- The entry that follows an entry in the list follows its key. -/
theorem after_append {pre post : List (Key × Value υ)} {e : Key × Value υ}
    (distinct : ((pre ++ e :: post).map Prod.fst).Nodup) : after (pre ++ e :: post) e.1.toValue = some post.head? := by
  rw [after_toValue]
  apply behind_append
  rw [List.map_append, List.map_cons, List.nodup_append] at distinct
  intro member
  exact distinct.2.2 _ member _ List.mem_cons_self rfl

theorem mem_of_after {es : List (Key × Value υ)} {key : Value υ} {e : Key × Value υ}
    (h : after es key = some (some e)) : e ∈ es := by
  have inside : ∀ k, behind es k = some (some e) → e ∈ es := by
    intro k hk
    unfold behind at hk
    split at hk
    · cases hk
    next first rest dropped =>
      have member : e ∈ rest := List.mem_of_mem_head? (Option.some.inj hk)
      exact (List.dropWhile_sublist _).subset (dropped ▸ List.mem_cons_of_mem _ member)
  unfold after at h
  split at h
  · exact List.mem_of_mem_head? (Option.some.inj h)
  · obtain ⟨k, _, hk⟩ := Option.bind_eq_some_iff.mp h
    exact inside k hk

/-- In a traversal, the key stands right before the entries `post`. -/
def Before (es : List (Key × Value υ)) (key : Value υ) (post : List (Key × Value υ)) : Prop :=
  (∃ pre, es = pre ++ post) ∧ after es key = some post.head?

theorem Before.start (es : List (Key × Value υ)) : Before es .nil es := ⟨⟨[], rfl⟩, rfl⟩

theorem Before.advance {es post : List (Key × Value υ)} {key : Value υ} {e : Key × Value υ}
    (distinct : (es.map Prod.fst).Nodup) (h : Before es key (e :: post)) : Before es e.1.toValue post := by
  obtain ⟨⟨pre, rfl⟩, _⟩ := h
  exact ⟨⟨pre ++ [e], by simp⟩, after_append distinct⟩

section Next

variable {es : List (Key × Value υ)} {key : Value υ} {s stack : Stack υ} {e : Key × Value υ}

theorem next_end (h : after es key = some none) :
    (next (key :: .table es :: s) : Except (Fault ε) _) = .ok (false, .table es :: s) := by
  simp only [next, h]

theorem next_entry (h : after es key = some (some e)) :
    (next (key :: .table es :: s) : Except (Fault ε) _) = .ok (true, e.2 :: e.1.toValue :: .table es :: s) := by
  simp only [next, h]

/-- What `next` has found if it returns. -/
theorem next_ok {r : Bool × Stack υ} (h : (next stack : Except (Fault ε) _) = .ok r) :
    ∃ key es s, stack = key :: .table es :: s ∧
      (after es key = some none ∧ r = (false, .table es :: s) ∨
        ∃ e, after es key = some (some e) ∧ r = (true, e.2 :: e.1.toValue :: .table es :: s)) := by
  unfold next at h
  split at h
  next key es s =>
    refine ⟨key, es, s, rfl, ?_⟩
    split at h
    · cases h
    next found => exact .inl ⟨found, (Except.ok.inj h).symm⟩
    next e found => exact .inr ⟨e, found, (Except.ok.inj h).symm⟩
  · cases h

end Next

/-- On a list without duplicates, no two elements have the same follower. -/
theorem follower_injective {α : Type} {visits : List α} {follower : α → Option α} (distinct : visits.Nodup)
    (follows : ∀ m (h : m < visits.length), follower visits[m] = visits[m + 1]?) {a b : α} (ha : a ∈ visits)
    (hb : b ∈ visits) (same : follower a = follower b) : a = b := by
  obtain ⟨m, hm, rfl⟩ := List.getElem_of_mem ha
  obtain ⟨n, hn, rfl⟩ := List.getElem_of_mem hb
  rw [follows m hm, follows n hn] at same
  have place : m = n := by
    by_cases inside : m + 1 < visits.length
    · have := (List.getElem?_inj inside distinct).mp same
      omega
    · rw [List.getElem?_eq_none (by omega), eq_comm, List.getElem?_eq_none_iff] at same
      omega
  subst place
  rfl

end Lua
