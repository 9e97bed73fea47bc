import Mathlib.Data.Rat.Defs

/-!
JSON values, with the accesses of a C++ JSON library: `find`, which finds nothing outside of an object, and an
assignment to a member, which makes an object of a null and fails on other values. A number is its exact value, and a
string has a character for every byte.
-/

inductive Json where
  | null
  | boolean (b : Bool)
  | number (q : Rat)
  | string (s : String)
  | array (elements : List Json)
  | object (members : List (String × Json))

namespace Json

def isNull : Json → Bool
  | .null => true
  | _ => false

def isNumber : Json → Bool
  | .number _ => true
  | _ => false

def isString : Json → Bool
  | .string _ => true
  | _ => false

def isArray : Json → Bool
  | .array _ => true
  | _ => false

def isObject : Json → Bool
  | .object _ => true
  | _ => false

/-- The comparison with a number. -/
def equals (j : Json) (q : Rat) : Bool :=
  match j with
  | .number r => r = q
  | _ => false

def toBool : Json → Except String Bool
  | .boolean b => .ok b
  | _ => .error "type must be boolean"

def toText : Json → Except String String
  | .string s => .ok s
  | _ => .error "type must be string"

/-- A member of an object. -/
def find (j : Json) (key : String) : Option Json :=
  match j with
  | .object members => members.lookup key
  | _ => none

/-- `j[key]`; a member that is missing is made from a null, like the object of a null. -/
def index (j : Json) (key : String) : Except String Json :=
  match j with
  | .null => .ok .null
  | .object members => .ok ((members.lookup key).getD .null)
  | _ => .error "cannot use operator[] with a string argument"

def setMember (key : String) (v : Json) : List (String × Json) → List (String × Json)
  | [] => [(key, v)]
  | (k, w) :: members => if k = key then (k, v) :: members else (k, w) :: setMember key v members

/-- `j[key] = v`. -/
def put (j : Json) (key : String) (v : Json) : Except String Json :=
  match j with
  | .null => .ok (.object [(key, v)])
  | .object members => .ok (.object (setMember key v members))
  | _ => .error "cannot use operator[] with a string argument"

/-- `j[key]...[key] = v`; a member that is missing is made from a null. -/
def assign (j : Json) : List String → Json → Except String Json
  | [], v => .ok v
  | key :: path, v => do
    let member ← ((j.find key).getD .null).assign path v
    j.put key member

theorem isNumber_iff {j : Json} : j.isNumber = true ↔ ∃ q, j = .number q := by
  cases j <;> simp [isNumber]

theorem isString_iff {j : Json} : j.isString = true ↔ ∃ s, j = .string s := by
  cases j <;> simp [isString]

theorem isArray_iff {j : Json} : j.isArray = true ↔ ∃ items, j = .array items := by
  cases j <;> simp [isArray]

theorem equals_iff {j : Json} {q : Rat} : j.equals q = true ↔ j = .number q := by
  cases j <;> simp [equals]

theorem bind_ok {α β : Type} {x : Except String α} {f : α → Except String β} {r : β} (h : x >>= f = .ok r) :
    ∃ a, x = .ok a ∧ f a = .ok r := by
  cases x with
  | error e => cases h
  | ok a => exact ⟨a, rfl, h⟩

theorem lookup_cons_ne {k k' : String} (h : k ≠ k') (w : Json) (members : List (String × Json)) :
    ((k', w) :: members).lookup k = members.lookup k := by
  rw [List.lookup_cons, beq_eq_false_iff_ne.mpr h]

theorem lookup_eq_none {k : String} {members : List (String × Json)} (h : k ∉ members.map Prod.fst) :
    members.lookup k = none := by
  rw [List.lookup_eq_none_iff]
  intro m hm
  have other : k ≠ m.1 := fun e => h (List.mem_map.mpr ⟨m, hm, e.symm⟩)
  exact bne_iff_ne.mpr other

theorem lookup_setMember (key : String) (v : Json) (members : List (String × Json)) (k : String) :
    (setMember key v members).lookup k = if k = key then some v else members.lookup k := by
  induction members with
  | nil =>
    by_cases h : k = key
    · simp [setMember, h]
    · rw [setMember, lookup_cons_ne h, if_neg h]
  | cons m members ih =>
    obtain ⟨k', w⟩ := m
    by_cases own : k' = key
    · subst own
      rw [setMember, if_pos rfl]
      by_cases h : k = k'
      · simp [h]
      · rw [lookup_cons_ne h, lookup_cons_ne h, if_neg h]
    · rw [setMember, if_neg own]
      by_cases here : k = k'
      · subst here
        simp [own]
      · rw [lookup_cons_ne here, lookup_cons_ne here, ih]

theorem find_put {j j' : Json} {key : String} {v : Json} (h : j.put key v = .ok j') (k : String) :
    j'.find k = if k = key then some v else j.find k := by
  cases j with
  | null =>
    cases h
    by_cases same : k = key
    · simp [find, same]
    · rw [find, lookup_cons_ne same, if_neg same]
      rfl
  | object members =>
    cases h
    exact lookup_setMember key v members k
  | _ => cases h

/-- The member that is assigned to, and the others as they were. -/
theorem find_assign {j j' : Json} {key : String} {path : List String} {v : Json}
    (h : j.assign (key :: path) v = .ok j') :
    ∃ member, ((j.find key).getD .null).assign path v = .ok member ∧
      ∀ k, j'.find k = if k = key then some member else j.find k := by
  simp only [assign, bind, Except.bind] at h
  split at h
  · cases h
  next member assigned => exact ⟨member, assigned, fun k => find_put h k⟩

theorem isObject_of_find {j v : Json} {key : String} (h : j.find key = some v) : j.isObject = true := by
  cases j <;> first | rfl | cases h

theorem put_isObject {j j' v : Json} {key : String} (h : j.put key v = .ok j') : j'.isObject = true := by
  cases j <;> cases h <;> rfl

theorem put_ok {j : Json} (h : j.isObject = true) (key : String) (v : Json) : ∃ j', j.put key v = .ok j' := by
  cases j with
  | object members => exact ⟨_, rfl⟩
  | _ => cases h

/-- An assignment through objects succeeds. -/
theorem assign_ok {j member v : Json} {key : String} {path : List String} (h : j.isObject = true)
    (assigned : ((j.find key).getD .null).assign path v = .ok member) : ∃ j', j.assign (key :: path) v = .ok j' := by
  obtain ⟨j', put⟩ := put_ok h key member
  exact ⟨j', by rw [assign, assigned]; exact put⟩

theorem setMember_self {key : String} {v : Json} {members : List (String × Json)} (h : members.lookup key = some v) :
    setMember key v members = members := by
  induction members with
  | nil => cases h
  | cons m members ih =>
    obtain ⟨k, w⟩ := m
    by_cases own : k = key
    · subst own
      rw [List.lookup_cons_self] at h
      rw [setMember, if_pos rfl, Option.some.inj h]
    · rw [lookup_cons_ne (Ne.symm own)] at h
      rw [setMember, if_neg own, ih h]

/-- An assignment of what is there changes nothing. -/
theorem assign_self {j member v : Json} {key : String} {path : List String} (h : j.find key = some member)
    (assigned : member.assign path v = .ok member) : j.assign (key :: path) v = .ok j := by
  have put : j.put key member = .ok j := by
    cases j with
    | object members => rw [put, setMember_self h]
    | _ => cases h
  rw [assign, h, Option.getD_some, assigned]
  exact put

end Json
