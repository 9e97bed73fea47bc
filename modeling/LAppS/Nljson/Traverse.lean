import LAppS.Nljson.Walk
import LAppS.Tree.Positions

/-!
# Traversal of a JSON value

`nljson.traverse` calls back for every member of every array and object, `nljson.foreach` for the members of one. Both
push the key, the element and the callback for each member; only `foreach` counts the elements of an array.
-/

namespace LAppS.Nljson
open Lua Nljson.Json

/-- A call of the callback. The path is the position of the element in the whole value. -/
structure Call where
  path : List Nat
  key : LuaValue
  value : LuaValue

/-- Whether the callback returns, after what it was called with before. -/
abbrev Callback := List (LuaValue × LuaValue) → LuaValue × LuaValue → Bool

structure Calling where
  stack : LuaStack
  calls : List Call

/-- `lua_pcall(L, 2, 0, 0)`. -/
def pcall (callback : Callback) (path : List Nat) (w : Calling) : Run Calling :=
  match w.stack with
  | value :: key :: .reference ⟨.function, _⟩ :: stack =>
    if callback (w.calls.map fun c => (c.key, c.value)) (key, value) then .ok ⟨stack, w.calls ++ [⟨path, key, value⟩]⟩
    else .error (.exception .callback)
  | _ => .error (.exception .callback)

/-- The body of both loops: `lua_pushvalue(L, argc)`, the key, the element and the call. -/
def report (L : Conversions) (callback : Callback) (argc : Nat) (path : List Nat) (key : LuaValue) (element : Json)
    (w : Calling) : Run Calling :=
  let function := w.stack[w.stack.length - argc]?.getD .nil
  pcall callback path { w with stack := pushvalue L element :: key :: function :: w.stack }

mutual

/-- A value other than an array or object has no members. -/
def tTraversal (L : Conversions) (callback : Callback) (path : List Nat) : Json → Calling → Run Calling
  | .array elements, w => traverseElements L callback w.stack.length path 0 elements w
  | .object members, w => traverseMembers L callback w.stack.length path 0 members w
  | _, w => .ok w

def traverseElements (L : Conversions) (callback : Callback) (argc : Nat) (path : List Nat) :
    Nat → List Json → Calling → Run Calling
  | _, [], w => .ok w
  | i, element :: rest, w => do
    -- the counter begins anew for every element
    let counter := 0
    let w ← tTraversal L callback (path ++ [i]) element w
    let w ← report L callback argc (path ++ [i]) (.number (L.ofInteger (counter + 1))) element w
    traverseElements L callback argc path (i + 1) rest w

def traverseMembers (L : Conversions) (callback : Callback) (argc : Nat) (path : List Nat) :
    Nat → List (Bytes × Json) → Calling → Run Calling
  | _, [], w => .ok w
  | i, (key, element) :: rest, w => do
    let w ← tTraversal L callback (path ++ [i]) element w
    let w ← report L callback argc (path ++ [i]) (.string (cString key)) element w
    traverseMembers L callback argc path (i + 1) rest w

end

def treeTraversal (L : Conversions) (callback : Callback) (stack : LuaStack) : Run Calling :=
  match stack with
  | [.reference ⟨.function, _⟩, .userdata jsref] => do
    let w ← tTraversal L callback [] jsref ⟨stack, []⟩
    return { w with stack := w.stack.tail }
  | [_, .userdata _] => .error (.exception .usage)
  | [_, _] => .error (.luaError "nljson expected")
  | _ => .error (.exception .usage)

/-- The loop of `foreach`, with the key that each element is passed with. -/
def foreachLoop (L : Conversions) (callback : Callback) (argc : Nat) :
    Nat → List (LuaValue × Json) → Calling → Run Calling
  | _, [], w => .ok w
  | i, (key, element) :: rest, w => do
    let w ← report L callback argc [i] key element w
    foreachLoop L callback argc (i + 1) rest w

/-- A scalar other than null is iterated as if it were the one element of an array. -/
def foreachEntries (L : Conversions) : Json → List (LuaValue × Json)
  | .object members => members.map fun m => (.string (cString m.1), m.2)
  | .array elements => elements.mapIdx fun counter element => (.number (L.ofInteger ((counter + 1 : Nat) : Int)), element)
  | .null => []
  | scalar => [(.number (L.ofInteger 1), scalar)]

def foreach (L : Conversions) (callback : Callback) (stack : LuaStack) : Run Calling :=
  match stack with
  | [.reference ⟨.function, _⟩, .userdata jsref] => do
    let w ← foreachLoop L callback stack.length 0 (foreachEntries L jsref) ⟨stack, []⟩
    return { w with stack := w.stack.tail }
  | [_, .userdata _] => .error (.exception .usage)
  | [_, _] => .error (.luaError "nljson expected")
  | _ => .error (.exception .usage)

/-! ### What a traversal is to report -/

namespace Json

def children : Json → List Json
  | .array elements => elements
  | .object members => members.map Prod.snd
  | _ => []

/-- The keys of an object and the positions in an array, from one on. -/
def keys : Json → List LuaValue
  | .array elements => elements.mapIdx fun i _ => .number (.finite ((i + 1 : Nat) : Int))
  | .object members => members.map fun m => .string m.1
  | _ => []

end Json

abbrev elementAt : List Nat → Json → Option Json := Tree.subtree Json.children

/-- The key of a member in its container. -/
def keyAt (keys : Json → List LuaValue) (path : List Nat) (v : Json) : Option LuaValue :=
  path.getLast?.bind fun i => (elementAt path.dropLast v).bind fun container => (keys container)[i]?

/-- A call for the element at its path, under the key that its container has for it and that `foreach` passes. -/
structure OwnCall (L : Conversions) (callback : Callback) (function : Nat) (v : Json) (call : Call) : Prop where
  element : (elementAt call.path v).map (pushvalue L) = some call.value
  key : keyAt Json.keys call.path v = some call.key
  foreach : ∃ container w, elementAt call.path.dropLast v = some container ∧
    foreach L callback [.reference ⟨.function, function⟩, .userdata container] = .ok w ∧
    (call.path.getLast?.bind fun i => w.calls[i]?).map Call.key = some call.key

/-- With a callback that returns, every member of every array and object is reported once, behind its own members, under
its own key. -/
def Reports (L : Conversions) (v : Json) : Prop :=
  ∀ (callback : Callback) (function : Nat), (∀ calls call, callback calls call = true) →
    ∃ w, treeTraversal L callback [.reference ⟨.function, function⟩, .userdata v] = .ok w ∧
      w.stack = [.userdata v] ∧ Tree.Exhausts Json.children v (w.calls.map Call.path) ∧
      ∀ call ∈ w.calls, OwnCall L callback function v call

/-- An array of at most one element, an object without a NUL in a key, or no container. -/
def SingularAt (v : Json) : Prop :=
  (∀ elements, v = .array elements → elements.length ≤ 1) ∧ ∀ members, v = .object members → ∀ m ∈ members, 0 ∉ m.1

/-- No array in the value has a second element, and no key has a NUL. -/
def Singular (v : Json) : Prop :=
  ∀ path container, elementAt path v = some container → SingularAt container

/-! ### The calls of a traversal -/

section Calls

variable {L : Conversions} {callback : Callback} (function : Nat) (rest : LuaStack) {v : Json}

/-- The keys and elements that the loop of `t_traversal` passes. -/
def passedEntries (L : Conversions) : Json → List (LuaValue × Json)
  | .array elements => elements.map fun element => (.number (L.ofInteger 1), element)
  | .object members => members.map fun m => (.string (cString m.1), m.2)
  | _ => []

def traverseEntries (L : Conversions) (callback : Callback) (argc : Nat) (path : List Nat) :
    Nat → List (LuaValue × Json) → Calling → Run Calling
  | _, [], w => .ok w
  | i, (key, element) :: rest, w => do
    let w ← tTraversal L callback (path ++ [i]) element w
    let w ← report L callback argc (path ++ [i]) key element w
    traverseEntries L callback argc path (i + 1) rest w

theorem tTraversal_eq (L : Conversions) (callback : Callback) (path : List Nat) (v : Json) (w : Calling) :
    tTraversal L callback path v w = traverseEntries L callback w.stack.length path 0 (passedEntries L v) w := by
  have ofElements : ∀ (elements : List Json) (argc i : Nat) (w : Calling),
      traverseElements L callback argc path i elements w =
        traverseEntries L callback argc path i (elements.map fun element => (.number (L.ofInteger 1), element)) w := by
    intro elements
    induction elements with
    | nil => intro argc i w; rw [traverseElements]; rfl
    | cons element elements ih =>
      intro argc i w
      rw [traverseElements, List.map_cons, traverseEntries]
      simp only [ih]
      rfl
  have ofMembers : ∀ (members : List (Bytes × Json)) (argc i : Nat) (w : Calling),
      traverseMembers L callback argc path i members w =
        traverseEntries L callback argc path i (members.map fun m => (.string (cString m.1), m.2)) w := by
    intro members
    induction members with
    | nil => intro argc i w; rw [traverseMembers]; rfl
    | cons m members ih =>
      intro argc i w
      obtain ⟨key, element⟩ := m
      rw [traverseMembers, List.map_cons, traverseEntries]
      simp only [ih]
  cases v with
  | array elements => rw [tTraversal, ofElements, passedEntries]
  | object members => rw [tTraversal, ofMembers, passedEntries]
  | _ => rw [tTraversal, passedEntries, traverseEntries] <;> nofun

theorem report_returns (returns : ∀ calls call, callback calls call = true) (path : List Nat) (key : LuaValue)
    (element : Json) (calls : List Call) :
    report L callback (rest.length + 1) path key element ⟨.reference ⟨.function, function⟩ :: rest, calls⟩ =
      .ok ⟨.reference ⟨.function, function⟩ :: rest, calls ++ [⟨path, key, pushvalue L element⟩]⟩ := by
  simp [report, pcall, returns]

def Call.below (path : List Nat) (call : Call) : Call := { call with path := path ++ call.path }

/-- An entry with the calls for what is below its element. -/
structure Reported where
  key : LuaValue
  child : Json
  below : List Call

def gatherCalls (L : Conversions) (i : Nat) : List Reported → List Call
  | [] => []
  | r :: rs => r.below.map (Call.below [i]) ++ ⟨[i], r.key, pushvalue L r.child⟩ :: gatherCalls L (i + 1) rs

theorem path_gatherCalls (i : Nat) (rs : List Reported) :
    (gatherCalls L i rs).map Call.path = Tree.gather i (rs.map fun r => r.below.map Call.path) := by
  induction rs generalizing i with
  | nil => rfl
  | cons r rs ih => simp [gatherCalls, Tree.gather, ih, Call.below, Function.comp_def]

theorem mem_gatherCalls {i : Nat} {rs : List Reported} {call : Call} (h : call ∈ gatherCalls L i rs) :
    ∃ k r, rs[k]? = some r ∧
      (call = ⟨[i + k], r.key, pushvalue L r.child⟩ ∨ ∃ c ∈ r.below, call = c.below [i + k]) := by
  induction rs generalizing i with
  | nil => cases h
  | cons r rs ih =>
    rw [gatherCalls, List.mem_append, List.mem_cons, List.mem_map] at h
    obtain ⟨c, hc, rfl⟩ | rfl | later := h
    · exact ⟨0, r, rfl, .inr ⟨c, hc, rfl⟩⟩
    · exact ⟨0, r, rfl, .inl rfl⟩
    · obtain ⟨k, r', found, which⟩ := ih later
      refine ⟨k + 1, r', found, ?_⟩
      rwa [Nat.add_right_comm, Nat.add_assoc] at which

def passedKeys (L : Conversions) (v : Json) : List LuaValue := (passedEntries L v).map Prod.fst

/-- A call for the element at its path, under the key that the traversal passes. -/
def PassedCall (L : Conversions) (v : Json) (call : Call) : Prop :=
  (elementAt call.path v).map (pushvalue L) = some call.value ∧ keyAt (passedKeys L) call.path v = some call.key

/-- The calls of a traversal, with paths from this value on. -/
def Traverses (L : Conversions) (v : Json) (calls : List Call) : Prop :=
  Tree.Exhausts Json.children v (calls.map Call.path) ∧ ∀ call ∈ calls, PassedCall L v call

theorem traverseEntries_calls (returns : ∀ calls call, callback calls call = true) (path : List Nat)
    {entries : List (LuaValue × Json)}
    (each : ∀ e ∈ entries, ∀ (path : List Nat) (calls : List Call), ∃ below, Traverses L e.2 below ∧
      tTraversal L callback path e.2 ⟨.reference ⟨.function, function⟩ :: rest, calls⟩ =
        .ok ⟨.reference ⟨.function, function⟩ :: rest, calls ++ below.map (Call.below path)⟩) (i : Nat) (calls : List Call) :
    ∃ rs : List Reported, rs.map (fun r => (r.key, r.child)) = entries ∧ (∀ r ∈ rs, Traverses L r.child r.below) ∧
      traverseEntries L callback (rest.length + 1) path i entries ⟨.reference ⟨.function, function⟩ :: rest, calls⟩ =
        .ok ⟨.reference ⟨.function, function⟩ :: rest, calls ++ (gatherCalls L i rs).map (Call.below path)⟩ := by
  induction entries generalizing i calls with
  | nil => exact ⟨[], rfl, by simp, by simp [traverseEntries, gatherCalls]⟩
  | cons e entries ih =>
    obtain ⟨key, element⟩ := e
    obtain ⟨below, traverses, nested⟩ := each (key, element) List.mem_cons_self (path ++ [i]) calls
    obtain ⟨rs, same, all, run⟩ := ih (fun e he => each e (List.mem_cons_of_mem _ he)) (i + 1)
      (calls ++ below.map (Call.below (path ++ [i])) ++ [⟨path ++ [i], key, pushvalue L element⟩])
    refine ⟨⟨key, element, below⟩ :: rs, by simp [same], ?_, ?_⟩
    · intro r hr
      rcases List.mem_cons.mp hr with rfl | hr
      · exact traverses
      · exact all r hr
    · rw [traverseEntries, nested]
      simp only [bind, Except.bind, report_returns function rest returns, run]
      simp [gatherCalls, Call.below, Function.comp_def]

theorem keyAt_cons {keys : Json → List LuaValue} {k : Nat} {path : List Nat} {v child : Json} (nonempty : path ≠ [])
    (found : (Json.children v)[k]? = some child) : keyAt keys (k :: path) v = keyAt keys path child := by
  obtain ⟨before, i, rfl⟩ := (List.eq_nil_or_concat' path).resolve_left nonempty
  rw [keyAt, keyAt, ← List.cons_append, List.getLast?_concat, List.getLast?_concat, List.dropLast_concat,
    List.dropLast_concat]
  simp [elementAt, Tree.subtree, found]

theorem Json.sizeOf_child_lt {v c : Json} (child : c ∈ Json.children v) : sizeOf c < sizeOf v := by
  cases v with
  | array elements =>
    have inner : sizeOf c < sizeOf elements := List.sizeOf_lt_of_mem child
    simp only [Json.array.sizeOf_spec]
    omega
  | object members =>
    obtain ⟨⟨key, value⟩, member, rfl⟩ := List.mem_map.mp child
    have inner := List.sizeOf_lt_of_mem member
    simp only [Prod.mk.sizeOf_spec] at inner
    simp only [Json.object.sizeOf_spec]
    omega
  | _ => cases child

theorem Json.nested_induction {P : Json → Prop} (step : ∀ v, (∀ c ∈ Json.children v, P c) → P v) (v : Json) : P v :=
  step v fun c _ => nested_induction step c
termination_by sizeOf v
decreasing_by exact sizeOf_child_lt ‹_›

theorem children_passedEntries (v : Json) : (passedEntries L v).map Prod.snd = Json.children v := by
  cases v <;> simp [passedEntries, Json.children, Function.comp_def]

theorem tTraversal_calls (returns : ∀ calls call, callback calls call = true) (v : Json) (path : List Nat)
    (calls : List Call) :
    ∃ below, Traverses L v below ∧
      tTraversal L callback path v ⟨.reference ⟨.function, function⟩ :: rest, calls⟩ =
        .ok ⟨.reference ⟨.function, function⟩ :: rest, calls ++ below.map (Call.below path)⟩ := by
  induction v using Json.nested_induction generalizing path calls with
  | step v ih =>
    have each : ∀ e ∈ passedEntries L v, e.2 ∈ Json.children v := by
      intro e he
      rw [← children_passedEntries (L := L)]
      exact List.mem_map_of_mem he
    obtain ⟨rs, same, all, run⟩ := traverseEntries_calls function rest returns path (fun e he => ih e.2 (each e he)) 0 calls
    have children : rs.map Reported.child = Json.children v := by
      rw [← children_passedEntries (L := L), ← same, List.map_map]
      rfl
    refine ⟨gatherCalls L 0 rs, ⟨?_, ?_⟩, ?_⟩
    · rw [path_gatherCalls]
      apply Tree.exhausts_gather
      · rw [← children, List.length_map, List.length_map]
      · intro k below c hb hc
        rw [List.getElem?_map, Option.map_eq_some_iff] at hb
        obtain ⟨r, found, rfl⟩ := hb
        rw [← children, List.getElem?_map, found, Option.map_some, Option.some.injEq] at hc
        exact hc ▸ (all r (List.mem_of_getElem? found)).1
    · intro call member
      obtain ⟨k, r, found, which⟩ := mem_gatherCalls member
      rw [Nat.zero_add] at which
      have child : (Json.children v)[k]? = some r.child := by rw [← children, List.getElem?_map, found]; rfl
      obtain rfl | ⟨c, hc, rfl⟩ := which
      · refine ⟨?_, ?_⟩
        · simp [elementAt, Tree.subtree, child]
        · simp [keyAt, elementAt, Tree.subtree, passedKeys, ← same, found]
      · obtain ⟨exhausts, passed⟩ := all r (List.mem_of_getElem? found)
        obtain ⟨element, key⟩ := passed c hc
        have nonempty : c.path ≠ [] := ((exhausts.complete c.path).mp (List.mem_map_of_mem hc)).1
        refine ⟨?_, ?_⟩
        · apply Eq.trans _ element
          simp [Call.below, elementAt, Tree.subtree, child]
        · apply Eq.trans _ key
          exact keyAt_cons nonempty child
    · rw [tTraversal_eq]
      exact run

theorem treeTraversal_calls (returns : ∀ calls call, callback calls call = true) (v : Json) :
    ∃ calls, Traverses L v calls ∧
      treeTraversal L callback [.reference ⟨.function, function⟩, .userdata v] = .ok ⟨[.userdata v], calls⟩ := by
  obtain ⟨calls, traverses, run⟩ := tTraversal_calls (L := L) function [.userdata v] returns v [] []
  refine ⟨calls, traverses, ?_⟩
  have whole : calls.map (Call.below []) = calls := List.map_id calls
  rw [treeTraversal, run, whole]
  rfl

/-! ### The keys of `foreach` -/

theorem foreachLoop_keys (returns : ∀ calls call, callback calls call = true) (entries : List (LuaValue × Json)) (i : Nat)
    (calls : List Call) :
    ∃ later, later.map Call.key = entries.map Prod.fst ∧
      foreachLoop L callback (rest.length + 1) i entries ⟨.reference ⟨.function, function⟩ :: rest, calls⟩ =
        .ok ⟨.reference ⟨.function, function⟩ :: rest, calls ++ later⟩ := by
  induction entries generalizing i calls with
  | nil => exact ⟨[], rfl, by simp [foreachLoop]⟩
  | cons e entries ih =>
    obtain ⟨key, element⟩ := e
    obtain ⟨later, same, run⟩ := ih (i + 1) (calls ++ [⟨[i], key, pushvalue L element⟩])
    refine ⟨⟨[i], key, pushvalue L element⟩ :: later, by simp [same], ?_⟩
    rw [foreachLoop, report_returns function rest returns]
    simp only [bind, Except.bind, run]
    simp

theorem foreach_keys (returns : ∀ calls call, callback calls call = true) (v : Json) :
    ∃ w, foreach L callback [.reference ⟨.function, function⟩, .userdata v] = .ok w ∧
      w.calls.map Call.key = (foreachEntries L v).map Prod.fst := by
  obtain ⟨calls, same, run⟩ := foreachLoop_keys (L := L) function [.userdata v] returns (foreachEntries L v) 0 []
  have length : [Value.reference ⟨.function, function⟩, Value.userdata v].length = [Value.userdata v].length + 1 := rfl
  refine ⟨⟨[.userdata v], calls⟩, ?_, same⟩
  rw [foreach, length, run]
  rfl

/-! ### Own keys and passed keys -/

theorem passedKeys_singular (singular : SingularAt v) : passedKeys L v = Json.keys v := by
  have one : L.ofInteger 1 = .finite 1 := L.ofInteger_exact 1 (by decide) (by decide)
  cases v with
  | array elements =>
    have short := singular.1 elements rfl
    match elements, short with
    | [], _ => rfl
    | [element], _ => simp [passedKeys, passedEntries, Json.keys, one]
  | object members =>
    simp only [passedKeys, passedEntries, Json.keys, List.map_map]
    apply List.map_congr_left
    intro m member
    exact congrArg Value.string (cString_eq_self_iff.mpr (singular.2 members rfl m member))
  | _ => rfl

/-- A first element is passed with the same key by both. -/
theorem foreachKeys_singular (singular : SingularAt v) (container : passedKeys L v ≠ []) :
    (foreachEntries L v).map Prod.fst = passedKeys L v := by
  cases v with
  | array elements =>
    have short := singular.1 elements rfl
    match elements, short with
    | [], _ => rfl
    | [element], _ => rfl
  | object members => rfl
  | _ => exact absurd rfl container

end Calls

/-- A call is for an element of a container. -/
theorem container_of_keyAt {keys : Json → List LuaValue} {path : List Nat} {v : Json} {key : LuaValue}
    (found : keyAt keys path v = some key) :
    ∃ before i container, path = before ++ [i] ∧ elementAt before v = some container ∧ (keys container)[i]? = some key := by
  obtain ⟨i, last, rest⟩ := Option.bind_eq_some_iff.mp found
  obtain ⟨container, before, key⟩ := Option.bind_eq_some_iff.mp rest
  obtain ⟨before', rfl⟩ := List.getLast?_eq_some_iff.mp last
  rw [List.dropLast_concat] at before
  exact ⟨before', i, container, rfl, before, key⟩

theorem keyAt_concat {keys : Json → List LuaValue} {before : List Nat} {i : Nat} {v container : Json}
    (found : elementAt before v = some container) : keyAt keys (before ++ [i]) v = (keys container)[i]? := by
  rw [keyAt, List.getLast?_concat, List.dropLast_concat, Option.bind_some, found, Option.bind_some]

theorem ownCall_of_singular {L : Conversions} {callback : Callback} {function : Nat} {v : Json} {call : Call}
    (returns : ∀ calls call, callback calls call = true) (singular : Singular v) (passed : PassedCall L v call) :
    OwnCall L callback function v call := by
  obtain ⟨element, key⟩ := passed
  obtain ⟨before, i, container, same, found, own⟩ := container_of_keyAt key
  have at_container : SingularAt container := singular before container found
  have nonempty : passedKeys L container ≠ [] := List.ne_nil_of_mem (List.mem_of_getElem? own)
  obtain ⟨w, run, keys⟩ := foreach_keys (L := L) function returns container
  refine ⟨element, ?_, container, w, ?_, run, ?_⟩
  · rw [same, keyAt_concat found, ← passedKeys_singular at_container, own]
  · rw [same, List.dropLast_concat, found]
  · rw [same, List.getLast?_concat, Option.bind_some, ← List.getElem?_map, keys, foreachKeys_singular at_container nonempty,
      own]

/-- Every element of the value has a call, whose key is the passed one and has to be its own. -/
theorem keys_of_reports {L : Conversions} {v : Json} (reports : Reports L v) (before : List Nat) {container : Json} (i : Nat)
    (found : elementAt before v = some container) (child : i < (Json.children container).length) :
    (passedKeys L container)[i]? = (Json.keys container)[i]? := by
  have returns : ∀ calls call, (fun _ _ => true : Callback) calls call = true := fun _ _ => rfl
  obtain ⟨calls, traverses, run⟩ := treeTraversal_calls (L := L) 0 returns v
  obtain ⟨w, same, -, exhausts, own⟩ := reports _ 0 returns
  rw [run] at same
  cases same
  have reported : before ++ [i] ∈ calls.map Call.path := by
    rw [exhausts.complete]
    refine ⟨by simp, ?_⟩
    rw [Tree.subtree_append, show Tree.subtree Json.children before v = some container from found, Option.bind_some,
      Tree.subtree, List.getElem?_eq_getElem child]
    rfl
  obtain ⟨call, member, path⟩ := List.mem_map.mp reported
  rw [← keyAt_concat found, ← keyAt_concat found, ← path, (traverses.2 call member).2, (own call member).key]

theorem singularAt_of_keys {L : Conversions} {v : Json}
    (same : ∀ i < (Json.children v).length, (passedKeys L v)[i]? = (Json.keys v)[i]?) : SingularAt v := by
  refine ⟨?_, ?_⟩
  · rintro elements rfl
    by_contra long
    obtain ⟨a, b, rest, rfl⟩ : ∃ a b rest, elements = a :: b :: rest := by
      match elements, long with
      | a :: b :: rest, _ => exact ⟨a, b, rest, rfl⟩
      | [], long => exact absurd (Nat.zero_le 1) long
      | [a], long => exact absurd (Nat.le_refl 1) long
    -- the second element is passed with the key of the first
    have second := same 1 (Nat.lt_of_not_le long)
    rw [Json.keys, List.getElem?_mapIdx] at second
    have key : L.ofInteger 1 = .finite ((2 : Int) : Rat) := Value.number.inj (Option.some.inj second)
    rw [L.ofInteger_exact 1 (by decide) (by decide)] at key
    exact absurd (Rat.intCast_inj.mp (Number.finite.inj key)) (by decide)
  · rintro members rfl m member
    obtain ⟨i, bound, rfl⟩ := List.mem_iff_getElem.mp member
    have key := same i (by simpa [Json.children] using bound)
    simp only [passedKeys, passedEntries, Json.keys, List.map_map, List.getElem?_map, List.getElem?_eq_getElem bound] at key
    apply cString_eq_self_iff.mp
    simpa using key

/-- `nljson.traverse` reports every node under its own key for the values without a second element in an array and
without a NUL in a key. -/
theorem traverse_reports_iff (L : Conversions) (v : Json) : Reports L v ↔ Singular v := by
  constructor
  · intro reports path container found
    apply singularAt_of_keys (L := L)
    intro i child
    exact keys_of_reports reports path i found child
  · intro singular callback function returns
    obtain ⟨calls, traverses, run⟩ := treeTraversal_calls (L := L) function returns v
    refine ⟨_, run, rfl, traverses.1, ?_⟩
    intro call member
    exact ownCall_of_singular returns singular (traverses.2 call member)

/-- `[true, false]`: both elements are reported under 1, where `foreach` passes 1 and 2. -/
theorem traverse_reports_counterexample :
    let both : Json := .array [.boolean true, .boolean false]
    let stack : LuaStack := [.reference ⟨.function, 0⟩, .userdata both]
    (treeTraversal .decimal (fun _ _ => true) stack).toOption.map (fun w => w.calls.map Call.key) =
        some [.number (.finite 1), .number (.finite 1)] ∧
      (foreach .decimal (fun _ _ => true) stack).toOption.map (fun w => w.calls.map Call.key) =
        some [.number (.finite 1), .number (.finite 2)] ∧
      ¬Reports .decimal both := by
  refine ⟨rfl, rfl, ?_⟩
  intro reports
  have singular := singularAt_of_keys fun i child => keys_of_reports reports [] i rfl child
  exact absurd (singular.1 _ rfl) (by decide)

end LAppS.Nljson
