import LAppS.RoundRobin
import LAppS.ServiceRegistry

/-!
# The instances that the registry hands out

Every lookup that leads to a service, by its name or by its target, turns the holder of the service.
-/

namespace LAppS.ServiceRegistry
open RoundRobin

inductive Lookup where
  | name (name : String)
  | target (target : String)

def find (r : ServiceRegistry) : Lookup → Except String (Service × ServiceRegistry)
  | .name name => r.findByName name
  | .target target => r.findByTarget target

/-- The name of the service that is looked up. -/
def leads (r : ServiceRegistry) : Lookup → Option String
  | .name name => some name
  | .target target => r.mTargets2Names.lookup target

/-- The instances of a service that the lookups return, one after the other. -/
def found (name : String) : ServiceRegistry → List Lookup → List Service
  | _, [] => []
  | r, lookup :: lookups =>
    match r.find lookup with
    | .ok (s, r') => if r.leads lookup = some name then s :: found name r' lookups else found name r' lookups
    | .error _ => found name r lookups

theorem next_turn {h : ServicesInstanceHolder} (nonempty : h.mInstances ≠ []) :
    ∃ s, h.mInstances[turn h.mInstances.length (h.current + 1)]? = some s ∧
      h.next = .ok (s, { h with current := turn h.mInstances.length (h.current + 1) }) := by
  have inside : turn h.mInstances.length (h.current + 1) < h.mInstances.length := turn_lt (List.length_pos_iff.mpr nonempty)
  have at_ := List.getElem?_eq_getElem inside
  refine ⟨_, at_, ?_⟩
  rw [ServicesInstanceHolder.next, ← turn, at_]

variable {r r' : ServiceRegistry} {name : String} {h : ServicesInstanceHolder} {lookup : Lookup}

/-- A lookup of a service turns its holder and nothing else. -/
theorem find_of_leads (leads : r.leads lookup = some name) (held : r.mServices.lookup name = some h) (nonempty : h.mInstances ≠ []) :
    ∃ s, h.mInstances[turn h.mInstances.length (h.current + 1)]? = some s ∧
      r.find lookup = .ok (s, { r with
        mServices := r.mServices.insert name { h with current := turn h.mInstances.length (h.current + 1) } }) := by
  obtain ⟨s, at_, next⟩ := next_turn nonempty
  refine ⟨s, at_, ?_⟩
  cases lookup with
  | name other =>
    obtain rfl : other = name := Option.some.inj leads
    rw [find, findByName, held]
    simp only [next]
    rfl
  | target target =>
    have known : r.mTargets2Names.lookup target = some name := leads
    rw [find, findByTarget, known]
    simp only [held, next]
    rfl

theorem find_ok {s : Service} (ok : r.find lookup = .ok (s, r')) :
    ∃ name holder, r.leads lookup = some name ∧ r' = { r with mServices := r.mServices.insert name holder } := by
  have turned {name : String} {holder : ServicesInstanceHolder}
      (ok : (holder.next.bind fun found => .ok (found.1, { r with mServices := r.mServices.insert name found.2 })) = .ok (s, r')) :
      ∃ holder, r' = { r with mServices := r.mServices.insert name holder } := by
    cases next : holder.next with
    | error e =>
      rw [next] at ok
      cases ok
    | ok found =>
      rw [next] at ok
      cases ok
      exact ⟨found.2, rfl⟩
  cases lookup with
  | name name =>
    rw [find, findByName] at ok
    split at ok
    · obtain ⟨holder, same⟩ := turned ok
      exact ⟨name, holder, rfl, same⟩
    · cases ok
  | target target =>
    rw [find, findByTarget] at ok
    split at ok
    next name known =>
      split at ok
      · obtain ⟨holder, same⟩ := turned ok
        exact ⟨name, holder, known, same⟩
      · cases ok
    · cases ok

/-- The instances take turns, from the one behind the instance that was returned last. -/
theorem found_eq_turns (held : r.mServices.lookup name = some h) (nonempty : h.mInstances ≠ []) (lookups : List Lookup) :
    found name r lookups =
      (turns h.mInstances.length (h.current + 1) (lookups.countP (r.leads · == some name))).filterMap (h.mInstances[·]?) := by
  induction lookups generalizing r h with
  | nil => rfl
  | cons lookup lookups ih =>
    by_cases leads : r.leads lookup = some name
    · obtain ⟨s, at_, find⟩ := find_of_leads leads held nonempty
      have next := ih (r := { r with
        mServices := r.mServices.insert name { h with current := turn h.mInstances.length (h.current + 1) } })
        (AList.lookup_insert _) nonempty
      rw [found, find]
      simp only [leads, if_true]
      rw [next, List.countP_cons_of_pos (by simp [leads]), turns, List.filterMap_cons_some at_]
      rfl
    · rw [List.countP_cons_of_neg (by simp [leads])]
      cases find : r.find lookup with
      | error e =>
        rw [found, find]
        exact ih held nonempty
      | ok result =>
        obtain ⟨other, holder, leads', same⟩ := find_ok find
        have ne : name ≠ other := fun same => leads (same ▸ leads')
        have next := ih (r := result.2) (by rw [same, AList.lookup_insert_ne ne, held]) nonempty
        rw [found, find]
        simp only [leads, if_false]
        rw [next, same]
        rfl

theorem count_places {instances : List Service} (distinct : instances.Nodup) {j : Nat} {s : Service} (at_ : instances[j]? = some s)
    {places : List Nat} (inside : ∀ i ∈ places, i < instances.length) :
    (places.filterMap (instances[·]?)).count s = places.count j := by
  obtain ⟨hj, rfl⟩ := List.getElem?_eq_some_iff.mp at_
  induction places with
  | nil => rfl
  | cons i places ih =>
    obtain ⟨hi, rest⟩ := List.forall_mem_cons.mp inside
    rw [List.filterMap_cons_some (List.getElem?_eq_getElem hi), List.count_cons, List.count_cons, ih rest]
    simp only [beq_iff_eq, distinct.getElem_inj_iff]

theorem length_places {instances : List Service} {places : List Nat} (inside : ∀ i ∈ places, i < instances.length) :
    (places.filterMap (instances[·]?)).length = places.length := by
  induction places with
  | nil => rfl
  | cons i places ih =>
    obtain ⟨hi, rest⟩ := List.forall_mem_cons.mp inside
    rw [List.filterMap_cons_some (List.getElem?_eq_getElem hi), List.length_cons, List.length_cons, ih rest]

/-- Two instances of a service that is looked up by its target, with another service beside it. -/
def twoInstances : List Call :=
  [.reg ⟨1, "echo", some "/echo", 1024⟩, .reg ⟨2, "echo", some "/echo", 1024⟩, .reg ⟨3, "chat", some "/chat", 1024⟩]

def echoLookups : List Lookup := [.target "/echo", .target "/chat", .name "echo", .target "/echo"]

end LAppS.ServiceRegistry
