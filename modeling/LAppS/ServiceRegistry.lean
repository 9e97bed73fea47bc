import Mathlib.Data.List.AList
import Mathlib.Data.Set.Basic

/-!
The registry of the services: the instances by the name of their service, and the names by the request target. A
registration overwrites the name of its target, and `unreg` erases the target whatever name it leads to.
-/

namespace LAppS

/-- An instance of a service; one that is not reactive has no target. -/
structure Service where
  id : Nat
  name : String
  target : Option String
  maxMSGSize : Nat
  deriving DecidableEq, Repr

namespace Service

def isReactive (s : Service) : Bool := s.target.isSome

def getTarget (s : Service) : String := s.target.getD ""

end Service

structure ServicesInstanceHolder where
  current : Nat := 0
  mInstances : List Service := []

namespace ServicesInstanceHolder

def pushBack (h : ServicesInstanceHolder) (instance_ : Service) : ServicesInstanceHolder :=
  { h with mInstances := h.mInstances ++ [instance_] }

def next (h : ServicesInstanceHolder) : Except String (Service × ServicesInstanceHolder) :=
  let current := if h.current + 1 < h.mInstances.length then h.current + 1 else 0
  match h.mInstances[current]? with
  | some s => .ok (s, { h with current })
  | none => .error "ServicesInstanceHolder::next() - empty"

end ServicesInstanceHolder

structure ServiceRegistry where
  mServices : AList fun _ : String => ServicesInstanceHolder
  mTargets2Names : AList fun _ : String => String

namespace ServiceRegistry
open ServicesInstanceHolder

def new : ServiceRegistry := ⟨∅, ∅⟩

def reg (r : ServiceRegistry) (s : Service) : ServiceRegistry where
  mTargets2Names := if s.isReactive then r.mTargets2Names.insert s.getTarget s.name else r.mTargets2Names
  mServices := r.mServices.insert s.name (((r.mServices.lookup s.name).getD {}).pushBack s)

/-- The instance that is asked for its target is the one after the instance that is asked whether it is reactive. -/
def unreg (r : ServiceRegistry) (name : String) : Except String ServiceRegistry :=
  match r.mServices.lookup name with
  | none => .ok r
  | some holder => do
    let (first, holder) ← holder.next
    if first.isReactive then
      let (second, _) ← holder.next
      return ⟨r.mServices.erase name, r.mTargets2Names.erase second.getTarget⟩
    else return ⟨r.mServices.erase name, r.mTargets2Names⟩

/-- The instance, and the registry with the holder turned. -/
def findByName (r : ServiceRegistry) (name : String) : Except String (Service × ServiceRegistry) :=
  match r.mServices.lookup name with
  | some holder => do
    let (s, holder) ← holder.next
    return (s, { r with mServices := r.mServices.insert name holder })
  | none => .error ("ServiceRegistry::findByName(" ++ name ++ "), - no such service")

def findByTarget (r : ServiceRegistry) (target : String) : Except String (Service × ServiceRegistry) :=
  match r.mTargets2Names.lookup target with
  | some name =>
    match r.mServices.lookup name with
    | some holder => do
      let (s, holder) ← holder.next
      return (s, { r with mServices := r.mServices.insert name holder })
    | none => .error ("ServiceRegistry::findByTarget(" ++ name ++ "), - no such service")
  | none => .error ("ServiceRegistry::findByTarget(" ++ target ++ "), - no such target")

inductive Call where
  | reg (s : Service)
  | unreg (name : String)
  | clear
  | findByName (name : String)
  | findByTarget (target : String)

/-- An exception leaves the registry as it is. -/
def call (r : ServiceRegistry) : Call → ServiceRegistry
  | .reg s => r.reg s
  | .unreg name => (r.unreg name).toOption.getD r
  | .clear => new
  | .findByName name => ((r.findByName name).map Prod.snd).toOption.getD r
  | .findByTarget target => ((r.findByTarget target).map Prod.snd).toOption.getD r

def after (calls : List Call) : ServiceRegistry := calls.foldl call new

/-! ### What the registry is for -/

def Call.register (registered : List Service) : Call → List Service
  | .reg s => registered ++ [s]
  | .unreg name => registered.filter (·.name ≠ name)
  | .clear => []
  | .findByName _ | .findByTarget _ => registered

def registered (calls : List Call) : List Service := calls.foldl Call.register []

/-- The instances that are registered at the same time are allowed together. -/
def Together (Allowed : Set (Set Service)) : List Service → List Call → Prop
  | _, [] => True
  | instances, c :: calls => {s | s ∈ c.register instances} ∈ Allowed ∧ Together Allowed (c.register instances) calls

/-- A target is found exactly when a registered instance has it, and the instance that is found is such a one. -/
def Routes (r : ServiceRegistry) (instances : List Service) (target : String) : Prop :=
  ((∃ found, r.findByTarget target = .ok found) ↔ ∃ s ∈ instances, s.target = some target) ∧
    ∀ s r', r.findByTarget target = .ok (s, r') → s ∈ instances ∧ s.target = some target

/-- The instances that have a target are those of one service. -/
def Compatible (E : Set Service) : Prop :=
  ∀ s ∈ E, ∀ t, s.target = some t → ∀ s' ∈ E, s'.name = s.name ↔ s'.target = some t

/-! ### Holders -/

theorem next_ok {h : ServicesInstanceHolder} (nonempty : h.mInstances ≠ []) :
    ∃ s ∈ h.mInstances, ∃ current, h.next = .ok (s, { h with current }) := by
  have pos : 0 < h.mInstances.length := List.length_pos_iff.mpr nonempty
  have inside : (if h.current + 1 < h.mInstances.length then h.current + 1 else 0) < h.mInstances.length := by
    split <;> omega
  refine ⟨_, List.getElem_mem inside, if h.current + 1 < h.mInstances.length then h.current + 1 else 0, ?_⟩
  simp only [ServicesInstanceHolder.next, List.getElem?_eq_getElem inside]

/-! ### The two maps -/

structure Holds (r : ServiceRegistry) (instances : List Service) : Prop where
  holder : ∀ name h, r.mServices.lookup name = some h →
    h.mInstances ≠ [] ∧ h.mInstances = instances.filter (·.name = name)
  known : ∀ s ∈ instances, ∃ h, r.mServices.lookup s.name = some h
  target : ∀ t name, r.mTargets2Names.lookup t = some name ↔ ∃ s ∈ instances, s.target = some t ∧ s.name = name

variable {E : Set Service} {r : ServiceRegistry} {instances : List Service}

theorem holds_new : Holds new [] where
  holder := fun name h hh => absurd hh (by simp [new])
  known := fun s hs => absurd hs (by simp)
  target := fun t name => by simp [new]

theorem Holds.routes (holds : Holds r instances) (compatible : Compatible {s | s ∈ instances}) (t : String) :
    Routes r instances t := by
  cases found : r.mTargets2Names.lookup t with
  | none =>
    have unknown : ∀ s ∈ instances, s.target ≠ some t := by
      intro s hs ht
      have known := (holds.target t s.name).mpr ⟨s, hs, ht, rfl⟩
      rw [found] at known
      cases known
    have missing : r.findByTarget t = .error ("ServiceRegistry::findByTarget(" ++ t ++ "), - no such target") := by
      rw [findByTarget, found]
    refine ⟨⟨?_, ?_⟩, ?_⟩
    · rintro ⟨x, hx⟩
      rw [missing] at hx
      cases hx
    · rintro ⟨s, hs, ht⟩
      exact absurd ht (unknown s hs)
    · intro s r' h
      rw [missing] at h
      cases h
  | some name =>
    obtain ⟨s, hs, ht, rfl⟩ := (holds.target t name).mp found
    obtain ⟨h, hh⟩ := holds.known s hs
    obtain ⟨nonempty, members⟩ := holds.holder s.name h hh
    obtain ⟨s', hs', current, next⟩ := next_ok nonempty
    have result : r.findByTarget t =
        .ok (s', { r with mServices := r.mServices.insert s.name { h with current } }) := by
      rw [findByTarget, found]
      simp only [hh, next]
      rfl
    rw [members, List.mem_filter, decide_eq_true_iff] at hs'
    have target : s'.target = some t := (compatible s hs t ht s' hs'.1).mp hs'.2
    refine ⟨⟨fun _ => ⟨s, hs, ht⟩, fun _ => ⟨_, result⟩⟩, ?_⟩
    intro s'' r' h
    rw [result] at h
    cases h
    exact ⟨hs'.1, target⟩

theorem Holds.reg (holds : Holds r instances) (compatible : Compatible E) (hE : ∀ s ∈ instances, s ∈ E)
    {s : Service} (hs : s ∈ E) : Holds (r.reg s) (instances ++ [s]) where
  holder := by
    intro name h hh
    by_cases eq : name = s.name
    · subst eq
      rw [ServiceRegistry.reg, AList.lookup_insert, Option.some.injEq] at hh
      subst hh
      refine ⟨by simp [pushBack], ?_⟩
      rw [List.filter_append]
      cases known : r.mServices.lookup s.name with
      | some h =>
        obtain ⟨-, members⟩ := holds.holder s.name h known
        simp [pushBack, members]
      | none =>
        have fresh : instances.filter (·.name = s.name) = [] := by
          rw [List.filter_eq_nil_iff]
          intro s' hs' same
          obtain ⟨h, hh⟩ := holds.known s' hs'
          rw [of_decide_eq_true same, known] at hh
          cases hh
        simp [pushBack, fresh]
    · rw [ServiceRegistry.reg, AList.lookup_insert_ne eq] at hh
      obtain ⟨nonempty, members⟩ := holds.holder name h hh
      exact ⟨nonempty, by rw [members, List.filter_append]; simp [Ne.symm eq]⟩
  known := by
    intro s' hs'
    by_cases eq : s'.name = s.name
    · rw [ServiceRegistry.reg, eq, AList.lookup_insert]
      exact ⟨_, rfl⟩
    · rw [ServiceRegistry.reg, AList.lookup_insert_ne eq]
      rcases List.mem_append.mp hs' with hs' | hs'
      · exact holds.known s' hs'
      · exact absurd (congrArg Service.name (List.mem_singleton.mp hs')) eq
  target := by
    intro t name
    simp only [List.mem_append, List.mem_singleton, or_and_right, exists_or, exists_eq_left, ← holds.target]
    cases reactive : s.target with
    | none => simp [ServiceRegistry.reg, Service.isReactive, reactive]
    | some t' =>
      by_cases eq : t = t'
      · subst eq
        -- Whoever had the target before has the name that is written now.
        have same : r.mTargets2Names.lookup t = some name → s.name = name := by
          rw [holds.target]
          rintro ⟨s', hs', ht, rfl⟩
          exact (compatible s' (hE s' hs') t ht s hs).mpr reactive
        simpa [ServiceRegistry.reg, Service.isReactive, Service.getTarget, reactive] using same
      · simp [ServiceRegistry.reg, Service.isReactive, Service.getTarget, reactive, AList.lookup_insert_ne eq,
          Ne.symm eq]

/-- What remains when a service and the targets that lead to it are erased. -/
theorem Holds.forget (holds : Holds r instances) {name : String} {targets : AList fun _ : String => String}
    (others : ∀ t n, targets.lookup t = some n ↔ r.mTargets2Names.lookup t = some n ∧ n ≠ name) :
    Holds ⟨r.mServices.erase name, targets⟩ (instances.filter (·.name ≠ name)) where
  holder := by
    intro n h hh
    have other : n ≠ name := by
      rintro rfl
      rw [AList.lookup_erase] at hh
      cases hh
    rw [AList.lookup_erase_ne other] at hh
    obtain ⟨nonempty, members⟩ := holds.holder n h hh
    refine ⟨nonempty, ?_⟩
    rw [members, List.filter_filter]
    apply List.filter_congr
    intro s _
    by_cases same : s.name = n <;> simp [same, other]
  known := by
    intro s hs
    rw [List.mem_filter, decide_eq_true_iff] at hs
    rw [AList.lookup_erase_ne hs.2]
    exact holds.known s hs.1
  target := by
    intro t n
    rw [others, holds.target]
    constructor
    · rintro ⟨⟨s, hs, ht, rfl⟩, other⟩
      exact ⟨s, List.mem_filter.mpr ⟨hs, decide_eq_true other⟩, ht, rfl⟩
    · rintro ⟨s, hs, ht, rfl⟩
      rw [List.mem_filter, decide_eq_true_iff] at hs
      exact ⟨⟨s, hs.1, ht, rfl⟩, hs.2⟩

theorem Holds.unreg (holds : Holds r instances) (compatible : Compatible E) (hE : ∀ s ∈ instances, s ∈ E)
    (name : String) :
    ∃ r', r.unreg name = .ok r' ∧ Holds r' (instances.filter (·.name ≠ name)) := by
  cases found : r.mServices.lookup name with
  | none =>
    have none_named : instances.filter (·.name ≠ name) = instances := by
      rw [List.filter_eq_self]
      intro s hs
      rw [decide_eq_true_iff]
      rintro rfl
      obtain ⟨h, hh⟩ := holds.known s hs
      rw [found] at hh
      cases hh
    exact ⟨r, by rw [ServiceRegistry.unreg, found], by rwa [none_named]⟩
  | some h =>
    obtain ⟨nonempty, members⟩ := holds.holder name h found
    obtain ⟨first, hfirst, current, next⟩ := next_ok nonempty
    obtain ⟨second, hsecond, current', next'⟩ := next_ok (h := { h with current }) nonempty
    have of_holder : ∀ s ∈ h.mInstances, s ∈ E ∧ s.name = name := by
      intro s hs
      rw [members, List.mem_filter, decide_eq_true_iff] at hs
      exact ⟨hE s hs.1, hs.2⟩
    obtain ⟨first_in, first_named⟩ := of_holder first hfirst
    obtain ⟨second_in, second_named⟩ := of_holder second hsecond
    cases reactive : first.target with
    | none =>
      refine ⟨⟨r.mServices.erase name, r.mTargets2Names⟩, ?_, holds.forget ?_⟩
      · simp [ServiceRegistry.unreg, found, next, Service.isReactive, reactive, bind, Except.bind, pure, Except.pure]
      · intro t n
        refine ⟨fun ht => ⟨ht, ?_⟩, And.left⟩
        rintro rfl
        obtain ⟨s, hs, target, named⟩ := (holds.target t n).mp ht
        have same := (compatible s (hE s hs) t target first first_in).mp (first_named.trans named.symm)
        rw [reactive] at same
        cases same
    | some t =>
      have second_target : second.target = some t :=
        (compatible first first_in t reactive second second_in).mp (second_named.trans first_named.symm)
      refine ⟨⟨r.mServices.erase name, r.mTargets2Names.erase t⟩, ?_, holds.forget ?_⟩
      · simp [ServiceRegistry.unreg, found, next, next', Service.isReactive, reactive, Service.getTarget,
          second_target, bind, Except.bind, pure, Except.pure]
      · intro t' n
        by_cases same : t' = t
        · subst same
          rw [AList.lookup_erase, holds.target]
          constructor
          · intro absent
            cases absent
          rintro ⟨⟨s, hs, target, named⟩, other⟩
          have equal := (compatible s (hE s hs) t' target first first_in).mpr reactive
          exact absurd (named.symm.trans (equal.symm.trans first_named)) other
        · rw [AList.lookup_erase_ne same]
          refine ⟨fun ht => ⟨ht, ?_⟩, And.left⟩
          rintro rfl
          obtain ⟨s, hs, target, named⟩ := (holds.target t' n).mp ht
          have equal := (compatible s (hE s hs) t' target first first_in).mp (first_named.trans named.symm)
          rw [reactive] at equal
          exact same (Option.some.inj equal).symm

theorem Holds.turn (holds : Holds r instances) {name : String} {h : ServicesInstanceHolder}
    (found : r.mServices.lookup name = some h) (current : Nat) :
    Holds { r with mServices := r.mServices.insert name { h with current } } instances where
  holder := by
    intro n h' hh
    by_cases eq : n = name
    · subst eq
      rw [AList.lookup_insert, Option.some.injEq] at hh
      subst hh
      exact holds.holder n h found
    · rw [AList.lookup_insert_ne eq] at hh
      exact holds.holder n h' hh
  known := by
    intro s hs
    by_cases eq : s.name = name
    · rw [eq, AList.lookup_insert]
      exact ⟨_, rfl⟩
    · rw [AList.lookup_insert_ne eq]
      exact holds.known s hs
  target := holds.target

theorem Holds.findByName (holds : Holds r instances) (name : String) :
    Holds (((r.findByName name).map Prod.snd).toOption.getD r) instances := by
  cases found : r.mServices.lookup name with
  | none => simpa [ServiceRegistry.findByName, found, Except.map, Except.toOption] using holds
  | some h =>
    obtain ⟨s, -, current, next⟩ := next_ok (holds.holder name h found).1
    have result : r.findByName name =
        .ok (s, { r with mServices := r.mServices.insert name { h with current } }) := by
      simp only [ServiceRegistry.findByName, found, next]
      rfl
    rw [result]
    exact holds.turn found current

theorem findByTarget_eq {target name : String} (found : r.mTargets2Names.lookup target = some name)
    {h : ServicesInstanceHolder} (holder : r.mServices.lookup name = some h) :
    r.findByTarget target = r.findByName name := by
  rw [findByTarget, found]
  simp only [holder, findByName]

theorem Holds.findByTarget (holds : Holds r instances) (target : String) :
    Holds (((r.findByTarget target).map Prod.snd).toOption.getD r) instances := by
  cases found : r.mTargets2Names.lookup target with
  | none => simpa [ServiceRegistry.findByTarget, found, Except.map, Except.toOption] using holds
  | some name =>
    obtain ⟨s, hs, -, rfl⟩ := (holds.target target name).mp found
    obtain ⟨h, hh⟩ := holds.known s hs
    rw [findByTarget_eq found hh]
    exact holds.findByName s.name

/-! ### Sequences of calls -/

theorem Holds.call (holds : Holds r instances) (before : Compatible {s | s ∈ instances}) {c : Call}
    (after : Compatible {s | s ∈ c.register instances}) : Holds (r.call c) (c.register instances) := by
  cases c with
  | reg s => exact holds.reg after (fun s' hs' => List.mem_append_left _ hs') (List.mem_append_right _ (List.mem_singleton_self s))
  | unreg name =>
    obtain ⟨r', result, holds'⟩ := holds.unreg before (fun _ hs => hs) name
    rw [ServiceRegistry.call, result]
    exact holds'
  | clear => exact holds_new
  | findByName name => exact holds.findByName name
  | findByTarget target => exact holds.findByTarget target

theorem Holds.calls {Allowed : Set (Set Service)} (compatible : ∀ E ∈ Allowed, Compatible E) (holds : Holds r instances)
    (here : Compatible {s | s ∈ instances}) {calls : List Call} (together : Together Allowed instances calls) :
    Holds (calls.foldl ServiceRegistry.call r) (calls.foldl Call.register instances)
      ∧ Compatible {s | s ∈ calls.foldl Call.register instances} := by
  induction calls generalizing r instances with
  | nil => exact ⟨holds, here⟩
  | cons c calls ih =>
    obtain ⟨allowed, together⟩ := together
    exact ih (holds.call here (compatible _ allowed)) (compatible _ allowed) together

/-- With two instances of one name, the second is the one that is found. -/
theorem find_second {i j : Service} {t : String} (ht : i.target = some t) (same : j.name = i.name)
    (other : j.target ≠ some t) :
    ∃ r', (after [.reg i, .reg j]).findByTarget t = .ok (j, r') := by
  have named : (after [.reg i, .reg j]).mTargets2Names.lookup t = some i.name := by
    cases hj : j.target with
    | none => simp [-AList.insert_empty, after, call, reg, new, Service.isReactive, Service.getTarget, ht, hj]
    | some t' =>
      have ne : t ≠ t' := by
        rintro rfl
        exact other hj
      simp [-AList.insert_empty, after, call, reg, new, Service.isReactive, Service.getTarget, ht, hj, AList.lookup_insert_ne ne]
  have both : (after [.reg i, .reg j]).mServices.lookup i.name = some ⟨0, [i, j]⟩ := by
    have known : ((new.reg i).mServices.lookup j.name) = some ⟨0, [i]⟩ := by
      rw [same]
      simp [-AList.insert_empty, reg, new, pushBack]
    have second : (after [.reg i, .reg j]).mServices = (new.reg i).mServices.insert j.name ⟨0, [i, j]⟩ := by
      show (new.reg i).mServices.insert j.name ((((new.reg i).mServices.lookup j.name).getD {}).pushBack j) = _
      rw [known]
      rfl
    rw [second, same, AList.lookup_insert]
  rw [findByTarget_eq named both, findByName, both]
  exact ⟨_, rfl⟩

/-- The target of a service is gone when another service with the same target is taken out. -/
theorem find_lost {i j : Service} {t : String} (hj : j.target = some t)
    (other : j.name ≠ i.name) :
    (after [.reg i, .reg j, .unreg j.name]).findByTarget t =
      .error ("ServiceRegistry::findByTarget(" ++ t ++ "), - no such target") := by
  have alone : (after [.reg i, .reg j]).mServices.lookup j.name = some ⟨0, [j]⟩ := by
    simp [-AList.insert_empty, after, call, reg, new, pushBack, AList.lookup_insert_ne other]
  have erased : (after [.reg i, .reg j]).unreg j.name =
      .ok ⟨(after [.reg i, .reg j]).mServices.erase j.name, (after [.reg i, .reg j]).mTargets2Names.erase t⟩ := by
    simp [unreg, alone, ServicesInstanceHolder.next, Service.isReactive, Service.getTarget, hj, bind, Except.bind,
      pure, Except.pure]
  have last : after [.reg i, .reg j, .unreg j.name] = (after [.reg i, .reg j]).call (.unreg j.name) := rfl
  rw [last, call, erased]
  simp [findByTarget, Except.toOption]

theorem together_of_subset {Allowed : Set (Set Service)} (lower : ∀ E ∈ Allowed, ∀ F ⊆ E, F ∈ Allowed) (allowed : E ∈ Allowed)
    (hE : ∀ s ∈ instances, s ∈ E) {calls : List Call} (hcalls : ∀ s, Call.reg s ∈ calls → s ∈ E) :
    Together Allowed instances calls := by
  induction calls generalizing instances with
  | nil => trivial
  | cons c calls ih =>
    have inside : ∀ s ∈ c.register instances, s ∈ E := by
      intro s hs
      cases c with
      | reg s' =>
        obtain old | new := List.mem_append.mp hs
        · exact hE s old
        · exact List.mem_singleton.mp new ▸ hcalls s' List.mem_cons_self
      | unreg name => exact hE s (List.mem_of_mem_filter hs)
      | clear => cases hs
      | findByName name => exact hE s hs
      | findByTarget target => exact hE s hs
    exact ⟨lower E allowed _ inside, ih inside fun s hs => hcalls s (List.mem_cons_of_mem _ hs)⟩

/-- Whatever is called, targets lead to the registered instances that have them, exactly when the instances that may be
registered at the same time are compatible. -/
theorem routes_iff (Allowed : Set (Set Service)) (lower : ∀ E ∈ Allowed, ∀ F ⊆ E, F ∈ Allowed) :
    (∀ calls, Together Allowed [] calls → ∀ t, Routes (after calls) (registered calls) t) ↔
      ∀ E ∈ Allowed, Compatible E := by
  constructor
  · intro routes E allowed i hi t ht j hj
    have together {calls : List Call} (hcalls : ∀ s, Call.reg s ∈ calls → s ∈ E) : Together Allowed [] calls :=
      together_of_subset lower allowed (by simp) hcalls
    constructor
    · intro same
      by_contra other
      obtain ⟨r', found⟩ := find_second ht same other
      have := routes [.reg i, .reg j] (together (by simp [hi, hj])) t
      exact other (this.2 j r' found).2
    · intro hj'
      by_contra other
      have := (routes [.reg i, .reg j, .unreg j.name] (together (by simp [hi, hj])) t).1.mpr
        ⟨i, by simp [registered, Call.register, Ne.symm other], ht⟩
      obtain ⟨x, found⟩ := this
      rw [find_lost hj' other] at found
      cases found
  · intro compatible calls together t
    obtain ⟨holds, here⟩ := holds_new.calls compatible (fun s hs => by cases hs) together
    exact holds.routes here t

/-- Two services with one target that are never registered at the same time. -/
theorem routes_in_turn :
    let chat : Service := ⟨1, "chat", some "/chat", 1024⟩
    let lobby : Service := ⟨2, "lobby", some "/chat", 1024⟩
    ∀ calls, Together {E | E ⊆ {chat} ∨ E ⊆ {lobby}} [] calls → ∀ t, Routes (after calls) (registered calls) t := by
  intro chat lobby
  refine (routes_iff _ fun E allowed F sub => allowed.imp sub.trans sub.trans).mpr ?_
  have alone {E : Set Service} {only : Service} (inside : E ⊆ {only}) : Compatible E := by
    intro s hs t target s' hs'
    obtain rfl := inside hs
    obtain rfl := inside hs'
    exact iff_of_true rfl target
  rintro E (inside | inside)
  · exact alone inside
  · exact alone inside

/-- Two services with one target, the later of which is taken out again: the other is registered and not found. -/
theorem routes_counterexample :
    let first : Service := ⟨1, "echo", some "/chat", 1024⟩
    let second : Service := ⟨2, "mirror", some "/chat", 1024⟩
    let calls : List Call := [.reg first, .reg second, .unreg "mirror"]
    first ∈ registered calls ∧ ¬ Routes (after calls) (registered calls) "/chat" := by
  intro first second calls
  have known : first ∈ registered calls := by decide
  refine ⟨known, ?_⟩
  intro routes
  obtain ⟨x, found⟩ := routes.1.mpr ⟨first, known, rfl⟩
  have lost := find_lost (i := first) (j := second) (t := "/chat") rfl (by decide)
  rw [show after calls = after [.reg first, .reg second, .unreg second.name] from rfl, lost] at found
  cases found

end ServiceRegistry
end LAppS
