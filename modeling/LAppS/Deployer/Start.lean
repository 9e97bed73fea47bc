import LAppS.Deployer
import LAppS.ServiceRegistry
import LAppS.Transition.Startup

/-!
# The start of a service with the services that it depends on

`Deployer::start_service` calls itself for every name in `depends`, and registers the instances behind these calls. Only
a service that is registered already, one without a descriptor and the caller itself end the recursion.
-/

namespace LAppS

/-! ### The instances of a name -/

namespace ServiceRegistry

def instancesOf (r : ServiceRegistry) (name : String) : List Service := ((r.mServices.lookup name).getD {}).mInstances

theorem instancesOf_reg (r : ServiceRegistry) (s : Service) (name : String) :
    (r.reg s).instancesOf name = r.instancesOf name ++ [s].filter (·.name = name) := by
  by_cases own : name = s.name
  · subst own
    simp [instancesOf, reg, ServicesInstanceHolder.pushBack]
  · simp [instancesOf, reg, AList.lookup_insert_ne own, Ne.symm own]

theorem findByName_ok {r r' : ServiceRegistry} {name : String} {s : Service} (h : r.findByName name = .ok (s, r')) :
    r.instancesOf name ≠ [] ∧ ∀ n, r'.instancesOf n = r.instancesOf n := by
  unfold findByName at h
  split at h
  next holder found =>
    have nonempty : holder.mInstances ≠ [] := by
      intro empty
      simp [ServicesInstanceHolder.next, empty, bind, Except.bind] at h
    obtain ⟨s', _, current, next⟩ := next_ok nonempty
    rw [next] at h
    cases h
    refine ⟨by simpa [instancesOf, found] using nonempty, fun n => ?_⟩
    by_cases own : n = name
    · subst own
      simp [instancesOf, found]
    · simp [instancesOf, AList.lookup_insert_ne own]
  · cases h

theorem findByName_error {r : ServiceRegistry} {name e : String} (h : r.findByName name = .error e) :
    r.instancesOf name = [] := by
  unfold findByName at h
  split at h
  next holder found =>
    by_contra nonempty
    obtain ⟨s', _, current, next⟩ := next_ok (h := holder) (by simpa [instancesOf, found] using nonempty)
    rw [next] at h
    cases h
  next missing => simp [instancesOf, missing]

end ServiceRegistry

inductive ServiceProtocol where
  | raw
  | lapps
  deriving DecidableEq, Repr

/-- The arguments of `ServiceFactory::get` for a service that is not a standalone one. -/
structure ReactiveSettings where
  proto : ServiceProtocol
  target : String
  maxInMsgSize : Nat
  policy : NetworkACLPolicy
  excludeList : Json

/-- The construction of an instance gives it an identifier, or throws. -/
structure ServiceFactory where
  construct : String → Option ReactiveSettings → List Service → Except String Nat

/-- Without settings the service is a standalone one. -/
def ServiceFactory.get (factory : ServiceFactory) (name : String) (reactive : Option ReactiveSettings)
    (log : List Service) : Except String Service := do
  let id ← factory.construct name reactive log
  return ⟨id, name, reactive.map (·.target), (reactive.map (·.maxInMsgSize)).getD 0⟩

namespace Deployer
open Json Relation

/-- The registry, and the instances that were registered, in their order. -/
structure Deployment where
  registry : ServiceRegistry
  log : List Service

def Deployment.reg (d : Deployment) (s : Service) : Deployment := ⟨d.registry.reg s, d.log ++ [s]⟩

structure Environment where
  size : SizeConversion
  config : Json
  factory : ServiceFactory

def Described (config : Json) (serviceName : String) : Prop :=
  (((config.find "services").getD .null).find serviceName).isSome = true

instance (config : Json) (serviceName : String) : Decidable (Described config serviceName) :=
  inferInstanceAs (Decidable (_ = _))

def dependsOf (config : Json) (serviceName : String) : Except String (List String) :=
  match (entry config serviceName).find "depends" with
  | none => .ok []
  | some (.array elements) => elements.mapM toText
  | some _ => .error "type must be array"

def protocolOf (protocol serviceName : String) : Except String ServiceProtocol :=
  if protocol = "raw" then .ok .raw
  else if protocol = "LAppS" then .ok .lapps
  else .error ("Unknown protocol is configured for service " ++ serviceName)

/-- The number of instances and the arguments for the factory. -/
def settingsOf (size : SizeConversion) (config : Json) (serviceName : String) :
    Except String (Nat × Option ReactiveSettings) := do
  let service := entry config serviceName
  let standalone ← toBool ((service.find "standalone").getD .null)
  let instances ← toSize size ((service.find "instances").getD .null)
  let _appsDir ← toText ((((config.find "directories").getD .null).find "applications").getD .null)
  if standalone then return (instances, none)
  else do
    let target ← toText ((service.find "request_target").getD .null)
    let protocol ← toText ((service.find "protocol").getD .null)
    let maxInMsgSize ← toSize size ((service.find "max_inbound_message_size").getD .null)
    let (policy, excludeList) ← networkPolicy service serviceName
    let proto ← protocolOf protocol serviceName
    return (instances, some ⟨proto, target, maxInMsgSize, policy, excludeList⟩)

/-- An exception ends the loop, and what is registered stays. -/
def startInstances (factory : ServiceFactory) (serviceName : String) (reactive : Option ReactiveSettings) :
    Nat → Deployment → Deployment
  | 0, d => d
  | instances + 1, d =>
    match factory.get serviceName reactive d.log with
    | .ok s => startInstances factory serviceName reactive instances (d.reg s)
    | .error _ => d

/-- What follows the calls for the dependencies. -/
def startOwn (env : Environment) (serviceName : String) (d : Deployment) : Deployment :=
  match settingsOf env.size env.config serviceName with
  | .ok (instances, reactive) => startInstances env.factory serviceName reactive instances d
  | .error _ => d

/-- No result means that the calls go deeper than the fuel. -/
def startService (env : Environment) : Nat → String → Deployment → Option Deployment
  | 0, _, _ => none
  | fuel + 1, serviceName, d =>
    if Described env.config serviceName then
      match d.registry.findByName serviceName with
      | .ok (_, registry) => some { d with registry }
      | .error _ =>
        match dependsOf env.config serviceName with
        | .ok depends => do
          let d ← depends.foldlM
            (fun d sname => if sname ≠ serviceName then startService env fuel sname d else some d) d
          return startOwn env serviceName d
        | .error _ => some d
    else some d

/-! ### What the start is for -/

def DependsOn (config : Json) (a b : String) : Prop := ∃ depends, dependsOf config a = .ok depends ∧ b ∈ depends

/-- The number of instances in the descriptor. -/
def Configured (config : Json) (serviceName : String) (n : Nat) : Prop :=
  n < 2 ^ 64 ∧ (entry config serviceName).find "instances" = some (.number n)

/-- Every descriptor can be read and asks for an instance, and all instances can be made. -/
structure Sound (env : Environment) : Prop where
  depends : ∀ name, Described env.config name → ∃ depends, dependsOf env.config name = .ok depends
  settings : ∀ name, Described env.config name → ∃ settings, settingsOf env.size env.config name = .ok settings
  instances : ∀ name, Described env.config name → ∃ n, 1 ≤ n ∧ Configured env.config name n
  creates : ∀ name instances reactive log, Described env.config name →
    settingsOf env.size env.config name = .ok (instances, reactive) → ∃ id, env.factory.construct name reactive log = .ok id

/-- The services that `s` reaches do not reach themselves. -/
def Acyclic (follows : String → String → Prop) (s : String) : Prop :=
  ∀ t, ReflTransGen follows s t → ¬TransGen follows t t

structure Starts (env : Environment) (r : ServiceRegistry) (s : String) : Prop where
  terminates : ∃ fuel d, startService env fuel s ⟨r, []⟩ = some d
  complete : Sound env → ∀ fuel d, startService env fuel s ⟨r, []⟩ = some d →
    ∀ t n, ReflTransGen (DependsOn env.config) s t → Configured env.config t n → (d.registry.instancesOf t).length = n
  first : Sound env → Acyclic (DependsOn env.config) s → ∀ fuel d, startService env fuel s ⟨r, []⟩ = some d →
    ∀ earlier x later, d.log = earlier ++ x :: later → ∀ t, DependsOn env.config x.name t → Described env.config t →
      (r.instancesOf t ≠ [] ∨ ∃ y ∈ earlier, y.name = t) ∧ ∀ y ∈ later, y.name ≠ t

/-- The call for `a` calls itself for `b`. -/
def Follows (config : Json) (r : ServiceRegistry) (a b : String) : Prop :=
  r.instancesOf a = [] ∧ b ≠ a ∧ DependsOn config a b

/-- No cycle among the services to start, and what is registered is complete and hides nothing. -/
structure Resolvable (env : Environment) (r : ServiceRegistry) (s : String) : Prop where
  acyclic : Acyclic (Follows env.config r) s
  present : Sound env → ∀ t n, ReflTransGen (DependsOn env.config) s t → Configured env.config t n →
    (r.instancesOf t).length = n ∨ r.instancesOf t = [] ∧ ReflTransGen (Follows env.config r) s t

/-! ### One call -/

section Calls

variable {env : Environment} {fuel : Nat} {serviceName t : String} {depends : List String} {d d' : Deployment}
  {r : ServiceRegistry}

structure Adds (d d' : Deployment) (new : List Service) : Prop where
  log : d'.log = d.log ++ new
  instances : ∀ name, d'.registry.instancesOf name = d.registry.instancesOf name ++ new.filter (·.name = name)

theorem Adds.refl (d : Deployment) : Adds d d [] := ⟨by simp, by simp⟩

theorem Adds.reg {new : List Service} {s : Service} (adds : Adds (d.reg s) d' new) : Adds d d' (s :: new) where
  log := by simp [adds.log, Deployment.reg]
  instances := by
    intro name
    rw [adds.instances, Deployment.reg, ServiceRegistry.instancesOf_reg, List.append_assoc, ← List.filter_append]
    rfl

theorem startInstances_adds (factory : ServiceFactory) (serviceName : String) (reactive : Option ReactiveSettings)
    (instances : Nat) (d : Deployment) :
    ∃ new, Adds d (startInstances factory serviceName reactive instances d) new ∧ (∀ s ∈ new, s.name = serviceName) ∧
      ((∀ log, ∃ id, factory.construct serviceName reactive log = .ok id) → new.length = instances) := by
  induction instances generalizing d with
  | zero => exact ⟨[], .refl d, by simp, fun _ => rfl⟩
  | succ instances ih =>
    rw [startInstances]
    cases made : factory.construct serviceName reactive d.log with
    | error e =>
      simp only [ServiceFactory.get, made, bind, Except.bind]
      refine ⟨[], .refl d, by simp, fun creates => ?_⟩
      obtain ⟨id, constructed⟩ := creates d.log
      cases made.symm.trans constructed
    | ok id =>
      simp only [ServiceFactory.get, made, bind, Except.bind, pure, Except.pure]
      obtain ⟨new, adds, named, length⟩ := ih (d.reg _)
      refine ⟨_ :: new, adds.reg, ?_, fun creates => congrArg (· + 1) (length creates)⟩
      intro s hs
      rcases List.mem_cons.mp hs with rfl | hs
      · rfl
      · exact named s hs

def numberOf (env : Environment) (serviceName : String) : Nat :=
  match settingsOf env.size env.config serviceName with
  | .ok (instances, _) => instances
  | .error _ => 0

theorem startOwn_adds (env : Environment) (serviceName : String) (d : Deployment) :
    ∃ new, Adds d (startOwn env serviceName d) new ∧ (∀ s ∈ new, s.name = serviceName) ∧
      (Sound env → Described env.config serviceName → new.length = numberOf env serviceName) := by
  unfold startOwn numberOf
  cases env_settings : settingsOf env.size env.config serviceName with
  | error e =>
    refine ⟨[], .refl d, by simp, fun _ _ => rfl⟩
  | ok settings =>
    obtain ⟨instances, reactive⟩ := settings
    obtain ⟨new, adds, named, length⟩ := startInstances_adds env.factory serviceName reactive instances d
    exact ⟨new, adds, named, fun sound described => length fun log => sound.creates _ _ reactive log described env_settings⟩

theorem startOwn_other (other : t ≠ serviceName) :
    (startOwn env serviceName d).registry.instancesOf t = d.registry.instancesOf t := by
  obtain ⟨new, adds, named, _⟩ := startOwn_adds env serviceName d
  have none_ : new.filter (·.name = t) = [] := by
    rw [List.filter_eq_nil_iff]
    intro s hs same
    exact other ((of_decide_eq_true same).symm.trans (named s hs))
  rw [adds.instances, none_, List.append_nil]

def startDepends (env : Environment) (fuel : Nat) (serviceName : String) (depends : List String) (d : Deployment) :
    Option Deployment :=
  depends.foldlM (fun d sname => if sname ≠ serviceName then startService env fuel sname d else some d) d

/-- What a call has done that did not run out of fuel. -/
inductive Called (env : Environment) (fuel : Nat) (serviceName : String) (d : Deployment) : Deployment → Prop where
  | unknown (undescribed : ¬Described env.config serviceName) : Called env fuel serviceName d d
  | running {registry : ServiceRegistry} (runs : d.registry.instancesOf serviceName ≠ [])
      (same : ∀ name, registry.instancesOf name = d.registry.instancesOf name) :
      Called env fuel serviceName d { d with registry }
  | unread (unreadable : ∀ depends, dependsOf env.config serviceName ≠ .ok depends)
      (described : Described env.config serviceName) : Called env fuel serviceName d d
  | started {depends : List String} {between : Deployment} (described : Described env.config serviceName)
      (idle : d.registry.instancesOf serviceName = []) (read : dependsOf env.config serviceName = .ok depends)
      (calls : startDepends env fuel serviceName depends d = some between) :
      Called env fuel serviceName d (startOwn env serviceName between)

theorem DependsOn.described {config : Json} {a b : String} (edge : DependsOn config a b) : Described config a := by
  obtain ⟨depends, read, member⟩ := edge
  by_contra undescribed
  have missing : ((config.find "services").getD .null).find a = none := by
    simpa [Described] using undescribed
  have nothing : dependsOf config a = .ok [] := by
    rw [dependsOf, entry, missing]
    rfl
  cases nothing.symm.trans read
  exact absurd member List.not_mem_nil

theorem startService_called (h : startService env (fuel + 1) serviceName d = some d') :
    Called env fuel serviceName d d' := by
  rw [startService] at h
  split at h
  next described =>
    cases found : d.registry.findByName serviceName with
    | ok result =>
      obtain ⟨s, registry⟩ := result
      simp only [found, Option.some.injEq] at h
      obtain ⟨runs, same⟩ := ServiceRegistry.findByName_ok found
      exact h ▸ .running runs same
    | error e =>
      have idle := ServiceRegistry.findByName_error found
      simp only [found] at h
      cases read : dependsOf env.config serviceName with
      | error e =>
        simp only [read, Option.some.injEq] at h
        exact h ▸ .unread (by simp [read]) described
      | ok depends =>
        simp only [read, Option.bind_eq_bind, Option.bind_eq_some_iff] at h
        obtain ⟨between, calls, own⟩ := h
        obtain rfl : startOwn env serviceName between = d' := Option.some.inj own
        exact .started described idle read calls
  next undescribed => exact Option.some.inj h ▸ .unknown undescribed

/-- The calls for the dependencies keep what each of them keeps, and `Q` holds once the call for `w` has given it. -/
theorem startDepends_after {P Q : Deployment → Prop} {w : String}
    (keep : ∀ sname ∈ depends, sname ≠ serviceName → ∀ d d', P d → startService env fuel sname d = some d' →
      P d' ∧ (Q d → Q d'))
    (gives : ∀ d d', P d → startService env fuel w d = some d' → Q d')
    (h : startDepends env fuel serviceName depends d = some d') (start : P d) :
    P d' ∧ (Q d ∨ w ∈ depends ∧ w ≠ serviceName → Q d') := by
  induction depends generalizing d with
  | nil =>
    obtain rfl : d = d' := Option.some.inj h
    exact ⟨start, by simp⟩
  | cons sname depends ih =>
    rw [startDepends, List.foldlM_cons, Option.bind_eq_bind, Option.bind_eq_some_iff] at h
    obtain ⟨next, call, rest⟩ := h
    have keep' := fun sname hs => keep sname (List.mem_cons_of_mem _ hs)
    by_cases own : sname = serviceName
    · rw [if_neg (not_not.mpr own)] at call
      obtain rfl := Option.some.inj call
      obtain ⟨last, given⟩ := ih keep' rest start
      refine ⟨last, fun reason => given (reason.imp_right ?_)⟩
      intro reason
      refine ⟨(List.mem_cons.mp reason.1).resolve_left fun same => reason.2 (same.trans own), reason.2⟩
    · rw [if_pos own] at call
      obtain ⟨kept, keptQ⟩ := keep sname List.mem_cons_self own d next start call
      obtain ⟨last, given⟩ := ih keep' rest kept
      refine ⟨last, ?_⟩
      intro reason
      rcases reason with before | ⟨member, other⟩
      · exact given (.inl (keptQ before))
      · rcases List.mem_cons.mp member with rfl | member
        · exact given (.inl (gives d next start call))
        · exact given (.inr ⟨member, other⟩)

theorem startDepends_keeps {P : Deployment → Prop}
    (keep : ∀ sname ∈ depends, sname ≠ serviceName → ∀ d d', P d → startService env fuel sname d = some d' → P d')
    (h : startDepends env fuel serviceName depends d = some d') (start : P d) : P d' :=
  (startDepends_after (Q := fun _ => True) (w := serviceName) (fun sname hs other d d' p call =>
    ⟨keep sname hs other d d' p call, id⟩) (fun _ _ _ _ => trivial) h start).1

/-! ### Services stay registered, and only followed ones are added -/

def Beyond (r : ServiceRegistry) (d : Deployment) : Prop :=
  ∀ t, r.instancesOf t ≠ [] → d.registry.instancesOf t ≠ []

theorem startOwn_beyond (beyond : Beyond r d) : Beyond r (startOwn env serviceName d) := by
  intro t runs
  obtain ⟨new, adds, _, _⟩ := startOwn_adds env serviceName d
  rw [adds.instances]
  exact List.append_ne_nil_of_left_ne_nil (beyond t runs) _

theorem startService_beyond (h : startService env fuel serviceName d = some d') (beyond : Beyond r d) :
    Beyond r d' := by
  induction fuel generalizing serviceName d d' with
  | zero => cases h
  | succ fuel ih =>
    cases startService_called h with
    | unknown => exact beyond
    | unread => exact beyond
    | running runs same => exact fun t runs => (same t).symm ▸ beyond t runs
    | started described idle read calls =>
      exact startOwn_beyond (startDepends_keeps (fun sname _ _ d d' before call => ih call before) calls beyond)

theorem startService_within {among : Set String} (closed : ∀ a ∈ among, ∀ b, Follows env.config r a b → b ∈ among)
    (member : serviceName ∈ among) (outside : t ∉ among) (h : startService env fuel serviceName d = some d')
    (beyond : Beyond r d) (idle : d.registry.instancesOf t = []) : d'.registry.instancesOf t = [] := by
  induction fuel generalizing serviceName d d' with
  | zero => cases h
  | succ fuel ih =>
    cases startService_called h with
    | unknown => exact idle
    | unread => exact idle
    | running runs same => exact (same t).trans idle
    | started described unregistered read calls =>
      rw [startOwn_other (ne_of_mem_of_not_mem member outside).symm]
      have idleBefore : r.instancesOf serviceName = [] := not_ne_iff.mp fun runs => beyond serviceName runs unregistered
      refine (startDepends_keeps (P := fun d => Beyond r d ∧ d.registry.instancesOf t = []) ?_ calls ⟨beyond, idle⟩).2
      intro sname hs other d d' before call
      have follows : Follows env.config r serviceName sname := ⟨idleBefore, other, _, read, hs⟩
      exact ⟨startService_beyond call before.1, ih (closed _ member _ follows) call before.1 before.2⟩

/-! ### Calls that end -/

/-- A service from which the calls go on without an end is not registered as long as no other such service is. -/
theorem startService_ends (h : startService env fuel serviceName d = some d')
    (idle : ∀ t, ¬Acc (flip (Follows env.config r)) t → d.registry.instancesOf t = []) :
    Acc (flip (Follows env.config r)) serviceName ∧
      ∀ t, ¬Acc (flip (Follows env.config r)) t → d'.registry.instancesOf t = [] := by
  induction fuel generalizing serviceName d d' with
  | zero => cases h
  | succ fuel ih =>
    have goesOn : ¬Acc (flip (Follows env.config r)) serviceName →
        ∃ w, ¬Acc (flip (Follows env.config r)) w ∧ Follows env.config r serviceName w := by
      intro endless
      exact exists_not_acc_lt_of_not_acc endless
    cases startService_called h with
    | unknown undescribed =>
      refine ⟨not_not.mp fun endless => ?_, idle⟩
      obtain ⟨w, _, _, _, edge⟩ := goesOn endless
      exact undescribed edge.described
    | unread unreadable _ =>
      refine ⟨not_not.mp fun endless => ?_, idle⟩
      obtain ⟨w, _, _, _, names, read, _⟩ := goesOn endless
      exact unreadable names read
    | running runs same =>
      refine ⟨not_not.mp fun endless => runs (idle serviceName endless), ?_⟩
      intro t endless
      exact (same t).trans (idle t endless)
    | started described unregistered read calls =>
      have idleBetween := startDepends_keeps
        (P := fun d => ∀ t, ¬Acc (flip (Follows env.config r)) t → d.registry.instancesOf t = [])
        (fun sname _ _ d d' before call => (ih call before).2) calls idle
      have ends : Acc (flip (Follows env.config r)) serviceName := by
        by_contra endless
        obtain ⟨w, endless', _, other, names, read', member⟩ := goesOn endless
        obtain rfl := Except.ok.inj (read.symm.trans read')
        -- The call for `w` cannot have ended.
        exact (startDepends_after (Q := fun _ => False) (w := w)
          (fun sname _ _ d d' before call => ⟨(ih call before).2, id⟩)
          (fun d d' before call => endless' (ih call before).1) calls idle).2 (.inr ⟨member, other⟩)
      refine ⟨ends, fun t endless => ?_⟩
      have other : t ≠ serviceName := fun same => endless (same ▸ ends)
      rw [startOwn_other other]
      exact idleBetween t endless

theorem acc_of_startService (h : startService env fuel serviceName d = some d') :
    Acc (flip (Follows env.config d.registry)) serviceName := by
  refine (startService_ends h ?_).1
  intro t endless
  obtain ⟨w, _, idle, _, _⟩ := exists_not_acc_lt_of_not_acc endless
  exact idle

/-- The calls for the dependencies of a service do not register the service. -/
theorem startDepends_idle {between : Deployment} (h : startService env (fuel + 1) serviceName d = some d')
    (read : dependsOf env.config serviceName = .ok depends) (idle : d.registry.instancesOf serviceName = [])
    (calls : startDepends env fuel serviceName depends d = some between) :
    between.registry.instancesOf serviceName = [] := by
  have outside : serviceName ∉ {t | TransGen (Follows env.config d.registry) serviceName t} :=
    Startup.acyclic_of_acc (acc_of_startService h) .refl
  refine (startDepends_keeps (P := fun e => Beyond d.registry e ∧ e.registry.instancesOf serviceName = []) ?_ calls
    ⟨fun _ runs => runs, idle⟩).2
  intro sname hs other e e' before call
  refine ⟨startService_beyond call before.1, startService_within ?_ ?_ outside call before.1 before.2⟩
  · intro a reach b follows
    exact TransGen.tail reach follows
  · exact TransGen.single ⟨idle, other, _, read, hs⟩

theorem startDepends_mono {fuel' : Nat}
    (mono : ∀ sname d d', startService env fuel sname d = some d' → startService env fuel' sname d = some d')
    (h : startDepends env fuel serviceName depends d = some d') :
    startDepends env fuel' serviceName depends d = some d' := by
  induction depends generalizing d with
  | nil => exact h
  | cons sname depends ih =>
    rw [startDepends, List.foldlM_cons, Option.bind_eq_bind, Option.bind_eq_some_iff] at h ⊢
    obtain ⟨next, call, rest⟩ := h
    refine ⟨next, ?_, ih rest⟩
    by_cases own : sname = serviceName
    · rw [if_neg (not_not.mpr own)] at call ⊢
      exact call
    · rw [if_pos own] at call ⊢
      exact mono sname d next call

theorem startService_succ (h : startService env fuel serviceName d = some d') :
    startService env (fuel + 1) serviceName d = some d' := by
  induction fuel generalizing serviceName d d' with
  | zero => cases h
  | succ fuel ih =>
    rw [startService] at h ⊢
    split at h
    next described =>
      rw [if_pos described]
      cases found : d.registry.findByName serviceName with
      | ok result => simpa only [found] using h
      | error e =>
        simp only [found] at h ⊢
        cases read : dependsOf env.config serviceName with
        | error e => simpa only [read] using h
        | ok depends =>
          simp only [read, Option.bind_eq_bind, Option.bind_eq_some_iff] at h ⊢
          obtain ⟨between, calls, own⟩ := h
          exact ⟨between, startDepends_mono (fun sname d d' => ih) calls, own⟩
    next undescribed => rw [if_neg undescribed]; exact h

theorem startService_mono {fuel' : Nat} (le : fuel ≤ fuel') (h : startService env fuel serviceName d = some d') :
    startService env fuel' serviceName d = some d' := by
  induction le with
  | refl => exact h
  | step _ ih => exact startService_succ ih

theorem startDepends_ends (ends : ∀ sname ∈ depends, sname ≠ serviceName → ∀ d, Beyond r d →
      ∃ fuel d', startService env fuel sname d = some d') (beyond : Beyond r d) :
    ∃ fuel d', startDepends env fuel serviceName depends d = some d' := by
  induction depends generalizing d with
  | nil => exact ⟨0, d, rfl⟩
  | cons sname depends ih =>
    have rest := fun d beyond => ih (d := d) (fun sname hs => ends sname (List.mem_cons_of_mem _ hs)) beyond
    by_cases own : sname = serviceName
    · obtain ⟨fuel, d', calls⟩ := rest d beyond
      refine ⟨fuel, d', ?_⟩
      rw [startDepends, List.foldlM_cons, if_neg (not_not.mpr own)]
      exact calls
    · obtain ⟨fuel, next, call⟩ := ends sname List.mem_cons_self own d beyond
      obtain ⟨fuel', d', calls⟩ := rest next (startService_beyond call beyond)
      refine ⟨max fuel fuel', d', ?_⟩
      rw [startDepends, List.foldlM_cons, if_pos own, startService_mono (Nat.le_max_left ..) call]
      exact startDepends_mono (fun _ _ _ => startService_mono (Nat.le_max_right ..)) calls

/-- The calls end where a service does not come back to itself. -/
theorem startService_of_acc (ends : Acc (flip (Follows env.config r)) serviceName) (d : Deployment)
    (beyond : Beyond r d) : ∃ fuel d', startService env fuel serviceName d = some d' := by
  induction ends generalizing d with
  | intro serviceName _ ih =>
    by_cases described : Described env.config serviceName
    · cases found : d.registry.findByName serviceName with
      | ok result => exact ⟨1, { d with registry := result.2 }, by simp only [startService, if_pos described, found]⟩
      | error e =>
        cases read : dependsOf env.config serviceName with
        | error e => exact ⟨1, d, by simp only [startService, if_pos described, found, read]⟩
        | ok depends =>
          have unregistered := ServiceRegistry.findByName_error found
          have idle : r.instancesOf serviceName = [] := not_ne_iff.mp fun runs => beyond serviceName runs unregistered
          have calls : ∀ sname ∈ depends, sname ≠ serviceName → ∀ d, Beyond r d →
              ∃ fuel d', startService env fuel sname d = some d' := by
            intro sname hs other
            exact ih sname ⟨idle, other, depends, read, hs⟩
          obtain ⟨fuel, between, calls⟩ := startDepends_ends calls beyond
          rw [startDepends] at calls
          refine ⟨fuel + 1, startOwn env serviceName between, ?_⟩
          simp only [startService, if_pos described, found, read, calls]
          rfl
    · exact ⟨1, d, by simp only [startService, if_neg described]⟩

end Calls

/-! ### The start as a run of whole starts -/

section Runs

variable {env : Environment} {fuel : Nat} {serviceName t : String} {d d' : Deployment} {r : ServiceRegistry}
  {among : Set String}

def system (env : Environment) (r : ServiceRegistry) : Startup.System String where
  running := {t | r.instancesOf t ≠ []}
  needs := fun a b => DependsOn env.config a b ∧ b ≠ a ∧ Described env.config b
  number := numberOf env

structure Reached (env : Environment) (r : ServiceRegistry) (among : Set String) (d : Deployment) : Prop where
  logged : ∀ t, d.registry.instancesOf t = r.instancesOf t ++ d.log.filter (·.name = t)
  run : ReflTransGen (Startup.Start (system env r) among) [] (d.log.map (·.name))

theorem Reached.up_iff (reached : Reached env r among d) :
    (system env r).Up (d.log.map (·.name)) t ↔ d.registry.instancesOf t ≠ [] := by
  rw [reached.logged, Startup.System.Up, ne_eq, List.append_eq_nil_iff, not_and_or, List.filter_eq_nil_iff]
  simp [system]

theorem Reached.beyond (reached : Reached env r among d) : Beyond r d :=
  fun _ runs => reached.up_iff.mp (.inl runs)

theorem Configured.described {config : Json} {n : Nat} (configured : Configured config serviceName n) :
    Described config serviceName := by
  by_contra undescribed
  have missing : ((config.find "services").getD .null).find serviceName = none := by
    simpa [Described] using undescribed
  obtain ⟨_, found⟩ := configured
  rw [entry, missing] at found
  cases found

theorem numberOf_configured (sound : Sound env) {n : Nat} (configured : Configured env.config serviceName n) :
    numberOf env serviceName = n := by
  obtain ⟨⟨instances, reactive⟩, read⟩ := sound.settings serviceName configured.described
  rw [numberOf, read]
  obtain ⟨standalone, _, read⟩ := bind_ok read
  obtain ⟨instances', size, read⟩ := bind_ok read
  obtain ⟨_, _, read⟩ := bind_ok read
  have same : instances' = instances := by
    split at read
    · cases read
      rfl
    · obtain ⟨_, _, read⟩ := bind_ok read
      obtain ⟨_, _, read⟩ := bind_ok read
      obtain ⟨_, _, read⟩ := bind_ok read
      obtain ⟨_, _, read⟩ := bind_ok read
      obtain ⟨_, _, read⟩ := bind_ok read
      cases read
      rfl
  obtain ⟨fits, found⟩ := configured
  rw [found, Option.getD_some, toSize, Except.ok.injEq] at size
  rw [← same, ← size, env.size.exact_of_fits n fits]

theorem Configured.pos (sound : Sound env) {n : Nat} (configured : Configured env.config serviceName n) : 0 < n := by
  obtain ⟨n', positive, configured'⟩ := sound.instances serviceName configured.described
  rw [← numberOf_configured sound configured, numberOf_configured sound configured']
  exact positive

theorem startService_reached (sound : Sound env) (closed : ∀ a ∈ among, ∀ b, Follows env.config r a b → b ∈ among)
    (member : serviceName ∈ among) (h : startService env fuel serviceName d = some d') (reached : Reached env r among d) :
    Reached env r among d' ∧ (Described env.config serviceName → d'.registry.instancesOf serviceName ≠ []) := by
  induction fuel generalizing serviceName d d' with
  | zero => cases h
  | succ fuel ih =>
    cases startService_called h with
    | unknown undescribed => exact ⟨reached, fun described => absurd described undescribed⟩
    | unread unreadable described =>
      obtain ⟨depends, read⟩ := sound.depends serviceName described
      exact absurd read (unreadable depends)
    | running runs same =>
      exact ⟨⟨fun t => (same t).trans (reached.logged t), reached.run⟩, fun _ => (same serviceName).symm ▸ runs⟩
    | @started depends between described unregistered read calls =>
      have follows : ∀ sname ∈ depends, sname ≠ serviceName → sname ∈ among := by
        intro sname hs other
        have idle : r.instancesOf serviceName = [] :=
          not_ne_iff.mp fun runs => reached.beyond serviceName runs unregistered
        exact closed serviceName member sname ⟨idle, other, depends, read, hs⟩
      have reachedBetween : Reached env r among between :=
        startDepends_keeps (fun sname hs other d d' before call => (ih (follows sname hs other) call before).1) calls
          reached
      have idle := startDepends_idle h read unregistered calls
      have ready : ∀ w, (system env r).needs serviceName w → (system env r).Up (between.log.map (·.name)) w := by
        intro w needs
        obtain ⟨⟨names, read', hw⟩, other, describedW⟩ := needs
        obtain rfl := Except.ok.inj (read.symm.trans read')
        refine reachedBetween.up_iff.mpr ((startDepends_after (Q := fun d => d.registry.instancesOf w ≠ []) (w := w)
          (P := Reached env r among) ?_ ?_ calls reached).2 (.inr ⟨hw, other⟩))
        · intro sname hs other d d' before call
          refine ⟨(ih (follows sname hs other) call before).1, fun runs => ?_⟩
          exact startService_beyond (r := d.registry) call (fun _ runs => runs) w runs
        · intro d d' before call
          exact (ih (follows w hw other) call before).2 describedW
      obtain ⟨new, adds, named, length⟩ := startOwn_adds env serviceName between
      have names : new.map (·.name) = List.replicate (numberOf env serviceName) serviceName := by
        rw [List.eq_replicate_iff]
        refine ⟨by rw [List.length_map, length sound described], ?_⟩
        intro name hname
        obtain ⟨s, hs, rfl⟩ := List.mem_map.mp hname
        exact named s hs
      have last : Reached env r among (startOwn env serviceName between) := by
        constructor
        · intro t
          rw [adds.instances, adds.log, reachedBetween.logged, List.filter_append, List.append_assoc]
        · rw [adds.log, List.map_append, names]
          refine reachedBetween.run.tail (.start member ?_ ready)
          rw [reachedBetween.up_iff, idle]
          simp
      refine ⟨last, fun _ => last.up_iff.mp (.inr ?_)⟩
      obtain ⟨n, positive, configured⟩ := sound.instances serviceName described
      rw [adds.log, List.map_append, names, numberOf_configured sound configured]
      exact List.mem_append_right _ (List.mem_replicate.mpr ⟨by omega, rfl⟩)

/-- Only the services that have a descriptor depend on others. -/
theorem finite_follows (config : Json) (r : ServiceRegistry) : {a | ∃ b, Follows config r a b}.Finite := by
  cases services : (config.find "services").getD .null with
  | object members =>
    refine (List.finite_toSet (members.map Prod.fst)).subset ?_
    intro a ha
    obtain ⟨b, _, _, edge⟩ := ha
    have described := edge.described
    rw [Described, services, Json.find] at described
    by_contra absent
    rw [lookup_eq_none absent] at described
    cases described
  | _ =>
    refine Set.finite_empty.subset ?_
    intro a ha
    obtain ⟨b, _, _, edge⟩ := ha
    have described := edge.described
    rw [Described, services] at described
    cases described

/-! ### What has been started -/

theorem Reached.same_of_running (reached : Reached env r among d) (runs : r.instancesOf t ≠ []) :
    d.registry.instancesOf t = r.instancesOf t := by
  have absent : d.log.filter (·.name = t) = [] := by
    rw [List.filter_eq_nil_iff]
    intro s hs same
    refine (Startup.ordered_of_starts reached.run).idle t ?_ runs
    exact List.mem_map.mpr ⟨s, hs, of_decide_eq_true same⟩
  rw [reached.logged, absent, List.append_nil]

theorem Reached.started_of_idle (reached : Reached env r among d) (idle : r.instancesOf t = [])
    (up : d.registry.instancesOf t ≠ []) : t ∈ d.log.map (·.name) :=
  (reached.up_iff.mpr up).resolve_left (not_not.mpr idle)

theorem Reached.length_of_idle (reached : Reached env r among d) (idle : r.instancesOf t = [])
    (up : d.registry.instancesOf t ≠ []) : (d.registry.instancesOf t).length = numberOf env t := by
  have complete := (Startup.ordered_of_starts reached.run).complete t (reached.started_of_idle idle up)
  change _ = numberOf env t at complete
  rw [reached.logged, idle, List.nil_append, ← List.countP_eq_length_filter, ← complete, List.count, List.countP_map]
  exact List.countP_congr fun s _ => by simp

/-- The services that a started one depends on are there. -/
theorem Reached.up_of_follows (reached : Reached env r among d) {s : String}
    (own : Described env.config s → d.registry.instancesOf s ≠ []) (reach : ReflTransGen (Follows env.config r) s t)
    (described : Described env.config t) : d.registry.instancesOf t ≠ [] := by
  induction reach with
  | refl => exact own described
  | @tail a b _ follows ih =>
    obtain ⟨idle, other, edge⟩ := follows
    have member := reached.started_of_idle idle (ih edge.described)
    obtain ⟨earlier, later, split⟩ := List.append_of_mem member
    obtain ⟨up, _⟩ := (Startup.ordered_of_starts reached.run).first earlier a later split b ⟨edge, other, described⟩
    rw [← reached.up_iff, split]
    exact up.append _

theorem startService_resolved (sound : Sound env) {s : String} (h : startService env fuel s ⟨r, []⟩ = some d) :
    Reached env r {t | ReflTransGen (Follows env.config r) s t} d ∧
      (Described env.config s → d.registry.instancesOf s ≠ []) := by
  refine startService_reached sound ?_ ?_ h ⟨by simp, .refl⟩
  · intro a reach b follows
    exact ReflTransGen.tail reach follows
  · exact ReflTransGen.refl

/-- A start ends with everything started in order exactly when its services resolve. -/
theorem starts_iff_resolvable (env : Environment) (r : ServiceRegistry) (s : String) :
    Starts env r s ↔ Resolvable env r s := by
  constructor
  · intro starts
    obtain ⟨fuel, d, run⟩ := starts.terminates
    refine ⟨fun t => Startup.acyclic_of_acc (acc_of_startService run), ?_⟩
    intro sound t n reach configured
    have number := starts.complete sound fuel d run t n reach configured
    obtain ⟨reached, _⟩ := startService_resolved sound run
    by_cases idle : r.instancesOf t = []
    · have up : d.registry.instancesOf t ≠ [] := by
        intro absent
        rw [absent] at number
        exact absurd number (configured.pos sound).ne
      refine .inr ⟨idle, (Startup.ordered_of_starts reached.run).member t ?_⟩
      exact reached.started_of_idle idle up
    · rw [reached.same_of_running idle] at number
      exact .inl number
  · intro resolvable
    refine ⟨?_, ?_, ?_⟩
    · apply startService_of_acc (r := r)
      · exact Startup.acc_of_acyclic (finite_follows env.config r) resolvable.acyclic
      · exact fun _ runs => runs
    · intro sound fuel d run t n reach configured
      obtain ⟨reached, own⟩ := startService_resolved sound run
      rcases resolvable.present sound t n reach configured with number | ⟨idle, follows⟩
      · by_cases idle : r.instancesOf t = []
        · rw [idle] at number
          exact absurd number (configured.pos sound).ne
        · rw [reached.same_of_running idle, number]
      · have up := reached.up_of_follows own follows configured.described
        rw [reached.length_of_idle idle up, numberOf_configured sound configured]
    · intro sound acyclic fuel d run earlier x later split t edge described
      obtain ⟨reached, _⟩ := startService_resolved sound run
      have ordered := Startup.ordered_of_starts reached.run
      have names : d.log.map (·.name) = earlier.map (·.name) ++ x.name :: later.map (·.name) := by
        rw [split, List.map_append, List.map_cons]
      have here : ReflTransGen (Follows env.config r) s x.name := by
        apply ordered.member
        rw [names]
        exact List.mem_append_right _ List.mem_cons_self
      have other : t ≠ x.name := by
        intro same
        subst same
        have reach : ReflTransGen (DependsOn env.config) s x.name :=
          here.lift id fun _ _ follows => follows.2.2
        exact acyclic x.name reach (.single edge)
      obtain ⟨up, absent⟩ := ordered.first _ _ _ names t ⟨edge, other, described⟩
      exact ⟨up.imp_right List.mem_map.mp, fun y hy same => absent (List.mem_map.mpr ⟨y, hy, same⟩)⟩

end Runs

/-! ### Two services that depend on each other -/

def standaloneDescriptor (depends : List String) : Json :=
  .object [("standalone", .boolean true), ("instances", .number 1), ("depends", .array (depends.map .string))]

def chatEnvironment : Environment where
  size := truncation
  config := echoConfig [("chat", standaloneDescriptor ["auth"]), ("auth", standaloneDescriptor ["chat"])]
  factory := ⟨fun _ _ log => .ok log.length⟩

theorem chat_described {name : String} (described : Described chatEnvironment.config name) :
    name = "chat" ∨ name = "auth" := by
  by_contra other
  rw [not_or] at other
  have missing : ((chatEnvironment.config.find "services").getD .null).find name = none := by
    apply lookup_eq_none
    simp [other]
  rw [Described, missing] at described
  cases described

theorem chat_sound : Sound chatEnvironment where
  depends := by
    intro name described
    rcases chat_described described with rfl | rfl
    · exact ⟨["auth"], rfl⟩
    · exact ⟨["chat"], rfl⟩
  settings := by
    intro name described
    rcases chat_described described with rfl | rfl
    · exact ⟨_, rfl⟩
    · exact ⟨_, rfl⟩
  instances := by
    intro name described
    rcases chat_described described with rfl | rfl
    · exact ⟨1, le_rfl, by decide, rfl⟩
    · exact ⟨1, le_rfl, by decide, rfl⟩
  creates := fun _ _ _ log _ _ => ⟨log.length, rfl⟩

theorem starts_counterexample : Sound chatEnvironment ∧ ¬Starts chatEnvironment .new "chat" ∧
    ∀ fuel, startService chatEnvironment fuel "chat" ⟨.new, []⟩ = none := by
  have endless : ∀ fuel, startService chatEnvironment fuel "chat" ⟨.new, []⟩ = none := by
    intro fuel
    rw [Option.eq_none_iff_forall_ne_some]
    intro d run
    have auth : Follows chatEnvironment.config .new "chat" "auth" := ⟨rfl, by decide, ["auth"], rfl, by simp⟩
    have chat : Follows chatEnvironment.config .new "auth" "chat" := ⟨rfl, by decide, ["chat"], rfl, by simp⟩
    exact Startup.acyclic_of_acc (acc_of_startService run) .refl (.tail (.single auth) chat)
  refine ⟨chat_sound, ?_, endless⟩
  intro starts
  obtain ⟨fuel, d, run⟩ := starts.terminates
  cases (endless fuel).symm.trans run

end Deployer
end LAppS
