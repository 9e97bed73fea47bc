import LAppS.Deployer.Start
import LAppS.Env

/-!
# The module path

`start_service` extends `LUA_PATH` by the directory of the service: it reads the value back from its `LAppSEnv` and gives
the longer one to `setEnv`. As `setEnv` does not replace what the map holds, every start extends the value that the
variable had at first, and only the directory of the last service stays on the path.
-/

namespace LAppS.Deployer
open Json

/-- `operator/` of the experimental file system library: a separator, where neither side has one. -/
def slash (a b : String) : String :=
  if a ≠ "" ∧ b ≠ "" ∧ a.toList.getLast? ≠ some '/' ∧ b.toList.head? ≠ some '/' then a ++ "/" ++ b else a ++ b

/-- The directory of the applications, as configured when a service is started, and the service. -/
structure Application where
  appsDir : String
  serviceName : String

def luaEntry (home : String) (app : Application) : String :=
  CString.cut (slash (slash home app.appsDir) app.serviceName) ++ "/?.lua"

/-- The process with the `mEnv` of the Deployer, and what `setEnv` was given, the last first. -/
structure Surroundings where
  process : Process
  mEnv : LAppSEnv
  given : List (String × String)

namespace Surroundings

def new (p : Process) : Surroundings := ⟨p, .new p, []⟩

def setEnv (w : Surroundings) (name value : String) : Surroundings where
  process := (w.mEnv.setEnv w.process name value).2
  mEnv := (w.mEnv.setEnv w.process name value).1
  given := (name, value) :: w.given

/-- `mEnv[var]`, the value and what the read leaves. -/
def read (w : Surroundings) (var : String) : String × Surroundings :=
  ((w.mEnv.read w.process var).1, { w with mEnv := (w.mEnv.read w.process var).2 })

def extendLuaPath (w : Surroundings) (app : Application) : Surroundings :=
  let home := w.read "LAPPS_HOME"
  let luaPath := home.2.read "LUA_PATH"
  luaPath.2.setEnv "LUA_PATH" (luaPath.1 ++ ";" ++ luaEntry home.1 app)

def started (w : Surroundings) (apps : List Application) : Surroundings := apps.foldl extendLuaPath w

end Surroundings

/-! ### What the module path is for -/

/-- `operator[]` gives what `setEnv` was given last. -/
def ReadsBack (w : Surroundings) : Prop :=
  ∀ name value, w.given.lookup name = some value → (w.read name).1 = value

/-- The templates `part` stand on the path, which a `;` separates. -/
def OnPath (path part : String) : Prop := ';' :: part.toList ++ [';'] <:+: ';' :: path.toList ++ [';']

instance (path part : String) : Decidable (OnPath path part) := inferInstanceAs (Decidable (_ <:+: _))

def luaPath (p : Process) : String := ((p.environ.lookup (.ofString "LUA_PATH")).map CString.text).getD ""

def lappsHome (p : Process) : String := LAppSEnv.initially p ("LAPPS_HOME", "/opt/lapps")

/-- The path has the value that it had, and the entry of every service. -/
def Accumulates (p : Process) (apps : List Application) (w : Surroundings) : Prop :=
  OnPath (luaPath w.process) (luaPath p) ∧ ∀ app ∈ apps, OnPath (luaPath w.process) (luaEntry (lappsHome p) app)

/-! ### Runs -/

section Runs

variable {p : Process} {w : Surroundings} {app : Application} {apps : List Application}

/-- The value at first, extended by one service. -/
def extended (p : Process) (app : Application) : String :=
  LAppSEnv.initially p ("LUA_PATH", "") ++ ";" ++ luaEntry (lappsHome p) app

theorem extendLuaPath_eq (steady : w.mEnv = .new p) (app : Application) :
    w.extendLuaPath app =
      ⟨w.process.setenv (.ofString "LUA_PATH") (.ofString (extended p app)), .new p,
        ("LUA_PATH", extended p app) :: w.given⟩ := by
  have home := LAppSEnv.lookup_new p (show ("LAPPS_HOME", "/opt/lapps") ∈ LAppSEnv.preset by decide)
  have path := LAppSEnv.lookup_new p (show ("LUA_PATH", "") ∈ LAppSEnv.preset by decide)
  simp only [Surroundings.extendLuaPath, Surroundings.read, Surroundings.setEnv, steady, LAppSEnv.read_cached home,
    LAppSEnv.read_cached path, LAppSEnv.setEnv_cached path]
  rfl

theorem text_extended (p : Process) (app : Application) : (CString.ofString (extended p app)).text = extended p app := by
  apply CString.cut_of_plain
  have first : '\x00' ∉ (LAppSEnv.initially p ("LUA_PATH", "")).toList := LAppSEnv.nul_notMem_initially p (by simp)
  have entry := CString.nul_notMem_cut (slash (slash (lappsHome p) app.appsDir) app.serviceName)
  simp only [extended, luaEntry, String.toList_append, List.mem_append, not_or]
  exact ⟨⟨first, by decide⟩, entry, by decide⟩

theorem luaPath_setenv (p : Process) (value : CString) :
    luaPath (p.setenv (.ofString "LUA_PATH") value) = value.text := by
  have accepted : ¬((CString.ofString "LUA_PATH").text = "" ∨ '=' ∈ (CString.ofString "LUA_PATH").text.toList) := by
    decide +kernel
  rw [Process.setenv, if_neg accepted, luaPath, AList.lookup_insert]
  rfl

/-- Whatever was started before, the path is the first value with the last entry. -/
structure Run (p : Process) (apps : List Application) (w : Surroundings) : Prop where
  steady : w.mEnv = .new p
  given : w.given = apps.reverse.map fun app => ("LUA_PATH", extended p app)
  path : luaPath w.process = (apps.getLast?.map (extended p)).getD (luaPath p)

theorem Run.extend (run : Run p apps w) (app : Application) : Run p (apps ++ [app]) (w.extendLuaPath app) := by
  rw [extendLuaPath_eq run.steady]
  refine ⟨rfl, ?_, ?_⟩
  · simp [run.given]
  · simp [luaPath_setenv, text_extended]

theorem started_run (p : Process) (apps : List Application) : Run p apps ((Surroundings.new p).started apps) := by
  induction apps using List.reverseRecOn with
  | nil => exact ⟨rfl, rfl, rfl⟩
  | append_singleton apps app ih =>
    rw [Surroundings.started, List.foldl_append]
    exact ih.extend app

theorem extended_ne (p : Process) (app : Application) : extended p app ≠ LAppSEnv.initially p ("LUA_PATH", "") := by
  intro same
  have := congrArg (fun s => s.toList.length) same
  simp [extended] at this

theorem Run.readsBack_iff (run : Run p apps w) : ReadsBack w ↔ apps = [] := by
  have path := LAppSEnv.lookup_new p (show ("LUA_PATH", "") ∈ LAppSEnv.preset by decide)
  constructor
  · intro readsBack
    by_contra nonempty
    obtain ⟨before, app, rfl⟩ := (List.eq_nil_or_concat apps).resolve_left nonempty
    have last : w.given.lookup "LUA_PATH" = some (extended p app) := by simp [run.given]
    have read := readsBack _ _ last
    rw [Surroundings.read, run.steady, LAppSEnv.read_cached path] at read
    exact extended_ne p app read.symm
  · rintro rfl name value given
    simp [run.given] at given

end Runs

/-! ### The starts of the Deployer -/

/-- What `start_service` reads before it extends the path. -/
def appsDirOf (size : SizeConversion) (config : Json) (serviceName : String) : Except String String := do
  let service := entry config serviceName
  let _standalone ← toBool ((service.find "standalone").getD .null)
  let _instances ← toSize size ((service.find "instances").getD .null)
  toText ((((config.find "directories").getD .null).find "applications").getD .null)

structure Running where
  deployment : Deployment
  surroundings : Surroundings

def startOwnIn (env : Environment) (serviceName : String) (r : Running) : Running where
  deployment := startOwn env serviceName r.deployment
  surroundings :=
    match appsDirOf env.size env.config serviceName with
    | .ok appsDir => r.surroundings.extendLuaPath ⟨appsDir, serviceName⟩
    | .error _ => r.surroundings

/-- `startService` with the environment. -/
def startServiceIn (env : Environment) : Nat → String → Running → Option Running
  | 0, _, _ => none
  | fuel + 1, serviceName, r =>
    if Described env.config serviceName then
      match r.deployment.registry.findByName serviceName with
      | .ok (_, registry) => some { r with deployment := { r.deployment with registry } }
      | .error _ =>
        match dependsOf env.config serviceName with
        | .ok depends => do
          let r ← depends.foldlM
            (fun r sname => if sname ≠ serviceName then startServiceIn env fuel sname r else some r) r
          return startOwnIn env serviceName r
        | .error _ => some r
    else some r

/-- Calls of `start_service`, each with the configuration of its time. -/
def startServices (fuel : Nat) (calls : List (Environment × String)) (r : Running) : Option Running :=
  calls.foldlM (fun r call => startServiceIn call.1 fuel call.2 r) r

section Starts

variable {env : Environment} {fuel : Nat} {serviceName : String} {r r' : Running}

theorem foldlM_deployment {α : Type} {f : Running → α → Option Running} {g : Deployment → α → Option Deployment}
    (step : ∀ r a, (f r a).map (·.deployment) = g r.deployment a) (as : List α) (r : Running) :
    (as.foldlM f r).map (·.deployment) = as.foldlM g r.deployment := by
  induction as generalizing r with
  | nil => rfl
  | cons a as ih =>
    rw [List.foldlM_cons, List.foldlM_cons, ← step]
    cases f r a with
    | none => rfl
    | some r => exact ih r

/-- The environment does not change what is started. -/
theorem startServiceIn_deployment (env : Environment) (fuel : Nat) (serviceName : String) (r : Running) :
    (startServiceIn env fuel serviceName r).map (·.deployment) = startService env fuel serviceName r.deployment := by
  induction fuel generalizing serviceName r with
  | zero => rfl
  | succ fuel ih =>
    have step : ∀ (r : Running) (sname : String),
        (if sname ≠ serviceName then startServiceIn env fuel sname r else some r).map (·.deployment) =
          if sname ≠ serviceName then startService env fuel sname r.deployment else some r.deployment := by
      intro r sname
      split
      · exact ih sname r
      · rfl
    rw [startServiceIn, startService]
    by_cases described : Described env.config serviceName
    · rw [if_pos described, if_pos described]
      cases found : r.deployment.registry.findByName serviceName with
      | ok result => rfl
      | error _ =>
        dsimp only
        cases read : dependsOf env.config serviceName with
        | error _ => rfl
        | ok depends =>
          dsimp only
          rw [← foldlM_deployment step]
          cases List.foldlM (fun r sname => if sname ≠ serviceName then startServiceIn env fuel sname r else some r) r
            depends <;> rfl
    · rw [if_neg described, if_neg described]
      rfl

/-- The path has been extended for a list of services, among them all that were registered. -/
def Extends (r r' : Running) : Prop :=
  ∃ apps new, r'.surroundings = r.surroundings.started apps ∧ r'.deployment.log = r.deployment.log ++ new ∧
    ∀ s ∈ new, ∃ app ∈ apps, app.serviceName = s.name

theorem Extends.refl (r : Running) : Extends r r := ⟨[], [], rfl, by simp, by simp⟩

theorem Extends.trans {r'' : Running} (h : Extends r r') (h' : Extends r' r'') : Extends r r'' := by
  obtain ⟨apps, new, path, log, among⟩ := h
  obtain ⟨apps', new', path', log', among'⟩ := h'
  refine ⟨apps ++ apps', new ++ new', ?_, ?_, ?_⟩
  · rw [path', path, Surroundings.started, Surroundings.started, Surroundings.started, List.foldl_append]
  · rw [log', log, List.append_assoc]
  · intro s hs
    rcases List.mem_append.mp hs with hs | hs
    · obtain ⟨app, member, named⟩ := among s hs
      exact ⟨app, List.mem_append_left _ member, named⟩
    · obtain ⟨app, member, named⟩ := among' s hs
      exact ⟨app, List.mem_append_right _ member, named⟩

theorem settingsOf_appsDirOf {size : SizeConversion} {config : Json} {e : String}
    (unread : appsDirOf size config serviceName = .error e) : ∃ e, settingsOf size config serviceName = .error e := by
  unfold appsDirOf at unread
  unfold settingsOf
  cases standalone : toBool (((entry config serviceName).find "standalone").getD .null) with
  | error e => exact ⟨e, by simp [standalone, bind, Except.bind]⟩
  | ok b =>
    cases instances : toSize size (((entry config serviceName).find "instances").getD .null) with
    | error e => exact ⟨e, by simp [standalone, instances, bind, Except.bind]⟩
    | ok n =>
      simp only [standalone, instances, bind, Except.bind] at unread
      exact ⟨e, by simp [standalone, instances, unread, bind, Except.bind]⟩

theorem startOwnIn_extends (env : Environment) (serviceName : String) (r : Running) :
    Extends r (startOwnIn env serviceName r) := by
  unfold startOwnIn
  cases read : appsDirOf env.size env.config serviceName with
  | ok appsDir =>
    obtain ⟨new, adds, named, _⟩ := startOwn_adds env serviceName r.deployment
    exact ⟨[⟨appsDir, serviceName⟩], new, rfl, adds.log, fun s hs => ⟨_, List.mem_singleton_self _, (named s hs).symm⟩⟩
  | error e =>
    -- without a directory nothing is registered
    obtain ⟨e', failed⟩ := settingsOf_appsDirOf read
    have idle : startOwn env serviceName r.deployment = r.deployment := by rw [startOwn, failed]
    exact ⟨[], [], rfl, by rw [idle, List.append_nil], by simp⟩

theorem foldlM_extends {α : Type} {call : Running → α → Option Running}
    (step : ∀ a r r', call r a = some r' → Extends r r') {names : List α} (h : names.foldlM call r = some r') :
    Extends r r' := by
  induction names generalizing r with
  | nil =>
    obtain rfl : r = r' := Option.some.inj h
    exact .refl r
  | cons name names ih =>
    rw [List.foldlM_cons, Option.bind_eq_bind, Option.bind_eq_some_iff] at h
    obtain ⟨between, first, rest⟩ := h
    exact (step name r between first).trans (ih rest)

theorem startServiceIn_extends (h : startServiceIn env fuel serviceName r = some r') : Extends r r' := by
  induction fuel generalizing serviceName r r' with
  | zero => cases h
  | succ fuel ih =>
    rw [startServiceIn] at h
    split at h
    · split at h
      · obtain rfl := Option.some.inj h
        exact ⟨[], [], rfl, by simp, by simp⟩
      · split at h
        · rw [Option.bind_eq_bind, Option.bind_eq_some_iff] at h
          obtain ⟨between, calls, own⟩ := h
          obtain rfl : startOwnIn env serviceName between = r' := Option.some.inj own
          refine (foldlM_extends ?_ calls).trans (startOwnIn_extends env serviceName between)
          intro sname r r' call
          split at call
          · exact ih call
          · exact Option.some.inj call ▸ .refl r
        · exact Option.some.inj h ▸ .refl r
    · exact Option.some.inj h ▸ .refl r

/-- After any calls of `start_service` the environment is that of a run, and every service that was registered is in it. -/
theorem startServices_started {calls : List (Environment × String)} {p : Process} {d : Deployment}
    (h : startServices fuel calls ⟨d, .new p⟩ = some r') :
    calls.foldlM (fun d call => startService call.1 fuel call.2 d) d = some r'.deployment ∧
      ∃ apps, r'.surroundings = (Surroundings.new p).started apps ∧
        ∀ s ∈ r'.deployment.log.drop d.log.length, ∃ app ∈ apps, app.serviceName = s.name := by
  have deployed := foldlM_deployment (f := fun r (call : Environment × String) => startServiceIn call.1 fuel call.2 r)
    (g := fun d call => startService call.1 fuel call.2 d) (fun r call => startServiceIn_deployment call.1 fuel call.2 r)
    calls ⟨d, .new p⟩
  obtain ⟨apps, new, path, log, among⟩ := foldlM_extends (fun _ _ _ call => startServiceIn_extends call) h
  refine ⟨?_, apps, path, ?_⟩
  · rw [startServices] at h
    rw [← deployed, h]
    rfl
  · rw [log, List.drop_left]
    exact among

end Starts

/-! ### The path and the starts -/

/-- The values that `setEnv` was given are read back as long as no service is started. The path alone accumulates
exactly if the first value with the last entry has all the others. What the calls of `start_service` leave is of this kind. -/
theorem luaPath_accumulates_iff (p : Process) :
    (∀ apps,
      let w := (Surroundings.new p).started apps
      (ReadsBack w ∧ Accumulates p apps w ↔ apps = []) ∧
      (Accumulates p apps w ↔ ∀ last ∈ apps.getLast?, OnPath (extended p last) (luaPath p) ∧
        ∀ app ∈ apps, OnPath (extended p last) (luaEntry (lappsHome p) app))) ∧
    ∀ fuel calls d r, startServices fuel calls ⟨d, .new p⟩ = some r →
      calls.foldlM (fun d call => startService call.1 fuel call.2 d) d = some r.deployment ∧
        ∃ apps, r.surroundings = (Surroundings.new p).started apps ∧
          ∀ s ∈ r.deployment.log.drop d.log.length, ∃ app ∈ apps, app.serviceName = s.name := by
  refine ⟨?_, fun fuel calls d r starts => startServices_started starts⟩
  intro apps w
  have run : Run p apps w := started_run p apps
  constructor
  · rw [run.readsBack_iff, and_iff_left_iff_imp]
    rintro rfl
    refine ⟨?_, by simp⟩
    rw [run.path]
    exact List.infix_rfl
  · unfold Accumulates
    rw [run.path]
    cases last : apps.getLast? with
    | none =>
      obtain rfl := List.getLast?_eq_none_iff.mp last
      simp [OnPath]
    | some app => simp

/-- The process without variables. -/
def bare : Process := ⟨∅, false⟩

def twoServices : List Application := [⟨"apps", "echo"⟩, ⟨"apps", "chat"⟩]

/-- With two services the entry of the first is gone, and the variable reads as before. -/
theorem luaPath_accumulates_counterexample :
    let w := (Surroundings.new bare).started twoServices
    luaPath w.process = ";/opt/lapps/apps/chat/?.lua" ∧ (w.read "LUA_PATH").1 = "" ∧
      ¬ReadsBack w ∧ ¬Accumulates bare twoServices w := by
  intro w
  have path : luaPath w.process = ";/opt/lapps/apps/chat/?.lua" := by decide +kernel
  have read : (w.read "LUA_PATH").1 = "" := by decide +kernel
  have given : w.given.lookup "LUA_PATH" = some ";/opt/lapps/apps/chat/?.lua" := by decide +kernel
  refine ⟨path, read, ?_, ?_⟩
  · intro readsBack
    have back := readsBack _ _ given
    rw [read] at back
    exact absurd back (by decide)
  · intro accumulates
    have echo := accumulates.2 ⟨"apps", "echo"⟩ (by simp [twoServices])
    rw [path] at echo
    exact absurd echo (by decide +kernel)

/-- The two services, started through `start_service`. -/
def twoStarts : List (Environment × String) :=
  let env : Environment :=
    ⟨truncation, echoConfig [("echo", standaloneDescriptor []), ("chat", standaloneDescriptor [])],
      ⟨fun _ _ log => .ok log.length⟩⟩
  [(env, "echo"), (env, "chat")]

theorem luaPath_accumulates_two :
    ∃ r, startServices 1 twoStarts ⟨⟨.new, []⟩, .new bare⟩ = some r ∧ r.deployment.log.map (·.name) = ["echo", "chat"] ∧
      luaPath r.surroundings.process = ";/opt/lapps/apps/chat/?.lua" ∧
        ∃ apps, r.surroundings = (Surroundings.new bare).started apps ∧
          ∀ s ∈ r.deployment.log, ∃ app ∈ apps, app.serviceName = s.name :=
  ⟨_, rfl, by decide +kernel, by decide +kernel, ((luaPath_accumulates_iff bare).2 1 twoStarts ⟨.new, []⟩ _ rfl).2⟩

end LAppS.Deployer
