import LAppS.Deployer

/-!
# A deployment that fails

`deploy_service`, statement by statement, on the configuration and the files. An exception leaves the state of the
moment, and the handler does not undo it: the installed directory may be gone, and settings may be assigned.
-/

namespace LAppS.Deployer
open Json

abbrev Path := List String

/-- The LAppS configuration in memory, and what is at a path of the file system. -/
structure World (γ : Type) where
  config : Json
  files : Path → Option γ

/-- A statement that may throw, with the state that it leaves in both cases. -/
abbrev Action (γ : Type) := EStateM String (World γ)

variable {γ : Type}

section Statements

def evaluate {α : Type} (x : Except String α) : Action γ α := fun w =>
  match x with
  | .ok a => .ok a w
  | .error e => .error e w

def update (f : Json → Except String Json) : Action γ Unit := fun w =>
  match f w.config with
  | .ok config => .ok () { w with config }
  | .error e => .error e w

def member (j : Json) : List String → Json
  | [] => j
  | key :: path => member ((j.find key).getD .null) path

/-- `config[key]...[key]`: the members that are missing are made, as nulls. -/
def access (path : List String) : Action γ Json := do
  let w ← get
  update fun config => config.assign path (member config path)
  return member w.config path

def removed (path : Path) (files : Path → Option γ) (q : Path) : Option γ :=
  if path.isPrefixOf q then none else files q

def removeAll (path : Path) : Action γ Unit := modify fun w => { w with files := removed path w.files }

def renamed (dir path : Path) (files : Path → Option γ) (q : Path) : Option γ :=
  if path.isPrefixOf q then files (dir ++ q.drop path.length)
  else if dir.isPrefixOf q then none
  else files q

def rename (dir path : Path) : Action γ Unit := modify fun w => { w with files := renamed dir path w.files }

def setAll (serviceName : String) (settings : List (String × Json)) : Action γ Unit :=
  settings.forM fun s => update (·.assign ["services", serviceName, s.1] s.2)

/-- The value is read before the member is made. -/
def setOptional (serviceConfig : Json) (serviceName key source : String) : Action γ Unit :=
  if (serviceConfig.find key).isSome then do
    let v ← evaluate (at_ serviceConfig source)
    update (·.assign ["services", serviceName, key] v)
  else return ()

def setBase (serviceName : String) (alreadyExists : Bool) (settings : List (String × Json)) : Action γ Unit :=
  if alreadyExists then setAll serviceName settings
  else update (insert · serviceName (.object settings))

def runStandalone (serviceConfig : Json) (serviceName : String) (alreadyExists : Bool)
    (settings : List (String × Json)) : Action γ Unit := do
  setBase serviceName alreadyExists settings
  setOptional serviceConfig serviceName "preload" "preload"

def runReactive (serviceConfig : Json) (serviceName : String) (alreadyExists : Bool)
    (settings : List (String × Json)) : Action γ Unit := do
  setBase serviceName alreadyExists settings
  if alreadyExists then
    setOptional serviceConfig serviceName "acl" "acl"
    setOptional serviceConfig serviceName "preload" "preload"
    setOptional serviceConfig serviceName "extra_headers" "preload"
  else setOptional serviceConfig serviceName "preload" "preload"

def runStore (size : SizeConversion) (serviceConfig : Json) (standalone autoStart : Bool) (instances : Nat)
    (serviceName : String) (alreadyExists : Bool) : Action γ Unit := do
  let settings : List (String × Json) :=
    [("standalone", .boolean standalone), ("instances", .number instances), ("auto_start", .boolean autoStart)]
  if standalone then runStandalone serviceConfig serviceName alreadyExists settings
  else
    let target ← evaluate (at_ serviceConfig "request_target" >>= toText)
    let protocol ← evaluate (at_ serviceConfig "protocol" >>= toText)
    let maxInMsgSize ← evaluate (at_ serviceConfig "max_inbound_message_size" >>= toSize size)
    runReactive serviceConfig serviceName alreadyExists (settings ++
      [("request_target", .string target), ("protocol", .string protocol),
        ("max_inbound_message_size", .number maxInMsgSize)])

/-- The part of `deploy_service` that is in its `try` block, for a directory that is unpacked. The machine resolves
`LAPPS_HOME / app_dir / service_name` to `servicePath`. -/
def runDeployService (size : SizeConversion) (servicePath : String → String → Path) (dir : Path)
    (serviceConfig : Json) : Action γ Unit := do
  let standalone ← evaluate (at_ serviceConfig "standalone" >>= toBool)
  let autoStart ← evaluate (at_ serviceConfig "auto_start" >>= toBool)
  let instances ← evaluate (at_ serviceConfig "instances" >>= toSize size)
  let serviceName ← evaluate (at_ serviceConfig "name" >>= toText)
  let services ← access ["services"]
  let applications ← access ["directories", "applications"]
  let appDir ← evaluate (toText applications)
  let w ← get
  if (w.files (servicePath appDir serviceName)).isSome then removeAll (servicePath appDir serviceName)
  runStore size serviceConfig standalone autoStart instances serviceName (services.find serviceName).isSome
  rename dir (servicePath appDir serviceName)

end Statements

/-! ### What is left -/

theorem run_ok {α β : Type} {m : Action γ α} {f : α → Action γ β} {w w' : World γ} {a : α} (h : m w = .ok a w') :
    (m >>= f) w = f a w' := by
  simp only [bind, EStateM.bind, h]

theorem run_error {α β : Type} {m : Action γ α} {f : α → Action γ β} {w w' : World γ} {e : String}
    (h : m w = .error e w') : (m >>= f) w = .error e w' := by
  simp only [bind, EStateM.bind, h]

/-! ### The conditions -/

/-- The keys that are read before anything else. -/
structure Begun (serviceConfig : Json) (standalone : Bool) (serviceName : String) : Prop where
  standalone : serviceConfig.find "standalone" = some (.boolean standalone)
  autoStart : ∃ b, serviceConfig.find "auto_start" = some (.boolean b)
  instances : ∃ q, serviceConfig.find "instances" = some (.number q)
  name : serviceConfig.find "name" = some (.string serviceName)

/-- A service that is not standalone has the rest of its keys. -/
def Complete (size : SizeConversion) (serviceConfig : Json) (standalone : Bool) : Prop :=
  standalone = false → Nonempty (Archive size serviceConfig)

def isKnown (config : Json) (serviceName : String) : Bool :=
  (((config.find "services").getD .null).find serviceName).isSome

/-- The value can be assigned a member. -/
def Open (j : Json) : Prop := j.isObject = true ∨ j = .null

/-- The entry can be assigned to, or inserted. -/
def Writable (config : Json) (serviceName : String) : Prop :=
  match ((config.find "services").getD .null).find serviceName with
  | some e => Open e
  | none => ((config.find "services").getD .null).isObject = true

/-- The headers of a known service are to be set, from a key that is missing. -/
structure HeadersMissing (config serviceConfig : Json) (standalone : Bool) (serviceName : String) : Prop where
  reactive : standalone = false
  known : isKnown config serviceName = true
  headers : (serviceConfig.find "extra_headers").isSome = true
  preload : serviceConfig.find "preload" = none

structure Deployable (size : SizeConversion) (config serviceConfig : Json) (standalone : Bool) (serviceName : String) :
    Prop where
  complete : Complete size serviceConfig standalone
  writable : Writable config serviceName
  headers : ¬HeadersMissing config serviceConfig standalone serviceName

/-- The entry has the settings that are assigned before the headers. -/
structure StoredAlready {size : SizeConversion} (config serviceConfig : Json) (serviceName : String)
    (a : Archive size serviceConfig) : Prop where
  settings : ∀ s ∈ a.settings, (entry config serviceName).find s.1 = some s.2
  acl : ∀ acl, serviceConfig.find "acl" = some acl → (entry config serviceName).find "acl" = some acl

def AppDir (config : Json) (appDir : String) : Prop :=
  toText (member config ["directories", "applications"]) = .ok appDir

/-! ### Statements -/

theorem update_ok {f : Json → Except String Json} {w : World γ} {config : Json} (h : f w.config = .ok config) :
    update f w = .ok () { w with config } := by
  simp only [update, h]

theorem update_error {f : Json → Except String Json} {w : World γ} {e : String} (h : f w.config = .error e) :
    update f w = .error e w := by
  simp only [update, h]

/-- The outcome of a function of the configuration, and the one of a run that leaves the files. -/
inductive Matches (files : Path → Option γ) : Except String Json → EStateM.Result String (World γ) Unit → Prop
  | ok (config : Json) : Matches files (.ok config) (.ok () ⟨config, files⟩)
  | error (e : String) (config : Json) : Matches files (.error e) (.error e ⟨config, files⟩)

/-- A statement does to the configuration what the function says, and to the files nothing. -/
def Mirrors (m : Action γ Unit) (f : Json → Except String Json) : Prop := ∀ w, Matches w.files (f w.config) (m w)

theorem Mirrors.ok {m : Action γ Unit} {f : Json → Except String Json} (h : Mirrors m f) {w : World γ} {config : Json}
    (eq : f w.config = .ok config) : m w = .ok () { w with config } := by
  have outcome := h w
  rw [eq] at outcome
  generalize m w = result at outcome
  cases outcome
  rfl

theorem Mirrors.of_ok {m : Action γ Unit} {f : Json → Except String Json} (h : Mirrors m f) {w w' : World γ}
    (ran : m w = .ok () w') : f w.config = .ok w'.config := by
  have outcome := h w
  rw [ran] at outcome
  generalize f w.config = result at outcome
  cases outcome
  rfl

theorem mirrors_update (f : Json → Except String Json) : Mirrors (update f : Action γ Unit) f := by
  intro w
  cases h : f w.config with
  | ok config =>
    rw [update_ok h]
    exact .ok config
  | error e =>
    rw [update_error h]
    exact .error e w.config

theorem mirrors_pure : Mirrors (pure () : Action γ Unit) .ok := fun w => .ok w.config

theorem Mirrors.bind {m n : Action γ Unit} {f g : Json → Except String Json} (hm : Mirrors m f) (hn : Mirrors n g) :
    Mirrors (do m; n) (fun config => f config >>= g) := by
  intro w
  have first := hm w
  generalize hf : f w.config = x at first
  generalize hr : m w = r at first
  show Matches w.files (f w.config >>= g) ((do m; n) w)
  cases first with
  | error e config =>
    rw [hf, run_error hr]
    exact .error e config
  | ok config =>
    rw [hf, run_ok hr]
    exact hn ⟨config, w.files⟩

theorem Mirrors.evaluate {α : Type} {n : α → Action γ Unit} {g : α → Json → Except String Json} (x : Except String α)
    (hn : ∀ a, Mirrors (n a) (g a)) : Mirrors (evaluate x >>= n) (fun config => x >>= fun a => g a config) := by
  intro w
  cases x with
  | error e => exact .error e w.config
  | ok a => exact hn a w

theorem mirrors_setAll (serviceName : String) (settings : List (String × Json)) :
    Mirrors (setAll serviceName settings : Action γ Unit) (assignAll · serviceName settings) := by
  induction settings with
  | nil => exact mirrors_pure
  | cons s settings ih => exact (mirrors_update _).bind ih

/-- The settings of a known service are assigned, and those of a new one are inserted. -/
def storeBase (config : Json) (serviceName : String) (alreadyExists : Bool) (settings : List (String × Json)) :
    Except String Json :=
  if alreadyExists then assignAll config serviceName settings else insert config serviceName (.object settings)

def storeOptional (config serviceConfig : Json) (serviceName key source : String) : Except String Json := do
  let setting ← optional serviceConfig key source
  assignAll config serviceName setting

/-- What `deployService` does after it has read the name and the directory. -/
def deployStore (size : SizeConversion) (config serviceConfig : Json) (standalone autoStart : Bool) (instances : Nat)
    (serviceName : String) (alreadyExists : Bool) : Except String Json := do
  let settings : List (String × Json) :=
    [("standalone", .boolean standalone), ("instances", .number instances), ("auto_start", .boolean autoStart)]
  if standalone then deployStandalone config serviceConfig serviceName alreadyExists settings
  else do
    let target ← at_ serviceConfig "request_target" >>= toText
    let protocol ← at_ serviceConfig "protocol" >>= toText
    let maxInMsgSize ← at_ serviceConfig "max_inbound_message_size" >>= toSize size
    deployReactive config serviceConfig serviceName alreadyExists (settings ++
      [("request_target", .string target), ("protocol", .string protocol),
        ("max_inbound_message_size", .number maxInMsgSize)])

theorem deployService_eq_store (size : SizeConversion) (config serviceConfig : Json) :
    deployService size config serviceConfig = (do
      let standalone ← at_ serviceConfig "standalone" >>= toBool
      let autoStart ← at_ serviceConfig "auto_start" >>= toBool
      let instances ← at_ serviceConfig "instances" >>= toSize size
      let serviceName ← at_ serviceConfig "name" >>= toText
      let _appDir ← toText (member config ["directories", "applications"])
      deployStore size config serviceConfig standalone autoStart instances serviceName
        (((config.find "services").getD .null).find serviceName).isSome) := rfl

theorem deployStandalone_eq (config serviceConfig : Json) (serviceName : String) (alreadyExists : Bool)
    (settings : List (String × Json)) :
    deployStandalone config serviceConfig serviceName alreadyExists settings = (do
      let config ← storeBase config serviceName alreadyExists settings
      storeOptional config serviceConfig serviceName "preload" "preload") := by
  cases alreadyExists <;> rfl

theorem deployReactive_known (config serviceConfig : Json) (serviceName : String) (settings : List (String × Json)) :
    deployReactive config serviceConfig serviceName true settings = (do
      let config ← storeBase config serviceName true settings
      let config ← storeOptional config serviceConfig serviceName "acl" "acl"
      let config ← storeOptional config serviceConfig serviceName "preload" "preload"
      storeOptional config serviceConfig serviceName "extra_headers" "preload") := by
  simp only [deployReactive, storeBase, storeOptional, if_true, bind_assoc]

theorem deployReactive_new (config serviceConfig : Json) (serviceName : String) (settings : List (String × Json)) :
    deployReactive config serviceConfig serviceName false settings = (do
      let config ← storeBase config serviceName false settings
      storeOptional config serviceConfig serviceName "preload" "preload") := rfl

theorem mirrors_setBase (serviceName : String) (alreadyExists : Bool) (settings : List (String × Json)) :
    Mirrors (setBase serviceName alreadyExists settings : Action γ Unit)
      (storeBase · serviceName alreadyExists settings) := by
  cases alreadyExists with
  | false => exact mirrors_update (insert · serviceName (.object settings))
  | true => exact mirrors_setAll serviceName settings

theorem mirrors_setOptional (serviceConfig : Json) (serviceName key source : String) :
    Mirrors (setOptional serviceConfig serviceName key source : Action γ Unit)
      (storeOptional · serviceConfig serviceName key source) := by
  unfold setOptional storeOptional optional
  split
  · simp only [bind_assoc, pure_bind, assignAll, List.foldlM_cons, List.foldlM_nil, bind_pure]
    exact Mirrors.evaluate (at_ serviceConfig source) fun v => mirrors_update _
  · exact mirrors_pure

theorem mirrors_runStandalone (serviceConfig : Json) (serviceName : String) (alreadyExists : Bool)
    (settings : List (String × Json)) :
    Mirrors (runStandalone serviceConfig serviceName alreadyExists settings : Action γ Unit)
      (deployStandalone · serviceConfig serviceName alreadyExists settings) := by
  simp only [deployStandalone_eq]
  exact .bind (mirrors_setBase _ _ _) (mirrors_setOptional _ _ _ _)

theorem mirrors_runReactive (serviceConfig : Json) (serviceName : String) (alreadyExists : Bool)
    (settings : List (String × Json)) :
    Mirrors (runReactive serviceConfig serviceName alreadyExists settings : Action γ Unit)
      (deployReactive · serviceConfig serviceName alreadyExists settings) := by
  cases alreadyExists with
  | false =>
    simp only [deployReactive_new]
    exact .bind (mirrors_setBase _ _ _) (mirrors_setOptional _ _ _ _)
  | true =>
    simp only [deployReactive_known]
    exact .bind (mirrors_setBase _ _ _) (.bind (mirrors_setOptional _ _ _ _) (.bind (mirrors_setOptional _ _ _ _)
      (mirrors_setOptional _ _ _ _)))

theorem mirrors_runStore (size : SizeConversion) (serviceConfig : Json) (standalone autoStart : Bool) (instances : Nat)
    (serviceName : String) (alreadyExists : Bool) :
    Mirrors (runStore size serviceConfig standalone autoStart instances serviceName alreadyExists : Action γ Unit)
      (deployStore size · serviceConfig standalone autoStart instances serviceName alreadyExists) := by
  cases standalone with
  | true => exact mirrors_runStandalone _ _ _ _
  | false =>
    exact .evaluate _ fun target => .evaluate _ fun protocol => .evaluate _ fun maxInMsgSize =>
      mirrors_runReactive _ _ _ _

/-! ### The settings -/

theorem entry_of_known {config e : Json} {serviceName : String}
    (h : ((config.find "services").getD .null).find serviceName = some e) :
    entry config serviceName = e ∧ config.isObject = true ∧ ((config.find "services").getD .null).isObject = true := by
  refine ⟨by rw [entry, h]; rfl, ?_, isObject_of_find h⟩
  cases hservices : config.find "services" with
  | none =>
    rw [hservices] at h
    cases h
  | some s => exact isObject_of_find hservices

theorem assign_open {config e : Json} {serviceName : String}
    (h : ((config.find "services").getD .null).find serviceName = some e) (writable : Open e) (key : String)
    (v : Json) : ∃ config', config.assign ["services", serviceName, key] v = .ok config' := by
  obtain ⟨-, whole, services⟩ := entry_of_known h
  obtain ⟨inner, hinner⟩ : ∃ inner, e.assign [key] v = .ok inner := by
    rcases writable with object | rfl
    · exact assign_ok object rfl
    · exact ⟨_, rfl⟩
  have member : (((config.find "services").getD .null).find serviceName).getD .null = e := by rw [h]; rfl
  rw [← member] at hinner
  obtain ⟨middle, hmiddle⟩ := assign_ok services hinner
  exact assign_ok whole hmiddle

theorem assign_closed {config e : Json} {serviceName : String}
    (h : ((config.find "services").getD .null).find serviceName = some e) (closed : ¬Open e) (key : String)
    (v : Json) : ∃ error, config.assign ["services", serviceName, key] v = .error error := by
  obtain ⟨error, herror⟩ : ∃ error, e.assign [key] v = .error error := by
    cases e with
    | null => exact absurd (.inr rfl) closed
    | object members => exact absurd (.inl rfl) closed
    | _ => exact ⟨_, rfl⟩
  refine ⟨error, ?_⟩
  rw [assign, assign, h, Option.getD_some, herror]
  rfl

theorem insert_ok {config : Json} (h : ((config.find "services").getD .null).isObject = true) (serviceName : String)
    (sconfig : Json) : ∃ config', insert config serviceName sconfig = .ok config' := by
  cases found : config.find "services" with
  | none =>
    rw [found] at h
    cases h
  | some services =>
    rw [found] at h
    cases services with
    | object members =>
      have member : ((config.find "services").getD .null).isObject = true := by rw [found]; exact h
      obtain ⟨inner, hinner⟩ : ∃ inner, ((config.find "services").getD .null).assign [serviceName] sconfig = .ok inner :=
        assign_ok member rfl
      rw [insert, found]
      exact assign_ok (isObject_of_find found) hinner
    | _ => cases h

theorem insert_error {config : Json} (h : ¬((config.find "services").getD .null).isObject = true)
    (serviceName : String) (sconfig : Json) : ∃ e, insert config serviceName sconfig = .error e := by
  unfold insert
  split
  next found =>
    rw [found] at h
    exact absurd rfl h
  · exact ⟨_, rfl⟩

variable {w : World γ} {serviceConfig : Json} {serviceName : String} {settings : List (String × Json)}

theorem storeBase_ok {config : Json} (writable : Writable config serviceName) (nonempty : settings ≠ []) :
    ∃ config', storeBase config serviceName (isKnown config serviceName) settings = .ok config' ∧
      (entry config' serviceName).isObject = true := by
  unfold Writable at writable
  unfold isKnown
  cases known : ((config.find "services").getD .null).find serviceName with
  | some e =>
    rw [known] at writable
    obtain ⟨s, rest, rfl⟩ := List.exists_cons_of_ne_nil nonempty
    obtain ⟨next, assigned⟩ := assign_open known writable s.1 s.2
    obtain ⟨config', all, object⟩ := assignAll_ok (isObject_assign_key assigned) rest
    refine ⟨config', ?_, object⟩
    rw [storeBase, Option.isSome_some, if_pos rfl, assignAll, List.foldlM_cons, assigned]
    exact all
  | none =>
    rw [known] at writable
    obtain ⟨config', inserted⟩ := insert_ok writable serviceName (.object settings)
    refine ⟨config', inserted, ?_⟩
    rw [(entry_insert inserted).1]
    rfl

/-- The first statement fails, and nothing is assigned. -/
theorem setBase_error (closed : ¬Writable w.config serviceName) (nonempty : settings ≠ []) :
    ∃ e, setBase serviceName (isKnown w.config serviceName) settings w = .error e w := by
  unfold Writable at closed
  unfold isKnown
  cases known : ((w.config.find "services").getD .null).find serviceName with
  | some e =>
    rw [known] at closed
    obtain ⟨s, rest, rfl⟩ := List.exists_cons_of_ne_nil nonempty
    obtain ⟨error, refused⟩ := assign_closed known closed s.1 s.2
    exact ⟨error, run_error (update_error refused)⟩
  | none =>
    rw [known] at closed
    obtain ⟨error, refused⟩ := insert_error closed serviceName (.object settings)
    exact ⟨error, update_error (f := (insert · serviceName (.object settings))) refused⟩

/-- A setting whose source is there is assigned, as long as the entry is an object. -/
theorem storeOptional_ok {config : Json} (key source : String) (object : (entry config serviceName).isObject = true)
    (present : (serviceConfig.find key).isSome = true → (serviceConfig.find source).isSome = true) :
    ∃ config', storeOptional config serviceConfig serviceName key source = .ok config' ∧
      (entry config' serviceName).isObject = true := by
  obtain ⟨setting, found⟩ := optional_ok serviceConfig key source present
  obtain ⟨config', assigned, object⟩ := assignAll_ok object setting
  refine ⟨config', ?_, object⟩
  rw [storeOptional, found]
  exact assigned

theorem deployStandalone_writable {config : Json} (writable : Writable config serviceName) (nonempty : settings ≠ []) :
    ∃ config', deployStandalone config serviceConfig serviceName (isKnown config serviceName) settings =
      .ok config' := by
  obtain ⟨base, stored, object⟩ := storeBase_ok writable nonempty
  obtain ⟨config', preload, -⟩ := @storeOptional_ok serviceConfig _ _ "preload" "preload" object id
  refine ⟨config', ?_⟩
  rw [deployStandalone_eq, stored]
  exact preload

theorem deployReactive_writable {config : Json} (writable : Writable config serviceName) (nonempty : settings ≠ [])
    (headers : isKnown config serviceName = true → (serviceConfig.find "extra_headers").isSome = true →
      (serviceConfig.find "preload").isSome = true) :
    ∃ config', deployReactive config serviceConfig serviceName (isKnown config serviceName) settings =
      .ok config' := by
  obtain ⟨base, stored, object⟩ := storeBase_ok writable nonempty
  cases known : isKnown config serviceName with
  | false =>
    rw [known] at stored
    obtain ⟨config', preload, -⟩ := @storeOptional_ok serviceConfig _ _ "preload" "preload" object id
    refine ⟨config', ?_⟩
    rw [deployReactive_new, stored]
    exact preload
  | true =>
    rw [known] at stored
    obtain ⟨c₁, acl, object₁⟩ := @storeOptional_ok serviceConfig _ _ "acl" "acl" object id
    obtain ⟨c₂, preload, object₂⟩ := @storeOptional_ok serviceConfig _ _ "preload" "preload" object₁ id
    obtain ⟨config', extra, -⟩ :=
      @storeOptional_ok serviceConfig _ _ "extra_headers" "preload" object₂ (headers known)
    refine ⟨config', ?_⟩
    simp only [deployReactive_known, stored, bind, Except.bind, acl, preload]
    exact extra

theorem assignAll_self {config services e : Json} (hservices : config.find "services" = some services)
    (known : services.find serviceName = some e) (same : ∀ s ∈ settings, e.find s.1 = some s.2) :
    assignAll config serviceName settings = .ok config := by
  induction settings with
  | nil => rfl
  | cons s settings ih =>
    have inner : e.assign [s.1] s.2 = .ok e := assign_self (same s List.mem_cons_self) rfl
    have assigned : config.assign ["services", serviceName, s.1] s.2 = .ok config :=
      assign_self hservices (assign_self known inner)
    rw [assignAll, List.foldlM_cons, assigned]
    exact ih fun s hs => same s (List.mem_cons_of_mem _ hs)

theorem lookup_of_mem {s : String × Json} (distinct : (settings.map Prod.fst).Nodup) (h : s ∈ settings) :
    settings.lookup s.1 = some s.2 := by
  induction settings with
  | nil => cases h
  | cons t settings ih =>
    obtain ⟨fresh, distinct'⟩ := List.nodup_cons.mp distinct
    rcases List.mem_cons.mp h with rfl | behind
    · exact List.lookup_cons_self
    · have other : s.1 ≠ t.1 := fun eq => fresh (eq ▸ List.mem_map_of_mem behind)
      rw [lookup_cons_ne other]
      exact ih distinct' behind

/-- What is assigned before the headers. -/
def storeBeforeHeaders (config serviceConfig : Json) (serviceName : String) (settings : List (String × Json)) :
    Except String Json := do
  let config ← assignAll config serviceName settings
  storeOptional config serviceConfig serviceName "acl" "acl"

/-- The headers of a known service have no source: the settings are assigned, and then comes the exception. -/
theorem runReactive_headers (writable : Writable w.config serviceName) (nonempty : settings ≠ [])
    (known : isKnown w.config serviceName = true) (headers : (serviceConfig.find "extra_headers").isSome = true)
    (preload : serviceConfig.find "preload" = none) :
    ∃ e config, storeBeforeHeaders w.config serviceConfig serviceName settings = .ok config ∧
      runReactive serviceConfig serviceName true settings w = .error e { w with config } := by
  obtain ⟨base, stored, object⟩ := storeBase_ok writable nonempty
  rw [known] at stored
  obtain ⟨config, acl, -⟩ := @storeOptional_ok serviceConfig _ _ "acl" "acl" object id
  have skipped : setOptional serviceConfig serviceName "preload" "preload" { w with config } = .ok () { w with config } := by
    rw [setOptional, if_neg (by rw [preload]; decide)]
    rfl
  have fails : setOptional serviceConfig serviceName "extra_headers" "preload" { w with config } =
      .error "assertion failed" { w with config } := by
    rw [setOptional, if_pos headers]
    apply run_error
    rw [at_, preload]
    rfl
  refine ⟨"assertion failed", config, ?_, ?_⟩
  · rw [storeBeforeHeaders, show assignAll w.config serviceName settings = .ok base from stored]
    exact acl
  · rw [runReactive, run_ok ((mirrors_setBase _ _ _).ok stored), if_pos rfl]
    have second := (mirrors_setOptional serviceConfig serviceName "acl" "acl").ok (w := { w with config := base }) acl
    exact (run_ok second).trans ((run_ok skipped).trans fails)

/-- The settings leave the services as they are exactly when they are stored already. -/
theorem storeBeforeHeaders_same_iff {size : SizeConversion} {config config' : Json} (a : Archive size serviceConfig)
    (known : isKnown config serviceName = true)
    (h : storeBeforeHeaders config serviceConfig serviceName a.settings = .ok config') :
    config'.find "services" = config.find "services" ↔ StoredAlready config serviceConfig serviceName a := by
  obtain ⟨base, stored, acl⟩ := bind_ok h
  obtain ⟨setting, found, assigned⟩ := bind_ok acl
  constructor
  · intro same
    have entries : entry config serviceName = entry config' serviceName := by rw [entry, entry, same]
    constructor
    · intro s hs
      have other : s.1 ≠ "acl" := by
        rintro eq
        have keys : s.1 ∈ a.settings.map Prod.fst := List.mem_map_of_mem hs
        rw [eq] at keys
        revert keys
        simp [Archive.settings]
      rw [entries, entry_optional found assigned, if_neg fun both => other both.1, entry_assignAll stored a.distinct,
        lookup_of_mem a.distinct hs]
      rfl
    · intro v here
      rw [entries, entry_optional found assigned, if_pos ⟨rfl, by rw [here]; rfl⟩, here]
  · intro already
    obtain ⟨e, found'⟩ := Option.isSome_iff_exists.mp known
    obtain ⟨services, hservices⟩ : ∃ services, config.find "services" = some services := by
      cases hservices : config.find "services" with
      | none =>
        rw [hservices] at found'
        cases found'
      | some services => exact ⟨services, rfl⟩
    have inside : services.find serviceName = some e := by
      rw [hservices] at found'
      exact found'
    have own : entry config serviceName = e := (entry_of_known found').1
    have first : base = config := by
      have self := assignAll_self hservices inside (own ▸ already.settings)
      exact Except.ok.inj (stored.symm.trans self)
    have second : config' = config := by
      have same : ∀ s ∈ setting, e.find s.1 = some s.2 := by
        unfold optional at found
        split at found
        · obtain ⟨v, here, single⟩ := bind_ok found
          cases single
          intro s hs
          rw [List.mem_singleton.mp hs, ← own]
          exact already.acl v (at_ok here)
        · cases found
          intro s hs
          cases hs
      rw [first] at assigned
      exact Except.ok.inj (assigned.symm.trans (assignAll_self hservices inside same))
    rw [second]

/-! ### The branches -/

/-- A value that is read, or the exception in its place. -/
theorem evaluate_cases {α : Type} {x : Except String α} {f : α → Action γ Unit}
    {P : EStateM.Result String (World γ) Unit → Prop} (error : ∀ e, x = .error e → P (.error e w))
    (ok : ∀ a, x = .ok a → P (f a w)) : P ((evaluate x >>= f) w) := by
  cases x with
  | error e => exact error e rfl
  | ok a => exact ok a rfl

/-- What the assignments of the settings can do. -/
inductive Stores (size : SizeConversion) (w : World γ) (serviceConfig : Json) (standalone : Bool)
    (serviceName : String) : EStateM.Result String (World γ) Unit → Prop
  | refused (h : ¬(Complete size serviceConfig standalone ∧ Writable w.config serviceName)) (e : String) :
    Stores size w serviceConfig standalone serviceName (.error e w)
  | headers {config : Json} (writable : Writable w.config serviceName)
    (missing : HeadersMissing w.config serviceConfig standalone serviceName) (a : Archive size serviceConfig)
    (stored : storeBeforeHeaders w.config serviceConfig serviceName a.settings = .ok config) (e : String) :
    Stores size w serviceConfig standalone serviceName (.error e { w with config })
  | stored {config : Json} (h : Deployable size w.config serviceConfig standalone serviceName) :
    Stores size w serviceConfig standalone serviceName (.ok () { w with config })

theorem runReactive_stores {size : SizeConversion} (a : Archive size serviceConfig) :
    Stores size w serviceConfig false serviceName
      (runReactive serviceConfig serviceName (isKnown w.config serviceName) a.settings w) := by
  have complete : Complete size serviceConfig false := fun _ => ⟨a⟩
  by_cases writable : Writable w.config serviceName
  · by_cases missing : HeadersMissing w.config serviceConfig false serviceName
    · obtain ⟨e, config, stored, ran⟩ :=
        runReactive_headers writable a.settings_ne_nil missing.known missing.headers missing.preload
      rw [missing.known, ran]
      exact .headers writable missing a stored e
    · have headers : isKnown w.config serviceName = true → (serviceConfig.find "extra_headers").isSome = true →
          (serviceConfig.find "preload").isSome = true := by
        intro known present
        rw [Option.isSome_iff_ne_none]
        exact fun none => missing ⟨rfl, known, present, none⟩
      obtain ⟨config, stored⟩ := deployReactive_writable writable a.settings_ne_nil headers
      rw [(mirrors_runReactive _ _ _ _).ok stored]
      exact .stored ⟨complete, writable, missing⟩
  · obtain ⟨e, ran⟩ := setBase_error writable a.settings_ne_nil
    rw [runReactive, run_error ran]
    exact .refused (fun both => writable both.2) e

theorem runStore_stores {size : SizeConversion} {standalone autoStart : Bool} {q : Rat}
    (hstandalone : serviceConfig.find "standalone" = some (.boolean standalone))
    (hautoStart : serviceConfig.find "auto_start" = some (.boolean autoStart))
    (hinstances : serviceConfig.find "instances" = some (.number q)) :
    Stores size w serviceConfig standalone serviceName
      (runStore size serviceConfig standalone autoStart (size.convert q) serviceName (isKnown w.config serviceName) w) := by
  cases standalone with
  | true =>
    have nothing : ¬HeadersMissing w.config serviceConfig true serviceName := fun missing => by cases missing.reactive
    by_cases writable : Writable w.config serviceName
    · obtain ⟨config, stored⟩ := @deployStandalone_writable serviceConfig _ _ _ writable (List.cons_ne_nil _ _)
      rw [runStore, if_pos rfl, (mirrors_runStandalone _ _ _ _).ok stored]
      exact .stored ⟨fun h => absurd h.symm Bool.false_ne_true, writable, nothing⟩
    · obtain ⟨e, ran⟩ := setBase_error writable (List.cons_ne_nil _ _)
      rw [runStore, if_pos rfl, runStandalone, run_error ran]
      exact .refused (fun both => writable both.2) e
  | false =>
    -- an exception means that a key has no value of its type
    have incomplete : ∀ e, (Archive size serviceConfig → False) →
        Stores size w serviceConfig false serviceName (.error e w) := fun e none =>
      .refused (fun both => (both.1 rfl).elim none) e
    rw [runStore, if_neg Bool.false_ne_true]
    refine evaluate_cases (fun e h => incomplete e fun a => ?_) fun target htarget => ?_
    · rw [at_, a.target_eq] at h
      cases h
    refine evaluate_cases (fun e h => incomplete e fun a => ?_) fun protocol hprotocol => ?_
    · rw [at_, a.protocol_eq] at h
      cases h
    refine evaluate_cases (fun e h => incomplete e fun a => ?_) fun maxInMsgSize hmax => ?_
    · rw [at_, a.maxInMsgSize_eq] at h
      cases h
    obtain ⟨m, max_eq, rfl⟩ := toSize_ok hmax
    exact runReactive_stores ⟨autoStart, q, target, protocol, m, hstandalone, hautoStart, hinstances,
      toText_ok htarget, toText_ok hprotocol, max_eq⟩

/-! ### The run -/

theorem access_ok {path : List String} {config : Json}
    (h : w.config.assign path (member w.config path) = .ok config) :
    access path w = .ok (member w.config path) { w with config } := by
  have made : update (fun config => config.assign path (member config path)) w = .ok () { w with config } :=
    update_ok h
  exact run_ok made

theorem access_error {path : List String} {e : String}
    (h : w.config.assign path (member w.config path) = .error e) : access path w = .error e w := by
  have failed : update (fun config => config.assign path (member config path)) w = .error e w := update_error h
  have start : (get : Action γ (World γ)) w = .ok w w := rfl
  exact (run_ok start).trans (run_error failed)

theorem access_services (hw : Open w.config) :
    ∃ config, access ["services"] w = .ok ((w.config.find "services").getD .null) { w with config } ∧
      (∀ k, config.find k = if k = "services" then some ((w.config.find "services").getD .null) else w.config.find k) ∧
      ((w.config.find "services").isSome = true → config = w.config) := by
  obtain ⟨config, put⟩ : ∃ config, w.config.put "services" ((w.config.find "services").getD .null) = .ok config := by
    rcases hw with object | null
    · exact put_ok object _ _
    · rw [null]
      exact ⟨_, rfl⟩
  refine ⟨config, access_ok put, fun k => find_put put k, fun present => ?_⟩
  obtain ⟨services, found⟩ := Option.isSome_iff_exists.mp present
  have same : w.config.assign ["services"] services = .ok w.config := assign_self found rfl
  rw [found] at put
  exact Except.ok.inj (put.symm.trans same)

theorem access_services_error (hw : ¬Open w.config) : ∃ e, access ["services"] w = .error e w := by
  obtain ⟨e, put⟩ : ∃ e, w.config.put "services" ((w.config.find "services").getD .null) = .error e := by
    cases h : w.config with
    | null => exact absurd (.inr h) hw
    | object members => exact absurd (.inl (by rw [h]; rfl)) hw
    | _ => exact ⟨_, rfl⟩
  exact ⟨e, access_error put⟩

/-- A text that is there is written back. -/
theorem AppDir.assign {config : Json} {appDir : String} (h : AppDir config appDir) :
    config.assign ["directories", "applications"] (member config ["directories", "applications"]) = .ok config := by
  have text : (((config.find "directories").getD .null).find "applications").getD .null = .string appDir := by
    unfold AppDir at h
    rw [member, member, member] at h
    revert h
    cases (((config.find "directories").getD .null).find "applications").getD .null <;> intro h <;> cases h
    rfl
  cases hdirectories : config.find "directories" with
  | none =>
    rw [hdirectories] at text
    cases text
  | some directories =>
    rw [hdirectories] at text
    cases happlications : directories.find "applications" with
    | none =>
      rw [Option.getD_some, happlications] at text
      cases text
    | some applications =>
      rw [member, member, member, hdirectories, Option.getD_some, happlications, Option.getD_some]
      exact assign_self hdirectories (assign_self happlications rfl)

/-- The services are not touched, and nothing is if the directory is there. -/
theorem access_applications :
    (∃ config, access ["directories", "applications"] w =
        .ok (member w.config ["directories", "applications"]) { w with config } ∧
      config.find "services" = w.config.find "services" ∧ ∀ appDir, AppDir w.config appDir → config = w.config) ∨
    (∀ appDir, ¬AppDir w.config appDir) ∧ ∃ e, access ["directories", "applications"] w = .error e w := by
  cases made : w.config.assign ["directories", "applications"] (member w.config ["directories", "applications"]) with
  | ok config =>
    obtain ⟨_, -, others⟩ := find_assign made
    refine .inl ⟨config, access_ok made, by rw [others, if_neg (by decide)], fun appDir dir => ?_⟩
    exact Except.ok.inj (made.symm.trans dir.assign)
  | error e =>
    refine .inr ⟨fun appDir dir => ?_, e, access_error made⟩
    cases made.symm.trans dir.assign

/-- The files after the removal. -/
def cleared (path : Path) (files : Path → Option γ) : Path → Option γ :=
  if (files path).isSome then removed path files else files

/-- How a run ends. -/
inductive Ends (size : SizeConversion) (servicePath : String → String → Path) (w : World γ) (serviceConfig : Json) :
    EStateM.Result String (World γ) Unit → Prop
  | untouched (h : (∀ standalone serviceName, ¬Begun serviceConfig standalone serviceName) ∨ ¬Open w.config)
    (e : String) : Ends size servicePath w serviceConfig (.error e w)
  | noApplications {standalone : Bool} {serviceName : String} {config : Json}
    (begun : Begun serviceConfig standalone serviceName) (hw : Open w.config)
    (none : ∀ appDir, ¬AppDir w.config appDir)
    (services : config.find "services" = some ((w.config.find "services").getD .null)) (e : String) :
    Ends size servicePath w serviceConfig (.error e { w with config })
  | failed {standalone : Bool} {serviceName appDir : String} {config : Json} {w' : World γ} {e : String}
    (begun : Begun serviceConfig standalone serviceName) (dir : AppDir w.config appDir)
    (services : config.find "services" = some ((w.config.find "services").getD .null))
    (stores : Stores size ⟨config, cleared (servicePath appDir serviceName) w.files⟩ serviceConfig standalone
      serviceName (.error e w')) : Ends size servicePath w serviceConfig (.error e w')
  | deployed {standalone : Bool} {serviceName appDir : String} {w' : World γ}
    (begun : Begun serviceConfig standalone serviceName) (dir : AppDir w.config appDir)
    (h : Deployable size w.config serviceConfig standalone serviceName)
    (stored : deployService size w.config serviceConfig = .ok w'.config) :
    Ends size servicePath w serviceConfig (.ok () w')

section Services

variable {config config' : Json} (h : config'.find "services" = some ((config.find "services").getD .null))
include h

theorem isKnown_congr : isKnown config' serviceName = isKnown config serviceName := by
  rw [isKnown, isKnown, h, Option.getD_some]

theorem writable_congr : Writable config' serviceName ↔ Writable config serviceName := by
  rw [Writable, Writable, h, Option.getD_some]

theorem entry_congr : entry config' serviceName = entry config serviceName := by
  rw [entry, entry, h, Option.getD_some]

theorem headersMissing_congr {standalone : Bool} :
    HeadersMissing config' serviceConfig standalone serviceName ↔
      HeadersMissing config serviceConfig standalone serviceName := by
  constructor
  · rintro ⟨reactive, known, headers, preload⟩
    exact ⟨reactive, (isKnown_congr h).symm.trans known, headers, preload⟩
  · rintro ⟨reactive, known, headers, preload⟩
    exact ⟨reactive, (isKnown_congr h).trans known, headers, preload⟩

theorem deployable_congr {size : SizeConversion} {standalone : Bool} :
    Deployable size config' serviceConfig standalone serviceName ↔
      Deployable size config serviceConfig standalone serviceName := by
  constructor
  · rintro ⟨complete, writable, headers⟩
    exact ⟨complete, (writable_congr h).mp writable, fun missing => headers ((headersMissing_congr h).mpr missing)⟩
  · rintro ⟨complete, writable, headers⟩
    exact ⟨complete, (writable_congr h).mpr writable, fun missing => headers ((headersMissing_congr h).mp missing)⟩

end Services

theorem isSome_of_isKnown {config : Json} (h : isKnown config serviceName = true) :
    (config.find "services").isSome = true := by
  cases found : config.find "services" with
  | none =>
    rw [isKnown, found] at h
    cases h
  | some services => rfl

theorem isSome_of_writable {config : Json} (h : Writable config serviceName) :
    (config.find "services").isSome = true := by
  cases found : config.find "services" with
  | none =>
    rw [Writable, found] at h
    cases h
  | some services => rfl

/-- The removal of the installed directory. -/
theorem clear_ok (path : Path) (rest : Action γ Unit) :
    (do
      let w ← get
      if (w.files path).isSome then removeAll path
      rest : Action γ Unit) w = rest { w with files := cleared path w.files } := by
  have start : (get : Action γ (World γ)) w = .ok w w := rfl
  rw [run_ok start, cleared]
  split
  · rfl
  · rfl

theorem run_ends (size : SizeConversion) (servicePath : String → String → Path) (dir : Path) (serviceConfig : Json)
    (w : World γ) :
    Ends size servicePath w serviceConfig (runDeployService size servicePath dir serviceConfig w) := by
  have unread : ∀ e, (∀ standalone serviceName, ¬Begun serviceConfig standalone serviceName) →
      Ends size servicePath w serviceConfig (.error e w) := fun e none => .untouched (.inl none) e
  refine evaluate_cases (fun e h => unread e fun _ _ begun => ?_) fun standalone hstandalone => ?_
  · rw [at_, begun.standalone] at h
    cases h
  refine evaluate_cases (fun e h => unread e fun _ _ begun => ?_) fun autoStart hautoStart => ?_
  · obtain ⟨b, found⟩ := begun.autoStart
    rw [at_, found] at h
    cases h
  refine evaluate_cases (fun e h => unread e fun _ _ begun => ?_) fun instances hinstances => ?_
  · obtain ⟨q, found⟩ := begun.instances
    rw [at_, found] at h
    cases h
  refine evaluate_cases (fun e h => unread e fun _ _ begun => ?_) fun serviceName hname => ?_
  · rw [at_, begun.name] at h
    cases h
  obtain ⟨q, instances_eq, rfl⟩ := toSize_ok hinstances
  have begun : Begun serviceConfig standalone serviceName :=
    ⟨toBool_ok hstandalone, ⟨autoStart, toBool_ok hautoStart⟩, ⟨q, instances_eq⟩, toText_ok hname⟩
  by_cases hw : Open w.config
  case neg =>
    obtain ⟨e, failed⟩ := access_services_error hw
    rw [run_error failed]
    exact .untouched (.inr hw) e
  obtain ⟨c₁, ranServices, finds, kept₁⟩ := access_services hw
  rw [run_ok ranServices]
  have services₁ : c₁.find "services" = some ((w.config.find "services").getD .null) := by
    rw [finds, if_pos rfl]
  have dirs : ∀ appDir, AppDir c₁ appDir ↔ AppDir w.config appDir := fun appDir => by
    rw [AppDir, AppDir, member, member, finds, if_neg (by decide)]
    exact Iff.rfl
  rcases @access_applications _ { w with config := c₁ } with
    ⟨c₂, ranDir, same, kept₂⟩ | ⟨none, e, failed⟩
  case inr =>
    rw [run_error failed]
    exact .noApplications begun hw (fun appDir dir => none appDir ((dirs appDir).mpr dir)) services₁ e
  rw [run_ok ranDir]
  have services₂ : c₂.find "services" = some ((w.config.find "services").getD .null) := same.trans services₁
  refine evaluate_cases (fun e h => ?_) fun appDir hdir => ?_
  · refine .noApplications begun hw (fun appDir dir => ?_) services₂ e
    cases h.symm.trans ((dirs appDir).mpr dir)
  rw [clear_ok]
  have applications : AppDir w.config appDir := (dirs appDir).mp hdir
  have stores := @runStore_stores _ ⟨c₂, cleared (servicePath appDir serviceName) w.files⟩ serviceConfig serviceName size
    _ _ _ begun.standalone (toBool_ok hautoStart) instances_eq
  have known : isKnown c₂ serviceName = (((w.config.find "services").getD .null).find serviceName).isSome :=
    isKnown_congr services₂
  rw [known] at stores
  cases ran : runStore size serviceConfig standalone autoStart (size.convert q) serviceName
      (((w.config.find "services").getD .null).find serviceName).isSome
      ⟨c₂, cleared (servicePath appDir serviceName) w.files⟩ with
  | error e w' =>
    rw [ran] at stores
    rw [run_error ran]
    exact .failed begun applications services₂ stores
  | ok u w' =>
    rw [ran] at stores
    rw [run_ok ran]
    have stored := (mirrors_runStore _ _ _ _ _ _ _).of_ok ran
    cases stores with
    | stored h =>
      have deployable := (deployable_congr services₂).mp h
      -- what is accessed is there
      obtain rfl := kept₁ (isSome_of_writable deployable.writable)
      obtain rfl := kept₂ appDir applications
      refine .deployed begun applications deployable ?_
      rw [deployService_eq_store, hstandalone, hautoStart, hinstances, hname]
      show (toText (member w.config ["directories", "applications"]) >>= fun _ => _) = _
      rw [hdir]
      exact stored

/-! ### Failures that change nothing -/

/-- An exception leaves the services of the configuration and the installed directories as they were. -/
def FailsUnchanged (size : SizeConversion) (servicePath : String → String → Path) (dir : Path) (w : World γ)
    (serviceConfig : Json) : Prop :=
  ∀ e w', runDeployService size servicePath dir serviceConfig w = .error e w' →
    w'.config.find "services" = w.config.find "services" ∧
      ∀ appDir serviceName path, w'.files (servicePath appDir serviceName ++ path) =
        w.files (servicePath appDir serviceName ++ path)

/-- Nothing is there to be lost where the run fails late. -/
structure Lossless (size : SizeConversion) (servicePath : String → String → Path) (w : World γ) (serviceConfig : Json) :
    Prop where
  services : ∀ standalone serviceName, Begun serviceConfig standalone serviceName → Open w.config →
    (w.config.find "services").isSome = true
  directory : ∀ standalone serviceName appDir, Begun serviceConfig standalone serviceName → AppDir w.config appDir →
    (w.files (servicePath appDir serviceName)).isSome = true →
      Deployable size w.config serviceConfig standalone serviceName
  settings : ∀ serviceName appDir, ∀ a : Archive size serviceConfig, Begun serviceConfig false serviceName →
    AppDir w.config appDir → Writable w.config serviceName →
      HeadersMissing w.config serviceConfig false serviceName →
        StoredAlready w.config serviceConfig serviceName a

theorem Begun.unique {standalone standalone' : Bool} {serviceName serviceName' : String}
    (h : Begun serviceConfig standalone serviceName) (h' : Begun serviceConfig standalone' serviceName') :
    standalone = standalone' ∧ serviceName = serviceName' := by
  have flags := h.standalone.symm.trans h'.standalone
  have names := h.name.symm.trans h'.name
  rw [Option.some.injEq] at flags names
  exact ⟨Json.boolean.inj flags, Json.string.inj names⟩

theorem AppDir.unique {config : Json} {appDir appDir' : String} (h : AppDir config appDir)
    (h' : AppDir config appDir') : appDir = appDir' := Except.ok.inj (h.symm.trans h')

theorem AppDir.isOpen {config : Json} {appDir : String} (h : AppDir config appDir) : Open config := by
  obtain ⟨_, _, put⟩ := bind_ok h.assign
  cases config with
  | null => exact .inr rfl
  | object members => exact .inl rfl
  | _ => cases put

theorem cleared_missing {path : Path} {files : Path → Option γ} (h : ¬(files path).isSome = true) :
    cleared path files = files := by
  rw [cleared, if_neg h]

theorem cleared_self {path : Path} {files : Path → Option γ} (h : (files path).isSome = true) :
    cleared path files path = none := by
  have own : path.isPrefixOf path = true := by simp
  rw [cleared, if_pos h, removed, if_pos own]

theorem same_services {config config' : Json}
    (h : config'.find "services" = some ((config.find "services").getD .null))
    (present : (config.find "services").isSome = true) : config'.find "services" = config.find "services" := by
  obtain ⟨services, found⟩ := Option.isSome_iff_exists.mp present
  rw [h, found, Option.getD_some]

/-- The values of an archive are read from it. -/
theorem settings_unique {size : SizeConversion} (a a' : Archive size serviceConfig) : a.settings = a'.settings := by
  have autoStart := a.autoStart_eq.symm.trans a'.autoStart_eq
  have instances := a.instances_eq.symm.trans a'.instances_eq
  have target := a.target_eq.symm.trans a'.target_eq
  have protocol := a.protocol_eq.symm.trans a'.protocol_eq
  have maxInMsgSize := a.maxInMsgSize_eq.symm.trans a'.maxInMsgSize_eq
  simp only [Option.some.injEq, Json.boolean.injEq, Json.number.injEq, Json.string.injEq] at autoStart instances target protocol maxInMsgSize
  rw [Archive.settings, Archive.settings, autoStart, instances, target, protocol, maxInMsgSize]

/-- What a run that fails after the removal leaves. -/
theorem Stores.error_state {size : SizeConversion} {standalone : Bool} {e : String} {w' : World γ}
    (h : Stores size w serviceConfig standalone serviceName (.error e w')) :
    w'.files = w.files ∧ ¬Deployable size w.config serviceConfig standalone serviceName := by
  cases h with
  | refused h => exact ⟨rfl, fun deployable => h ⟨deployable.complete, deployable.writable⟩⟩
  | headers writable missing => exact ⟨rfl, fun deployable => deployable.headers missing⟩

/-- A run that comes to the directory of the service fails with the assignments of the settings, or succeeds. -/
theorem run_begun {standalone : Bool} {appDir : String} (size : SizeConversion)
    (servicePath : String → String → Path) (dir : Path) (begun : Begun serviceConfig standalone serviceName)
    (applications : AppDir w.config appDir) :
    (∃ config e w', runDeployService size servicePath dir serviceConfig w = .error e w' ∧
      config.find "services" = some ((w.config.find "services").getD .null) ∧
      Stores size ⟨config, cleared (servicePath appDir serviceName) w.files⟩ serviceConfig standalone serviceName
        (.error e w')) ∨
    Deployable size w.config serviceConfig standalone serviceName ∧
      ∃ w', runDeployService size servicePath dir serviceConfig w = .ok () w' := by
  have ends := run_ends size servicePath dir serviceConfig w
  generalize runDeployService size servicePath dir serviceConfig w = result at ends
  cases ends with
  | untouched h => exact absurd h (not_or.mpr ⟨fun none => none _ _ begun, not_not.mpr applications.isOpen⟩)
  | noApplications _ _ none => exact absurd applications (none appDir)
  | failed begun' applications' services stores =>
    obtain ⟨rfl, rfl⟩ := begun.unique begun'
    obtain rfl := applications.unique applications'
    exact .inl ⟨_, _, _, rfl, services, stores⟩
  | deployed begun' _ h =>
    obtain ⟨rfl, rfl⟩ := begun.unique begun'
    exact .inr ⟨h, _, rfl⟩

section Unchanged

variable {size : SizeConversion} {servicePath : String → String → Path} {dir : Path}
  (unchanged : FailsUnchanged size servicePath dir w serviceConfig)
include unchanged

theorem FailsUnchanged.services {standalone : Bool} (begun : Begun serviceConfig standalone serviceName)
    (hw : Open w.config) : (w.config.find "services").isSome = true := by
  have ends := run_ends size servicePath dir serviceConfig w
  generalize ran : runDeployService size servicePath dir serviceConfig w = result at ends
  cases ends with
  | untouched h => exact absurd h (not_or.mpr ⟨fun none => none _ _ begun, not_not.mpr hw⟩)
  | noApplications _ _ _ services =>
    rw [← (unchanged _ _ ran).1, services]
    rfl
  | failed _ _ services stores =>
    cases stores with
    | refused =>
      rw [← (unchanged _ _ ran).1, services]
      rfl
    | headers _ missing => exact isSome_of_isKnown ((isKnown_congr services).symm.trans missing.known)
  | deployed _ _ h => exact isSome_of_writable h.writable

theorem FailsUnchanged.directory {standalone : Bool} {appDir : String}
    (begun : Begun serviceConfig standalone serviceName) (applications : AppDir w.config appDir)
    (installed : (w.files (servicePath appDir serviceName)).isSome = true) :
    Deployable size w.config serviceConfig standalone serviceName := by
  rcases run_begun size servicePath dir begun applications with ⟨config, e, w', ran, -, stores⟩ | ⟨h, -⟩
  · -- the directory that was there is removed
    have same := (unchanged e w' ran).2 appDir serviceName []
    rw [List.append_nil, stores.error_state.1] at same
    rw [same.symm.trans (cleared_self installed)] at installed
    cases installed
  · exact h

theorem FailsUnchanged.stored {appDir : String} (a : Archive size serviceConfig)
    (begun : Begun serviceConfig false serviceName) (applications : AppDir w.config appDir)
    (writable : Writable w.config serviceName) (missing : HeadersMissing w.config serviceConfig false serviceName) :
    StoredAlready w.config serviceConfig serviceName a := by
  rcases run_begun size servicePath dir begun applications with ⟨config, e, w', ran, services, stores⟩ | ⟨h, -⟩
  · cases stores with
    | refused h => exact absurd ⟨fun _ => ⟨a⟩, (writable_congr services).mpr writable⟩ h
    | headers _ missing' a' stored =>
      have present := same_services services (isSome_of_isKnown missing.known)
      have kept := (unchanged _ _ ran).1.trans present.symm
      have already := (storeBeforeHeaders_same_iff a' missing'.known stored).mp kept
      have own : ∀ k, (entry w.config serviceName).find k = (entry config serviceName).find k := fun k => by
        rw [entry_congr services]
      refine ⟨fun s hs => ?_, fun acl here => ?_⟩
      · rw [own, already.settings s (settings_unique a a' ▸ hs)]
      · rw [own, already.acl acl here]
  · exact absurd missing h.headers

end Unchanged

theorem Lossless.failsUnchanged {size : SizeConversion} {servicePath : String → String → Path}
    (lossless : Lossless size servicePath w serviceConfig) (dir : Path) :
    FailsUnchanged size servicePath dir w serviceConfig := by
  intro e w' ran
  have ends := run_ends size servicePath dir serviceConfig w
  rw [ran] at ends
  cases ends with
  | untouched => exact ⟨rfl, fun _ _ _ => rfl⟩
  | noApplications begun hw _ services => exact ⟨same_services services (lossless.services _ _ begun hw), fun _ _ _ => rfl⟩
  | failed begun applications services stores =>
    have present := lossless.services _ _ begun applications.isOpen
    obtain ⟨files, notDeployable⟩ := stores.error_state
    have missing : cleared _ w.files = w.files := cleared_missing fun installed =>
      notDeployable ((deployable_congr services).mpr (lossless.directory _ _ _ begun applications installed))
    refine ⟨?_, fun _ _ _ => by rw [files, missing]⟩
    cases stores with
    | refused => exact same_services services present
    | headers writable headers a stored =>
      obtain rfl := headers.reactive
      have already := lossless.settings _ _ a begun applications ((writable_congr services).mp writable)
        ((headersMissing_congr services).mp headers)
      rw [← same_services services present]
      refine (storeBeforeHeaders_same_iff a headers.known stored).mpr ⟨fun s hs => ?_, fun acl here => ?_⟩
      · rw [entry_congr services, already.settings s hs]
      · rw [entry_congr services, already.acl acl here]

/-! ### The configuration alone -/

/-- A run that returns leaves the configuration that `deployService` computes. -/
theorem deployService_of_run_ok {size : SizeConversion} {servicePath : String → String → Path} {dir : Path} {w' : World γ}
    (ran : runDeployService size servicePath dir serviceConfig w = .ok () w') :
    deployService size w.config serviceConfig = .ok w'.config := by
  have ends := run_ends size servicePath dir serviceConfig w
  rw [ran] at ends
  cases ends with
  | deployed _ _ _ stored => exact stored

theorem deployable_of_deployService {size : SizeConversion} {config config' : Json}
    (h : deployService size config serviceConfig = .ok config') :
    ∃ standalone serviceName appDir, Begun serviceConfig standalone serviceName ∧ AppDir config appDir ∧
      Deployable size config serviceConfig standalone serviceName := by
  rw [deployService_eq_store] at h
  obtain ⟨standalone, hstandalone, h⟩ := bind_ok h
  obtain ⟨autoStart, hautoStart, h⟩ := bind_ok h
  obtain ⟨instances, hinstances, h⟩ := bind_ok h
  obtain ⟨serviceName, hname, h⟩ := bind_ok h
  obtain ⟨appDir, hdir, h⟩ := bind_ok h
  obtain ⟨q, instances_eq, rfl⟩ := toSize_ok hinstances
  refine ⟨standalone, serviceName, appDir, ⟨toBool_ok hstandalone, ⟨autoStart, toBool_ok hautoStart⟩,
    ⟨q, instances_eq⟩, toText_ok hname⟩, hdir, ?_⟩
  -- the statements, without files, come through
  have ran := (mirrors_runStore size serviceConfig standalone autoStart (size.convert q) serviceName
    (isKnown config serviceName)).ok (w := ⟨config, fun _ => (none : Option Unit)⟩) h
  have stores := @runStore_stores _ ⟨config, fun _ => (none : Option Unit)⟩ serviceConfig serviceName size _ _ _
    (toBool_ok hstandalone) (toBool_ok hautoStart) instances_eq
  rw [ran] at stores
  cases stores with
  | stored h => exact h

/-- Whatever is installed and wherever the archive was unpacked, the deployment comes through, with the configuration that
`deployService` computes from the old one and the archive, exactly when this does. -/
theorem deploys_whatever_installed (size : SizeConversion) (servicePath : String → String → Path) (dir : Path)
    (serviceConfig config' : Json) (w : World γ) :
    (∃ w', runDeployService size servicePath dir serviceConfig w = .ok () w' ∧ w'.config = config') ↔
      deployService size w.config serviceConfig = .ok config' := by
  constructor
  · rintro ⟨w', ran, rfl⟩
    exact deployService_of_run_ok ran
  · intro deployed
    obtain ⟨standalone, serviceName, appDir, begun, applications, deployable⟩ := deployable_of_deployService deployed
    rcases run_begun size servicePath dir begun applications with ⟨config, _, _, -, services, stores⟩ | ⟨-, w', ran⟩
    · exact absurd ((deployable_congr services).mpr deployable) stores.error_state.2
    · have same := deployService_of_run_ok ran
      rw [deployed] at same
      exact ⟨w', ran, (Except.ok.inj same).symm⟩

/-- A failed deployment changes nothing exactly when nothing is there to be lost. -/
theorem fails_unchanged_iff (size : SizeConversion) (servicePath : String → String → Path) (dir : Path) (w : World γ)
    (serviceConfig : Json) :
    FailsUnchanged size servicePath dir w serviceConfig ↔ Lossless size servicePath w serviceConfig :=
  ⟨fun unchanged => ⟨fun _ _ => unchanged.services, fun _ _ _ => unchanged.directory, fun _ _ a => unchanged.stored a⟩,
    fun lossless => lossless.failsUnchanged dir⟩

/-- An archive of the service `echo` without a protocol. -/
def brokenArchive : Json :=
  .object [("name", .string "echo"), ("standalone", .boolean false), ("auto_start", .boolean true),
    ("instances", .number 2), ("request_target", .string "/echo")]

def echoWorld : World Unit :=
  ⟨echoConfig [("echo", .object [])], fun path => if path = ["apps", "echo"] then some () else none⟩

/-- An archive without a protocol removes the installed service. One with headers and without a preload changes the
settings as well. -/
theorem fails_unchanged_counterexample :
    (∃ e w', runDeployService truncation (fun appDir name => [appDir, name]) ["tmp"] brokenArchive echoWorld =
        .error e w' ∧
      echoWorld.files ["apps", "echo"] = some () ∧ w'.files ["apps", "echo"] = none) ∧
    ∃ e w', runDeployService truncation (fun appDir name => [appDir, name]) ["tmp"]
        (echoArchive [("extra_headers", .object [])]) echoWorld = .error e w' ∧
      (entry echoWorld.config "echo").find "instances" = none ∧
      (entry w'.config "echo").find "instances" = some (.number 2) :=
  ⟨⟨_, _, rfl, rfl, rfl⟩, ⟨_, _, rfl, rfl, rfl⟩⟩

end LAppS.Deployer
