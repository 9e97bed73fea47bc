import LAppS.Json
import LAppS.NetworkACL.Match
import Mathlib.Algebra.Ring.Rat

/-!
# The deployment of a service

`Deployer::deploy_service` writes the configuration of an archive into the LAppS configuration, on one path for a
service that is known and on another for a new one. The file operations are taken to succeed.
-/

namespace LAppS.Deployer
open Json

/-- The conversion of a number to `size_t`: exact where the value fits, and some value where it does not. -/
structure SizeConversion where
  convert : Rat → Nat
  exact_of_fits : ∀ n : Nat, n < 2 ^ 64 → convert n = n
  lt : ∀ q, convert q < 2 ^ 64

def toSize (size : SizeConversion) : Json → Except String Nat
  | .number q => .ok (size.convert q)
  | _ => .error "type must be number"

/-- `service_config[key]` of the constant configuration, which has the key. -/
def at_ (serviceConfig : Json) (key : String) : Except String Json :=
  match serviceConfig.find key with
  | some v => .ok v
  | none => .error "assertion failed"

/-- `["services"][service_name]` of the LAppS configuration. -/
def entry (config : Json) (serviceName : String) : Json :=
  (((config.find "services").getD .null).find serviceName).getD .null

def assignAll (config : Json) (serviceName : String) (settings : List (String × Json)) : Except String Json :=
  settings.foldlM (fun config s => config.assign ["services", serviceName, s.1] s.2) config

/-- The service must not be known. -/
def insert (config : Json) (serviceName : String) (sconfig : Json) : Except String Json :=
  match config.find "services" with
  | some (.object _) => config.assign ["services", serviceName] sconfig
  | _ => .error "cannot use insert() with a value that is not an object"

def optional (serviceConfig : Json) (key source : String) : Except String (List (String × Json)) :=
  if (serviceConfig.find key).isSome then do
    let v ← at_ serviceConfig source
    return [(key, v)]
  else return []

def deployStandalone (config serviceConfig : Json) (serviceName : String) (alreadyExists : Bool)
    (settings : List (String × Json)) : Except String Json := do
  let config ←
    if alreadyExists then assignAll config serviceName settings
    else insert config serviceName (.object settings)
  let preload ← optional serviceConfig "preload" "preload"
  assignAll config serviceName preload

/-- The headers of a known service are set to the value of `preload`, and those of a new one are not set, like its
`acl`. -/
def deployReactive (config serviceConfig : Json) (serviceName : String) (alreadyExists : Bool)
    (settings : List (String × Json)) : Except String Json :=
  if alreadyExists then do
    let config ← assignAll config serviceName settings
    let acl ← optional serviceConfig "acl" "acl"
    let config ← assignAll config serviceName acl
    let preload ← optional serviceConfig "preload" "preload"
    let config ← assignAll config serviceName preload
    let extraHeaders ← optional serviceConfig "extra_headers" "preload"
    assignAll config serviceName extraHeaders
  else do
    let config ← insert config serviceName (.object settings)
    let preload ← optional serviceConfig "preload" "preload"
    assignAll config serviceName preload

def deployService (size : SizeConversion) (config serviceConfig : Json) : Except String Json := do
  let standalone ← at_ serviceConfig "standalone" >>= toBool
  let autoStart ← at_ serviceConfig "auto_start" >>= toBool
  let instances ← at_ serviceConfig "instances" >>= toSize size
  let serviceName ← at_ serviceConfig "name" >>= toText
  let alreadyExists := (((config.find "services").getD .null).find serviceName).isSome
  let _appDir ← toText ((((config.find "directories").getD .null).find "applications").getD .null)
  let settings : List (String × Json) :=
    [("standalone", .boolean standalone), ("instances", .number instances), ("auto_start", .boolean autoStart)]
  if standalone then deployStandalone config serviceConfig serviceName alreadyExists settings
  else do
    let target ← at_ serviceConfig "request_target" >>= toText
    let protocol ← at_ serviceConfig "protocol" >>= toText
    let maxInMsgSize ← at_ serviceConfig "max_inbound_message_size" >>= toSize size
    deployReactive config serviceConfig serviceName alreadyExists (settings ++
      [("request_target", .string target), ("protocol", .string protocol),
        ("max_inbound_message_size", .number maxInMsgSize)])

/-- The policy and the exclude list that `start_service` makes of a stored entry. -/
def networkPolicy (entry : Json) (serviceName : String) : Except String (NetworkACLPolicy × Json) :=
  match entry.find "acl" with
  | some acl => do
    let spolicy ← toText ((acl.find "policy").getD .null)
    let excludeList := (acl.find "exclude").getD .null
    if spolicy = "allow" then return (.allow, excludeList)
    else if spolicy = "deny" then return (.deny, excludeList)
    else .error ("Invalid network acl policy for a service " ++ serviceName ++ ": " ++ spolicy ++
      ". Only `allow' and `deny' are accepted")
  | none => .ok (.allow, .array [])

/-! ### What the deployment is for -/

def keys : List String :=
  ["standalone", "instances", "auto_start", "request_target", "protocol", "max_inbound_message_size", "acl", "preload",
    "extra_headers"]

/-- The entry has the value of the archive for every key that the archive has. -/
def Stored (serviceConfig entry : Json) : Prop :=
  ∀ key ∈ keys, ∀ v, serviceConfig.find key = some v → entry.find key = some v

/-- The value is a number that `size_t` has. -/
def FitsSize (serviceConfig : Json) (key : String) : Prop := ∃ n : Nat, n < 2 ^ 64 ∧ serviceConfig.find key = some (.number n)

def Storable (config serviceConfig : Json) (serviceName : String) : Prop :=
  FitsSize serviceConfig "instances" ∧ FitsSize serviceConfig "max_inbound_message_size" ∧
    if (((config.find "services").getD .null).find serviceName).isSome then
      (serviceConfig.find "extra_headers").isSome → serviceConfig.find "extra_headers" = serviceConfig.find "preload"
    else serviceConfig.find "acl" = none ∧ serviceConfig.find "extra_headers" = none

/-! ### Assignments -/

theorem at_ok {serviceConfig v : Json} {key : String} (h : at_ serviceConfig key = .ok v) :
    serviceConfig.find key = some v := by
  unfold at_ at h
  split at h
  next found => rw [found, Except.ok.inj h]
  · cases h

theorem entry_assign {config config' v : Json} {serviceName : String} {path : List String}
    (h : config.assign ("services" :: serviceName :: path) v = .ok config') :
    (entry config serviceName).assign path v = .ok (entry config' serviceName) ∧
      ∀ k, k ≠ "services" → config'.find k = config.find k := by
  obtain ⟨services, hservices, found⟩ := find_assign h
  obtain ⟨member, hmember, found'⟩ := find_assign hservices
  have here : entry config' serviceName = member := by
    rw [entry, found, if_pos rfl, Option.getD_some, found', if_pos rfl]
    rfl
  refine ⟨by rw [here]; exact hmember, fun k other => ?_⟩
  rw [found, if_neg other]

theorem entry_assign_key {config config' v : Json} {serviceName key : String}
    (h : config.assign ["services", serviceName, key] v = .ok config') (k : String) :
    (entry config' serviceName).find k = if k = key then some v else (entry config serviceName).find k := by
  obtain ⟨member, hmember, found⟩ := find_assign (entry_assign h).1
  cases hmember
  exact found k

theorem isObject_assign_key {config config' v : Json} {serviceName key : String}
    (h : config.assign ["services", serviceName, key] v = .ok config') : (entry config' serviceName).isObject = true := by
  obtain ⟨member, _, put⟩ := bind_ok (entry_assign h).1
  exact put_isObject put

theorem known_of_isObject {config : Json} {serviceName : String} (h : (entry config serviceName).isObject = true) :
    (((config.find "services").getD .null).find serviceName).isSome = true := by
  rw [Option.isSome_iff_ne_none]
  intro none
  rw [entry, none] at h
  cases h

theorem assign_key_ok {config : Json} {serviceName : String} (h : (entry config serviceName).isObject = true)
    (key : String) (v : Json) : ∃ config', config.assign ["services", serviceName, key] v = .ok config' := by
  obtain ⟨e, found⟩ := Option.isSome_iff_exists.mp (known_of_isObject h)
  have services := isObject_of_find found
  have whole : config.isObject = true := by
    cases hservices : config.find "services" with
    | none =>
      rw [hservices] at services
      cases services
    | some s => exact isObject_of_find hservices
  obtain ⟨inner, hinner⟩ : ∃ inner, (entry config serviceName).assign [key] v = .ok inner := assign_ok h rfl
  obtain ⟨middle, hmiddle⟩ := assign_ok services hinner
  exact assign_ok whole hmiddle

theorem entry_assignAll {config config' : Json} {serviceName : String} {settings : List (String × Json)}
    (h : assignAll config serviceName settings = .ok config') (distinct : (settings.map Prod.fst).Nodup) (k : String) :
    (entry config' serviceName).find k = (settings.lookup k).or ((entry config serviceName).find k) := by
  induction settings generalizing config with
  | nil =>
    cases h
    rfl
  | cons s settings ih =>
    obtain ⟨key, v⟩ := s
    obtain ⟨fresh, distinct'⟩ := List.nodup_cons.mp distinct
    rw [assignAll, List.foldlM_cons] at h
    obtain ⟨next, assigned, rest⟩ := bind_ok h
    rw [ih rest distinct', entry_assign_key assigned]
    by_cases same : k = key
    · subst same
      -- no later assignment is to this key
      rw [lookup_eq_none fresh, if_pos rfl, List.lookup_cons_self]
      rfl
    · rw [lookup_cons_ne same, if_neg same]

theorem find_assignAll {config config' : Json} {serviceName k : String} {settings : List (String × Json)}
    (h : assignAll config serviceName settings = .ok config') (other : k ≠ "services") :
    config'.find k = config.find k := by
  induction settings generalizing config with
  | nil =>
    cases h
    rfl
  | cons s settings ih =>
    rw [assignAll, List.foldlM_cons] at h
    obtain ⟨next, assigned, rest⟩ := bind_ok h
    rw [ih rest, (entry_assign assigned).2 k other]

theorem isObject_assignAll {config config' : Json} {serviceName : String} {settings : List (String × Json)}
    (h : assignAll config serviceName settings = .ok config')
    (was : settings = [] → (entry config serviceName).isObject = true) :
    (entry config' serviceName).isObject = true := by
  induction settings generalizing config with
  | nil =>
    cases h
    exact was rfl
  | cons s settings ih =>
    rw [assignAll, List.foldlM_cons] at h
    obtain ⟨next, assigned, rest⟩ := bind_ok h
    exact ih rest (fun _ => isObject_assign_key assigned)

theorem assignAll_ok {config : Json} {serviceName : String} (h : (entry config serviceName).isObject = true)
    (settings : List (String × Json)) :
    ∃ config', assignAll config serviceName settings = .ok config' ∧ (entry config' serviceName).isObject = true := by
  induction settings generalizing config with
  | nil => exact ⟨config, rfl, h⟩
  | cons s settings ih =>
    obtain ⟨next, assigned⟩ := assign_key_ok h s.1 s.2
    obtain ⟨config', rest, isObject⟩ := ih (isObject_assign_key assigned)
    refine ⟨config', ?_, isObject⟩
    rw [assignAll, List.foldlM_cons, assigned]
    exact rest

theorem entry_insert {config config' : Json} {serviceName : String} {settings : List (String × Json)}
    (h : insert config serviceName (.object settings) = .ok config') :
    entry config' serviceName = .object settings ∧ ∀ k, k ≠ "services" → config'.find k = config.find k := by
  unfold insert at h
  split at h
  · obtain ⟨assigned, others⟩ := entry_assign h
    exact ⟨(Except.ok.inj assigned).symm, others⟩
  · cases h

theorem entry_unknown {config : Json} {serviceName : String}
    (unknown : ¬ (((config.find "services").getD .null).find serviceName).isSome = true) (k : String) :
    (entry config serviceName).find k = none := by
  rw [entry, Option.not_isSome_iff_eq_none.mp unknown]
  rfl

theorem entry_optional {config config' serviceConfig : Json} {serviceName key source : String}
    {setting : List (String × Json)} (found : optional serviceConfig key source = .ok setting)
    (h : assignAll config serviceName setting = .ok config') (k : String) :
    (entry config' serviceName).find k =
      if k = key ∧ (serviceConfig.find key).isSome then serviceConfig.find source
      else (entry config serviceName).find k := by
  unfold optional at found
  split at found
  next present =>
    obtain ⟨v, here, single⟩ := bind_ok found
    cases single
    rw [entry_assignAll h (by simp), at_ok here]
    by_cases same : k = key
    · subst same
      rw [if_pos ⟨rfl, present⟩, List.lookup_cons_self]
      rfl
    · rw [if_neg (fun both => same both.1), lookup_cons_ne same]
      rfl
  next absent =>
    cases found
    cases h
    rw [if_neg (fun both => absent both.2)]

/-! ### The two paths -/

/-- What a deployment leaves under a key. -/
def deployed (alreadyExists : Bool) (serviceConfig : Json) (settings : List (String × Json))
    (before : String → Option Json) (k : String) : Option Json :=
  if alreadyExists ∧ k = "extra_headers" ∧ (serviceConfig.find "extra_headers").isSome then serviceConfig.find "preload"
  else if k = "preload" ∧ (serviceConfig.find "preload").isSome then serviceConfig.find "preload"
  else if alreadyExists ∧ k = "acl" ∧ (serviceConfig.find "acl").isSome then serviceConfig.find "acl"
  else (settings.lookup k).or (before k)

theorem entry_deployReactive {config config' serviceConfig : Json} {serviceName : String}
    {settings : List (String × Json)} (distinct : (settings.map Prod.fst).Nodup)
    (h : deployReactive config serviceConfig serviceName
      (((config.find "services").getD .null).find serviceName).isSome settings = .ok config') (k : String) :
    (entry config' serviceName).find k =
      deployed (((config.find "services").getD .null).find serviceName).isSome serviceConfig settings
        (entry config serviceName).find k := by
  unfold deployReactive at h
  split at h
  next known =>
    obtain ⟨_, base, h⟩ := bind_ok h
    obtain ⟨_, acl, h⟩ := bind_ok h
    obtain ⟨_, aclSet, h⟩ := bind_ok h
    obtain ⟨_, preload, h⟩ := bind_ok h
    obtain ⟨_, preloadSet, h⟩ := bind_ok h
    obtain ⟨_, headers, headersSet⟩ := bind_ok h
    rw [entry_optional headers headersSet, entry_optional preload preloadSet, entry_optional acl aclSet,
      entry_assignAll base distinct, known]
    simp only [deployed, true_and]
  next unknown =>
    obtain ⟨_, inserted, h⟩ := bind_ok h
    obtain ⟨_, preload, preloadSet⟩ := bind_ok h
    rw [entry_optional preload preloadSet, (entry_insert inserted).1, Bool.eq_false_iff.mpr unknown]
    simp only [deployed, Bool.false_eq_true, false_and, if_false, entry_unknown unknown, Option.or_none]
    rfl

/-- The entry is an object from now on, and the rest of the configuration is as it was. -/
theorem deployReactive_keeps {config config' serviceConfig : Json} {serviceName : String} {alreadyExists : Bool}
    {settings : List (String × Json)} (nonempty : settings ≠ [])
    (h : deployReactive config serviceConfig serviceName alreadyExists settings = .ok config') :
    (entry config' serviceName).isObject = true ∧ ∀ k, k ≠ "services" → config'.find k = config.find k := by
  unfold deployReactive at h
  split at h
  · obtain ⟨_, base, h⟩ := bind_ok h
    obtain ⟨_, acl, h⟩ := bind_ok h
    obtain ⟨_, aclSet, h⟩ := bind_ok h
    obtain ⟨_, preload, h⟩ := bind_ok h
    obtain ⟨_, preloadSet, h⟩ := bind_ok h
    obtain ⟨_, headers, headersSet⟩ := bind_ok h
    have afterBase := isObject_assignAll base (fun none => absurd none nonempty)
    have afterAcl := isObject_assignAll aclSet (fun _ => afterBase)
    have afterPreload := isObject_assignAll preloadSet (fun _ => afterAcl)
    refine ⟨isObject_assignAll headersSet (fun _ => afterPreload), fun k other => ?_⟩
    rw [find_assignAll headersSet other, find_assignAll preloadSet other, find_assignAll aclSet other,
      find_assignAll base other]
  · obtain ⟨_, inserted, h⟩ := bind_ok h
    obtain ⟨_, preload, preloadSet⟩ := bind_ok h
    obtain ⟨here, others⟩ := entry_insert inserted
    refine ⟨isObject_assignAll preloadSet (fun _ => by rw [here]; rfl), fun k other => ?_⟩
    rw [find_assignAll preloadSet other, others k other]

theorem optional_ok (serviceConfig : Json) (key source : String)
    (h : (serviceConfig.find key).isSome → (serviceConfig.find source).isSome) :
    ∃ setting, optional serviceConfig key source = .ok setting := by
  unfold optional
  split
  next present =>
    obtain ⟨v, here⟩ := Option.isSome_iff_exists.mp (h present)
    exact ⟨[(key, v)], by rw [at_, here]; rfl⟩
  · exact ⟨[], rfl⟩

/-- The update of an entry succeeds, unless it has headers to set and no value for them. -/
theorem deployReactive_ok {config serviceConfig : Json} {serviceName : String} (settings : List (String × Json))
    (known : (entry config serviceName).isObject = true)
    (headers : (serviceConfig.find "extra_headers").isSome → (serviceConfig.find "preload").isSome) :
    ∃ config', deployReactive config serviceConfig serviceName true settings = .ok config' := by
  obtain ⟨_, base, known⟩ := assignAll_ok known settings
  obtain ⟨acl, hacl⟩ := optional_ok serviceConfig "acl" "acl" id
  obtain ⟨_, aclSet, known⟩ := assignAll_ok known acl
  obtain ⟨preload, hpreload⟩ := optional_ok serviceConfig "preload" "preload" id
  obtain ⟨_, preloadSet, known⟩ := assignAll_ok known preload
  obtain ⟨extraHeaders, hextraHeaders⟩ := optional_ok serviceConfig "extra_headers" "preload" headers
  obtain ⟨config', headersSet, _⟩ := assignAll_ok known extraHeaders
  refine ⟨config', ?_⟩
  simp only [deployReactive, if_true, base, hacl, aclSet, hpreload, preloadSet, hextraHeaders, bind, Except.bind]
  exact headersSet

theorem toBool_ok {serviceConfig : Json} {key : String} {b : Bool} (h : at_ serviceConfig key >>= toBool = .ok b) :
    serviceConfig.find key = some (.boolean b) := by
  obtain ⟨v, found, read⟩ := bind_ok h
  cases v <;> cases read
  exact at_ok found

theorem toText_ok {serviceConfig : Json} {key s : String} (h : at_ serviceConfig key >>= toText = .ok s) :
    serviceConfig.find key = some (.string s) := by
  obtain ⟨v, found, read⟩ := bind_ok h
  cases v <;> cases read
  exact at_ok found

theorem toSize_ok {size : SizeConversion} {serviceConfig : Json} {key : String} {n : Nat}
    (h : at_ serviceConfig key >>= toSize size = .ok n) :
    ∃ q, serviceConfig.find key = some (.number q) ∧ size.convert q = n := by
  obtain ⟨v, found, read⟩ := bind_ok h
  cases v <;> cases read
  exact ⟨_, at_ok found, rfl⟩

/-- The mandatory values of an archive that is deployed, with the numbers as `size_t` has them. -/
structure Archive (size : SizeConversion) (serviceConfig : Json) where
  autoStart : Bool
  instances : Rat
  target : String
  protocol : String
  maxInMsgSize : Rat
  standalone_eq : serviceConfig.find "standalone" = some (.boolean false)
  autoStart_eq : serviceConfig.find "auto_start" = some (.boolean autoStart)
  instances_eq : serviceConfig.find "instances" = some (.number instances)
  target_eq : serviceConfig.find "request_target" = some (.string target)
  protocol_eq : serviceConfig.find "protocol" = some (.string protocol)
  maxInMsgSize_eq : serviceConfig.find "max_inbound_message_size" = some (.number maxInMsgSize)

namespace Archive
variable {size : SizeConversion} {serviceConfig : Json}

def settings (a : Archive size serviceConfig) : List (String × Json) :=
  [("standalone", .boolean false), ("instances", .number (size.convert a.instances)),
    ("auto_start", .boolean a.autoStart), ("request_target", .string a.target), ("protocol", .string a.protocol),
    ("max_inbound_message_size", .number (size.convert a.maxInMsgSize))]

theorem settings_ne_nil (a : Archive size serviceConfig) : a.settings ≠ [] := List.cons_ne_nil _ _

theorem distinct (a : Archive size serviceConfig) : (a.settings.map Prod.fst).Nodup := by
  simp [settings]

end Archive

theorem deployService_ok {size : SizeConversion} {config config' serviceConfig : Json} {serviceName : String}
    (h : deployService size config serviceConfig = .ok config')
    (reactive : serviceConfig.find "standalone" = some (.boolean false))
    (named : serviceConfig.find "name" = some (.string serviceName)) :
    (∃ appDir, toText ((((config.find "directories").getD .null).find "applications").getD .null) = .ok appDir) ∧
      ∃ a : Archive size serviceConfig, deployReactive config serviceConfig serviceName
        (((config.find "services").getD .null).find serviceName).isSome a.settings = .ok config' := by
  obtain ⟨standalone, hstandalone, h⟩ := bind_ok h
  obtain ⟨autoStart, hautoStart, h⟩ := bind_ok h
  obtain ⟨instances, hinstances, h⟩ := bind_ok h
  obtain ⟨name, hname, h⟩ := bind_ok h
  obtain ⟨appDir, happDir, h⟩ := bind_ok h
  obtain rfl : name = serviceName := by simpa [toText_ok hname] using named
  obtain rfl : standalone = false := by simpa [toBool_ok hstandalone] using reactive
  rw [if_neg Bool.false_ne_true] at h
  obtain ⟨target, htarget, h⟩ := bind_ok h
  obtain ⟨protocol, hprotocol, h⟩ := bind_ok h
  obtain ⟨maxInMsgSize, hmax, h⟩ := bind_ok h
  obtain ⟨q, instances_eq, rfl⟩ := toSize_ok hinstances
  obtain ⟨m, max_eq, rfl⟩ := toSize_ok hmax
  exact ⟨⟨appDir, happDir⟩, ⟨autoStart, q, target, protocol, m, reactive, toBool_ok hautoStart, instances_eq,
    toText_ok htarget, toText_ok hprotocol, max_eq⟩, h⟩

theorem deployService_eq {size : SizeConversion} {config serviceConfig : Json} {serviceName appDir : String}
    (a : Archive size serviceConfig) (named : serviceConfig.find "name" = some (.string serviceName))
    (dir : toText ((((config.find "directories").getD .null).find "applications").getD .null) = .ok appDir) :
    deployService size config serviceConfig = deployReactive config serviceConfig serviceName
      (((config.find "services").getD .null).find serviceName).isSome a.settings := by
  simp only [deployService, at_, a.standalone_eq, a.autoStart_eq, a.instances_eq, a.target_eq, a.protocol_eq,
    a.maxInMsgSize_eq, named, Json.toBool, toSize, dir, bind, Except.bind]
  rfl

/-! ### What is stored -/

theorem fits_iff {s : SizeConversion} {serviceConfig : Json} {key : String} {q : Rat}
    (h : serviceConfig.find key = some (.number q)) : FitsSize serviceConfig key ↔ (s.convert q : Rat) = q := by
  constructor
  · rintro ⟨n, lt, here⟩
    have : q = n := by simpa [h] using here
    rw [this, s.exact_of_fits n lt]
  · intro same
    exact ⟨s.convert q, s.lt q, by rw [h, same]⟩

section
variable {size : SizeConversion} {serviceConfig : Json} (a : Archive size serviceConfig)
variable {alreadyExists : Bool} {before : String → Option Json}

theorem deployed_mandatory {k : String} {v : Json} (h : a.settings.lookup k = some v)
    (own : k ≠ "extra_headers" ∧ k ≠ "preload" ∧ k ≠ "acl") :
    deployed alreadyExists serviceConfig a.settings before k = some v := by
  simp [deployed, own, h]

theorem deployed_preload {v : Json} (h : serviceConfig.find "preload" = some v) :
    deployed alreadyExists serviceConfig a.settings before "preload" = some v := by
  simp [deployed, h]

theorem deployed_acl (unknown : alreadyExists = false → ∀ k, before k = none) {v : Json}
    (h : serviceConfig.find "acl" = some v) :
    deployed alreadyExists serviceConfig a.settings before "acl" = if alreadyExists then some v else none := by
  have absent : a.settings.lookup "acl" = none := rfl
  cases alreadyExists with
  | false => simp [deployed, absent, unknown]
  | true => simp [deployed, h]

theorem deployed_extraHeaders (unknown : alreadyExists = false → ∀ k, before k = none) {v : Json}
    (h : serviceConfig.find "extra_headers" = some v) :
    deployed alreadyExists serviceConfig a.settings before "extra_headers" =
      if alreadyExists then serviceConfig.find "preload" else none := by
  have absent : a.settings.lookup "extra_headers" = none := rfl
  cases alreadyExists with
  | false => simp [deployed, absent, unknown]
  | true => simp [deployed, h]

theorem optional_stored_iff (unknown : alreadyExists = false → ∀ k, before k = none) :
    ((∀ v, serviceConfig.find "acl" = some v →
        deployed alreadyExists serviceConfig a.settings before "acl" = some v) ∧
      ∀ v, serviceConfig.find "extra_headers" = some v →
        deployed alreadyExists serviceConfig a.settings before "extra_headers" = some v) ↔
    if alreadyExists then
      (serviceConfig.find "extra_headers").isSome → serviceConfig.find "extra_headers" = serviceConfig.find "preload"
    else serviceConfig.find "acl" = none ∧ serviceConfig.find "extra_headers" = none := by
  constructor
  · rintro ⟨acl, headers⟩
    split
    next known =>
      intro present
      obtain ⟨v, here⟩ := Option.isSome_iff_exists.mp present
      have stored := headers v here
      rw [deployed_extraHeaders a unknown here, if_pos known] at stored
      rw [here, stored]
    next new =>
      constructor
      · rw [Option.eq_none_iff_forall_ne_some]
        intro v here
        have stored := acl v here
        rw [deployed_acl a unknown here, if_neg new] at stored
        cases stored
      · rw [Option.eq_none_iff_forall_ne_some]
        intro v here
        have stored := headers v here
        rw [deployed_extraHeaders a unknown here, if_neg new] at stored
        cases stored
  · intro h
    split at h
    next known =>
      refine ⟨fun v here => by rw [deployed_acl a unknown here, if_pos known], fun v here => ?_⟩
      rw [deployed_extraHeaders a unknown here, if_pos known, ← h (by rw [here]; rfl), here]
    next =>
      obtain ⟨acl, headers⟩ := h
      refine ⟨fun v here => ?_, fun v here => ?_⟩
      · rw [acl] at here
        cases here
      · rw [headers] at here
        cases here

theorem stored_iff (unknown : alreadyExists = false → ∀ k, before k = none) {entry : Json}
    (h : ∀ k, entry.find k = deployed alreadyExists serviceConfig a.settings before k) :
    Stored serviceConfig entry ↔
      FitsSize serviceConfig "instances" ∧ FitsSize serviceConfig "max_inbound_message_size" ∧
        if alreadyExists then
          (serviceConfig.find "extra_headers").isSome → serviceConfig.find "extra_headers" = serviceConfig.find "preload"
        else serviceConfig.find "acl" = none ∧ serviceConfig.find "extra_headers" = none := by
  have instances : a.settings.lookup "instances" = some (.number (size.convert a.instances)) := rfl
  have maxInMsgSize :
      a.settings.lookup "max_inbound_message_size" = some (.number (size.convert a.maxInMsgSize)) := rfl
  rw [fits_iff (s := size) a.instances_eq, fits_iff (s := size) a.maxInMsgSize_eq, ← optional_stored_iff a unknown]
  constructor
  · intro stored
    have value : ∀ key ∈ keys, ∀ v, serviceConfig.find key = some v →
        deployed alreadyExists serviceConfig a.settings before key = some v :=
      fun key listed v here => (h key).symm.trans (stored key listed v here)
    have first := value "instances" (by decide) _ a.instances_eq
    rw [deployed_mandatory a instances (by decide)] at first
    have second := value "max_inbound_message_size" (by decide) _ a.maxInMsgSize_eq
    rw [deployed_mandatory a maxInMsgSize (by decide)] at second
    refine ⟨?_, ?_, value "acl" (by decide), value "extra_headers" (by decide)⟩
    · simpa using first
    · simpa using second
  · rintro ⟨first, second, acl, headers⟩ key listed v here
    rw [h]
    simp only [keys, List.mem_cons, List.not_mem_nil, or_false] at listed
    obtain rfl | rfl | rfl | rfl | rfl | rfl | rfl | rfl | rfl := listed
    · rw [← here, a.standalone_eq]
      exact deployed_mandatory a rfl (by decide)
    · rw [← here, a.instances_eq, ← first]
      exact deployed_mandatory a instances (by decide)
    · rw [← here, a.autoStart_eq]
      exact deployed_mandatory a rfl (by decide)
    · rw [← here, a.target_eq]
      exact deployed_mandatory a rfl (by decide)
    · rw [← here, a.protocol_eq]
      exact deployed_mandatory a rfl (by decide)
    · rw [← here, a.maxInMsgSize_eq, ← second]
      exact deployed_mandatory a maxInMsgSize (by decide)
    · exact acl v here
    · exact deployed_preload a here
    · exact headers v here

/-- A second deployment of the archive finds its own values. -/
theorem deployed_again
    (storable : alreadyExists = false → serviceConfig.find "acl" = none ∧ serviceConfig.find "extra_headers" = none)
    (k : String) :
    deployed true serviceConfig a.settings (deployed alreadyExists serviceConfig a.settings before) k =
      deployed alreadyExists serviceConfig a.settings before k := by
  have twice : (a.settings.lookup k).or ((a.settings.lookup k).or (before k)) = (a.settings.lookup k).or (before k) := by
    rw [← Option.or_assoc, Option.or_self]
  cases alreadyExists with
  | false =>
    obtain ⟨acl, headers⟩ := storable rfl
    unfold deployed
    simp only [acl, headers, Option.isSome_none, Bool.false_eq_true, and_false, if_false]
    split
    · rfl
    · exact twice
  | true =>
    unfold deployed
    split
    · rfl
    · split
      · rfl
      · split
        · rfl
        · exact twice

end

theorem headers_preload {config serviceConfig : Json} {serviceName : String}
    (h : Storable config serviceConfig serviceName) (present : (serviceConfig.find "extra_headers").isSome = true) :
    (serviceConfig.find "preload").isSome = true := by
  obtain ⟨_, _, optional⟩ := h
  split at optional
  · rw [← optional present]
    exact present
  · rw [optional.2] at present
    cases present

theorem deploys_archive_iff (size : SizeConversion) (config config' serviceConfig : Json) (serviceName : String)
    (h : deployService size config serviceConfig = .ok config')
    (reactive : serviceConfig.find "standalone" = some (.boolean false))
    (named : serviceConfig.find "name" = some (.string serviceName)) :
    (Stored serviceConfig (entry config' serviceName) ∧
      (∀ acl, serviceConfig.find "acl" = some acl →
        networkPolicy (entry config' serviceName) serviceName = networkPolicy serviceConfig serviceName) ∧
      ∃ config'', deployService size config' serviceConfig = .ok config'' ∧
        ∀ key, (entry config'' serviceName).find key = (entry config' serviceName).find key) ↔
      Storable config serviceConfig serviceName := by
  obtain ⟨⟨appDir, dir⟩, a, first⟩ := deployService_ok h reactive named
  have here := entry_deployReactive a.distinct first
  obtain ⟨isObject, others⟩ := deployReactive_keeps a.settings_ne_nil first
  have unknown : (((config.find "services").getD .null).find serviceName).isSome = false →
      ∀ k, (entry config serviceName).find k = none :=
    fun new => entry_unknown (Bool.eq_false_iff.mp new)
  have storable : Stored serviceConfig (entry config' serviceName) ↔ Storable config serviceConfig serviceName :=
    stored_iff a unknown here
  constructor
  · intro ⟨stored, _⟩
    exact storable.mp stored
  · intro condition
    have stored := storable.mpr condition
    have known := known_of_isObject isObject
    refine ⟨stored, fun acl present => ?_, ?_⟩
    · rw [networkPolicy, networkPolicy, stored "acl" (by decide) acl present, present]
    · obtain ⟨config'', second⟩ := deployReactive_ok a.settings isObject (headers_preload condition)
      refine ⟨config'', ?_, fun key => ?_⟩
      · rw [deployService_eq a named (by rw [others "directories" (by decide)]; exact dir), known, second]
      · rw [entry_deployReactive a.distinct (by rw [known]; exact second) key, known, funext here]
        refine deployed_again a (fun new => ?_) key
        have optional := condition.2.2
        rwa [new] at optional

/-- The conversion of a number that is an integer after truncation, modulo the size of the type. -/
def truncation : SizeConversion where
  convert q := (q.num.tdiv q.den % 2 ^ 64).toNat
  exact_of_fits n lt := by
    rw [Rat.num_natCast, Rat.den_natCast, Int.natCast_one, Int.tdiv_one]
    omega
  lt q := by omega

def echoConfig (services : List (String × Json)) : Json :=
  .object [("directories", .object [("applications", .string "apps")]), ("services", .object services)]

def echoArchive (optionals : List (String × Json)) : Json :=
  .object ([("name", .string "echo"), ("standalone", .boolean false), ("auto_start", .boolean true),
    ("instances", .number 2), ("request_target", .string "/echo"), ("protocol", .string "raw"),
    ("max_inbound_message_size", .number 300000)] ++ optionals)

def denyAll : Json := .object [("policy", .string "deny"), ("exclude", .array [])]

theorem echo_storable {optionals : List (String × Json)} :
    FitsSize (echoArchive optionals) "instances" ∧ FitsSize (echoArchive optionals) "max_inbound_message_size" :=
  ⟨⟨2, by decide, rfl⟩, ⟨300000, by decide, rfl⟩⟩

theorem deploys_known_service : ∃ config',
    deployService truncation (echoConfig [("echo", .object [])]) (echoArchive [("acl", denyAll)]) = .ok config' ∧
      Stored (echoArchive [("acl", denyAll)]) (entry config' "echo") := by
  refine ⟨_, rfl, ((deploys_archive_iff truncation (echoConfig [("echo", .object [])]) _ _ "echo" rfl rfl rfl).mpr ?_).1⟩
  exact ⟨echo_storable.1, echo_storable.2, fun present => by cases present⟩

/-- A new service does not get its access list, and a known one gets the preloads for headers. -/
theorem deploys_archive_counterexample :
    (∃ config', deployService truncation (echoConfig []) (echoArchive [("acl", denyAll)]) = .ok config' ∧
      networkPolicy (echoArchive [("acl", denyAll)]) "echo" = .ok (.deny, .array []) ∧
      networkPolicy (entry config' "echo") "echo" = .ok (.allow, .array [])) ∧
    ∃ config', deployService truncation (echoConfig [("echo", .object [])])
        (echoArchive [("preload", .array []), ("extra_headers", .object [])]) = .ok config' ∧
      (entry config' "echo").find "extra_headers" = some (.array []) :=
  ⟨⟨_, rfl, rfl, rfl⟩, ⟨_, rfl, rfl⟩⟩

end LAppS.Deployer
