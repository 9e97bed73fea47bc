import Mathlib.Data.List.AList
import Mathlib.Data.List.TakeWhile

/-!
# The environment

`environment::LAppSEnv` keeps a map of variables in front of the environment of the process. The map is filled from
defaults, from the process and by `setEnv`; a name that it has is never looked up in the process again.
-/

namespace LAppS

/-- What a pointer to characters denotes: a text without the NUL that ends it. -/
def CString : Type := { s : String // '\x00' ∉ s.toList }

namespace CString

instance : DecidableEq CString := inferInstanceAs (DecidableEq { s : String // '\x00' ∉ s.toList })

def text (c : CString) : String := c.val

instance : Coe CString String := ⟨text⟩

def cut (s : String) : String := String.ofList (s.toList.takeWhile (· ≠ '\x00'))

theorem nul_notMem_cut (s : String) : '\x00' ∉ (cut s).toList := by
  intro nul
  rw [cut, String.toList_ofList] at nul
  simpa using List.mem_takeWhile_imp nul

/-- `c_str()`, read up to the first NUL. -/
def ofString (s : String) : CString := ⟨cut s, nul_notMem_cut s⟩

theorem cut_of_plain {s : String} (plain : '\x00' ∉ s.toList) : cut s = s := by
  have whole : s.toList.takeWhile (· ≠ '\x00') = s.toList := by
    rw [List.takeWhile_eq_self_iff]
    intro c hc
    simpa using ne_of_mem_of_not_mem hc plain
  rw [cut, whole, String.ofList_toList]

end CString

/-- The environment of the process. `secure` is set for a program that runs with privileges of its own. -/
structure Process where
  environ : AList fun _ : CString => CString
  secure : Bool

namespace Process

def secureGetenv (p : Process) (name : CString) : Option CString :=
  if p.secure then none else p.environ.lookup name

/-- `setenv` that overwrites. It refuses a name that is empty or has a `=`. -/
def setenv (p : Process) (name value : CString) : Process :=
  if (name : String) = "" ∨ '=' ∈ (name : String).toList then p
  else { p with environ := p.environ.insert name value }

end Process

structure LAppSEnv where
  config : AList fun _ : String => String

namespace LAppSEnv

def preset : List (String × String) :=
  [("LAPPS_HOME", "/opt/lapps"), ("LAPPS_CONF_DIR", "/opt/lapps/etc/conf"), ("WS_CONFIG", "ws.json"),
    ("LAPPS_CONFIG", "lapps.json"), ("LUA_PATH", "")]

def getEnv (p : Process) (var : String) : Option CString := p.secureGetenv (.ofString var)

/-- The loop of the constructor. -/
def load (p : Process) (config : AList fun _ : String => String) (names : List String) :
    AList fun _ : String => String :=
  names.foldl
    (fun config name =>
      match getEnv p name with
      | some value => config.insert name value
      | none => config)
    config

def new (p : Process) : LAppSEnv where
  config := load p (preset.foldl (fun config var => config.insert var.1 var.2) ∅) (preset.map Prod.fst)

/-- `emplace` leaves the value of a name that the map has. -/
def emplace (env : LAppSEnv) (name value : String) : LAppSEnv :=
  if name ∈ env.config then env else ⟨env.config.insert name value⟩

def setEnv (env : LAppSEnv) (p : Process) (name value : String) : LAppSEnv × Process :=
  (env.emplace name value, p.setenv (.ofString name) (.ofString value))

/-- `operator[]`. -/
def read (env : LAppSEnv) (p : Process) (var : String) : String × LAppSEnv :=
  match env.config.lookup var with
  | some value => (value, env)
  | none =>
    let env : LAppSEnv :=
      match getEnv p var with
      | none => env.emplace var ""
      | some value => env.emplace var value
    ((env.config.lookup var).getD "", env)

theorem read_cached {env : LAppSEnv} {p : Process} {var value : String} (cached : env.config.lookup var = some value) :
    env.read p var = (value, env) := by
  simp only [read, cached]

theorem setEnv_cached {env : LAppSEnv} {p : Process} {name value old : String}
    (cached : env.config.lookup name = some old) :
    env.setEnv p name value = (env, p.setenv (.ofString name) (.ofString value)) := by
  have known : name ∈ env.config := AList.lookup_isSome.mp (by simp [cached])
  simp only [setEnv, emplace, if_pos known]

theorem lookup_load (p : Process) (config : AList fun _ : String => String) (names : List String) (name : String) :
    (load p config names).lookup name =
      if name ∈ names then ((getEnv p name).map CString.text).or (config.lookup name) else config.lookup name := by
  unfold load
  induction names generalizing config with
  | nil => rfl
  | cons first names ih =>
    rw [List.foldl_cons, ih]
    by_cases same : name = first
    · subst same
      cases given : getEnv p name <;> simp
    · have kept : (match getEnv p first with
          | some value => config.insert first value
          | none => config).lookup name = config.lookup name := by
        cases getEnv p first with
        | none => rfl
        | some value => exact AList.lookup_insert_ne same
      simp only [kept, List.mem_cons, same, false_or]

/-- What `secure_getenv` gives for a variable, or else its default. -/
def initially (p : Process) (var : String × String) : String := ((getEnv p var.1).map CString.text).getD var.2

theorem lookup_new (p : Process) {var : String × String} (known : var ∈ preset) :
    (new p).config.lookup var.1 = some (initially p var) := by
  have default : (preset.foldl (fun config var => config.insert var.1 var.2)
      (∅ : AList fun _ : String => String)).lookup var.1 = some var.2 := by
    revert var
    decide
  rw [new, lookup_load, if_pos (List.mem_map_of_mem known), default, initially]
  cases getEnv p var.1 <;> rfl

theorem nul_notMem_initially (p : Process) {var : String × String} (plain : '\x00' ∉ var.2.toList) :
    '\x00' ∉ (initially p var).toList := by
  unfold initially
  cases getEnv p var.1 with
  | none => exact plain
  | some value => exact value.property

end LAppSEnv

end LAppS
