import Mathlib.Data.List.Induction
import Mathlib.Logic.Relation

/-!
Runs of a transition system. An action that is not enabled in a state ends the run there.
-/

namespace Transition

variable {σ α : Type*}

/-- `P` holds in every state that a run of these actions gets to. -/
def Always (step : σ → α → Option σ) (P : σ → Prop) : σ → List α → Prop
  | s, [] => P s
  | s, a :: as => P s ∧ ∀ s', step s a = some s' → Always step P s' as

/-- Every step of the run is taken in a state that allows it. -/
def Keeps (step : σ → α → Option σ) (allowed : σ → α → Prop) : σ → List α → Prop
  | _, [] => True
  | s, a :: as => ∀ s', step s a = some s' → allowed s a ∧ Keeps step allowed s' as

instance decidableKeeps (step : σ → α → Option σ) (allowed : σ → α → Prop) [∀ s a, Decidable (allowed s a)] :
    ∀ s as, Decidable (Keeps step allowed s as)
  | _, [] => inferInstanceAs (Decidable True)
  | s, a :: as =>
    have := fun s' => decidableKeeps step allowed s' as
    inferInstanceAs (Decidable (∀ s' ∈ step s a, allowed s a ∧ Keeps step allowed s' as))

/-- `R` relates the states before and after every step of the run. -/
def Steps (step : σ → α → Option σ) (R : σ → α → σ → Prop) : σ → List α → Prop
  | _, [] => True
  | s, a :: as => ∀ s', step s a = some s' → R s a s' ∧ Steps step R s' as

/-- Some run gets from one state to the other. -/
def Reaches (step : σ → α → Option σ) : σ → σ → Prop := Relation.ReflTransGen fun s s' => ∃ a, step s a = some s'

section Rules

variable {step : σ → α → Option σ} {P Q : σ → Prop} {allowed : σ → α → Prop} {s : σ} {as : List α}

theorem Always.here (h : Always step P s as) : P s := by
  cases as with
  | nil => exact h
  | cons a as => exact h.1

theorem Always.last {s' : σ} (h : Always step P s as) (run : as.foldlM step s = some s') : P s' := by
  induction as generalizing s with
  | nil =>
    obtain rfl : s = s' := by simpa using run
    exact h
  | cons a as ih =>
    rw [List.foldlM_cons, Option.bind_eq_bind, Option.bind_eq_some_iff] at run
    obtain ⟨next, hnext, rest⟩ := run
    exact ih (h.2 next hnext) rest

theorem Always.mono (h : Always step P s as) (imp : ∀ s, P s → Q s) : Always step Q s as := by
  induction as generalizing s with
  | nil => exact imp s h
  | cons a as ih => exact ⟨imp s h.1, fun s' hs' => ih (h.2 s' hs')⟩

theorem Keeps.mono {allowed' : σ → α → Prop} (h : Keeps step allowed s as) (imp : ∀ s a, allowed s a → allowed' s a) :
    Keeps step allowed' s as := by
  induction as generalizing s with
  | nil => trivial
  | cons a as ih =>
    intro s' hs'
    obtain ⟨ok, rest⟩ := h s' hs'
    exact ⟨imp s a ok, ih rest⟩

/-- What every allowed step keeps holds along the run. -/
theorem always_of_keeps (start : P s) (keep : ∀ s a s', P s → allowed s a → step s a = some s' → P s')
    (keeps : Keeps step allowed s as) : Always step P s as := by
  induction as generalizing s with
  | nil => exact start
  | cons a as ih =>
    refine ⟨start, fun s' hs' => ?_⟩
    obtain ⟨ok, rest⟩ := keeps s' hs'
    exact ih (keep s a s' start ok hs') rest

theorem always_of_step (start : P s) (keep : ∀ s a s', P s → step s a = some s' → P s') : Always step P s as := by
  induction as generalizing s with
  | nil => exact start
  | cons a as ih => exact ⟨start, fun s' hs' => ih (keep s a s' start hs')⟩

/-- Where a step keeps `P` exactly when it is allowed, a run does; `I` holds along every run. -/
theorem always_iff_keeps_of_invariant {I : σ → Prop} (invariant : I s) (keep : ∀ s a s', I s → step s a = some s' → I s')
    (start : P s) (exact_ : ∀ s a s', I s → P s → step s a = some s' → (P s' ↔ allowed s a)) :
    Always step P s as ↔ Keeps step allowed s as := by
  induction as generalizing s with
  | nil => exact iff_of_true start trivial
  | cons a as ih =>
    constructor
    · intro always s' hs'
      have next := always.2 s' hs'
      exact ⟨(exact_ s a s' invariant start hs').mp next.here, (ih (keep s a s' invariant hs') next.here).mp next⟩
    · intro keeps
      refine ⟨start, fun s' hs' => ?_⟩
      obtain ⟨ok, rest⟩ := keeps s' hs'
      exact (ih (keep s a s' invariant hs') ((exact_ s a s' invariant start hs').mpr ok)).mpr rest

theorem always_iff_keeps (start : P s) (exact_ : ∀ s a s', P s → step s a = some s' → (P s' ↔ allowed s a)) :
    Always step P s as ↔ Keeps step allowed s as :=
  always_iff_keeps_of_invariant (I := fun _ => True) trivial (fun _ _ _ _ _ => trivial) start
    fun s a s' _ => exact_ s a s'

/-- Where a step is as `R` says exactly when it is allowed, the steps of a run are; `I` holds as long as they are. -/
theorem steps_iff_keeps {I : σ → Prop} {R : σ → α → σ → Prop} (invariant : I s)
    (keep : ∀ s a s', I s → step s a = some s' → R s a s' → I s')
    (exact_ : ∀ s a s', I s → step s a = some s' → (R s a s' ↔ allowed s a)) :
    Steps step R s as ↔ Keeps step allowed s as := by
  induction as generalizing s with
  | nil => exact Iff.rfl
  | cons a as ih =>
    constructor
    · intro steps s' hs'
      obtain ⟨related, rest⟩ := steps s' hs'
      exact ⟨(exact_ s a s' invariant hs').mp related, (ih (keep s a s' invariant hs' related)).mp rest⟩
    · intro keeps s' hs'
      obtain ⟨ok, rest⟩ := keeps s' hs'
      have related := (exact_ s a s' invariant hs').mpr ok
      exact ⟨related, (ih (keep s a s' invariant hs' related)).mpr rest⟩

/-- What every step keeps, of the actions so far and of the state, holds after every run. -/
theorem run_induction {P : List α → σ → Prop} (start : P [] s)
    (keep : ∀ before s a s', P before s → step s a = some s' → P (before ++ [a]) s') {s' : σ}
    (run : as.foldlM step s = some s') : P as s' := by
  induction as using List.reverseRecOn generalizing s' with
  | nil =>
    obtain rfl : s = s' := by simpa using run
    exact start
  | append_singleton as a ih =>
    rw [List.foldlM_append, Option.bind_eq_bind, Option.bind_eq_some_iff] at run
    obtain ⟨t, before, last⟩ := run
    rw [List.foldlM_cons, Option.bind_eq_bind, Option.bind_eq_some_iff] at last
    obtain ⟨u, taken, done⟩ := last
    obtain rfl : u = s' := by simpa using done
    exact keep as t a u (ih before) taken

theorem Reaches.of_run {s' : σ} (as : List α) (run : as.foldlM step s = some s') : Reaches step s s' := by
  induction as generalizing s with
  | nil =>
    obtain rfl : s = s' := by simpa using run
    exact .refl
  | cons a as ih =>
    rw [List.foldlM_cons, Option.bind_eq_bind, Option.bind_eq_some_iff] at run
    obtain ⟨next, taken, rest⟩ := run
    exact .head ⟨a, taken⟩ (ih rest)

/-- What every step keeps holds in every state that is reached. -/
theorem Reaches.keeps {s' : σ} (h : Reaches step s s') (keep : ∀ s a s', P s → step s a = some s' → P s') (start : P s) : P s' := by
  induction h with
  | refl => exact start
  | tail _ taken ih =>
    obtain ⟨a, taken⟩ := taken
    exact keep _ a _ ih taken

/-- A measure that goes down until `Q` holds shows that `Q` is reached. -/
theorem reaches_of_measure (μ : σ → Nat) (progress : ∀ s, P s → ∃ s', Reaches step s s' ∧ (Q s' ∨ (P s' ∧ μ s' < μ s))) (start : P s) :
    ∃ s', Reaches step s s' ∧ Q s' := by
  induction n : μ s using Nat.strongRecOn generalizing s with
  | ind n ih =>
    obtain ⟨t, reaches, done | ⟨next, less⟩⟩ := progress s start
    · exact ⟨t, reaches, done⟩
    · obtain ⟨s', later, done⟩ := ih (μ t) (n ▸ less) next rfl
      exact ⟨s', reaches.trans later, done⟩

end Rules

end Transition
