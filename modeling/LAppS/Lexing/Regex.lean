import Mathlib.Computability.Language

/-!
# Regular expressions over ranges of characters

The languages of the expressions, and the longest match by derivatives. The derivatives are built with constructors that
drop what matches nothing and what is there already, so that they stay small.
-/

inductive Regex (α : Type) where
  | zero
  | epsilon
  /-- One character from one of the ranges. -/
  | ranges (rs : List (α × α))
  | plus (p q : Regex α)
  | comp (p q : Regex α)
  | star (p : Regex α)
  deriving DecidableEq

namespace Regex

variable {α : Type}

theorem cons_mem_mul {l m : Language α} {a : α} {w : List α} :
    a :: w ∈ l * m ↔ (∃ x y, w = x ++ y ∧ a :: x ∈ l ∧ y ∈ m) ∨ [] ∈ l ∧ a :: w ∈ m := by
  rw [Language.mem_mul]
  constructor
  · rintro ⟨x, hx, y, hy, h⟩
    cases x with
    | nil => exact .inr ⟨hx, by rwa [← h]⟩
    | cons b x =>
      obtain ⟨rfl, rfl⟩ := List.cons.inj h
      exact .inl ⟨x, y, rfl, hx, hy⟩
  · rintro (⟨x, y, rfl, hx, hy⟩ | ⟨hl, hm⟩)
    · exact ⟨a :: x, hx, y, hy, rfl⟩
    · exact ⟨[], hl, a :: w, hm, rfl⟩

open Computability in
theorem cons_mem_kstar {l : Language α} {a : α} {w : List α} :
    a :: w ∈ l∗ ↔ ∃ x y, w = x ++ y ∧ a :: x ∈ l ∧ y ∈ l∗ := by
  constructor
  · intro h
    obtain ⟨parts, eq, hparts⟩ := Language.mem_kstar_iff_exists_nonempty.mp h
    cases parts with
    | nil => cases eq
    | cons part parts =>
      obtain ⟨hpart, nonempty⟩ := hparts part List.mem_cons_self
      obtain ⟨b, x, rfl⟩ := List.exists_cons_of_ne_nil nonempty
      obtain ⟨rfl, rfl⟩ := List.cons.inj eq
      exact ⟨x, parts.flatten, rfl, hpart,
        Language.join_mem_kstar fun y hy => (hparts y (List.mem_cons_of_mem _ hy)).1⟩
  · rintro ⟨x, y, rfl, hx, hy⟩
    rw [← Language.one_add_self_mul_kstar_eq_kstar]
    exact .inr (Language.append_mem_mul hx hy)

def char (a : α) : Regex α := ranges [(a, a)]

def string (s : List α) : Regex α := s.foldr (fun a r => comp (char a) r) epsilon

def sum (ps : List (Regex α)) : Regex α := ps.foldr plus zero

def prod (ps : List (Regex α)) : Regex α := ps.foldr comp epsilon

def opt (p : Regex α) : Regex α := plus p epsilon

def many1 (p : Regex α) : Regex α := comp p (star p)

def times (n : Nat) (p : Regex α) : Regex α := prod (List.replicate n p)

/-- At most `n` times. -/
def atMost : Nat → Regex α → Regex α
  | 0, _ => epsilon
  | n + 1, p => opt (comp p (atMost n p))

variable [LE α] [DecidableLE α]

def inRanges (rs : List (α × α)) (a : α) : Bool := rs.any fun r => r.1 ≤ a && a ≤ r.2

open Computability in
def lang : Regex α → Language α
  | zero => 0
  | epsilon => 1
  | ranges rs => { w | ∃ a, inRanges rs a = true ∧ w = [a] }
  | plus p q => p.lang + q.lang
  | comp p q => p.lang * q.lang
  | star p => p.lang∗

/-! ### The characters of a language -/

/-- Whether a character occurs in the expression. -/
def uses (a : α) : Regex α → Bool
  | zero | epsilon => false
  | ranges rs => inRanges rs a
  | plus p q | comp p q => p.uses a || q.uses a
  | star p => p.uses a

theorem uses_of_mem {r : Regex α} {w : List α} (h : w ∈ r.lang) {a : α} (ha : a ∈ w) : r.uses a = true := by
  induction r generalizing w with
  | zero => cases h
  | epsilon =>
    obtain rfl := (Language.mem_one w).mp h
    cases ha
  | ranges rs =>
    obtain ⟨b, inside, rfl⟩ := h
    rwa [List.mem_singleton.mp ha]
  | plus p q ihp ihq =>
    rw [uses, Bool.or_eq_true]
    rcases h with h | h
    · exact .inl (ihp h ha)
    · exact .inr (ihq h ha)
  | comp p q ihp ihq =>
    rw [uses, Bool.or_eq_true]
    obtain ⟨x, hx, y, hy, rfl⟩ := Language.mem_mul.mp h
    rcases List.mem_append.mp ha with ha | ha
    · exact .inl (ihp hx ha)
    · exact .inr (ihq hy ha)
  | star p ih =>
    obtain ⟨parts, rfl, hparts⟩ := Language.mem_kstar.mp h
    obtain ⟨part, hpart, ha⟩ := List.mem_flatten.mp ha
    exact ih (hparts part hpart) ha

/-! ### Derivatives -/

def nullable : Regex α → Bool
  | zero | ranges _ => false
  | epsilon | star _ => true
  | plus p q => p.nullable || q.nullable
  | comp p q => p.nullable && q.nullable

theorem nullable_iff {r : Regex α} : r.nullable = true ↔ [] ∈ r.lang := by
  induction r with
  | zero => simp [nullable, lang]
  | epsilon => simp [nullable, lang]
  | ranges rs =>
    simp only [nullable, lang, Bool.false_eq_true, false_iff]
    rintro ⟨a, _, h⟩
    cases h
  | plus p q ihp ihq => simp [nullable, lang, Language.mem_add, ihp, ihq]
  | comp p q ihp ihq =>
    simp only [nullable, lang, Bool.and_eq_true, ihp, ihq, Language.mem_mul]
    constructor
    · rintro ⟨hp, hq⟩
      exact ⟨[], hp, [], hq, rfl⟩
    · rintro ⟨x, hx, y, hy, h⟩
      obtain ⟨rfl, rfl⟩ := List.append_eq_nil_iff.mp h
      exact ⟨hx, hy⟩
  | star p => simp [nullable, lang, Language.nil_mem_kstar]

def cat : Regex α → Regex α → Regex α
  | zero, _ => zero
  | epsilon, q => q
  | p, q => comp p q

theorem lang_cat (p q : Regex α) : (cat p q).lang = p.lang * q.lang := by
  unfold cat
  split
  · rw [lang, zero_mul]
  · rw [lang, one_mul]
  · rfl

variable [DecidableEq α]

/-- Whether `p` is one of the alternatives of the second expression. -/
def isAlternative (p : Regex α) : Regex α → Bool
  | plus q r => p = q || isAlternative p r
  | q => p = q

/-- An alternative, unless it is there already. -/
def alt : Regex α → Regex α → Regex α
  | zero, q => q
  | plus p p', q => alt p (alt p' q)
  | p, zero => p
  | p, q => if isAlternative p q then q else plus p q

def deriv (a : α) : Regex α → Regex α
  | zero | epsilon => zero
  | ranges rs => if inRanges rs a then epsilon else zero
  | plus p q => alt (p.deriv a) (q.deriv a)
  | comp p q => if p.nullable then alt (cat (p.deriv a) q) (q.deriv a) else cat (p.deriv a) q
  | star p => cat (p.deriv a) (star p)

/-- The length of the longest match at the beginning of the input. -/
def longest : Regex α → List α → Option Nat
  | r, [] => if r.nullable then some 0 else none
  | r, a :: s =>
    match longest (r.deriv a) s with
    | some n => some (n + 1)
    | none => if r.nullable then some 0 else none

theorem mem_of_isAlternative {p q : Regex α} (h : isAlternative p q = true) {w : List α} (hw : w ∈ p.lang) :
    w ∈ q.lang := by
  induction q with
  | plus q r _ ih =>
    simp only [isAlternative, Bool.or_eq_true, decide_eq_true_eq] at h
    rcases h with rfl | h
    · exact .inl hw
    · exact .inr (ih h)
  | _ =>
    simp only [isAlternative, decide_eq_true_eq] at h
    rwa [← h]

theorem lang_alt (p q : Regex α) : (alt p q).lang = p.lang + q.lang := by
  fun_induction alt p q with
  | case1 q => rw [lang, zero_add]
  | case2 p p' q ih ih' => rw [ih', ih, lang, add_assoc]
  | case3 p => rw [show (zero : Regex α).lang = 0 from rfl, add_zero]
  | case4 p q _ _ _ known =>
    refine Language.ext fun w => ⟨.inr, ?_⟩
    rintro (hp | hq)
    · exact mem_of_isAlternative known hp
    · exact hq
  | case5 p q => rfl

theorem mem_deriv {r : Regex α} {a : α} {w : List α} : w ∈ (r.deriv a).lang ↔ a :: w ∈ r.lang := by
  induction r generalizing w with
  | zero => rfl
  | epsilon =>
    show w ∈ (0 : Language α) ↔ a :: w ∈ (1 : Language α)
    simp
  | ranges rs =>
    rw [deriv]
    split
    next inside =>
      constructor
      · rintro rfl
        exact ⟨a, inside, rfl⟩
      · rintro ⟨b, _, h⟩
        exact (List.cons.inj h).2
    next outside =>
      refine iff_of_false (Language.notMem_zero w) ?_
      rintro ⟨b, inside, h⟩
      obtain ⟨rfl, _⟩ := List.cons.inj h
      exact outside inside
  | plus p q ihp ihq => rw [deriv, lang_alt, lang, Language.mem_add, Language.mem_add, ihp, ihq]
  | comp p q ihp ihq =>
    have first : w ∈ (cat (p.deriv a) q).lang ↔ ∃ x y, w = x ++ y ∧ a :: x ∈ p.lang ∧ y ∈ q.lang := by
      rw [lang_cat, Language.mem_mul]
      constructor
      · rintro ⟨x, hx, y, hy, rfl⟩
        exact ⟨x, y, rfl, ihp.mp hx, hy⟩
      · rintro ⟨x, y, rfl, hx, hy⟩
        exact ⟨x, ihp.mpr hx, y, hy, rfl⟩
    rw [lang, cons_mem_mul, deriv]
    split
    next empty => rw [lang_alt, Language.mem_add, first, ihq, and_iff_right (nullable_iff.mp empty)]
    next nonempty => rw [first, or_iff_left fun h => nonempty (nullable_iff.mpr h.1)]
  | star p ih =>
    rw [deriv, lang_cat, lang, cons_mem_kstar, Language.mem_mul]
    constructor
    · rintro ⟨x, hx, y, hy, rfl⟩
      exact ⟨x, y, rfl, ih.mp hx, hy⟩
    · rintro ⟨x, y, rfl, hx, hy⟩
      exact ⟨x, ih.mpr hx, y, hy, rfl⟩

/-! ### Longest matches -/

/-- `w` is the longest match before `rest`. -/
structure Longest (r : Regex α) (w rest : List α) : Prop where
  mem : w ∈ r.lang
  longest : ∀ x y, w ++ rest = x ++ y → x ∈ r.lang → x.length ≤ w.length

theorem longest_eq_none_iff {r : Regex α} {s : List α} : r.longest s = none ↔ ∀ x y, s = x ++ y → x ∉ r.lang := by
  induction s generalizing r with
  | nil =>
    rw [longest]
    constructor
    · intro h x y eq hx
      obtain ⟨rfl, _⟩ := List.append_eq_nil_iff.mp eq.symm
      rw [if_pos (nullable_iff.mpr hx)] at h
      cases h
    · intro h
      rw [if_neg fun empty => h [] [] rfl (nullable_iff.mp empty)]
  | cons a s ih =>
    rw [longest]
    constructor
    · intro h x y eq hx
      cases later : longest (r.deriv a) s with
      | some n => rw [later] at h; cases h
      | none =>
        rw [later] at h
        cases x with
        | nil =>
          simp only [if_pos (nullable_iff.mpr hx)] at h
          cases h
        | cons b x =>
          obtain ⟨rfl, rfl⟩ := List.cons.inj eq
          exact ih.mp later x y rfl (mem_deriv.mpr hx)
    · intro h
      have later : longest (r.deriv a) s = none := ih.mpr fun x y eq hx => h (a :: x) y (by rw [eq]; rfl) (mem_deriv.mp hx)
      rw [later]
      exact if_neg fun empty => h [] (a :: s) rfl (nullable_iff.mp empty)

theorem longest_spec {r : Regex α} {s : List α} {n : Nat} (h : r.longest s = some n) :
    ∃ w rest, s = w ++ rest ∧ w.length = n ∧ Longest r w rest := by
  induction s generalizing r n with
  | nil =>
    rw [longest] at h
    split at h
    next empty =>
      cases h
      refine ⟨[], [], rfl, rfl, nullable_iff.mp empty, ?_⟩
      intro x y eq _
      rw [(List.append_eq_nil_iff.mp eq.symm).1]
    · cases h
  | cons a s ih =>
    rw [longest] at h
    split at h
    next n' later =>
      cases h
      obtain ⟨w, rest, rfl, rfl, mem, longest⟩ := ih later
      refine ⟨a :: w, rest, rfl, rfl, mem_deriv.mp mem, ?_⟩
      intro x y eq hx
      cases x with
      | nil => exact Nat.zero_le _
      | cons b x =>
        obtain ⟨rfl, eq'⟩ := List.cons.inj eq
        exact Nat.succ_le_succ (longest x y eq' (mem_deriv.mpr hx))
    next later =>
      split at h
      next empty =>
        cases h
        refine ⟨[], a :: s, rfl, rfl, nullable_iff.mp empty, ?_⟩
        intro x y eq hx
        cases x with
        | nil => exact Nat.le_refl _
        | cons b x =>
          obtain ⟨rfl, eq'⟩ := List.cons.inj eq
          exact absurd (mem_deriv.mpr hx) (longest_eq_none_iff.mp later x y eq')
      · cases h

end Regex
