import Mathlib.Data.Nat.Bitwise
import Mathlib.Data.Nat.Log

/-!
# Binary floating-point formats

What the bits of a format stand for. A magnitude is counted in units of 2^-1074, the smallest one of `binary64`, so that
the magnitudes of the narrower formats are whole numbers too.
-/

namespace Ieee754

inductive Datum where
  | finite (negative : Bool) (units : Nat)
  | infinite (negative : Bool)
  | nan
  deriving DecidableEq

structure Format where
  exponentBits : Nat
  fractionBits : Nat

def binary16 : Format := ⟨5, 10⟩

def binary32 : Format := ⟨8, 23⟩

def binary64 : Format := ⟨11, 52⟩

namespace Format

def negative (F : Format) (bits : Nat) : Bool := bits / 2 ^ (F.exponentBits + F.fractionBits) % 2 == 1

def exponent (F : Format) (bits : Nat) : Nat := bits / 2 ^ F.fractionBits % 2 ^ F.exponentBits

def fraction (F : Format) (bits : Nat) : Nat := bits % 2 ^ F.fractionBits

/-- The scale of the smallest numbers, over that of the units. -/
def shift (F : Format) : Nat := 1076 - 2 ^ (F.exponentBits - 1) - F.fractionBits

def datum (F : Format) (bits : Nat) : Datum :=
  if F.exponent bits = 2 ^ F.exponentBits - 1 then
    if F.fraction bits = 0 then .infinite (F.negative bits) else .nan
  else if F.exponent bits = 0 then .finite (F.negative bits) (F.fraction bits * 2 ^ F.shift)
  else .finite (F.negative bits) ((2 ^ F.fractionBits + F.fraction bits) * 2 ^ (F.shift + F.exponent bits - 1))

/-- The bits of a number, from its fields. -/
def pack (F : Format) (negative : Bool) (exponent fraction : Nat) : Nat :=
  negative.toNat * 2 ^ (F.exponentBits + F.fractionBits) + exponent * 2 ^ F.fractionBits + fraction

section Fields

variable (F : Format) (sign : Bool) {e f : Nat} (he : e < 2 ^ F.exponentBits) (hf : f < 2 ^ F.fractionBits)
include he hf

theorem pack_lt : e * 2 ^ F.fractionBits + f < 2 ^ (F.exponentBits + F.fractionBits) := by
  rw [Nat.pow_add]
  calc e * 2 ^ F.fractionBits + f < e * 2 ^ F.fractionBits + 2 ^ F.fractionBits := Nat.add_lt_add_left hf _
    _ = (e + 1) * 2 ^ F.fractionBits := (Nat.succ_mul _ _).symm
    _ ≤ 2 ^ F.exponentBits * 2 ^ F.fractionBits := Nat.mul_le_mul_right _ he

theorem negative_pack : F.negative (F.pack sign e f) = sign := by
  rw [negative, pack, Nat.add_assoc, Nat.mul_comm, Nat.mul_add_div (Nat.two_pow_pos _),
    Nat.div_eq_of_lt (F.pack_lt he hf)]
  cases sign <;> rfl

omit he in
theorem fraction_pack : F.fraction (F.pack sign e f) = f := by
  rw [fraction, pack, Nat.pow_add, ← Nat.mul_assoc, ← Nat.add_mul, Nat.mul_comm, Nat.mul_add_mod, Nat.mod_eq_of_lt hf]

theorem exponent_pack : F.exponent (F.pack sign e f) = e := by
  rw [exponent, pack, Nat.pow_add, ← Nat.mul_assoc, ← Nat.add_mul, Nat.mul_comm, Nat.mul_add_div (Nat.two_pow_pos _),
    Nat.div_eq_of_lt hf, Nat.add_zero, Nat.mul_comm, Nat.mul_add_mod, Nat.mod_eq_of_lt he]

end Fields

/-- Only the bits of the format count. -/
theorem datum_mod (F : Format) (bits : Nat) :
    F.datum (bits % 2 ^ (F.exponentBits + F.fractionBits + 1)) = F.datum bits := by
  have sign : F.negative (bits % 2 ^ (F.exponentBits + F.fractionBits + 1)) = F.negative bits := by
    rw [negative, negative, Nat.pow_succ, Nat.mod_mul_right_div_self, Nat.mod_mod]
  have exponent_ : F.exponent (bits % 2 ^ (F.exponentBits + F.fractionBits + 1)) = F.exponent bits := by
    rw [exponent, exponent, Nat.add_right_comm, Nat.pow_add, Nat.mul_comm, Nat.mod_mul_right_div_self,
      Nat.mod_mod_of_dvd _ (Nat.pow_dvd_pow 2 (Nat.le_succ _))]
  have fraction_ : F.fraction (bits % 2 ^ (F.exponentBits + F.fractionBits + 1)) = F.fraction bits :=
    Nat.mod_mod_of_dvd _ (Nat.pow_dvd_pow 2 (by omega))
  rw [datum, datum, sign, exponent_, fraction_]

end Format

open Format

/-- The fields of a `binary64` of the value `m * 2 ^ (e - 1074)`, for an `m` of at most 53 bits. -/
def scaled (m e : Nat) : Nat × Nat :=
  if m = 0 then (0, 0) else (m.log2 + e - 51, m * 2 ^ (52 - m.log2) - 2 ^ 52)

theorem datum_scaled (sign : Bool) {m e : Nat} (short : m < 2 ^ 53) (normal : 52 ≤ m.log2 + e)
    (bounded : m.log2 + e < 2098) :
    binary64.datum (binary64.pack sign (scaled m e).1 (scaled m e).2) = .finite sign (m * 2 ^ e) := by
  by_cases zero : m = 0
  · subst zero
    cases sign <;> simp [scaled, datum, pack, exponent, fraction, negative, binary64]
  · have low : 2 ^ m.log2 ≤ m := Nat.log2_self_le zero
    have top : m < 2 ^ (m.log2 + 1) := Nat.lt_log2_self
    have small : m.log2 < 53 := (Nat.log2_lt zero).mpr short
    -- the leading one of `m` is moved to the place in front of the fraction
    have aligned : 2 ^ 52 ≤ m * 2 ^ (52 - m.log2) ∧ m * 2 ^ (52 - m.log2) < 2 ^ 53 := by
      constructor
      · calc 2 ^ 52 = 2 ^ m.log2 * 2 ^ (52 - m.log2) := by rw [← Nat.pow_add]; congr 1; omega
          _ ≤ m * 2 ^ (52 - m.log2) := Nat.mul_le_mul_right _ low
      · calc m * 2 ^ (52 - m.log2) < 2 ^ (m.log2 + 1) * 2 ^ (52 - m.log2) :=
              Nat.mul_lt_mul_of_pos_right top (Nat.two_pow_pos _)
          _ = 2 ^ 53 := by rw [← Nat.pow_add]; congr 1; omega
    have he : m.log2 + e - 51 < 2 ^ binary64.exponentBits := by
      change m.log2 + e - 51 < 2048
      omega
    have hf : m * 2 ^ (52 - m.log2) - 2 ^ 52 < 2 ^ binary64.fractionBits := by
      change m * 2 ^ (52 - m.log2) - 2 ^ 52 < 2 ^ 52
      omega
    have value : (2 ^ 52 + (m * 2 ^ (52 - m.log2) - 2 ^ 52)) * 2 ^ (m.log2 + e - 51 - 1) = m * 2 ^ e := by
      rw [Nat.add_sub_cancel' aligned.1, Nat.mul_assoc, ← Nat.pow_add]
      congr 2
      omega
    rw [scaled, if_neg zero, datum, exponent_pack _ _ he hf, fraction_pack _ _ hf, negative_pack _ _ he hf,
      if_neg (by change m.log2 + e - 51 ≠ 2047; omega), if_neg (by omega)]
    change Datum.finite sign ((2 ^ 52 + _) * 2 ^ (0 + (m.log2 + e - 51) - 1)) = _
    rw [Nat.zero_add, value]

theorem datum_special (sign : Bool) {f : Nat} (short : f < 2 ^ 52) :
    binary64.datum (binary64.pack sign 2047 f) = if f = 0 then .infinite sign else .nan := by
  have top : 2047 < 2 ^ binary64.exponentBits := by decide
  rw [datum, exponent_pack _ _ top short, fraction_pack _ _ short, negative_pack _ _ top short, if_pos (by rfl)]

/-- The number of a narrower format as a `binary64`, with some payload for a NaN. -/
def widen (F : Format) (payload : Nat → Nat) (bits : Nat) : Nat :=
  let fields :=
    if F.exponent bits = 2 ^ F.exponentBits - 1 then
      (2047, if F.fraction bits = 0 then 0 else payload (F.fraction bits))
    else if F.exponent bits = 0 then scaled (F.fraction bits) F.shift
    else scaled (2 ^ F.fractionBits + F.fraction bits) (F.shift + F.exponent bits - 1)
  binary64.pack (F.negative bits) fields.1 fields.2

/-- The numbers of the format are normal numbers of `binary64`. -/
structure Narrow (F : Format) : Prop where
  fraction : F.fractionBits < 52
  low : 52 ≤ F.shift
  high : F.fractionBits + F.shift + 2 ^ F.exponentBits < 2098

theorem narrow_binary16 : Narrow binary16 := ⟨by decide, by decide, by decide⟩

theorem narrow_binary32 : Narrow binary32 := ⟨by decide, by decide, by decide⟩

theorem datum_widen {F : Format} (narrow : Narrow F) {payload : Nat → Nat}
    (quiet : ∀ f, f < 2 ^ F.fractionBits → payload f ≠ 0 ∧ payload f < 2 ^ 52) (bits : Nat) :
    binary64.datum (widen F payload bits) = F.datum bits := by
  obtain ⟨hf, low, high⟩ := narrow
  have fits : F.fraction bits < 2 ^ F.fractionBits := Nat.mod_lt _ (Nat.two_pow_pos _)
  have below : F.exponent bits < 2 ^ F.exponentBits := Nat.mod_lt _ (Nat.two_pow_pos _)
  have wide : 2 ^ (F.fractionBits + 1) ≤ 2 ^ 53 := Nat.pow_le_pow_right (by decide) (by omega)
  -- an integer of at most one bit more than the fraction
  have finite {m e : Nat} (hm : m < 2 ^ (F.fractionBits + 1)) (he : F.shift ≤ e) (he' : e < F.shift + 2 ^ F.exponentBits) :
      binary64.datum (binary64.pack (F.negative bits) (scaled m e).1 (scaled m e).2) =
        .finite (F.negative bits) (m * 2 ^ e) := by
    have bound : m.log2 ≤ F.fractionBits := by
      by_cases zero : m = 0
      · simp [zero]
      · exact Nat.le_of_lt_succ ((Nat.log2_lt zero).mpr hm)
    exact datum_scaled _ (by omega) (by omega) (by omega)
  by_cases special : F.exponent bits = 2 ^ F.exponentBits - 1
  · rw [widen, if_pos special, datum_special]
    · by_cases zero : F.fraction bits = 0
      · rw [datum, if_pos special, if_pos zero, if_pos zero, if_pos rfl]
      · rw [datum, if_pos special, if_neg zero, if_neg zero, if_neg (quiet _ fits).1]
    · split
      · exact Nat.two_pow_pos _
      · exact (quiet _ fits).2
  · by_cases zero : F.exponent bits = 0
    · have own : F.datum bits = .finite (F.negative bits) (F.fraction bits * 2 ^ F.shift) := by
        rw [datum, if_neg special, if_pos zero]
      rw [widen, if_neg special, if_pos zero, own]
      exact finite (by rw [Nat.pow_succ]; omega) (Nat.le_refl _) (by omega)
    · have own : F.datum bits = .finite (F.negative bits)
          ((2 ^ F.fractionBits + F.fraction bits) * 2 ^ (F.shift + F.exponent bits - 1)) := by
        rw [datum, if_neg special, if_neg zero]
      rw [widen, if_neg special, if_neg zero, own]
      exact finite (by rw [Nat.pow_succ]; omega) (by omega) (by omega)

end Ieee754
