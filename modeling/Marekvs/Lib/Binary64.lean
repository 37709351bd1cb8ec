import Marekvs.Lib.UInt

/-!
# Floating-point numbers of 64 bits

A number is its interchange pattern: a sign bit, eleven bits of exponent and fifty-two of fraction. A finite magnitude counts
units of the smallest positive number, and numbers compare as their patterns do, read as a sign and a magnitude (`value_lt_iff`,
`value_eq_iff`).
-/

namespace Marekvs.Binary64

def magnitude (bits : UInt64) : Nat := bits.toNat % 2 ^ 63

def IsNegative (bits : UInt64) : Prop := 2 ^ 63 ≤ bits.toNat

instance (bits : UInt64) : Decidable (IsNegative bits) := inferInstanceAs (Decidable (_ ≤ _))

/-- The magnitude of the infinities: all ones in the exponent and no fraction. -/
def INFINITY : Nat := 2047 * 2 ^ 52

/-- What is above the infinities is no number. -/
def IsNan (bits : UInt64) : Prop := INFINITY < magnitude bits

instance (bits : UInt64) : Decidable (IsNan bits) := inferInstanceAs (Decidable (_ < _))

/-- A finite magnitude in units of the smallest positive number. -/
def units (m : Nat) : Nat := if m / 2 ^ 52 = 0 then m % 2 ^ 52 else (2 ^ 52 + m % 2 ^ 52) * 2 ^ (m / 2 ^ 52 - 1)

noncomputable def absValue (m : Nat) : EReal := if INFINITY ≤ m then ⊤ else ((units m * 2 ^ (-1074 : ℤ) : ℝ) : EReal)

/-- The number that a pattern stands for. -/
noncomputable def value (bits : UInt64) : EReal :=
  if IsNegative bits then -absValue (magnitude bits) else absValue (magnitude bits)

def signedMagnitude (bits : UInt64) : Int := if IsNegative bits then -(magnitude bits : Int) else magnitude bits

theorem units_lt_succ (m : Nat) : units m < units (m + 1) := by
  have hdiv := Nat.div_add_mod m (2 ^ 52)
  have hmod := Nat.mod_lt m (show 0 < 2 ^ 52 by decide)
  by_cases hlast : m % 2 ^ 52 + 1 = 2 ^ 52
  · -- the fraction is full: the next magnitude has the next exponent
    have hq : (m + 1) / 2 ^ 52 = m / 2 ^ 52 + 1 := by omega
    have hr : (m + 1) % 2 ^ 52 = 0 := by omega
    have hlast' : m % 2 ^ 52 = 2 ^ 52 - 1 := by omega
    rw [units, units, hq, hr, hlast', if_neg (Nat.succ_ne_zero _), Nat.add_sub_cancel]
    split
    · rename_i h0
      rw [h0]
      decide
    · rename_i h0
      obtain ⟨q, hq'⟩ := Nat.exists_eq_succ_of_ne_zero h0
      rw [hq', Nat.succ_eq_add_one, Nat.add_sub_cancel, pow_succ' 2 q, ← Nat.mul_assoc]
      exact Nat.mul_lt_mul_of_pos_right (by decide) (Nat.two_pow_pos q)
  · have hq : (m + 1) / 2 ^ 52 = m / 2 ^ 52 := by omega
    have hr : (m + 1) % 2 ^ 52 = m % 2 ^ 52 + 1 := by omega
    rw [units, units, hq, hr]
    split
    · exact Nat.lt_succ_self _
    · exact Nat.mul_lt_mul_of_pos_right (by omega) (Nat.two_pow_pos _)

theorem units_strictMono : StrictMono units := strictMono_nat_of_lt_succ units_lt_succ

theorem absValue_lt (h : m < n) (hn : n ≤ INFINITY) : absValue m < absValue n := by
  have hm : ¬INFINITY ≤ m := by omega
  rw [absValue, if_neg hm, absValue]
  split
  · exact EReal.coe_lt_top _
  · have hu : (units m : ℝ) < units n := Nat.cast_lt.2 (units_strictMono h)
    exact EReal.coe_lt_coe_iff.2 (mul_lt_mul_of_pos_right hu (by positivity))

theorem absValue_zero : absValue 0 = 0 := by
  have h : ¬INFINITY ≤ 0 := by decide
  simp [absValue, h, units]

theorem absValue_nonneg (m : Nat) : 0 ≤ absValue m := by
  rw [absValue]
  split
  · exact le_top
  · exact EReal.coe_nonneg.2 (by positivity)

/-- The number of a sign and a magnitude. -/
noncomputable def valueOf (k : Int) : EReal := if k < 0 then -absValue k.natAbs else absValue k.natAbs

theorem value_eq_valueOf : value bits = valueOf (signedMagnitude bits) := by
  rw [value, signedMagnitude, valueOf]
  split
  · by_cases h0 : magnitude bits = 0
    · rw [h0, absValue_zero]
      simp [absValue_zero]
    · have hneg : -(magnitude bits : Int) < 0 := by omega
      rw [if_pos hneg]
      simp
  · have hnn : ¬(magnitude bits : Int) < 0 := by omega
    rw [if_neg hnn]
    simp

theorem valueOf_lt (h : k < l) (hk : k.natAbs ≤ INFINITY) (hl : l.natAbs ≤ INFINITY) : valueOf k < valueOf l := by
  rw [valueOf, valueOf]
  by_cases hk0 : k < 0
  · rw [if_pos hk0]
    by_cases hl0 : l < 0
    · rw [if_pos hl0]
      exact EReal.neg_lt_neg_iff.2 (absValue_lt (by omega) hk)
    rw [if_neg hl0]
    have hpos : 0 < absValue k.natAbs := absValue_zero ▸ absValue_lt (by omega) hk
    have hneg : -absValue k.natAbs < 0 := by
      have := EReal.neg_lt_neg_iff.2 hpos
      rwa [neg_zero] at this
    exact hneg.trans_le (absValue_nonneg _)
  · have hl0 : ¬l < 0 := by omega
    rw [if_neg hk0, if_neg hl0]
    exact absValue_lt (by omega) hl

theorem natAbs_signedMagnitude : (signedMagnitude bits).natAbs = magnitude bits := by
  rw [signedMagnitude]
  split <;> simp

theorem natAbs_signedMagnitude_le (h : ¬IsNan bits) : (signedMagnitude bits).natAbs ≤ INFINITY := by
  rw [natAbs_signedMagnitude]
  exact Nat.le_of_not_lt h

/-- Numbers compare as their signs and magnitudes do. -/
theorem value_lt_iff (ha : ¬IsNan a) (hb : ¬IsNan b) : value a < value b ↔ signedMagnitude a < signedMagnitude b := by
  rw [value_eq_valueOf, value_eq_valueOf]
  constructor
  · intro h
    by_contra hle
    rcases lt_or_eq_of_le (not_lt.1 hle) with hlt | heq
    · exact absurd h (valueOf_lt hlt (natAbs_signedMagnitude_le hb) (natAbs_signedMagnitude_le ha)).asymm
    · rw [heq] at h
      exact lt_irrefl _ h
  · intro h
    exact valueOf_lt h (natAbs_signedMagnitude_le ha) (natAbs_signedMagnitude_le hb)

/-- Only the two zeros are equal numbers with different patterns. -/
theorem value_eq_iff (ha : ¬IsNan a) (hb : ¬IsNan b) : value a = value b ↔ signedMagnitude a = signedMagnitude b := by
  constructor
  · intro h
    refine le_antisymm (not_lt.1 fun hlt => ?_) (not_lt.1 fun hlt => ?_)
    · exact ((value_lt_iff hb ha).2 hlt).ne' h
    · exact ((value_lt_iff ha hb).2 hlt).ne h
  · intro h
    rw [value_eq_valueOf, value_eq_valueOf, h]

end Marekvs.Binary64
