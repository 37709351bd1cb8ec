import Marekvs.Engine.ZsetWrites
import Marekvs.Lib.Binary64

/-!
# Scores in order

The form of a score in an index key, compared as an integer, is the order of the numbers: a zero of either sign has one form, and
what is no number is not compared. The comparisons of the model are those of the numbers.
-/

namespace Marekvs

open Binary64

theorem toNat_and_mask : (bits &&& 0x7FFFFFFFFFFFFFFF).toNat = magnitude bits := by
  rw [UInt64.toNat_and]
  exact Nat.and_two_pow_sub_one_eq_mod bits.toNat 63

theorem isZeroScore_iff (bits : UInt64) : isZeroScore bits = true ↔ magnitude bits = 0 := by
  rw [isZeroScore, decide_eq_true_eq, ← UInt64.toNat_inj, toNat_and_mask]
  rfl

theorem shiftRight_eq_one_iff (bits : UInt64) : bits >>> 63 = 1 ↔ IsNegative bits := by
  have hlt := bits.toNat_lt
  rw [← UInt64.toNat_inj, UInt64.toNat_shiftRight, Nat.shiftRight_eq_div_pow]
  show bits.toNat / 2 ^ 63 = 1 ↔ 2 ^ 63 ≤ bits.toNat
  omega

theorem toNat_flip (h : ¬IsNegative bits) : (bits ^^^ ((1 : UInt64) <<< 63)).toNat = 2 ^ 63 + bits.toNat := by
  have hlt : bits.toNat < 2 ^ 63 := not_le.1 h
  have hdiv : (bits.toNat ^^^ 2 ^ 63) / 2 ^ 63 = 1 := by
    rw [Nat.xor_div_two_pow, Nat.div_eq_of_lt hlt]
    rfl
  have hmod : (bits.toNat ^^^ 2 ^ 63) % 2 ^ 63 = bits.toNat := by
    rw [Nat.xor_mod_two_pow, Nat.mod_eq_of_lt hlt, Nat.mod_self, Nat.xor_zero]
  rw [UInt64.toNat_xor]
  show bits.toNat ^^^ 2 ^ 63 = _
  omega

/-- The form of a score in a key is the middle of the range and its sign and magnitude; below zero the count starts one lower. -/
theorem toNat_encodeScore (bits : UInt64) :
    ((encodeScore bits).toNat : Int) =
      if signedMagnitude bits < 0 then 2 ^ 63 - 1 + signedMagnitude bits else 2 ^ 63 + signedMagnitude bits := by
  have hlt := bits.toNat_lt
  by_cases hzero : isZeroScore bits = true
  · have hmag := (isZeroScore_iff bits).1 hzero
    have hsigned : signedMagnitude bits = 0 := by
      rw [signedMagnitude, hmag]
      simp
    simp only [encodeScore, hzero, if_true, hsigned]
    decide
  · have hmag : magnitude bits ≠ 0 := fun h => hzero ((isZeroScore_iff bits).2 h)
    simp only [encodeScore, hzero, Bool.false_eq_true, if_false, shiftRight_eq_one_iff]
    by_cases hneg : IsNegative bits
    · have hle : 2 ^ 63 ≤ bits.toNat := hneg
      have hval : magnitude bits = bits.toNat - 2 ^ 63 := by
        rw [magnitude]
        omega
      have hsub : (UInt64.toNat (~~~bits)) = 2 ^ 64 - 1 - bits.toNat := UInt64.toNat_not bits
      rw [if_pos hneg, signedMagnitude, if_pos hneg, hsub, if_pos (by omega), hval]
      omega
    · have hval : magnitude bits = bits.toNat := Nat.mod_eq_of_lt (not_le.1 hneg)
      rw [if_neg hneg, signedMagnitude, if_neg hneg, toNat_flip hneg, if_neg (by omega), hval]
      push_cast
      rfl

/-- Forms compare as the numbers do. -/
theorem encodeScore_lt_iff (ha : ¬IsNan a) (hb : ¬IsNan b) : encodeScore a < encodeScore b ↔ value a < value b := by
  have hea := toNat_encodeScore a
  have heb := toNat_encodeScore b
  rw [value_lt_iff ha hb, UInt64.lt_iff_toNat_lt]
  split at hea <;> split at heb <;> omega

theorem encodeScore_eq_iff (ha : ¬IsNan a) (hb : ¬IsNan b) : encodeScore a = encodeScore b ↔ value a = value b := by
  have hea := toNat_encodeScore a
  have heb := toNat_encodeScore b
  rw [value_eq_iff ha hb, ← UInt64.toNat_inj]
  split at hea <;> split at heb <;> omega
end Marekvs
