import Marekvs.Core.Counter
import Marekvs.Core.Decimal

/-!
# Decimal texts read back

The digits of a number are digits, and read as the number again; so does the text of any 64-bit integer.
-/

namespace Marekvs

open List UInt8 Nat

theorem mem_decDigits (fuel : Nat) : ∀ {n : Nat} {b : UInt8}, b ∈ decDigits fuel n → 48 ≤ b.toNat ∧ b.toNat ≤ 57 := by
  induction fuel with
  | zero => exact nofun
  | succ fuel ih =>
    intro n b h
    have hdigit : ∀ d : Nat, d < 10 → b = ofNat (48 + d) → 48 ≤ b.toNat ∧ b.toNat ≤ 57 := by
      rintro d hd rfl
      rw [toNat_ofNat']
      omega
    rw [decDigits] at h
    split at h
    · next hlt => exact hdigit n hlt (mem_singleton.1 h)
    · rcases mem_append.1 h with h | h
      · exact ih h
      · exact hdigit _ (mod_lt _ (by norm_num)) (mem_singleton.1 h)

theorem decDigits_ne_nil (h : 0 < fuel) (n : Nat) : decDigits fuel n ≠ [] := by
  cases fuel with
  | zero => omega
  | succ fuel =>
    rw [decDigits]
    split
    · simp
    · simp

theorem formatI64_ofNat (hn : n < 2 ^ 63) : formatI64 (Int64.ofNat n) = decDigits 20 n := by
  rw [formatI64, Int64.toInt_ofNat_of_lt hn, if_neg (by omega), Int.natAbs_natCast]

theorem all_isDigit_decDigits : (decDigits fuel n).all isDigit = true := by
  rw [all_eq_true]
  intro b hb
  obtain ⟨hlow, hhigh⟩ := mem_decDigits fuel hb
  have h48 : (48 : UInt8) ≤ b := le_iff_toNat_le.2 hlow
  have h57 : b ≤ 57 := le_iff_toNat_le.2 hhigh
  exact decide_eq_true ⟨h48, h57⟩

theorem digitsValue_decDigits (fuel : Nat) : ∀ {n : Nat}, n < 10 ^ fuel → digitsValue (decDigits fuel n) = n := by
  induction fuel with
  | zero =>
    intro n hn
    rw [pow_zero, lt_one_iff] at hn
    rw [hn]
    rfl
  | succ fuel ih =>
    intro n hn
    have hdigit : ∀ d : Nat, d < 10 → (ofNat (48 + d)).toNat - 48 = d := by
      intro d hd
      rw [toNat_ofNat']
      omega
    rw [decDigits]
    split
    · next hlt =>
      show 0 * 10 + ((ofNat (48 + n)).toNat - 48) = n
      rw [hdigit n hlt, Nat.zero_mul, Nat.zero_add]
    · rw [Nat.pow_succ] at hn
      have hrest : digitsValue (decDigits fuel (n / 10)) = n / 10 := ih (by omega)
      unfold digitsValue at hrest ⊢
      rw [foldl_append, hrest]
      show n / 10 * 10 + ((ofNat (48 + n % 10)).toNat - 48) = n
      rw [hdigit _ (mod_lt _ (by norm_num))]
      omega

theorem signed_decDigits (neg : Bool) (hn : n ≤ 2 ^ 63) (hpos : neg = false → n < 2 ^ 63) :
    signed neg (decDigits 20 n) = some (Int64.ofInt (if neg then -(n : Int) else n)) := by
  unfold signed
  rw [if_neg (by simp [decDigits_ne_nil (show 0 < 20 by decide), all_isDigit_decDigits]),
    digitsValue_decDigits 20 (by omega)]
  cases neg with
  | false =>
    have := hpos rfl
    simp only [Bool.false_eq_true, if_false]
    rw [if_pos (by omega)]
  | true =>
    simp only [if_true]
    rw [if_pos (by omega)]

theorem parseI64_formatI64 (i : Int64) : parseI64 (formatI64 i) = some i := by
  have hlow := Int64.le_toInt i
  have hhigh := Int64.toInt_lt i
  unfold formatI64
  split
  · next hneg =>
    show signed true _ = _
    rw [signed_decDigits true (by omega) nofun, if_pos rfl, Int.ofNat_natAbs_of_nonpos (by omega), Int.neg_neg, Int64.ofInt_toInt]
  · next hpos =>
    have habs : (i.toInt.natAbs : Int) = i.toInt := Int.natAbs_of_nonneg (by omega)
    have hparse : signed false (decDigits 20 i.toInt.natAbs) = some i := by
      rw [signed_decDigits false (by omega) (fun _ => by omega), if_neg (by decide), habs, Int64.ofInt_toInt]
    -- the first byte is a digit, so no sign is read
    cases hd : decDigits 20 i.toInt.natAbs with
    | nil => exact absurd hd (decDigits_ne_nil (by decide) _)
    | cons d digits =>
      have hd48 := (mem_decDigits 20 (hd ▸ mem_cons_self : d ∈ decDigits 20 i.toInt.natAbs)).1
      rw [hd] at hparse
      unfold parseI64
      split
      · next h => exact absurd ((List.cons.inj h).1 ▸ hd48) (by decide)
      · next h => exact absurd ((List.cons.inj h).1 ▸ hd48) (by decide)
      · exact hparse

theorem formatI64_inj : formatI64 m = formatI64 n ↔ m = n := by
  constructor
  · intro h
    exact Option.some.inj ((parseI64_formatI64 m).symm.trans (h ▸ parseI64_formatI64 n))
  · rintro rfl
    rfl

theorem length_decDigits_le (fuel n : Nat) : (decDigits fuel n).length ≤ fuel := by
  induction fuel generalizing n with
  | zero => exact le_refl 0
  | succ fuel ih =>
    unfold decDigits
    split
    · exact succ_le_succ (zero_le fuel)
    · rw [length_append]
      exact succ_le_succ (ih (n / 10))

/-- No decimal text reads as a counter: it is too short to have slots, and a digit is no number of slots that it has room for. -/
theorem decode_formatI64 : CounterState.decode (formatI64 v) = none := by
  have hdigits := length_decDigits_le 20 v.toInt.natAbs
  obtain ⟨k, hk, hdrop⟩ : ∃ k, 17 ≤ k ∧ (formatI64 v).drop 18 = (decDigits 20 v.toInt.natAbs).drop k := by
    unfold formatI64
    split
    · exact ⟨17, le_refl 17, rfl⟩
    · exact ⟨18, by decide, rfl⟩
  rw [CounterState.decode, hdrop]
  cases hd : (decDigits 20 v.toInt.natAbs).drop k with
  | nil => rfl
  | cons n rest =>
    have hlen := congrArg List.length hd
    have hn := (mem_decDigits 20 (mem_of_mem_drop (hd ▸ mem_cons_self))).1
    rw [length_drop, length_cons] at hlen
    exact if_pos (by omega)

end Marekvs
