import Marekvs.Lib.Bytes

/-!
# The order of byte strings

Byte strings compare byte by byte from the front. A common front does not matter, fronts of one length decide before what follows
them, and big-endian integers of one width compare as the numbers do.
-/

namespace Bytes

open List

theorem compare_cons (x y : Bytes) : compare (a :: x) (b :: y) = (compare a b).then (compare x y) := by
  rw [List.compare_eq_compareLex, List.compareLex_cons_cons]

theorem compare_append (h : a.length = b.length) (x y : Bytes) :
    compare (a ++ x) (b ++ y) = (compare a b).then (compare x y) := by
  induction a generalizing b with
  | nil =>
    obtain rfl := length_eq_zero_iff.1 h.symm
    rfl
  | cons c a ih =>
    obtain ⟨d, b', rfl⟩ := exists_cons_of_length_pos (h ▸ Nat.succ_pos a.length : 0 < b.length)
    rw [cons_append, cons_append, compare_cons, compare_cons, ih (Nat.succ.inj h), Ordering.then_assoc]

theorem compare_append_left (p x y : Bytes) : compare (p ++ x) (p ++ y) = compare x y := by
  have hself : compare p p = .eq := Std.ReflCmp.compare_self
  rw [compare_append rfl, hself]
  rfl

/-- Strings of one length compare as the numbers that they stand for. -/
theorem compare_eq_compare_beNat (h : a.length = b.length) : compare a b = compare (beNat a) (beNat b) := by
  induction a generalizing b with
  | nil =>
    obtain rfl := length_eq_zero_iff.1 h.symm
    rfl
  | cons c a ih =>
    obtain ⟨d, b', rfl⟩ := exists_cons_of_length_pos (h ▸ Nat.succ_pos a.length : 0 < b.length)
    have hlen : a.length = b'.length := Nat.succ.inj h
    have ha := beNat_lt a
    have hb := beNat_lt b'
    rw [compare_cons, ih hlen, beNat, beNat]
    rw [← hlen] at hb ⊢
    rcases lt_trichotomy c d with hcd | rfl | hcd
    · have hnat : c.toNat + 1 ≤ d.toNat := UInt8.lt_iff_toNat_lt.1 hcd
      have hlt : c.toNat * 256 ^ a.length + beNat a < d.toNat * 256 ^ a.length + beNat b' := by nlinarith
      rw [compare_lt_iff_lt.2 hcd, compare_lt_iff_lt.2 hlt]
      rfl
    · have hself : compare c c = .eq := compare_eq_iff_eq.2 rfl
      rw [hself]
      rcases lt_trichotomy (beNat a) (beNat b') with hlt | heq | hgt
      · rw [compare_lt_iff_lt.2 hlt, compare_lt_iff_lt.2 (Nat.add_lt_add_left hlt _)]
        rfl
      · rw [heq, compare_eq_iff_eq.2 rfl, compare_eq_iff_eq.2 rfl]
        rfl
      · rw [compare_gt_iff_gt.2 hgt, compare_gt_iff_gt.2 (Nat.add_lt_add_left hgt _)]
        rfl
    · have hnat : d.toNat + 1 ≤ c.toNat := UInt8.lt_iff_toNat_lt.1 hcd
      have hlt : d.toNat * 256 ^ a.length + beNat b' < c.toNat * 256 ^ a.length + beNat a := by nlinarith
      rw [compare_gt_iff_gt.2 hcd, compare_gt_iff_gt.2 hlt]
      rfl

theorem compare_ofU64 : compare (ofU64 a) (ofU64 b) = compare a b := by
  have hnat : ∀ x : UInt64, beNat (ofU64 x) = x.toNat := by
    intro x
    exact beNat_beBytes_of_lt (Nat.lt_of_lt_of_eq x.toNat_lt (by norm_num))
  rw [compare_eq_compare_beNat (by simp), hnat, hnat]
  rcases lt_trichotomy a b with h | rfl | h
  · rw [compare_lt_iff_lt.2 h, compare_lt_iff_lt.2 (UInt64.lt_iff_toNat_lt.1 h)]
  · rw [compare_eq_iff_eq.2 rfl, compare_eq_iff_eq.2 rfl]
  · rw [compare_gt_iff_gt.2 h, compare_gt_iff_gt.2 (UInt64.lt_iff_toNat_lt.1 h)]

end Bytes
