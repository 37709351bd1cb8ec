import Marekvs.Core.Counter

/-!
# Totals over a history of increments

A history lists increments with the dots they were given. A node's slot in a counter holds the totals of its positive and of its
negative increments, and the totals of all nodes make up the sum of the history.
-/

namespace Marekvs

open List

/-- The part of an increment that goes to the positive total. -/
def posPart (delta : Int64) : Nat := delta.toInt.toNat

/-- The part of an increment that goes to the negative total. -/
def negPart (delta : Int64) : Nat := (-delta.toInt).toNat

/-- All increments of a node, summed by `f`. -/
def totalOf (f : Int64 → Nat) (hist : List (Dot × Int64)) (n : NodeId) : Nat :=
  ((hist.filter fun h => h.1.origin = n).map fun h => f h.2).sum

theorem totalOf_cons_self (f : Int64 → Nat) (hist : List (Dot × Int64)) (d : Dot) (delta : Int64) :
    totalOf f ((d, delta) :: hist) d.origin = f delta + totalOf f hist d.origin := by
  unfold totalOf
  rw [filter_cons_of_pos (by simp), map_cons, sum_cons]

theorem totalOf_le_cons (f : Int64 → Nat) (hist : List (Dot × Int64)) (p : Dot × Int64) (n : NodeId) :
    totalOf f hist n ≤ totalOf f (p :: hist) n := by
  unfold totalOf
  rw [filter_cons]
  split
  · rw [map_cons, sum_cons]
    omega
  · exact le_rfl

theorem totalOf_le_sum (f : Int64 → Nat) (hist : List (Dot × Int64)) (n : NodeId) :
    totalOf f hist n ≤ (hist.map fun h => f h.2).sum := by
  unfold totalOf
  exact (filter_sublist.map _).sum_le_sum fun _ _ => Nat.zero_le _

theorem totalOf_eq_zero (h : ∀ p ∈ hist, p.1.origin ≠ n) : totalOf f hist n = 0 := by
  unfold totalOf
  rw [filter_eq_nil_iff.2 (fun p hp => by simpa using h p hp)]
  rfl

theorem totalOf_cons : totalOf f (p :: hist) n = (if p.1.origin = n then f p.2 else 0) + totalOf f hist n := by
  unfold totalOf
  rw [filter_cons]
  by_cases h : p.1.origin = n <;> simp [h]

/-- The totals of all nodes that incremented make up the sum of the increments. -/
theorem sum_totals (hist : List (Dot × Int64)) (hD : ∀ p ∈ hist, p.1.origin ∈ D) :
    ∑ n ∈ D, ((totalOf posPart hist n : Int) - totalOf negPart hist n) = (hist.map fun h => h.2.toInt).sum := by
  induction hist with
  | nil => simp [totalOf]
  | cons p hist ih =>
    have hsplit : ∀ n, (totalOf posPart (p :: hist) n : Int) - totalOf negPart (p :: hist) n =
        (if p.1.origin = n then p.2.toInt else 0) + ((totalOf posPart hist n : Int) - totalOf negPart hist n) := by
      intro n
      rw [totalOf_cons, totalOf_cons]
      unfold posPart negPart
      split <;> push_cast <;> omega
    rw [Finset.sum_congr rfl fun n _ => hsplit n, Finset.sum_add_distrib, ih fun q hq => hD q (mem_cons_of_mem _ hq),
      Finset.sum_ite_eq, if_pos (hD p mem_cons_self), map_cons, sum_cons]

/-- Adding an increment to totals that leave room for it is exact. -/
theorem bumpSlot_ofNat (hp : posPart delta + p < 2 ^ 64) (hq : negPart delta + q < 2 ^ 64) :
    CounterState.bumpSlot delta ⟨n, UInt64.ofNat p, UInt64.ofNat q⟩ =
      ⟨n, UInt64.ofNat (posPart delta + p), UInt64.ofNat (negPart delta + q)⟩ := by
  have hsat : ∀ a b : Nat, b + a < 2 ^ 64 → (UInt64.ofNat a).satAdd (UInt64.ofNat b) = UInt64.ofNat (b + a) := by
    intro a b hab
    refine UInt64.toNat_inj.1 ?_
    rw [UInt64.toNat_satAdd, UInt64.toNat_ofNat', UInt64.toNat_ofNat', UInt64.toNat_ofNat',
      Nat.mod_eq_of_lt (show a < 2 ^ 64 by omega), Nat.mod_eq_of_lt (show b < 2 ^ 64 by omega), Nat.mod_eq_of_lt hab]
    omega
  unfold CounterState.bumpSlot
  unfold posPart negPart at *
  split
  · rename_i hd
    have h0 : (-delta.toInt).toNat = 0 := by omega
    have h1 : delta.toInt.natAbs = delta.toInt.toNat := by omega
    simp only [h1, h0, Nat.zero_add, hsat p _ hp]
  · rename_i hd
    have h0 : delta.toInt.toNat = 0 := by omega
    have h1 : delta.toInt.natAbs = (-delta.toInt).toNat := by omega
    simp only [h1, h0, Nat.zero_add, hsat q _ hq]

end Marekvs
