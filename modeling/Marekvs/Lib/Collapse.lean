import Marekvs.Lib.Newest
import Marekvs.Lib.OrSet

/-!
# Joins that keep one add of each group

The capped join of two observed-remove sets can be followed by a collapse that keeps the newest live add of each group (each
author). Such a join is not associative, but a second merge settles it: after `x' = x ⊔ y` and `y' = y ⊔ x'`, both joins of `x'`
and `y'` are `y'` (`joinPick_third`).
-/

namespace OrSet

open TopN Newest Finset

variable {α γ : Type*} [LinearOrder α] [DecidableEq γ] (group : α → γ) (on : Bool) {n m : Nat}

/-- The newest element of each group, where the collapse is on. -/
def pick (U : Finset α) : Finset α := if on then newest group U else U

/-- The capped join, collapsed. -/
def joinPick (n m : Nat) (x y : OrSet α) : OrSet α := ⟨pick group on (join n m x y).live, (join n m x y).covered⟩

/-- A replica within the caps, whose live adds are not covered and collapsed. -/
structure Settled (n m : Nat) (x : OrSet α) : Prop where
  live : x.live.card ≤ n
  covered : x.covered.card ≤ m
  disjoint : Disjoint x.live x.covered
  picked : pick group on x.live = x.live

variable {group on}

theorem pick_subset (U : Finset α) : pick group on U ⊆ U := by
  unfold pick
  split
  · exact newest_subset U
  · exact Finset.Subset.refl U

@[simp] theorem pick_pick (U : Finset α) : pick group on (pick group on U) = pick group on U := by
  unfold pick
  split <;> simp

theorem joinPick_comm : joinPick group on n m x y = joinPick group on n m y x := by
  rw [joinPick, join_comm, joinPick]

theorem settled_joinPick (x y : OrSet α) : Settled group on n m (joinPick group on n m x y) where
  live := (card_le_card (pick_subset _)).trans (join_live_card_le x y)
  covered := card_top_le m _
  disjoint := by
    refine disjoint_of_subset_left ((pick_subset _).trans (top_subset n _)) ?_
    exact sdiff_disjoint
  picked := pick_pick _

/-- A replica that has the other's covered adds and all of its live ones absorbs it. -/
theorem Settled.joinPick_of_subset (hy : Settled group on n m y) (hl : x.live ⊆ y.live)
    (hc : x.covered = y.covered) : joinPick group on n m x y = y := by
  have hcov : coveredOf m x y = y.covered := by rw [coveredOf, hc, union_self, top_eq_self hy.covered]
  have hlive : uncovered m x y = y.live := by
    rw [uncovered, hcov, union_eq_right.2 hl, sdiff_eq_self_of_disjoint hy.disjoint]
  refine OrSet.ext ?_ hcov
  unfold joinPick join
  dsimp only
  rw [hlive, top_eq_self hy.live, hy.picked]

theorem Settled.joinPick_self (hx : Settled group on n m x) : joinPick group on n m x x = x :=
  hx.joinPick_of_subset (Finset.Subset.refl _) rfl

theorem coveredOf_joinPick (x y : OrSet α) : coveredOf m y (joinPick group on n m x y) = coveredOf m x y := by
  have hunion : y.covered ∪ (x.covered ∪ y.covered) = x.covered ∪ y.covered := by
    rw [union_comm x.covered, ← union_assoc, union_self]
  unfold coveredOf joinPick join
  dsimp only
  rw [union_comm, coveredOf, top_union_top, union_comm, hunion]

/-- What the first merge keeps, the second one keeps. -/
theorem joinPick_live_subset (x y : OrSet α) :
    (joinPick group on n m x y).live ⊆ (joinPick group on n m y (joinPick group on n m x y)).live := by
  intro d hd
  have htop : d ∈ top n (uncovered m x y) := pick_subset _ hd
  obtain ⟨_, hdc⟩ := mem_sdiff.1 (top_subset n _ htop)
  -- the second merge sees no add that the first did not see
  have hsub : uncovered m y (joinPick group on n m x y) ⊆ uncovered m x y := by
    intro e he
    obtain ⟨hmem, hnot⟩ := mem_sdiff.1 he
    rw [coveredOf_joinPick] at hnot
    rcases mem_union.1 hmem with hy | hj
    · exact mem_sdiff.2 ⟨Finset.mem_union_right _ hy, hnot⟩
    · exact top_subset n _ (pick_subset _ hj)
  have hdu : d ∈ uncovered m y (joinPick group on n m x y) := by
    rw [uncovered, coveredOf_joinPick]
    exact mem_sdiff.2 ⟨Finset.mem_union_right _ hd, hdc⟩
  have hd2 : d ∈ top n (uncovered m y (joinPick group on n m x y)) := mem_top_of_subset hsub hdu htop
  change d ∈ pick group on (top n (uncovered m x y)) at hd
  change d ∈ pick group on (top n (uncovered m y (joinPick group on n m x y)))
  unfold pick at hd ⊢
  split
  · rename_i hon
    rw [if_pos hon] at hd
    refine mem_newest.2 ⟨hd2, fun d' hd' hg => ?_⟩
    by_contra hlt
    -- a newer add of the group would have been in the first merge's cut too
    have hd'top : d' ∈ top n (uncovered m x y) :=
      mem_top_of_le htop (hsub (top_subset n _ hd')) (not_le.1 hlt).le
    exact hlt ((mem_newest.1 hd).2 d' hd'top hg)
  · exact hd2

/-- After two merges the first replica's record is absorbed by the second's, from either side. -/
theorem joinPick_third (x y : OrSet α) :
    joinPick group on n m (joinPick group on n m x y) (joinPick group on n m y (joinPick group on n m x y)) =
      joinPick group on n m y (joinPick group on n m x y) := by
  refine (settled_joinPick y _).joinPick_of_subset (joinPick_live_subset x y) ?_
  exact (coveredOf_joinPick x y).symm

end OrSet
