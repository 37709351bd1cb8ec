import Marekvs.Lib.TopN

/-!
# Observed-remove sets with bounded histories

A replica holds the add identities that are live and those that removes have covered. The join takes the union of both and drops
what is covered from what is live; both sets are cut to their newest elements, `n` live and `m` covered ones.

The join is commutative and its covered part associative, but the live part is not: a full replica can drop an add whose newer
rivals turn out to be covered later. `joins_agree_iff` says for which three replicas all orders agree; where no cut binds, joining
any sequence gives the plain join (`foldl_join_eq`).
-/

open TopN Finset

/-- A replica: live add identities and covered ones. -/
@[ext] structure OrSet (α : Type*) where
  live : Finset α
  covered : Finset α

namespace OrSet

variable {α : Type*} [LinearOrder α] {n m : Nat}

/-- The covered identities two replicas keep together. -/
def coveredOf (m : Nat) (x y : OrSet α) : Finset α := top m (x.covered ∪ y.covered)

/-- The adds of two replicas that they do not cover together, before the cut. -/
def uncovered (m : Nat) (x y : OrSet α) : Finset α := (x.live ∪ y.live) \ coveredOf m x y

/-- The join: unions, the covered identities taken out of the live ones, both cut to their newest. -/
def join (n m : Nat) (x y : OrSet α) : OrSet α := ⟨top n (uncovered m x y), coveredOf m x y⟩

/-- The plain join, without cuts. -/
def plainJoin (x y : OrSet α) : OrSet α := ⟨(x.live ∪ y.live) \ (x.covered ∪ y.covered), x.covered ∪ y.covered⟩

theorem join_comm (x y : OrSet α) : join n m x y = join n m y x := by
  simp only [join, uncovered, coveredOf, union_comm]

theorem coveredOf_join_left (x y z : OrSet α) : coveredOf m (join n m x y) z = top m (x.covered ∪ y.covered ∪ z.covered) := by
  simp only [coveredOf, join, top_union_top]

theorem join_live_card_le (x y : OrSet α) : (join n m x y).live.card ≤ n := card_top_le n _

/-! ## When all orders agree -/

/-- The adds of three replicas that none of them covers, after the covered cut. -/
def survivors (m : Nat) (x y z : OrSet α) : Finset α :=
  (x.live ∪ y.live ∪ z.live) \ top m (x.covered ∪ y.covered ∪ z.covered)

/-- The add `d` of `x` or `y` is still live after those two have been joined: it is not among the covered identities they keep,
and fewer than `n` uncovered adds of theirs are newer. -/
def Kept (n m : Nat) (d : α) (x y : OrSet α) : Prop :=
  d ∉ coveredOf m x y ∧ (above (uncovered m x y) d).card < n

instance (d : α) (x y : OrSet α) : Decidable (Kept n m d x y) := inferInstanceAs (Decidable (_ ∧ _))

/-- Joining `z` last gives the newest survivors, cut from what the first join left. -/
theorem join_join_live (x y z : OrSet α) :
    (join n m (join n m x y) z).live =
      top n ((top n (uncovered m x y) ∪ z.live) \ top m (x.covered ∪ y.covered ∪ z.covered)) := by
  rw [join, uncovered, coveredOf_join_left]
  rfl

theorem join_join_subset (x y z : OrSet α) :
    (top n (uncovered m x y) ∪ z.live) \ top m (x.covered ∪ y.covered ∪ z.covered) ⊆ survivors m x y z := by
  refine sdiff_subset_sdiff (union_subset_union_left ?_) (Finset.Subset.refl _)
  exact (top_subset n _).trans sdiff_subset

/-- Joining `z` last keeps the newest survivors exactly when each of them is an add of `z` or is kept by the first join. -/
theorem join_join_live_eq_iff (x y z : OrSet α) :
    (join n m (join n m x y) z).live = top n (survivors m x y z) ↔
      ∀ d ∈ top n (survivors m x y z), d ∈ z.live ∨ Kept n m d x y := by
  rw [join_join_live]
  constructor
  · intro h d hd
    rw [← h] at hd
    rcases mem_union.1 (mem_sdiff.1 (top_subset n _ hd)).1 with hxy | hz
    · exact .inr ⟨(mem_sdiff.1 (top_subset n _ hxy)).2, (mem_top.1 hxy).2⟩
    · exact .inl hz
  · intro h
    refine top_eq_of_top_subset (join_join_subset x y z) fun d hd => ?_
    have hs := mem_sdiff.1 (top_subset n _ hd)
    refine mem_sdiff.2 ⟨Finset.mem_union.2 ?_, hs.2⟩
    by_cases hz : d ∈ z.live
    · exact .inr hz
    · have hk := (h d hd).resolve_left hz
      refine .inl (mem_top.2 ⟨mem_sdiff.2 ⟨?_, hk.1⟩, hk.2⟩)
      exact (mem_union.1 hs.1).resolve_right hz

/-- An add of the record joined last that is among the newest survivors is in the result. -/
theorem mem_join_join_of_mem {d : α} (hd : d ∈ top n (survivors m x y z)) (hz : d ∈ z.live) :
    d ∈ (join n m (join n m x y) z).live := by
  rw [join_join_live]
  refine mem_top_of_subset (join_join_subset x y z) ?_ hd
  exact mem_sdiff.2 ⟨Finset.mem_union_right _ hz, (mem_sdiff.1 (top_subset n _ hd)).2⟩

theorem survivors_rotate (x y z : OrSet α) : survivors m x y z = survivors m y z x := by
  simp only [survivors, union_comm, union_left_comm]

theorem survivors_swap (x y z : OrSet α) : survivors m x y z = survivors m x z y := by
  simp only [survivors, union_comm, union_left_comm]

/-- A common result of the three orders is the set of the newest survivors: each of these is an add of some record, and stays
when that record is joined last. -/
theorem live_eq_top_survivors_of_agree {R : Finset α} (hz : (join n m (join n m x y) z).live = R)
    (hx : (join n m (join n m y z) x).live = R) (hy : (join n m (join n m x z) y).live = R) :
    R = top n (survivors m x y z) := by
  have hsub : top n (survivors m x y z) ⊆ R := by
    intro d hd
    rcases mem_union.1 (mem_sdiff.1 (top_subset n _ hd)).1 with h | h
    · rcases mem_union.1 h with h | h
      · rw [← hx]
        exact mem_join_join_of_mem (survivors_rotate x y z ▸ hd) h
      · rw [← hy]
        exact mem_join_join_of_mem (survivors_swap x y z ▸ hd) h
    · rw [← hz]
      exact mem_join_join_of_mem hd h
  rw [← hz, join_join_live] at hsub ⊢
  exact top_eq_of_top_subset (join_join_subset x y z) (hsub.trans (top_subset n _))

/-- The condition under which joining three replicas gives the same whatever the order. -/
def OrdersAgree (n m : Nat) (x y z : OrSet α) : Prop :=
  ∀ d ∈ top n (survivors m x y z),
    (d ∈ z.live ∨ Kept n m d x y) ∧ (d ∈ x.live ∨ Kept n m d y z) ∧ (d ∈ y.live ∨ Kept n m d x z)

instance (x y z : OrSet α) : Decidable (OrdersAgree n m x y z) :=
  inferInstanceAs (Decidable (∀ d ∈ top n (survivors m x y z), _))

/-- All orders of joining three replicas agree exactly under `OrdersAgree`. -/
theorem joins_agree_iff (x y z : OrSet α) :
    (join n m (join n m x y) z = join n m x (join n m y z) ∧ join n m (join n m x y) z = join n m (join n m x z) y) ↔
      OrdersAgree n m x y z := by
  rw [join_comm x (join n m y z)]
  constructor
  · rintro ⟨hx, hy⟩ d hd
    have hR := live_eq_top_survivors_of_agree rfl (congrArg OrSet.live hx).symm (congrArg OrSet.live hy).symm
    refine ⟨(join_join_live_eq_iff x y z).1 hR d hd, ?_, ?_⟩
    · rw [hx, survivors_rotate] at hR
      exact (join_join_live_eq_iff y z x).1 hR d (survivors_rotate x y z ▸ hd)
    · rw [hy, survivors_swap] at hR
      exact (join_join_live_eq_iff x z y).1 hR d (survivors_swap x y z ▸ hd)
  · intro h
    have hz := (join_join_live_eq_iff x y z).2 fun d hd => (h d hd).1
    have hx := (join_join_live_eq_iff y z x).2 fun d hd => (h d (survivors_rotate x y z ▸ hd)).2.1
    have hy := (join_join_live_eq_iff x z y).2 fun d hd => (h d (survivors_swap x y z ▸ hd)).2.2
    rw [← survivors_rotate] at hx
    rw [← survivors_swap] at hy
    refine ⟨OrSet.ext (hz.trans hx.symm) ?_, OrSet.ext (hz.trans hy.symm) ?_⟩
    · show coveredOf m _ _ = coveredOf m _ _
      rw [coveredOf_join_left, coveredOf_join_left]
      simp only [union_comm, union_left_comm]
    · show coveredOf m _ _ = coveredOf m _ _
      rw [coveredOf_join_left, coveredOf_join_left]
      simp only [union_comm, union_left_comm]

/-! ## Where no cut binds -/

theorem join_eq_plainJoin {x y : OrSet α} (hl : ((x.live ∪ y.live) \ (x.covered ∪ y.covered)).card ≤ n)
    (hc : (x.covered ∪ y.covered).card ≤ m) : join n m x y = plainJoin x y := by
  rw [join, uncovered, coveredOf, top_eq_self hc, top_eq_self hl, plainJoin]

/-- The adds of any of the replicas. -/
def liveUnion (xs : List (OrSet α)) : Finset α := (xs.map OrSet.live).foldr (· ∪ ·) ∅

/-- The identities any of the replicas covers. -/
def coveredUnion (xs : List (OrSet α)) : Finset α := (xs.map OrSet.covered).foldr (· ∪ ·) ∅

@[simp] theorem liveUnion_cons (xs : List (OrSet α)) : liveUnion (x :: xs) = x.live ∪ liveUnion xs := rfl

@[simp] theorem coveredUnion_cons (xs : List (OrSet α)) : coveredUnion (x :: xs) = x.covered ∪ coveredUnion xs := rfl

theorem mem_liveUnion {d : α} : d ∈ liveUnion xs ↔ ∃ x ∈ xs, d ∈ x.live := by
  induction xs with
  | nil => simp [liveUnion]
  | cons x xs ih => simp [ih]

theorem mem_coveredUnion {d : α} : d ∈ coveredUnion xs ↔ ∃ x ∈ xs, d ∈ x.covered := by
  induction xs with
  | nil => simp [coveredUnion]
  | cons x xs ih => simp [ih]

/-- The plain join of a replica with each of a list in turn. -/
theorem foldl_plainJoin (xs : List (OrSet α)) (x : OrSet α) (hx : Disjoint x.live x.covered) :
    xs.foldl plainJoin x =
      ⟨(x.live ∪ liveUnion xs) \ (x.covered ∪ coveredUnion xs), x.covered ∪ coveredUnion xs⟩ := by
  induction xs generalizing x with
  | nil =>
    refine OrSet.ext ?_ ?_
    · simp [liveUnion, coveredUnion, sdiff_eq_self_of_disjoint hx]
    · simp [coveredUnion]
  | cons y ys ih =>
    rw [List.foldl_cons, ih (plainJoin x y) sdiff_disjoint]
    refine OrSet.ext ?_ ?_
    · ext d
      simp only [plainJoin, liveUnion_cons, coveredUnion_cons, mem_sdiff, mem_union]
      tauto
    · simp only [plainJoin, coveredUnion_cons, union_assoc]

/-- Where the unions of all replicas fit the caps, joining them one after the other is the plain join. -/
theorem foldl_join_eq (xs : List (OrSet α)) (x : OrSet α) (hl : (x.live ∪ liveUnion xs).card ≤ n)
    (hc : (x.covered ∪ coveredUnion xs).card ≤ m) :
    xs.foldl (join n m) x = xs.foldl plainJoin x := by
  induction xs generalizing x with
  | nil => rfl
  | cons y ys ih =>
    rw [liveUnion_cons, ← union_assoc] at hl
    rw [coveredUnion_cons, ← union_assoc] at hc
    have hl' : ((x.live ∪ y.live) \ (x.covered ∪ y.covered)).card ≤ n :=
      (card_le_card (sdiff_subset.trans subset_union_left)).trans hl
    have hc' := (card_le_card subset_union_left).trans hc
    rw [List.foldl_cons, List.foldl_cons, join_eq_plainJoin hl' hc']
    exact ih _ ((card_le_card (union_subset_union_left sdiff_subset)).trans hl) hc

end OrSet
