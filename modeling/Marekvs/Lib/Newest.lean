import Marekvs.Lib.TopN

/-!
# The newest element of each group

Where every element of a finite set belongs to a group (a write to its author), `newest U` keeps the greatest element of each
group. Keeping the newest composes with unions, and a cut to the top of the set is harmless as long as it holds every newest
element (`KeepsNewest`).
-/

namespace Newest

open TopN Finset

variable {α γ : Type*} [LinearOrder α] [DecidableEq γ] (group : α → γ)

/-- The greatest element of each group. -/
def newest (U : Finset α) : Finset α := U.filter fun d => ∀ d' ∈ U, group d' = group d → d' ≤ d

variable {group}

theorem mem_newest : d ∈ newest group U ↔ d ∈ U ∧ ∀ d' ∈ U, group d' = group d → d' ≤ d := by simp [newest]

theorem newest_subset (U : Finset α) : newest group U ⊆ U := filter_subset _ _

variable (group) in
/-- Each element has a newest element of its group above it. -/
theorem exists_newest (hd : d ∈ U) : ∃ d' ∈ newest group U, group d' = group d ∧ d ≤ d' := by
  have hne : (U.filter fun e => group e = group d).Nonempty := ⟨d, mem_filter.2 ⟨hd, rfl⟩⟩
  obtain ⟨d', hd', hmax⟩ := exists_max_image _ id hne
  obtain ⟨hU, hg⟩ := mem_filter.1 hd'
  refine ⟨d', mem_newest.2 ⟨hU, fun e he hge => ?_⟩, hg, hmax d (mem_filter.2 ⟨hd, rfl⟩)⟩
  exact hmax e (mem_filter.2 ⟨he, hge.trans hg⟩)

theorem newest_eq_of_subset (hST : S ⊆ T) (h : newest group T ⊆ S) : newest group S = newest group T := by
  ext d
  constructor
  · intro hd
    obtain ⟨d', hd', hg, hle⟩ := exists_newest group (hST (newest_subset S hd))
    rwa [le_antisymm hle ((mem_newest.1 hd).2 d' (h hd') hg)]
  · intro hd
    exact mem_newest.2 ⟨h hd, fun d' hd' => (mem_newest.1 hd).2 d' (hST hd')⟩

variable (group) in
theorem newest_union_newest (S T : Finset α) : newest group (S ∪ newest group T) = newest group (S ∪ T) := by
  refine newest_eq_of_subset (union_subset_union_right (newest_subset T)) fun d hd => ?_
  obtain ⟨hmem, hmax⟩ := mem_newest.1 hd
  rcases mem_union.1 hmem with hS | hT
  · exact mem_union_left _ hS
  · exact mem_union_right _ (mem_newest.2 ⟨hT, fun d' hd' => hmax d' (mem_union_right _ hd')⟩)

@[simp] theorem newest_newest (U : Finset α) : newest group (newest group U) = newest group U := by
  simpa using newest_union_newest group ∅ U

/-- A new greatest element replaces the newest element of its group. -/
theorem newest_insert_max (h : ∀ d' ∈ U, d' < d) :
    newest group (insert d U) = insert d ((newest group U).filter fun d' => group d' ≠ group d) := by
  ext e
  rw [mem_newest, mem_insert, mem_insert, mem_filter, mem_newest]
  constructor
  · rintro ⟨rfl | he, hmax⟩
    · exact .inl rfl
    · refine .inr ⟨⟨he, fun d' hd' => hmax d' (mem_insert_of_mem hd')⟩, fun hg => ?_⟩
      exact absurd (hmax d (mem_insert_self _ _) hg.symm) (not_le.2 (h e he))
  · rintro (rfl | ⟨⟨he, hmax⟩, hg⟩)
    · refine ⟨.inl rfl, fun d' hd' _ => ?_⟩
      rcases mem_insert.1 hd' with rfl | hd'
      · exact le_rfl
      · exact (h d' hd').le
    · refine ⟨.inr he, fun d' hd' hg' => ?_⟩
      rcases mem_insert.1 hd' with rfl | hd'
      · exact absurd hg'.symm hg
      · exact hmax d' hd' hg'

/-- The cut of `U` to its top `n` holds the newest element of every group. -/
def KeepsNewest (group : α → γ) (n : Nat) (U : Finset α) : Prop := newest group U ⊆ top n U

instance (n : Nat) (U : Finset α) : Decidable (KeepsNewest group n U) :=
  inferInstanceAs (Decidable (newest group U ⊆ top n U))

theorem KeepsNewest.newest_top (h : KeepsNewest group n U) :
    newest group (top n U) = newest group U := newest_eq_of_subset (top_subset n U) h

end Newest
