import Mathlib

/-!
# The newest elements of a finite set

`top n S` is the set of the `n` greatest elements of `S`. Cutting a set to its top is what a bounded history does, and it composes
by `top_eq_of_top_subset`: the top of a set can be computed from any subset that still holds it.
-/

namespace TopN

open Finset

variable {α : Type*} [LinearOrder α]

/-- The elements of `S` greater than `a`. -/
def above (S : Finset α) (a : α) : Finset α := S.filter fun b => a < b

/-- The `n` greatest elements of `S`. -/
def top (n : Nat) (S : Finset α) : Finset α := S.filter fun a => (above S a).card < n

theorem mem_above {a b : α} : b ∈ above S a ↔ b ∈ S ∧ a < b := by simp [above]

theorem mem_top {a : α} : a ∈ top n S ↔ a ∈ S ∧ (above S a).card < n := by simp [top]

theorem top_subset (n : Nat) (S : Finset α) : top n S ⊆ S := filter_subset _ _

theorem above_mono (h : S ⊆ T) (a : α) : above S a ⊆ above T a := filter_subset_filter _ h

@[simp] theorem top_empty : top n (∅ : Finset α) = ∅ := rfl

@[simp] theorem top_zero (S : Finset α) : top 0 S = ∅ := by simp [top]

theorem top_eq_self {S : Finset α} (h : S.card ≤ n) : top n S = S := by
  refine filter_true_of_mem fun a ha => ?_
  have hss : above S a ⊂ S := filter_ssubset.2 ⟨a, ha, lt_irrefl a⟩
  exact lt_of_lt_of_le (card_lt_card hss) h

theorem mem_top_of_subset {S T : Finset α} {a : α} (hST : S ⊆ T) (haS : a ∈ S) (ha : a ∈ top n T) : a ∈ top n S :=
  mem_top.2 ⟨haS, lt_of_le_of_lt (card_le_card (above_mono hST a)) (mem_top.1 ha).2⟩

theorem mem_top_of_le {S : Finset α} {a b : α} (ha : a ∈ top n S) (hb : b ∈ S) (hab : a ≤ b) : b ∈ top n S := by
  refine mem_top.2 ⟨hb, lt_of_le_of_lt (card_le_card ?_) (mem_top.1 ha).2⟩
  intro c hc
  exact mem_above.2 ⟨(mem_above.1 hc).1, lt_of_le_of_lt hab (mem_above.1 hc).2⟩

/-- A new greatest element takes one place of the top. -/
theorem top_insert_max {S : Finset α} {a : α} (h : ∀ x ∈ S, x < a) : top (n + 1) (insert a S) = insert a (top n S) := by
  have haS : a ∉ S := fun ha => lt_irrefl a (h a ha)
  have habove : ∀ x ∈ S, above (insert a S) x = insert a (above S x) := by
    intro x hx
    rw [above, filter_insert, if_pos (h x hx), above]
  have hempty : above (insert a S) a = ∅ := by
    refine filter_eq_empty_iff.2 fun x hx => ?_
    rcases mem_insert.1 hx with rfl | hx
    · exact lt_irrefl x
    · exact (h x hx).asymm
  ext x
  rw [mem_top, mem_insert, mem_insert, mem_top]
  constructor
  · rintro ⟨rfl | hx, hcard⟩
    · exact .inl rfl
    · rw [habove x hx, card_insert_of_notMem fun hm => haS (mem_above.1 hm).1] at hcard
      exact .inr ⟨hx, by omega⟩
  · rintro (rfl | ⟨hx, hcard⟩)
    · exact ⟨.inl rfl, by simp [hempty]⟩
    · refine ⟨.inr hx, ?_⟩
      rw [habove x hx, card_insert_of_notMem fun hm => haS (mem_above.1 hm).1]
      omega

theorem card_top (S : Finset α) : (top n S).card = min n S.card := by
  induction S using induction_on_max generalizing n with
  | empty => simp
  | insert a S h ih =>
    have haS : a ∉ S := fun ha => lt_irrefl a (h a ha)
    cases n with
    | zero => simp
    | succ n =>
      rw [top_insert_max h, card_insert_of_notMem fun hm => haS (top_subset n S hm),
        card_insert_of_notMem haS, ih]
      omega

theorem card_top_le (n : Nat) (S : Finset α) : (top n S).card ≤ n := by
  rw [card_top]
  exact min_le_left _ _

/-- The top of a set is the top of any subset that holds it. -/
theorem top_eq_of_top_subset {S T : Finset α} (hST : S ⊆ T) (h : top n T ⊆ S) : top n S = top n T := by
  refine Finset.Subset.antisymm (fun r hr => ?_) fun a ha => mem_top_of_subset hST (h ha) ha
  by_contra hrT
  have hr' := mem_top.1 hr
  -- `r` is below the whole top of `T`, which has `n` elements, all of them in `S`
  have hcard : n ≤ (above T r).card := by
    by_contra hlt
    exact hrT (mem_top.2 ⟨hST hr'.1, by omega⟩)
  have habove : top n T ⊆ above S r := by
    intro a ha
    refine mem_above.2 ⟨h ha, lt_of_not_ge fun har => hrT (mem_top_of_le ha (hST hr'.1) har)⟩
  have hn : (top n T).card = n := by
    rw [card_top]
    exact min_eq_left (hcard.trans (card_le_card (filter_subset _ _)))
  have := card_le_card habove
  omega

/-- Cutting one side of a union first does not change the top of the union. -/
theorem top_union_top (S T : Finset α) : top n (top n S ∪ T) = top n (S ∪ T) := by
  refine top_eq_of_top_subset (union_subset_union_left (top_subset n S)) fun a ha => ?_
  rcases mem_union.1 (top_subset n _ ha) with haS | haT
  · exact mem_union_left _ (mem_top_of_subset subset_union_left haS ha)
  · exact mem_union_right _ haT

theorem toFinset_take_of_desc {l : List α} (h : l.Pairwise (· > ·)) (n : Nat) : (l.take n).toFinset = top n l.toFinset := by
  induction l generalizing n with
  | nil => simp
  | cons a l ih =>
    obtain ⟨hal, hl⟩ := List.pairwise_cons.1 h
    cases n with
    | zero => simp
    | succ n =>
      rw [List.take_succ_cons, List.toFinset_cons, List.toFinset_cons, ih hl,
        top_insert_max fun x hx => hal x (List.mem_toFinset.1 hx)]

end TopN
