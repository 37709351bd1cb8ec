import Mathlib

/-!
# Sorting by a key

`sortAsc` sorts by ascending key and keeps entries of one key in the order they came in. Where the keys are distinct nothing of
that order is left: two lists of the same entries are sorted into one, and entries that are put in their places one by one end
up as that one.
-/

namespace Ordered

open List

variable {α κ : Type*} [LinearOrder κ] (key : α → κ)

def sortAsc (l : List α) : List α := l.insertionSort fun a b => key a ≤ key b

/-- Keys strictly ascend. -/
def Strict (l : List α) : Prop := l.Pairwise fun a b => key a < key b

instance (l : List α) : Decidable (Strict key l) := inferInstanceAs (Decidable (List.Pairwise _ _))

/-- Put an entry in its place, or in that of the entry with its key. -/
def put (a : α) : List α → List α
  | [] => [a]
  | b :: l =>
    if key a = key b then a :: l
    else if key a < key b then a :: b :: l
    else b :: put a l

variable {key}

theorem sortAsc_perm (l : List α) : (sortAsc key l).Perm l := perm_insertionSort _ l

theorem mem_sortAsc : a ∈ sortAsc key l ↔ a ∈ l := (sortAsc_perm l).mem_iff

theorem sortAsc_pairwise (l : List α) : (sortAsc key l).Pairwise fun a b => key a ≤ key b := by
  have : Std.Total fun a b : α => key a ≤ key b := ⟨fun a b => le_total (key a) (key b)⟩
  have : IsTrans α fun a b : α => key a ≤ key b := ⟨fun _ _ _ h h' => h.trans h'⟩
  exact pairwise_insertionSort _ l

/-- Entries of distinct keys are sorted the same way in whatever order they come. -/
theorem sortAsc_eq_of_perm (h : l.Perm l') (hd : (l.map key).Nodup) : sortAsc key l = sortAsc key l' := by
  have hp : (sortAsc key l).Perm (sortAsc key l') := (sortAsc_perm l).trans (h.trans (sortAsc_perm l').symm)
  refine hp.eq_of_pairwise ?_ (sortAsc_pairwise l) (sortAsc_pairwise l')
  intro a b ha hb hab hba
  have hinj := inj_on_of_nodup_map hd
  exact hinj (mem_sortAsc.1 ha) (h.mem_iff.2 (mem_sortAsc.1 hb)) (le_antisymm hab hba)

theorem Strict.sortAsc_eq (h : Strict key l) : sortAsc key l = l :=
  List.Pairwise.insertionSort_eq (h.imp fun hab => hab.le)

/-- Sorting keeps entries of one key in the order they came in. -/
theorem filter_sortAsc (key : α → κ) (l : List α) (p : α → Bool) (k : κ) (hp : ∀ a, p a = true ↔ key a = k) :
    (sortAsc key l).filter p = l.filter p := by
  have hsub : (l.filter p).Sublist (sortAsc key l) := by
    have : Std.Total fun a b : α => key a ≤ key b := ⟨fun a b => le_total (key a) (key b)⟩
    have : IsTrans α fun a b : α => key a ≤ key b := ⟨fun _ _ _ h h' => h.trans h'⟩
    refine sublist_insertionSort ?_ filter_sublist
    rw [pairwise_iff_forall_sublist]
    intro a b hab
    have ha := (mem_filter.1 (hab.subset mem_cons_self)).2
    have hb := (mem_filter.1 (hab.subset (mem_cons_of_mem _ mem_cons_self))).2
    exact ((hp a).1 ha).trans_le ((hp b).1 hb).ge
  have hsub' := hsub.filter p
  rw [filter_filter] at hsub'
  simp only [Bool.and_self] at hsub'
  exact (hsub'.eq_of_length (((sortAsc_perm l).filter _).length_eq).symm).symm

@[simp] theorem sortAsc_singleton : sortAsc key [a] = [a] := rfl

@[simp] theorem sortAsc_nil : sortAsc key ([] : List α) = [] := rfl

/-! ## Putting entries in their places -/

theorem mem_of_mem_put (h : b ∈ put key a l) : b = a ∨ b ∈ l := by
  induction l with
  | nil => exact .inl (mem_singleton.1 h)
  | cons c l ih =>
    rw [put] at h
    split at h
    · exact (mem_cons.1 h).imp_right (mem_cons_of_mem _)
    split at h
    · exact mem_cons.1 h
    · rcases mem_cons.1 h with rfl | h
      · exact .inr mem_cons_self
      · exact (ih h).imp_right (mem_cons_of_mem _)

theorem put_of_notMem (ha : key a ∉ l.map key) : put key a l = l.orderedInsert (fun a b => key a ≤ key b) a := by
  induction l with
  | nil => rfl
  | cons b l ih =>
    rw [map_cons, mem_cons, not_or] at ha
    rw [put, if_neg ha.1, List.orderedInsert]
    by_cases hlt : key a < key b
    · rw [if_pos hlt, if_pos hlt.le]
    · rw [if_neg hlt, if_neg (fun hle => hlt (lt_of_le_of_ne hle ha.1)), ih ha.2]

theorem put_sortAsc (ha : key a ∉ l.map key) : put key a (sortAsc key l) = sortAsc key (a :: l) := by
  rw [put_of_notMem]
  · rfl
  · rwa [((sortAsc_perm l).map key).mem_iff]

/-- Entries of distinct keys end up in order, in whatever order they are put. -/
theorem foldl_put {l l' : List α} (h : l.Perm l') (hs : Strict key l') : l.foldl (fun acc a => put key a acc) [] = l' := by
  have hd : (l'.map key).Nodup := by
    rw [List.Nodup, pairwise_map]
    exact hs.imp fun hab => hab.ne
  have hfold : ∀ done rest : List α, ((done ++ rest).map key).Nodup →
      rest.foldl (fun acc a => put key a acc) (sortAsc key done.reverse) = sortAsc key (done ++ rest).reverse := by
    intro done rest
    induction rest generalizing done with
    | nil =>
      intro _
      rw [append_nil, foldl_nil]
    | cons a rest ih =>
      intro hnd
      have ha : key a ∉ done.reverse.map key := by
        rw [map_append, nodup_append] at hnd
        rw [map_reverse, mem_reverse]
        exact fun hmem => hnd.2.2 _ hmem _ mem_cons_self rfl
      rw [foldl_cons, put_sortAsc ha]
      have := ih (done ++ [a]) (by rwa [append_assoc])
      rwa [reverse_append, append_assoc] at this
  have hnil := hfold [] l ((h.map key).nodup_iff.2 hd)
  rw [nil_append] at hnil
  rw [← hs.sortAsc_eq, ← sortAsc_eq_of_perm ((reverse_perm l).trans h) ?_, ← hnil]
  · rfl
  · rw [map_reverse, nodup_reverse]
    exact (h.map key).nodup_iff.2 hd

theorem lookup_eq_some_of_nodup {κ ν : Type*} [BEq κ] [LawfulBEq κ] {l : List (κ × ν)} (hd : (l.map Prod.fst).Nodup)
    {k : κ} {v : ν} :
    l.lookup k = some v ↔ (k, v) ∈ l := by
  induction l with
  | nil => simp
  | cons x l ih =>
    obtain ⟨hx, hd'⟩ := nodup_cons.1 hd
    obtain ⟨k', v'⟩ := x
    rw [lookup_cons, mem_cons]
    by_cases hk : k = k'
    · subst hk
      simp only [beq_self_eq_true, Option.some.injEq, Prod.mk.injEq, true_and]
      constructor
      · intro h
        exact .inl h.symm
      · rintro (h | h)
        · exact h.symm
        · exact absurd (mem_map_of_mem h) hx
    · rw [beq_false_of_ne hk, ih hd']
      simp [hk]

end Ordered
