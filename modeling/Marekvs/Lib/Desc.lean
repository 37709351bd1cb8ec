import Marekvs.Lib.TopN

/-!
# Lists in strictly descending key order

A history that is kept newest first, one entry for each key: `sortDesc` sorts, `dedupKey` then drops every entry whose key is
that of the entry before it. Such a list is determined by its entries (`Strict.ext`), and cutting it keeps the newest keys
(`keys_take`).
-/

namespace Desc

open List TopN

variable {α κ : Type*} [LinearOrder κ] (key : α → κ)

def sortDesc (l : List α) : List α := l.insertionSort fun a b => key b ≤ key a

/-- The entries of `l` behind an entry of key `k`, without those that repeat the key before them. -/
def dedupAfter (k : κ) : List α → List α
  | [] => []
  | a :: l => if key a = k then dedupAfter k l else a :: dedupAfter (key a) l

/-- Drop every entry whose key is that of the entry before it. -/
def dedupKey : List α → List α
  | [] => []
  | a :: l => a :: dedupAfter key (key a) l

/-- Keys strictly descend. -/
def Strict (l : List α) : Prop := l.Pairwise fun a b => key b < key a

instance (l : List α) : Decidable (Strict key l) := inferInstanceAs (Decidable (List.Pairwise _ _))

def keys (l : List α) : Finset κ := (l.map key).toFinset

variable {key}

theorem mem_keys : k ∈ keys key l ↔ ∃ a ∈ l, key a = k := by simp [keys]

theorem key_mem_keys (h : a ∈ l) : key a ∈ keys key l := mem_keys.2 ⟨a, h, rfl⟩

@[simp] theorem keys_nil : keys key ([] : List α) = ∅ := rfl

@[simp] theorem keys_cons (a : α) (l : List α) : keys key (a :: l) = insert (key a) (keys key l) := by simp [keys]

@[simp] theorem keys_append (l l' : List α) : keys key (l ++ l') = keys key l ∪ keys key l' := by simp [keys]

theorem keys_filter (p : κ → Prop) [DecidablePred p] (l : List α) :
    keys key (l.filter fun a => p (key a)) = (keys key l).filter p := by
  ext k
  simp only [mem_keys, mem_filter, decide_eq_true_eq, Finset.mem_filter]
  constructor
  · rintro ⟨a, ⟨ha, hp⟩, rfl⟩
    exact ⟨⟨a, ha, rfl⟩, hp⟩
  · rintro ⟨⟨a, ha, rfl⟩, hp⟩
    exact ⟨a, ⟨ha, hp⟩, rfl⟩

theorem sortDesc_perm (l : List α) : (sortDesc key l).Perm l := perm_insertionSort _ l

theorem mem_sortDesc : a ∈ sortDesc key l ↔ a ∈ l := (sortDesc_perm l).mem_iff

theorem sortDesc_pairwise (l : List α) : (sortDesc key l).Pairwise fun a b => key b ≤ key a := by
  have : Std.Total fun a b : α => key b ≤ key a := ⟨fun a b => le_total (key b) (key a)⟩
  have : IsTrans α fun a b : α => key b ≤ key a := ⟨fun _ _ _ h h' => h'.trans h⟩
  exact pairwise_insertionSort _ l

theorem mem_of_mem_dedupAfter (h : a ∈ dedupAfter key k l) : a ∈ l := by
  induction l generalizing k with
  | nil => exact h
  | cons b l ih =>
    rw [dedupAfter] at h
    split at h
    · exact mem_cons_of_mem _ (ih h)
    · rcases mem_cons.1 h with rfl | h
      · exact mem_cons_self
      · exact mem_cons_of_mem _ (ih h)

theorem mem_of_mem_dedupKey (h : a ∈ dedupKey key l) : a ∈ l := by
  cases l with
  | nil => exact h
  | cons b l =>
    rcases mem_cons.1 h with rfl | h
    · exact mem_cons_self
    · exact mem_cons_of_mem _ (mem_of_mem_dedupAfter h)

theorem keys_dedupAfter : insert k (keys key (dedupAfter key k l)) = insert k (keys key l) := by
  induction l generalizing k with
  | nil => rfl
  | cons a l ih =>
    rw [dedupAfter]
    split
    · rename_i h
      rw [ih, keys_cons, h, Finset.insert_idem]
    · rw [keys_cons, keys_cons, ih]

@[simp] theorem keys_dedupKey : keys key (dedupKey key l) = keys key l := by
  cases l with
  | nil => rfl
  | cons a l => rw [dedupKey, keys_cons, keys_cons, keys_dedupAfter]

@[simp] theorem keys_sortDesc : keys key (sortDesc key l) = keys key l := by
  ext k
  simp only [mem_keys, mem_sortDesc]

theorem strict_dedupAfter (hk : ∀ a ∈ l, key a ≤ k) (h : l.Pairwise fun a b => key b ≤ key a) :
    Strict key (dedupAfter key k l) ∧ ∀ a ∈ dedupAfter key k l, key a < k := by
  induction l generalizing k with
  | nil => exact ⟨List.Pairwise.nil, nofun⟩
  | cons a l ih =>
    obtain ⟨hal, hl⟩ := pairwise_cons.1 h
    rw [dedupAfter]
    split
    · exact ih (fun b hb => hk b (mem_cons_of_mem _ hb)) hl
    rename_i hne
    obtain ⟨hs, hlt⟩ := ih hal hl
    have hak : key a < k := lt_of_le_of_ne (hk a mem_cons_self) hne
    refine ⟨pairwise_cons.2 ⟨hlt, hs⟩, fun b hb => ?_⟩
    rcases mem_cons.1 hb with rfl | hb
    · exact hak
    · exact (hlt b hb).trans hak

theorem strict_dedupKey_sortDesc (l : List α) : Strict key (dedupKey key (sortDesc key l)) := by
  have h : (sortDesc key l).Pairwise fun a b => key b ≤ key a := sortDesc_pairwise l
  cases hl : sortDesc key l with
  | nil => exact List.Pairwise.nil
  | cons a l' =>
    rw [hl] at h
    obtain ⟨hal, hl'⟩ := pairwise_cons.1 h
    obtain ⟨hs, hlt⟩ := strict_dedupAfter hal hl'
    exact pairwise_cons.2 ⟨hlt, hs⟩

theorem dedupAfter_eq_self (hk : ∀ a ∈ l, key a < k) (h : Strict key l) : dedupAfter key k l = l := by
  induction l generalizing k with
  | nil => rfl
  | cons a l ih =>
    obtain ⟨hal, hl⟩ := pairwise_cons.1 h
    rw [dedupAfter, if_neg (hk a mem_cons_self).ne, ih hal hl]

theorem dedupKey_sortDesc_of_strict (h : Strict key l) : dedupKey key (sortDesc key l) = l := by
  have hs : sortDesc key l = l := List.Pairwise.insertionSort_eq (h.imp fun hab => hab.le)
  rw [hs]
  cases l with
  | nil => rfl
  | cons a l =>
    obtain ⟨hal, hl⟩ := pairwise_cons.1 h
    rw [dedupKey, dedupAfter_eq_self hal hl]

theorem Strict.filter (h : Strict key l) (p : α → Bool) : Strict key (l.filter p) := List.Pairwise.filter p h

theorem Strict.take (h : Strict key l) (n : Nat) : Strict key (l.take n) :=
  List.Pairwise.sublist (take_sublist n l) h

theorem Strict.sublist (h : Strict key l) (hs : l'.Sublist l) : Strict key l' := List.Pairwise.sublist hs h

theorem Strict.ext (h : Strict key l) (h' : Strict key l') (hmem : ∀ a, a ∈ l ↔ a ∈ l') : l = l' := by
  have : Std.Antisymm fun a b : α => key b < key a := ⟨fun _ _ h h' => absurd (h.trans h') (lt_irrefl _)⟩
  have : Std.Irrefl fun a b : α => key b < key a := ⟨fun _ h => lt_irrefl _ h⟩
  exact List.Pairwise.eq_of_mem_iff h h' hmem

theorem Strict.map_key (h : Strict key l) : (l.map key).Pairwise (· > ·) := pairwise_map.2 h

theorem Strict.nodup_map (h : Strict key l) : (l.map key).Nodup := h.map_key.imp fun hab => hab.ne'

/-- Two strictly descending lists with the same keys are equal where keys determine entries. -/
theorem Strict.ext_keys (h : Strict key l) (h' : Strict key l') (hk : keys key l = keys key l')
    (hcoh : ∀ a ∈ l, ∀ b ∈ l', key a = key b → a = b) : l = l' := by
  refine h.ext h' fun a => ⟨fun ha => ?_, fun ha => ?_⟩
  · obtain ⟨b, hb, hba⟩ := mem_keys.1 (hk ▸ key_mem_keys ha)
    rwa [hcoh a ha b hb hba.symm]
  · obtain ⟨b, hb, hba⟩ := mem_keys.1 (hk.symm ▸ key_mem_keys ha)
    rwa [← hcoh b hb a ha hba]

theorem Strict.keys_take (h : Strict key l) : keys key (l.take n) = top n (keys key l) := by
  rw [keys, map_take, toFinset_take_of_desc h.map_key, keys]

theorem Strict.card_keys (h : Strict key l) : (keys key l).card = l.length := by
  rw [keys, toFinset_card_of_nodup h.nodup_map, length_map]

end Desc
