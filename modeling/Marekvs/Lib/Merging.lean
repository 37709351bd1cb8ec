import Mathlib.Data.Set.Function

/-!
# Merging in any order

A replica merges what it receives into what it holds. Where merging is commutative, associative and idempotent on a set that it
does not leave, replicas that received the same members of the set hold the same, in whatever order and however often they came.
-/

namespace Merging

variable {α β : Type*} {merge : α → α → α} {T : Set α} {l l' : List α} {x y : α}

/-- On `T` merging is the join of a semilattice. -/
structure Semilattice (merge : α → α → α) (T : Set α) : Prop where
  mem : ∀ a ∈ T, ∀ b ∈ T, merge a b ∈ T
  self : ∀ a ∈ T, merge a a = a
  comm : ∀ a ∈ T, ∀ b ∈ T, merge a b = merge b a
  assoc : ∀ a ∈ T, ∀ b ∈ T, ∀ c ∈ T, merge (merge a b) c = merge a (merge b c)

namespace Semilattice

variable (h : Semilattice merge T)
include h

/-- A merge is below whatever both parts are below. -/
theorem merge_below_iff (ha : a ∈ T) (hb : b ∈ T) (hu : u ∈ T) : merge (merge a b) u = u ↔ merge a u = u ∧ merge b u = u := by
  have hleft : ∀ a ∈ T, ∀ b ∈ T, merge (merge a b) u = u → merge a u = u := by
    intro a ha b hb hab
    calc merge a u = merge a (merge (merge a b) u) := by rw [hab]
      _ = merge (merge (merge a a) b) u := by rw [h.assoc a ha a ha b hb, h.assoc a ha _ (h.mem a ha b hb) u hu]
      _ = u := by rw [h.self a ha, hab]
  constructor
  · exact fun hab => ⟨hleft a ha b hb hab, hleft b hb a ha (h.comm a ha b hb ▸ hab)⟩
  · rintro ⟨hau, hbu⟩
    rw [h.assoc a ha b hb u hu, hbu, hau]

/-- What a replica holds is the least that is above everything it received. -/
theorem foldl_below_iff (hl : ∀ a ∈ x :: l, a ∈ T) : l.foldl merge x ∈ T ∧
    ∀ u ∈ T, merge (l.foldl merge x) u = u ↔ ∀ a ∈ x :: l, merge a u = u := by
  induction l generalizing x with
  | nil => simpa using hl
  | cons a l ih =>
    simp only [List.forall_mem_cons, List.foldl_cons] at hl ih ⊢
    obtain ⟨hx, ha, hl⟩ := hl
    obtain ⟨hmem, hiff⟩ := ih ⟨h.mem x hx a ha, hl⟩
    refine ⟨hmem, fun u hu => ?_⟩
    rw [hiff u hu, h.merge_below_iff hx ha hu, and_assoc]

theorem foldl_congr (hl : ∀ a ∈ x :: l, a ∈ T) (hmem : ∀ a, a ∈ x :: l ↔ a ∈ y :: l') : l.foldl merge x = l'.foldl merge y := by
  have hl' : ∀ a ∈ y :: l', a ∈ T := fun a ha => hl a ((hmem a).2 ha)
  obtain ⟨hr, hiff⟩ := h.foldl_below_iff hl
  obtain ⟨hr', hiff'⟩ := h.foldl_below_iff hl'
  have hle := (hiff _ hr').2 fun a ha => (hiff' _ hr').1 (h.self _ hr') a ((hmem a).1 ha)
  have hge := (hiff' _ hr).2 fun a ha => (hiff _ hr).1 (h.self _ hr) a ((hmem a).2 ha)
  rw [← hle, h.comm _ hr _ hr', hge]

/-- Merging what records are stored as. -/
theorem image {store : β → β → β} {encode : α → β}
    (hm : ∀ a ∈ T, ∀ b ∈ T, store (encode a) (encode b) = encode (merge a b)) : Semilattice store (encode '' T) := by
  constructor
  · rintro _ ⟨a, ha, rfl⟩ _ ⟨b, hb, rfl⟩
    exact ⟨_, h.mem a ha b hb, (hm a ha b hb).symm⟩
  · rintro _ ⟨a, ha, rfl⟩
    rw [hm a ha a ha, h.self a ha]
  · rintro _ ⟨a, ha, rfl⟩ _ ⟨b, hb, rfl⟩
    rw [hm a ha b hb, hm b hb a ha, h.comm a ha b hb]
  · rintro _ ⟨a, ha, rfl⟩ _ ⟨b, hb, rfl⟩ _ ⟨c, hc, rfl⟩
    rw [hm a ha b hb, hm b hb c hc, hm _ (h.mem a ha b hb) c hc, hm a ha _ (h.mem b hb c hc), h.assoc a ha b hb c hc]

end Semilattice

theorem pick_semilattice [LinearOrder κ] (key : α → κ) (hkey : Set.InjOn key T)
    (hm : ∀ a ∈ T, ∀ b ∈ T, merge a b = if key a < key b then b else a) : Semilattice merge T := by
  have hmem : ∀ a ∈ T, ∀ b ∈ T, merge a b ∈ T := by
    intro a ha b hb
    rw [hm a ha b hb]
    split <;> assumption
  refine ⟨hmem, fun a ha => by simp [hm a ha a ha], fun a ha b hb => ?_, fun a ha b hb c hc => ?_⟩
  · rw [hm a ha b hb, hm b hb a ha]
    rcases lt_trichotomy (key a) (key b) with hlt | heq | hlt
    · rw [if_pos hlt, if_neg hlt.not_gt]
    · rw [hkey ha hb heq]
    · rw [if_pos hlt, if_neg hlt.not_gt]
  · rw [hm _ (hmem a ha b hb) c hc, hm a ha _ (hmem b hb c hc), hm a ha b hb, hm b hb c hc]
    by_cases hab : key a < key b <;> by_cases hbc : key b < key c <;> simp [hab, hbc]
    · exact fun hca => absurd (hab.trans hbc) hca.not_gt
    · exact fun hac => absurd (hac.trans_le (not_lt.1 hbc)) hab

end Merging
