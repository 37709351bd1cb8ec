import Mathlib.Data.List.Forall2

/-!
# Strands over a shared state

A strand is what one of several concurrent activities still has to do: a result, or an atomic action on the shared state, after
which it goes on with what the action saw. Strands side by side take their actions in any order, until all have a result.

The rule for them is that of rely and guarantee: each strand has a contract on what the others may do between its actions, what
its own actions do, and what holds in the end and keeps holding.
-/

/-- The rest of an activity. -/
inductive Strand (S ρ : Type) where
  | done (r : ρ)
  /-- an atomic action, and the rest after the state it saw -/
  | act (run : S → S) (next : S → Strand S ρ)

namespace Strand

open List

variable {S ρ : Type}

/-- Run a strand with nothing beside it. -/
def alone : Strand S ρ → S → ρ × S
  | done r, s => (r, s)
  | act run next, s => (next s).alone (run s)

/-- Run strands one after the other. -/
def inOrder : List (Strand S ρ) → S → List ρ × S
  | [], s => ([], s)
  | t :: ts, s =>
    let (r, s) := t.alone s
    let (rs, s) := inOrder ts s
    (r :: rs, s)

/-- Run strands side by side: `Interleaved ts s rs s'` says that some order of their actions leads from `s` to `s'`, with the
results `rs`. -/
inductive Interleaved : List (Strand S ρ) → S → List ρ → S → Prop where
  | done (rs : List ρ) (s : S) : Interleaved (rs.map done) s rs s
  | step {before after : List (Strand S ρ)} {run : S → S} {next : S → Strand S ρ} {s s' : S} {rs : List ρ} :
      Interleaved (before ++ next s :: after) (run s) rs s' → Interleaved (before ++ act run next :: after) s rs s'

/-- A strand may run to its end first. -/
theorem Interleaved.alone {before after : List (Strand S ρ)} (t : Strand S ρ) : ∀ {s : S},
    Interleaved (before ++ Strand.done (t.alone s).1 :: after) (t.alone s).2 rs s' →
      Interleaved (before ++ t :: after) s rs s' := by
  induction t with
  | done r =>
    intro s h
    exact h
  | act run next ih =>
    intro s h
    exact .step (ih s h)

/-- Of two strands, the second may run first. -/
theorem interleaved_swapped (t u : Strand S ρ) (s : S) :
    Interleaved [t, u] s [(t.alone (u.alone s).2).1, (u.alone s).1] (t.alone (u.alone s).2).2 := by
  have hlast : Interleaved ([] ++ t :: [done (u.alone s).1]) (u.alone s).2 _ _ := Interleaved.alone t (.done [_, _] _)
  exact Interleaved.alone u (show Interleaved ([t] ++ done (u.alone s).1 :: []) (u.alone s).2 _ _ from hlast)

theorem interleaved_inOrder (ts : List (Strand S ρ)) : ∀ (before : List ρ) (s : S),
    Interleaved (before.map done ++ ts) s (before ++ (inOrder ts s).1) (inOrder ts s).2 := by
  induction ts with
  | nil =>
    intro before s
    rw [append_nil]
    exact (append_nil before).symm ▸ .done before s
  | cons t ts ih =>
    intro before s
    refine Interleaved.alone t ?_
    have h := ih (before ++ [(t.alone s).1]) (t.alone s).2
    rw [map_append, append_assoc, append_assoc] at h
    exact h

/-- What one strand may count on, what its actions do, and what it brings about. -/
structure Contract (S ρ : Type) where
  rely : S → S → Prop
  guar : S → S → Prop
  post : ρ → S → Prop
  refl : ∀ s, rely s s
  trans : ∀ {s s' s''}, rely s s' → rely s' s'' → rely s s''

namespace Contract

variable (c : Contract S ρ)

/-- The strand keeps to the contract from the state on, as long as the others do what it counts on. -/
def Meets : Strand S ρ → S → Prop
  | done r, s => ∀ s', c.rely s s' → c.post r s'
  | act run next, s => ∀ s', c.rely s s' → c.guar s' (run s') ∧ Meets (next s') (run s')

variable {c}

/-- What the others do leaves a contract as it is. -/
theorem Meets.of_rely (h : c.Meets t s) (hs : c.rely s s') : c.Meets t s' := by
  cases t with
  | done r => exact fun s'' h' => h s'' (c.trans hs h')
  | act run next => exact fun s'' h' => h s'' (c.trans hs h')

/-- Each counts on nothing that the other does not keep to. -/
def Compatible (c d : Contract S ρ) : Prop := (∀ s s', c.guar s s' → d.rely s s') ∧ ∀ s s', d.guar s s' → c.rely s s'

end Contract

open Contract

/-- Strands that meet compatible contracts bring all of them about, in every order; and the state changes only as their actions
change it. -/
theorem Interleaved.posts {K : S → S → Prop} (hrefl : ∀ s, K s s) (htrans : ∀ {s s' s''}, K s s' → K s' s'' → K s s'')
    {rs : List ρ} (h : Interleaved ts s rs s') :
    ∀ (xs : List (Strand S ρ × Contract S ρ)), ts = xs.map Prod.fst → (∀ x ∈ xs, x.2.Meets x.1 s) →
      (xs.map Prod.snd).Pairwise Compatible → (∀ x ∈ xs, ∀ s s', x.2.guar s s' → K s s') →
      List.Forall₂ (fun r c => c.post r s') rs (xs.map Prod.snd) ∧ K s s' := by
  induction h with
  | done rs s =>
    intro xs hts hmeets hcompat hguar
    refine ⟨?_, hrefl s⟩
    clear hcompat hguar
    induction rs generalizing xs with
    | nil =>
      obtain rfl := map_eq_nil_iff.1 hts.symm
      exact .nil
    | cons r rs ih =>
      obtain ⟨x, xs, rfl, hx, hxs⟩ := map_eq_cons_iff.1 hts.symm
      have hmeet := hmeets x mem_cons_self
      rw [hx] at hmeet
      exact .cons (hmeet s (x.2.refl s)) (ih _ hxs.symm fun y hy => hmeets y (mem_cons_of_mem _ hy))
  | @step before after run next s s' rs _ ih =>
    intro xs hts hmeets hcompat hguar
    obtain ⟨xb, xa, rfl, rfl, hxa⟩ := map_eq_append_iff.1 hts.symm
    obtain ⟨⟨t, c⟩, xa, rfl, rfl, rfl⟩ := map_eq_cons_iff.1 hxa
    have hmem : (act run next, c) ∈ xb ++ (act run next, c) :: xa := mem_append_right _ mem_cons_self
    obtain ⟨hact, hnext⟩ := hmeets _ hmem s (c.refl s)
    rw [map_append, map_cons] at hcompat
    obtain ⟨hb, ha, hba⟩ := pairwise_append.1 hcompat
    obtain ⟨hca, ha⟩ := pairwise_cons.1 ha
    -- the others count on what the action does
    have hothers : ∀ x ∈ xb ++ xa, x.2.Meets x.1 (run s) := by
      intro x hx
      rcases mem_append.1 hx with hx | hx
      · have hcx := hba x.2 (mem_map_of_mem hx) c mem_cons_self
        exact (hmeets x (mem_append_left _ hx)).of_rely (hcx.2 _ _ hact)
      · have hcx := hca x.2 (mem_map_of_mem hx)
        exact (hmeets x (mem_append_right _ (mem_cons_of_mem _ hx))).of_rely (hcx.1 _ _ hact)
    have hrest := ih (xb ++ (next s, c) :: xa) (by rw [map_append, map_cons]) ?_ ?_ ?_
    · rw [map_append, map_cons] at hrest ⊢
      exact ⟨hrest.1, htrans (hguar _ hmem _ _ hact) hrest.2⟩
    · intro x hx
      rcases mem_append.1 hx with hx | hx
      · exact hothers x (mem_append_left _ hx)
      · rcases mem_cons.1 hx with rfl | hx
        · exact hnext
        · exact hothers x (mem_append_right _ hx)
    · rw [map_append, map_cons]
      exact hcompat
    · intro x hx
      rcases mem_append.1 hx with hx | hx
      · exact hguar x (mem_append_left _ hx)
      · rcases mem_cons.1 hx with rfl | hx
        · exact hguar (act run next, c) hmem
        · exact hguar x (mem_append_right _ (mem_cons_of_mem _ hx))

end Strand
