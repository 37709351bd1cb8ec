import Mathlib

/-!
# Reading an ordered list page by page

A reader walks a list that is ordered by key and collects what its entries show, each value once in a page, and stops at the
entry that fills the page; the next page begins after that entry's key. Whatever the page size, the pages end, and together they
hold exactly what the entries show.
-/

namespace Marekvs

open List Option

namespace Paging

variable {ε κ α : Type} [DecidableEq α]

/-- Collect what the entries show until `limit` values are there: the values and the entry that filled the page. -/
def page (limit : Nat) (shows : ε → Option α) : List ε → List α → List α × Option ε
  | [], out => (out, none)
  | e :: es, out =>
    match shows e with
    | none => page limit shows es out
    | some a =>
      if a ∈ out then page limit shows es out
      else if limit ≤ out.length + 1 then (out ++ [a], some e)
      else page limit shows es (out ++ [a])

variable {limit : Nat} {shows : ε → Option α}

/-- A page that reaches the end holds what was there before and what the entries show. -/
theorem mem_page_none (h : page limit shows es out = (out', none)) (a : α) : a ∈ out' ↔ a ∈ out ∨ ∃ e ∈ es, shows e = some a := by
  induction es generalizing out with
  | nil =>
    obtain ⟨rfl, _⟩ := Prod.mk.inj h
    simp
  | cons e es ih =>
    rw [page] at h
    split at h
    · rename_i hnone
      rw [ih h]
      simp [hnone]
    · rename_i b hb
      split at h
      · rename_i hmem
        rw [ih h]
        simp only [mem_cons, exists_eq_or_imp, hb, some.injEq]
        grind
      · split at h
        · cases (Prod.mk.inj h).2
        · rw [ih h]
          simp only [mem_append, mem_cons, exists_eq_or_imp, hb, some.injEq]
          grind

/-- A page that is full holds what was there before and what the entries up to the last one show. -/
theorem mem_page_some (h : page limit shows es out = (out', some last)) :
    ∃ before after, es = before ++ last :: after ∧
      ∀ a, a ∈ out' ↔ a ∈ out ∨ ∃ e ∈ before ++ [last], shows e = some a := by
  induction es generalizing out with
  | nil => cases (Prod.mk.inj h).2
  | cons e es ih =>
    -- the entry is passed over: it shows nothing new
    have hpass : (∀ a, shows e = some a → a ∈ out) → page limit shows es out = (out', some last) →
        ∃ before after, e :: es = before ++ last :: after ∧
          ∀ a, a ∈ out' ↔ a ∈ out ∨ ∃ e ∈ before ++ [last], shows e = some a := by
      intro hold h
      obtain ⟨before, after, rfl, hmem⟩ := ih h
      refine ⟨e :: before, after, rfl, fun a => ?_⟩
      rw [hmem a]
      simp only [cons_append, mem_cons, exists_eq_or_imp]
      grind
    rw [page] at h
    split at h
    · rename_i hnone
      exact hpass (fun a ha => absurd (hnone.symm.trans ha) (by simp)) h
    rename_i b hb
    split at h
    · rename_i hmem
      exact hpass (fun a ha => some.inj (hb.symm.trans ha) ▸ hmem) h
    split at h
    · obtain ⟨rfl, hlast⟩ := Prod.mk.inj h
      obtain rfl := some.inj hlast
      refine ⟨[], es, rfl, fun a => ?_⟩
      simp only [mem_append, mem_singleton, nil_append, exists_eq_left, hb, some.injEq]
      grind
    · obtain ⟨before, after, rfl, hmem⟩ := ih h
      refine ⟨e :: before, after, rfl, fun a => ?_⟩
      rw [hmem a]
      simp only [mem_append, cons_append, mem_cons, exists_eq_or_imp, hb, some.injEq]
      grind

variable (cmp : κ → κ → Ordering) (key : ε → κ) (es : List ε)

/-- The entries after a cursor; all of them where there is none. -/
def after (cursor : Option κ) : List ε :=
  match cursor with
  | none => es
  | some c => es.filter fun e => cmp c (key e) = .lt

variable (limit shows) in
/-- Page after page, from a cursor to the end of the list: all that the pages hold. -/
def pages : Nat → Option κ → Option (List α)
  | 0, _ => none
  | n + 1, cursor =>
    match page limit shows (after cmp key es cursor) [] with
    | (out, none) => some out
    | (out, some last) => (pages n (some (key last))).map (out ++ ·)

variable {cmp key es}

/-- What lies after an entry's key in an ordered list is what lies behind the entry. -/
theorem after_key [Std.TransCmp cmp] (hes : before ++ e :: rest = es)
    (hsorted : es.Pairwise fun a b => cmp (key a) (key b) = .lt) : after cmp key es (some (key e)) = rest := by
  subst hes
  rw [pairwise_append, pairwise_cons] at hsorted
  obtain ⟨_, ⟨hrest, _⟩, hcross⟩ := hsorted
  have hb : before.filter (fun x => cmp (key e) (key x) = .lt) = [] := by
    rw [filter_eq_nil_iff]
    intro x hx
    have hlt := hcross x hx e mem_cons_self
    rw [decide_eq_true_eq]
    intro hgt
    have := Std.TransCmp.lt_trans hlt hgt
    simp [Std.ReflCmp.compare_self] at this
  have hr : rest.filter (fun x => cmp (key e) (key x) = .lt) = rest :=
    filter_eq_self.2 fun x hx => by simpa using hrest x hx
  simp only [after, filter_append, filter_cons, hb, hr, nil_append]
  simp [Std.ReflCmp.compare_self]

/-- The entries after a cursor form a tail of an ordered list. -/
theorem after_isSuffix [Std.TransCmp cmp] (hsorted : es.Pairwise fun a b => cmp (key a) (key b) = .lt) (cursor : Option κ) :
    after cmp key es cursor <:+ es := by
  cases cursor with
  | none => exact suffix_refl _
  | some c =>
    induction es with
    | nil => exact suffix_refl _
    | cons e es ih =>
      rw [pairwise_cons] at hsorted
      by_cases hlt : cmp c (key e) = .lt
      · have hall : after cmp key (e :: es) (some c) = e :: es := by
          rw [after, filter_eq_self]
          intro x hx
          rcases mem_cons.1 hx with rfl | hx
          · simpa using hlt
          · simpa using Std.TransCmp.lt_trans hlt (hsorted.1 x hx)
        rw [hall]
      · have hdrop : after cmp key (e :: es) (some c) = after cmp key es (some c) := by simp [after, hlt]
        rw [hdrop]
        exact (ih hsorted.2).trans (suffix_cons e es)

/-- A full page ends at an entry, and the next one begins behind it. -/
theorem page_next [Std.TransCmp cmp] (hsorted : es.Pairwise fun a b => cmp (key a) (key b) = .lt)
    (h : page limit shows (after cmp key es cursor) [] = (out, some last)) :
    ∃ before, after cmp key es cursor = before ++ last :: after cmp key es (some (key last)) ∧
      ∀ a, a ∈ out ↔ ∃ e ∈ before ++ [last], shows e = some a := by
  obtain ⟨before, rest, hsplit, hmem⟩ := mem_page_some h
  obtain ⟨front, hfront⟩ := after_isSuffix hsorted cursor
  rw [hsplit, ← append_assoc] at hfront
  rw [after_key hfront hsorted]
  exact ⟨before, hsplit, fun a => by simpa using hmem a⟩

variable (limit shows) in
/-- From any cursor the pages end. -/
theorem pages_isSome [Std.TransCmp cmp] (hsorted : es.Pairwise fun a b => cmp (key a) (key b) = .lt)
    (hn : (after cmp key es cursor).length < n) : (pages limit shows cmp key es n cursor).isSome := by
  induction n generalizing cursor with
  | zero => exact absurd hn (Nat.not_lt_zero _)
  | succ n ih =>
    rw [pages]
    rcases hpage : page limit shows (after cmp key es cursor) [] with ⟨out, _ | last⟩
    · rfl
    obtain ⟨before, hsplit, _⟩ := page_next hsorted hpage
    rw [hsplit] at hn
    simp only [length_append, length_cons] at hn
    have hrest : (after cmp key es (some (key last))).length < n := by omega
    simpa using ih hrest

/-- Pages that have ended hold exactly what the entries after the cursor show. -/
theorem mem_pages [Std.TransCmp cmp] (hsorted : es.Pairwise fun a b => cmp (key a) (key b) = .lt)
    (h : pages limit shows cmp key es n cursor = some out) (a : α) :
    a ∈ out ↔ ∃ e ∈ after cmp key es cursor, shows e = some a := by
  induction n generalizing cursor out with
  | zero => cases h
  | succ n ih =>
    rw [pages] at h
    rcases hpage : page limit shows (after cmp key es cursor) [] with ⟨out₁, _ | last⟩
    · rw [hpage] at h
      obtain rfl := some.inj h
      simpa using mem_page_none hpage a
    · rw [hpage] at h
      obtain ⟨more, hmore, rfl⟩ := map_eq_some_iff.1 h
      obtain ⟨before, hsplit, hmem⟩ := page_next hsorted hpage
      rw [mem_append, hmem a, ih hmore, hsplit]
      simp only [mem_append, mem_cons]
      grind

end Paging

end Marekvs
