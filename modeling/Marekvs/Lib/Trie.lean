import Marekvs.Lib.Rga

/-!
# Trees as sets of records

A tree whose edges are named, with a datum at the end of each edge, written out as records: one for each edge, under the path of
names that leads to its end. A reader who has the records in any order finds the edges of a node again as the records that lie
one name below its path (`under`). Where the edges of every node have different names, it sees the tree (`sees_of_perm`).
-/

/-- A tree with named edges. -/
inductive Trie (S N : Type) where
  | mk (kids : List (S × N × Trie S N))

namespace Trie

open List

variable {S N : Type}

/-- The edges of the root. -/
def kids : Trie S N → List (S × N × Trie S N)
  | mk kids => kids

/-- The names and the data of the root's edges. -/
def heads (t : Trie S N) : List (S × N) := t.kids.map fun k => (k.1, k.2.1)

mutual

/-- The records of a tree that hangs at a path. -/
def records (q : List S) : Trie S N → List (List S × N)
  | mk kids => recordsOf q kids

def recordsOf (q : List S) : List (S × N × Trie S N) → List (List S × N)
  | [] => []
  | (s, n, t) :: rest => (q ++ [s], n) :: (records (q ++ [s]) t ++ recordsOf q rest)

end

/-- The edges of every node have different names. -/
inductive Named : Trie S N → Prop
  | mk {kids : List (S × N × Trie S N)} : (kids.map Prod.fst).Nodup → (∀ k ∈ kids, Named k.2.2) → Named (.mk kids)

/-- A path leads from the root to a subtree. -/
inductive At : Trie S N → List S → Trie S N → Prop
  | here (t : Trie S N) : At t [] t
  | down {kids : List (S × N × Trie S N)} {s : S} {n : N} {t t' : Trie S N} {p : List S} :
      (s, n, t) ∈ kids → At t p t' → At (mk kids) (s :: p) t'

mutual

/-- The records of a tree at a path lie behind the path. -/
theorem behind_records (q : List S) : ∀ (t : Trie S N), ∀ r ∈ t.records q, ∃ s ∈ t.kids.map Prod.fst, ∃ p, r.1 = q ++ s :: p
  | mk kids => behind_recordsOf q kids

theorem behind_recordsOf (q : List S) : ∀ (kids : List (S × N × Trie S N)), ∀ r ∈ recordsOf q kids,
    ∃ s ∈ kids.map Prod.fst, ∃ p, r.1 = q ++ s :: p
  | [] => nofun
  | (s, n, t) :: rest => by
    intro r hr
    rw [recordsOf] at hr
    rcases mem_cons.1 hr with rfl | hr
    · exact ⟨s, mem_cons_self, [], rfl⟩
    rcases mem_append.1 hr with hr | hr
    · obtain ⟨s', -, p, hp⟩ := behind_records (q ++ [s]) t r hr
      exact ⟨s, mem_cons_self, s' :: p, by rw [hp, append_assoc]; rfl⟩
    · obtain ⟨s', hs', p, hp⟩ := behind_recordsOf q rest r hr
      exact ⟨s', mem_cons_of_mem _ hs', p, hp⟩

end

/-- A record is that of an edge, or one of the tree at its end. -/
theorem mem_recordsOf {kids : List (S × N × Trie S N)} :
    r ∈ recordsOf q kids ↔ ∃ k ∈ kids, r = (q ++ [k.1], k.2.1) ∨ r ∈ k.2.2.records (q ++ [k.1]) := by
  induction kids with
  | nil => simp [recordsOf]
  | cons k kids ih =>
    obtain ⟨s, n, t⟩ := k
    rw [recordsOf, mem_cons, mem_append, ih, exists_mem_cons_iff, or_assoc]

/-- The last edge of a path has a record. -/
theorem At.exists_record {p : List S} (hat : At t p t') (hp : p ≠ []) (q : List S) : ∃ n, (q ++ p, n) ∈ t.records q := by
  induction hat generalizing q with
  | here t => exact absurd rfl hp
  | @down kids s n t t' p hk hat ih =>
    simp only [records, mem_recordsOf]
    by_cases hnil : p = []
    · subst hnil
      exact ⟨n, _, hk, .inl rfl⟩
    · obtain ⟨m, hm⟩ := ih hnil (q ++ [s])
      rw [append_assoc] at hm
      exact ⟨m, _, hk, .inr hm⟩

theorem At.snoc (hat : At t p t') (hk : k ∈ t'.kids) : At t (p ++ [k.1]) k.2.2 := by
  induction hat with
  | here t =>
    obtain ⟨kids⟩ := t
    exact .down hk (.here _)
  | down hmem _ ih => exact .down hmem (ih hk)

/-- The records one name below a path. -/
def under [DecidableEq S] (rs : List (List S × N)) (q : List S) : List (S × N) :=
  rs.filterMap fun r => if r.1.dropLast = q then r.1.getLast?.map (·, r.2) else none

section

variable [DecidableEq S]

theorem under_append (rs rs' : List (List S × N)) : under (rs ++ rs') q = under rs q ++ under rs' q :=
  filterMap_append

theorem under_cons (p : List S) (rs : List (List S × N)) (q : List S) :
    under ((p ++ [s], n) :: rs) q = (if p = q then [(s, n)] else []) ++ under rs q := by
  rw [under, filterMap_cons]
  simp only [dropLast_concat, getLast?_concat, Option.map_some]
  by_cases h : p = q
  · simp only [h, if_true]
    rfl
  · simp only [h, if_false]
    rfl

theorem under_perm {rs rs' : List (List S × N)} (h : rs.Perm rs') (q : List S) : (under rs q).Perm (under rs' q) := h.filterMap _

/-- Records that lie behind other paths are not below this one. -/
theorem under_eq_nil {rs : List (List S × N)} (h : ∀ r ∈ rs, ∀ s, r.1 ≠ q ++ [s]) : under rs q = [] := by
  rw [under, filterMap_eq_nil_iff]
  intro r hr
  by_cases hq : r.1.dropLast = q
  · rw [if_pos hq, Option.map_eq_none_iff, getLast?_eq_none_iff]
    by_contra hne
    refine h r hr (r.1.getLast hne) ?_
    rw [← hq, dropLast_append_getLast]
  · exact if_neg hq

/-- Below the path of a tree lie the edges of its root. -/
theorem under_recordsOf_self (q : List S) (kids : List (S × N × Trie S N)) :
    under (recordsOf q kids) q = kids.map fun k => (k.1, k.2.1) := by
  induction kids with
  | nil => rfl
  | cons k kids ih =>
    obtain ⟨s, n, t⟩ := k
    have hnone : under (t.records (q ++ [s])) q = [] := by
      refine under_eq_nil fun r hr s' heq => ?_
      obtain ⟨u, -, p, hp⟩ := behind_records (q ++ [s]) t r hr
      rw [hp, append_assoc, append_right_inj] at heq
      simp at heq
    rw [recordsOf, under_cons, if_pos rfl, under_append, hnone, ih]
    rfl

/-- Below a path that starts with the name of one edge lies what is in its subtree. -/
theorem under_recordsOf_of_mem {q p : List S} {t : Trie S N} {kids : List (S × N × Trie S N)}
    (hd : (kids.map Prod.fst).Nodup) (hk : (s, n, t) ∈ kids) :
    under (recordsOf q kids) (q ++ s :: p) = under (t.records (q ++ [s])) (q ++ s :: p) := by
  induction kids with
  | nil => cases hk
  | cons k kids ih =>
    obtain ⟨s', n', t'⟩ := k
    obtain ⟨hs', hd'⟩ := nodup_cons.1 hd
    have hself : q ≠ q ++ s :: p := by
      intro heq
      have := congrArg length heq
      simp at this
    rw [recordsOf, under_cons, if_neg hself, nil_append, under_append]
    rcases mem_cons.1 hk with heq | hmem
    · cases heq
      have hnone : under (recordsOf q kids) (q ++ s :: p) = [] := by
        refine under_eq_nil fun r hr u heq => hs' ?_
        obtain ⟨v, hv, p', hp⟩ := behind_recordsOf q kids r hr
        rw [hp, append_assoc, append_right_inj] at heq
        cases heq
        exact hv
      rw [hnone, append_nil]
    · have hne : s ≠ s' := by
        rintro rfl
        exact hs' (mem_map.2 ⟨_, hmem, rfl⟩)
      have hnone : under (t'.records (q ++ [s'])) (q ++ s :: p) = [] := by
        refine under_eq_nil fun r hr u heq => hne ?_
        obtain ⟨v, -, p', hp⟩ := behind_records (q ++ [s']) t' r hr
        rw [hp, append_assoc, append_assoc, append_right_inj] at heq
        exact (cons.inj heq).1.symm
      rw [hnone, nil_append, ih hd' hmem]

/-- Below a path of the tree lie the edges of the node there. -/
theorem under_records (hat : At t p t') (ht : Named t) (q : List S) : under (t.records q) (q ++ p) = t'.heads := by
  induction hat generalizing q with
  | here t =>
    obtain ⟨kids⟩ := t
    rw [append_nil, records]
    exact under_recordsOf_self q kids
  | @down kids s n t t' p hk hat ih =>
    obtain ⟨hd, hkids⟩ := ht
    have hsub := ih (hkids _ hk) (q ++ [s])
    rw [append_assoc, singleton_append] at hsub
    rw [records, under_recordsOf_of_mem hd hk]
    exact hsub

/-- Records that are filed by a code of the path in front of their last name are found by that code. -/
theorem filed_eq_under [DecidableEq β] (code : List S → β) {rs : List (List S × N)}
    (hinj : ∀ r ∈ rs, r.1 ≠ [] → code r.1.dropLast = code q → r.1.dropLast = q) :
    (rs.filterMap fun r => r.1.getLast?.map fun s => (code r.1.dropLast, s, r.2)).filterMap
      (fun k => if k.1 = code q then some k.2 else none) = under rs q := by
  rw [filterMap_filterMap, under]
  refine filterMap_congr ?_
  intro r hr
  cases hlast : r.1.getLast? with
  | none => simp
  | some s =>
    have hne : r.1 ≠ [] := by
      intro hnil
      rw [hnil] at hlast
      cases hlast
    have hiff : code r.1.dropLast = code q ↔ r.1.dropLast = q := ⟨hinj r hr hne, fun h => by rw [h]⟩
    simp [hiff]

end

/-! ## Readers -/

/-- A reader finds the edges of every node of a tree below the node's path, in some order. -/
def Sees (get : List S → List (S × N)) (q : List S) (t : Trie S N) : Prop := ∀ p t', At t p t' → (get (q ++ p)).Perm t'.heads

/-- Nodes with edges are at most so deep. -/
def Within (n : Nat) (t : Trie S N) : Prop := ∀ p t', At t p t' → t'.kids ≠ [] → p.length < n

variable {get : List S → List (S × N)} {q : List S} {t : Trie S N} {n : Nat} {edges : List (S × N × Trie S N)}
  {k : S × N × Trie S N}

theorem Sees.here (h : Sees get q t) : (get q).Perm t.heads := by
  have := h [] t (.here t)
  rwa [append_nil] at this

theorem Sees.down (h : Sees get q (.mk edges)) (hk : k ∈ edges) : Sees get (q ++ [k.1]) k.2.2 := by
  intro p t' hat
  rw [append_assoc]
  exact h _ t' (.down hk hat)

/-- What the reader finds at a node whose edges come from a list of parts comes from those parts in some order. -/
theorem Sees.exists_perm (h : Sees get q (.mk (parts.map edge))) :
    ∃ parts' : List P, get q = parts'.map (fun x => ((edge x).1, (edge x).2.1)) ∧ parts'.Perm parts := by
  have hperm := h.here
  have hheads : (mk (parts.map edge)).heads = parts.map fun x => ((edge x).1, (edge x).2.1) := by simp [heads, kids]
  rw [hheads] at hperm
  exact (congrFun (congrFun (eq_map_comp_perm fun x => ((edge x).1, (edge x).2.1)) _) _).mpr hperm

/-- The records of a tree, in any order and with one for the root, are read as the tree. -/
theorem sees_of_perm [DecidableEq S] (hnamed : t.Named)
    (hperm : rs.Perm (([], root) :: t.records [])) (hget : ∀ p t', At t p t' → get p = under rs p) : Sees get [] t := by
  intro p t' hat
  have hunder : under (([], root) :: t.records []) p = under (t.records []) p := by
    rw [under, filterMap_cons]
    split
    · rfl
    · rename_i x hx
      split at hx <;> cases hx
  rw [nil_append, hget p t' hat]
  refine (under_perm hperm p).trans ?_
  rw [hunder]
  exact List.Perm.of_eq (under_records hat hnamed [])

theorem Within.down (h : Within (n + 1) (.mk edges)) (hk : k ∈ edges) : Within n k.2.2 := by
  intro p t' hat hne
  have := h _ t' (.down hk hat) hne
  rw [length_cons] at this
  omega

theorem Within.exists_down (h : Within n (.mk edges)) (hk : k ∈ edges) : ∃ m, n = m + 1 ∧ Within m k.2.2 := by
  cases n with
  | zero => exact absurd (h [] _ (.here _) (ne_nil_of_mem hk)) (Nat.not_lt_zero _)
  | succ m => exact ⟨m, rfl, h.down hk⟩

theorem Within.succ (h : Within n t) : Within (n + 1) t := fun p t' hat hne => Nat.lt_succ_of_lt (h p t' hat hne)

/-- A node with edges has records as deep as they are. -/
theorem within_of_length (h : ∀ r ∈ t.records [], r.1.length ≤ n) : Within n t := by
  intro p t' hat hne
  obtain ⟨k, hk⟩ := exists_mem_of_ne_nil _ hne
  obtain ⟨m, hm⟩ := (hat.snoc hk).exists_record (by simp) []
  have := h _ hm
  simp only [nil_append, length_append, length_singleton] at this
  omega

/-- Where every entry that counts is the same, the last one that is found is it. -/
theorem foldl_select {p : α → Prop} [DecidablePred p] {f : α → β} {b : β} {l : List α} (h : ∀ a ∈ l, p a → f a = b)
    (o : Option β) (hex : o = some b ∨ ∃ a ∈ l, p a) : l.foldl (fun o a => if p a then some (f a) else o) o = some b := by
  induction l generalizing o with
  | nil =>
    rcases hex with ho | ⟨a, ha, -⟩
    · exact ho
    · cases ha
  | cons a l ih =>
    obtain ⟨ha, hl⟩ := forall_mem_cons.1 h
    refine ih hl _ ?_
    dsimp only
    by_cases hp : p a
    · rw [if_pos hp, ha hp]
      exact .inl rfl
    · rw [if_neg hp]
      rwa [exists_mem_cons_iff, or_iff_right hp] at hex

/-- Only the record of the root has no name. -/
theorem root_of_perm {rs : List (List S × N)} (hperm : rs.Perm (([], root) :: t.records [])) :
    ([], root) ∈ rs ∧ ∀ r ∈ rs, r.1 = [] → r.2 = root := by
  refine ⟨hperm.mem_iff.2 mem_cons_self, fun r hr hnil => ?_⟩
  rcases mem_cons.1 (hperm.mem_iff.1 hr) with rfl | hr
  · rfl
  · obtain ⟨s, -, p, hp⟩ := behind_records [] t r hr
    rw [hnil] at hp
    cases hp

/-! ## The edges of an array -/

section Array

variable {ι P : Type} (elem : ι → S) (key : P → ι) (node : ι → P → N) (below : P → Trie S N)

/-- The edges of elements, each behind the one before it. -/
def chainEdges (left : ι) (parts : List P) : List (S × N × Trie S N) :=
  (Rga.chain left (parts.map fun e => (key e, e))).map fun x => (elem x.1, node x.2.1 x.2.2, below x.2.2)

variable {elem key node below} {left : ι} {parts : List P}

theorem map_fst_chainEdges : (chainEdges elem key node below left parts).map Prod.fst = (parts.map key).map elem := by
  have h := congrArg (map elem) (Rga.map_fst_chain left (parts.map fun e => (key e, e)))
  simp only [map_map, chainEdges] at h ⊢
  exact h

theorem filterMap_heads_chainEdges (f : ι × ι × P → β) (h : ∀ x, pick (elem x.1, node x.2.1 x.2.2) = some (f x)) :
    (mk (chainEdges elem key node below left parts)).heads.filterMap pick =
      (Rga.chain left (parts.map fun e => (key e, e))).map f := by
  rw [heads, kids, chainEdges, map_map, filterMap_map]
  exact (filterMap_congr fun x _ => h x).trans (congrFun filterMap_eq_map _)

theorem exists_mem_chainEdges (left : ι) (he : e ∈ parts) :
    ∃ k ∈ chainEdges elem key node below left parts, k.1 = elem (key e) ∧ k.2.2 = below e := by
  obtain ⟨a, ha⟩ := Rga.exists_mem_chain left (mem_map.2 ⟨e, he, rfl⟩ : (key e, e) ∈ parts.map fun e => (key e, e))
  exact ⟨_, mem_map_of_mem ha, rfl, rfl⟩

theorem of_mem_chainEdges (hk : k ∈ chainEdges elem key node below left parts) :
    ∃ e ∈ parts, k.1 = elem (key e) ∧ k.2.2 = below e := by
  obtain ⟨x, hx, rfl⟩ := mem_map.1 hk
  obtain ⟨e, he, heq⟩ := mem_map.1 (Rga.of_mem_chain hx)
  obtain ⟨hkey, hpart⟩ := Prod.mk.inj heq
  exact ⟨e, he, by rw [← hkey], by rw [← hpart]⟩

end Array

end Trie
