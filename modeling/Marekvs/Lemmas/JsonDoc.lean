import Marekvs.Lemmas.DocPaths

/-!
# Reading a set of records as a document

The records reach `materialize` grouped by parent. Behind a path it finds the records that are fields of an object there
(`fieldAt`) and those that are elements of an array (`elemAt`).
-/

namespace Marekvs

open List Machine Ordered
open JsonSeg (pushSeg encodePath decodeSeg)

section

variable {F : Type}

variable {nodes : List (Bytes × NodeIn F)} {path : Bytes}

/-! ## Grouping -/

/-- What a path that can be taken apart is taken apart into. -/
def split? (path : Bytes) : Option (Bytes × JsonSeg) :=
  match DocPath.splitLast decodeSeg path with
  | .ok r => r
  | .error _ => none

theorem split?_eq_some {path parent : Bytes} {seg : JsonSeg} :
    split? path = some (parent, seg) ↔ DocPath.splitLast decodeSeg path = .ok (some (parent, seg)) := by
  rw [split?]
  constructor
  · intro h
    split at h
    · next hr => rw [hr, h]
    · cases h
  · intro h
    rw [h]

/-- A record under its parent. -/
def kidOf (n : Bytes × NodeIn F) : Option (Bytes × JsonSeg × NodeIn F) := (split? n.1).map fun s => (s.1, s.2, n.2)

/-- The record of the root: the last one with an empty path. -/
def rootOf (root : Option (NodeIn F)) (nodes : List (Bytes × NodeIn F)) : Option (NodeIn F) :=
  nodes.foldl (fun root n => if n.1 = [] then some n.2 else root) root

theorem splitNodes_eq_ok (hruns : ∀ n ∈ nodes, Runs (DocPath.splitLast decodeSeg n.1)) (root : Option (NodeIn F))
    (kids : Kids F) :
    splitNodes nodes root kids = .ok (rootOf root nodes, kids ++ nodes.filterMap kidOf) := by
  induction nodes generalizing root kids with
  | nil => simp [splitNodes, rootOf]
  | cons n nodes ih =>
    obtain ⟨path, node⟩ := n
    obtain ⟨hn, hrest⟩ := forall_mem_cons.1 hruns
    rw [splitNodes]
    split
    · next hp =>
      subst hp
      rw [ih hrest]
      rfl
    · next hp =>
      obtain ⟨r, hr⟩ := hn
      simp only at hr
      rw [hr, Fallible.ok_bind]
      have hroot : rootOf root ((path, node) :: nodes) = rootOf root nodes := by simp [rootOf, hp]
      rw [hroot]
      cases r with
      | none => simp [ih hrest, kidOf, split?, hr]
      | some s => simp [ih hrest, kidOf, split?, hr]

theorem splitNodes_eq_error (h : ∃ n ∈ nodes, ¬ Runs (DocPath.splitLast decodeSeg n.1)) (root : Option (NodeIn F))
    (kids : Kids F) : splitNodes nodes root kids = .error .bounds := by
  induction nodes generalizing root kids with
  | nil =>
    obtain ⟨n, hn, -⟩ := h
    cases hn
  | cons n nodes ih =>
    obtain ⟨path, node⟩ := n
    by_cases hn : Runs (DocPath.splitLast decodeSeg path)
    · have hrest : ∃ n ∈ nodes, ¬ Runs (DocPath.splitLast decodeSeg n.1) := by
        obtain ⟨m, hm, hbad⟩ := h
        rcases mem_cons.1 hm with rfl | hm
        · exact absurd hn hbad
        · exact ⟨m, hm, hbad⟩
      rw [splitNodes]
      split
      · exact ih hrest _ _
      obtain ⟨r, hr⟩ := hn
      rw [hr, Fallible.ok_bind]
      cases r with
      | none => exact ih hrest _ _
      | some s => exact ih hrest _ _
    · have hp : path ≠ [] := by
        rintro rfl
        exact hn ⟨none, rfl⟩
      rw [splitNodes, if_neg hp]
      cases hr : DocPath.splitLast decodeSeg path with
      | error p =>
        cases p
        rfl
      | ok r => exact absurd ⟨r, hr⟩ hn

theorem rootOf_eq_some (hd : (nodes.map Prod.fst).Nodup) {x : NodeIn F} : rootOf none nodes = some x ↔ ([], x) ∈ nodes := by
  have hgen : ∀ root : Option (NodeIn F), rootOf root nodes = some x ↔ ([], x) ∈ nodes ∨ [] ∉ nodes.map Prod.fst ∧
    root = some x := by
    induction nodes with
    | nil => simp [rootOf]
    | cons n nodes ih =>
      intro root
      obtain ⟨hn, hd'⟩ := nodup_cons.1 hd
      have hstep : rootOf root (n :: nodes) = rootOf (if n.1 = [] then some n.2 else root) nodes := rfl
      rw [hstep, ih hd']
      obtain ⟨path, node⟩ := n
      by_cases hp : path = []
      · subst hp
        simp only [if_true, mem_cons, map_cons, true_or, not_true_eq_false, false_and, or_false, Prod.mk.injEq, true_and,
          Option.some.injEq]
        constructor
        · rintro (h | ⟨-, h⟩)
          · exact absurd (mem_map_of_mem h) hn
          · exact .inl h.symm
        · rintro (h | h)
          · exact .inr ⟨hn, h.symm⟩
          · exact absurd (mem_map_of_mem h) hn
      · simp [hp, Ne.symm hp, eq_comm]
  simpa using hgen none

theorem rootOf_eq_of_perm {nodes' : List (Bytes × NodeIn F)} (h : nodes.Perm nodes') (hd : (nodes.map Prod.fst).Nodup) :
    rootOf none nodes = rootOf none nodes' := by
  ext x
  rw [rootOf_eq_some hd, rootOf_eq_some ((h.map Prod.fst).nodup_iff.1 hd), h.mem_iff]

theorem lt_docFuel {n : Bytes × NodeIn F} (h : n ∈ nodes) : n.1.length < docFuel nodes := by
  have hmax : n.1.length ≤ (nodes.map fun n => n.1.length).foldr max 0 := by
    induction nodes with
    | nil => cases h
    | cons m nodes ih =>
      rw [map_cons, foldr_cons]
      rcases mem_cons.1 h with rfl | h
      · exact le_max_left _ _
      · exact (ih h).trans (le_max_right _ _)
  exact Nat.lt_succ_of_le hmax

theorem docFuel_eq_of_perm {nodes' : List (Bytes × NodeIn F)} (h : nodes.Perm nodes') : docFuel nodes = docFuel nodes' := by
  rw [docFuel, docFuel]
  congr 1
  exact (h.map _).foldr_eq _

/-! ## Fields and elements -/

theorem fieldOf_eq_some {k : JsonSeg × NodeIn F} {f : Bytes × JVal F × List Dot} :
    fieldOf k = some f ↔ k = (.field f.1, .map f.2.1 f.2.2) := by
  obtain ⟨seg, node⟩ := k
  obtain ⟨name, val, dots⟩ := f
  cases seg <;> cases node <;> simp [fieldOf]

theorem elemOf_eq_some {k : JsonSeg × NodeIn F} {f : Eid × ArrElem F × Bool} :
    elemOf k = some f ↔ k = (.elem f.1, .arrElem f.2.1 f.2.2) := by
  obtain ⟨seg, node⟩ := k
  obtain ⟨e, elem, live⟩ := f
  cases seg <;> cases node <;> simp [elemOf]

/-- A record as what `pick` makes of the records behind a path. -/
def pickAt (pick : JsonSeg × NodeIn F → Option α) (path : Bytes) (n : Bytes × NodeIn F) : Option α :=
  (kidOf n).bind fun k => (if k.1 = path then some k.2 else none).bind pick

theorem get_filterMap (pick : JsonSeg × NodeIn F → Option α) (nodes : List (Bytes × NodeIn F)) (path : Bytes) :
    (Kids.get (nodes.filterMap kidOf) path).filterMap pick = nodes.filterMap (pickAt pick path) := by
  rw [Kids.get, filterMap_filterMap, filterMap_filterMap]
  rfl

theorem pickAt_eq_some {pick : JsonSeg × NodeIn F → Option α} {n : Bytes × NodeIn F} {x : α} :
    pickAt pick path n = some x ↔ ∃ seg, split? n.1 = some (path, seg) ∧ pick (seg, n.2) = some x := by
  rw [pickAt, kidOf]
  cases hs : split? n.1 with
  | none => simp
  | some k =>
    obtain ⟨parent, seg⟩ := k
    by_cases hp : parent = path
    · simp [hp]
    · simp [hp]

/-- A record as a field of the object at a path. -/
def fieldAt : Bytes → Bytes × NodeIn F → Option (Bytes × JVal F × List Dot) := pickAt fieldOf

/-- A record as an element of the array at a path. -/
def elemAt : Bytes → Bytes × NodeIn F → Option (Eid × ArrElem F × Bool) := pickAt elemOf

theorem fields_eq (nodes : List (Bytes × NodeIn F)) (path : Bytes) :
    (Kids.get (nodes.filterMap kidOf) path).filterMap fieldOf = nodes.filterMap (fieldAt path) := get_filterMap ..

theorem elems_eq (nodes : List (Bytes × NodeIn F)) (path : Bytes) :
    (Kids.get (nodes.filterMap kidOf) path).filterMap elemOf = nodes.filterMap (elemAt path) := get_filterMap ..

theorem fieldAt_eq_some {raw : Bytes} {node : NodeIn F} {f : Bytes × JVal F × List Dot} : fieldAt path (raw, node) = some f ↔
    DocPath.splitLast decodeSeg raw = .ok (some (path, .field f.1)) ∧ node = .map f.2.1 f.2.2 := by
  simp [fieldAt, pickAt_eq_some, fieldOf_eq_some, split?_eq_some]

theorem elemAt_eq_some {raw : Bytes} {node : NodeIn F} {x : Eid × ArrElem F × Bool} : elemAt path (raw, node) = some x ↔
    DocPath.splitLast decodeSeg raw = .ok (some (path, .elem x.1)) ∧ node = .arrElem x.2.1 x.2.2 := by
  simp [elemAt, pickAt_eq_some, elemOf_eq_some, split?_eq_some]

theorem mem_fields {f : Bytes × JVal F × List Dot} : f ∈ nodes.filterMap (fieldAt path) ↔
    ∃ raw, (raw, .map f.2.1 f.2.2) ∈ nodes ∧ DocPath.splitLast decodeSeg raw = .ok (some (path, .field f.1)) := by
  simp only [mem_filterMap, Prod.exists, fieldAt_eq_some]
  constructor
  · rintro ⟨raw, _, hmem, hs, rfl⟩
    exact ⟨raw, hmem, hs⟩
  · rintro ⟨raw, hmem, hs⟩
    exact ⟨raw, _, hmem, hs, rfl⟩

theorem mem_elems {x : Eid × ArrElem F × Bool} : x ∈ nodes.filterMap (elemAt path) ↔
    ∃ raw, (raw, .arrElem x.2.1 x.2.2) ∈ nodes ∧ DocPath.splitLast decodeSeg raw = .ok (some (path, .elem x.1)) := by
  simp only [mem_filterMap, Prod.exists, elemAt_eq_some]
  constructor
  · rintro ⟨raw, _, hmem, hs, rfl⟩
    exact ⟨raw, hmem, hs⟩
  · rintro ⟨raw, hmem, hs⟩
    exact ⟨raw, _, hmem, hs, rfl⟩

/-- Entries whose names tell their records apart have distinct names. -/
theorem nodup_filterMap {κ : Type} {g : Bytes × NodeIn F → Option α} {key : α → κ} (hd : (nodes.map Prod.fst).Nodup)
    (hg : ∀ n ∈ nodes, ∀ n' ∈ nodes, ∀ a a', g n = some a → g n' = some a' → key a = key a' → n.1 = n'.1) :
    ((nodes.filterMap g).map key).Nodup := by
  induction nodes with
  | nil => exact nodup_nil
  | cons n nodes ih =>
    obtain ⟨hn, hd'⟩ := nodup_cons.1 hd
    have htail := ih hd' fun m hm m' hm' => hg m (mem_cons_of_mem _ hm) m' (mem_cons_of_mem _ hm')
    cases hgn : g n with
    | none => rwa [filterMap_cons_none hgn]
    | some a =>
      rw [filterMap_cons_some hgn, map_cons, nodup_cons]
      refine ⟨fun hmem => ?_, htail⟩
      obtain ⟨b, hb, hab⟩ := mem_map.1 hmem
      obtain ⟨m, hm, hgm⟩ := mem_filterMap.1 hb
      rw [hg n mem_cons_self m (mem_cons_of_mem _ hm) a b hgn hgm hab.symm] at hn
      exact hn (mem_map_of_mem hm)

/-- The ten bytes of an id are written in one way, so an array has one record for an id. -/
theorem nodup_elems (hd : (nodes.map Prod.fst).Nodup) (hlen : ∀ n ∈ nodes, n.1.length < 2 ^ 63) (path : Bytes) :
    ((nodes.filterMap (elemAt path)).map Prod.fst).Nodup := by
  refine nodup_filterMap hd fun n hn n' hn' a a' ha ha' heq => ?_
  have hs := (elemAt_eq_some.1 ha).1
  have hs' := (elemAt_eq_some.1 ha').1
  rw [JsonSeg.eq_pushSeg_of_splitLast_elem (hlen n hn) hs, JsonSeg.eq_pushSeg_of_splitLast_elem (hlen n' hn') hs', heq]

/-- An array has one order, whatever the order of the records. -/
theorem order_elems_eq {nodes' : List (Bytes × NodeIn F)} (h : nodes.Perm nodes') (hd : (nodes.map Prod.fst).Nodup)
    (hlen : ∀ n ∈ nodes, n.1.length < 2 ^ 63) (path : Bytes) :
    Rga.order EID_HEAD (rgaElems (nodes.filterMap (elemAt path))) =
      Rga.order EID_HEAD (rgaElems (nodes'.filterMap (elemAt path))) := by
  refine Rga.order_eq_of_perm ((h.filterMap _).map _) ?_
  rw [rgaElems, map_map]
  exact nodup_elems hd hlen path

theorem lookup_reverse_eq_some {κ ν : Type} [DecidableEq κ] {l : List (κ × ν)} (hd : (l.map Prod.fst).Nodup) {k : κ} {v : ν} :
    l.reverse.lookup k = some v ↔ (k, v) ∈ l := by
  rw [Ordered.lookup_eq_some_of_nodup (by rwa [map_reverse, nodup_reverse]), mem_reverse]

end

end Marekvs
