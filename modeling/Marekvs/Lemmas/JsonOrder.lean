import Marekvs.Lemmas.JsonDoc

/-!
# The order in which records are read

`buildDoc` reads records with distinct paths alike in every order, unless a path cannot be taken apart or two of the records
name one field of an object that is entered. The length of a field name may be written in more bytes than it needs, so two paths
can be different and end in the same field; then the record that comes last counts.
-/

namespace Marekvs

open List Machine Ordered Diff JsonSeg DocPath
open JsonSeg (pushSeg encodePath decodeSeg)

variable {F : Type}

variable {path name : Bytes} {val : JVal F} {nodes nodes' : List (Bytes × NodeIn F)} {segs : List JsonSeg}

/-! ## Records that name a field once -/

/-- The nodes that the walk down from the root comes to, with what is read of them there. -/
inductive Entered (nodes : List (Bytes × NodeIn F)) : Bytes → JVal F → Prop
  | root {val : JVal F} {dots : List Dot} : ([], .map val dots) ∈ nodes → Entered nodes [] val
  | field {path raw name : Bytes} {val : JVal F} {dots : List Dot} : Entered nodes path .obj → (raw, .map val dots) ∈ nodes →
      splitLast decodeSeg raw = .ok (some (path, .field name)) → Entered nodes (pushSeg path (.field name)) val
  | elem {path raw : Bytes} {e : Eid} {elem : ArrElem F} {live : Bool} : Entered nodes path .arr →
      (raw, .arrElem elem live) ∈ nodes → splitLast decodeSeg raw = .ok (some (path, .elem e)) →
      (e, true) ∈ Rga.order EID_HEAD (rgaElems (nodes.filterMap (elemAt path))) → Entered nodes (pushSeg path (.elem e)) elem.val

/-- No two records name one field of an object that is entered. -/
def FieldsNamedOnce (nodes : List (Bytes × NodeIn F)) : Prop :=
  ∀ path name, Entered nodes path .obj → ∀ raw val dots raw' val' dots', (raw, .map val dots) ∈ nodes →
    (raw', .map val' dots') ∈ nodes → splitLast decodeSeg raw = .ok (some (path, .field name)) →
    splitLast decodeSeg raw' = .ok (some (path, .field name)) → raw = raw'

theorem Entered.of_perm (h : Entered nodes path val) (hp : nodes.Perm nodes') (hd : (nodes.map Prod.fst).Nodup)
    (hlen : ∀ n ∈ nodes, n.1.length < 2 ^ 63) : Entered nodes' path val := by
  induction h with
  | root hmem => exact .root (hp.mem_iff.1 hmem)
  | field _ hmem hsplit ih => exact .field ih (hp.mem_iff.1 hmem) hsplit
  | elem _ hmem hsplit hlive ih =>
    refine .elem ih (hp.mem_iff.1 hmem) hsplit ?_
    rwa [← order_elems_eq hp hd hlen]

section Any

variable (finite : F → Bool) (lossy : Bytes → String)

/-- The document of grouped records. -/
def docOf (kids : Kids F) (fuel : Nat) : Option (NodeIn F) → Option (Doc F)
  | some (.map val dots) =>
    let r := materialize finite lossy kids fuel [] val ⟨(∅ : Std.ExtTreeMap Bytes (List Dot)).insert [] dots, ∅⟩
    some ⟨r.1, r.2⟩
  | _ => none

theorem buildDoc_eq_ok (hruns : ∀ n ∈ nodes, Runs (DocPath.splitLast decodeSeg n.1)) :
    buildDoc finite lossy nodes = .ok (docOf finite lossy (nodes.filterMap kidOf) (docFuel nodes) (rootOf none nodes)) := by
  rw [buildDoc, splitNodes_eq_ok hruns, Fallible.ok_bind, nil_append]
  cases rootOf none nodes with
  | none => rfl
  | some node => cases node <;> rfl

theorem buildDoc_eq_error (h : ∃ n ∈ nodes, ¬ Runs (DocPath.splitLast decodeSeg n.1)) :
    buildDoc finite lossy nodes = .error .bounds := by
  rw [buildDoc, splitNodes_eq_error h]
  rfl

/-- What is read of a node that is entered, and the index, do not depend on the order of the records. -/
theorem materialize_eq_of_perm (h : nodes.Perm nodes') (hd : (nodes.map Prod.fst).Nodup)
    (hlen : ∀ n ∈ nodes, n.1.length < 2 ^ 63) (honce : FieldsNamedOnce nodes) (fuel : Nat) (index : DocIndex)
    (hent : Entered nodes path val) :
    materialize finite lossy (nodes.filterMap kidOf) fuel path val index =
      materialize finite lossy (nodes'.filterMap kidOf) fuel path val index := by
  induction fuel generalizing path val index with
  | zero => rfl
  | succ fuel ih =>
    cases val with
    | obj =>
      have hnames : ((nodes.filterMap (fieldAt path)).map Prod.fst).Nodup := by
        refine nodup_filterMap hd ?_
        rintro ⟨raw, node⟩ hn ⟨raw', node'⟩ hn' f f' hf hf' heq
        obtain ⟨hs, rfl⟩ := fieldAt_eq_some.1 hf
        obtain ⟨hs', rfl⟩ := fieldAt_eq_some.1 hf'
        rw [← heq] at hs'
        exact honce path f.1 hent _ _ _ _ _ _ hn hn' hs hs'
      have hfields : sortAsc Prod.fst (nodes'.filterMap (fieldAt path)) = sortAsc Prod.fst (nodes.filterMap (fieldAt path)) :=
        (sortAsc_eq_of_perm (h.filterMap _) hnames).symm
      have hloop : ∀ acc, (sortAsc Prod.fst (nodes.filterMap (fieldAt path))).foldl
            (addField lossy (materialize finite lossy (nodes.filterMap kidOf) fuel) path) acc =
          (sortAsc Prod.fst (nodes.filterMap (fieldAt path))).foldl
            (addField lossy (materialize finite lossy (nodes'.filterMap kidOf) fuel) path) acc := by
        refine fun acc => foldl_ext _ _ _ fun acc f hf => ?_
        obtain ⟨raw, hmem, hs⟩ := mem_fields.1 (mem_sortAsc.1 hf)
        simp only [addField, ih _ (.field hent hmem hs)]
      simp only [materialize, fields_eq, hfields, hloop]
    | arr =>
      have hids := nodup_elems hd hlen path
      have hperm := h.filterMap (elemAt path)
      have hlook : ∀ e, (nodes'.filterMap (elemAt path)).reverse.lookup e = (nodes.filterMap (elemAt path)).reverse.lookup e := by
        intro e
        ext v
        rw [lookup_reverse_eq_some hids, lookup_reverse_eq_some ((hperm.map Prod.fst).nodup_iff.1 hids), hperm.mem_iff]
      have hloop : ∀ acc, ((Rga.order EID_HEAD (rgaElems (nodes.filterMap (elemAt path)))).filter Prod.snd).foldl
            (addElem (materialize finite lossy (nodes.filterMap kidOf) fuel) path (nodes.filterMap (elemAt path))) acc =
          ((Rga.order EID_HEAD (rgaElems (nodes.filterMap (elemAt path)))).filter Prod.snd).foldl
            (addElem (materialize finite lossy (nodes'.filterMap kidOf) fuel) path (nodes'.filterMap (elemAt path))) acc := by
        refine fun acc => foldl_ext _ _ _ fun acc x hx => ?_
        obtain ⟨hx, hlive⟩ := mem_filter.1 hx
        obtain ⟨e, live⟩ := x
        dsimp only at hlive
        subst hlive
        simp only [addElem, hlook]
        cases hl : (nodes.filterMap (elemAt path)).reverse.lookup e with
        | none => rfl
        | some r =>
          obtain ⟨raw, hmem, hs⟩ := mem_elems.1 ((lookup_reverse_eq_some hids).1 hl)
          simp only [ih _ (.elem hent hmem hs hx)]
      simp only [materialize, elems_eq, ← order_elems_eq h hd hlen, hloop]
    | _ => rfl

/-- Where the paths can be taken apart and fields are named once, the records are read as one document in every order. -/
theorem buildDoc_of_namedOnce (hd : (nodes.map Prod.fst).Nodup) (hlen : ∀ n ∈ nodes, n.1.length < 2 ^ 63)
    (hruns : ∀ n ∈ nodes, Runs (splitLast decodeSeg n.1)) (honce : FieldsNamedOnce nodes) (h : nodes'.Perm nodes) :
    buildDoc finite lossy nodes' = .ok (docOf finite lossy (nodes.filterMap kidOf) (docFuel nodes) (rootOf none nodes)) := by
  rw [buildDoc_eq_ok finite lossy fun n hn => hruns n (h.mem_iff.1 hn), ← rootOf_eq_of_perm h.symm hd, docFuel_eq_of_perm h]
  cases hroot : rootOf none nodes with
  | none => rfl
  | some node =>
    cases node with
    | arrElem elem live => rfl
    | map val dots =>
      have hmat := materialize_eq_of_perm finite lossy h.symm hd hlen honce (docFuel nodes)
        ⟨(∅ : Std.ExtTreeMap Bytes (List Dot)).insert [] dots, ∅⟩ (.root ((rootOf_eq_some hd).1 hroot))
      simp only [docOf, hmat]

/-! ## Two names for one field -/

/-- A loop over entries that comes to `Q` at some of them, and keeps it at the others. -/
theorem foldl_reaches {l : List α} (Q : β → Prop) (good : α → Prop)
    (hgood : ∀ acc, ∀ a ∈ l, good a → Q (step acc a)) (hkeep : ∀ acc, ∀ a ∈ l, ¬ good a → Q acc → Q (step acc a)) (acc : β)
    (h : Q acc ∨ ∃ a ∈ l, good a) : Q (l.foldl step acc) := by
  induction l generalizing acc with
  | nil =>
    rcases h with h | ⟨a, ha, -⟩
    · exact h
    · cases ha
  | cons a l ih =>
    refine ih (fun acc b hb => hgood acc b (mem_cons_of_mem _ hb)) (fun acc b hb => hkeep acc b (mem_cons_of_mem _ hb)) _ ?_
    by_cases ha : good a
    · exact .inl (hgood acc a mem_cons_self ha)
    rcases h with h | ⟨b, hb, hgb⟩
    · exact .inl (hkeep acc a mem_cons_self ha h)
    · rcases mem_cons.1 hb with rfl | hb
      · exact absurd hgb ha
      · exact .inr ⟨b, hb, hgb⟩

def DocIndex.dotsOf (index : DocIndex) (segs : List JsonSeg) : Option (List Dot) := index.mapDots[encodePath segs]?

section Index

variable {finite lossy} {q front : List JsonSeg} (hq : (encodePath q).length < 2 ^ 64)
include hq

theorem dotsOf_insert (hne : front ≠ q) (index : DocIndex) (d : List Dot) :
    DocIndex.dotsOf { index with mapDots := index.mapDots.insert (encodePath front) d } q = index.dotsOf q := by
  rw [DocIndex.dotsOf, Std.ExtTreeMap.getElem?_insert, if_neg]
  · rfl
  · intro hc
    exact hne (encodePath_inj hq (Std.compare_eq_iff_eq.1 hc).symm).symm

/-- A walk does not write the dots of a path that is no longer than its own. -/
theorem dotsOf_below (kids : Kids F) (fuel : Nat) (front : List JsonSeg) (val : JVal F) (index : DocIndex)
    (hle : q.length ≤ front.length) :
    (materialize finite lossy kids fuel (encodePath front) val index).2.dotsOf q = index.dotsOf q := by
  induction fuel generalizing front val index with
  | zero => rfl
  | succ fuel ih =>
    have hdown : ∀ s : JsonSeg, q.length ≤ (front ++ [s]).length := fun s => by rw [length_append]; omega
    cases val with
    | obj =>
      simp only [materialize]
      refine foldlRecOn (motive := fun acc : List (String × Json F) × DocIndex => acc.2.dotsOf q = index.dotsOf q) _ _ rfl ?_
      intro acc hacc f _
      simp only [addField, ← encodePath_concat]
      rw [ih _ _ _ (hdown _), dotsOf_insert hq]
      · exact hacc
      · rintro rfl
        simp at hle
    | arr =>
      simp only [materialize]
      refine foldlRecOn (motive := fun acc : List (Json F) × DocIndex => acc.2.dotsOf q = index.dotsOf q) _ _ rfl ?_
      intro acc hacc x _
      simp only [addElem]
      split
      · exact hacc
      · simp only [← encodePath_concat]
        rw [ih _ _ _ (hdown _)]
        exact hacc
    | _ => rfl

end Index

section Last

variable {finite lossy} (hq : (encodePath (segs ++ [.field name])).length < 2 ^ 64)
  (hlast : ((nodes.filterMap (fieldAt (encodePath segs))).filter fun f => f.1 = name).getLast?.map (fun f => f.2.2) = some d)
include hq hlast

/-- Where an object is entered, the last record of a field is the one in the index. -/
theorem dots_at (fuel : Nat) (index : DocIndex) :
    (materialize finite lossy (nodes.filterMap kidOf) (fuel + 1) (encodePath segs) .obj index).2.dotsOf (segs ++ [.field name]) =
      some d := by
  have hfold : ∀ (l : List (Bytes × JVal F × List Dot)) (acc : List (String × Json F) × DocIndex),
      (l.foldl (addField lossy (materialize finite lossy (nodes.filterMap kidOf) fuel) (encodePath segs)) acc).2.dotsOf
        (segs ++ [.field name]) =
      ((l.filter fun f => f.1 = name).getLast?.map fun f => f.2.2).or (acc.2.dotsOf (segs ++ [.field name])) := by
    intro l
    induction l with
    | nil => exact fun _ => rfl
    | cons f l ih =>
      intro acc
      rw [foldl_cons, ih]
      simp only [addField, ← encodePath_concat]
      rw [dotsOf_below hq _ _ _ _ _ (by simp)]
      by_cases hname : f.1 = name
      · rw [filter_cons_of_pos (by simpa using hname), getLast?_cons, hname, DocIndex.dotsOf, Std.ExtTreeMap.getElem?_insert_self]
        cases (l.filter fun f => f.1 = name).getLast? <;> rfl
      · rw [filter_cons_of_neg (by simpa using hname), dotsOf_insert hq (by simpa using hname)]
  simp only [materialize, fields_eq]
  rw [hfold, filter_sortAsc Prod.fst _ (fun f => f.1 = name) name fun f => decide_eq_true_iff, hlast]
  rfl

theorem dots_kept (fuel : Nat) (front : List JsonSeg) (val : JVal F) (index : DocIndex)
    (h : index.dotsOf (segs ++ [.field name]) = some d) :
    (materialize finite lossy (nodes.filterMap kidOf) fuel (encodePath front) val index).2.dotsOf (segs ++
      [.field name]) = some d := by
  induction fuel generalizing front val index with
  | zero => exact h
  | succ fuel ih =>
    cases val with
    | obj =>
      by_cases hfront : front = segs
      · rw [hfront]
        exact dots_at hq hlast fuel index
      simp only [materialize]
      refine foldlRecOn (motive := fun acc : List (String × Json F) × DocIndex =>
        acc.2.dotsOf (segs ++ [.field name]) = some d) _ _ (b := ([], index)) h ?_
      intro acc hacc f _
      simp only [addField, ← encodePath_concat]
      refine ih _ _ _ ?_
      rw [dotsOf_insert hq]
      · exact hacc
      · exact fun heq => hfront (append_inj_left' heq rfl)
    | arr =>
      simp only [materialize]
      refine foldlRecOn (motive := fun acc : List (Json F) × DocIndex => acc.2.dotsOf (segs ++ [.field name]) = some d) _ _
        (b := ([], index)) h ?_
      intro acc hacc x _
      simp only [addElem]
      split
      · exact hacc
      · simp only [← encodePath_concat]
        exact ih _ _ _ hacc
    | _ => exact h

variable (finite lossy) in
/-- If a walk from a node that is entered leaves them in the index, so does the walk from the root, which comes by. -/
theorem Entered.dots (hd : (nodes.map Prod.fst).Nodup) (hlen : ∀ n ∈ nodes, n.1.length < 2 ^ 63)
    (hfuel : segs.length < docFuel nodes) (hroot : ([], .map rootVal rootDots) ∈ nodes) (h : Entered nodes path val) :
    ∃ front, path = encodePath front ∧ (front.length ≤ segs.length →
      (∀ fuel, fuel + front.length = docFuel nodes → ∀ index : DocIndex,
        (materialize finite lossy (nodes.filterMap kidOf) fuel path val index).2.dotsOf (segs ++ [.field name]) = some d) →
      ∀ index : DocIndex, (materialize finite lossy (nodes.filterMap kidOf) (docFuel nodes) [] rootVal index).2.dotsOf
        (segs ++ [.field name]) = some d) := by
  induction h with
  | root hmem =>
    have heq := inj_on_of_nodup_map hd hmem hroot rfl
    cases heq
    exact ⟨[], rfl, fun _ hwalk => hwalk _ rfl⟩
  | @field path raw sname val dots _ hmem hsplit ih =>
    obtain ⟨front, rfl, ih⟩ := ih
    refine ⟨front ++ [.field sname], (encodePath_concat ..).symm, fun hle hchild => ?_⟩
    rw [length_append, length_singleton] at hle hchild
    refine ih (by omega) fun fuel hf index => ?_
    cases fuel with
    | zero => omega
    | succ fuel =>
      have hin : (sname, val, dots) ∈ sortAsc Prod.fst (nodes.filterMap (fieldAt (encodePath front))) :=
        mem_sortAsc.2 (mem_fields.2 ⟨raw, hmem, hsplit⟩)
      simp only [materialize, fields_eq]
      refine foldl_reaches (fun acc : List (String × Json F) × DocIndex => acc.2.dotsOf (segs ++ [.field name]) = some d)
        (· = (sname, val, dots)) ?_ ?_ _ (.inr ⟨_, hin, rfl⟩)
      · rintro acc f - rfl
        simp only [addField]
        exact hchild fuel (by omega) _
      · intro acc f _ _ hacc
        simp only [addField, ← encodePath_concat]
        refine dots_kept hq hlast _ _ _ _ ?_
        rw [dotsOf_insert hq]
        · exact hacc
        · intro heq
          have := congrArg List.length heq
          simp only [length_append, length_singleton] at this
          omega
  | @elem path raw e elem live _ hmem hsplit hlive ih =>
    obtain ⟨front, rfl, ih⟩ := ih
    refine ⟨front ++ [.elem e], (encodePath_concat ..).symm, fun hle hchild => ?_⟩
    rw [length_append, length_singleton] at hle hchild
    refine ih (by omega) fun fuel hf index => ?_
    cases fuel with
    | zero => omega
    | succ fuel =>
      have hlook : (nodes.filterMap (elemAt (encodePath front))).reverse.lookup e = some (elem, live) :=
        (lookup_reverse_eq_some (nodup_elems hd hlen _)).2 (mem_elems.2 ⟨raw, hmem, hsplit⟩)
      have hin : (e, true) ∈ (Rga.order EID_HEAD (rgaElems (nodes.filterMap (elemAt (encodePath front))))).filter Prod.snd :=
        mem_filter.2 ⟨hlive, rfl⟩
      simp only [materialize, elems_eq]
      refine foldl_reaches (fun acc : List (Json F) × DocIndex => acc.2.dotsOf (segs ++ [.field name]) = some d)
        (fun x : Eid × Bool => x.1 = e) ?_ ?_ _ (.inr ⟨(e, true), hin, rfl⟩)
      · intro acc x _ hx
        simp only [addElem, hx, hlook]
        exact hchild fuel (by omega) _
      · intro acc x _ _ hacc
        simp only [addElem]
        split
        · exact hacc
        · simp only [← encodePath_concat]
          exact dots_kept hq hlast _ _ _ _ hacc

end Last

theorem Entered.root_mem (h : Entered nodes path val) :
    (∃ rootVal dots, ([], .map rootVal dots) ∈ nodes) ∧ ∃ segs, path = encodePath segs := by
  induction h with
  | root hmem => exact ⟨⟨_, _, hmem⟩, [], rfl⟩
  | field _ _ _ ih | elem _ _ _ _ ih =>
    obtain ⟨hroot, segs, rfl⟩ := ih
    exact ⟨hroot, segs ++ [_], (encodePath_concat segs _).symm⟩

/-- If the record of a field comes last, its dots are in the index. -/
theorem dots_of_last (hd : ((s ++ [(raw, .map val dots)] : List (Bytes × NodeIn F)).map Prod.fst).Nodup)
    (hlen : ∀ n ∈ s ++ [(raw, .map val dots)], n.1.length < 2 ^ 63)
    (hruns : ∀ n ∈ s ++ [(raw, .map val dots)], Runs (splitLast decodeSeg n.1))
    (hent : Entered (s ++ [(raw, .map val dots)]) path .obj) (hsplit : splitLast decodeSeg raw = .ok (some (path, .field name))) :
    ∃ doc, buildDoc finite lossy (s ++ [(raw, .map val dots)]) = .ok (some doc) ∧
      doc.index.mapDots[pushSeg path (.field name)]? = some dots := by
  set nodes := s ++ [(raw, .map val dots)] with hnodes
  have hmem : (raw, .map val dots) ∈ nodes := by simp [hnodes]
  obtain ⟨⟨rootVal, rootDots, hroot⟩, segs, rfl⟩ := hent.root_mem
  have hq := length_pushSeg_of_splitLast_field (hlen _ hmem) hsplit
  have hsegs : (encodePath segs).length < 2 ^ 64 := lt_trans (length_pushSeg _ _) hq
  rw [← encodePath_concat] at hq ⊢
  have hfuel : segs.length < docFuel nodes := by
    obtain ⟨start, n, hstart, hparent, -, -⟩ := splitLast_eq_some hsplit
    have h1 := length_le_encodePath segs
    have h2 : (encodePath segs).length ≤ raw.length := by
      rw [hparent, length_take]
      omega
    have h3 := lt_docFuel hmem
    dsimp only at h3
    omega
  have hlast : ((nodes.filterMap (fieldAt (encodePath segs))).filter fun f => f.1 = name).getLast?.map (fun f => f.2.2) =
    some dots := by
    have hfield : fieldAt (encodePath segs) (raw, NodeIn.map val dots) = some (name, val, dots) :=
      fieldAt_eq_some.2 ⟨hsplit, rfl⟩
    rw [hnodes, filterMap_append, filterMap_cons_some hfield, filterMap_nil, filter_append,
      filter_cons_of_pos (by simp), filter_nil,
      getLast?_append]
    rfl
  have hdoc := buildDoc_eq_ok finite lossy hruns
  rw [(rootOf_eq_some hd).2 hroot] at hdoc
  refine ⟨_, hdoc, ?_⟩
  obtain ⟨front, hfront, hwalk⟩ := hent.dots finite lossy hq hlast hd hlen hfuel hroot
  obtain rfl := encodePath_inj hsegs hfront
  refine hwalk le_rfl (fun fuel hf index => ?_) _
  cases fuel with
  | zero => omega
  | succ fuel => exact dots_at hq hlast fuel index

variable {finite lossy}

/-- A record with other dots. -/
def redot (dots : Bytes → List Dot) (n : Bytes × NodeIn F) : Bytes × NodeIn F :=
  (n.1, match n.2 with
    | .map val _ => .map val (dots n.1)
    | node => node)

theorem elemAt_redot (dots : Bytes → List Dot) (path : Bytes) (n : Bytes × NodeIn F) :
    elemAt path (redot dots n) = elemAt path n := by
  obtain ⟨raw, node⟩ := n
  ext x
  rw [redot, elemAt_eq_some, elemAt_eq_some]
  cases node <;> simp

theorem Entered.redot (h : Entered nodes path val) (dots : Bytes → List Dot) : Entered (nodes.map (redot dots)) path val := by
  induction h with
  | root hmem => exact .root (mem_map_of_mem (f := Marekvs.redot dots) hmem)
  | field _ hmem hsplit ih => exact .field ih (mem_map_of_mem (f := Marekvs.redot dots) hmem) hsplit
  | elem _ hmem hsplit hlive ih =>
    refine .elem ih (mem_map_of_mem (f := Marekvs.redot dots) hmem) hsplit ?_
    rw [filterMap_map, show elemAt _ ∘ Marekvs.redot dots = elemAt _ from funext (elemAt_redot dots _)]
    exact hlive

/-- Records that are read as one document in every order, whatever their dots, have paths that can be taken apart, and name the
fields of objects that are entered once. -/
theorem namedOnce_of_order_free (hd : (nodes.map Prod.fst).Nodup) (hlen : ∀ n ∈ nodes, n.1.length < 2 ^ 63)
    (hfree : ∀ dots, ∃ r, ∀ nodes', nodes'.Perm (nodes.map (redot dots)) → buildDoc finite lossy nodes' = .ok r) :
    (∀ n ∈ nodes, Runs (splitLast decodeSeg n.1)) ∧ FieldsNamedOnce nodes := by
  -- dots that tell the paths
  let own : Bytes → List Dot := map fun b => ⟨b.toUInt64, 0⟩
  have hown : Function.Injective own := map_injective_iff.2 fun a b h => by
    have := congrArg (fun d => d.hlc.toUInt8) h
    simpa using this
  obtain ⟨r, hr⟩ := hfree own
  have hruns : ∀ n ∈ nodes, Runs (splitLast decodeSeg n.1) := by
    intro n hn
    by_contra hbad
    have herr := hr _ (List.Perm.refl _)
    rw [buildDoc_eq_error finite lossy ⟨redot own n, mem_map_of_mem hn, hbad⟩] at herr
    cases herr
  refine ⟨hruns, fun path name hent raw val dots raw' val' dots' hmem hmem' hs hs' => hown ?_⟩
  -- whichever record of the field comes last, its dots are in the index of the one document
  have hdots : ∀ raw val dots, (raw, .map val dots) ∈ nodes → splitLast decodeSeg raw = .ok (some (path, .field name)) →
      ∃ doc, r = some doc ∧ doc.index.mapDots[pushSeg path (.field name)]? = some (own raw) := by
    intro raw val dots hmem hs
    obtain ⟨s, t, hst⟩ := append_of_mem (mem_map_of_mem (f := redot own) hmem)
    have hp : (s ++ t ++ [redot own (raw, .map val dots)]).Perm (nodes.map (redot own)) := by
      rw [hst]
      exact (perm_append_singleton _ _).trans perm_middle.symm
    have hfst : ((nodes.map (redot own)).map Prod.fst) = nodes.map Prod.fst := by
      rw [map_map]
      rfl
    have hback : ∀ n ∈ s ++ t ++ [redot own (raw, .map val dots)], ∃ m ∈ nodes, m.1 = n.1 := by
      intro n hn
      obtain ⟨m, hm, rfl⟩ := mem_map.1 (hp.mem_iff.1 hn)
      exact ⟨m, hm, rfl⟩
    have hlen' : ∀ n ∈ s ++ t ++ [redot own (raw, .map val dots)], n.1.length < 2 ^ 63 := by
      intro n hn
      obtain ⟨m, hm, heq⟩ := hback n hn
      exact heq ▸ hlen m hm
    have hd' : ((nodes.map (redot own)).map Prod.fst).Nodup := hfst ▸ hd
    obtain ⟨doc, hdoc, hindex⟩ := dots_of_last finite lossy ((hp.map Prod.fst).nodup_iff.2 hd') hlen'
      (fun n hn => by
        obtain ⟨m, hm, heq⟩ := hback n hn
        exact heq ▸ hruns m hm)
      ((hent.redot own).of_perm hp.symm hd' fun n hn => hlen' n (hp.mem_iff.2 hn)) hs
    exact ⟨doc, Except.ok.inj ((hr _ hp).symm.trans hdoc), hindex⟩
  obtain ⟨doc, rfl, hindex⟩ := hdots raw val dots hmem hs
  obtain ⟨doc', heq, hindex'⟩ := hdots raw' val' dots' hmem' hs'
  cases heq
  rw [hindex] at hindex'
  exact Option.some.inj hindex'

end Any

end Marekvs
