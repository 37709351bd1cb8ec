import Marekvs.Lemmas.JsonOrder
import Marekvs.Lib.Trie

/-!
# Values written out as records

What `decomposeChildren` writes below a node are the records of a tree (`Laid`). A reader who finds the records again, in whatever
order, reads the value back (`materialize_laid`). The ids of array elements only have to be distinct: each element is anchored to
the one before it, and a chain is read as it was written.
-/

namespace Marekvs

open List Machine Ordered Diff
open JsonSeg (pushSeg encodePath decodeSeg encodePath_concat)

variable {F : Type}

/-! ## Trees of records -/

/-- A value that the parser of JSON texts can give: its integers fit in 64 bits, its floats are numbers, and the keys of each
of its objects are distinct. -/
inductive Held (finite : F → Bool) : Json F → Prop
  | null : Held finite .null
  | bool (b : Bool) : Held finite (.bool b)
  | int {n : Int} : -2 ^ 63 ≤ n → n < 2 ^ 64 → Held finite (.int n)
  | float {x : F} : finite x = true → Held finite (.float x)
  | str (s : String) : Held finite (.str s)
  | arr {items : List (Json F)} : (∀ v ∈ items, Held finite v) → Held finite (.arr items)
  | obj {members : List (String × Json F)} : Strict (fun m : String × Json F => utf8 m.1) members →
      (∀ m ∈ members, Held finite m.2) → Held finite (.obj members)

/-- The id of the array element that a record is for. -/
def JsonRecord.eid : JsonRecord F → Option Eid
  | .map _ _ => none
  | .arr path _ =>
    match split? path with
    | some (_, .elem e) => some e
    | _ => none

/-- A record as it is read, with the dots that were written at each path. -/
def JsonRecord.node (dots : Bytes → List Dot) (r : JsonRecord F) : Bytes × NodeIn F :=
  (r.path, match r with
    | .map path val => .map val (dots path)
    | .arr _ elem => .arrElem elem true)

/-- The ids of the array elements are distinct, and none is the sentinel. -/
def IdsDistinct (records : List (JsonRecord F)) : Prop := (EID_HEAD :: records.filterMap JsonRecord.eid).Nodup

/-- A member or an element: what it is named by, its value, the dots of its record and what hangs below it. -/
structure JsonPart (K F : Type) where
  key : K
  val : Json F
  dots : List Dot
  below : Trie JsonSeg (NodeIn F)

/-- The edge of a member. -/
def JsonPart.field (m : JsonPart String F) : JsonSeg × NodeIn F × Trie JsonSeg (NodeIn F) :=
  (.field (utf8 m.key), .map (jvalOf m.val) m.dots, m.below)

/-- The edges of elements, each behind the one before it. -/
def elemEdges : Eid → List (JsonPart Eid F) → List (JsonSeg × NodeIn F × Trie JsonSeg (NodeIn F)) :=
  Trie.chainEdges .elem JsonPart.key (fun left e => .arrElem ⟨left, jvalOf e.val⟩ true) JsonPart.below

/-- The tree of what is below a value. -/
inductive Laid : Json F → Trie JsonSeg (NodeIn F) → Prop
  | scalar {v : Json F} : jvalOf v ≠ .obj → jvalOf v ≠ .arr → Laid v (.mk [])
  | obj (ms : List (JsonPart String F)) : (∀ m ∈ ms, Laid m.val m.below) →
      Laid (.obj (ms.map fun m => (m.key, m.val))) (.mk (ms.map JsonPart.field))
  | arr (es : List (JsonPart Eid F)) : (EID_HEAD :: es.map JsonPart.key).Nodup → (∀ e ∈ es, Laid e.val e.below) →
      Laid (.arr (es.map JsonPart.val)) (.mk (elemEdges EID_HEAD es))

variable {v : Json F} {t : Trie JsonSeg (NodeIn F)} {rs : List (List JsonSeg × NodeIn F)} {q : List JsonSeg} {finite : F → Bool}

/-- The edges of every node have different names. -/
theorem Laid.named (h : Laid v t) : Held finite v → t.Named := by
  induction h with
  | scalar _ _ =>
    intro _
    exact .mk nodup_nil nofun
  | obj ms _ ih =>
    intro hheld
    cases hheld with
    | obj hstrict hall =>
      refine .mk ?_ ?_
      · rw [map_map, List.Nodup, pairwise_map]
        refine (pairwise_map.1 hstrict).imp ?_
        intro m m' hlt heq
        exact hlt.ne (JsonSeg.field.inj heq)
      · intro k hk
        obtain ⟨m, hm, rfl⟩ := mem_map.1 hk
        exact ih m hm (hall _ (mem_map.2 ⟨m, hm, rfl⟩))
  | arr es hids _ ih =>
    intro hheld
    cases hheld with
    | arr hall =>
      refine .mk ?_ ?_
      · rw [elemEdges, Trie.map_fst_chainEdges]
        exact (nodup_cons.1 hids).2.map fun a b h => JsonSeg.elem.inj h
      intro k hk
      obtain ⟨e, he, -, hbelow⟩ := Trie.of_mem_chainEdges hk
      rw [hbelow]
      exact ih e he (hall _ (mem_map_of_mem he))

/-! ## Writing out -/

def stored (rs : List (List JsonSeg × NodeIn F)) : List (Bytes × NodeIn F) := rs.map fun r => (encodePath r.1, r.2)

/-- Records that can be stored: with distinct ids, and paths whose lengths fit. -/
structure Storable (records : List (JsonRecord F)) : Prop where
  ids : IdsDistinct records
  short : ∀ r ∈ records, r.path.length < 2 ^ 63

theorem Storable.sublist (h : Storable records) (hs : records'.Sublist records) : Storable records' :=
  ⟨List.Nodup.sublist (cons_sublist_cons.2 (hs.filterMap _)) h.ids, fun r hr => h.short r (hs.subset hr)⟩

theorem Storable.of_cons {r : JsonRecord F} {below rest : List (JsonRecord F)} (h : Storable (r :: (below ++ rest))) :
    r.path.length < 2 ^ 63 ∧ Storable below ∧ Storable rest :=
  ⟨h.short r mem_cons_self, h.sublist ((sublist_append_left _ _).trans (sublist_cons_self _ _)),
    h.sublist ((sublist_append_right _ _).trans (sublist_cons_self _ _))⟩

theorem eid_of_path (q : List JsonSeg) (e : Eid) (elem : ArrElem F) (hlen : (encodePath (q ++ [.elem e])).length < 2 ^ 63) :
    (JsonRecord.arr (encodePath (q ++ [.elem e])) elem).eid = some e := by
  rw [JsonRecord.eid, split?_eq_some.2 (JsonSeg.splitLast_encodePath (by omega))]

section Decomposed

variable {σ : Type} (fresh : Bytes → Nat → σ → Eid × σ) (dots : Bytes → List Dot)

theorem decomposeMembers_cons (q : List JsonSeg) (k : String) (child : Diff.Json F) (members : List (String × Json F)) (s : σ) :
    ∃ s', (decomposeMembers fresh (encodePath q) ((k, child) :: members) s).1 =
      .map (encodePath (q ++ [.field (utf8 k)])) (jvalOf child) ::
        ((decomposeChildren fresh (encodePath (q ++ [.field (utf8 k)])) child s).1 ++
          (decomposeMembers fresh (encodePath q) members s').1) := by
  rw [decomposeMembers, encodePath_concat]
  exact ⟨_, rfl⟩

theorem decomposeItems_cons (q : List JsonSeg) (left : Eid) (ordinal : Nat) (child : Json F) (items : List (Json F)) (s : σ) :
    ∃ e s' s'', (decomposeItems fresh (encodePath q) left ordinal (child :: items) s).1 =
      .arr (encodePath (q ++ [.elem e])) ⟨left, jvalOf child⟩ ::
        ((decomposeChildren fresh (encodePath (q ++ [.elem e])) child s').1 ++
          (decomposeItems fresh (encodePath q) e (ordinal + 1) items s'').1) := by
  refine ⟨(fresh (encodePath q) ordinal s).1, (fresh (encodePath q) ordinal s).2, ?_⟩
  rw [decomposeItems, encodePath_concat]
  exact ⟨_, rfl⟩

mutual

/-- The records below a value are those of a tree. -/
theorem written_children (q : List JsonSeg) : ∀ (v : Json F) (s : σ), Storable (decomposeChildren fresh (encodePath q) v s).1 →
    ∃ t, Laid v t ∧ (decomposeChildren fresh (encodePath q) v s).1.map (JsonRecord.node dots) = stored (t.records q)
  | .obj members, s, hst => by
    obtain ⟨ms, rfl, hlaid, hr⟩ := written_members q members s hst
    exact ⟨_, .obj ms hlaid, hr⟩
  | .arr items, s, hst => by
    obtain ⟨es, rfl, hids, hlaid, hr⟩ := written_items q EID_HEAD 0 items s hst
    exact ⟨_, .arr es (List.Nodup.sublist (cons_sublist_cons.2 hids) hst.ids) hlaid, hr⟩
  | .null, _, _ => ⟨_, .scalar nofun nofun, rfl⟩
  | .bool _, _, _ => ⟨_, .scalar nofun nofun, rfl⟩
  | .int n, _, _ => ⟨_, .scalar (by rw [jvalOf]; split <;> exact nofun) (by rw [jvalOf]; split <;> exact nofun), rfl⟩
  | .float _, _, _ => ⟨_, .scalar nofun nofun, rfl⟩
  | .str _, _, _ => ⟨_, .scalar nofun nofun, rfl⟩

theorem written_members (q : List JsonSeg) : ∀ (members : List (String × Json F)) (s : σ),
    Storable (decomposeMembers fresh (encodePath q) members s).1 →
    ∃ ms : List (JsonPart String F), members = ms.map (fun m => (m.key, m.val)) ∧ (∀ m ∈ ms, Laid m.val m.below) ∧
      (decomposeMembers fresh (encodePath q) members s).1.map (JsonRecord.node dots) =
        stored (Trie.recordsOf q (ms.map JsonPart.field))
  | [], _, _ => ⟨[], rfl, nofun, rfl⟩
  | (k, child) :: members, s, hst => by
    obtain ⟨s', hcons⟩ := decomposeMembers_cons fresh q k child members s
    rw [hcons] at hst ⊢
    obtain ⟨-, hbelow, hrest⟩ := hst.of_cons
    obtain ⟨t, ht, hr⟩ := written_children (q ++ [.field (utf8 k)]) child s hbelow
    obtain ⟨ms, rfl, hlaid, hrs⟩ := written_members q members s' hrest
    refine ⟨⟨k, child, dots (encodePath (q ++ [.field (utf8 k)])), t⟩ :: ms, rfl, forall_mem_cons.2 ⟨ht, hlaid⟩, ?_⟩
    rw [map_cons, map_append, hr, hrs]
    simp [stored, Trie.recordsOf, JsonPart.field, JsonRecord.node, JsonRecord.path]

theorem written_items (q : List JsonSeg) (left : Eid) (ordinal : Nat) : ∀ (items : List (Json F)) (s : σ),
    Storable (decomposeItems fresh (encodePath q) left ordinal items s).1 →
    ∃ es : List (JsonPart Eid F), items = es.map JsonPart.val ∧
      (es.map JsonPart.key).Sublist ((decomposeItems fresh (encodePath q) left ordinal items s).1.filterMap JsonRecord.eid) ∧
      (∀ e ∈ es, Laid e.val e.below) ∧
      (decomposeItems fresh (encodePath q) left ordinal items s).1.map (JsonRecord.node dots) =
        stored (Trie.recordsOf q (elemEdges left es))
  | [], _, _ => ⟨[], rfl, List.nil_sublist _, nofun, rfl⟩
  | child :: items, s, hst => by
    obtain ⟨e, s', s'', hcons⟩ := decomposeItems_cons fresh q left ordinal child items s
    rw [hcons] at hst ⊢
    obtain ⟨hpath, hbelow, hrest⟩ := hst.of_cons
    obtain ⟨t, ht, hr⟩ := written_children (q ++ [.elem e]) child s' hbelow
    obtain ⟨es, rfl, hids, hlaid, hrs⟩ := written_items q e (ordinal + 1) items s'' hrest
    refine ⟨⟨e, child, [], t⟩ :: es, rfl, ?_, forall_mem_cons.2 ⟨ht, hlaid⟩, ?_⟩
    · rw [filterMap_cons_some (eid_of_path q e _ hpath), filterMap_append]
      exact (hids.trans (sublist_append_right _ _)).cons_cons _
    · rw [map_cons, map_append, hr, hrs]
      simp [stored, Trie.recordsOf, elemEdges, Trie.chainEdges, Rga.chain, JsonRecord.node, JsonRecord.path]

end

end Decomposed

/-! ## Reading it back -/

theorem insertMember_of_lt (h : ∀ m ∈ members, utf8 m.1 < utf8 key) : insertMember key v members = members ++ [(key, v)] := by
  induction members with
  | nil => rfl
  | cons m members ih =>
    obtain ⟨hm, hrest⟩ := forall_mem_cons.1 h
    have hne : key ≠ m.1 := by
      rintro rfl
      exact absurd hm (lt_irrefl _)
    rw [insertMember, if_neg hne, if_neg (lt_asymm hm), ih hrest, cons_append]

section Read

variable {lossy : Bytes → String} (hlossy : ∀ s, lossy (utf8 s) = s)
include hlossy

theorem scalarValue_jvalOf (h : Held finite v) (hobj : jvalOf v ≠ .obj) (harr : jvalOf v ≠ .arr) :
    scalarValue finite lossy (jvalOf v) = v := by
  cases h with
  | null => rfl
  | bool b => rfl
  | @int n h1 h2 =>
    rw [jvalOf]
    split
    · next hlt =>
      rw [scalarValue, Int64.toInt_ofInt_of_le (by omega) (by omega)]
    next hge =>
    rw [scalarValue, UInt64.toNat_ofNat_of_lt' (by norm_num [UInt64.size]; omega)]
    congr 1
    omega
  | float h => rw [jvalOf, scalarValue, if_pos h]
  | str s => rw [jvalOf, scalarValue, hlossy]
  | arr _ => exact absurd rfl harr
  | obj _ _ => exact absurd rfl hobj

/-- The loop over the fields of an object puts its members together. -/
theorem foldl_addField
    (hsub : ∀ m ∈ ms, ∀ index, (sub (pushSeg path (.field (utf8 m.key))) (jvalOf m.val) index).1 = m.val)
    (hstrict : Strict (fun m : JsonPart String F => utf8 m.key) ms)
    (acc : List (String × Diff.Json F) × DocIndex) (hacc : ∀ a ∈ acc.1, ∀ m ∈ ms, utf8 a.1 < utf8 m.key) :
    ((ms.map fun m => (utf8 m.key, jvalOf m.val, m.dots)).foldl (addField lossy sub path) acc).1 =
      acc.1 ++ ms.map fun m => (m.key, m.val) := by
  induction ms generalizing acc with
  | nil => simp
  | cons m ms ih =>
    obtain ⟨hm, hms⟩ := forall_mem_cons.1 hsub
    obtain ⟨hlt, hstrict'⟩ := pairwise_cons.1 hstrict
    have hstep : (addField lossy sub path acc (utf8 m.key, jvalOf m.val, m.dots)).1 = acc.1 ++ [(m.key, m.val)] := by
      simp only [addField, hlossy, hm]
      exact insertMember_of_lt fun a ha => hacc a ha m mem_cons_self
    rw [map_cons, foldl_cons, ih hms hstrict', hstep, map_cons, append_assoc, singleton_append]
    rw [hstep]
    intro a ha m' hm'
    rcases mem_append.1 ha with ha | ha
    · exact hacc a ha m' (mem_cons_of_mem _ hm')
    · rw [mem_singleton.1 ha]
      exact hlt m' hm'

omit hlossy in
/-- The loop over the elements of an array puts its items together. -/
theorem foldl_addElem {es : List (JsonPart Eid F)} {elems : List (Eid × ArrElem F × Bool)}
    (hsub : ∀ e ∈ es, ∀ index, (sub (pushSeg path (.elem e.key)) (jvalOf e.val) index).1 = e.val)
    (helems : ∀ e ∈ es, ∃ left, elems.reverse.lookup e.key = some (⟨left, jvalOf e.val⟩, true))
    (acc : List (Diff.Json F) × DocIndex) :
    ((es.map fun e => (e.key, true)).foldl (addElem sub path elems) acc).1 = acc.1 ++ es.map JsonPart.val := by
  induction es generalizing acc with
  | nil => simp
  | cons e es ih =>
    obtain ⟨he, hes⟩ := forall_mem_cons.1 hsub
    obtain ⟨⟨left, hleft⟩, hels⟩ := forall_mem_cons.1 helems
    have hstep : (addElem sub path elems acc (e.key, true)).1 = acc.1 ++ [e.val] := by
      simp only [addElem, hleft, he]
    rw [map_cons, foldl_cons, ih hes hels, hstep, map_cons, append_assoc, singleton_append]

/-- A value is read back from the tree it was laid out as, by a reader who finds the edges of each node at its path. -/
theorem materialize_laid {kids : Kids F} (h : Laid v t) : Held finite v →
    ∀ (n : Nat) (q : List JsonSeg) (index : DocIndex), Trie.Sees (fun q => kids.get (encodePath q)) q t → Trie.Within n t →
      (materialize finite lossy kids (n + 1) (encodePath q) (jvalOf v) index).1 = v := by
  induction h with
  | scalar hobj harr =>
    intro hheld n q index _ _
    have hscalar := scalarValue_jvalOf hlossy hheld hobj harr
    rw [materialize]
    · exact hscalar
    · exact hobj
    · exact harr
  | obj ms _ ih =>
    intro hheld n q index hsees hin
    cases hheld with
    | obj hstrict hall =>
      have hstrict' : Strict (fun m : JsonPart String F => utf8 m.key) ms := by rwa [Strict, pairwise_map] at hstrict
      have hsorted : Strict Prod.fst (ms.map fun m => (utf8 m.key, jvalOf m.val, m.dots)) := by rwa [Strict, pairwise_map]
      obtain ⟨ms', hget, hperm⟩ := hsees.exists_perm
      have hfields : ((kids.get (encodePath q)).filterMap fieldOf).Perm (ms.map fun m => (utf8 m.key, jvalOf m.val, m.dots)) := by
        rw [hget, filterMap_map]
        refine List.Perm.trans (List.Perm.of_eq ?_) (hperm.map fun m => (utf8 m.key, jvalOf m.val, m.dots))
        exact congrFun filterMap_eq_map ms'
      have hread := sortAsc_eq_of_perm hfields ((hfields.map Prod.fst).nodup_iff.2 ((pairwise_map.2 hsorted).imp fun h => h.ne))
      rw [hsorted.sortAsc_eq] at hread
      have hsub : ∀ m ∈ ms, ∀ index, (materialize finite lossy kids n (pushSeg (encodePath q) (.field (utf8 m.key)))
          (jvalOf m.val) index).1 = m.val := by
        intro m hm index
        have hk : m.field ∈ ms.map JsonPart.field := mem_map_of_mem hm
        obtain ⟨n, rfl, hdown⟩ := hin.exists_down hk
        rw [← encodePath_concat]
        exact ih m hm (hall (m.key, m.val) (mem_map.2 ⟨m, hm, rfl⟩)) n _ index (hsees.down hk) hdown
      have hloop := foldl_addField hlossy hsub hstrict' ([], index) (forall_mem_nil _)
      simp only [jvalOf_obj, materialize, hread, hloop, nil_append]
  | arr es hids _ ih =>
    intro hheld n q index hsees hin
    cases hheld with
    | arr hall =>
      have helems := hsees.here.filterMap elemOf
      rw [elemEdges, Trie.filterMap_heads_chainEdges (fun x => (x.1, ⟨x.2.1, jvalOf x.2.2.val⟩, true)) fun _ => rfl] at helems
      obtain ⟨hlive, hfound⟩ :=
        Rga.order_of_perm_chain ArrElem.left (fun left e => ⟨left, jvalOf e.val⟩) (fun _ _ => rfl) hids helems
      have hsub : ∀ e ∈ es, ∀ index, (materialize finite lossy kids n (pushSeg (encodePath q) (.elem e.key))
          (jvalOf e.val) index).1 = e.val := by
        intro e he index
        obtain ⟨k, hk, hname, hbelow⟩ : ∃ k ∈ elemEdges EID_HEAD es, k.1 = .elem e.key ∧ k.2.2 = e.below :=
          Trie.exists_mem_chainEdges EID_HEAD he
        obtain ⟨n, rfl, hdown⟩ := hin.exists_down hk
        have hseesk := hsees.down hk
        rw [hbelow] at hdown hseesk
        rw [← encodePath_concat, ← hname]
        exact ih e he (hall e.val (mem_map_of_mem he)) n _ index hseesk hdown
      have hloop := foldl_addElem hsub hfound ([], index)
      simp only [jvalOf_arr, materialize, rgaElems, hlive, hloop, nil_append]

end Read

/-! ## Finding it again -/

/-- What is below a written path is found by its bytes. -/
theorem get_kids (hlen : ∀ r ∈ rs, (encodePath r.1).length < 2 ^ 63) :
    Kids.get ((stored rs).filterMap kidOf) (encodePath q) = Trie.under rs q := by
  have hkids : (stored rs).filterMap kidOf = rs.filterMap fun r => r.1.getLast?.map fun s =>
    (encodePath r.1.dropLast, s, r.2) := by
    rw [stored, filterMap_map]
    refine filterMap_congr ?_
    rintro ⟨segs, node⟩ hr
    have hr := hlen _ hr
    rcases eq_nil_or_concat segs with rfl | ⟨front, s, rfl⟩
    · rfl
    · rw [concat_eq_append] at hr ⊢
      have hsplit := split?_eq_some.2 (JsonSeg.splitLast_encodePath (lt_trans hr (by norm_num)))
      simp [kidOf, hsplit]
  rw [hkids]
  refine Trie.filed_eq_under encodePath ?_
  rintro ⟨segs, node⟩ hr hne heq
  have hr := hlen _ hr
  obtain ⟨front, s, rfl⟩ := (eq_nil_or_concat segs).resolve_left hne
  rw [concat_eq_append, dropLast_concat] at *
  have := JsonSeg.length_pushSeg (encodePath front) s
  rw [encodePath_concat] at hr
  exact JsonSeg.encodePath_inj (by omega) heq

theorem runs_stored (hlen : ∀ r ∈ rs, (encodePath r.1).length < 2 ^ 63) :
    ∀ n ∈ stored rs, Runs (DocPath.splitLast decodeSeg n.1) := by
  intro n hn
  obtain ⟨⟨segs, node⟩, hr, rfl⟩ := mem_map.1 hn
  have hr := hlen _ hr
  rcases eq_nil_or_concat segs with rfl | ⟨front, s, rfl⟩
  · exact ⟨none, rfl⟩
  · rw [concat_eq_append] at hr ⊢
    exact ⟨_, JsonSeg.splitLast_encodePath (lt_trans hr (by norm_num))⟩

/-- A value is read from the records of its tree in any order. -/
theorem buildDoc_of_perm (hlossy : ∀ s, lossy (utf8 s) = s) (hheld : Held finite v) (hlaid : Laid v t)
    (hperm : rs.Perm (([], .map (jvalOf v) dots) :: t.records [])) (hlen : ∀ r ∈ rs, (encodePath r.1).length < 2 ^ 63) :
    ∃ doc, buildDoc finite lossy (stored rs) = .ok (some doc) ∧ doc.value = v := by
  have hroot : rootOf none (stored rs) = some (.map (jvalOf v) dots) := by
    obtain ⟨hmem, hone⟩ := Trie.root_of_perm hperm
    refine Trie.foldl_select ?_ none (.inr ⟨_, mem_map_of_mem hmem, rfl⟩)
    intro n hn hnil
    obtain ⟨r, hr, rfl⟩ := mem_map.1 hn
    have hempty : encodePath r.1 = encodePath [] := hnil
    exact hone r hr (JsonSeg.encodePath_inj (by rw [hempty]; decide) hempty)
  have hsees : Trie.Sees (fun q => Kids.get ((stored rs).filterMap kidOf) (encodePath q)) [] t :=
    Trie.sees_of_perm (hlaid.named hheld) hperm fun p t' _ => get_kids hlen
  have hin : Trie.Within (docFuel (stored rs) - 1) t := by
    refine Trie.within_of_length ?_
    intro r hr
    have hmem : (encodePath r.1, r.2) ∈ stored rs := mem_map.2 ⟨r, hperm.mem_iff.2 (mem_cons_of_mem _ hr), rfl⟩
    exact (JsonSeg.length_le_encodePath r.1).trans (Nat.le_sub_one_of_lt (lt_docFuel hmem))
  have hdoc := buildDoc_eq_ok finite lossy (runs_stored hlen)
  rw [hroot] at hdoc
  exact ⟨_, hdoc, materialize_laid hlossy hlaid hheld _ [] _ hsees hin⟩

end Marekvs
