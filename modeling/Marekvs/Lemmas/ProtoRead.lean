import Marekvs.Lemmas.ProtoWritten

/-!
# Reading a message back

`walkMsg` goes down the tree that a message was laid out as. At every node it sees the node's edges, in some order (`Sees`), and
the value it builds there does not depend on that order: the fields of a message and the entries of a map are put in their
places, and the elements of a list stand as they are chained.
-/

namespace Marekvs

open List Machine Diff

namespace Proto

open ProtoSeg (pushSeg encodePath decodeSeg encodePath_concat)

variable {M : Type} {pool : Pool M} {kids : PKids}

variable {q : List ProtoSeg} {t : Trie ProtoSeg PNodeIn} {es : List (Part Eid M)} {kind : Kind M} {v : Value M}

/-- The reader finds the edges of every node of a tree at the node's path. -/
abbrev Sees (kids : PKids) : List ProtoSeg → Trie ProtoSeg PNodeIn → Prop := Trie.Sees fun q => kids.get (encodePath q)

/-! ## Values one level down -/

/-- A function reads the messages of the records' trees up to a depth. -/
def Reads (pool : Pool M) (kids : PKids) (walk : M → Bytes → PIndex → List (UInt32 × Value M) × PIndex) (n : Nat) : Prop :=
  ∀ (desc : M) (fields : List (UInt32 × Value M)) (t : Trie ProtoSeg PNodeIn) (q : List ProtoSeg) (index : PIndex),
    Value.Valid pool (.message desc) (.message desc fields) → Laid (.message desc fields) t → Sees kids q t → Trie.Within n t →
    (walk desc (encodePath q) index).1 = fields

section Level

variable {walk : M → Bytes → PIndex → List (UInt32 × Value M) × PIndex} {n : Nat} (hwalk : Reads pool kids walk n)

include hwalk

theorem buildValue_laid (hv : Value.Valid pool kind v) (ht : Laid v t) (hsees : Sees kids q t) (hin : Trie.Within n t)
    (index : Proto.PIndex) :
    (buildValue walk kind (encodePath q) (pvalOf v) index).1 = some v := by
  cases hv with
  | scalar hs =>
    have hval := valueOf_pvalOf hs
    cases hs <;> exact hval
  | message fd hdesc hall =>
    have := hwalk _ _ t q index (.message fd hdesc hall) ht hsees hin
    simp only [buildValue, pvalOf, if_true, this]

/-- Entries of a map are put in their places. -/
theorem foldl_addEntry (q : List ProtoSeg) (es : List (Part MapKey M)) (hkey : ∀ e ∈ es, MapKey.OfKind keyKind e.key)
    (hval : ∀ e ∈ es, Value.Valid pool valueKind e.val) (hlaid : ∀ e ∈ es, Laid e.val e.below)
    (hsees : ∀ e ∈ es, Sees kids (q ++ [e.key.seg]) e.below) (hin : ∀ e ∈ es, Trie.Within n e.below)
    (acc : List (Proto.MapKey × Proto.Value M) × Proto.PIndex) :
    ((es.map fun e => (e.entry.1, e.entry.2.1)).foldl (addEntry walk keyKind valueKind (encodePath q)) acc).1 =
      (es.map fun e => (e.key, e.val)).foldl (fun acc e =>
      Ordered.put (fun e : MapKey × Value M => e.1.seg.encode) e acc) acc.1 := by
  induction es generalizing acc with
  | nil => rfl
  | cons e es ih =>
    obtain ⟨hk, hkey⟩ := forall_mem_cons.1 hkey
    obtain ⟨hv, hval⟩ := forall_mem_cons.1 hval
    obtain ⟨hl, hlaid⟩ := forall_mem_cons.1 hlaid
    obtain ⟨hs, hsees⟩ := forall_mem_cons.1 hsees
    obtain ⟨hi, hin⟩ := forall_mem_cons.1 hin
    have hbuilt := buildValue_laid hwalk hv hl hs hi acc.2
    rw [encodePath_concat] at hbuilt
    have hstep : (addEntry walk keyKind valueKind (encodePath q) acc (e.entry.1, e.entry.2.1)).1 =
        Ordered.put (fun e : MapKey × Value M => e.1.seg.encode) (e.key, e.val) acc.1 := by
      simp only [Part.entry, MapKey.seg, addEntry, mapKeyValue_mkeyOf hk]
      rw [MapKey.seg] at hbuilt
      generalize buildValue walk valueKind _ _ _ = built at hbuilt
      obtain ⟨o, index⟩ := built
      cases hbuilt
      rfl
    rw [map_cons, foldl_cons, ih hkey hval hlaid hsees hin, hstep]
    rfl

theorem buildMap_laid (hv : Value.Holds pool (.map keyKind valueKind) v) (ht : Laid v t)
    (hsees : Sees kids q t) (hin : Trie.Within n t) (index : PIndex) :
    (buildMap walk kids keyKind valueKind (encodePath q) index).1 = v := by
  cases hv with
  | map hstrict hkey hval =>
    cases ht with
    | map es hlaid =>
      obtain ⟨es', hget, hperm⟩ := hsees.exists_perm
      have hedge : ∀ e ∈ es', e.entry ∈ es.map Part.entry := fun e he => mem_map_of_mem (hperm.mem_iff.1 he)
      have hmem : ∀ e ∈ es', (e.key, e.val) ∈ es.map fun e => (e.key, e.val) := by
        intro e he
        exact mem_map.2 ⟨e, hperm.mem_iff.1 he, rfl⟩
      have hfold := foldl_addEntry hwalk q es' (fun e he => hkey _ (hmem e he)) (fun e he => hval _ (hmem e he))
        (fun e he => hlaid e (hperm.mem_iff.1 he)) (fun e he => hsees.down (hedge e he))
        (fun e he => hin.succ.down (hedge e he)) ([], index)
      rw [Ordered.foldl_put (hperm.map _) hstrict] at hfold
      simp only [buildMap, hget, hfold]
    | scalar hs => cases hs

/-- Elements come one behind the other. -/
theorem foldl_addItem (q : List ProtoSeg)
    (hfound : ∀ e ∈ es, ∃ left, elems.reverse.lookup e.key = some (⟨left, pvalOf e.val⟩, true))
    (hval : ∀ e ∈ es, Value.Valid pool kind e.val) (hlaid : ∀ e ∈ es, Laid e.val e.below)
    (hsees : ∀ e ∈ es, Sees kids (q ++ [.elem e.key]) e.below) (hin : ∀ e ∈ es, Trie.Within n e.below)
    (acc : (List Eid × List (Proto.Value M)) × Proto.PIndex) :
    ((es.map fun e => (e.key, true)).foldl (addItem walk kind (encodePath q) elems) acc).1.2 = acc.1.2 ++ es.map Part.val := by
  induction es generalizing acc with
  | nil => exact (append_nil _).symm
  | cons e es ih =>
    obtain ⟨⟨left, hf⟩, hfound⟩ := forall_mem_cons.1 hfound
    obtain ⟨hv, hval⟩ := forall_mem_cons.1 hval
    obtain ⟨hl, hlaid⟩ := forall_mem_cons.1 hlaid
    obtain ⟨hs, hsees⟩ := forall_mem_cons.1 hsees
    obtain ⟨hi, hin⟩ := forall_mem_cons.1 hin
    have hbuilt := buildValue_laid hwalk hv hl hs hi acc.2
    rw [encodePath_concat] at hbuilt
    have hstep : (addItem walk kind (encodePath q) elems acc (e.key, true)).1.2 = acc.1.2 ++ [e.val] := by
      simp only [addItem, hf]
      generalize buildValue walk kind _ _ _ = built at hbuilt
      obtain ⟨o, index⟩ := built
      cases hbuilt
      rfl
    rw [map_cons, foldl_cons, ih hfound hval hlaid hsees hin, hstep, append_assoc]
    rfl

theorem buildList_laid (hv : Value.Holds pool (.list kind) v) (ht : Laid v t) (hsees : Sees kids q t) (hin : Trie.Within n t)
    (index : Proto.PIndex) :
    (buildList walk kids kind (encodePath q) index).1 = v := by
  cases hv with
  | list hval =>
    cases ht with
    | scalar hs => cases hs
    | list es hids hlaid =>
      have helems := hsees.here.filterMap elemOf
      rw [elemEdges, Trie.filterMap_heads_chainEdges (fun x => (x.1, ⟨x.2.1, pvalOf x.2.2.val⟩, true)) fun _ => rfl] at helems
      obtain ⟨hlive, hfound⟩ :=
        Rga.order_of_perm_chain PArrElem.left (fun left e => ⟨left, pvalOf e.val⟩) (fun _ _ => rfl) hids helems
      have hedge : ∀ e ∈ es, ∃ k ∈ elemEdges EID_HEAD es, k.1 = .elem e.key ∧ k.2.2 = e.below :=
        fun e he => Trie.exists_mem_chainEdges EID_HEAD he
      have hsees' : ∀ e ∈ es, Sees kids (q ++ [.elem e.key]) e.below := by
        intro e he
        obtain ⟨k, hk, hname, hbelow⟩ := hedge e he
        rw [← hname, ← hbelow]
        exact hsees.down hk
      have hin' : ∀ e ∈ es, Trie.Within n e.below := by
        intro e he
        obtain ⟨k, hk, -, hbelow⟩ := hedge e he
        rw [← hbelow]
        exact hin.succ.down hk
      have hfold := foldl_addItem hwalk q hfound (fun e he => hval _ (mem_map_of_mem he)) hlaid hsees' hin'
        (([], []), index)
      simp only [buildList, rgaElems, hlive]
      rw [hfold, nil_append]

theorem buildField_laid (hv : Value.Holds pool shape v) (ht : Laid v t) (hsees : Sees kids q t)
    (hin : Trie.Within n t) (index : Proto.PIndex) :
    (buildField walk kids shape (encodePath q) (pvalOf v) index).1 = some v := by
  cases shape with
  | single kind =>
    cases hv with
    | single hv => exact buildValue_laid hwalk hv ht hsees hin index
  | list kind =>
    have hbuilt := buildList_laid hwalk hv ht hsees hin index
    cases hv with
    | list hval => simp only [buildField, pvalOf, if_true, hbuilt]
  | map keyKind valueKind =>
    have hbuilt := buildMap_laid hwalk hv ht hsees hin index
    cases hv with
    | map _ _ _ => simp only [buildField, pvalOf, if_true, hbuilt]

end Level

/-! ## The fields of a message -/

theorem number_of_getField (h : pool.getField desc number = some fd) : fd.number = number := by
  have := find?_some h
  exact of_decide_eq_true this

/-- A oneof of which all records have one standing is won by it. -/
theorem oneofWinner_eq
    (hc : ∀ f ∈ fields, realOneof pool desc f.fd = some o → f.cand = c)
    (hex : ∃ f ∈ fields, realOneof pool desc f.fd = some o) :
    oneofWinner pool desc o fields = some c := by
  have hfold : ∀ (fields : List (Accepted M)) (entry : Option (Dot × UInt32)),
      (∀ f ∈ fields, realOneof pool desc f.fd = some o → f.cand = c) →
      (entry = some c ∨ entry = none ∧ ∃ f ∈ fields, realOneof pool desc f.fd = some o) →
      fields.foldl (stand pool desc o) entry = some c := by
    intro fields
    induction fields with
    | nil =>
      rintro entry _ (h | ⟨-, f, hf, -⟩)
      · exact h
      · cases hf
    | cons f fields ih =>
      intro entry hc hentry
      obtain ⟨hf, hc⟩ := forall_mem_cons.1 hc
      refine ih _ hc ?_
      by_cases ho : realOneof pool desc f.fd = some o
      · left
        rw [stand.eq_def, if_pos ho, hf ho]
        rcases hentry with rfl | ⟨rfl, -⟩
        · simp
        · rfl
      · rw [stand.eq_def, if_neg ho]
        refine hentry.imp_right ?_
        rintro ⟨hnone, g, hg, hgo⟩
        refine ⟨hnone, g, (mem_cons.1 hg).resolve_left ?_, hgo⟩
        rintro rfl
        exact ho hgo
  exact hfold fields none hc (.inr ⟨rfl, hex⟩)

def Part.accepted (fd : UInt32 → FieldDescriptor M) (f : Part UInt32 M) : Accepted M := ⟨fd f.key, pvalOf f.val, f.dots⟩

section Fields

variable {desc : M} {fields : List (UInt32 × Value M)} {fd : UInt32 → FieldDescriptor M} (hdesc : Described pool desc fields fd)

include hdesc

/-- With one member of each oneof nothing is cleared. -/
theorem setField_eq (hacc : ∀ g ∈ acc, g ∈ fields) (hf : f ∈ fields) :
    setField pool desc (fd f.1) f.2 acc = Ordered.put (fun f : UInt32 × Value M => f.1.toNat) f acc := by
  have hnumber := number_of_getField (hdesc.known f hf)
  rw [setField, hnumber]
  congr 1
  rw [filter_eq_self]
  intro g hg
  have hone : pool.oneofOf desc g.1 = (fd g.1).oneof := by
    rw [Pool.oneofOf, hdesc.known g (hacc g hg)]
    rfl
  cases hof : (fd f.1).oneof with
  | none => simp
  | some o =>
    by_cases hsame : (fd g.1).oneof = some o
    · simp [hdesc.exclusive g (hacc g hg) f hf o hsame hof]
    · simp [hone, hsame]

/-- Every field of the message is the one of its oneof that is taken. -/
theorem wins_of_described {fs : List (Part UInt32 M)} (hfs : (fs.map fun f => (f.key, f.val)).Perm fields)
    (hf : f ∈ fs) : wins pool desc (fs.map (Part.accepted fd)) (f.accepted fd) = true := by
  have hmem : ∀ g ∈ fs, (g.key, g.val) ∈ fields := fun g hg => hfs.mem_iff.1 (mem_map.2 ⟨g, hg, rfl⟩)
  have hkeys : (fs.map Part.key).Nodup := by
    have hnodup : (fields.map Prod.fst).Nodup := by
      rw [List.Nodup, pairwise_map]
      refine hdesc.ascending.imp ?_
      intro a b hab heq
      exact hab.ne (congrArg UInt32.toNat heq)
    have := (hfs.map Prod.fst).nodup_iff.2 hnodup
    rwa [map_map] at this
  rw [wins]
  cases ho : realOneof pool desc (f.accepted fd).fd with
  | none => rfl
  | some o =>
    have hof : ∀ g : Part UInt32 M, realOneof pool desc (g.accepted fd).fd = some o → (fd g.key).oneof = some o :=
      fun g hg => (Option.filter_eq_some_iff.1 hg).1
    refine decide_eq_true (oneofWinner_eq ?_ ⟨_, mem_map_of_mem hf, ho⟩)
    intro x hx hxo
    obtain ⟨g, hg, rfl⟩ := mem_map.1 hx
    have hkey : g.key = f.key := hdesc.exclusive _ (hmem g hg) _ (hmem f hf) o (hof g hxo) (hof f ho)
    rw [inj_on_of_nodup_map hkeys hg hf hkey]

variable {walk : M → Bytes → PIndex → List (UInt32 × Value M) × PIndex} {n : Nat} (hwalk : Reads pool kids walk n)

include hwalk

theorem foldl_addField (q : List ProtoSeg) (accepted : List (Proto.Accepted M)) (fs : List (Part UInt32 M))
    (hmem : ∀ f ∈ fs, (f.key, f.val) ∈ fields) (hwins : ∀ f ∈ fs, wins pool desc accepted (f.accepted fd) = true)
    (hval : ∀ f ∈ fs, Value.Holds pool (fd f.key).shape f.val) (hlaid : ∀ f ∈ fs, Laid f.val f.below)
    (hsees : ∀ f ∈ fs, Sees kids (q ++ [.field f.key]) f.below) (hin : ∀ f ∈ fs, Trie.Within n f.below)
    (acc : List (UInt32 × Value M) × PIndex) (hacc : ∀ g ∈ acc.1, g ∈ fields) :
    ((fs.map (Part.accepted fd)).foldl (addField pool walk kids desc accepted (encodePath q)) acc).1 =
      (fs.map fun f => (f.key, f.val)).foldl (fun acc f => Ordered.put (fun f : UInt32 × Value M => f.1.toNat) f acc) acc.1 := by
  induction fs generalizing acc with
  | nil => rfl
  | cons f fs ih =>
    obtain ⟨hm, hmem⟩ := forall_mem_cons.1 hmem
    obtain ⟨hw, hwins⟩ := forall_mem_cons.1 hwins
    obtain ⟨hv, hval⟩ := forall_mem_cons.1 hval
    obtain ⟨hl, hlaid⟩ := forall_mem_cons.1 hlaid
    obtain ⟨hs, hsees⟩ := forall_mem_cons.1 hsees
    obtain ⟨hi, hin⟩ := forall_mem_cons.1 hin
    have hnumber : (fd f.key).number = f.key := number_of_getField (hdesc.known _ hm)
    have hbuilt := buildField_laid hwalk hv hl hs hi acc.2
    rw [encodePath_concat] at hbuilt
    have hstep : (addField pool walk kids desc accepted (encodePath q) acc (f.accepted fd)).1 =
        Ordered.put (fun f : UInt32 × Value M => f.1.toNat) (f.key, f.val) acc.1 := by
      rw [← setField_eq hdesc hacc hm, addField, if_pos hw]
      simp only [Part.accepted, hnumber]
      generalize buildField walk kids _ _ _ _ = built at hbuilt
      obtain ⟨o, index⟩ := built
      cases hbuilt
      rfl
    rw [map_cons, foldl_cons, ih hmem hwins hval hlaid hsees hin, hstep]
    · rfl
    rw [hstep]
    intro g hg
    rcases Ordered.mem_of_mem_put hg with rfl | hg
    · exact hm
    · exact hacc g hg

end Fields

/-- A message is read back from the tree it was laid out as. -/
theorem reads_walkMsg (pool : Pool M) (kids : Proto.PKids) (n : Nat) : Reads pool kids (walkMsg pool kids n) n := by
  induction n with
  | zero =>
    intro desc fields t q index hv ht hsees hin
    cases ht with
    | scalar hs => cases hs
    | message _ fs hlaid =>
      have hnil : fs.map Part.field = [] := by
        by_contra hne
        exact absurd (hin [] _ (.here _) hne) (Nat.not_lt_zero _)
      rw [map_eq_nil_iff.1 hnil]
      rfl
  | succ n ih =>
    intro desc fields t q index hv ht hsees hin
    cases hv with
    | scalar hs => cases hs
    | message fd hdesc hall =>
      cases ht with
      | scalar hs => cases hs
      | message _ fs hlaid =>
        obtain ⟨fs', hget, hperm⟩ := hsees.exists_perm
        have hmem : ∀ f ∈ fs', (f.key, f.val) ∈ fs.map fun f => (f.key, f.val) :=
          fun f hf => mem_map.2 ⟨f, hperm.mem_iff.1 hf, rfl⟩
        have hedge : ∀ f ∈ fs', f.field ∈ fs.map Part.field := fun f hf => mem_map_of_mem (hperm.mem_iff.1 hf)
        have haccept : (kids.get (encodePath q)).filterMap (accept pool desc) = fs'.map (Part.accepted fd) := by
          rw [hget, filterMap_map, ← filterMap_eq_map]
          refine filterMap_congr ?_
          intro f hf
          simp only [Function.comp_apply, Part.field, accept, hdesc.known _ (hmem f hf), Option.map_some, Part.accepted]
        have hfold := foldl_addField hdesc ih q (fs'.map (Part.accepted fd)) fs' hmem
          (fun f hf => wins_of_described hdesc (hperm.map _) hf) (fun f hf => hall _ (hmem f hf))
          (fun f hf => hlaid f (hperm.mem_iff.1 hf)) (fun f hf => hsees.down (hedge f hf))
          (fun f hf => hin.down (hedge f hf)) ([], index) nofun
        rw [Ordered.foldl_put (hperm.map _) hdesc.ascending] at hfold
        simp only [walkMsg, haccept]
        exact hfold

end Proto

end Marekvs
