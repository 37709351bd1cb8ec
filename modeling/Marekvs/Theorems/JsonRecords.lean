import Marekvs.Lemmas.JsonWritten

/-!
# Documents and their records

Two properties of `decompose_with_paths` and `build_doc`. A value that is written out as records, whatever ids its array
elements get, is read back from them in any order. And a set of records with distinct paths is read as one document in every
order: that holds unless one of the paths cannot be taken apart or two of the records name one field of an object that is
entered.
-/

namespace Marekvs

open List Machine Ordered Diff
open JsonSeg (pushSeg encodePath decodeSeg)

variable {F : Type}

/-- A value is read back from the records it was written out as, in any order. -/
theorem buildDoc_decompose (hlossy : ∀ s, lossy (utf8 s) = s) {fresh : Bytes → Nat → σ → Eid × σ} {s : σ} {v : Json F}
    (hheld : Held finite v) (hids : IdsDistinct (decomposeWithPaths fresh [] v s).1)
    (hlen : ∀ r ∈ (decomposeWithPaths fresh [] v s).1, r.path.length < 2 ^ 63) {dots : Bytes → List Dot}
    {nodes : List (Bytes × NodeIn F)} (hnodes : nodes.Perm ((decomposeWithPaths fresh [] v s).1.map (JsonRecord.node dots))) :
    ∃ doc, buildDoc finite lossy nodes = .ok (some doc) ∧ doc.value = v := by
  have hrecords : (decomposeWithPaths fresh [] v s).1 =
    .map [] (jvalOf v) :: (decomposeChildren fresh (encodePath []) v s).1 := rfl
  rw [hrecords] at hids hlen hnodes
  obtain ⟨t, hlaid, hrec⟩ := written_children fresh dots [] v s ⟨hids, (forall_mem_cons.1 hlen).2⟩
  have hstored : (JsonRecord.map [] (jvalOf v) :: (decomposeChildren fresh (encodePath []) v s).1).map (JsonRecord.node dots) =
      stored (([], .map (jvalOf v) (dots [])) :: t.records []) := congrArg (_ :: ·) hrec
  rw [hstored] at hnodes
  obtain ⟨rs, rfl, hperm⟩ : ∃ rs : List (List JsonSeg × NodeIn F), nodes = stored rs ∧
      rs.Perm (([], .map (jvalOf v) (dots [])) :: t.records []) :=
    (congrFun (congrFun (eq_map_comp_perm fun r : List JsonSeg × NodeIn F => (encodePath r.1, r.2)) _) _).mpr hnodes
  refine buildDoc_of_perm hlossy hheld hlaid hperm ?_
  intro r hr
  have hmem : (encodePath r.1, r.2) ∈ stored (([], .map (jvalOf v) (dots [])) :: t.records []) :=
    mem_map.2 ⟨r, hperm.mem_iff.1 hr, rfl⟩
  rw [← hstored] at hmem
  obtain ⟨x, hx, heq⟩ := mem_map.1 hmem
  have hpath : x.path = encodePath r.1 := congrArg Prod.fst heq
  rw [← hpath]
  exact hlen x hx

/-- The records are read as one document, or as none, in every order. -/
def OrderFree (finite : F → Bool) (lossy : Bytes → String) (nodes : List (Bytes × NodeIn F)) : Prop :=
  ∃ r, ∀ nodes', nodes'.Perm nodes → buildDoc finite lossy nodes' = .ok r

/-- A value that was written out as records, with ids for its array elements that are distinct and not the sentinel, is read
back from any permutation of them. Records with distinct paths are read alike in every order if all paths can be taken apart and
no two records name one field of an object that is entered; and only then is it so whatever dots the records carry. -/
theorem json_records_roundtrip_in_any_order (finite : F → Bool) (lossy : Bytes → String) (hlossy : ∀ s, lossy (utf8 s) = s) :
    (∀ (σ : Type) (fresh : Bytes → Nat → σ → Eid × σ) (s : σ) (v : Json F), Held finite v →
      IdsDistinct (decomposeWithPaths fresh [] v s).1 → (∀ r ∈ (decomposeWithPaths fresh [] v s).1, r.path.length < 2 ^ 63) →
      ∀ (dots : Bytes → List Dot) (nodes : List (Bytes × NodeIn F)),
        nodes.Perm ((decomposeWithPaths fresh [] v s).1.map (JsonRecord.node dots)) →
        ∃ doc, buildDoc finite lossy nodes = .ok (some doc) ∧ doc.value = v) ∧
    ∀ nodes : List (Bytes × NodeIn F), (nodes.map Prod.fst).Nodup → (∀ n ∈ nodes, n.1.length < 2 ^ 63) →
      ((∀ n ∈ nodes, Runs (DocPath.splitLast decodeSeg n.1)) ∧ FieldsNamedOnce nodes → OrderFree finite lossy nodes) ∧
      ((∀ dots, OrderFree finite lossy (nodes.map (redot dots))) →
        (∀ n ∈ nodes, Runs (DocPath.splitLast decodeSeg n.1)) ∧ FieldsNamedOnce nodes) := by
  constructor
  · intro σ fresh s v hheld hids hlen dots nodes hnodes
    exact buildDoc_decompose hlossy hheld hids hlen hnodes
  · intro nodes hd hlen
    exact ⟨fun h => ⟨_, fun nodes' hp => buildDoc_of_namedOnce finite lossy hd hlen h.1 h.2 hp⟩, namedOnce_of_order_free hd hlen⟩

/-- Some reading of bytes as text that reads back what was written. -/
noncomputable def readText (b : Bytes) : String := Function.invFun utf8 b

theorem utf8_injective : Function.Injective utf8 := by
  intro s t h
  refine String.toByteArray_inj.1 (ByteArray.ext ?_)
  exact Array.toList_inj.1 h

theorem readText_utf8 (s : String) : readText (utf8 s) = s := Function.leftInverse_invFun utf8_injective s

/-- The ids of the two elements fall, and the records come in the opposite order. -/
theorem object_of_array_read_back :
    ∃ doc, buildDoc (fun _ : Unit => true) readText
        (((decompose (fun n => (⟨UInt64.ofNat (9 - n), 1⟩, n + 1)) [] (.obj [("a", .arr [.int 1, .int 2])] : Json Unit) 0).1.map
          (JsonRecord.node fun _ => [⟨7, 1⟩])).reverse) = .ok (some doc) ∧
      doc.value = .obj [("a", .arr [.int 1, .int 2])] := by
  refine (json_records_roundtrip_in_any_order (fun _ : Unit => true) readText readText_utf8).1 Nat _ 0 _ ?_ ?_ ?_ _ _
    (reverse_perm _)
  · refine .obj (pairwise_singleton _ _) ?_
    simp only [mem_singleton, forall_eq]
    refine .arr ?_
    simp only [mem_cons, not_mem_nil, or_false, forall_eq_or_imp, forall_eq]
    exact ⟨.int (by norm_num) (by norm_num), .int (by norm_num) (by norm_num)⟩
  · show List.Nodup _
    decide
  · decide

/-- Two paths that are different and name the field `a` of the root: the second writes the length 1 in two bytes. Whichever
record comes last counts. -/
theorem field_under_two_paths :
    ([[], [1, 1, 97], [1, 129, 0, 97]] : List Bytes).Nodup ∧
    (buildDoc (fun _ : Unit => true) readText
      [([], .map .obj []), ([1, 1, 97], .map (.int 1) []), ([1, 129, 0, 97], .map (.int 2) [])]).map (Option.map Doc.value) =
      .ok (some (.obj [("a", .int 2)])) ∧
    (buildDoc (fun _ : Unit => true) readText
      [([], .map .obj []), ([1, 129, 0, 97], .map (.int 2) []), ([1, 1, 97], .map (.int 1) [])]).map (Option.map Doc.value) =
      .ok (some (.obj [("a", .int 1)])) := by
  have ha : readText [97] = "a" := readText_utf8 "a"
  have hput : ∀ i j : Int, insertMember (readText [97]) (.int i) [(readText [97], (.int j : Json Unit))] = [("a", .int i)] := by
    intro i j
    rw [insertMember, if_pos rfl, ha]
  rw [← hput 2 1, ← hput 1 2]
  exact ⟨by decide, rfl, rfl⟩

end Marekvs
