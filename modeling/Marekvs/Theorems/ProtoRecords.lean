import Marekvs.Lemmas.ProtoRead

/-!
# Messages and their records

A message that is written out as field records is read back from them in any order. The ids of list elements may be any that are
distinct and not the sentinel, and the dots of the records any at all.
-/

namespace Marekvs

open List Machine Diff Trie

namespace Proto

open ProtoSeg (pushSeg encodePath decodeSeg encodePath_concat length_le_encodePath)

variable {M : Type} {pool : Pool M}

variable {t : Trie ProtoSeg PNodeIn} {rs : Records}

/-! ## The tree of a message -/

/-- The edges of every node have different names. -/
theorem Laid.named (h : Laid v t) : ∀ {shape : Shape M}, Value.Holds pool shape v → t.Named := by
  induction h with
  | scalar _ =>
    intro shape _
    exact .mk nodup_nil nofun
  | message desc fs _ ih =>
    intro shape hv
    cases hv with
    | single hv =>
      cases hv with
      | scalar hs => cases hs
      | message fd hdesc hall =>
        refine .mk ?_ ?_
        · rw [map_map, List.Nodup, pairwise_map]
          refine (pairwise_map.1 hdesc.ascending).imp ?_
          intro f g hfg heq
          exact hfg.ne (congrArg UInt32.toNat (ProtoSeg.field.inj heq))
        · intro k hk
          obtain ⟨f, hf, rfl⟩ := mem_map.1 hk
          exact ih f hf (hall _ (mem_map.2 ⟨f, hf, rfl⟩))
  | map es _ ih =>
    intro shape hv
    cases hv with
    | single hv =>
      cases hv with
      | scalar hs => cases hs
    | map hstrict _ hall =>
      refine .mk ?_ ?_
      · rw [map_map, List.Nodup, pairwise_map]
        refine (pairwise_map.1 hstrict).imp ?_
        intro e f hef heq
        exact hef.ne (congrArg ProtoSeg.encode heq)
      · intro k hk
        obtain ⟨e, he, rfl⟩ := mem_map.1 hk
        exact ih e he (.single (hall _ (mem_map.2 ⟨e, he, rfl⟩)))
  | list es hids _ ih =>
    intro shape hv
    cases hv with
    | single hv =>
      cases hv with
      | scalar hs => cases hs
    | list hall =>
      refine .mk ?_ ?_
      · rw [elemEdges, map_fst_chainEdges]
        exact (nodup_cons.1 hids).2.map fun a b h => ProtoSeg.elem.inj h
      intro k hk
      obtain ⟨e, he, -, hbelow⟩ := of_mem_chainEdges hk
      rw [hbelow]
      exact ih e he (.single (hall _ (mem_map_of_mem he)))

/-! ## From the records to the tree -/

theorem length_lt_msgFuel (h : n ∈ nodes) : n.1.length < msgFuel nodes := by
  induction nodes with
  | nil => cases h
  | cons m nodes ih =>
    simp only [msgFuel, map_cons, foldr_cons] at ih ⊢
    rcases mem_cons.1 h with rfl | h
    · omega
    · have := ih h
      omega

/-- The records of a tree, in any order and with that of the root, are read as the tree. -/
theorem sees_of_perm (hnamed : t.Named) (hperm : rs.Perm (([], root) :: t.records []))
    (hread : rs.Readable) : Sees rs.kids [] t := Trie.sees_of_perm hnamed hperm fun p _ _ => get_kids hread p

/-- No node with edges is deeper than the fuel. -/
theorem within_msgFuel (hmem : ∀ r ∈ t.records [], r ∈ rs) : Trie.Within (msgFuel rs.stored) t := by
  refine within_of_length ?_
  intro r hr
  have hfuel : (encodePath r.1).length < msgFuel rs.stored := length_lt_msgFuel (n := (_, r.2)) (mem_map.2 ⟨_, hmem _ hr, rfl⟩)
  exact (length_le_encodePath r.1).trans hfuel.le

/-- A message is read from the records of its tree in any order. -/
theorem buildMsg_of_perm
    (hvalid : Value.Valid pool (.message desc) (.message desc fields)) (hlaid : Laid (.message desc fields) t)
    (hperm : rs.Perm (([], .node .msg dots) :: t.records [])) (hread : rs.Readable) :
    ∃ doc, buildMsg pool desc rs.stored = .ok (some doc) ∧ doc.msg = ⟨desc, fields⟩ := by
  have hroot : rs.root none = some (.node .msg dots) := root_eq_some (root_of_perm hperm)
  have hsees := sees_of_perm (hlaid.named (.single hvalid)) hperm hread
  have hin : Trie.Within (msgFuel rs.stored) t := within_msgFuel fun r hr => hperm.mem_iff.2 (mem_cons_of_mem _ hr)
  have hwalk := reads_walkMsg pool rs.kids (msgFuel rs.stored) desc fields t []
    ⟨(∅ : Std.ExtTreeMap Bytes (List Dot)).insert [] dots, ∅⟩ hvalid hlaid hsees hin
  rw [buildMsg, splitNodes_stored hread, hroot, Fallible.ok_bind, nil_append]
  exact ⟨_, rfl, congrArg (DynamicMessage.mk desc) hwalk⟩

/-- A message is read back from any permutation of the records it is written out as, where the ids of list elements are distinct
and none is the sentinel. -/
theorem message_read_back_in_any_order (pool : Pool M) (msg : DynamicMessage M)
    (hvalid : Value.Valid pool (.message msg.desc) (.message msg.desc msg.fields)) {σ : Type}
    (fresh : Bytes → UInt32 → σ → Eid × σ) (s : σ) (hids : IdsDistinct (decomposeMsg pool fresh [] msg s).1)
    (hlen : ∀ r ∈ (decomposeMsg pool fresh [] msg s).1, r.path.length < 2 ^ 63) (dots : Bytes → List Dot)
    (nodes : List (Bytes × PNodeIn)) (hnodes : nodes.Perm ((decomposeMsg pool fresh [] msg s).1.map (stored dots))) :
    ∃ doc, buildMsg pool msg.desc nodes = .ok (some doc) ∧ doc.msg = msg := by
  obtain ⟨desc, fields⟩ := msg
  have hrecords : (decomposeMsg pool fresh [] ⟨desc, fields⟩ s).1 =
      .node [] .msg :: (decomposeChildren pool fresh (encodePath []) desc fields s).1 := rfl
  rw [hrecords] at hids hlen hnodes
  have hst : Storable (decomposeChildren pool fresh (encodePath []) desc fields s).1 :=
    ⟨hids, (forall_mem_cons.1 hlen).2⟩
  cases hvalid with
  | scalar hs => cases hs
  | message fd hdesc hall =>
    obtain ⟨fs, hfs, hparts, hrec⟩ := written_children fresh dots [] desc fd fields s hdesc.known hall hst
    have hlaid : Laid (.message desc fields) (.mk (fs.map Part.field)) := hfs ▸ .message desc fs hparts
    have hvalid : Value.Valid pool (.message desc) (.message desc fields) := .message fd hdesc hall
    have hstored : (PRecord.node [] .msg :: (decomposeChildren pool fresh (encodePath []) desc fields s).1).map (stored dots) =
        Records.stored (([], .node .msg (dots [])) :: (Trie.mk (fs.map Part.field)).records []) :=
      congrArg (_ :: ·) hrec
    have hpaths : ∀ r ∈ Records.stored (([], .node .msg (dots [])) :: (Trie.mk (fs.map Part.field)).records []),
      r.1.length < 2 ^ 63 := by
      rw [← hstored]
      intro r hr
      obtain ⟨x, hx, rfl⟩ := mem_map.1 hr
      rw [stored_path]
      exact hlen x hx
    rw [hstored] at hnodes
    obtain ⟨rs, rfl, hperm⟩ : ∃ rs : Records, nodes = rs.stored ∧
        rs.Perm (([], .node .msg (dots [])) :: (Trie.mk (fs.map Part.field)).records []) :=
      (congrFun (congrFun (eq_map_comp_perm fun r : List ProtoSeg × PNodeIn => (encodePath r.1, r.2)) _) _).mpr hnodes
    refine buildMsg_of_perm (.message fd hdesc hall) hlaid hperm ?_
    intro r hr
    exact hpaths _ (mem_map.2 ⟨r, hperm.mem_iff.1 hr, rfl⟩)

/-! ## A message -/

/-- A person has a name, numbers, friends by name, and either an age or a date of birth. -/
def personPool : Pool Unit := fun _ =>
  [⟨1, .single .string, none⟩, ⟨2, .list .int32, none⟩, ⟨3, .map .string (.message ()), none⟩, ⟨4, .single .uint32, some "when"⟩,
    ⟨5, .single .string, some "when"⟩]

/-- One with two numbers and a friend of whom only the age is known. -/
def person : DynamicMessage Unit :=
  ⟨(), [(1, .string "a"), (2, .list [.i32 7, .i32 9]), (3, .map [(.string "b", .message () [(4, .u32 30)])])]⟩

def personFields : UInt32 → FieldDescriptor Unit :=
  fun n => ((personPool ()).find? fun fd => fd.number = n).getD ⟨1, .single .string, none⟩

theorem person_valid : Value.Valid personPool (.message ()) (.message person.desc person.fields) := by
  have hfriend : Value.Valid personPool (.message ()) (.message () [(4, .u32 30)]) := by
    refine .message personFields ⟨pairwise_singleton _ _, ?_, ?_⟩ ?_
    · simp only [mem_singleton, forall_eq]
      rfl
    · simp
    · simp only [mem_singleton, forall_eq]
      exact .single (.scalar (.uint32 30))
  refine .message personFields ⟨by decide, ?_, ?_⟩ ?_
  · simp only [person, mem_cons, not_mem_nil, or_false, forall_eq_or_imp, forall_eq]
    exact ⟨rfl, rfl, rfl⟩
  · simp only [person, mem_cons, not_mem_nil, or_false, forall_eq_or_imp, forall_eq]
    refine ⟨⟨?_, ?_, ?_⟩, ⟨?_, ?_, ?_⟩, ?_, ?_, ?_⟩ <;> exact nofun
  simp only [person, mem_cons, not_mem_nil, or_false, forall_eq_or_imp, forall_eq]
  refine ⟨.single (.scalar (.string _)), .list ?_, .map (pairwise_singleton _ _) ?_ ?_⟩
  · simp only [mem_cons, not_mem_nil, or_false, forall_eq_or_imp, forall_eq]
    exact ⟨.scalar (.int32 7), .scalar (.int32 9)⟩
  · simp only [mem_singleton, forall_eq]
    exact .string _
  · simp only [mem_singleton, forall_eq]
    exact hfriend

/-- Its records come in the opposite order. -/
theorem person_read_back :
    ∃ doc, buildMsg personPool () (((decomposeMsg personPool (fun _ _ n => (⟨UInt64.ofNat (n + 1), 1⟩, n + 1)) [] person 0).1.map
        (stored fun _ => [⟨7, 1⟩])).reverse) = .ok (some doc) ∧ doc.msg = person := by
  refine message_read_back_in_any_order personPool person person_valid _ 0 ?_ ?_ _ _ (reverse_perm _)
  · show List.Nodup _
    decide
  · decide

end Proto

end Marekvs
