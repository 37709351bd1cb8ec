import Marekvs.Engine.Keyspace
import Marekvs.Engine.StringRun
import Marekvs.Lib.Merging
import Marekvs.Theorems.AntiEntropy

/-!
# Stores that received the same records

A node applies the records that reach it, one after the other. Keys that hold records of one kind converge: whatever the order
in which the records came and however often, two nodes hold the same records once they received the same. The rows of the score
index, which a node derives for itself, and the purges of the storage are left out.
-/

namespace Marekvs

open Ae Merging ElementRecord List

/-- Element records of one type that a dot has one value and a version one TTL in, within sets of dots. -/
def elementsWithin (t : RecordType) (val : Dot → Bytes) (ttlOf : Version → UInt64) (live covered : Finset Dot) :
    Set ElementRecord := {r | r.rtype = t ∧ r.Conforms val ttlOf ∧ r.dots.live ⊆ live ∧ r.dots.covered ⊆ covered}

/-- Records of one kind under one key, as their writers leave them: a version names one write, a dot one value and a base version
one base; slots are in use, and elements have no more dots than they have room for. -/
inductive OneKind (k : Bytes) : Set Bytes → Prop where
  | lastWriter {T : Set Bytes} (hk : budgetKind k = none) (h : ∀ v ∈ T, Lone .plain v) (hv : T.InjOn versionOf) : OneKind k T
  | registers {T : Set RegisterRecord} (hk : budgetKind k = none) (hv : T.InjOn RegisterRecord.version) :
    OneKind k (RegisterRecord.encode '' T)
  | tokens {T : Set TokenRecord} (hk : budgetKind k = some BUDGET_TOKEN) (hv : T.InjOn TokenRecord.version) :
    OneKind k (TokenRecord.encode '' T)
  | slots {kind : UInt8} (hk : budgetKind k = some kind) (hs : isSlotKind kind) (ttlOf : Version → UInt64) :
    OneKind k (SlotRecord.encode '' {r | r.tomb = false ∧ r.ttl = ttlOf r.version})
  | counters (hk : budgetKind k = none) (baseOf : Version → Int64) (ttlOf : Version → UInt64) :
    OneKind k (StringRecord.encode '' {r | (∃ c hc, r.body = .count c hc ∧ c.base = baseOf c.baseVersion) ∧
      r.ttl = ttlOf r.version})
  | elements {t : RecordType} (hk : budgetKind k = none) (ht : Plain t) (val : Dot → Bytes) (ttlOf : Version → UInt64)
    {live covered : Finset Dot} (hl : live.card ≤ MAX_LIVE_DOTS) (hc : covered.card ≤ MAX_TOMB_DOTS) :
    OneKind k (encode '' elementsWithin t val ttlOf live covered)

section

variable {ttlOf : Version → UInt64}

/-- The TTL of the newer version is the one that the newer version has. -/
theorem winner_ttl {u v : Version} (hu : p = ttlOf u) (hv : q = ttlOf v) : (if u < v then q else p) = ttlOf (max u v) := by
  split
  · rw [max_eq_right ‹u < v›.le, hv]
  · rw [max_eq_left (not_lt.1 ‹_›), hu]

theorem slots_semilattice : Semilattice SlotRecord.merge {r | r.tomb = false ∧ r.ttl = ttlOf r.version} where
  mem a ha b hb := by
    refine ⟨SlotRecord.merge_live ha.1 hb.1, ?_⟩
    rw [SlotRecord.merge_of_live ha.1 hb.1]
    exact winner_ttl ha.2 hb.2
  self a _ := a.merge_self
  comm a ha b hb := SlotRecord.merge_comm ha.1 hb.1 fun hv => by rw [ha.2, hb.2, hv]
  assoc a ha b hb c hc := SlotRecord.merge_assoc ha.1 hb.1 hc.1

theorem counters_semilattice (hk : budgetKind k = none) (baseOf : Version → Int64) :
    Semilattice StringRecord.merge {r | (countFamily hk baseOf).good r ∧ r.ttl = ttlOf r.version} where
  mem a ha b hb := by
    refine ⟨(countFamily hk baseOf).good_join a b ha.1 hb.1, ?_⟩
    obtain ⟨⟨c, hc, hca, -⟩, httl⟩ := ha
    obtain ⟨⟨d, hd, hdb, -⟩, httl'⟩ := hb
    rw [StringRecord.merge_counts hca hdb]
    exact winner_ttl httl httl'
  self a _ := a.merge_self
  comm := by
    rintro a ⟨⟨c, hc, hca, hbase⟩, httl⟩ b ⟨⟨d, hd, hdb, hbase'⟩, httl'⟩
    exact StringRecord.merge_comm_counts hca hdb (fun hv => by rw [hbase, hbase', hv]) fun hv => by rw [httl, httl', hv]
  assoc := by
    rintro a ⟨⟨c, hc, hca, -⟩, -⟩ b ⟨⟨d, hd, hdb, -⟩, -⟩ r ⟨⟨e, he, hr, -⟩, -⟩
    exact StringRecord.merge_assoc_counts hca hdb hr

theorem elements_semilattice (ht : Plain t) (hl : live.card ≤ MAX_LIVE_DOTS) (hc : covered.card ≤ MAX_TOMB_DOTS) :
    Semilattice join (elementsWithin t val ttlOf live covered) := by
  set E := elementsWithin t val ttlOf live covered
  -- no cap binds, so that the dots are joined plainly
  have hdots : ∀ r ∈ E, ∀ s ∈ E, (r.join s).dots = OrSet.plainJoin r.dots s.dots := by
    rintro r ⟨hr, -, hrd⟩ s ⟨hs, -, hsd⟩
    rw [dots_join ht hr hs]
    refine OrSet.join_eq_plainJoin ((Finset.card_le_card ?_).trans hl) ((Finset.card_le_card ?_).trans hc)
    · exact Finset.sdiff_subset.trans (Finset.union_subset hrd.1 hsd.1)
    · exact Finset.union_subset hrd.2 hsd.2
  have hmem : ∀ r ∈ E, ∀ s ∈ E, r.join s ∈ E := by
    intro r hr s hs
    refine ⟨join_rtype hr.1 hs.1, hr.2.1.join hs.2.1, ?_⟩
    rw [hdots r hr s hs]
    exact ⟨Finset.sdiff_subset.trans (Finset.union_subset hr.2.2.1 hs.2.2.1), Finset.union_subset hr.2.2.2 hs.2.2.2⟩
  -- a record within the sets is its version and its dots
  have hext : ∀ r ∈ E, ∀ s ∈ E, r.version = s.version → r.dots = s.dots → r = s :=
    fun r hr s hs => hr.2.1.ext hs.2.1 (hr.1.trans hs.1.symm)
  refine ⟨hmem, fun r hr => hext _ (hmem r hr r hr) r hr (max_self _) ?_, fun r hr s hs => ?_, fun r hr s hs u hu => ?_⟩
  · rw [hdots r hr r hr, OrSet.plainJoin, Finset.union_self, Finset.union_self, r.dots_disjoint.sdiff_eq_left]
  · refine hext _ (hmem r hr s hs) _ (hmem s hs r hr) (max_comm _ _) ?_
    rw [dots_join ht hr.1 hs.1, dots_join ht hs.1 hr.1, OrSet.join_comm]
  · have hrs := hmem r hr s hs
    have hsu := hmem s hs u hu
    refine hext _ (hmem _ hrs u hu) _ (hmem r hr _ hsu) (max_assoc _ _ _) ?_
    rw [hdots _ hrs u hu, hdots r hr _ hsu, hdots r hr s hs, hdots s hs u hu]
    simp only [OrSet.plainJoin, Finset.union_assoc, OrSet.mk.injEq, and_true]
    ext d
    simp only [Finset.mem_sdiff, Finset.mem_union]
    tauto

end

theorem OneKind.semilattice {T : Set Bytes} (h : OneKind k T) : Semilattice (mergeVal k) T := by
  cases h with
  | lastWriter hk h hv =>
    refine pick_semilattice versionOf hv fun a ha b hb => ?_
    obtain ⟨ea, pa, hda, -⟩ := (h a ha).envelope
    obtain ⟨eb, pb, hdb, -⟩ := (h b hb).envelope
    rw [mergeVal_of_none hk, (h a ha).mergeResolve (h b hb) (fun _ => rfl) hda hdb]
    simp [versionOf, hda, hdb]
  | @registers T hk hv =>
    refine (pick_semilattice (T := T) (fun r => toLex (r.rank, OrderDual.toDual r.version)) (fun a ha b hb h => hv ha hb ?_)
      fun a _ b _ => rfl).image fun a _ b _ => ?_
    · simpa using (Prod.mk.inj h).2
    · rw [mergeVal_of_none hk, RegisterRecord.mergeResolve_encode, RegisterRecord.merge]
      simp only [Prod.Lex.lt_iff, ofLex_toLex, OrderDual.toDual_lt_toDual]
      grind
  | @tokens T hk hv =>
    refine (pick_semilattice (T := T) (fun r => toLex (r.state.rank, r.version)) (fun a ha b hb h => hv ha hb ?_)
      fun a _ b _ => rfl).image fun a _ b _ => ?_
    · simpa using (Prod.mk.inj h).2
    · rw [mergeVal_of_some hk, TokenRecord.mergeBudget_token, TokenRecord.merge]
      simp only [Prod.Lex.lt_iff, ofLex_toLex]
      grind
  | slots hk hs ttlOf =>
    exact slots_semilattice.image fun a _ b _ => by rw [mergeVal_of_some hk, SlotRecord.mergeBudget_slot hs]
  | counters hk baseOf ttlOf =>
    exact (counters_semilattice hk baseOf).image fun a _ b _ => by rw [mergeVal_of_none hk, StringRecord.mergeResolve_encode]
  | elements hk ht val ttlOf hl hc =>
    exact (elements_semilattice ht hl hc).image fun a _ b _ => by rw [mergeVal_of_none hk, mergeResolve_encode]

/-! ## Stores -/

/-- A record is of a key that parses, in one of the partitions. -/
def ReplOp.applies (op : ReplOp) : Bool := (Ikey.parse op.ikey).any (·.pid < PARTITIONS)

/-- A node merges the records that it receives. The index rows that it puts and deletes beside sorted-set members are left out. -/
def Db.receive (db : Db) (ops : List ReplOp) : Db :=
  ops.foldl (fun db op => if op.applies then db.writeMerged op.ikey op.value else db) db

def received (k : Bytes) (ops : List ReplOp) : List Bytes :=
  (ops.filter fun op => op.applies && op.ikey = k).map ReplOp.value

/-- What a key holds is merged from what was received for it. -/
theorem getRaw_receive (ops : List ReplOp) (db : Db) : (db.receive ops).getRaw k =
    (received k ops).foldl (fun o v => some (writeMergedAt k o v)) (db.getRaw k) := by
  induction ops generalizing db with
  | nil => rfl
  | cons op ops ih =>
    rw [Db.receive, foldl_cons, ← Db.receive, ih]
    by_cases ha : op.applies
    · by_cases hk : op.ikey = k
      · subst hk
        simp [received, ha, Db.writeMerged, Db.getRaw]
      · simp [received, ha, hk, Db.writeMerged, Db.getRaw, Std.ExtTreeMap.getElem?_insert]
    · simp [received, ha]

theorem foldl_writeMergedAt (k : Bytes) (l : List Bytes) (x : Bytes) :
    l.foldl (fun o v => some (writeMergedAt k o v)) (some x) = some (l.foldl (mergeVal k) x) := by
  induction l generalizing x with
  | nil => rfl
  | cons v l ih => exact ih _

end Marekvs
