import Marekvs.Engine.CountRun
import Marekvs.Lemmas.StringRecs
import Marekvs.Lemmas.Totals

/-!
# What every run of increments on a string key keeps

All counters of a run stand on one base, the text the key started with or the empty one. A counter has slots only for nodes that
counted, and no slot is above what its node has counted (`IsCount`); a node's own record has its own slot in full, and is above
everything the node has merged (`CountInv`).
-/

namespace Marekvs

open List Option StringRecord CounterState TopN Desc Finset StartText UInt64 Recs

variable {p : Dot × Int64} {q : UInt64 × UInt64} {hist : List (Dot × Int64)} {delta : Int64} {c : CounterState} {v : Version}
  {w : StringRecord}

/-! ## Slots that fit -/

/-- A join whose nodes fit under the cap cuts nothing. -/
theorem joinSlots_slots_eq {a b : CounterState} (ha : a.Canonical)
    (hcard : (nodesOf a.slots ∪ nodesOf b.slots).card ≤ MAX_SLOTS) : (a.joinSlots b).slots = unionSlots a.slots b.slots := by
  rw [joinSlots_slots]
  refine take_of_length_le ?_
  rw [← (asc_unionSlots ha.asc b.slots).card_keys]
  exact (congrArg Finset.card (nodes_unionSlots a.slots b.slots)).trans_le hcard

theorem look_bump (slots : List Slot) (n : NodeId) (delta : Int64) (h : Asc slots) :
    look (upsert n (bumpSlot delta) slots) n =
      ((bumpSlot delta ⟨n, (look slots n).1, (look slots n).2⟩).pos,
      (bumpSlot delta ⟨n, (look slots n).1, (look slots n).2⟩).neg) := by
  induction slots with
  | nil => simp [upsert, look, bumpSlot_node]
  | cons s slots ih =>
    obtain ⟨hlt, hasc⟩ := asc_cons.1 h
    rw [upsert]
    split
    · rename_i hs
      rw [look_cons, look_cons, bumpSlot_node, if_pos hs.symm, if_pos hs.symm, hs]
    rename_i hs
    split
    · rename_i hlt'
      have hzero : look (s :: slots) n = (0, 0) := by
        refine look_eq_zero fun t ht => ?_
        rcases mem_cons.1 ht with rfl | ht
        · exact hlt'.ne'
        · exact (hlt'.trans (hlt t ht)).ne'
      rw [look_cons, bumpSlot_node, if_pos rfl, hzero]
    · rw [look_cons, look_cons, if_neg (Ne.symm hs), if_neg (Ne.symm hs), ih hasc]

theorem look_le_bump {slots : List Slot} (h : Asc slots) (node n : NodeId) :
    look slots n ≤ look (upsert node (bumpSlot delta) slots) n := by
  by_cases hn : n = node
  · subst hn
    rw [look_bump _ _ _ h, bumpSlot]
    have hsat (a b : UInt64) : a ≤ a.satAdd b := by
      rw [le_iff_toNat_le, toNat_satAdd]
      have := a.toNat_lt
      omega
    split
    · exact ⟨hsat _ _, le_rfl⟩
    · exact ⟨le_rfl, hsat _ _⟩
  · rw [look_upsert_of_ne (bumpSlot_node delta) hn]

/-! ## The totals of a history -/

/-- What a node's slot holds when it holds all its increments. -/
def slotTotal (hist : List (Dot × Int64)) (n : NodeId) : UInt64 × UInt64 :=
  (UInt64.ofNat (totalOf posPart hist n), UInt64.ofNat (totalOf negPart hist n))

def counted (hist : List (Dot × Int64)) : Finset NodeIdᵒᵈ := (hist.map fun p => OrderDual.toDual p.1.origin).toFinset

/-- The totals fit 64 bits and the nodes fit the slots. -/
structure Fits (hist : List (Dot × Int64)) : Prop where
  pos : ∀ n, totalOf posPart hist n < 2 ^ 64
  neg : ∀ n, totalOf negPart hist n < 2 ^ 64
  nodes : (counted hist).card ≤ MAX_SLOTS

theorem mem_counted : OrderDual.toDual n ∈ counted hist ↔ ∃ p ∈ hist, p.1.origin = n := by
  simp [counted]

theorem counted_cons : counted (p :: hist) = insert (OrderDual.toDual p.1.origin) (counted hist) := by
  simp [counted]

theorem Fits.of_cons (h : Fits (p :: hist)) : Fits hist where
  pos n := (totalOf_le_cons _ _ _ _).trans_lt (h.pos n)
  neg n := (totalOf_le_cons _ _ _ _).trans_lt (h.neg n)
  nodes := (Finset.card_le_card (by rw [counted_cons]; exact Finset.subset_insert _ _)).trans h.nodes

theorem slotTotal_cons_of_ne (h : p.1.origin ≠ n) : slotTotal (p :: hist) n = slotTotal hist n := by
  rw [slotTotal, slotTotal, totalOf_cons, totalOf_cons, if_neg h, if_neg h, Nat.zero_add, Nat.zero_add]

theorem slotTotal_le_cons (h : Fits (p :: hist)) (n : NodeId) : slotTotal hist n ≤ slotTotal (p :: hist) n := by
  have hle : ∀ a b : Nat, a ≤ b → b < 2 ^ 64 → ofNat a ≤ ofNat b := by
    intro a b hab hb
    rw [le_iff_toNat_le, toNat_ofNat', toNat_ofNat', Nat.mod_eq_of_lt hb,
      Nat.mod_eq_of_lt (hab.trans_lt hb)]
    exact hab
  exact ⟨hle _ _ (totalOf_le_cons _ _ _ _) (h.pos n), hle _ _ (totalOf_le_cons _ _ _ _) (h.neg n)⟩

/-- An increment takes a full slot to the next full slot. -/
theorem bump_slotTotal (h : Fits ((d, delta) :: hist)) :
    ((bumpSlot delta ⟨d.origin, (slotTotal hist d.origin).1, (slotTotal hist d.origin).2⟩).pos,
      (bumpSlot delta ⟨d.origin, (slotTotal hist d.origin).1, (slotTotal hist d.origin).2⟩).neg) =
      slotTotal ((d, delta) :: hist) d.origin := by
  have hp := h.pos d.origin
  have hn := h.neg d.origin
  rw [totalOf_cons_self] at hp hn
  rw [slotTotal, slotTotal, bumpSlot_ofNat hp hn, totalOf_cons_self, totalOf_cons_self]

/-! ## Records -/

/-- The counter the key starts as, before anyone counts. -/
def startCounter (start : Option StartText) : CounterState :=
  match start with
  | none => onBase 0 0 0
  | some t => onBase t.hlc t.origin (t.number.getD 0)

namespace StartText

def record (t : StartText) : StringRecord := ⟨⟨t.hlc, t.origin⟩, t.ttl, .text t.value⟩

theorem bytes_eq (t : StartText) : t.bytes = t.record.encode := rfl

end StartText

/-- The TTL of every record of the run. -/
def startTtl (start : Option StartText) : UInt64 := (start.map StartText.ttl).getD 0

/-- The slots of a record; a text has none. -/
def StringRecord.slots (r : StringRecord) : List Slot :=
  match r.body with
  | .count c _ => c.slots
  | _ => []

/-- The slots of what a node holds. -/
def heldSlots (o : Option StringRecord) : List Slot := (o.map StringRecord.slots).getD []

/-- The counter stands on what the key started as. -/
structure OnStart (start : Option StartText) (c : CounterState) : Prop where
  baseVersion : c.baseVersion = (startCounter start).baseVersion
  base : c.base = (startCounter start).base

/-- A version that is above the text the key started as, and one a reader may see. -/
structure Stamped (start : Option StartText) (v : Version) : Prop where
  newer : ∀ t ∈ start, t.record.version < v
  pos : 0 < v.hlc

/-- What a merge compares of a record: its version, the totals of every node, and the nodes that have a slot. -/
def StringRecord.mark (r : StringRecord) : Version × (NodeId → UInt64 × UInt64) × Finset NodeIdᵒᵈ :=
  (r.version, look r.slots, nodesOf r.slots)

def full (hist : List (Dot × Int64)) : (NodeId → UInt64 × UInt64) × Finset NodeIdᵒᵈ := (slotTotal hist, counted hist)

theorem full_le_cons (hf : Fits (p :: hist)) : full hist ≤ full (p :: hist) :=
  ⟨slotTotal_le_cons hf, by rw [full, full, counted_cons]; exact Finset.subset_insert _ _⟩

/-- A record of a run with the given increments. -/
structure IsCount (start : Option StartText) (hist : List (Dot × Int64)) (r : StringRecord) : Prop where
  ttl : r.ttl = startTtl start
  shape : (∃ t, start = some t ∧ r = t.record) ∨ ∃ c hc, r.body = .count c hc ∧ OnStart start c ∧ Stamped start r.version
  within : r.mark.2 ≤ full hist
  counter : ∀ c hc, r.body = .count c hc → (nodesOf r.slots).Nonempty

theorem StringRecord.slots_of_count {r : StringRecord} (h : r.body = .count c hc) : r.slots = c.slots := by
  rw [slots, h]

theorem Stamped.mono (h : Stamped start v) (hle : v ≤ v') : Stamped start v' :=
  ⟨fun t ht => (h.newer t ht).trans_le hle, h.pos.trans_le (Dot.hlc_le_of_le hle)⟩

theorem zero_le_look (q : UInt64 × UInt64) : (0, 0) ≤ q := ⟨le_iff_toNat_le.2 (Nat.zero_le _), le_iff_toNat_le.2 (Nat.zero_le _)⟩

namespace IsCount

variable {start : Option StartText} {hist : List (Dot × Int64)} {r w : StringRecord}

theorem cons (h : IsCount start hist r) (hf : Fits (p :: hist)) : IsCount start (p :: hist) r :=
  ⟨h.ttl, h.shape, h.within.trans (full_le_cons hf), h.counter⟩

theorem onStart (h : IsCount start hist r) (hb : r.body = .count c hc) : OnStart start c ∧ Stamped start r.version := by
  rcases h.shape with ⟨t, _, rfl⟩ | ⟨c', hc', hb', hon⟩
  · cases hb
  · rw [hb] at hb'
    cases hb'
    exact hon

/-- A counter joins one of the run without a cut. -/
theorem join_counters (hf : Fits hist) (hr : IsCount start hist r) {d : CounterState} {hd : d.Canonical}
    (hrb : r.body = .count c hc) (hwb : w.body = .count d hd) (hwttl : w.ttl = startTtl start) (hws : w.mark.2 ≤ full hist)
    (hdon : OnStart start d) : IsCount start hist (r.merge w) ∧ (r.merge w).mark = r.mark ⊔ w.mark := by
  obtain ⟨hcon, hst⟩ := hr.onStart hrb
  have hmerge : (r.merge w).body = .count (c.merge d) (hc.merge hd) := by rw [StringRecord.merge, hrb, hwb]
  have hjoin : c.merge d = c.joinSlots d := merge_of_eq (hcon.baseVersion.trans hdon.baseVersion.symm)
  have hslots : (r.merge w).slots = unionSlots c.slots d.slots := by
    rw [slots_of_count hmerge, hjoin, joinSlots_slots_eq hc]
    rw [← slots_of_count hrb, ← slots_of_count hwb]
    exact (Finset.card_le_card (union_subset hr.within.2 hws.2)).trans hf.nodes
  have hmark : (r.merge w).mark = r.mark ⊔ w.mark := by
    rw [StringRecord.mark, StringRecord.mark, StringRecord.mark, hslots, merge_version, nodes_unionSlots, slots_of_count hrb,
      slots_of_count hwb]
    exact Prod.ext rfl (Prod.ext (funext fun n => look_unionSlots hc.asc hd.asc n) rfl)
  refine ⟨⟨?_, .inr ⟨_, _, hmerge, hjoin ▸ ⟨hcon.baseVersion, hcon.base⟩, ?_⟩, ?_, fun _ _ _ => ?_⟩, hmark⟩
  · rw [StringRecord.merge, hrb, hwb]
    show (if _ then w.ttl else r.ttl) = _
    rw [hr.ttl, hwttl, ite_self]
  · rw [merge_version]
    exact hst.mono (le_max_left _ _)
  · rw [hmark]
    exact sup_le hr.within hws
  · rw [show nodesOf (r.merge w).slots = _ from congrArg (·.2.2) hmark]
    exact (hr.counter c hc hrb).mono subset_union_left

/-- The text that the key started as is below everything. -/
theorem text_le (hr : IsCount start hist r) (ht : start = some t) : t.record.mark ≤ r.mark := by
  refine ⟨?_, fun n => zero_le_look _, empty_subset _⟩
  rcases hr.shape with ⟨t', ht', rfl⟩ | ⟨c, hc, hb, _, hst⟩
  · rw [ht] at ht'
    cases ht'
    exact le_rfl
  · exact (hst.newer t ht).le

/-- Two records of a run merge to one. -/
theorem joined (hf : Fits hist) (hr : IsCount start hist r) (hw : IsCount start hist w) :
    IsCount start hist (r.merge w) ∧ (r.merge w).mark = r.mark ⊔ w.mark := by
  rcases hw.shape with ⟨t, ht, rfl⟩ | ⟨d, hd, hwb, hdon, hst⟩
  · have hmerge : r.merge t.record = r := by
      rcases hr.shape with ⟨t', ht', rfl⟩ | ⟨c, hc, hrb, _, hst⟩
      · rw [ht] at ht'
        cases ht'
        exact StringRecord.merge_self _
      · rw [StringRecord.merge, hrb]
        exact if_neg (not_lt.2 (hst.newer t ht).le)
    rw [hmerge]
    exact ⟨hr, (sup_eq_left.2 (hr.text_le ht)).symm⟩
  · rcases hr.shape with ⟨t, ht, rfl⟩ | ⟨c, hc, hrb, _⟩
    · have hmerge : t.record.merge w = w := if_pos (hst.newer t ht)
      rw [hmerge]
      exact ⟨hw, (sup_eq_right.2 (hw.text_le ht)).symm⟩
    · exact join_counters hf hr hrb hwb hw.ttl hw.within hdon

/-- A record of a run can be seen as long as the text it started as can. -/
theorem isVisible (h : IsCount start hist r) {now : UInt64} (hvis : ∀ t ∈ start, t.visibleAt now = true) :
    r.isVisible now = true := by
  have htext : ∀ t ∈ start, t.record.isVisible now = true := by
    intro t ht
    have hsee := hvis t ht
    rw [visibleAt, bytes_eq, ← map_some, readLww_encode, isSome_map, seen,
      filter_some] at hsee
    split at hsee
    · assumption
    · cases hsee
  rcases h.shape with ⟨t, ht, rfl⟩ | ⟨c, hc, hb, _, hst⟩
  · exact htext t ht
  refine isVisible_iff.2 ⟨by simp [hb], ?_, hst.pos⟩
  rw [h.ttl]
  cases hs : start with
  | none => exact fun hne => absurd rfl hne
  | some t => exact (isVisible_iff.1 (htext t hs)).2.1

end IsCount

/-! ## Increments -/

section

variable {start : Option StartText} {hist : List (Dot × Int64)} {o : Option StringRecord} {now : UInt64} {c : CounterState}

/-- An increment starts from the slots its node holds, on what the key started as. -/
theorem base_onStart (ho : ∀ r ∈ o, IsCount start hist r) (hpresent : start.isSome → o.isSome)
    (hvis : ∀ t ∈ start, t.visibleAt now = true) (hbase : StringRecord.base (seen o now) = some c) :
    OnStart start c ∧ c.slots = heldSlots o := by
  cases o with
  | none =>
    cases start with
    | none =>
      cases hbase
      exact ⟨⟨rfl, rfl⟩, rfl⟩
    | some t => cases hpresent rfl
  | some r =>
    have hr := ho r rfl
    rw [seen, filter_some, if_pos (hr.isVisible hvis)] at hbase
    rcases hr.shape with ⟨t, rfl, rfl⟩ | ⟨d, hd, hb, hon, _⟩
    · obtain ⟨n, hn, rfl⟩ := map_eq_some_iff.1 hbase
      have hnum : t.number = some n := hn
      refine ⟨⟨rfl, ?_⟩, rfl⟩
      show n = t.number.getD 0
      rw [hnum, getD_some]
    · simp only [StringRecord.base, hb, some.injEq] at hbase
      subst hbase
      exact ⟨hon, (slots_of_count hb).symm⟩

/-- The slots an increment writes: its node's in full, the others as they were. -/
theorem bump_le_full {d : Dot} {slots : List Slot} (hasc : Asc slots) (hs : (look slots, nodesOf slots) ≤ full hist)
    (hown : look slots d.origin = slotTotal hist d.origin) (hf : Fits ((d, delta) :: hist)) :
    (look (upsert d.origin (bumpSlot delta) slots), nodesOf (upsert d.origin (bumpSlot delta) slots)) ≤
      full ((d, delta) :: hist) ∧
      look (upsert d.origin (bumpSlot delta) slots) d.origin = slotTotal ((d, delta) :: hist) d.origin := by
  have hself : look (upsert d.origin (bumpSlot delta) slots) d.origin = slotTotal ((d, delta) :: hist) d.origin := by
    rw [look_bump slots d.origin delta hasc, hown, bump_slotTotal hf]
  refine ⟨⟨fun n => ?_, ?_⟩, hself⟩
  · by_cases hn : n = d.origin
    · exact hn ▸ hself.le
    · exact (look_upsert_of_ne (bumpSlot_node delta) hn slots).trans_le ((hs.1 n).trans (slotTotal_le_cons hf n))
  · rw [nodes_upsert (bumpSlot_node delta), full, counted_cons]
    exact insert_subset_insert _ hs.2

/-- What a node may hold after a step: a record of the run, with its node's slot in full, above what it held. -/
structure Counted (start : Option StartText) (hist : List (Dot × Int64)) (i : NodeId) (o : Option StringRecord)
    (r' : StringRecord) : Prop where
  isCount : IsCount start hist r'
  own : look r'.slots i = slotTotal hist i
  node : OrderDual.toDual i ∈ counted hist → OrderDual.toDual i ∈ nodesOf r'.slots
  above : ∀ r ∈ o, r.mark ≤ r'.mark

theorem counted_store (ho : ∀ r ∈ o, IsCount start hist r) (hpresent : start.isSome → o.isSome)
    (hvis : ∀ t ∈ start, t.visibleAt now = true) (hbase : StringRecord.base (seen o now) = some c)
    (hown : look (heldSlots o) v.origin = slotTotal hist v.origin) (hf : Fits ((v, delta) :: hist))
    (hout : CountSys.outranks (o.map StringRecord.encode) v = true) {w : StringRecord}
    (hw : w = bumped v (keepTtl (seen o now)) c (base_canonical hbase) v.origin delta) :
    Counted start ((v, delta) :: hist) v.origin o (StringRecord.store o w) := by
  obtain ⟨hon, hslots⟩ := base_onStart ho hpresent hvis hbase
  have hcanon := base_canonical hbase
  have hwithin : (look c.slots, nodesOf c.slots) ≤ full hist := by
    rw [hslots]
    cases o with
    | none => exact ⟨fun n => zero_le_look _, empty_subset _⟩
    | some r => exact (ho r rfl).within
  obtain ⟨hfull, hself⟩ := bump_le_full hcanon.asc hwithin (hslots ▸ hown) hf
  -- with the nodes under the cap the count byte does not wrap
  have hwire : (c.bump v.origin delta).wire = c.bump v.origin delta := by
    refine wire_eq_self ?_
    show (upsert v.origin (bumpSlot delta) c.slots).length ≤ _
    rw [← (asc_upsert (bumpSlot_node delta) hcanon.asc).card_keys]
    exact (Finset.card_le_card hfull.2).trans hf.nodes
  have hver : w.version = v := by rw [hw, bumped]
  have hkeep : w.ttl = keepTtl (seen o now) := by rw [hw, bumped]
  have hbody : w.body = .count (c.bump v.origin delta).wire (hcanon.wire_bump v.origin delta) := by rw [hw, bumped]
  have hws : w.slots = upsert v.origin (bumpSlot delta) c.slots := by rw [slots_of_count hbody, hwire, bump]
  have hmark : w.mark = (v, look (upsert v.origin (bumpSlot delta) c.slots),
    nodesOf (upsert v.origin (bumpSlot delta) c.slots)) := by
    rw [mark, hws, hver]
  have hnode : OrderDual.toDual v.origin ∈ nodesOf w.slots := by
    rw [hws, nodes_upsert (bumpSlot_node delta)]
    exact Finset.mem_insert_self _ _
  have hon' : OnStart start (c.bump v.origin delta).wire := ⟨hon.baseVersion, hon.base⟩
  have hwfull : w.mark.2 ≤ full ((v, delta) :: hist) := hmark ▸ hfull
  have hsolo (hst : Stamped start v) (httl : w.ttl = startTtl start) : IsCount start ((v, delta) :: hist) w :=
    ⟨httl, .inr ⟨_, _, hbody, hon', hver.symm ▸ hst⟩, hwfull, fun _ _ _ => ⟨_, hnode⟩⟩
  -- what is stored has the slots that are written
  suffices hstore : IsCount start ((v, delta) :: hist) (store o w) ∧ (store o w).mark.2 = w.mark.2 ∧
      ∀ r ∈ o, r.mark ≤ (store o w).mark by
    obtain ⟨hcount, heq, habove⟩ := hstore
    refine ⟨hcount, ?_, fun _ => ?_, habove⟩
    · rw [show look (store o w).slots = look w.slots from congrArg Prod.fst heq, hws, hself]
    · rw [show nodesOf (store o w).slots = nodesOf w.slots from congrArg Prod.snd heq]
      exact hnode
  cases o with
  | none =>
    cases start with
    | some t => cases hpresent rfl
    | none =>
      have hpos : 0 < v.hlc := by simpa [CountSys.outranks] using hout
      exact ⟨hsolo ⟨nofun, hpos⟩ hkeep, rfl, nofun⟩
  | some r =>
    have hr := ho r rfl
    have hseen : seen (some r) now = some r := by rw [seen, filter_some, if_pos (hr.isVisible hvis)]
    have httl : w.ttl = startTtl start := by
      rw [hkeep, hseen]
      exact hr.ttl
    rcases hr.shape with ⟨t, rfl, rfl⟩ | ⟨d, hd, hb, hdon, _⟩
    · have hlt : t.record.version < v := by
        simpa [CountSys.outranks, counterOf_encode, record] using hout
      have hst : Stamped (some t) v := by
        refine ⟨fun t' ht' => ?_, ?_⟩
        · cases ht'
          exact hlt
        · exact (seen_not_dead hseen).2.2.trans_le (Dot.hlc_le_of_le hlt.le)
      have hstore : store (some t.record) w = w := if_pos (hver.symm ▸ hlt)
      rw [hstore]
      refine ⟨hsolo hst httl, rfl, fun r' hr' => ?_⟩
      cases hr'
      exact (hsolo hst httl).text_le rfl
    · obtain ⟨hcount, hsup⟩ := (hr.cons hf).join_counters hf hb hbody httl hwfull hon'
      refine ⟨hcount, ?_, fun r' hr' => ?_⟩
      · show (r.merge w).mark.2 = _
        rw [hsup]
        refine sup_eq_right.2 ?_
        rw [hmark, mark, show r.slots = c.slots from hslots.symm]
        refine ⟨fun n => look_le_bump hcanon.asc _ n, ?_⟩
        rw [nodes_upsert (bumpSlot_node delta)]
        exact Finset.subset_insert _ _
      · cases hr'
        exact le_sup_left.trans_eq hsup.symm

end

/-! ## Runs -/

/-- The step invariant, on records. -/
structure CountInv (nodes : Finset NodeId) (start : Option StartText) (hist : List (Dot × Int64)) (t : Recs) : Prop where
  sent : ∀ r ∈ t.sent, IsCount start hist r
  held : ∀ i, ∀ r ∈ t.held i, IsCount start hist r
  /-- a key that starts as a text never becomes absent -/
  present : start.isSome → ∀ i ∈ nodes, (t.held i).isSome
  /-- a node's record has its own slot in full -/
  own : ∀ i, look (heldSlots (t.held i)) i = slotTotal hist i
  counted : ∀ i, OrderDual.toDual i ∈ counted hist → OrderDual.toDual i ∈ nodesOf (heldSlots (t.held i))
  /-- a node is above everything it has merged -/
  above : ∀ i, ∀ m ∈ t.merged i, ∃ r ∈ t.held i, m.mark ≤ r.mark

namespace CountInv

variable {nodes : Finset NodeId} {start : Option StartText} {hist : List (Dot × Int64)} {t : Recs}

/-- A step on node `i` keeps the invariant, where only node `i` may have counted more. -/
theorem put (h : CountInv nodes start hist t)
    (hmono : ∀ r, IsCount start hist r → IsCount start hist' r)
    (hother : ∀ j, j ≠ i → slotTotal hist' j = slotTotal hist j ∧ (OrderDual.toDual j ∈ Marekvs.counted hist' →
      OrderDual.toDual j ∈ Marekvs.counted hist))
    (hnew : Counted start hist' i (t.held i) (StringRecord.store (t.held i) w))
    (hy : y.mark ≤ (StringRecord.store (t.held i) w).mark) : CountInv nodes start hist' (t.put i w y) := by
  refine ⟨fun r hr => ?_, fun j r hr => ?_, fun hs j hj => ?_, fun j => ?_, fun j hjc => ?_, fun j m hm => ?_⟩
  · rcases mem_cons.1 hr with rfl | hr
    · exact hnew.isCount
    · exact hmono r (h.sent r hr)
  all_goals by_cases hji : j = i
  · subst hji
    rw [put_held_self] at hr
    cases hr
    exact hnew.isCount
  · rw [put_held_of_ne _ _ _ hji] at hr
    exact hmono r (h.held j r hr)
  · subst hji
    rw [put_held_self]
    rfl
  · rw [put_held_of_ne _ _ _ hji]
    exact h.present hs j hj
  · subst hji
    rw [put_held_self]
    exact hnew.own
  · rw [put_held_of_ne _ _ _ hji, (hother j hji).1]
    exact h.own j
  · subst hji
    rw [put_held_self]
    exact hnew.node hjc
  · rw [put_held_of_ne _ _ _ hji]
    exact h.counted j ((hother j hji).2 hjc)
  · subst hji
    rw [put_merged_self] at hm
    refine ⟨_, put_held_self t j w y, ?_⟩
    rcases mem_cons.1 hm with rfl | hm
    · exact hy
    · obtain ⟨r, hr, hmr⟩ := h.above j m hm
      exact hmr.trans (hnew.above r hr)
  · rw [put_merged_of_ne _ _ _ hji] at hm
    rw [put_held_of_ne _ _ _ hji]
    exact h.above j m hm

theorem receive (h : CountInv nodes start hist t) (hf : Fits hist) (i : NodeId) (hw : w ∈ t.sent) :
    CountInv nodes start hist (t.put i w w) := by
  have hwc := h.sent w hw
  have hown := h.own i
  have hcounted := h.counted i
  cases hi : t.held i with
  | none =>
    rw [hi] at hown hcounted
    refine h.put (fun _ hr => hr) (fun _ _ => ⟨rfl, id⟩) ?_ ?_ <;> rw [hi]
    · refine ⟨hwc, le_antisymm (hwc.within.1 i) ?_, fun hc => (nomatch hcounted hc), nofun⟩
      exact hown.symm.trans_le (zero_le_look _)
    · exact le_rfl
  | some r =>
    rw [hi] at hown hcounted
    obtain ⟨hcount, hsup⟩ := (h.held i r hi).joined hf hwc
    refine h.put (fun _ hr => hr) (fun _ _ => ⟨rfl, id⟩) ?_ ?_ <;> rw [hi]
    · refine ⟨hcount, ?_, fun hc => ?_, fun r' hr' => ?_⟩
      · show (r.merge w).mark.2.1 i = _
        rw [hsup]
        exact (sup_eq_left.2 ((hwc.within.1 i).trans_eq hown.symm)).trans hown
      · show _ ∈ (r.merge w).mark.2.2
        rw [hsup]
        exact Finset.mem_union_left _ (hcounted hc)
      · cases hr'
        exact le_sup_left.trans_eq hsup.symm
    · exact le_sup_right.trans_eq hsup.symm

theorem accept (h : CountInv nodes start hist t) (hi : v.origin ∈ nodes) (hf : Fits ((v, delta) :: hist))
    (hvis : ∀ t ∈ start, t.visibleAt now = true) (hbase : StringRecord.base (seen (t.held v.origin) now) = some c)
    (hout : CountSys.outranks ((t.held v.origin).map StringRecord.encode) v = true)
    (hw : w = bumped v (keepTtl (seen (t.held v.origin) now)) c (base_canonical hbase) v.origin delta) :
    CountInv nodes start ((v, delta) :: hist) (t.put v.origin w (StringRecord.store (t.held v.origin) w)) := by
  refine h.put (fun r hr => hr.cons hf) (fun j hj => ⟨slotTotal_cons_of_ne hj.symm, fun hc => ?_⟩) ?_ le_rfl
  · rw [counted_cons, mem_insert] at hc
    exact hc.resolve_left fun heq => hj (OrderDual.toDual.injective heq)
  · exact counted_store (h.held v.origin) (fun hs => h.present hs _ hi) hvis hbase (h.own v.origin) hf hout hw

end CountInv

namespace CountSys

/-- A step's effect on what the conditions of a run look at. -/
theorem step_mono (s : CountSys) (op : CountOp) :
    (Fits (s.step op).hist → Fits s.hist) ∧ ((s.step op).raised = true → s.raised = true) := by
  cases op with
  | incr i wall arg decr =>
    rw [step]
    split
    · split
      · exact ⟨id, id⟩
      · refine ⟨fun hf => hf.of_cons, fun hr => ?_⟩
        rw [accept, Bool.and_eq_true] at hr
        exact hr.1
    · exact ⟨id, id⟩
  | deliver i wall index =>
    rw [step]
    split <;> exact ⟨id, id⟩

section

variable {nodes : Finset NodeId} {start : Option StartText} {clock : NodeId → UInt64}

theorem inv_init : ∃ t, RepOf (init nodes start clock).stored (init nodes start clock).sent (init nodes start clock).merged t ∧
    CountInv nodes start (init nodes start clock).hist t := by
  refine ⟨⟨fun i => if i ∈ nodes then start.map record else none, (start.map record).toList,
    fun i => if i ∈ nodes then (start.map record).toList else []⟩, ⟨fun i => ?_, ?_, fun i => ?_⟩, ?_⟩
  · show (if i ∈ nodes then _ else _) = Option.map _ (if i ∈ nodes then _ else _)
    split
    · cases start <;> rfl
    · rfl
  · cases start <;> rfl
  · show (if i ∈ nodes then _ else _) = List.map _ (if i ∈ nodes then _ else _)
    split
    · cases start <;> rfl
    · rfl
  · have hrec : ∀ r ∈ start.map record, IsCount start [] r := by
      intro r hr
      obtain ⟨t, ht, rfl⟩ := map_eq_some_iff.1 hr
      refine ⟨by rw [ht]; rfl, .inl ⟨t, ht, rfl⟩, ⟨fun n => le_rfl, empty_subset _⟩, nofun⟩
    have hslots : ∀ i, heldSlots (if i ∈ nodes then start.map record else none) = [] := by
      intro i
      split
      · cases start <;> rfl
      · rfl
    refine ⟨fun r hr => hrec r (Option.mem_toList.1 hr), fun i r hr => ?_, fun hs i hi => ?_, fun i => ?_,
      nofun, fun i m hm => ?_⟩
    · dsimp only at hr
      split at hr
      · exact hrec r hr
      · cases hr
    · dsimp only
      rw [if_pos hi, isSome_map]
      exact hs
    · dsimp only
      rw [hslots]
      rfl
    · dsimp only at hm ⊢
      split at hm
      · rename_i hi
        rw [if_pos hi]
        exact ⟨m, Option.mem_toList.1 hm, le_rfl⟩
      · cases hm

theorem inv_step {s : CountSys} (hrep : RepOf s.stored s.sent s.merged t) (hinv : CountInv nodes start s.hist t)
    (hnode : op.node ∈ nodes) (hvis : ∀ t ∈ start, t.visibleAt op.wall = true) (hf : Fits (s.step op).hist)
    (hraised : (s.step op).raised = true) :
    ∃ t', RepOf (s.step op).stored (s.step op).sent (s.step op).merged t' ∧ CountInv nodes start (s.step op).hist t' := by
  cases op with
  | incr i wall arg decr =>
    rw [step] at hf hraised ⊢
    split
    · rename_i delta request hdelta hreq
      rw [hdelta, hreq] at hf hraised
      dsimp only at hf hraised
      split
      · exact ⟨t, hrep, hinv⟩
      rename_i new b hb
      rw [hb] at hf hraised
      dsimp only at hf hraised
      have hout : outranks (s.stored i) ⟨Hlc.now (s.clock i) wall, i⟩ = true := by
        rw [accept, Bool.and_eq_true] at hraised
        exact hraised.2
      rw [hrep.stored i] at hb hout
      obtain ⟨r, ⟨c, hbase, _, rfl⟩, rfl⟩ := incrBy_encode (t.held i) ⟨Hlc.now (s.clock i) wall, i⟩ delta wall hb
      exact ⟨_, hrep.put i _ _, hinv.accept hnode hf hvis hbase hout rfl⟩
    · exact ⟨t, hrep, hinv⟩
  | deliver i wall index =>
    rw [step] at hf ⊢
    split
    · exact ⟨t, hrep, hinv⟩
    rename_i b hb
    rw [hb] at hf
    have hmem := mem_of_getElem? hb
    rw [hrep.sent] at hmem
    obtain ⟨w, hw, rfl⟩ := mem_map.1 hmem
    refine ⟨t.put i w w, ?_, hinv.receive hf i hw⟩
    have hput := hrep.put i w w
    rw [← hrep.writeMerged i w] at hput
    exact hput

/-- After a run whose totals fit, on nodes that fit, in which increments of a text are stamped above it and the text does not
expire, the stored bytes are those of records that satisfy the invariant. -/
theorem inv_run (ops : List CountOp) (hnodes : ∀ op ∈ ops, op.node ∈ nodes)
    (hvis : ∀ t ∈ start, ∀ op ∈ ops, t.visibleAt op.wall = true) (hf : Fits (run nodes start clock ops).hist)
    (hraised : (run nodes start clock ops).raised = true) :
    ∃ t, RepOf (run nodes start clock ops).stored (run nodes start clock ops).sent (run nodes start clock ops).merged t ∧
      CountInv nodes start (run nodes start clock ops).hist t := by
  induction ops using List.reverseRecOn with
  | nil => exact inv_init
  | append_singleton ops op ih =>
    have hstep : run nodes start clock (ops ++ [op]) = (run nodes start clock ops).step op := by simp [run]
    rw [hstep] at hf hraised ⊢
    obtain ⟨hf', hr'⟩ := step_mono (run nodes start clock ops) op
    obtain ⟨t, hrep, hinv⟩ := ih (fun op' h => hnodes op' (mem_append_left _ h))
      (fun t ht op' h => hvis t ht op' (mem_append_left _ h)) (hf' hf) (hr' hraised)
    exact inv_step hrep hinv (hnodes op (by simp)) (fun t ht => hvis t ht op (by simp)) hf hraised

end

end CountSys

end Marekvs
