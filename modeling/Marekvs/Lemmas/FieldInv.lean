import Marekvs.Engine.FieldRun

/-!
# What every run of increments keeps

The records of a field that only sees increments are counter-field records whose entries carry their node's totals at their dot
(`IsField`). As long as no cut drops a node's newest entry, no clock wraps and no total outgrows 64 bits (`Good`), a node's record
holds its newest dot and is above everything the node has merged (`Inv`).
-/

namespace Marekvs

open Option Function Bool Finset

open Desc TopN Newest ElementState ElementRecord ElementSys FieldSys

variable {hist : List (Dot × Int64)} {o : Option ElementRecord} {i : NodeId} {s : FieldSys}

/-! ## Records -/

/-- A field record of a run with the given increments. -/
structure IsField (hist : List (Dot × Int64)) (r : ElementRecord) : Prop where
  rtype : r.rtype = .counterField
  ttl : r.ttl = 0
  covered : r.state.covered = []
  live : r.state.live ≠ []
  stamped : 0 < r.version.hlc
  entry : ∀ e ∈ r.state.live, e.2 = (entryState (slotAt hist e.1)).encode
  known : ∀ e ∈ r.state.live, ∃ delta, (e.1, delta) ∈ hist

namespace IsField

variable {hist : List (Dot × Int64)} {r s : ElementRecord}

/-- An increment above all earlier ones of its node leaves the totals of the records so far as they are. -/
theorem cons (h : IsField hist r) (hp : ∀ q ∈ hist, q.1.origin = p.1.origin → q.1 < p.1) : IsField (p :: hist) r where
  rtype := h.rtype
  ttl := h.ttl
  covered := h.covered
  live := h.live
  stamped := h.stamped
  entry e he := by
    obtain ⟨delta, hd⟩ := h.known e he
    have hnot : ¬ (p.1.origin = e.1.origin ∧ p.1 ≤ e.1) := fun hle => absurd (hp _ hd hle.1.symm) (not_lt.2 hle.2)
    rw [h.entry e he, slotAt, slotAt, upTo_cons_of_not hnot, upTo_cons_of_not hnot]
  known e he := by
    obtain ⟨delta, hd⟩ := h.known e he
    exact ⟨delta, List.mem_cons_of_mem _ hd⟩

theorem dots_nonempty (h : IsField hist r) : r.dots.live.Nonempty := by
  obtain ⟨e, he⟩ := List.exists_mem_of_ne_nil _ h.live
  exact ⟨e.1, mem_dots_live.2 ⟨e, he, rfl⟩⟩

theorem origins_nodup (h : IsField hist r) : (r.state.live.map fun e => e.1.origin).Nodup := r.collapsed h.rtype

theorem newest_dots (h : IsField hist r) : newest Dot.origin r.dots.live = r.dots.live := by
  refine Finset.Subset.antisymm (newest_subset _) fun d hd => mem_newest.2 ⟨hd, fun d' hd' hg => ?_⟩
  obtain ⟨e, he, rfl⟩ := mem_dots_live.1 hd
  obtain ⟨e', he', rfl⟩ := mem_dots_live.1 hd'
  rw [List.inj_on_of_nodup_map h.origins_nodup he' he hg]

theorem live_of_dots (hlive : r.dots.live.Nonempty) : r.state.live ≠ [] := by
  obtain ⟨d, hd⟩ := hlive
  obtain ⟨e, he, _⟩ := mem_dots_live.1 hd
  exact List.ne_nil_of_mem he

theorem join (hr : IsField hist r) (hs : IsField hist s)
    (hkeep : KeepsNewest Dot.origin MAX_LIVE_DOTS (r.dots.live ∪ s.dots.live)) :
    IsField hist (r.join s) ∧ (r.join s).dots.live = newest Dot.origin (r.dots.live ∪ s.dots.live) := by
  obtain ⟨hdots, hcov⟩ := dots_join_counterField hr.rtype hs.rtype hr.covered hs.covered hkeep
  have hlive : (r.join s).dots.live = newest Dot.origin (r.dots.live ∪ s.dots.live) := by rw [hdots]
  refine ⟨⟨join_rtype hr.rtype hs.rtype, ?_, hcov, live_of_dots ?_, ?_, ?_, ?_⟩, hlive⟩
  · show (if r.version < s.version then s.ttl else r.ttl) = 0
    rw [hr.ttl, hs.ttl, ite_self]
  · obtain ⟨d, hd⟩ := hr.dots_nonempty
    obtain ⟨d', hd', _⟩ := exists_newest Dot.origin (mem_union_left s.dots.live hd)
    exact ⟨d', hlive ▸ hd'⟩
  · exact lt_of_lt_of_le hr.stamped (Dot.hlc_le_of_le (le_max_left r.version s.version))
  · exact fun e he => (mem_of_mem_joinStates he).elim (hr.entry e) (hs.entry e)
  · exact fun e he => (mem_of_mem_joinStates he).elim (hr.known e) (hs.known e)

/-- A field record is visible whatever the wall clock says. -/
theorem readLww_eq (h : IsField hist r) (now : UInt64) : readLww (some r.encode) 0 now = some (r.envelope, r.state.encode) := by
  have htomb : r.envelope.isTombstone = false := by
    rw [← not_eq_true, isTombstone_iff]
    exact h.live
  have hexp : r.envelope.isExpired now = false := by
    simp [Envelope.isExpired, envelope, h.ttl]
  have hhlc : ¬ r.envelope.hlc ≤ 0 := not_le.2 h.stamped
  simp [readLww, visible, htomb, hexp, hhlc]

/-- The counter of a field record has the totals of its dots. -/
theorem counterFieldState_eq (h : IsField hist r) :
    ∃ slots, counterFieldState r.state.encode = some ⟨0, 0, 0, slots⟩ ∧
      slots.Perm (r.state.live.map fun e => slotAt hist e.1) := by
  obtain ⟨slots, hfold, hperm⟩ := foldCounters_entries (slotAt hist) h.live h.entry (fun _ => rfl) h.origins_nodup
    (r.canonical.live_le.trans (by decide))
  refine ⟨slots, ?_, hperm⟩
  rw [counterFieldState, decode_state_encode]
  exact hfold

end IsField

/-! ## The record of an increment -/

theorem length_encode (c : CounterState) : c.encode.length = 19 + c.slots.length * 18 := by
  simp [CounterState.encode, List.length_flatMap]
  omega

/-- The record `counterFieldSet` writes on top of live entries without covered dots. -/
def fieldRecord (version : Version) (live : List (Dot × Bytes)) (hs : ∀ e ∈ live, e.2.length < 2 ^ 64) : ElementRecord where
  rtype := .counterField
  version := version
  ttl := 0
  state := (ElementState.normalize ⟨live, []⟩).collapsePerOrigin
  orElement := rfl
  canonical := (normalize_canonical _).collapse
  small e he := hs e (mem_of_mem_normalize ((collapseFrom_sublist [] _).subset he))
  collapsed _ := (collapseFrom_origins [] _).1

def fieldBytes (version : Version) (live : List (Dot × Bytes)) : Bytes :=
  encodeElement .counterField version 0 (ElementState.normalize ⟨live, []⟩).collapsePerOrigin

theorem encode_fieldRecord (version : Version) (live : List (Dot × Bytes)) (hs : ∀ e ∈ live, e.2.length < 2 ^ 64) :
    (fieldRecord version live hs).encode = fieldBytes version live := (fieldRecord version live hs).encode_eq

theorem mem_fieldRecord {version : Version} {live : List (Dot × Bytes)} {hs : ∀ e ∈ live, e.2.length < 2 ^ 64}
    {e : Dot × Bytes} (h : e ∈ (fieldRecord version live hs).state.live) : e ∈ live :=
  mem_of_mem_normalize ((collapseFrom_sublist [] _).subset h)

/-- The slot an increment publishes: the node's slot on the folded counter, with the increment added. -/
theorem ownEntry_eq (slots : List Slot) (n : NodeId) (delta : Int64) :
    ownEntry ⟨0, 0, 0, slots⟩ n delta =
      entryState (CounterState.bumpSlot delta ⟨n, ((slots.find? fun s => s.node = n).getD ⟨n, 0, 0⟩).pos,
        ((slots.find? fun s => s.node = n).getD ⟨n, 0, 0⟩).neg⟩) := by
  simp [ownEntry, CounterState.bump, upsert, entryState]

/-- The live entries of what is stored. -/
def liveOf (o : Option ElementRecord) : List (Dot × Bytes) :=
  match o with
  | none => []
  | some r => r.state.live

/-- The entries after an increment on top of live ones, whose fold has the given slots. -/
def incremented (live : List (Dot × Bytes)) (slots : List Slot) (clk : UInt64) (i : NodeId) (delta : Int64) :
    List (Dot × Bytes) :=
  live ++ [(⟨clk, i⟩, (ownEntry ⟨0, 0, 0, slots⟩ i delta).encode)]

/-- An increment is refused without a trace, or writes the node's new totals on a fresh dot on top of the live entries. -/
theorem incrCounterField_cases (ho : ∀ r ∈ o, IsField hist r) (clock wall : UInt64) (i : NodeId) (delta : Int64) (now : UInt64) :
    (∃ e, incrCounterField (o.map ElementRecord.encode) clock wall i delta 0 now = (clock, .error e)) ∨
      ∃ v slots, slots.Perm ((liveOf o).map fun e => slotAt hist e.1) ∧
        incrCounterField (o.map ElementRecord.encode) clock wall i delta 0 now =
          (Hlc.now clock wall, .ok (v, writeMerged (o.map ElementRecord.encode)
            (fieldBytes ⟨Hlc.now clock wall, i⟩ (incremented (liveOf o) slots (Hlc.now clock wall) i delta)))) := by
  have hbase : ∃ slots, slots.Perm ((liveOf o).map fun e => slotAt hist e.1) ∧
      counterBase ((readLww (o.map ElementRecord.encode) 0 now).map Prod.snd) clock wall i = (clock, .ok ⟨0, 0, 0, slots⟩) := by
    cases o with
    | none => exact ⟨[], List.Perm.refl _, rfl⟩
    | some r =>
      obtain ⟨slots, hst, hperm⟩ := (ho r rfl).counterFieldState_eq
      refine ⟨slots, hperm, ?_⟩
      rw [map_some, (ho r rfl).readLww_eq now, map_some, counterBase, hst]
  have hprior : (((readLww (o.map ElementRecord.encode) 0 now).map Prod.snd).bind ElementState.decode).getD ⟨[], []⟩ =
      ⟨liveOf o, []⟩ := by
    cases o with
    | none => rfl
    | some r =>
      rw [map_some, (ho r rfl).readLww_eq now, map_some, bind_some, decode_state_encode]
      show r.state = ⟨r.state.live, []⟩
      rw [← (ho r rfl).covered]
  obtain ⟨slots, hperm, hbase⟩ := hbase
  simp only [incrCounterField, hbase, counterFieldSet, hprior]
  cases hv : CounterState.value ⟨0, 0, 0, slots⟩ with
  | none => exact .inl ⟨_, rfl⟩
  | some cur =>
    dsimp only
    split
    · exact .inr ⟨_, slots, hperm, rfl⟩
    · exact .inl ⟨_, rfl⟩

/-- The folded counter's slot of a node holds all its increments, where its newest dot is among the live ones. -/
theorem own_slot_eq (ho : ∀ r ∈ o, IsField hist r)
    (hown : ∀ p ∈ hist, p.1.origin = i → ∃ e ∈ liveOf o, e.1.origin = i ∧ p.1 ≤ e.1) {slots : List Slot}
    (hperm : slots.Perm ((liveOf o).map fun e => slotAt hist e.1)) :
    (slots.find? fun s => s.node = i).getD ⟨i, 0, 0⟩ =
      ⟨i, UInt64.ofNat (totalOf posPart hist i), UInt64.ofNat (totalOf negPart hist i)⟩ := by
  have hnd : ((liveOf o).map fun e => e.1.origin).Nodup := by
    cases o with
    | none => exact List.nodup_nil
    | some r => exact (ho r rfl).origins_nodup
  cases hfind : slots.find? fun s => s.node = i with
  | none =>
    have hnone : ∀ p ∈ hist, p.1.origin ≠ i := by
      intro p hp hpi
      obtain ⟨e, he, hei, _⟩ := hown p hp hpi
      have := List.find?_eq_none.1 hfind (slotAt hist e.1) (hperm.mem_iff.2 (List.mem_map.2 ⟨e, he, rfl⟩))
      simp [slotAt, hei] at this
    rw [totalOf_eq_zero hnone, totalOf_eq_zero hnone]
    rfl
  | some s =>
    have hsi : s.node = i := by simpa using List.find?_some hfind
    obtain ⟨e, he, rfl⟩ := List.mem_map.1 (hperm.mem_iff.1 (List.mem_of_find?_eq_some hfind))
    have hei : e.1.origin = i := hsi
    have hmax : ∀ p ∈ hist, p.1.origin = e.1.origin → p.1 ≤ e.1 := by
      intro p hp hpe
      obtain ⟨e', he', hei', hle⟩ := hown p hp (hpe.trans hei)
      rwa [List.inj_on_of_nodup_map hnd he he' (hei.trans hei'.symm)]
    rw [getD_some, slotAt, upTo_eq_totalOf hmax, upTo_eq_totalOf hmax, hei]

/-! ## Runs -/

namespace FieldSys

/-- The conditions under which increments are safe: no clock has wrapped around, no cut has dropped the newest dot of a node,
and no node's totals outgrow 64 bits. -/
structure Good (s : FieldSys) : Prop where
  ticked : s.ticked = true
  kept : ∀ U ∈ s.unions, KeepsNewest Dot.origin MAX_LIVE_DOTS U
  pos : ∀ n, totalOf posPart s.hist n < 2 ^ 64
  neg : ∀ n, totalOf negPart s.hist n < 2 ^ 64

def Holds (s : FieldSys) (i : NodeId) (o : Option ElementRecord) : Prop :=
  s.stored i = o.map ElementRecord.encode ∧ ∀ r ∈ o, IsField s.hist r

/-- The step invariant. -/
structure Inv (s : FieldSys) : Prop where
  /-- clocks are past all increments of their node -/
  past : ∀ p ∈ s.hist, p.1.hlc ≤ s.clock p.1.origin
  /-- whatever was stored is a field record -/
  sent : ∀ b ∈ s.sent, ∃ r, IsField s.hist r ∧ r.encode = b
  /-- so is what is stored now, and it can be exchanged -/
  stored : ∀ i b, s.stored i = some b → b ∈ s.sent
  /-- a node holds its own newest dot -/
  own : ∀ p ∈ s.hist, ∃ d ∈ (storedDots (s.stored p.1.origin)).live, d.origin = p.1.origin ∧ p.1 ≤ d
  /-- a node is above everything it has merged -/
  above : ∀ i, ∀ b ∈ s.merged i, ∀ d ∈ (dotsOf b).live,
    ∃ d' ∈ (storedDots (s.stored i)).live, d'.origin = d.origin ∧ d ≤ d'

theorem Inv.holds (h : Inv s) (i : NodeId) : ∃ o, s.Holds i o := by
  cases hst : s.stored i with
  | none => exact ⟨none, hst, nofun⟩
  | some b =>
    obtain ⟨r, hr, rfl⟩ := h.sent b (h.stored i b hst)
    refine ⟨some r, hst, fun r' hr' => ?_⟩
    cases hr'
    exact hr

theorem Holds.dots (h : s.Holds i o) : (storedDots (s.stored i)).live = keys Prod.fst (liveOf o) := by
  rw [h.1]
  cases o with
  | none => rfl
  | some r =>
    show (dotsOf r.encode).live = _
    rw [dotsOf_encode]
    rfl

/-- Merging a field record into what a node holds keeps each origin's newest dot of both. -/
theorem Holds.writeMerged (h : s.Holds i o) (ho : ∀ r ∈ o, IsField hist r) (hr : IsField hist r)
    (hkeep : KeepsNewest Dot.origin MAX_LIVE_DOTS ((storedDots (s.stored i)).live ∪ r.dots.live)) :
    ∃ r', writeMerged (s.stored i) r.encode = r'.encode ∧ IsField hist r' ∧
      r'.dots.live = newest Dot.origin ((storedDots (s.stored i)).live ∪ r.dots.live) := by
  rw [h.dots] at hkeep ⊢
  rw [h.1]
  cases o with
  | none =>
    refine ⟨r, rfl, hr, ?_⟩
    simp [liveOf, hr.newest_dots]
  | some l =>
    obtain ⟨hjoin, hdots⟩ := (ho l rfl).join hr hkeep
    exact ⟨l.join r, mergeResolve_encode l r, hjoin, hdots⟩

theorem inv_init (clock : NodeId → UInt64) : Inv (init clock) where
  past _ hp := nomatch hp
  sent _ hb := nomatch hb
  stored _ _ h := nomatch h
  own _ hp := nomatch hp
  above _ _ hb := nomatch hb

/-- Among the dots is one of the same node that is not older. -/
def Below (D : Finset Dot) (d : Dot) : Prop := ∃ d' ∈ D, d'.origin = d.origin ∧ d ≤ d'

theorem Below.newest (h : Below D d) (hsub : D ⊆ E) : Below (newest Dot.origin E) d := by
  obtain ⟨d', hd', ho, hle⟩ := h
  obtain ⟨d'', hd'', ho', hle'⟩ := exists_newest Dot.origin (hsub hd')
  exact ⟨d'', hd'', ho'.trans ho, hle.trans hle'⟩

/-- A clock reading that is later than a node's clock is later than its increments. -/
theorem Inv.lt_of_clock_lt (h : Inv s) (hclk : s.clock i < clk) : ∀ q ∈ s.hist, q.1.origin = i → q.1 < ⟨clk, i⟩ := by
  intro q hq hqi
  have hle := h.past q hq
  rw [hqi] at hle
  exact Dot.lt_of_hlc_lt (lt_of_le_of_lt hle hclk)

/-- A node stores a record with the newest of the dots `D`. These are the dots it held, those of what it merges and those of what
it increments. -/
theorem Inv.store (h : Inv s) (new : List (Dot × Int64))
    (hclock : s'.clock = Function.update s.clock i clk) (hclk : s.clock i < clk)
    (hstored : s'.stored = Function.update s.stored i (some r'.encode)) (hsent : s'.sent = r'.encode :: s.sent)
    (hhist : s'.hist = new ++ s.hist) (hnew : ∀ p ∈ new, p.1.origin = i ∧ p.1.hlc ≤ clk ∧ p.1 ∈ D)
    (hmerged : ∀ j, ∀ b ∈ s'.merged j, b ∈ s.merged j ∨ j = i ∧ (dotsOf b).live ⊆ D) (hr' : IsField s'.hist r')
    (hkeep : ∀ r, IsField s.hist r → IsField s'.hist r) (hdots : r'.dots.live = newest Dot.origin D)
    (hsub : (storedDots (s.stored i)).live ⊆ D) : Inv s' := by
  have hlive : (storedDots (s'.stored i)).live = newest Dot.origin D := by
    rw [hstored, update_self, storedDots, dotsOf_encode, hdots]
  have hother : ∀ j, j ≠ i → s'.stored j = s.stored j := fun j hj => by rw [hstored, update_of_ne hj]
  -- what was below a node's old record is below its new one
  have hup : ∀ j d, Below (storedDots (s.stored j)).live d → Below (storedDots (s'.stored j)).live d := by
    intro j d hd
    by_cases hj : j = i
    · subst hj
      rw [hlive]
      exact hd.newest hsub
    · rwa [hother j hj]
  have hin : ∀ d ∈ D, Below (storedDots (s'.stored i)).live d := by
    intro d hd
    rw [hlive]
    exact exists_newest Dot.origin hd
  refine ⟨fun p hp => ?_, fun b hb => ?_, fun j b hj => ?_, fun p hp => ?_, fun j b hb d hd => ?_⟩
  · rw [hclock]
    rw [hhist] at hp
    by_cases hpi : p.1.origin = i
    · rw [hpi, update_self]
      rcases List.mem_append.1 hp with hp | hp
      · exact (hnew p hp).2.1
      · exact (hpi ▸ h.past p hp).trans hclk.le
    · rw [update_of_ne hpi]
      rcases List.mem_append.1 hp with hp | hp
      · exact absurd (hnew p hp).1 hpi
      · exact h.past p hp
  · rw [hsent] at hb
    rcases List.mem_cons.1 hb with rfl | hb
    · exact ⟨r', hr', rfl⟩
    · obtain ⟨r, hr, rfl⟩ := h.sent b hb
      exact ⟨r, hkeep r hr, rfl⟩
  · rw [hsent]
    by_cases hji : j = i
    · rw [hji, hstored, update_self] at hj
      cases hj
      exact List.mem_cons_self
    · rw [hother j hji] at hj
      exact List.mem_cons_of_mem _ (h.stored j b hj)
  · rw [hhist] at hp
    rcases List.mem_append.1 hp with hp | hp
    · obtain ⟨hi, -, hD⟩ := hnew p hp
      rw [hi]
      exact hi ▸ hin p.1 hD
    · exact hup _ _ (h.own p hp)
  · rcases hmerged j b hb with hb | ⟨rfl, hb⟩
    · exact hup j d (h.above j b hb d hd)
    · exact hin d (hb hd)

theorem Inv.receive (h : Inv s) (i : NodeId) (clk : UInt64) (hb : b ∈ s.sent) (hgood : (s.receive i clk b).Good) :
    Inv (s.receive i clk b) := by
  obtain ⟨r, hr, rfl⟩ := h.sent b hb
  obtain ⟨o, ho⟩ := h.holds i
  have hkeep := hgood.kept _ List.mem_cons_self
  rw [dotsOf_encode] at hkeep
  obtain ⟨r', henc, hr', hdots⟩ := ho.writeMerged ho.2 hr hkeep
  have hclk : s.clock i < clk := by
    have := hgood.ticked
    simp only [FieldSys.receive, and_eq_true, decide_eq_true_eq] at this
    exact this.2
  refine h.store [] rfl hclk (by simp [FieldSys.receive, henc]) (by simp [FieldSys.receive, henc]) rfl
    nofun (fun j c hc => ?_) hr' (fun _ h => h) hdots subset_union_left
  by_cases hji : j = i
  · subst hji
    simp only [FieldSys.receive, update_self, List.mem_cons] at hc
    rcases hc with rfl | hc
    · rw [dotsOf_encode]
      exact .inr ⟨rfl, subset_union_right⟩
    · exact .inl hc
  · simp only [FieldSys.receive, update_of_ne hji] at hc
    exact .inl hc

/-- An accepted increment stores a field record whose newest dots are the old ones and the new one. -/
theorem Inv.accept_record (h : Inv s) {clk : UInt64} {delta : Int64} {slots : List Slot} (ho : s.Holds i o)
    (hperm : slots.Perm ((liveOf o).map fun e => slotAt s.hist e.1))
    (hgood : (s.accept i clk delta
      (Marekvs.writeMerged (s.stored i) (fieldBytes ⟨clk, i⟩ (incremented (liveOf o) slots clk i delta)))).Good)
    (hclk : s.clock i < clk) :
    ∃ r', Marekvs.writeMerged (s.stored i) (fieldBytes ⟨clk, i⟩ (incremented (liveOf o) slots clk i delta)) = r'.encode ∧
      IsField ((⟨clk, i⟩, delta) :: s.hist) r' ∧
      r'.dots.live = newest Dot.origin (insert ⟨clk, i⟩ (storedDots (s.stored i)).live) := by
  have hnew := h.lt_of_clock_lt hclk
  have hown : ∀ p ∈ s.hist, p.1.origin = i → ∃ e ∈ liveOf o, e.1.origin = i ∧ p.1 ≤ e.1 := by
    intro p hp hpi
    obtain ⟨d, hd, hdo, hle⟩ := h.own p hp
    rw [hpi, ho.dots] at hd
    obtain ⟨e, he, rfl⟩ := mem_keys.1 hd
    exact ⟨e, he, hdo.trans hpi, hle⟩
  -- the entry carries the node's totals with the increment
  have hslot : ownEntry ⟨0, 0, 0, slots⟩ i delta = entryState (slotAt ((⟨clk, i⟩, delta) :: s.hist) ⟨clk, i⟩) := by
    have hp := hgood.pos i
    have hq := hgood.neg i
    have hmax : ∀ p ∈ (⟨clk, i⟩, delta) :: s.hist, p.1.origin = (⟨clk, i⟩ : Dot).origin → p.1 ≤ ⟨clk, i⟩ := by
      intro p hp hpi
      rcases List.mem_cons.1 hp with rfl | hp
      · exact le_rfl
      · exact (hnew p hp hpi).le
    have htp := totalOf_cons_self posPart s.hist ⟨clk, i⟩ delta
    have htn := totalOf_cons_self negPart s.hist ⟨clk, i⟩ delta
    simp only at htp htn
    simp only [FieldSys.accept] at hp hq
    rw [htp] at hp
    rw [htn] at hq
    rw [ownEntry_eq, own_slot_eq ho.2 hown hperm, bumpSlot_ofNat hp hq, slotAt, upTo_eq_totalOf hmax, upTo_eq_totalOf hmax,
      htp, htn]
  have hentry : ∀ e ∈ incremented (liveOf o) slots clk i delta,
    e.2 = (entryState (slotAt ((⟨clk, i⟩, delta) :: s.hist) e.1)).encode ∧
      (∃ delta', (e.1, delta') ∈ (⟨clk, i⟩, delta) :: s.hist) ∧ e.2.length < 2 ^ 64 := by
    intro e he
    rcases List.mem_append.1 he with he | he
    · cases o with
      | none => cases he
      | some r =>
        have hr := (ho.2 r rfl).cons (p := (⟨clk, i⟩, delta)) hnew
        exact ⟨hr.entry e he, hr.known e he, r.small e he⟩
    · rw [List.mem_singleton.1 he, hslot, length_encode]
      exact ⟨rfl, ⟨delta, List.mem_cons_self⟩, (by decide : 19 + 1 * 18 < 2 ^ 64)⟩
  have hsmall := fun e he => (hentry e he).2.2
  have hkeep := hgood.kept _ List.mem_cons_self
  have hkeys : keys Prod.fst (incremented (liveOf o) slots clk i delta) = insert ⟨clk, i⟩ (storedDots (s.stored i)).live := by
    rw [incremented, keys_append, keys_cons, keys_nil, ho.dots, union_comm]
    rfl
  have hdots : (fieldRecord ⟨clk, i⟩ _ hsmall).dots.live =
    newest Dot.origin (insert ⟨clk, i⟩ (storedDots (s.stored i)).live) := by
    have := toOrSet_collapse_normalize (incremented (liveOf o) slots clk i delta) (by rw [hkeys]; exact hkeep)
    rw [hkeys] at this
    exact congrArg OrSet.live this
  have hnewest : (⟨clk, i⟩ : Dot) ∈ newest Dot.origin (insert ⟨clk, i⟩ (storedDots (s.stored i)).live) := by
    refine mem_newest.2 ⟨Finset.mem_insert_self _ _, fun d hd hdo => ?_⟩
    rw [← hkeys] at hd
    obtain ⟨e, he, rfl⟩ := mem_keys.1 hd
    obtain ⟨delta', hd'⟩ := (hentry e he).2.1
    rcases List.mem_cons.1 hd' with heq | hd'
    · rw [(Prod.ext_iff.1 heq).1]
    · exact (hnew _ hd' hdo).le
  have hpos : 0 < clk := lt_of_le_of_lt (UInt64.le_iff_toNat_le.2 (Nat.zero_le _)) hclk
  have hfield : IsField ((⟨clk, i⟩, delta) :: s.hist) (fieldRecord ⟨clk, i⟩ _ hsmall) :=
    ⟨rfl, rfl, rfl, IsField.live_of_dots ⟨_, hdots ▸ hnewest⟩, hpos, fun e he => (hentry e (mem_fieldRecord he)).1,
      fun e he => (hentry e (mem_fieldRecord he)).2.1⟩
  have hunion : (storedDots (s.stored i)).live ∪ (fieldRecord ⟨clk, i⟩ _ hsmall).dots.live =
      insert ⟨clk, i⟩ (storedDots (s.stored i)).live := by
    rw [hdots]
    refine Finset.Subset.antisymm (union_subset (subset_insert _ _) (newest_subset _)) fun d hd => ?_
    rcases mem_insert.1 hd with rfl | hd
    · exact mem_union_right _ hnewest
    · exact mem_union_left _ hd
  obtain ⟨r', henc, hr', hdots'⟩ := ho.writeMerged (fun r hr => (ho.2 r hr).cons hnew) hfield (by rw [hunion]; exact hkeep)
  rw [hunion] at hdots'
  refine ⟨r', ?_, hr', hdots'⟩
  rw [← henc, encode_fieldRecord]

theorem Inv.accept (h : Inv s) (henc : b = r'.encode) (hr' : IsField ((⟨clk, i⟩, delta) :: s.hist) r')
    (hdots : r'.dots.live = newest Dot.origin (insert ⟨clk, i⟩ (storedDots (s.stored i)).live)) (hclk : s.clock i < clk) :
    Inv (s.accept i clk delta b) := by
  subst henc
  refine h.store [(⟨clk, i⟩, delta)] rfl hclk rfl rfl rfl (fun p hp => ?_) (fun _ _ hb => .inl hb) hr'
    (fun _ hr => hr.cons (h.lt_of_clock_lt hclk)) hdots (subset_insert _ _)
  rw [List.mem_singleton.1 hp]
  exact ⟨rfl, le_rfl, mem_insert_self _ _⟩

/-- The conditions only get harder to meet along a run. -/
theorem Good.of_step (h : (s.step op).Good) : s.Good := by
  cases op with
  | incr i wall delta =>
    rw [step] at h
    split at h
    · exact ⟨h.ticked, h.kept, h.pos, h.neg⟩
    refine ⟨?_, fun U hU => h.kept U (List.mem_cons_of_mem _ hU), fun n => ?_, fun n => ?_⟩
    · have := h.ticked
      simp only [FieldSys.accept, and_eq_true] at this
      exact this.1
    · exact lt_of_le_of_lt (totalOf_le_cons _ _ _ n) (h.pos n)
    · exact lt_of_le_of_lt (totalOf_le_cons _ _ _ n) (h.neg n)
  | deliver i wall index =>
    rw [step] at h
    split at h
    · exact h
    refine ⟨?_, fun U hU => h.kept U (List.mem_cons_of_mem _ hU), h.pos, h.neg⟩
    have := h.ticked
    simp only [FieldSys.receive, and_eq_true] at this
    exact this.1

theorem Inv.step (h : Inv s) (op : FieldOp) (hgood : (s.step op).Good) : Inv (s.step op) := by
  cases op with
  | incr i wall delta =>
    obtain ⟨o, ho⟩ := h.holds i
    rw [FieldSys.step] at hgood ⊢
    rw [ho.1] at hgood ⊢
    rcases incrCounterField_cases ho.2 (s.clock i) wall i delta wall with ⟨e, heq⟩ | ⟨v, slots, hperm, heq⟩
    · rw [heq]
      simp only [update_eq_self]
      exact h
    · rw [heq] at hgood ⊢
      rw [← ho.1] at hgood ⊢
      have hclk : s.clock i < Hlc.now (s.clock i) wall := by
        have := hgood.ticked
        simp only [FieldSys.accept, and_eq_true, decide_eq_true_eq] at this
        exact this.2
      obtain ⟨r', henc, hr', hdots⟩ := h.accept_record ho hperm hgood hclk
      exact h.accept henc hr' hdots hclk
  | deliver i wall index =>
    rw [FieldSys.step] at hgood ⊢
    split at hgood
    · exact h
    · exact h.receive i _ (List.mem_of_getElem? ‹_›) hgood

theorem inv_run (clock : NodeId → UInt64) (ops : List FieldOp) (hgood : (run clock ops).Good) : Inv (run clock ops) := by
  induction ops using List.reverseRecOn with
  | nil => exact inv_init clock
  | append_singleton ops op ih =>
    rw [run, List.foldl_append, List.foldl_cons, List.foldl_nil] at hgood ⊢
    exact (ih hgood.of_step).step op hgood

end FieldSys

end Marekvs
