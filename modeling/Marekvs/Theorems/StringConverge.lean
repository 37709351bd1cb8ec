import Marekvs.Lemmas.StringInv

/-!
# String keys converge, where no stale counter comes back

Texts and tombstones are last-writer-wins and counters join, so a counter that a SET or DEL has replaced on one node can still
join a newer counter on another. Two nodes that have merged the same records hold the same bytes where the counters older than
the newest text or tombstone add nothing to the newer ones; a counter deleted on one node and counted on another shows that
they need not hold the same bytes otherwise.
-/

namespace Marekvs

open List StringRecord CounterState StringSys

/-- The record is newer than every text and tombstone in `M`. -/
def aboveTexts (M : List Bytes) (b : Bytes) : Bool := M.all fun l => (counterOf l).isSome || versionOf l < versionOf b

/-- The counters in `M` that are newer than every text and tombstone in it. -/
def newerCounters (M : List Bytes) : List CounterState := (M.filter (aboveTexts M)).filterMap counterOf

def joinAll (cs : List CounterState) : CounterState := cs.foldl CounterState.merge (onBase 0 0 0)

/-- Either no counter in `M` is newer than the texts and tombstones in it, or the older counters add nothing to those that
are. -/
def OldCountersAbsorbed (M : List Bytes) : Prop :=
  newerCounters M = [] ∨ ∀ c ∈ M.filterMap counterOf, c.merge (joinAll (newerCounters M)) = joinAll (newerCounters M)

instance (M : List Bytes) : Decidable (OldCountersAbsorbed M) := inferInstanceAs (Decidable (_ ∨ _))

/-! ## The byte-level condition on records -/

theorem counterOf_eq_none {r : StringRecord} : counterOf r.encode = none ↔ (lwwOf r.body).isSome := by
  rw [counterOf_encode]
  cases hb : r.body <;> simp [lwwOf]

theorem aboveTexts_iff : aboveTexts (M.map StringRecord.encode) r.encode = true ↔ NewerThanTexts M r := by
  simp only [aboveTexts, all_eq_true, forall_mem_map, Bool.or_eq_true, decide_eq_true_eq, versionOf_encode,
    NewerThanTexts]
  refine forall₂_congr fun l _ => ?_
  rw [← counterOf_eq_none]
  cases counterOf l.encode <;> simp

theorem mem_newerCounters :
    c ∈ newerCounters (M.map StringRecord.encode) ↔ ∃ m ∈ M, NewerThanTexts M m ∧ ∃ hc, m.body = .count c hc := by
  simp only [newerCounters, mem_filterMap, mem_filter, mem_map]
  constructor
  · rintro ⟨_, ⟨⟨m, hm, rfl⟩, hab⟩, hc⟩
    exact ⟨m, hm, aboveTexts_iff.1 hab, counterOf_eq_some.1 hc⟩
  · rintro ⟨m, hm, hab, hc⟩
    exact ⟨_, ⟨⟨m, hm, rfl⟩, aboveTexts_iff.2 hab⟩, counterOf_eq_some.2 hc⟩

/-! ## The join of known counters -/

section

variable {stamps : List Stamp} (hnd : (stamps.map Stamp.version).Nodup)

/-- A counter of a run: canonical, on a base that rests on the run's stamps. -/
structure KnownCounter (stamps : List Stamp) (c : CounterState) : Prop where
  canonical : c.Canonical
  based : BasedOn stamps c

theorem KnownCounter.merge (ha : KnownCounter stamps a) (hb : KnownCounter stamps b) :
    KnownCounter stamps (a.merge b) := ⟨ha.canonical.merge hb.canonical, ha.based.merge hb.based⟩

theorem knownCounter_empty : KnownCounter stamps (onBase 0 0 0) := ⟨onBase_canonical 0 0 0, .inl ⟨rfl, rfl⟩⟩

theorem KnownCounter.empty_below (h : KnownCounter stamps c) : (onBase 0 0 0).Below c := by
  rcases (Dot.zero_le c.baseVersion).lt_or_eq with hlt | heq
  · exact merge_of_lt hlt
  have hc0 : c.base = 0 := by
    rcases h.based with ⟨_, h0⟩ | ⟨_, _, _, hpos, _⟩
    · exact h0
    · rw [← heq] at hpos
      exact absurd hpos (lt_irrefl _)
  rw [Below, merge_comm (onBase_canonical 0 0 0) h.canonical fun _ => hc0.symm, merge_of_eq heq.symm]
  exact ext_base rfl rfl (take_of_length_le h.canonical.le)

include hnd in
/-- A fold of merges is above what it started from and everything it merged, and below whatever is above all of these. -/
theorem foldl_merge_bounds {cs : List CounterState} (ha : KnownCounter stamps a) (hcs : ∀ c ∈ cs, KnownCounter stamps c) :
    KnownCounter stamps (cs.foldl CounterState.merge a) ∧ a.Below (cs.foldl CounterState.merge a) ∧
      (∀ c ∈ cs, c.Below (cs.foldl CounterState.merge a)) ∧
      ∀ U : CounterState, U.Canonical → a.Below U → (∀ c ∈ cs, c.Below U) → (cs.foldl CounterState.merge a).Below U := by
  induction cs generalizing a with
  | nil => exact ⟨ha, Below.refl ha.canonical, nofun, fun U _ h _ => h⟩
  | cons c cs ih =>
    have hc := hcs c mem_cons_self
    have hac := ha.merge hc
    obtain ⟨hk, hle, hall, hleast⟩ := ih hac fun d hd => hcs d (mem_cons_of_mem _ hd)
    refine ⟨hk, (below_merge_left ha.canonical hc.canonical).trans ha.canonical hac.canonical hk.canonical hle, ?_, ?_⟩
    · intro d hd
      rcases mem_cons.1 hd with rfl | hd
      · exact (below_merge_right ha.canonical hc.canonical (ha.based.sameBase hnd hc.based)).trans hc.canonical hac.canonical
          hk.canonical hle
      · exact hall d hd
    · intro U hU haU hcU
      exact hleast U hU (merge_below ha.canonical hc.canonical hU haU (hcU c mem_cons_self))
        fun d hd => hcU d (mem_cons_of_mem _ hd)

include hnd in
/-- The join of known counters: above each of them, and below every known counter that is. -/
theorem joinAll_bounds {cs : List CounterState} (hcs : ∀ c ∈ cs, KnownCounter stamps c) :
    KnownCounter stamps (joinAll cs) ∧ ∀ U, KnownCounter stamps U → (∀ c ∈ cs, c.Below U) → (joinAll cs).Below U := by
  obtain ⟨hk, _, _, hleast⟩ := foldl_merge_bounds hnd knownCounter_empty hcs
  exact ⟨hk, fun U hU => hleast U hU.canonical hU.empty_below⟩

end

/-! ## Two nodes that have merged the same records -/

section

variable {stamps : List Stamp} (hnd : (stamps.map Stamp.version).Nodup) {r r' : StringRecord} {M : List StringRecord}

theorem NodeInv.congr (h : NodeInv stamps o M) (hM : ∀ m, m ∈ M ↔ m ∈ M') : NodeInv stamps o M' := by
  have hnew : ∀ m, NewerThanTexts M' m → NewerThanTexts M m := fun m hm l hl => hm l ((hM l).1 hl)
  refine ⟨fun m hm => h.known m ((hM m).2 hm), h.knownRec, fun ho => ?_, fun r hr m hm => h.newest r hr m ((hM m).2 hm), ?_,
    fun r hr c hc hb m hm d hd hmb hm' => h.lower r hr c hc hb m ((hM m).2 hm) d hd hmb (hnew m hm'),
    fun r hr c hc hb U hU hall => h.upper r hr c hc hb U hU fun m hm => hall m ((hM m).1 hm)⟩
  · have := h.empty ho
    subst this
    exact eq_nil_iff_forall_not_mem.2 fun m hm => nomatch (hM m).2 hm
  · intro r hr
    obtain ⟨m, hm, hst⟩ := h.attained r hr
    exact ⟨m, (hM m).1 hm, hst⟩

include hnd in
/-- A node that holds a counter has merged a counter newer than every text and tombstone it has merged. -/
theorem NodeInv.newerCounters_ne_nil (h : NodeInv stamps (some r) M) (hr : lwwOf r.body = none) :
    newerCounters (M.map StringRecord.encode) ≠ [] := by
  obtain ⟨m, hm, hst⟩ := h.attained r rfl
  have hlww : lwwOf m.body = none := (congrArg Stamp.lww hst).trans hr
  have hver : m.version = r.version := congrArg Stamp.version hst
  cases hb : m.body with
  | count d hd =>
    refine ne_nil_of_mem (mem_newerCounters.2 ⟨m, hm, fun l hl hlt => ?_, hd, hb⟩)
    refine lt_of_le_of_ne (hver ▸ h.newest r rfl l hl) fun heq => ?_
    -- one version is stamped once, on a counter or on something else
    have hsame : l.stampOf = m.stampOf := inj_on_of_nodup_map hnd (h.known l hl).stamp (h.known m hm).stamp heq
    have hnone : lwwOf l.body = none := (congrArg Stamp.lww hsame).trans hlww
    simp [hnone] at hlt
  | text p => simp [hb, lwwOf] at hlww
  | dead => simp [hb, lwwOf] at hlww

include hnd in
theorem NodeInv.eq_joinAll (h : NodeInv stamps (some r) M) (hb : r.body = .count c hc)
    (habs : OldCountersAbsorbed (M.map StringRecord.encode)) : c = joinAll (newerCounters (M.map StringRecord.encode)) := by
  have hall := habs.resolve_left (h.newerCounters_ne_nil hnd (by rw [hb, lwwOf]))
  have hcs : ∀ d ∈ newerCounters (M.map StringRecord.encode), KnownCounter stamps d := by
    intro d hd
    obtain ⟨m, hm, _, hdc, hmb⟩ := mem_newerCounters.1 hd
    exact ⟨hdc, (h.known m hm).based d hdc hmb⟩
  obtain ⟨hJ, hleast⟩ := joinAll_bounds hnd hcs
  have hck : KnownCounter stamps c := ⟨hc, (h.knownRec r rfl).based c hc hb⟩
  refine Below.antisymm hc hJ.canonical (hck.based.sameBase hnd hJ.based) ?_ (hleast c hck fun d hd => ?_)
  · refine h.upper r rfl c hc hb _ hJ.canonical fun m hm d hd hmb => hall d ?_
    exact mem_filterMap.2 ⟨_, mem_map_of_mem hm, counterOf_eq_some.2 ⟨hd, hmb⟩⟩
  · obtain ⟨m, hm, hnew, hdc, hmb⟩ := mem_newerCounters.1 hd
    exact h.lower r rfl c hc hb m hm d hdc hmb hnew

include hnd in
/-- Where old counters are absorbed, the merged records determine what a node holds. -/
theorem NodeInv.unique (h : NodeInv stamps (some r) M) (h' : NodeInv stamps (some r') M)
    (habs : OldCountersAbsorbed (M.map StringRecord.encode)) : r = r' := by
  have hle : ∀ {a b : StringRecord}, NodeInv stamps (some a) M → NodeInv stamps (some b) M → a.version ≤ b.version := by
    intro a b ha hb
    obtain ⟨m, hm, hst⟩ := ha.attained a rfl
    have hver : m.version = a.version := congrArg Stamp.version hst
    exact hver ▸ hb.newest b rfl m hm
  have hst : r.stampOf = r'.stampOf :=
    inj_on_of_nodup_map hnd (h.knownRec r rfl).stamp (h'.knownRec r' rfl).stamp ((hle h h').antisymm (hle h' h))
  cases hb' : r'.body with
  | text p => exact eq_of_stamp hst (by rw [hb']; rfl)
  | dead => exact eq_of_stamp hst (by rw [hb']; rfl)
  | count c' hc' =>
    cases hb : r.body with
    | text p => exact absurd (congrArg Stamp.lww hst) (by simp [stampOf, hb, hb', lwwOf])
    | dead => exact absurd (congrArg Stamp.lww hst) (by simp [stampOf, hb, hb', lwwOf])
    | count c hc =>
      have hcc : c = c' := (h.eq_joinAll hnd hb habs).trans (h'.eq_joinAll hnd hb' habs).symm
      subst hcc
      cases r
      cases r'
      simp only [stampOf, Stamp.mk.injEq] at hst
      simp_all

end

/-- SET, DEL, INCR and EXPIRE on one string key, stamped with distinct versions and each SET above the version stored on its
node: two nodes that have merged the same records hold the same bytes, where the counters among them that are older than their
newest text or tombstone add nothing to the newer counters. -/
theorem string_keys_converge (ops : List StringOp) (hfresh : (run ops).fresh = true) (hdistinct : (run ops).stamps.Nodup)
    (i j : NodeId) (hsame : ∀ b, b ∈ (run ops).merged i ↔ b ∈ (run ops).merged j)
    (habs : OldCountersAbsorbed ((run ops).merged i)) : (run ops).stored i = (run ops).stored j := by
  obtain ⟨t, hrep, hinv⟩ := inv_run ops hfresh hdistinct
  have hM : ∀ m, m ∈ t.merged j ↔ m ∈ t.merged i := by
    intro m
    have hj := hsame m.encode
    rw [hrep.recs.merged i, hrep.recs.merged j, mem_map_of_injective encode_injective,
      mem_map_of_injective encode_injective] at hj
    exact hj.symm
  have hnd : (t.stamps.map Stamp.version).Nodup := hrep.stamps ▸ hdistinct
  have hi := hinv.node i
  have hj := (hinv.node j).congr hM
  rw [hrep.recs.merged i] at habs
  rw [hrep.recs.stored i, hrep.recs.stored j]
  cases hri : t.held i with
  | none =>
    cases hrj : t.held j with
    | none => rfl
    | some r' =>
      obtain ⟨m, hm, _⟩ := hj.attained r' hrj
      rw [hi.empty hri] at hm
      exact nomatch hm
  | some r =>
    cases hrj : t.held j with
    | none =>
      obtain ⟨m, hm, _⟩ := hi.attained r hri
      rw [hj.empty hrj] at hm
      exact nomatch hm
    | some r' =>
      rw [hri] at hi
      rw [hrj] at hj
      rw [hi.unique hnd hj habs]

/-- Node 1 sets 5, node 2 receives it, both count on it and exchange their counters. -/
def countOnText : List StringOp :=
  [.set 1 10 [53] 0, .deliver 2 0, .incr 2 20 1 0, .incr 1 21 2 0, .deliver 1 1, .deliver 2 1]

theorem string_keys_converge_count_on_text : (run countOnText).stored 1 = (run countOnText).stored 2 := by
  have hperm : ((run countOnText).merged 1).Perm ((run countOnText).merged 2) := by decide
  exact string_keys_converge countOnText (by decide) (by decide) 1 2 (fun _ => hperm.mem_iff)
    (by decide)

/-- Node 1 counts one. Node 2 receives it, deletes the key and counts one again. Node 3 receives the three records, the last
first. -/
def countDeleteCount : List StringOp :=
  [.incr 1 10 1 0, .deliver 2 0, .del 2 20 0, .incr 2 30 1 0, .deliver 3 0, .deliver 3 4, .deliver 3 3]

/-- Nodes 2 and 3 have merged the same three records, and node 2 shows one where node 3 shows two: the deleted counter joined
the new one, which stands on the same empty base. -/
theorem string_keys_diverge : (run countDeleteCount).fresh = true ∧ (run countDeleteCount).stamps.Nodup ∧
    (∀ b, b ∈ (run countDeleteCount).merged 2 ↔ b ∈ (run countDeleteCount).merged 3) ∧
    getString ((run countDeleteCount).stored 2) 0 = some [49] ∧ getString ((run countDeleteCount).stored 3) 0 = some [50] ∧
    (run countDeleteCount).stored 2 ≠ (run countDeleteCount).stored 3 := by
  have hperm : ((run countDeleteCount).merged 2).Perm ((run countDeleteCount).merged 3) := by decide
  exact ⟨by decide, by decide, fun _ => hperm.mem_iff, by decide, by decide, by decide⟩

end Marekvs
