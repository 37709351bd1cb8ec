import Marekvs.Lemmas.StringRecs

/-!
# What a node's string record says about the records it has merged

In a run whose stamps are distinct and whose SETs are stamped above what they overwrite, a node's record has the newest version of
all records it has merged. If that is a text or a tombstone, it is that record. If it is a counter, it holds every merged counter
that is newer than all merged texts and tombstones, and nothing that is not in some merged counter (`NodeInv`).
-/

namespace Marekvs

open List StringRecord CounterState StringSys

variable {a b y w : StringRecord} {c : CounterState} {stamps stamps' : List Stamp} {o : Option StringRecord}
  {M : List StringRecord} {t : RecSys} {s : StringSys}

/-- What a command stamped: a version, a TTL and, unless it wrote a counter, the text or tombstone. -/
structure Stamp where
  version : Version
  ttl : UInt64
  lww : Option (Option Bytes)
  deriving DecidableEq

namespace StringRecord

/-- The text or tombstone of a body that is no counter. -/
def lwwOf : StringBody → Option (Option Bytes)
  | .text payload => some (some payload)
  | .dead => some none
  | .count _ _ => none

def stampOf (r : StringRecord) : Stamp := ⟨r.version, r.ttl, lwwOf r.body⟩

theorem merge_stamp (a b : StringRecord) : (a.merge b).stampOf = if a.version < b.version then b.stampOf else a.stampOf := by
  have hnewer : (a.newer b).stampOf = if a.version < b.version then b.stampOf else a.stampOf := by
    unfold newer
    split <;> rfl
  unfold merge
  split
  · rename_i c hc d hd ha hb
    split
    · rename_i h
      simp only [stampOf, hb, lwwOf, max_eq_right h.le]
    · rename_i h
      simp only [stampOf, ha, lwwOf, max_eq_left (not_lt.1 h)]
  · exact hnewer

theorem eq_of_stamp (h : a.stampOf = b.stampOf) (hne : (lwwOf b.body).isSome) : a = b := by
  cases a with
  | mk va ta ba =>
    cases b with
    | mk vb tb bb =>
      simp only [stampOf, Stamp.mk.injEq] at h
      obtain ⟨rfl, rfl, hlww⟩ := h
      cases ba <;> cases bb <;> simp_all [lwwOf]

/-- How a merge can end in a counter: both were counters, or the counter replaced an older text or tombstone, or it stayed in
place of one. -/
theorem merge_count_cases (h : (a.merge b).body = .count c hc) :
    (∃ d hd e he, a.body = .count d hd ∧ b.body = .count e he ∧ c = d.merge e) ∨
      ((lwwOf a.body).isSome ∧ b.body = .count c hc) ∨ ((lwwOf b.body).isSome ∧ a.body = .count c hc) := by
  cases ha : a.body with
  | count d hd =>
    cases hb : b.body with
    | count e he =>
      rw [merge, ha, hb] at h
      cases h
      exact .inl ⟨d, hd, e, he, rfl, rfl, rfl⟩
    | text p =>
      simp only [merge, ha, hb, newer] at h
      split at h
      · rw [hb] at h
        cases h
      · exact .inr (.inr ⟨rfl, ha.symm.trans h⟩)
    | dead =>
      simp only [merge, ha, hb, newer] at h
      split at h
      · rw [hb] at h
        cases h
      · exact .inr (.inr ⟨rfl, ha.symm.trans h⟩)
  | text p =>
    simp only [merge, ha, newer] at h
    split at h
    · exact .inr (.inl ⟨rfl, h⟩)
    · rw [ha] at h
      cases h
  | dead =>
    simp only [merge, ha, newer] at h
    split at h
    · exact .inr (.inl ⟨rfl, h⟩)
    · rw [ha] at h
      cases h

end StringRecord

/-- The counter's base is the empty one, or a text that was stamped with its version and parses to its value. -/
def BasedOn (stamps : List Stamp) (c : CounterState) : Prop :=
  (c.baseVersion = ⟨0, 0⟩ ∧ c.base = 0) ∨
    ∃ w ∈ stamps, w.version = c.baseVersion ∧ 0 < c.baseVersion.hlc ∧
      ∃ text, w.lww = some (some text) ∧ parseI64 (trim text) = some c.base

theorem BasedOn.mono (h : ∀ w ∈ stamps, w ∈ stamps') (hc : BasedOn stamps c) : BasedOn stamps' c := by
  rcases hc with hc | ⟨w, hw, hrest⟩
  · exact .inl hc
  · exact .inr ⟨w, h w hw, hrest⟩

/-- Under distinct stamps a base version stands for one value. -/
theorem BasedOn.sameBase (hnd : (stamps.map Stamp.version).Nodup) {a b : CounterState} (ha : BasedOn stamps a)
    (hb : BasedOn stamps b) : a.SameBase b := by
  intro hv
  rcases ha with ⟨hav, ha0⟩ | ⟨w, hw, hwv, hpos, text, htext, hparse⟩
  · rcases hb with ⟨_, hb0⟩ | ⟨w', _, _, hpos', _⟩
    · rw [ha0, hb0]
    · rw [← hv, hav] at hpos'
      exact absurd hpos' (lt_irrefl _)
  · rcases hb with ⟨hbv, _⟩ | ⟨w', hw', hwv', _, text', htext', hparse'⟩
    · rw [hv, hbv] at hpos
      exact absurd hpos (lt_irrefl _)
    have heq : w = w' := inj_on_of_nodup_map hnd hw hw' (hwv.trans (hv.trans hwv'.symm))
    subst heq
    rw [htext] at htext'
    cases htext'
    rw [hparse] at hparse'
    exact Option.some.inj hparse'

theorem BasedOn.merge {a b : CounterState} (ha : BasedOn stamps a) (hb : BasedOn stamps b) : BasedOn stamps (a.merge b) := by
  rcases merge_base a b with ⟨hv, hbase⟩ | ⟨hv, hbase⟩
  · rw [BasedOn, hv, hbase]
    exact ha
  · rw [BasedOn, hv, hbase]
    exact hb

/-! ## One node -/

/-- The record is known: its stamp is one of the run's, and its base, if it is a counter, rests on one. -/
structure Known (stamps : List Stamp) (r : StringRecord) : Prop where
  stamp : r.stampOf ∈ stamps
  based : ∀ c hc, r.body = .count c hc → BasedOn stamps c

theorem Known.mono (h : ∀ w ∈ stamps, w ∈ stamps') (hr : Known stamps r) : Known stamps' r :=
  ⟨h _ hr.stamp, fun c hc hb => (hr.based c hc hb).mono h⟩

theorem Known.merge (ha : Known stamps a) (hb : Known stamps b) : Known stamps (a.merge b) where
  stamp := by
    rw [merge_stamp]
    split
    · exact hb.stamp
    · exact ha.stamp
  based c hc hbody := by
    rcases merge_count_cases hbody with ⟨d, hd, e, he, ha', hb', rfl⟩ | ⟨_, hb'⟩ | ⟨_, ha'⟩
    · exact (ha.based d hd ha').merge (hb.based e he hb')
    · exact hb.based c hc hb'
    · exact ha.based c hc ha'

/-- The counter record `m` is newer than every text and tombstone in `M`. -/
def NewerThanTexts (M : List StringRecord) (m : StringRecord) : Prop :=
  ∀ l ∈ M, (lwwOf l.body).isSome → l.version < m.version

/-- How a node's record `o` relates to the records `M` it has merged. -/
structure NodeInv (stamps : List Stamp) (o : Option StringRecord) (M : List StringRecord) : Prop where
  known : ∀ m ∈ M, Known stamps m
  knownRec : ∀ r ∈ o, Known stamps r
  empty : o = none → M = []
  newest : ∀ r ∈ o, ∀ m ∈ M, m.version ≤ r.version
  attained : ∀ r ∈ o, ∃ m ∈ M, m.stampOf = r.stampOf
  lower : ∀ r ∈ o, ∀ c hc, r.body = .count c hc → ∀ m ∈ M, ∀ d hd, m.body = .count d hd → NewerThanTexts M m → d.Below c
  upper : ∀ r ∈ o, ∀ c hc, r.body = .count c hc → ∀ U : CounterState, U.Canonical →
    (∀ m ∈ M, ∀ d hd, m.body = .count d hd → d.Below U) → c.Below U

theorem NodeInv.mono (h : ∀ w ∈ stamps, w ∈ stamps') (hinv : NodeInv stamps o M) : NodeInv stamps' o M :=
  ⟨fun m hm => (hinv.known m hm).mono h, fun r hr => (hinv.knownRec r hr).mono h, hinv.empty, hinv.newest, hinv.attained,
    hinv.lower, hinv.upper⟩

/-- A text or tombstone a node holds is among those it has merged. -/
theorem NodeInv.mem_of_lww (h : NodeInv stamps (some r) M) (hlww : (lwwOf r.body).isSome) : r ∈ M := by
  obtain ⟨m, hm, hst⟩ := h.attained r rfl
  rwa [← eq_of_stamp hst hlww]

theorem newerThanTexts_of_cons (h : NewerThanTexts (y :: M) m) : NewerThanTexts M m := fun l hl => h l (mem_cons_of_mem _ hl)

section

variable {stamps : List Stamp} {r w y : StringRecord} {M : List StringRecord} {c : CounterState} {hc : c.Canonical}

/-- A merged counter newer than all texts is below the result of a merge. -/
theorem NodeInv.below_merge (hnd : (stamps.map Stamp.version).Nodup) (h : NodeInv stamps (some r) M) (hw : Known stamps w)
    (hbody : (r.merge w).body = .count c hc) (hm : m ∈ M ∨ m = w)
    (hmb : m.body = .count d hd) (hnew : NewerThanTexts M m) : d.Below c := by
  rcases merge_count_cases hbody with ⟨e, he, f, hf, hr, hwb, rfl⟩ | ⟨hr, hwb⟩ | ⟨hwb, hr⟩
  · rcases hm with hm | rfl
    · exact (h.lower r rfl e he hr m hm d hd hmb hnew).trans hd he hc (below_merge_left he hf)
    · rw [hwb] at hmb
      cases hmb
      exact below_merge_right he hd (((h.knownRec r rfl).based e he hr).sameBase hnd (hw.based d hd hwb))
  · rcases hm with hm | rfl
    -- no merged counter is newer than the text or tombstone the node held
    · exact absurd (hnew r (h.mem_of_lww hr) hr) (not_lt.2 (h.newest r rfl m hm))
    · rw [hwb] at hmb
      cases hmb
      exact Below.refl hd
  · rcases hm with hm | rfl
    · exact h.lower r rfl c hc hr m hm d hd hmb hnew
    · rw [hmb] at hwb
      cases hwb

/-- The result of a merge is below everything that is above the merged counters. -/
theorem NodeInv.merge_below (h : NodeInv stamps (some r) M) (hbody : (r.merge w).body = .count c hc)
    (hU : U.Canonical) (hM : ∀ m ∈ M, ∀ d hd, m.body = .count d hd → d.Below U)
    (hwU : ∀ d hd, w.body = .count d hd → d.Below U) : c.Below U := by
  rcases merge_count_cases hbody with ⟨e, he, f, hf, hr, hwb, rfl⟩ | ⟨_, hwb⟩ | ⟨_, hr⟩
  · exact CounterState.merge_below he hf hU (h.upper r rfl e he hr U hU hM) (hwU f hf hwb)
  · exact hwU c hc hwb
  · exact h.upper r rfl c hc hr U hU hM

theorem NodeInv.first (hw : Known stamps w) : NodeInv stamps (some w) [w] where
  known m hm := by
    rw [mem_singleton.1 hm]
    exact hw
  knownRec r hr := by
    cases hr
    exact hw
  empty hn := nomatch hn
  newest r hr m hm := by
    cases hr
    rw [mem_singleton.1 hm]
  attained r hr := by
    cases hr
    exact ⟨w, mem_cons_self, rfl⟩
  lower r hr c hc hb m hm d hd hmb _ := by
    cases hr
    rw [mem_singleton.1 hm, hb] at hmb
    cases hmb
    exact Below.refl hc
  upper r hr c hc hb U _ hall := by
    cases hr
    exact hall w mem_cons_self c hc hb

/-- Writing `w` through the merge on a node that holds a record, where the node then counts as merged either `w` or the
result. -/
theorem NodeInv.merge (hnd : (stamps.map Stamp.version).Nodup) (h : NodeInv stamps (some r) M) (hw : Known stamps w)
    (hy : y = r.merge w ∨ y = w) : NodeInv stamps (some (r.merge w)) (y :: M) where
  known m hm := by
    rcases mem_cons.1 hm with rfl | hm
    · rcases hy with rfl | rfl
      · exact (h.knownRec r rfl).merge hw
      · exact hw
    · exact h.known m hm
  knownRec r' hr' := by
    cases hr'
    exact (h.knownRec r rfl).merge hw
  empty hn := nomatch hn
  newest r' hr' m hm := by
    cases hr'
    rw [merge_version]
    rcases mem_cons.1 hm with rfl | hm
    · rcases hy with rfl | rfl
      · exact (merge_version r w).le
      · exact le_max_right _ _
    · exact (h.newest r rfl m hm).trans (le_max_left _ _)
  attained r' hr' := by
    cases hr'
    rcases hy with rfl | rfl
    · exact ⟨_, mem_cons_self, rfl⟩
    rw [merge_stamp]
    split
    · exact ⟨y, mem_cons_self, rfl⟩
    · obtain ⟨m, hm, hst⟩ := h.attained r rfl
      exact ⟨m, mem_cons_of_mem _ hm, hst⟩
  lower r' hr' c hc hbody m hm d hd hmb hnew := by
    cases hr'
    have hnew' := newerThanTexts_of_cons hnew
    rcases mem_cons.1 hm with rfl | hm
    · rcases hy with rfl | rfl
      · rw [hbody] at hmb
        cases hmb
        exact Below.refl hc
      · exact h.below_merge hnd hw hbody (.inr rfl) hmb hnew'
    · exact h.below_merge hnd hw hbody (.inl hm) hmb hnew'
  upper r' hr' c hc hbody U hU hall := by
    cases hr'
    rcases hy with rfl | rfl
    · exact hall _ mem_cons_self c hc hbody
    · exact h.merge_below hbody hU (fun m hm => hall m (mem_cons_of_mem _ hm)) (hall y mem_cons_self)

end

/-- Writing `w` through the merge on a node, where the node then counts as merged either `w` or the result. -/
theorem NodeInv.store (hnd : (stamps.map Stamp.version).Nodup) (h : NodeInv stamps o M) (hw : Known stamps w)
    (hy : y = StringRecord.store o w ∨ y = w) : NodeInv stamps (some (StringRecord.store o w)) (y :: M) := by
  cases o with
  | none =>
    rw [h.empty rfl]
    rcases hy with rfl | rfl <;> exact NodeInv.first hw
  | some r => exact h.merge hnd hw hy

/-! ## Runs -/

/-- A run on records, with what its commands stamped. -/
structure RecSys extends Recs where
  stamps : List Stamp

/-- The bytes are those of the records. -/
structure Rep (s : StringSys) (t : RecSys) : Prop where
  recs : RepOf s.stored s.sent s.merged t.toRecs
  stamps : s.stamps = t.stamps.map Stamp.version

/-- The step invariant. -/
structure RecSys.Inv (t : RecSys) : Prop where
  sent : ∀ r ∈ t.sent, Known t.stamps r
  node : ∀ i, NodeInv t.stamps (t.held i) (t.merged i)

namespace RecSys

/-- `w` is written through the merge on node `i`, which then counts `y` as merged. -/
def put (t : RecSys) (i : NodeId) (w y : StringRecord) (stamps : List Stamp) : RecSys := ⟨t.toRecs.put i w y, stamps⟩

theorem Inv.put (h : t.Inv) (i : NodeId) (hsub : ∀ x ∈ t.stamps, x ∈ stamps) (hnd : (stamps.map Stamp.version).Nodup)
    (hw : Known stamps w) (hy : y = StringRecord.store (t.held i) w ∨ y = w) : (t.put i w y stamps).Inv := by
  have hnode := ((h.node i).mono hsub).store hnd hw hy
  refine ⟨fun r hr => ?_, fun j => ?_⟩
  · rcases mem_cons.1 hr with rfl | hr
    · exact hnode.knownRec _ rfl
    · exact (h.sent r hr).mono hsub
  · by_cases hji : j = i
    · subst hji
      simpa only [RecSys.put, Recs.put_held_self, Recs.put_merged_self] using hnode
    · simpa only [RecSys.put, Recs.put_held_of_ne _ _ _ hji, Recs.put_merged_of_ne _ _ _ hji] using (h.node j).mono hsub

end RecSys

/-- A command that writes `w` through the merge, on bytes and on records. -/
theorem Rep.write (h : Rep s t) (i : NodeId) (w : StringRecord) :
    Rep (s.write i w.version (StringRecord.store (t.held i) w).encode)
      (t.put i w (StringRecord.store (t.held i) w) (w.stampOf :: t.stamps)) where
  recs := h.recs.put i w _
  stamps := by
    show _ :: s.stamps = _
    rw [h.stamps]
    rfl

theorem Rep.receive (h : Rep s t) (i : NodeId) (w : StringRecord) : Rep (s.receive i w.encode) (t.put i w w t.stamps) := by
  refine ⟨?_, h.stamps⟩
  have hput := h.recs.put i w w
  rw [← h.recs.writeMerged i w] at hput
  exact hput

/-- The counter an increment starts from rests on the run's stamps. -/
theorem basedOn_base (ho : ∀ r ∈ o, Known stamps r) (h : StringRecord.base (seen o now) = some c) : BasedOn stamps c := by
  unfold StringRecord.base at h
  split at h
  · cases h
    exact .inl ⟨rfl, rfl⟩
  rename_i r hr
  obtain ⟨rfl, hdead, hpos⟩ := seen_not_dead hr
  have hk := ho r rfl
  split at h
  · cases h
    exact hk.based _ _ ‹_›
  · rename_i payload hb
    obtain ⟨n, hn, rfl⟩ := Option.map_eq_some_iff.1 h
    exact .inr ⟨r.stampOf, hk.stamp, rfl, hpos, payload, by simp [stampOf, hb, lwwOf], hn⟩
  · exact absurd ‹_› hdead

/-- A command that wrote something through the merge: what it wrote is known, and stamped as the command was. -/
structure Wrote (t : RecSys) (i : NodeId) (v : Version) (w : StringRecord) : Prop where
  version : w.version = v
  based : ∀ c hc, w.body = .count c hc → BasedOn t.stamps c

theorem Wrote.known (h : Wrote t i v w) : Known (w.stampOf :: t.stamps) w :=
  ⟨mem_cons_self, fun c hc hb => (h.based c hc hb).mono fun _ hx => mem_cons_of_mem _ hx⟩

/-- What a step can do to the records: nothing, a command's write, or a delivery. -/
theorem step_cases (hrep : Rep s t) (hinv : t.Inv) (op : StringOp) (hfresh : (s.step op).fresh = true) :
    Rep (s.step op) t ∨
      (∃ i v w, Wrote t i v w ∧
        Rep (s.step op) (t.put i w (StringRecord.store (t.held i) w) (w.stampOf :: t.stamps))) ∨
      ∃ i w, w ∈ t.sent ∧ Rep (s.step op) (t.put i w w t.stamps) := by
  cases op with
  | set i hlc value ttl =>
    have hw : Wrote t i ⟨hlc, i⟩ (StringRecord.set ⟨hlc, i⟩ value ttl) := ⟨rfl, by rintro _ _ ⟨⟩⟩
    refine .inr (.inl ⟨i, _, _, hw, ?_⟩)
    -- stamped above what was there, a blind write is a merge
    have hstore : StringRecord.store (t.held i) (StringRecord.set ⟨hlc, i⟩ value ttl) = StringRecord.set ⟨hlc, i⟩ value ttl := by
      cases hr : t.held i with
      | none => rfl
      | some r =>
        have hlt : r.version < ⟨hlc, i⟩ := by
          simp only [step, Bool.and_eq_true] at hfresh
          have := hfresh.2
          rw [hrep.recs.stored i, hr] at this
          simpa [olderThan, versionOf] using this
        show r.merge _ = _
        unfold StringRecord.merge
        split
        · rename_i hb
          cases hb
        · exact if_pos hlt
    have := hrep.write i (StringRecord.set ⟨hlc, i⟩ value ttl)
    rw [hstore] at this ⊢
    exact ⟨this.recs, this.stamps⟩
  | del i hlc now =>
    rw [step, hrep.recs.stored i, delString_encode _ ⟨hlc, i⟩, StringRecord.del]
    cases hr : seen (t.held i) now with
    | none => exact .inl hrep
    | some r =>
      refine .inr (.inl ⟨i, _, ⟨⟨hlc, i⟩, 0, .dead⟩, ⟨rfl, by rintro _ _ ⟨⟩⟩, ?_⟩)
      exact hrep.write i ⟨⟨hlc, i⟩, 0, .dead⟩
  | incr i hlc delta now =>
    rw [step, hrep.recs.stored i]
    split
    · exact .inl hrep
    rename_i new b hb
    obtain ⟨r, ⟨c, hbase, _, rfl⟩, rfl⟩ := incrBy_encode (t.held i) ⟨hlc, i⟩ delta now hb
    refine .inr (.inl ⟨i, _, _, ⟨rfl, fun c' hc' hb' => ?_⟩, hrep.write i _⟩)
    cases hb'
    exact (basedOn_base (hinv.node i).knownRec hbase :)
  | expire i hlc deadline now =>
    rw [step, hrep.recs.stored i, setDeadline_encode _ ⟨hlc, i⟩, StringRecord.expire]
    cases hr : seen (t.held i) now with
    | none => exact .inl hrep
    | some r =>
      refine .inr (.inl ⟨i, _, ⟨⟨hlc, i⟩, deadline, r.body⟩, ⟨rfl, fun c hc hb => ?_⟩, ?_⟩)
      · exact ((hinv.node i).knownRec r (seen_not_dead hr).1).based c hc hb
      · exact hrep.write i ⟨⟨hlc, i⟩, deadline, r.body⟩
  | deliver i index =>
    rw [step]
    split
    · exact .inl hrep
    rename_i b hb
    have hmem := mem_of_getElem? hb
    rw [hrep.recs.sent] at hmem
    obtain ⟨w, hw, rfl⟩ := mem_map.1 hmem
    exact .inr (.inr ⟨i, w, hw, hrep.receive i w⟩)

/-- A step that keeps stamps distinct, and SETs above what they overwrite, keeps the invariant. -/
theorem inv_step (hrep : Rep s t) (hinv : t.Inv) (op : StringOp) (hfresh : (s.step op).fresh = true)
    (hnd : (s.step op).stamps.Nodup) : ∃ t', Rep (s.step op) t' ∧ t'.Inv := by
  rcases step_cases hrep hinv op hfresh with h | ⟨i, v, w, hw, h⟩ | ⟨i, w, hw, h⟩
  · exact ⟨t, h, hinv⟩
  · rw [h.stamps] at hnd
    exact ⟨_, h, hinv.put i (fun x hx => mem_cons_of_mem _ hx) hnd hw.known (.inl rfl)⟩
  · rw [h.stamps] at hnd
    exact ⟨_, h, hinv.put i (fun x hx => hx) hnd (hinv.sent w hw) (.inr rfl)⟩

namespace StringSys

theorem fresh_of_step (h : (s.step op).fresh = true) : s.fresh = true := by
  cases op with
  | set i hlc value ttl =>
    rw [step, Bool.and_eq_true] at h
    exact h.1
  | _ =>
    rw [step] at h
    split at h <;> exact h

theorem stamps_suffix_step (s : StringSys) (op : StringOp) : s.stamps <:+ (s.step op).stamps := by
  cases op with
  | set i hlc value ttl => exact suffix_cons _ _
  | deliver i index =>
    rw [step]
    split <;> exact suffix_rfl
  | _ =>
    rw [step]
    split
    · exact suffix_rfl
    · exact suffix_cons _ _

/-- After a run whose stamps are distinct, and whose SETs are stamped above what they overwrite, the stored bytes are those of
records that satisfy the invariant. -/
theorem inv_run (ops : List StringOp) (hfresh : (run ops).fresh = true) (hnd : (run ops).stamps.Nodup) :
    ∃ t, Rep (run ops) t ∧ t.Inv := by
  induction ops using List.reverseRecOn with
  | nil =>
    refine ⟨⟨⟨fun _ => none, [], fun _ => []⟩, []⟩, ⟨⟨fun _ => rfl, rfl, fun _ => rfl⟩, rfl⟩, ⟨?_, fun i => ?_⟩⟩
    · exact nofun
    · exact ⟨nofun, nofun, fun _ => rfl, nofun,
        nofun, nofun, nofun⟩
  | append_singleton ops op ih =>
    have hstep : run (ops ++ [op]) = (run ops).step op := by simp [run]
    rw [hstep] at hfresh hnd ⊢
    obtain ⟨t, hrep, hinv⟩ := ih (fresh_of_step hfresh) (hnd.sublist (stamps_suffix_step _ _).sublist)
    exact inv_step hrep hinv op hfresh hnd

end StringSys

end Marekvs
