import Marekvs.Lemmas.ElementJoin

/-!
# What merging element records computes

Two results about the records of one hash field, set member or sorted-set member. Where no cap binds, merging any sequence of
them, with repetitions, ends in the observed-remove join of all. With the caps, the order of merging matters for some triples of
records: `element_merge_orders_agree_iff` names those for which it does not.
-/

namespace Marekvs

open List Desc TopN ElementState ElementRecord OrSet

namespace ElementRecord

/-! ## Three records -/

section

variable {val : Dot → Bytes} {ttlOf : Version → UInt64} {t : RecordType} {x y z : ElementRecord}

theorem dots_join_join (ht : Plain t) (hx : x.rtype = t) (hy : y.rtype = t) (hz : z.rtype = t) :
    ((x.join y).join z).dots =
      OrSet.join MAX_LIVE_DOTS MAX_TOMB_DOTS (OrSet.join MAX_LIVE_DOTS MAX_TOMB_DOTS x.dots y.dots) z.dots := by
  rw [dots_join ht (join_rtype hx hy) hz, dots_join ht hx hy]

theorem dots_join_join_right (ht : Plain t) (hx : x.rtype = t) (hy : y.rtype = t) (hz : z.rtype = t) :
    (x.join (y.join z)).dots =
      OrSet.join MAX_LIVE_DOTS MAX_TOMB_DOTS x.dots (OrSet.join MAX_LIVE_DOTS MAX_TOMB_DOTS y.dots z.dots) := by
  rw [dots_join ht hx (join_rtype hy hz), dots_join ht hy hz]

end

end ElementRecord

/-- Three canonical records of one plain element key, whose dots carry one value and whose versions one TTL: merging them in
any order stores the same bytes exactly when every add that should survive is kept by each first merge it takes part in. -/
theorem element_merge_orders_agree_iff {t : RecordType} (ht : Plain t) {val : Dot → Bytes} {ttlOf : Version → UInt64}
    (x y z : ElementRecord) (hx : x.rtype = t ∧ x.Conforms val ttlOf) (hy : y.rtype = t ∧ y.Conforms val ttlOf)
    (hz : z.rtype = t ∧ z.Conforms val ttlOf) :
    (mergeResolve (mergeResolve x.encode y.encode) z.encode = mergeResolve x.encode (mergeResolve y.encode z.encode) ∧
      mergeResolve (mergeResolve x.encode y.encode) z.encode = mergeResolve (mergeResolve x.encode z.encode) y.encode) ↔
      OrSet.OrdersAgree MAX_LIVE_DOTS MAX_TOMB_DOTS x.dots y.dots z.dots := by
  obtain ⟨hxt, hxc⟩ := hx
  obtain ⟨hyt, hyc⟩ := hy
  obtain ⟨hzt, hzc⟩ := hz
  simp only [mergeResolve_encode, encode_inj]
  rw [← joins_agree_iff, ← dots_join_join ht hxt hyt hzt, ← dots_join_join_right ht hxt hyt hzt,
    ← dots_join_join ht hxt hzt hyt]
  have hxy := join_rtype hxt hyt
  refine and_congr ⟨fun h => congrArg ElementRecord.dots h, fun h => ?_⟩ ⟨fun h => congrArg ElementRecord.dots h, fun h => ?_⟩
  · refine ((hxc.join hyc).join hzc).ext (hxc.join (hyc.join hzc)) ?_ (max_assoc _ _ _) h
    rw [join_rtype hxy hzt, join_rtype hxt (join_rtype hyt hzt)]
  · refine ((hxc.join hyc).join hzc).ext ((hxc.join hzc).join hyc) ?_ (max_right_comm _ _ _) h
    rw [join_rtype hxy hzt, join_rtype (join_rtype hxt hzt) hyt]

/-- A set-member record without TTL, from the dots that are live and the dots that are covered. -/
def memberRecord (version : Version) (live covered : List Dot) : ElementRecord :=
  ofState .setMember version 0 ⟨live.map fun d => (d, []), covered⟩ rfl (by decide) (by simp [SmallValues])

theorem memberRecord_conforms (version : Version) (live covered : List Dot) :
    (memberRecord version live covered).Conforms (fun _ => []) fun _ => 0 where
  value e he := by
    obtain ⟨d, _, rfl⟩ := mem_map.1 (mem_of_mem_normalize he)
    rfl
  ttl := rfl

/-- Two concurrent adds and a remove that observed one of them merge to the same bytes in every order. -/
theorem element_merge_orders_agree_two_adds_one_remove :
    mergeResolve (mergeResolve (memberRecord ⟨1, 1⟩ [⟨1, 1⟩] []).encode (memberRecord ⟨2, 2⟩ [⟨2, 2⟩] []).encode)
        (memberRecord ⟨3, 3⟩ [] [⟨1, 1⟩]).encode =
      mergeResolve (memberRecord ⟨1, 1⟩ [⟨1, 1⟩] []).encode
        (mergeResolve (memberRecord ⟨2, 2⟩ [⟨2, 2⟩] []).encode (memberRecord ⟨3, 3⟩ [] [⟨1, 1⟩]).encode) :=
  ((element_merge_orders_agree_iff (t := .setMember) (.inr (.inl rfl)) _ _ _ ⟨rfl, memberRecord_conforms _ _ _⟩
    ⟨rfl, memberRecord_conforms _ _ _⟩ ⟨rfl, memberRecord_conforms _ _ _⟩).2 (by decide)).1

/-- Four adds, a fifth one, and a remove that observed only the fifth: merged in this order the oldest add falls off the live
list before the remove makes room for it, and is lost. -/
theorem element_merge_order_matters :
    ∃ x y z : ElementRecord, (x.rtype = .setMember ∧ x.Conforms (fun _ => []) fun _ => 0) ∧
      (y.rtype = .setMember ∧ y.Conforms (fun _ => []) fun _ => 0) ∧
      (z.rtype = .setMember ∧ z.Conforms (fun _ => []) fun _ => 0) ∧
      mergeResolve (mergeResolve x.encode y.encode) z.encode ≠ mergeResolve x.encode (mergeResolve y.encode z.encode) := by
  refine ⟨memberRecord ⟨4, 1⟩ [⟨4, 1⟩, ⟨3, 1⟩, ⟨2, 1⟩, ⟨1, 1⟩] [], memberRecord ⟨5, 2⟩ [⟨5, 2⟩] [],
    memberRecord ⟨6, 3⟩ [] [⟨5, 2⟩], ⟨rfl, memberRecord_conforms _ _ _⟩, ⟨rfl, memberRecord_conforms _ _ _⟩,
    ⟨rfl, memberRecord_conforms _ _ _⟩, ?_⟩
  decide

/-! ## Any sequence of records, within the caps -/

/-- `R` is the observed-remove join of the records `xs`: the live entries of all, without the dots any of them covers, the
covered dots of all, the newest version with its TTL, and a tombstone exactly when no live entry remains. -/
structure IsJoinOf (t : RecordType) (xs : List ElementRecord) (R : ElementRecord) : Prop where
  rtype : R.rtype = t
  live : ∀ e, e ∈ R.state.live ↔ (∃ r ∈ xs, e ∈ r.state.live) ∧ ∀ r ∈ xs, e.1 ∉ r.state.covered
  covered : ∀ d, d ∈ R.state.covered ↔ ∃ r ∈ xs, d ∈ r.state.covered
  newest : ∀ r ∈ xs, r.version ≤ R.version
  stamp : ∃ r ∈ xs, r.version = R.version ∧ r.ttl = R.ttl
  tombstone : R.envelope.isTombstone = true ↔ ∀ r ∈ xs, ∀ e ∈ r.state.live, ∃ s ∈ xs, e.1 ∈ s.state.covered

namespace IsJoinOf

variable {val : Dot → Bytes} {ttlOf : Version → UInt64} {t : RecordType} {xs ys : List ElementRecord} {R S : ElementRecord}

/-- The join depends only on which records there are, not on their order or number. -/
theorem congr (hmem : ∀ r, r ∈ ys ↔ r ∈ xs) (h : IsJoinOf t ys R) : IsJoinOf t xs R where
  rtype := h.rtype
  live e := by simpa only [hmem] using h.live e
  covered d := by simpa only [hmem] using h.covered d
  newest r hr := h.newest r ((hmem r).2 hr)
  stamp := by simpa only [hmem] using h.stamp
  tombstone := by simpa only [hmem] using h.tombstone

theorem unique (hxs : ∀ r ∈ xs, r.Conforms val ttlOf) (hR : IsJoinOf t xs R) (hS : IsJoinOf t xs S) : R = S := by
  obtain ⟨r, hr, hrv, hrt⟩ := hR.stamp
  obtain ⟨s, hs, hsv, hst⟩ := hS.stamp
  have hv : R.version = S.version :=
    le_antisymm (hrv ▸ hS.newest r hr) (hsv ▸ hR.newest s hs)
  refine ext_data (hR.rtype.trans hS.rtype.symm) hv ?_ ?_
  · rw [← hrt, ← hst, (hxs r hr).ttl, (hxs s hs).ttl, hrv, hsv, hv]
  have hlive := R.canonical.live_strict.ext S.canonical.live_strict fun e => (hR.live e).trans (hS.live e).symm
  have hcov := R.canonical.covered_strict.ext S.canonical.covered_strict fun d => (hR.covered d).trans (hS.covered d).symm
  cases hR' : R.state
  cases hS' : S.state
  rw [hR', hS'] at hlive hcov
  cases hlive
  cases hcov
  rfl

/-- Dot sets that are the plain join of the records', the newest version and a conforming record make the join. -/
theorem of_dots (hxs : ∀ r ∈ xs, r.Conforms val ttlOf) (hR : R.Conforms val ttlOf) (ht : R.rtype = t)
    (hdots : R.dots = ⟨liveDots xs \ coveredDots xs, coveredDots xs⟩) (hnew : ∀ r ∈ xs, r.version ≤ R.version)
    (hstamp : ∃ r ∈ xs, r.version = R.version) : IsJoinOf t xs R := by
  have hcov : ∀ d, d ∈ coveredDots xs ↔ ∃ r ∈ xs, d ∈ r.state.covered := by
    intro d
    simp only [coveredDots, mem_coveredUnion, mem_map, exists_exists_and_eq_and, mem_dots_covered]
  have hlive : ∀ d, d ∈ liveDots xs ↔ ∃ r ∈ xs, d ∈ r.dots.live := by
    intro d
    simp only [liveDots, mem_liveUnion, mem_map, exists_exists_and_eq_and]
  have hmem : ∀ e, e ∈ R.state.live ↔ (∃ r ∈ xs, e ∈ r.state.live) ∧ ∀ r ∈ xs, e.1 ∉ r.state.covered := by
    intro e
    rw [hR.mem_live, hdots]
    simp only [Finset.mem_sdiff, hcov, hlive, not_exists, not_and]
    constructor
    · rintro ⟨⟨⟨r, hr, hd⟩, hnc⟩, hv⟩
      exact ⟨⟨r, hr, (hxs r hr).mem_live.2 ⟨hd, hv⟩⟩, hnc⟩
    · rintro ⟨⟨r, hr, he⟩, hnc⟩
      obtain ⟨hd, hv⟩ := (hxs r hr).mem_live.1 he
      exact ⟨⟨⟨r, hr, hd⟩, hnc⟩, hv⟩
  refine ⟨ht, hmem, fun d => ?_, hnew, ?_, ?_⟩
  · rw [← mem_dots_covered, hdots]
    exact hcov d
  · obtain ⟨r, hr, hrv⟩ := hstamp
    exact ⟨r, hr, hrv, by rw [(hxs r hr).ttl, hR.ttl, hrv]⟩
  rw [isTombstone_iff, eq_nil_iff_forall_not_mem]
  constructor
  · intro h r hr e he
    by_contra hnone
    exact h e ((hmem e).2 ⟨⟨r, hr, he⟩, fun s hs hc => hnone ⟨s, hs, hc⟩⟩)
  · intro h e he
    obtain ⟨⟨r, hr, her⟩, hnc⟩ := (hmem e).1 he
    obtain ⟨s, hs, hc⟩ := h r hr e her
    exact hnc s hs hc

end IsJoinOf

theorem le_foldl_max (vs : List Version) (v : Version) : v ≤ vs.foldl max v ∧ ∀ w ∈ vs, w ≤ vs.foldl max v := by
  induction vs generalizing v with
  | nil => exact ⟨le_refl v, nofun⟩
  | cons u vs ih =>
    obtain ⟨hv, hvs⟩ := ih (max v u)
    refine ⟨(le_max_left v u).trans hv, fun w hw => ?_⟩
    rcases mem_cons.1 hw with rfl | hw
    · exact (le_max_right v w).trans hv
    · exact hvs w hw

theorem foldl_max_mem (vs : List Version) (v : Version) : vs.foldl max v ∈ v :: vs := by
  induction vs generalizing v with
  | nil => exact mem_cons_self
  | cons u vs ih =>
    rw [foldl_cons]
    rcases mem_cons.1 (ih (max v u)) with h | h
    · rw [h]
      rcases max_choice v u with h' | h' <;> simp [h']
    · exact mem_cons_of_mem _ (mem_cons_of_mem _ h)

/-- A run of merges over records within the caps ends in their join. -/
theorem foldl_join_isJoinOf (ht : Plain t)
    (y : ElementRecord) (ys : List ElementRecord) (h : ∀ r ∈ y :: ys, r.rtype = t ∧ r.Conforms val ttlOf)
    (hl : (liveDots (y :: ys)).card ≤ MAX_LIVE_DOTS) (hc : (coveredDots (y :: ys)).card ≤ MAX_TOMB_DOTS) :
    IsJoinOf t (y :: ys) (ys.foldl join y) := by
  have hy := h y mem_cons_self
  have hys : ∀ r ∈ ys, r.rtype = t ∧ r.Conforms val ttlOf := fun r hr => h r (mem_cons_of_mem _ hr)
  have hversion := foldl_join_version ys y
  refine IsJoinOf.of_dots (fun r hr => (h r hr).2) (foldl_join_conforms ys hy.2 fun r hr => (hys r hr).2)
    (foldl_join_rtype ys hy.1 fun r hr => (hys r hr).1) ?_ ?_ ?_
  · rw [foldl_join_dots ht ys hy.1 fun r hr => (hys r hr).1, foldl_join_eq _ _ hl hc,
      foldl_plainJoin _ _ y.dots_disjoint]
    rfl
  · intro r hr
    rw [hversion]
    rcases mem_cons.1 hr with rfl | hr
    · exact (le_foldl_max _ _).1
    · exact (le_foldl_max _ _).2 _ (mem_map_of_mem hr)
  · rw [hversion]
    obtain ⟨r, hr, hrv⟩ := mem_map.1 (show (ys.map version).foldl max y.version ∈ (y :: ys).map version from
      foldl_max_mem _ _)
    exact ⟨r, hr, hrv⟩

/-- Where no cap binds, merging is the observed-remove join: folding the merge over any sequence that holds each record at
least once, whatever the order and the repetitions, stores the bytes of the one canonical record that is the join of all. -/
theorem element_fold_eq_join {t : RecordType} (ht : Plain t) {val : Dot → Bytes} {ttlOf : Version → UInt64}
    (xs : List ElementRecord) (hne : xs ≠ []) (hxs : ∀ r ∈ xs, r.rtype = t ∧ r.Conforms val ttlOf)
    (hl : (liveDots xs).card ≤ MAX_LIVE_DOTS) (hc : (coveredDots xs).card ≤ MAX_TOMB_DOTS) :
    ∃ R, IsJoinOf t xs R ∧ (∀ S, IsJoinOf t xs S → S = R) ∧
      ∀ y ys, (∀ r, r ∈ y :: ys ↔ r ∈ xs) →
        ys.foldl (fun stored r => mergeResolve stored r.encode) y.encode = R.encode := by
  have hconf : ∀ r ∈ xs, r.Conforms val ttlOf := fun r hr => (hxs r hr).2
  obtain ⟨x, xs', rfl⟩ := exists_cons_of_ne_nil hne
  have hR := foldl_join_isJoinOf ht x xs' hxs hl hc
  refine ⟨xs'.foldl join x, hR, fun S hS => hS.unique hconf hR, fun y ys hmem => ?_⟩
  have hlive : liveDots (y :: ys) = liveDots (x :: xs') := by
    ext d
    simp only [liveDots, mem_liveUnion, mem_map, exists_exists_and_eq_and, hmem]
  have hcov : coveredDots (y :: ys) = coveredDots (x :: xs') := by
    ext d
    simp only [coveredDots, mem_coveredUnion, mem_map, exists_exists_and_eq_and, hmem]
  have hS := foldl_join_isJoinOf ht y ys (fun r hr => hxs r ((hmem r).1 hr)) (hlive ▸ hl) (hcov ▸ hc)
  rw [foldl_mergeResolve_encode, (hS.congr hmem).unique hconf hR]

/-- An add, a concurrent add and a remove of the first, merged with repetitions, store what the join of the three says. -/
theorem element_fold_eq_join_add_add_remove :
    ∃ R, IsJoinOf .setMember [memberRecord ⟨1, 1⟩ [⟨1, 1⟩] [], memberRecord ⟨2, 2⟩ [⟨2, 2⟩] [],
        memberRecord ⟨3, 3⟩ [] [⟨1, 1⟩]] R ∧
      [memberRecord ⟨1, 1⟩ [⟨1, 1⟩] [], memberRecord ⟨2, 2⟩ [⟨2, 2⟩] [], memberRecord ⟨1, 1⟩ [⟨1, 1⟩] []].foldl
        (fun stored r => mergeResolve stored r.encode) (memberRecord ⟨3, 3⟩ [] [⟨1, 1⟩]).encode = R.encode := by
  have hconf : ∀ r ∈ [memberRecord ⟨1, 1⟩ [⟨1, 1⟩] [], memberRecord ⟨2, 2⟩ [⟨2, 2⟩] [],
      memberRecord ⟨3, 3⟩ [] [⟨1, 1⟩]], r.rtype = .setMember ∧ r.Conforms (fun _ => []) fun _ => 0 := by
    intro r hr
    simp only [mem_cons, not_mem_nil, or_false] at hr
    rcases hr with rfl | rfl | rfl <;> exact ⟨rfl, memberRecord_conforms _ _ _⟩
  obtain ⟨R, hR, _, hfold⟩ := element_fold_eq_join (t := .setMember) (.inr (.inl rfl)) _ (cons_ne_nil _ _) hconf
    (by decide) (by decide)
  refine ⟨R, hR, hfold _ _ fun r => ?_⟩
  simp only [mem_cons, not_mem_nil, or_false]
  tauto

end Marekvs
