import Marekvs.Lemmas.FieldInv

/-!
# HINCRBY counts every increment, where no newest entry is cut

Each node keeps its own totals on its newest dot, so a record that holds every node's newest dot shows the exact sum. The live
list is cut to four dots before superseded ones are dropped, so a fifth incrementing node pushes out somebody's totals. Along
runs in which no write and no merge cuts a node's newest dot, the value is exact once all nodes have merged each other.
-/

namespace Marekvs

open List Desc TopN Newest ElementState ElementRecord ElementSys FieldSys

namespace FieldSys

/-- Once all nodes have merged each other, a node's record holds a dot above every increment of every node. -/
theorem Inv.covers {s : FieldSys} (h : Inv s) (hset : s.Settled) (hi : (s.stored i).isSome)
    (hp : p ∈ s.hist) : ∃ d ∈ (storedDots (s.stored i)).live, d.origin = p.1.origin ∧ p.1 ≤ d := by
  obtain ⟨d, hd, hdo, hle⟩ := h.own p hp
  by_cases hpi : p.1.origin = i
  · rw [hpi] at hd
    exact ⟨d, hd, hdo, hle⟩
  cases hst : s.stored p.1.origin with
  | none =>
    rw [hst] at hd
    cases hd
  | some b =>
    rw [hst] at hd
    obtain ⟨d', hd', hdo', hle'⟩ := h.above i b (hset i _ b hi hst (Ne.symm hpi)) d hd
    exact ⟨d', hd', hdo'.trans hdo, hle.trans hle'⟩

/-- A field record above every increment counts them all. -/
theorem total_eq_sum {s : FieldSys} (hgood : s.Good) (hr : IsField s.hist r)
    (hcov : ∀ p ∈ s.hist, ∃ d ∈ r.dots.live, d.origin = p.1.origin ∧ p.1 ≤ d) :
    ∃ c, counterFieldState r.state.encode = some c ∧ c.total = s.sum := by
  obtain ⟨slots, hst, hperm⟩ := hr.counterFieldState_eq
  refine ⟨_, hst, ?_⟩
  have hslot : ∀ e ∈ r.state.live, ((slotAt s.hist e.1).pos.toNat : Int) - (slotAt s.hist e.1).neg.toNat =
      (totalOf posPart s.hist e.1.origin : Int) - totalOf negPart s.hist e.1.origin := by
    intro e he
    have hmax : ∀ p ∈ s.hist, p.1.origin = e.1.origin → p.1 ≤ e.1 := by
      intro p hp hpe
      obtain ⟨d, hd, hdo, hle⟩ := hcov p hp
      obtain ⟨e', he', rfl⟩ := mem_dots_live.1 hd
      rwa [inj_on_of_nodup_map hr.origins_nodup he he' (hpe.symm.trans hdo.symm)]
    rw [slotAt, upTo_eq_totalOf hmax, upTo_eq_totalOf hmax, UInt64.toNat_ofNat', UInt64.toNat_ofNat',
      Nat.mod_eq_of_lt (hgood.pos _), Nat.mod_eq_of_lt (hgood.neg _)]
  have hD : ∀ p ∈ s.hist, p.1.origin ∈ (r.state.live.map fun e => e.1.origin).toFinset := by
    intro p hp
    obtain ⟨d, hd, hdo, _⟩ := hcov p hp
    obtain ⟨e, he, rfl⟩ := mem_dots_live.1 hd
    exact mem_toFinset.2 (mem_map.2 ⟨e, he, hdo⟩)
  calc CounterState.total ⟨0, 0, 0, slots⟩
      = (slots.map fun x => (x.pos.toNat : Int) - x.neg.toNat).sum := by simp [CounterState.total]
    _ = (r.state.live.map fun e => (totalOf posPart s.hist e.1.origin : Int) - totalOf negPart s.hist e.1.origin).sum := by
        rw [(hperm.map _).sum_eq, map_map]
        exact congrArg List.sum (map_congr_left hslot)
    _ = ∑ n ∈ (r.state.live.map fun e => e.1.origin).toFinset,
          ((totalOf posPart s.hist n : Int) - totalOf negPart s.hist n) := by
        rw [sum_toFinset _ hr.origins_nodup, map_map]
        rfl
    _ = s.sum := sum_totals s.hist hD

end FieldSys

/-- HINCRBY on a field that starts absent, in a run in which no clock wraps, no node's totals outgrow 64 bits and no write or
merge cuts the newest dot of a node: once every node has merged every other node's record, every node's counter is the exact sum
of all accepted increments, and its value is that sum where it fits 64 bits. -/
theorem hincrby_counts_every_increment (clock : NodeId → UInt64) (ops : List FieldOp) (hgood : (run clock ops).Good)
    (hsettled : (run clock ops).Settled) (i : NodeId) (b : Bytes) (env : Envelope) (payload : Bytes)
    (hst : (run clock ops).stored i = some b) (hdec : Envelope.decode b = some (env, payload)) :
    (∃ c, counterFieldState payload = some c ∧ c.total = (run clock ops).sum) ∧
      (-2 ^ 63 ≤ (run clock ops).sum → (run clock ops).sum < 2 ^ 63 →
        counterFieldValue payload = some (Int64.ofInt (run clock ops).sum)) := by
  have h := inv_run clock ops hgood
  obtain ⟨r, hr, rfl⟩ := h.sent b (h.stored i b hst)
  rw [ElementRecord.decode_encode] at hdec
  cases hdec
  obtain ⟨c, hc, htotal⟩ := total_eq_sum hgood hr fun p hp => by
    have := h.covers hsettled (i := i) (by rw [hst]; rfl) hp
    rwa [hst, storedDots, dotsOf_encode] at this
  refine ⟨⟨c, hc, htotal⟩, fun hlo hhi => ?_⟩
  rw [counterFieldValue, hc, Option.bind_some, CounterState.value, htotal, if_pos ⟨hlo, hhi⟩]

/-- Totals that fit together fit for every node. -/
theorem good_of_sums {s : FieldSys} (hticked : s.ticked = true) (hkept : ∀ U ∈ s.unions, KeepsNewest Dot.origin MAX_LIVE_DOTS U)
    (hpos : (s.hist.map fun h => posPart h.2).sum < 2 ^ 64) (hneg : (s.hist.map fun h => negPart h.2).sum < 2 ^ 64) : s.Good :=
  ⟨hticked, hkept, fun n => lt_of_le_of_lt (totalOf_le_sum _ _ n) hpos, fun n => lt_of_le_of_lt (totalOf_le_sum _ _ n) hneg⟩

/-- Node 1 adds five, node 2 takes three, and they exchange their records. -/
def twoNodes : List FieldOp := [.incr 1 1 5, .incr 2 2 (-3), .deliver 1 3 0, .deliver 2 3 0, .deliver 1 4 0]

/-- The node ends with the bytes of node 1, which it merged last. -/
def EndsSame (s : FieldSys) (i : NodeId) : Prop := s.stored i = s.stored 1 ∧ (s.merged i).head? = s.stored 1

instance (s : FieldSys) (i : NodeId) : Decidable (EndsSame s i) := inferInstanceAs (Decidable (_ ∧ _))

theorem ends_same {nodes : List NodeId} (h : ∀ i ∈ nodes, EndsSame s i) (hb : s.stored 1 = some b) :
    (∀ i ∈ nodes, s.stored i = some b) ∧ ∀ i ∈ nodes, b ∈ s.merged i :=
  ⟨fun i hi => (h i hi).1.trans hb, fun i hi => mem_of_head? ((h i hi).2.trans hb)⟩

theorem twoNodes_settled : (run (fun _ => 0) twoNodes).Settled := by
  have hb : ((run (fun _ => 0) twoNodes).stored 1).isSome = true := by decide
  obtain ⟨b, hb⟩ := Option.isSome_iff_exists.1 hb
  have hends : ∀ i ∈ [1, 2], EndsSame (run (fun _ => 0) twoNodes) i := by
    simp only [forall_mem_cons, not_mem_nil, false_imp_iff, implies_true, and_true]
    decide +kernel
  obtain ⟨hsame, hmerged⟩ := ends_same hends hb
  exact settled_of_same _ _ _ (by decide) hsame hmerged

/-- After the exchange node 1 shows two. -/
theorem hincrby_counts_five_minus_three :
    (((run (fun _ => 0) twoNodes).stored 1).bind Envelope.decode).bind (fun p => counterFieldValue p.2) = some 2 := by
  obtain ⟨hsome, hticked, hunions⟩ : (((run (fun _ => 0) twoNodes).stored 1).bind Envelope.decode).isSome = true ∧
      (run (fun _ => 0) twoNodes).ticked = true ∧
      ∀ U ∈ (run (fun _ => 0) twoNodes).unions, KeepsNewest Dot.origin MAX_LIVE_DOTS U := by
    decide +kernel
  obtain ⟨p, hp⟩ := Option.isSome_iff_exists.1 hsome
  obtain ⟨b, hb, hdec⟩ := Option.bind_eq_some_iff.1 hp
  have hgood := good_of_sums hticked hunions (by decide) (by decide)
  have hsum : (run (fun _ => 0) twoNodes).sum = 2 := by decide
  have hval := (hincrby_counts_every_increment (fun _ => 0) twoNodes hgood twoNodes_settled 1 b p.1 p.2 hb hdec).2
  rw [hsum] at hval
  rw [hp]
  exact hval (by decide) (by decide)

/-- Five nodes increment once each; their records are gathered from node 1 up to node 5, and node 5's record goes back to all. -/
def fiveNodes : List FieldOp :=
  [.incr 1 1 1, .incr 2 2 1, .incr 3 3 1, .incr 4 4 1, .incr 5 5 1, .deliver 2 6 4, .deliver 3 6 0, .deliver 4 6 0,
    .deliver 5 6 0, .deliver 1 6 0, .deliver 2 6 0, .deliver 3 6 0, .deliver 4 6 0, .deliver 5 6 0]

set_option maxRecDepth 20000 in
/-- Five increments of one by five nodes, all nodes settled on the same bytes, and the field shows four: the fifth dot pushed
node 1's entry off the live list. -/
theorem hincrby_loses_an_increment :
    (run (fun _ => 0) fiveNodes).Settled ∧ (run (fun _ => 0) fiveNodes).ticked = true ∧ (run (fun _ => 0) fiveNodes).sum = 5 ∧
      ∃ b env payload, (∀ i ∈ [1, 2, 3, 4, 5], (run (fun _ => 0) fiveNodes).stored i = some b) ∧
        Envelope.decode b = some (env, payload) ∧ counterFieldValue payload = some 4 := by
  obtain ⟨hvalue, hruns, hends⟩ :
      (((run (fun _ => 0) fiveNodes).stored 1).bind Envelope.decode).bind (fun p => counterFieldValue p.2) = some 4 ∧
      ((run (fun _ => 0) fiveNodes).ticked = true ∧ (run (fun _ => 0) fiveNodes).sum = 5) ∧
      ∀ i ∈ [1, 2, 3, 4, 5], EndsSame (run (fun _ => 0) fiveNodes) i := by
    simp only [forall_mem_cons, not_mem_nil, false_imp_iff, implies_true, and_true]
    decide +kernel
  obtain ⟨p, hp, hval⟩ := Option.bind_eq_some_iff.1 hvalue
  obtain ⟨b, hb, hdec⟩ := Option.bind_eq_some_iff.1 hp
  obtain ⟨hsame, hmerged⟩ := ends_same hends hb
  exact ⟨settled_of_same _ _ _ (by decide) hsame hmerged, hruns.1, hruns.2, b, p.1, p.2, hsame, hdec, hval⟩

end Marekvs
