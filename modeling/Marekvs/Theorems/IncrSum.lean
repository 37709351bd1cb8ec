import Marekvs.Lemmas.CountInv

/-!
# INCR loses no increments, where it is stamped above the string it converts

All nodes count on the same base, each in its own slot, and slots join by their maximum, so once the nodes have merged each
other every node shows the exact sum. An increment that converts a plain string writes a counter that competes with this string
by version: a node whose clock is behind the string's version answers with the new value and stores the old one. And the negation
of the least 64-bit integer wraps around.
-/

namespace Marekvs

open List StringRecord CounterState CountSys

/-! ## What was asked for -/

theorem toInt_mul_neg_one (h : n ≠ Int64.minValue) : (n * -1).toInt = -n.toInt := by
  have hlo := n.le_toInt
  have hhi := n.toInt_lt
  have hne : n.toInt ≠ -2 ^ 63 := fun h' => h (Int64.toInt_inj.1 (h'.trans (by decide)))
  rw [Int64.toInt_mul, show (-1 : Int64).toInt = -1 from by decide, Int.bmod_eq_of_le] <;> omega

/-- A command that is not a DECRBY of the least integer applies what it was asked for. -/
theorem requested_eq
    (hrep : (CountOp.incr i wall arg decr).representable = true) (hdelta : incrDelta arg (CountOp.signOf decr) = some delta)
    (hreq : CountOp.requested arg decr = some request) : request = delta.toInt := by
  cases arg with
  | none =>
    cases decr <;> cases hdelta <;> cases hreq <;> rfl
  | some text =>
    cases hp : parseI64 text with
    | none => simp [incrDelta, hp] at hdelta
    | some n =>
      simp only [incrDelta, hp, Option.map_some, Option.some.injEq] at hdelta
      simp only [CountOp.requested, hp, Option.map_some, Option.some.injEq] at hreq
      subst hdelta hreq
      cases decr with
      | false => simp [CountOp.signOf]
      | true =>
        have hne : n ≠ Int64.minValue := by
          rintro rfl
          simp [CountOp.representable, hp] at hrep
        rw [CountOp.signOf, if_pos rfl, if_pos rfl, toInt_mul_neg_one hne]

section

variable {nodes : Finset NodeId} {start : Option StartText} {clock : NodeId → UInt64}

/-- The history of a run whose commands are on `nodes` and all representable: counted on these nodes, as asked for. -/
theorem run_hist (ops : List CountOp) (hnodes : ∀ op ∈ ops, op.node ∈ nodes) (hexact : ∀ op ∈ ops, op.representable = true) :
    (∀ p ∈ (run nodes start clock ops).hist, p.1.origin ∈ nodes) ∧
      (run nodes start clock ops).requests = (run nodes start clock ops).hist.map fun h => h.2.toInt := by
  induction ops using List.reverseRecOn with
  | nil => exact ⟨nofun, rfl⟩
  | append_singleton ops op ih =>
    have hstep : run nodes start clock (ops ++ [op]) = (run nodes start clock ops).step op := by simp [run]
    obtain ⟨horigins, hreqs⟩ := ih (fun op' h => hnodes op' (mem_append_left _ h))
      fun op' h => hexact op' (mem_append_left _ h)
    have hnode := hnodes op (by simp)
    have hop := hexact op (by simp)
    rw [hstep]
    cases op with
    | incr i wall arg decr =>
      rw [step]
      split
      · rename_i delta request hdelta hreq
        split
        · exact ⟨horigins, hreqs⟩
        refine ⟨fun p hp => ?_, ?_⟩
        · rcases mem_cons.1 hp with rfl | hp
          · exact hnode
          · exact horigins p hp
        · rw [accept, hreqs, requested_eq hop hdelta hreq]
          rfl
      · exact ⟨horigins, hreqs⟩
    | deliver i wall index =>
      rw [step]
      split <;> exact ⟨horigins, hreqs⟩

end

/-! ## Nodes that have merged each other -/

namespace CountInv

variable {nodes : Finset NodeId} {start : Option StartText} {hist : List (Dot × Int64)} {t : Recs} {i j : NodeId}

/-- A record of a run is determined by its mark. -/
theorem eq_of_mark (hr : IsCount start hist r) (hr' : IsCount start hist r') (h : r.mark = r'.mark) : r = r' := by
  have hnodes : nodesOf r.slots = nodesOf r'.slots := congrArg (·.2.2) h
  rcases hr.shape with ⟨s, hs, rfl⟩ | ⟨c, hc, hb, hon, _⟩ <;> rcases hr'.shape with ⟨s', hs', rfl⟩ | ⟨d, hd, hb', hon', _⟩
  · rw [hs] at hs'
    cases hs'
    rfl
  · have := hr'.counter d hd hb'
    rw [← hnodes] at this
    cases this.choose_spec
  · have := hr.counter c hc hb
    rw [hnodes] at this
    cases this.choose_spec
  · have hslots : c.slots = d.slots := by
      have hlook : look r.slots = look r'.slots := congrArg (·.2.1) h
      rw [slots_of_count hb, slots_of_count hb'] at hnodes hlook
      exact asc_ext hc.asc hd.asc hnodes fun n _ => congrFun hlook n
    obtain rfl : c = d := ext_base (hon.baseVersion.trans hon'.baseVersion.symm) (hon.base.trans hon'.base.symm) hslots
    have hver : r.version = r'.version := congrArg Prod.fst h
    have httl := hr.ttl.trans hr'.ttl.symm
    cases r
    cases r'
    simp_all

theorem held_eq (h : CountInv nodes start hist t) (hij : ∀ r ∈ t.held j, r ∈ t.merged i)
    (hji : ∀ r ∈ t.held i, r ∈ t.merged j) : t.held i = t.held j := by
  cases hi : t.held i with
  | none =>
    cases hj : t.held j with
    | none => rfl
    | some r' =>
      obtain ⟨r, hr, _⟩ := h.above i r' (hij r' hj)
      rw [hi] at hr
      cases hr
  | some r =>
    obtain ⟨r', hr', hrr'⟩ := h.above j r (hji r hi)
    obtain ⟨r'', hr'', hr'r⟩ := h.above i r' (hij r' hr')
    rw [hi] at hr''
    cases hr''
    rw [eq_of_mark (h.held i r hi) (h.held j r' hr') (le_antisymm hrr' hr'r)]
    exact hr'.symm

/-- Where nobody has counted, a node holds what the key started as. -/
theorem held_of_nil (h : CountInv nodes start [] t) (hi : i ∈ nodes) : t.held i = start.map StartText.record := by
  have hstart : ∀ r ∈ t.held i, ∃ s, start = some s ∧ r = s.record := by
    intro r hr
    rcases (h.held i r hr).shape with hs | ⟨c, hc, hb, _⟩
    · exact hs
    · obtain ⟨n, hn⟩ := (h.held i r hr).counter c hc hb
      cases (h.held i r hr).within.2 hn
  cases hheld : t.held i with
  | some r =>
    obtain ⟨s, rfl, rfl⟩ := hstart r hheld
    rfl
  | none =>
    cases hs : start with
    | none => rfl
    | some s =>
      have := h.present (by rw [hs]; rfl) i hi
      rw [hheld] at this
      cases this

/-- A counter that all counting nodes hold has counted everything. -/
theorem total_eq (h : CountInv nodes start hist t) (hf : Fits hist)
    (hb : r.body = .count c hc) (hr : IsCount start hist r) (hall : ∀ p ∈ hist, t.held p.1.origin = some r) :
    c.total = (startCounter start).base.toInt + (hist.map fun p => p.2.toInt).sum := by
  obtain ⟨hon, _⟩ := hr.onStart hb
  have hslots := slots_of_count hb
  have hnode : ∀ s ∈ c.slots, ∃ p ∈ hist, p.1.origin = s.node := by
    intro s hs
    refine mem_counted.1 (hr.within.2 ?_)
    show _ ∈ nodesOf r.slots
    rw [hslots]
    exact mem_nodesOf.2 ⟨s, hs, rfl⟩
  have hslot : ∀ s ∈ c.slots, (s.pos.toNat : Int) - s.neg.toNat =
      (totalOf posPart hist s.node : Int) - totalOf negPart hist s.node := by
    intro s hs
    obtain ⟨p, hp, hps⟩ := hnode s hs
    have hown : look r.slots s.node = slotTotal hist s.node := by
      have := h.own s.node
      rwa [← hps, hall p hp, hps] at this
    rw [hslots, look_of_mem hc.asc hs, slotTotal, Prod.mk.injEq] at hown
    rw [hown.1, hown.2, UInt64.toNat_ofNat', UInt64.toNat_ofNat', Nat.mod_eq_of_lt (hf.pos _), Nat.mod_eq_of_lt (hf.neg _)]
  have hnd : (c.slots.map Slot.node).Nodup := by
    refine List.Nodup.of_map OrderDual.toDual ?_
    rw [map_map]
    exact hc.asc.nodup_map
  have hD : ∀ p ∈ hist, p.1.origin ∈ (c.slots.map Slot.node).toFinset := by
    intro p hp
    have hmem := h.counted p.1.origin (mem_counted.2 ⟨p, hp, rfl⟩)
    rw [hall p hp] at hmem
    obtain ⟨s, hs, hsn⟩ := mem_nodesOf.1 hmem
    exact mem_toFinset.2 (mem_map.2 ⟨s, hslots ▸ hs, hsn⟩)
  calc c.total
      = (startCounter start).base.toInt +
          (c.slots.map fun s => (totalOf posPart hist s.node : Int) - totalOf negPart hist s.node).sum := by
        rw [total, hon.base, map_congr_left hslot]
    _ = (startCounter start).base.toInt +
          ∑ n ∈ (c.slots.map Slot.node).toFinset, ((totalOf posPart hist n : Int) - totalOf negPart hist n) := by
        rw [sum_toFinset _ hnd, map_map]
        rfl
    _ = (startCounter start).base.toInt + (hist.map fun p => p.2.toInt).sum := by rw [sum_totals hist hD]

end CountInv

/-- The integer the key starts as, 0 where it starts absent. -/
def startNumber (start : Option StartText) : Option Int64 :=
  match start with
  | none => some 0
  | some t => t.number

theorem startCounter_base (h : startNumber start = some b) : (startCounter start).base = b := by
  cases start with
  | none => exact Option.some.inj h
  | some t =>
    show t.number.getD 0 = b
    rw [show t.number = some b from h, Option.getD_some]

/-- INCR, DECR, INCRBY and DECRBY on a string key that starts absent or as one integer text on at most 255 nodes. The text does
not expire during the run, every increment that finds no counter is stamped above the version of what it finds, no command is a
DECRBY of the least integer and no node's totals outgrow 64 bits. Once every node has merged every other node's record, all nodes
store the same bytes: what the key started as where no increment was accepted, and otherwise a counter that GET shows as the
start plus the sum of all accepted increments, where this fits 64 bits. -/
theorem incr_counts_every_increment (nodes : Finset NodeId) (hcard : nodes.card ≤ 255) (start : Option StartText) (b : Int64)
    (hb : startNumber start = some b) (clock : NodeId → UInt64) (ops : List CountOp) (hnodes : ∀ op ∈ ops, op.node ∈ nodes)
    (hvis : ∀ t ∈ start, ∀ op ∈ ops, t.visibleAt op.wall = true) (hraised : (run nodes start clock ops).raised = true)
    (hexact : ∀ op ∈ ops, op.representable = true) (hpos : ∀ n, totalOf posPart (run nodes start clock ops).hist n < 2 ^ 64)
    (hneg : ∀ n, totalOf negPart (run nodes start clock ops).hist n < 2 ^ 64)
    (hsettled : (run nodes start clock ops).Settled nodes) :
    (∀ i ∈ nodes, ∀ j ∈ nodes, (run nodes start clock ops).stored i = (run nodes start clock ops).stored j) ∧
      ((run nodes start clock ops).requests = [] →
        ∀ i ∈ nodes, (run nodes start clock ops).stored i = start.map StartText.bytes) ∧
      ((run nodes start clock ops).requests ≠ [] → -2 ^ 63 ≤ b.toInt + (run nodes start clock ops).requests.sum →
        b.toInt + (run nodes start clock ops).requests.sum < 2 ^ 63 → ∀ i ∈ nodes, ∀ now,
        (∀ t ∈ start, t.visibleAt now = true) → getString ((run nodes start clock ops).stored i) now =
          some (formatI64 (Int64.ofInt (b.toInt + (run nodes start clock ops).requests.sum)))) := by
  obtain ⟨horigins, hreqs⟩ : (∀ p ∈ (run nodes start clock ops).hist, p.1.origin ∈ nodes) ∧ _ := run_hist ops hnodes hexact
  have hf : Fits (run nodes start clock ops).hist := by
    refine ⟨hpos, hneg, ?_⟩
    have hsub : counted (run nodes start clock ops).hist ⊆ nodes.map OrderDual.toDual.toEmbedding := by
      intro n hn
      obtain ⟨p, hp, hpn⟩ := mem_counted.1 hn
      exact Finset.mem_map.2 ⟨_, horigins p hp, hpn⟩
    exact (Finset.card_le_card hsub).trans ((Finset.card_map _).trans_le hcard)
  obtain ⟨t, hrep, hinv⟩ := inv_run ops hnodes hvis hf hraised
  have hmerged : ∀ i ∈ nodes, ∀ j ∈ nodes, i ≠ j → ∀ r ∈ t.held j, r ∈ t.merged i := by
    intro i hi j hj hij r hr
    have hst := hsettled i hi j hj hij r.encode (by rw [hrep.stored j, hr]; rfl)
    rwa [hrep.merged i, mem_map_of_injective encode_injective] at hst
  have hheld : ∀ i ∈ nodes, ∀ j ∈ nodes, t.held i = t.held j := by
    intro i hi j hj
    by_cases hij : i = j
    · rw [hij]
    · exact hinv.held_eq (hmerged i hi j hj hij) (hmerged j hj i hi (Ne.symm hij))
  refine ⟨fun i hi j hj => ?_, fun hnil i hi => ?_, fun hne hlo hhi i hi now hnow => ?_⟩
  · rw [hrep.stored i, hrep.stored j, hheld i hi j hj]
  · rw [hreqs, map_eq_nil_iff] at hnil
    rw [hnil] at hinv
    rw [hrep.stored i, hinv.held_of_nil hi, Option.map_map]
    rfl
  · -- somebody counted, and everybody holds what they hold
    have hcounted : (run nodes start clock ops).hist ≠ [] := fun h => hne (by rw [hreqs, h]; rfl)
    obtain ⟨p, hp⟩ := exists_mem_of_ne_nil _ hcounted
    have hmem := hinv.counted p.1.origin (mem_counted.2 ⟨p, hp, rfl⟩)
    rw [hheld _ (horigins p hp) i hi] at hmem
    cases hr : t.held i with
    | none =>
      rw [hr] at hmem
      exact nomatch hmem
    | some r =>
      rw [hr] at hmem
      have hcount := hinv.held i r hr
      obtain ⟨c, hc, hbody, _⟩ := hcount.shape.resolve_left fun ⟨s, _, hs⟩ => by
        rw [hs] at hmem
        exact nomatch hmem
      have htotal := hinv.total_eq hf hbody hcount fun q hq => (hheld _ (horigins q hq) i hi).trans hr
      rw [startCounter_base hb, ← hreqs] at htotal
      have hvisible : seen (some r) now = some r := by
        rw [seen, Option.filter_some, if_pos (hcount.isVisible hnow)]
      rw [hrep.stored i, hr, getString, readLww_encode, hvisible]
      simp only [Option.map_some, envelope_rtype, hbody, parts, if_true, decode_encode hc.le, Option.bind_some]
      rw [value, htotal, if_pos ⟨hlo, hhi⟩]
      rfl

/-- Two nodes that each merged the other's record last have settled. -/
theorem settled_pair {s : CountSys} (hi : (s.merged i).head? = s.stored j)
    (hj : (s.merged j).head? = s.stored i) : s.Settled {i, j} := by
  intro k hk l hl hkl b hb
  simp only [Finset.mem_insert, Finset.mem_singleton] at hk hl
  rcases hk with rfl | rfl <;> rcases hl with rfl | rfl
  · exact absurd rfl hkl
  · exact mem_of_head? (hi.trans hb)
  · exact mem_of_head? (hj.trans hb)
  · exact absurd rfl hkl

/-- The key starts as 5, written by node 2 when its clock showed one second. -/
def five : StartText := ⟨hlcPack 1000 0, 2, [53], 0⟩

/-- Node 1 adds three, node 2 takes one, and they exchange their counters. -/
def addAndTake : List CountOp :=
  [.incr 1 2000 (some [51]) false, .incr 2 2000 none true, .deliver 1 2001 0, .deliver 2 2001 0, .deliver 1 2002 0]

set_option maxRecDepth 20000 in
/-- Nodes 1 and 2 end with seven. -/
theorem incr_counts_five_plus_three_minus_one :
    getString ((run {1, 2} (some five) (fun _ => 0) addAndTake).stored 1) 3000 = some [55] := by
  have hfit : ∀ f ∈ [posPart, negPart], ∀ n, totalOf f (run {1, 2} (some five) (fun _ => 0) addAndTake).hist n < 2 ^ 64 := by
    intro f hf n
    refine lt_of_le_of_lt (totalOf_le_sum f _ n) ?_
    simp only [mem_cons, not_mem_nil, or_false] at hf
    rcases hf with rfl | rfl <;> decide
  have h1 : ((run {1, 2} (some five) (fun _ => 0) addAndTake).merged 1).head? =
      (run {1, 2} (some five) (fun _ => 0) addAndTake).stored 2 := by decide
  have h2 : ((run {1, 2} (some five) (fun _ => 0) addAndTake).merged 2).head? =
      (run {1, 2} (some five) (fun _ => 0) addAndTake).stored 1 := by decide
  have hget := (incr_counts_every_increment {1, 2} (by decide) (some five) 5 (by decide) (fun _ => 0) addAndTake
    (by simp [addAndTake, CountOp.node])
    (by rintro t ⟨⟩; simp only [addAndTake, forall_mem_cons]; decide) (by decide) (by decide)
    (hfit _ (by simp)) (hfit _ (by simp)) (settled_pair h1 h2)).2.2
  have hreq : (run {1, 2} (some five) (fun _ => 0) addAndTake).requests = [-1, 3] := by decide
  rw [hreq] at hget
  have h7 : formatI64 (Int64.ofInt ((5 : Int64).toInt + ([-1, 3] : List Int).sum)) = [55] := by decide
  rw [← h7]
  exact hget (by simp) (by decide) (by decide) 1 (by simp) 3000 (by rintro t ⟨⟩; decide)

/-- The text five, written by node 2 while its clock was ten seconds ahead. -/
def aheadFive : StartText := ⟨hlcPack 20000 0, 2, [53], 0⟩

/-- Node 1 received the text at its wall clock of ten seconds, with its clock clamped to the allowed drift. -/
def behind : NodeId → UInt64 := fun _ => Hlc.observe 0 10000 (hlcPack 20000 0)

set_option maxRecDepth 20000 in
/-- Node 1 increments the text: it answers six and stores five. The nodes hold the same text, and the increment is lost. -/
theorem incr_loses_an_increment :
    (incrBy (some aheadFive.bytes) (Hlc.now (behind 1) 10001) 1 1 10001).toOption = some (6, aheadFive.bytes) ∧
      startNumber (some aheadFive) = some 5 ∧
      (run {1, 2} (some aheadFive) behind [.incr 1 10001 none false]).requests = [1] ∧
      (run {1, 2} (some aheadFive) behind [.incr 1 10001 none false]).Settled {1, 2} ∧
      getString ((run {1, 2} (some aheadFive) behind [.incr 1 10001 none false]).stored 1) 10002 = some [53] ∧
      getString ((run {1, 2} (some aheadFive) behind [.incr 1 10001 none false]).stored 2) 10002 = some [53] := by
  have h1 : ((run {1, 2} (some aheadFive) behind [.incr 1 10001 none false]).merged 1).head? =
      (run {1, 2} (some aheadFive) behind [.incr 1 10001 none false]).stored 2 := by decide
  have h2 : ((run {1, 2} (some aheadFive) behind [.incr 1 10001 none false]).merged 2).head? =
      (run {1, 2} (some aheadFive) behind [.incr 1 10001 none false]).stored 1 := by decide
  refine ⟨by decide, by decide, by decide, settled_pair h1 h2, by decide, by decide⟩

end Marekvs
