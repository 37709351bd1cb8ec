import Marekvs.Lemmas.Decimal
import Marekvs.Theorems.IncrSum

/-!
# When an increment is exact

INCRBY and DECRBY answer with the value of the counter they write. A node's slot saturates at the greatest 64-bit number, the
negation of DECRBY is that of 64-bit integers, a counter with 255 slots has no room for another, and a text with a version that
the clock has not passed stays: in these four cases the command answers with, or stores, something else than the sum.
-/

namespace Marekvs

open List Option StringRecord CounterState CountOp UInt64

variable {slots : List Slot} {c : CounterState} {r : StringRecord} {v : Version} {node : NodeId} {delta : Int64} {now : UInt64}

theorem sum_upsert (node : NodeId) (g : Slot → Int) (f : Slot → Slot) (hg : ∀ n, g ⟨n, 0, 0⟩ = 0) (h : Asc slots) :
    ((upsert node f slots).map g).sum = (slots.map g).sum +
      (g (f ⟨node, (look slots node).1, (look slots node).2⟩) - g ⟨node, (look slots node).1, (look slots node).2⟩) := by
  induction slots with
  | nil => simp [upsert, look, hg]
  | cons s slots ih =>
    obtain ⟨hlt, hasc⟩ := asc_cons.1 h
    rw [upsert, look_cons]
    split
    · rename_i hs
      subst hs
      cases s
      simp only [map_cons, sum_cons, if_true]
      omega
    · rename_i hs
      rw [if_neg (Ne.symm hs)]
      split
      · rename_i hns
        rw [look_eq_zero fun t ht => (hns.trans (hlt t ht)).ne', hg]
        simp only [map_cons, sum_cons]
        omega
      · simp only [map_cons, sum_cons, ih hasc]
        omega

namespace CounterState

/-- What a node's slot can still take of an increment. -/
def room (c : CounterState) (node : NodeId) (delta : Int64) : Nat :=
  2 ^ 64 - 1 - (if 0 ≤ delta.toInt then (look c.slots node).1 else (look c.slots node).2).toNat

def taken (c : CounterState) (node : NodeId) (delta : Int64) : Int :=
  delta.toInt.sign * min delta.toInt.natAbs (c.room node delta)

theorem total_bump (h : Asc c.slots) : (c.bump node delta).total = c.total + c.taken node delta := by
  have habs : (ofNat delta.toInt.natAbs).toNat = delta.toInt.natAbs := by
    have := delta.toInt_lt
    have := delta.le_toInt
    rw [toNat_ofNat', Nat.mod_eq_of_lt (by omega)]
  have hsum := sum_upsert node (fun s => (s.pos.toNat : Int) - s.neg.toNat) (bumpSlot delta) (fun _ => rfl) h
  have hpos := (look c.slots node).1.toNat_lt
  have hneg := (look c.slots node).2.toNat_lt
  rw [total, total, bump, hsum, taken, room, bumpSlot]
  rcases lt_trichotomy delta.toInt 0 with hd | hd | hd
  · rw [if_neg (by omega), if_neg (by omega), Int.sign_eq_neg_one_of_neg hd]
    simp only [toNat_satAdd, habs]
    omega
  · simp [hd, toNat_satAdd]
    omega
  · rw [if_pos hd.le, if_pos hd.le, Int.sign_eq_one_of_pos hd]
    simp only [toNat_satAdd, habs]
    omega

theorem taken_eq_iff : c.taken node delta = delta.toInt ↔ delta.toInt.natAbs ≤ c.room node delta := by
  unfold taken
  rcases lt_trichotomy delta.toInt 0 with hd | hd | hd
  · rw [Int.sign_eq_neg_one_of_neg hd]
    omega
  · simp [hd]
  · rw [Int.sign_eq_one_of_pos hd]
    omega

def HasRoom (c : CounterState) (node : NodeId) : Prop := (∃ s ∈ c.slots, s.node = node) ∨ c.slots.length < MAX_SLOTS

theorem length_bump (h : Asc c.slots) :
    (c.bump node delta).slots.length = c.slots.length + if ∃ s ∈ c.slots, s.node = node then 0 else 1 := by
  have hcard := (asc_upsert (n := node) (bumpSlot_node delta) h).card_keys
  rw [← h.card_keys, bump, ← hcard]
  show (nodesOf _).card = _
  rw [nodes_upsert (bumpSlot_node delta)]
  split
  · rename_i hmem
    rw [Finset.insert_eq_of_mem (mem_nodesOf.2 hmem), Nat.add_zero]
  · rename_i hmem
    rw [Finset.card_insert_of_notMem fun hin => hmem (mem_nodesOf.1 hin)]

instance : Decidable (c.HasRoom node) := inferInstanceAs (Decidable (_ ∨ _))

/-- A counter merged with its own increment, as that is read back: the increment, or the counter where it had no room. -/
theorem merge_wire_bump (h : c.Canonical) :
    c.merge (c.bump node delta).wire = if c.HasRoom node then c.bump node delta else c := by
  have hlen := @length_bump c node delta h.asc
  rw [merge_of_eq (show c.baseVersion = (c.bump node delta).wire.baseVersion from rfl)]
  split
  · rename_i hroom
    have hle : (c.bump node delta).slots.length ≤ MAX_SLOTS := by
      rcases hroom with hmem | hlt
      · rw [hlen, if_pos hmem]
        exact h.le
      · rw [hlen]
        split <;> omega
    have hasc : Asc (c.bump node delta).slots := asc_upsert (bumpSlot_node delta) h.asc
    have hnodes : nodesOf c.slots ∪ nodesOf (c.bump node delta).slots = nodesOf (c.bump node delta).slots := by
      rw [bump, nodes_upsert (bumpSlot_node delta)]
      exact Finset.union_eq_right.2 (Finset.subset_insert _ _)
    have hcard : (nodesOf c.slots ∪ nodesOf (c.bump node delta).slots).card ≤ MAX_SLOTS := by
      rw [hnodes, nodesOf, hasc.card_keys]
      exact hle
    rw [wire_eq_self hle]
    refine ext_base rfl rfl ?_
    rw [joinSlots_slots_eq h hcard]
    refine asc_ext (asc_unionSlots h.asc _) hasc (by rw [nodes_unionSlots, hnodes]) fun n _ => ?_
    rw [look_unionSlots h.asc hasc]
    exact sup_eq_right.2 (look_le_bump h.asc node n)
  · rename_i hroom
    obtain ⟨hmem, hfull⟩ := not_or.1 hroom
    have h255 : c.slots.length = 255 := le_antisymm h.le (not_lt.1 hfull)
    rw [if_neg hmem, h255] at hlen
    refine ext_base rfl rfl ?_
    rw [joinSlots_slots, wire, hlen]
    exact take_of_length_le h.le

theorem value_eq_some : c.value = some n ↔ n.toInt = c.total := by
  unfold value
  have hlo := n.le_toInt
  have hhi := n.toInt_lt
  split
  · rename_i hrange
    rw [some.injEq, ← Int64.toInt_inj, Int64.toInt_ofInt_of_le hrange.1 hrange.2, eq_comm]
  · exact ⟨nofun, fun h => by omega⟩

end CounterState

/-! ## The commands -/

/-- The command is refused, or answers with the sum and stores what GET shows as the sum. -/
def IncrExact (r : StringRecord) (v : Version) (n : Int64) (decr : Bool) (now : UInt64) (old : Int) : Prop :=
  (∃ e, incrBy (some r.encode) v.hlc v.origin (n * signOf decr) now = .error e) ∨
    ∃ new b, incrBy (some r.encode) v.hlc v.origin (n * signOf decr) now = .ok (new, b) ∧
      new.toInt = old + (if decr then -n.toInt else n.toInt) ∧ getString (some b) now = some (formatI64 new)

theorem base_shape (hseen : r.isVisible now = true) (hbase : StringRecord.base (some r) = some c) :
    (∃ hc, r.body = .count c hc) ∨ (∃ p, r.body = .text p) ∧ c.slots = [] := by
  rw [StringRecord.base] at hbase
  cases hbody : r.body with
  | count d hd =>
    simp only [hbody, some.injEq] at hbase
    subst hbase
    exact .inl ⟨hd, rfl⟩
  | text p =>
    simp only [hbody] at hbase
    obtain ⟨n, -, rfl⟩ := map_eq_some_iff.1 hbase
    exact .inr ⟨⟨p, rfl⟩, rfl⟩
  | dead =>
    exact absurd hbody (isVisible_iff.1 hseen).1

/-- The record gives way to a write: a counter takes it in, a text is older or already reads so. -/
def yields (r : StringRecord) (v : Version) (shown : Bytes) : Bool :=
  match r.body with
  | .text p => r.version < v ∨ p = shown
  | _ => true

theorem getString_encode (hseen : r.isVisible now = true) :
    getString (some r.encode) now = match r.body with
      | .count c _ => c.value.map formatI64
      | .text p => some p
      | .dead => none := by
  have hread := readLww_encode (some r) now
  rw [map_some, seen, filter_some, if_pos hseen, map_some] at hread
  rw [getString, hread]
  cases hbody : r.body with
  | count c hc => simp [hbody, parts, decode_encode hc.le]
  | text p => simp [hbody, parts]
  | dead => exact absurd hbody (isVisible_iff.1 hseen).1

theorem isVisible_of_le (hseen : r.isVisible now = true) (hle : r.version ≤ w) (hd : d.Canonical) :
    (⟨w, r.ttl, .count d hd⟩ : StringRecord).isVisible now = true := by
  obtain ⟨_, hexp, hpos⟩ := isVisible_iff.1 hseen
  exact isVisible_iff.2 ⟨nofun, hexp, hpos.trans_le (Dot.hlc_le_of_le hle)⟩

/-- What GET shows after an increment: the text that stays, or the counter with the increment, or without it where it had no
room. -/
theorem getString_bumped (hseen : r.isVisible now = true) (hbase : StringRecord.base (some r) = some c) :
    getString (some (store (some r) (bumped v r.ttl c (base_canonical hbase) v.origin delta)).encode) now =
      match r.body with
      | .text p => if r.version < v then (c.bump v.origin delta).value.map formatI64 else some p
      | _ => (if c.HasRoom v.origin then c.bump v.origin delta else c).value.map formatI64 := by
  rcases base_shape hseen hbase with ⟨hc, hbody⟩ | ⟨⟨p, hbody⟩, hslots⟩
  · have hmerge := @merge_wire_bump c v.origin delta (base_canonical hbase)
    have hstore : store (some r) (bumped v r.ttl c (base_canonical hbase) v.origin delta) =
        ⟨max r.version v, r.ttl, .count _ (hc.merge (hc.wire_bump v.origin delta))⟩ := by
      rw [store, merge_counts hbody rfl]
      simp only [bumped]
      congr 1
      exact ite_self _
    rw [hstore, getString_encode (isVisible_of_le hseen (le_max_left _ _) _)]
    simp only [hbody, hmerge]
  · have hwire : (c.bump v.origin delta).wire = c.bump v.origin delta := wire_eq_self (by
      rw [length_bump (base_canonical hbase).asc]
      simp [hslots, MAX_SLOTS])
    have hstore : store (some r) (bumped v r.ttl c (base_canonical hbase) v.origin delta) =
        newer r (bumped v r.ttl c (base_canonical hbase) v.origin delta) := by rw [store, StringRecord.merge, hbody]
    rw [hstore, newer, hbody]
    by_cases hfresh : r.version < v
    · rw [if_pos (show r.version < (bumped v r.ttl c _ v.origin delta).version from hfresh)]
      rw [bumped, getString_encode (isVisible_of_le hseen hfresh.le _)]
      simp only [hwire, if_pos hfresh]
    · rw [if_neg (show ¬ r.version < (bumped v r.ttl c _ v.origin delta).version from hfresh), getString_encode hseen, hbody]
      exact (if_neg hfresh).symm

theorem incrBy_some (hseen : r.isVisible now = true) (hbase : StringRecord.base (some r) = some c) :
    incrBy (some r.encode) v.hlc v.origin delta now =
      match (c.bump v.origin delta).value with
      | none => .error .wouldOverflow
      | some new => .ok (new, (store (some r) (bumped v r.ttl c (base_canonical hbase) v.origin delta)).encode) := by
  have hsome : seen (some r) now = some r := by rw [seen, filter_some, if_pos hseen]
  have hread := readLww_encode (some r) now
  rw [map_some, hsome, map_some] at hread
  have hok : stringBase (some (r.envelope, (parts r.body).2.2)) = .ok c := by
    have hopt := (stringBase_encode (some r)).trans hbase
    rw [map_some] at hopt
    cases hb : stringBase (some (r.envelope, (parts r.body).2.2)) with
    | error e =>
      rw [hb] at hopt
      cases hopt
    | ok d =>
      rw [hb] at hopt
      cases hopt
      rfl
  rw [incrBy, hread]
  dsimp only
  rw [hok]
  dsimp only
  cases hval : (c.bump v.origin delta).value with
  | none => rfl
  | some new =>
    have hwrite := @writeMerged_bumped (some r) now c (by rw [hsome]; exact hbase) v r.ttl delta
    dsimp only
    rw [← hwrite]
    rfl

theorem toInt_requested (n : Int64) (decr : Bool) :
    (n * signOf decr).toInt = (if decr then -n.toInt else n.toInt) ↔ (decr = true → n ≠ Int64.minValue) := by
  cases decr with
  | false => simp [signOf]
  | true =>
    simp only [signOf, if_true, forall_const]
    refine ⟨?_, toInt_mul_neg_one⟩
    rintro h rfl
    revert h
    decide

/-- An increment is exact or refused unless it is accepted and either the node's slot saturates, the counter has no room for the
node's slot, the argument of DECRBY has no negation, or a text stays that is not older. It is refused where the old value and
what the node's slot can take of the increment leave 64 bits. -/
theorem incrBy_exact_iff (hseen : r.isVisible now = true) (hbase : StringRecord.base (some r) = some c) (n : Int64)
    (decr : Bool) :
    IncrExact r v n decr now c.total ↔
      ¬ (-2 ^ 63 ≤ c.total + c.taken v.origin (n * signOf decr) ∧ c.total + c.taken v.origin (n * signOf decr) < 2 ^ 63) ∨
        (decr = true → n ≠ Int64.minValue) ∧ (n * signOf decr).toInt.natAbs ≤ c.room v.origin (n * signOf decr) ∧
          (n = 0 ∨ c.HasRoom v.origin) ∧ yields r v (formatI64 (Int64.ofInt (c.total + (n * signOf decr).toInt))) = true := by
  have hcan := base_canonical hbase
  generalize hdelta : n * signOf decr = delta
  have htotal := @total_bump c v.origin delta hcan.asc
  rw [IncrExact, hdelta, incrBy_some hseen hbase, ← htotal]
  rw [← taken_eq_iff]
  cases hval : (c.bump v.origin delta).value with
  | none =>
    refine iff_of_true (.inl ⟨_, rfl⟩) (.inl fun hrange => ?_)
    rw [value, if_pos hrange] at hval
    cases hval
  | some new =>
    have hnew := value_eq_some.1 hval
    have hlo := new.le_toInt
    have hhi := new.toInt_lt
    have hanswer : (new.toInt = c.total + (if decr then -n.toInt else n.toInt)) ↔
        c.taken v.origin delta = if decr then -n.toInt else n.toInt := by omega
    have hexact : (c.taken v.origin delta = if decr then -n.toInt else n.toInt) ↔
        (decr = true → n ≠ Int64.minValue) ∧ c.taken v.origin delta = delta.toInt := by
      rw [← toInt_requested, hdelta]
      refine ⟨fun h => ?_, fun h => h.2.trans h.1⟩
      suffices hrep : decr = true → n ≠ Int64.minValue by
        have hreq := (toInt_requested n decr).2 hrep
        rw [hdelta] at hreq
        exact ⟨hreq, h.trans hreq.symm⟩
      rintro rfl rfl
      rw [← hdelta, taken, show (Int64.minValue * signOf true).toInt.sign = -1 by decide, if_pos rfl,
        show -Int64.minValue.toInt = 2 ^ 63 by decide] at h
      omega
    have hshow (h : (decr = true → n ≠ Int64.minValue) ∧ c.taken v.origin delta = delta.toInt) :
        getString (some (store (some r) (bumped v r.ttl c (base_canonical hbase) v.origin delta)).encode) now =
            some (formatI64 new) ↔
          (n = 0 ∨ c.HasRoom v.origin) ∧ yields r v (formatI64 (Int64.ofInt (c.total + delta.toInt))) = true := by
      have hsum : Int64.ofInt (c.total + delta.toInt) = new := by rw [← h.2, ← htotal, ← hnew, Int64.ofInt_toInt]
      have hzero : c.taken v.origin delta = 0 ↔ n = 0 := by
        rw [h.2, ← hdelta, (toInt_requested n decr).2 h.1, ← Int64.toInt_inj]
        cases decr <;> simp
      rw [getString_bumped hseen hbase, hsum, yields]
      rcases base_shape hseen hbase with ⟨hc, hbody⟩ | ⟨⟨p, hbody⟩, hslots⟩
      · -- the increment, or the old counter, which has the value only if nothing is added
        simp only [hbody, and_true]
        rw [← map_some, (map_injective fun _ _ => formatI64_inj.1).eq_iff]
        by_cases hroom : c.HasRoom v.origin
        · simp [hroom, hval]
        simp only [hroom, if_false, or_false, ← hzero, value_eq_some]
        omega
      · have hroom : c.HasRoom v.origin := .inr (by rw [hslots]; decide)
        simp only [hbody, hroom, or_true, true_and, hval, map_some, decide_eq_true_eq]
        split
        · rename_i hfresh
          simp [hfresh]
        · rename_i hfresh
          simp [hfresh]
    have hrange : -2 ^ 63 ≤ (c.bump v.origin delta).total ∧ (c.bump v.origin delta).total < 2 ^ 63 := by omega
    rw [or_iff_right (not_not.2 hrange), or_iff_right (by rintro ⟨_, ⟨⟩⟩)]
    constructor
    · rintro ⟨_, _, hok, hans, hget⟩
      cases hok
      have hex := hexact.1 (hanswer.1 hans)
      exact ⟨hex.1, hex.2, (hshow hex).1 hget⟩
    · rintro ⟨hrep, htake, hroom⟩
      exact ⟨new, _, rfl, hanswer.2 (hexact.2 ⟨hrep, htake⟩), (hshow ⟨hrep, htake⟩).2 hroom⟩

/-- The text `5`. -/
def fiveText : StringRecord := ⟨⟨1, 1⟩, 0, .text [53]⟩

/-- INCRBY 3 on it. -/
theorem incrBy_exact_five : IncrExact fiveText ⟨2, 1⟩ 3 false 0 5 :=
  (@incrBy_exact_iff (onBase 1 1 5) fiveText ⟨2, 1⟩ 0 (by decide) (by decide) 3 false).2
    (.inr (by decide))

/-- A counter at 5 whose node has counted as far up and down as a slot goes. -/
def fullCounter : StringRecord := ⟨⟨1, 1⟩, 0, .count ⟨1, 1, 5, [⟨1, UInt64.ofNat (2 ^ 64 - 1), UInt64.ofNat (2 ^ 64 - 1)⟩]⟩
  ⟨List.pairwise_singleton _ _, by decide⟩⟩

/-- DECRBY of the least integer answers with the least integer on the text `0`, where the sum is 2^63; INCRBY 1 on a full slot
answers 5, where the sum is 6. -/
theorem incrBy_not_exact :
    (incrBy (some (⟨⟨1, 1⟩, 0, .text [48]⟩ : StringRecord).encode) 2 1 (Int64.minValue * signOf true) 0).toOption.map Prod.fst =
        some Int64.minValue ∧
      (incrBy (some fullCounter.encode) 2 1 (1 * signOf false) 0).toOption.map Prod.fst = some 5 := by
  decide

end Marekvs
