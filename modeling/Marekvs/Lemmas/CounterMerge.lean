import Marekvs.Core.Counter
import Marekvs.Lib.Desc

/-!
# The merge of counters is a semilattice

A canonical counter has its slots in ascending node order, at most 255 of them. Over counters in which a base version always
stands for the same base value (`SameBase`), the merge is commutative, associative and idempotent, although it cuts the slot
list: a slot that is cut away has 255 smaller node ids in front of it, and keeps having them. Ascending order is descending
order in the dual.
-/

namespace Marekvs

open List Desc TopN Finset OrderDual

variable {s : Slot} {slots a : List Slot} {n : NodeId}

def slotKey (s : Slot) : NodeIdᵒᵈ := OrderDual.toDual s.node

/-- A node's totals, 0 where it has no slot. -/
def look (slots : List Slot) (n : NodeId) : UInt64 × UInt64 :=
  match slots.find? fun s => s.node = n with
  | some s => (s.pos, s.neg)
  | none => (0, 0)

/-- Slots in strictly ascending node order. -/
abbrev Asc (slots : List Slot) : Prop := Strict slotKey slots

abbrev nodesOf (slots : List Slot) : Finset NodeIdᵒᵈ := keys slotKey slots

theorem asc_cons : Asc (s :: slots) ↔ (∀ s' ∈ slots, s.node < s'.node) ∧ Asc slots :=
  pairwise_cons

theorem nodesOf_cons : nodesOf (s :: slots) = insert (OrderDual.toDual s.node) (nodesOf slots) := keys_cons s slots

theorem look_cons : look (s :: slots) n = if s.node = n then (s.pos, s.neg) else look slots n := by
  unfold look
  rw [find?_cons]
  by_cases h : s.node = n <;> simp [h]

theorem look_eq_zero (h : ∀ s ∈ slots, s.node ≠ n) : look slots n = (0, 0) := by
  induction slots with
  | nil => rfl
  | cons s slots ih =>
    rw [look_cons, if_neg (h s mem_cons_self), ih fun s' hs' => h s' (mem_cons_of_mem _ hs')]

theorem mem_nodesOf : OrderDual.toDual n ∈ nodesOf slots ↔ ∃ s ∈ slots, s.node = n :=
  mem_keys

theorem look_of_not_mem (h : OrderDual.toDual n ∉ nodesOf slots) : look slots n = (0, 0) :=
  look_eq_zero fun s hs hn => h (mem_nodesOf.2 ⟨s, hs, hn⟩)

theorem look_of_mem (h : Asc slots) (hs : s ∈ slots) : look slots s.node = (s.pos, s.neg) := by
  induction slots with
  | nil => cases hs
  | cons t slots ih =>
    obtain ⟨hlt, hasc⟩ := asc_cons.1 h
    rw [look_cons]
    rcases mem_cons.1 hs with rfl | hs
    · rw [if_pos rfl]
    · rw [if_neg (hlt s hs).ne, ih hasc hs]

/-- Ascending slots are determined by their nodes and totals. -/
theorem asc_ext (ha : Asc a) (hb : Asc b) (hn : nodesOf a = nodesOf b)
    (hl : ∀ n, OrderDual.toDual n ∈ nodesOf a → look a n = look b n) : a = b := by
  refine ha.ext_keys hb hn fun s hs t ht hst => ?_
  have hnode : s.node = t.node := hst
  have := hl s.node (mem_nodesOf.2 ⟨s, hs, rfl⟩)
  rw [look_of_mem ha hs, hnode, look_of_mem hb ht] at this
  cases s
  cases t
  simp only [Prod.mk.injEq] at this
  simp only [Slot.mk.injEq]
  exact ⟨hnode, this.1, this.2⟩

/-! ## Joining slots -/

section

variable {n : NodeId} {f : Slot → Slot} (hf : ∀ s, (f s).node = s.node)

include hf

theorem nodes_upsert (slots : List Slot) : nodesOf (upsert n f slots) = insert (OrderDual.toDual n) (nodesOf slots) := by
  induction slots with
  | nil => simp [upsert, slotKey, hf]
  | cons s slots ih =>
    rw [upsert]
    split
    · rename_i h
      rw [nodesOf_cons, nodesOf_cons, hf, h, insert_idem]
    · split
      · rw [nodesOf_cons, hf]
      · rw [nodesOf_cons, ih, nodesOf_cons, insert_comm]

theorem mem_upsert_node (h : s ∈ upsert n f slots) : s.node = n ∨ ∃ t ∈ slots, s.node = t.node := by
  have hmem : toDual s.node ∈ nodesOf (upsert n f slots) := mem_nodesOf.2 ⟨s, h, rfl⟩
  rw [nodes_upsert hf, mem_insert] at hmem
  rcases hmem with h | h
  · exact .inl h
  · obtain ⟨t, ht, hts⟩ := mem_nodesOf.1 h
    exact .inr ⟨t, ht, hts.symm⟩

theorem asc_upsert (h : Asc slots) : Asc (upsert n f slots) := by
  induction slots with
  | nil => exact pairwise_singleton _ _
  | cons s slots ih =>
    obtain ⟨hlt, hasc⟩ := asc_cons.1 h
    rw [upsert]
    split
    · exact asc_cons.2 ⟨fun t ht => by rw [hf]; exact hlt t ht, hasc⟩
    split
    · rename_i hns
      refine asc_cons.2 ⟨fun t ht => ?_, h⟩
      rw [hf]
      rcases mem_cons.1 ht with rfl | ht
      · exact hns
      · exact hns.trans (hlt t ht)
    · rename_i hne hns
      have hsn : s.node < n := lt_of_le_of_ne (not_lt.1 hns) (Ne.symm hne)
      refine asc_cons.2 ⟨fun t ht => ?_, ih hasc⟩
      rcases mem_upsert_node hf ht with h | ⟨t', ht', h⟩
      · rwa [h]
      · rw [h]
        exact hlt t' ht'

theorem look_upsert_of_ne (hm : m ≠ n) (slots : List Slot) : look (upsert n f slots) m = look slots m := by
  induction slots with
  | nil => rw [upsert, look_cons, if_neg (by rw [hf]; exact hm.symm)]
  | cons s slots ih =>
    rw [upsert]
    split
    · rename_i h
      rw [look_cons, look_cons, hf, if_neg (by rw [← h]; exact hm.symm), if_neg (by rw [← h]; exact hm.symm)]
    · split
      · rw [look_cons, if_neg (by rw [hf]; exact hm.symm)]
      · rw [look_cons, look_cons, ih]

end

@[simp] theorem maxSlot_node (o s : Slot) : (CounterState.maxSlot o s).node = s.node := rfl

/-- The pointwise maximum of two nodes' totals. -/
def maxPair (a b : UInt64 × UInt64) : UInt64 × UInt64 := (max a.1 b.1, max a.2 b.2)

theorem look_upsert_self (h : Asc slots) (o : Slot) :
    look (upsert o.node (CounterState.maxSlot o) slots) o.node = maxPair (look slots o.node) (o.pos, o.neg) := by
  induction slots with
  | nil => simp [upsert, look, CounterState.maxSlot, maxPair]
  | cons s slots ih =>
    obtain ⟨hlt, hasc⟩ := asc_cons.1 h
    rw [upsert]
    split
    · rename_i hs
      rw [look_cons, look_cons, maxSlot_node, if_pos hs.symm, if_pos hs.symm]
      rfl
    · rename_i hs
      split
      · rename_i hlt'
        rw [look_cons, if_pos (maxSlot_node o _), look_eq_zero]
        · rfl
        intro t ht
        rcases mem_cons.1 ht with rfl | ht
        · exact hlt'.ne'
        · exact (hlt'.trans (hlt t ht)).ne'
      · rw [look_cons, look_cons, if_neg (Ne.symm hs), if_neg (Ne.symm hs), ih hasc]

/-- The slots of `b` joined into those of `a`, without the cut. -/
def unionSlots (a b : List Slot) : List Slot := b.foldl (fun acc o => upsert o.node (CounterState.maxSlot o) acc) a

theorem unionSlots_cons : unionSlots a (o :: b) = unionSlots (upsert o.node (CounterState.maxSlot o) a) b := rfl

theorem asc_unionSlots (ha : Asc a) (b : List Slot) : Asc (unionSlots a b) := by
  induction b generalizing a with
  | nil => exact ha
  | cons o b ih => exact ih (asc_upsert (maxSlot_node o) ha)

theorem nodes_unionSlots (a b : List Slot) : nodesOf (unionSlots a b) = nodesOf a ∪ nodesOf b := by
  induction b generalizing a with
  | nil => simp [unionSlots]
  | cons o b ih =>
    rw [unionSlots_cons, ih, nodes_upsert (maxSlot_node o), nodesOf_cons, insert_union, union_insert]

theorem maxPair_zero (p : UInt64 × UInt64) : maxPair p (0, 0) = p := by
  simp [maxPair]

theorem maxPair_comm : maxPair p q = maxPair q p := by
  simp only [maxPair, max_comm]

theorem maxPair_assoc : maxPair (maxPair p q) r = maxPair p (maxPair q r) := by
  simp only [maxPair, max_assoc]

theorem look_unionSlots (ha : Asc a) (hb : Asc b) (n : NodeId) : look (unionSlots a b) n = maxPair (look a n) (look b n) := by
  induction b generalizing a with
  | nil => exact (maxPair_zero _).symm
  | cons o b ih =>
    obtain ⟨hlt, hb'⟩ := asc_cons.1 hb
    rw [unionSlots_cons, ih (asc_upsert (maxSlot_node o) ha) hb', look_cons]
    by_cases hn : o.node = n
    · subst hn
      rw [look_upsert_self ha, if_pos rfl, look_eq_zero fun t ht => (hlt t ht).ne', maxPair_zero]
    · rw [look_upsert_of_ne (maxSlot_node o) (Ne.symm hn), if_neg hn]

theorem look_take (ha : Asc a) (hn : OrderDual.toDual n ∈ nodesOf (a.take k)) : look (a.take k) n = look a n := by
  obtain ⟨s, hs, rfl⟩ := mem_nodesOf.1 hn
  rw [look_of_mem (ha.take k) hs, look_of_mem ha (mem_of_mem_take hs)]

/-! ## The merge -/

namespace CounterState

/-- Slots in ascending node order, within the cap. -/
structure Canonical (c : CounterState) : Prop where
  asc : Asc c.slots
  le : c.slots.length ≤ MAX_SLOTS

variable {a b c : CounterState}

theorem joinSlots_slots (a b : CounterState) : (a.joinSlots b).slots = (unionSlots a.slots b.slots).take MAX_SLOTS := rfl

theorem Canonical.joinSlots (ha : a.Canonical) (b : CounterState) : (a.joinSlots b).Canonical :=
  ⟨(asc_unionSlots ha.asc _).take _, length_take_le _ _⟩

theorem Canonical.merge (ha : a.Canonical) (hb : b.Canonical) : (a.merge b).Canonical := by
  unfold CounterState.merge
  split
  · exact ha
  · split
    · exact hb
    · exact ha.joinSlots b

theorem nodes_joinSlots (ha : a.Canonical) :
    nodesOf (a.joinSlots b).slots = top MAX_SLOTS (nodesOf a.slots ∪ nodesOf b.slots) := by
  rw [joinSlots_slots, nodesOf, (asc_unionSlots ha.asc _).keys_take]
  exact congrArg _ (nodes_unionSlots _ _)

theorem look_joinSlots (ha : a.Canonical) (hb : b.Canonical) (hn : OrderDual.toDual n ∈ nodesOf (a.joinSlots b).slots) :
    look (a.joinSlots b).slots n = maxPair (look a.slots n) (look b.slots n) := by
  rw [joinSlots_slots] at hn ⊢
  rw [look_take (asc_unionSlots ha.asc _) hn, look_unionSlots ha.asc hb.asc]

/-- Of the nodes that survive a later cut, the joined totals are the maximum whether or not the join has a slot for them. -/
theorem look_joinSlots_of_top (ha : a.Canonical) (hb : b.Canonical)
    (hn : OrderDual.toDual n ∈ top MAX_SLOTS (nodesOf a.slots ∪ nodesOf b.slots ∪ T)) :
    look (a.joinSlots b).slots n = maxPair (look a.slots n) (look b.slots n) := by
  by_cases hmem : toDual n ∈ nodesOf a.slots ∪ nodesOf b.slots
  · refine look_joinSlots ha hb ?_
    rw [nodes_joinSlots ha]
    exact mem_top_of_subset subset_union_left hmem hn
  · have hnot : toDual n ∉ nodesOf (a.joinSlots b).slots := by
      rw [nodes_joinSlots ha]
      exact fun h => hmem (top_subset _ _ h)
    rw [mem_union, not_or] at hmem
    rw [look_of_not_mem hnot, look_of_not_mem hmem.1, look_of_not_mem hmem.2]
    rfl

theorem joinSlots_slots_comm (ha : a.Canonical) (hb : b.Canonical) : (a.joinSlots b).slots = (b.joinSlots a).slots := by
  refine asc_ext (ha.joinSlots b).asc (hb.joinSlots a).asc ?_ fun n hn => ?_
  · rw [nodes_joinSlots ha, nodes_joinSlots hb, union_comm]
  have hn' : toDual n ∈ nodesOf (b.joinSlots a).slots := by
    rw [nodes_joinSlots hb, union_comm, ← nodes_joinSlots ha]
    exact hn
  rw [look_joinSlots ha hb hn, look_joinSlots hb ha hn', maxPair_comm]

theorem joinSlots_slots_assoc (ha : a.Canonical) (hb : b.Canonical) (hc : c.Canonical) :
    ((a.joinSlots b).joinSlots c).slots = (a.joinSlots (b.joinSlots c)).slots := by
  have hab := ha.joinSlots b
  have hbc := hb.joinSlots c
  have hleft : nodesOf ((a.joinSlots b).joinSlots c).slots =
      top MAX_SLOTS (nodesOf a.slots ∪ nodesOf b.slots ∪ nodesOf c.slots) := by
    rw [nodes_joinSlots hab, nodes_joinSlots ha, top_union_top]
  have hright : nodesOf (a.joinSlots (b.joinSlots c)).slots =
      top MAX_SLOTS (nodesOf b.slots ∪ nodesOf c.slots ∪ nodesOf a.slots) := by
    rw [nodes_joinSlots ha, nodes_joinSlots hb, union_comm, top_union_top]
  have hsame : nodesOf b.slots ∪ nodesOf c.slots ∪ nodesOf a.slots = nodesOf a.slots ∪ nodesOf b.slots ∪ nodesOf c.slots := by
    rw [union_comm, union_assoc]
  refine asc_ext (hab.joinSlots c).asc (ha.joinSlots _).asc (by rw [hleft, hright, hsame]) fun n hn => ?_
  have hn' : toDual n ∈ nodesOf (a.joinSlots (b.joinSlots c)).slots := by
    rw [hright, hsame, ← hleft]
    exact hn
  rw [look_joinSlots hab hc hn, look_joinSlots ha hbc hn', look_joinSlots_of_top ha hb (hleft ▸ hn),
    look_joinSlots_of_top hb hc (hright ▸ hn'), maxPair_assoc]

theorem joinSlots_self (ha : a.Canonical) : (a.joinSlots a).slots = a.slots := by
  have hnodes : nodesOf (a.joinSlots a).slots = nodesOf a.slots := by
    rw [nodes_joinSlots ha, union_self]
    refine top_eq_self ?_
    rw [nodesOf, ha.asc.card_keys]
    exact ha.le
  refine asc_ext (ha.joinSlots a).asc ha.asc hnodes fun n hn => ?_
  rw [look_joinSlots ha ha hn]
  simp [maxPair]

theorem ext_base (hv : a.baseVersion = b.baseVersion) (hb : a.base = b.base) (hs : a.slots = b.slots) : a = b := by
  cases a
  cases b
  simp only [baseVersion, Dot.mk.injEq] at hv
  simp only [mk.injEq]
  exact ⟨hv.1, hv.2, hb, hs⟩

theorem merge_of_lt (h : a.baseVersion < b.baseVersion) : a.merge b = b := by
  rw [merge, if_neg h.asymm, if_pos h]

theorem merge_of_gt (h : b.baseVersion < a.baseVersion) : a.merge b = a := by rw [merge, if_pos h]

theorem merge_of_eq (h : a.baseVersion = b.baseVersion) : a.merge b = a.joinSlots b := by
  rw [merge, if_neg (by rw [h]; exact lt_irrefl _), if_neg (by rw [h]; exact lt_irrefl _)]

theorem merge_base (a b : CounterState) :
    ((a.merge b).baseVersion = a.baseVersion ∧ (a.merge b).base = a.base) ∨
      (a.merge b).baseVersion = b.baseVersion ∧ (a.merge b).base = b.base := by
  rcases lt_trichotomy a.baseVersion b.baseVersion with h | h | h
  · exact .inr (by rw [merge_of_lt h]; exact ⟨rfl, rfl⟩)
  · exact .inl (by rw [merge_of_eq h]; exact ⟨rfl, rfl⟩)
  · exact .inl (by rw [merge_of_gt h]; exact ⟨rfl, rfl⟩)

theorem merge_self (ha : a.Canonical) : a.merge a = a := by
  rw [merge_of_eq rfl]
  exact ext_base rfl rfl (joinSlots_self ha)

/-- The two counters have the same base value where they are on the same base. -/
def SameBase (a b : CounterState) : Prop := a.baseVersion = b.baseVersion → a.base = b.base

theorem merge_comm (ha : a.Canonical) (hb : b.Canonical) (hab : a.SameBase b) : a.merge b = b.merge a := by
  rcases lt_trichotomy a.baseVersion b.baseVersion with h | h | h
  · rw [merge_of_lt h, merge_of_gt h]
  · rw [merge_of_eq h, merge_of_eq h.symm]
    exact ext_base h (hab h) (joinSlots_slots_comm ha hb)
  · rw [merge_of_gt h, merge_of_lt h]

theorem merge_assoc (ha : a.Canonical) (hb : b.Canonical) (hc : c.Canonical) : (a.merge b).merge c = a.merge (b.merge c) := by
  rcases lt_trichotomy a.baseVersion b.baseVersion with hab | hab | hab <;>
    rcases lt_trichotomy b.baseVersion c.baseVersion with hbc | hbc | hbc
  · rw [merge_of_lt hab, merge_of_lt hbc, merge_of_lt (hab.trans hbc)]
  · rw [merge_of_lt hab, merge_of_eq hbc]
    exact (merge_of_lt (b := b.joinSlots c) hab).symm
  · rw [merge_of_lt hab, merge_of_gt hbc, merge_of_lt hab]
  · rw [merge_of_eq hab, merge_of_lt hbc, merge_of_lt (a := a) (hab ▸ hbc)]
    exact merge_of_lt (a := a.joinSlots b) (hab.trans_lt hbc)
  · rw [merge_of_eq hab, merge_of_eq hbc]
    rw [merge_of_eq (show (a.joinSlots b).baseVersion = c.baseVersion from hab.trans hbc),
      merge_of_eq (show a.baseVersion = (b.joinSlots c).baseVersion from hab)]
    exact ext_base rfl rfl (joinSlots_slots_assoc ha hb hc)
  · rw [merge_of_gt hbc, merge_of_eq hab]
    exact merge_of_gt (hab.symm ▸ hbc)
  · rw [merge_of_gt hab, merge_of_lt hbc]
  · rw [merge_of_gt hab, merge_of_eq hbc, merge_of_gt (hbc ▸ hab)]
    exact (merge_of_gt (b := b.joinSlots c) hab).symm
  · rw [merge_of_gt hab, merge_of_gt hbc, merge_of_gt (hbc.trans hab), merge_of_gt hab]

/-! ## The order of counters -/

/-- `b` holds everything `a` does. -/
def Below (a b : CounterState) : Prop := a.merge b = b

theorem Below.trans (ha : a.Canonical) (hb : b.Canonical) (hc : c.Canonical) (hab : a.Below b) (hbc : b.Below c) :
    a.Below c := by
  unfold Below at *
  rw [← hbc, ← merge_assoc ha hb hc, hab]

theorem Below.refl (ha : a.Canonical) : a.Below a := merge_self ha

theorem Below.antisymm (ha : a.Canonical) (hb : b.Canonical) (hsame : a.SameBase b) (hab : a.Below b) (hba : b.Below a) :
    a = b := by
  unfold Below at *
  rw [← hba, ← merge_comm ha hb hsame, hab]

theorem below_merge_left (ha : a.Canonical) (hb : b.Canonical) : a.Below (a.merge b) := by
  rw [Below, ← merge_assoc ha ha hb, merge_self ha]

theorem below_merge_right (ha : a.Canonical) (hb : b.Canonical) (hab : a.SameBase b) : b.Below (a.merge b) := by
  rw [merge_comm ha hb hab]
  exact below_merge_left hb ha

theorem merge_below (ha : a.Canonical) (hb : b.Canonical) (hc : c.Canonical) (hac : a.Below c) (hbc : b.Below c) :
    (a.merge b).Below c := by
  unfold Below at *
  rw [merge_assoc ha hb hc, hbc, hac]

end CounterState

end Marekvs
