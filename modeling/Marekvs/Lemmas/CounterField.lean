import Marekvs.Engine.Element
import Marekvs.Lemmas.ElementJoin
import Marekvs.Lib.Newest

/-!
# Counter fields: entries, folds and joins

An increment publishes the node's own totals on a fresh dot (`entryState`). The counter a reader folds from a live list has
exactly the slots of its entries (`foldCounters_entries`). Merging two counter-field records keeps the newest entry of each
node, as long as the cut to four live dots holds all of them (`dots_join_counterField`).
-/

namespace Marekvs

open Desc TopN Newest ElementState ElementRecord Finset

/-! ## One entry for each origin -/

/-- Collapsing a strictly descending list keeps the newest dot of each origin not seen before. -/
theorem keys_collapseFrom (seen : List NodeId) {live : List (Dot × Bytes)} (h : Strict Prod.fst live) :
    keys Prod.fst (collapseFrom seen live) =
      (newest Dot.origin (keys Prod.fst live)).filter fun d => d.origin ∉ seen := by
  induction live generalizing seen with
  | nil => rfl
  | cons e live ih =>
    obtain ⟨he, hlive⟩ := List.pairwise_cons.1 h
    have hmax : ∀ d ∈ keys Prod.fst live, d < e.1 := by
      intro d hd
      obtain ⟨e', he', rfl⟩ := mem_keys.1 hd
      exact he e' he'
    rw [collapseFrom, keys_cons, newest_insert_max hmax]
    split
    · rename_i hseen
      rw [ih seen hlive, filter_insert, if_neg (by simpa using hseen), filter_filter]
      refine filter_congr fun d _ => ⟨fun hd => ⟨fun heq => hd (heq ▸ hseen), hd⟩, fun hd => hd.2⟩
    · rename_i hseen
      rw [keys_cons, ih _ hlive, filter_insert, if_pos hseen, filter_filter]
      congr 1
      refine filter_congr fun d _ => ?_
      simp [List.mem_cons, not_or]

theorem toOrSet_collapse {st : ElementState} (h : Strict Prod.fst st.live) :
    st.collapsePerOrigin.toOrSet = ⟨newest Dot.origin st.toOrSet.live, st.toOrSet.covered⟩ := by
  refine OrSet.ext ?_ rfl
  show keys Prod.fst (collapseFrom [] st.live) = _
  rw [keys_collapseFrom [] h]
  simp [toOrSet]

/-- A normalised and collapsed list without covered dots holds the newest dot of each origin, where the cut keeps them. -/
theorem toOrSet_collapse_normalize (live : List (Dot × Bytes)) (h : KeepsNewest Dot.origin MAX_LIVE_DOTS (keys Prod.fst live)) :
    (ElementState.normalize ⟨live, []⟩).collapsePerOrigin.toOrSet = ⟨newest Dot.origin (keys Prod.fst live), ∅⟩ := by
  rw [toOrSet_collapse (normalize_canonical _).live_strict, toOrSet_normalize]
  refine OrSet.ext ?_ rfl
  simp only [toOrSet, keys_nil, top_empty, sdiff_empty]
  exact h.newest_top

/-- The merge of two counter-field records without covered dots holds each origin's newest dot, where the cut keeps them. -/
theorem dots_join_counterField {r s : ElementRecord} (hr : r.rtype = .counterField) (hs : s.rtype = .counterField)
    (hrc : r.state.covered = []) (hsc : s.state.covered = [])
    (hkeep : KeepsNewest Dot.origin MAX_LIVE_DOTS (r.dots.live ∪ s.dots.live)) :
    (r.join s).dots = ⟨newest Dot.origin (r.dots.live ∪ s.dots.live), ∅⟩ ∧ (r.join s).state.covered = [] := by
  have hstate : (r.join s).state = (ElementState.normalize ⟨r.state.live ++ s.state.live, []⟩).collapsePerOrigin := by
    show joinStates (maxType r.rtype s.rtype) r.state s.state = _
    rw [hr, hs, maxType_self, joinStates, if_pos rfl, hrc, hsc, List.append_nil]
  have hkeys : keys Prod.fst (r.state.live ++ s.state.live) = r.dots.live ∪ s.dots.live := keys_append _ _
  refine ⟨?_, by rw [hstate]; rfl⟩
  show (r.join s).state.toOrSet = _
  rw [hstate, toOrSet_collapse_normalize _ (by rw [hkeys]; exact hkeep), hkeys]

/-! ## The counter of a field -/

/-- What a node publishes: its own totals, on the base every absent field starts from. -/
def entryState (s : Slot) : CounterState := ⟨0, 0, 0, [s]⟩

theorem asCounter_encode (hne : c.slots ≠ []) (hlen : c.slots.length ≤ MAX_SLOTS) : asCounter c.encode = some c := by
  rw [asCounter, CounterState.decode_encode hlen]
  simp [hne]

theorem asCounter_entry (s : Slot) : asCounter (entryState s).encode = some (entryState s) :=
  asCounter_encode (List.cons_ne_nil _ _) (show 1 ≤ 255 by decide)

/-- A node without a slot gets a fresh one, somewhere. -/
theorem upsert_perm_of_not_mem (f : Slot → Slot) (h : ∀ s ∈ slots, s.node ≠ n) :
    (upsert n f slots).Perm (f ⟨n, 0, 0⟩ :: slots) := by
  induction slots with
  | nil => exact List.Perm.refl _
  | cons s slots ih =>
    rw [upsert, if_neg (h s List.mem_cons_self).symm]
    split
    · exact List.Perm.refl _
    · exact ((ih fun s' hs' => h s' (List.mem_cons_of_mem _ hs')).cons s).trans (List.Perm.swap _ _ _)

/-- Merging a one-slot counter on the same base into one without that slot adds the slot. -/
theorem merge_entry (hbase : c.baseVersion = ⟨0, 0⟩) (hn : ∀ s' ∈ c.slots, s'.node ≠ s.node)
    (hlen : c.slots.length < MAX_SLOTS) :
    ∃ slots, CounterState.merge c (entryState s) = { c with slots := slots } ∧ slots.Perm (s :: c.slots) := by
  have hperm := upsert_perm_of_not_mem (CounterState.maxSlot s) hn
  have hslot : CounterState.maxSlot s ⟨s.node, 0, 0⟩ = s := by
    have hp : max 0 s.pos = s.pos := max_eq_right (UInt64.le_iff_toNat_le.2 (Nat.zero_le _))
    have hq : max 0 s.neg = s.neg := max_eq_right (UInt64.le_iff_toNat_le.2 (Nat.zero_le _))
    simp only [CounterState.maxSlot, hp, hq]
  rw [hslot] at hperm
  refine ⟨upsert s.node (CounterState.maxSlot s) c.slots, ?_, hperm⟩
  have hlt : ¬ c.baseVersion < (entryState s).baseVersion := by
    rw [hbase]
    exact lt_irrefl _
  have hgt : ¬ (entryState s).baseVersion < c.baseVersion := by
    rw [hbase]
    exact lt_irrefl _
  rw [CounterState.merge, if_neg hgt, if_neg hlt, CounterState.joinSlots]
  congr 1
  refine List.take_of_length_le ?_
  show (upsert s.node (CounterState.maxSlot s) c.slots).length ≤ _
  rw [hperm.length_eq]
  exact hlen

/-- The step of `foldCounters` over an entry. -/
def foldEntry (folded : Option CounterState) (e : Dot × Bytes) : Option CounterState :=
  match asCounter e.2 with
  | none => folded
  | some c =>
    match folded with
    | none => some c
    | some acc => some (CounterState.merge acc c)

theorem foldCounters_eq (live : List (Dot × Bytes)) : foldCounters live = live.foldl foldEntry none := rfl

/-- Folding entries of distinct nodes into a counter on their base adds their slots. -/
theorem foldl_entries {slotOf : Dot → Slot} (live : List (Dot × Bytes)) (c : CounterState)
    (hval : ∀ e ∈ live, e.2 = (entryState (slotOf e.1)).encode) (hnode : ∀ d, (slotOf d).node = d.origin)
    (hnd : (live.map fun e => e.1.origin).Nodup) (hc : ∀ s ∈ c.slots, ∀ e ∈ live, s.node ≠ e.1.origin)
    (hbase : c.baseVersion = ⟨0, 0⟩) (hlen : c.slots.length + live.length ≤ MAX_SLOTS) :
    ∃ slots, live.foldl foldEntry (some c) = some { c with slots := slots } ∧
      slots.Perm (live.map (fun e => slotOf e.1) ++ c.slots) := by
  induction live generalizing c with
  | nil => exact ⟨c.slots, rfl, List.Perm.refl _⟩
  | cons e live ih =>
    obtain ⟨hne, hnd'⟩ := List.nodup_cons.1 hnd
    have hcount : asCounter e.2 = some (entryState (slotOf e.1)) := by
      rw [hval e List.mem_cons_self]
      exact asCounter_entry _
    obtain ⟨slots, hmerge, hperm⟩ := merge_entry (s := slotOf e.1) hbase
      (fun s hs => by rw [hnode]; exact hc s hs e List.mem_cons_self) (by rw [List.length_cons] at hlen; omega)
    have hstep : foldEntry (some c) e = some { c with slots := slots } := by
      simp only [foldEntry, hcount, hmerge]
    obtain ⟨slots', hfold, hperm'⟩ := ih { c with slots := slots } (fun e' he' => hval e' (List.mem_cons_of_mem _ he')) hnd'
      (fun s hs e' he' => by
        rcases List.mem_cons.1 (hperm.mem_iff.1 hs) with rfl | hs
        · rw [hnode]
          exact fun heq => hne (List.mem_map.2 ⟨e', he', heq.symm⟩)
        · exact hc s hs e' (List.mem_cons_of_mem _ he')) hbase
      (by rw [show ({ c with slots := slots } : CounterState).slots = slots from rfl, hperm.length_eq, List.length_cons]
          rw [List.length_cons] at hlen
          omega)
    refine ⟨slots', by rw [List.foldl_cons, hstep, hfold], hperm'.trans ?_⟩
    rw [List.map_cons, List.cons_append]
    exact (List.Perm.append_left _ hperm).trans List.perm_middle

/-- The counter folded from entries of distinct nodes has exactly their slots. -/
theorem foldCounters_entries (slotOf : Dot → Slot) {live : List (Dot × Bytes)} (hne : live ≠ [])
    (hval : ∀ e ∈ live, e.2 = (entryState (slotOf e.1)).encode) (hnode : ∀ d, (slotOf d).node = d.origin)
    (hnd : (live.map fun e => e.1.origin).Nodup) (hlen : live.length ≤ MAX_SLOTS) :
    ∃ slots, foldCounters live = some ⟨0, 0, 0, slots⟩ ∧ slots.Perm (live.map fun e => slotOf e.1) := by
  obtain ⟨e, live, rfl⟩ := List.exists_cons_of_ne_nil hne
  obtain ⟨hne', hnd'⟩ := List.nodup_cons.1 hnd
  have hcount : asCounter e.2 = some (entryState (slotOf e.1)) := by
    rw [hval e List.mem_cons_self]
    exact asCounter_entry _
  have hstep : foldEntry none e = some (entryState (slotOf e.1)) := by simp only [foldEntry, hcount]
  obtain ⟨slots, hfold, hperm⟩ := foldl_entries live (entryState (slotOf e.1))
    (fun e' he' => hval e' (List.mem_cons_of_mem _ he')) hnode hnd'
    (fun s hs e' he' => by
      rw [List.mem_singleton.1 hs, hnode]
      exact fun heq => hne' (List.mem_map.2 ⟨e', he', heq.symm⟩)) rfl
    (by rw [List.length_cons] at hlen; show 1 + live.length ≤ _; omega)
  refine ⟨slots, by rw [foldCounters_eq, List.foldl_cons, hstep, hfold]; rfl, hperm.trans ?_⟩
  rw [List.map_cons]
  exact List.perm_append_singleton _ _

end Marekvs
