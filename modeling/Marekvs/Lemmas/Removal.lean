import Marekvs.Engine.Element
import Marekvs.Lemmas.ElementJoin

/-!
# Removing an element

A remove covers the live dots of the record that it sees. After the merge the record keeps the newest of the dots that are
covered, as many as it has room for: a live dot that is too old to be among them is live again (`live_join_remover_eq_nil_iff`).
-/

namespace Marekvs

open Desc TopN ElementState Finset

/-- Covering all live dots leaves none: fewer dots than a record has room for are newer than any of them. -/
def ElementState.CanClear (st : ElementState) : Prop :=
  ∀ d ∈ st.dots, ((st.covered ++ st.dots).filter (d < ·)).length < MAX_TOMB_DOTS

instance (st : ElementState) : Decidable st.CanClear := inferInstanceAs (Decidable (∀ _ ∈ _, _))

namespace ElementRecord

variable {r : ElementRecord} {t : RecordType}

theorem live_ne_nil_of_visible (h : visible r.envelope delHlc now = true) : r.state.live ≠ [] := by
  intro hnil
  have htomb := r.isTombstone_iff.2 hnil
  simp [visible, htomb] at h

theorem value_isSome_of_visible (h : visible r.envelope delHlc now = true) : r.state.value.isSome = true := by
  obtain ⟨e, rest, hlive⟩ := List.exists_cons_of_ne_nil (live_ne_nil_of_visible h)
  simp [value, hlive]

theorem readLww_encode (r : ElementRecord) (delHlc now : UInt64) :
    readLww (some r.encode) delHlc now = if visible r.envelope delHlc now then some (r.envelope, r.state.encode) else none := by
  simp only [readLww, Option.bind_some, decode_encode]

theorem readElement_encode (r : ElementRecord) :
    readElement (some r.encode) delHlc now = if visible r.envelope delHlc now then some r.state.encode else none := by
  rw [readElement, readLww_encode]
  by_cases hvis : visible r.envelope delHlc now = true
  · have hval : (elementValue r.state.encode).isSome = true := by
      rw [elementValue, decode_state_encode]
      exact value_isSome_of_visible hvis
    simp only [hvis, if_true, hval]
  · simp only [hvis]
    rfl

/-- The record of a remove that sees `r`. -/
def remover (r : ElementRecord) (ht : Plain t) (version : Version) : ElementRecord :=
  ofState t version 0 ⟨[], r.state.dots⟩ (by rcases ht with rfl | rfl | rfl <;> rfl) ht.ne_counterField
    (by simp [SmallValues])

theorem rtype_remover (r : ElementRecord) (ht : Plain t) (version : Version) : (r.remover ht version).rtype = t := rfl

theorem removal_encode (r : ElementRecord) (ht : Plain t) (hlc : UInt64) (node : NodeId) (delHlc now : UInt64) :
    removal t (some r.encode) hlc node delHlc now =
      if visible r.envelope delHlc now then some (r.remover ht ⟨hlc, node⟩).encode else none := by
  rw [removal, readElement_encode]
  by_cases hvis : visible r.envelope delHlc now = true
  · have hdots : elementDots r.state.encode = r.state.dots := by simp [elementDots]
    rw [if_pos hvis, if_pos hvis, Option.map_some, hdots]
    rfl
  · rw [if_neg hvis, if_neg hvis]
    rfl

theorem keys_dots (r : ElementRecord) : keys id r.state.dots = r.dots.live := by
  ext d
  simp [mem_keys, ElementState.dots, mem_dots_live]

theorem mem_dots_iff : d ∈ r.state.dots ↔ d ∈ r.dots.live := by
  rw [← keys_dots, mem_keys]
  simp

theorem card_dots_live_le (r : ElementRecord) : r.dots.live.card ≤ MAX_LIVE_DOTS := by
  show (keys Prod.fst r.state.live).card ≤ _
  rw [r.canonical.live_strict.card_keys]
  exact r.canonical.live_le

theorem dots_remover (r : ElementRecord) (ht : Plain t) (version : Version) : (r.remover ht version).dots = ⟨∅, r.dots.live⟩ := by
  have hcard : (keys id r.state.dots).card ≤ MAX_TOMB_DOTS := by
    rw [keys_dots]
    exact r.card_dots_live_le.trans (by decide)
  show (normalize ⟨[], r.state.dots⟩).toOrSet = _
  rw [toOrSet_normalize]
  refine OrSet.ext ?_ ?_
  · simp [toOrSet]
  · exact (top_eq_self hcard).trans r.keys_dots

theorem dots_live_eq_empty_iff (r : ElementRecord) : r.dots.live = ∅ ↔ r.state.live = [] := by
  constructor
  · intro h
    refine List.eq_nil_iff_forall_not_mem.2 fun e he => ?_
    have hmem : e.1 ∈ r.dots.live := mem_dots_live.2 ⟨e, he, rfl⟩
    rw [h] at hmem
    cases hmem
  · intro h
    refine eq_empty_of_forall_notMem fun d hd => ?_
    obtain ⟨e, he, -⟩ := mem_dots_live.1 hd
    rw [h] at he
    cases he

/-- What a remove leaves: the dots that do not stay covered. -/
theorem dots_join_remover (hr : r.rtype = t) (ht : Plain t) (version : Version) :
    (r.join (r.remover ht version)).dots =
      ⟨r.dots.live \ top MAX_TOMB_DOTS (r.dots.covered ∪ r.dots.live), top MAX_TOMB_DOTS (r.dots.covered ∪ r.dots.live)⟩ := by
  rw [dots_join ht hr (r.rtype_remover ht version), dots_remover]
  refine OrSet.ext ?_ rfl
  simp only [OrSet.join, OrSet.uncovered, OrSet.coveredOf, union_empty]
  exact top_eq_self ((card_le_card sdiff_subset).trans r.card_dots_live_le)

/-- How many of the dots that a record knows are newer than one of them. -/
theorem card_above (r : ElementRecord) :
    (above (r.dots.covered ∪ r.dots.live) d).card = ((r.state.covered ++ r.state.dots).filter (d < ·)).length := by
  have hnodup : (r.state.covered ++ r.state.dots).Nodup := by
    refine List.nodup_append.2 ⟨?_, r.canonical.live_strict.nodup_map, ?_⟩
    · have h := r.canonical.covered_strict.nodup_map
      rwa [List.map_id] at h
    · intro a ha b hb hab
      obtain ⟨e, he, hdot⟩ := List.mem_map.1 hb
      exact r.canonical.uncovered e he (by rw [hdot, ← hab]; exact ha)
  have hset : above (r.dots.covered ∪ r.dots.live) d = ((r.state.covered ++ r.state.dots).filter (d < ·)).toFinset := by
    ext e
    rw [mem_above, mem_union, mem_dots_covered, List.mem_toFinset, List.mem_filter, List.mem_append, ← keys_dots, mem_keys]
    simp
  rw [hset, List.toFinset_card_of_nodup (hnodup.filter _)]

/-- A live dot stays covered exactly if the record has room for it. -/
theorem mem_top_iff (hd : d ∈ r.state.dots) :
    d ∈ top MAX_TOMB_DOTS (r.dots.covered ∪ r.dots.live) ↔
      ((r.state.covered ++ r.state.dots).filter (d < ·)).length < MAX_TOMB_DOTS := by
  rw [mem_top, card_above]
  exact and_iff_right (mem_union_right _ (mem_dots_iff.1 hd))

theorem live_join_remover_eq_nil_iff (hr : r.rtype = t) (ht : Plain t) (version : Version) :
    (r.join (r.remover ht version)).state.live = [] ↔ r.state.CanClear := by
  rw [← dots_live_eq_empty_iff, dots_join_remover hr ht, sdiff_eq_empty_iff_subset]
  constructor
  · intro h d hd
    exact (mem_top_iff hd).1 (h (mem_dots_iff.1 hd))
  · intro h d hd
    exact (mem_top_iff (mem_dots_iff.2 hd)).2 (h d (mem_dots_iff.2 hd))

/-- What did not stay covered does not stay covered the next time either. -/
theorem not_canClear_join_remover (hr : r.rtype = t) (ht : Plain t) (version : Version) (h : ¬r.state.CanClear) :
    ¬(r.join (r.remover ht version)).state.CanClear := by
  intro hclear
  obtain ⟨d, hd, hroom⟩ : ∃ d ∈ r.state.dots, ¬((r.state.covered ++ r.state.dots).filter (d < ·)).length < MAX_TOMB_DOTS := by
    by_contra hall
    push Not at hall
    exact h hall
  have hout : d ∉ top MAX_TOMB_DOTS (r.dots.covered ∪ r.dots.live) := fun hin => hroom ((mem_top_iff hd).1 hin)
  have hdots := dots_join_remover hr ht version
  have hlive : d ∈ (r.join (r.remover ht version)).state.dots := by
    rw [mem_dots_iff, hdots]
    exact mem_sdiff.2 ⟨mem_dots_iff.1 hd, hout⟩
  -- all dots that stay covered are newer than the one that does not
  have hnewer : top MAX_TOMB_DOTS (r.dots.covered ∪ r.dots.live) ⊆
      above ((r.join (r.remover ht version)).dots.covered ∪ (r.join (r.remover ht version)).dots.live) d := by
    intro e he
    rw [hdots, mem_above]
    refine ⟨Finset.mem_union_left _ he, not_le.1 fun hle => hout ?_⟩
    exact mem_top_of_le he (mem_union_right _ (mem_dots_iff.1 hd)) hle
  have hfull : (top MAX_TOMB_DOTS (r.dots.covered ∪ r.dots.live)).card = MAX_TOMB_DOTS := by
    rw [card_top, min_eq_left]
    rw [← card_above, not_lt] at hroom
    exact hroom.trans (card_le_card (filter_subset _ _))
  have hlt := hclear d hlive
  rw [← card_above] at hlt
  exact absurd (hfull ▸ card_le_card hnewer) (not_le.2 hlt)

end ElementRecord

end Marekvs
