import Marekvs.Engine.ElementRun
import Marekvs.Lemmas.Removal
import Marekvs.Theorems.ElementMerge

/-!
# A removed element stays removed

A remove covers the dots it sees live. Whether an add that was merged earlier can come back depends on the caps: an add that
fell off the live list, or whose covering fell off the covered list, is no longer known to the record. Along a run in which the
removing node's merges were never cut, no record made of adds it had merged can bring the element back.
-/

namespace Marekvs

open Desc TopN ElementState ElementRecord ElementSys Finset

/-- An element without live dots is not there for any reader. -/
theorem memberExists_eq_false {r : ElementRecord} (h : r.dots.live = ∅) (delHlc now : UInt64) :
    memberExists (some r.encode) delHlc now = false := by
  have htomb := r.isTombstone_iff.2 (r.dots_live_eq_empty_iff.1 h)
  simp [memberExists, readElement, readLww, visible, htomb]

/-- A remove that happened saw a record, and its own record covers that record's live dots and adds none. -/
theorem removal_dots {k : ElementKind} {r : ElementRecord} {i : NodeId} {delHlc now : UInt64} {rm : Bytes}
    (h : removal k.rtype (some r.encode) hlc i delHlc now = some rm) : dotsOf rm = ⟨∅, r.dots.live⟩ := by
  rw [removal_encode r k.plain] at h
  split at h
  · cases h
    rw [dotsOf_encode, dots_remover]
  · cases h

/-- A remove without a cut leaves no live dot and covers every dot the node has merged. -/
theorem dotsOf_after_remove {s : ElementSys} (hinv : s.Inv k) {hlc delHlc now : UInt64} {after : Bytes}
    (hafter : k.remove (s.stored i) hlc i delHlc now = some after) (hclean : (s.step k (.remove i hlc delHlc now)).Clean i) :
    IsRecord k after ∧ (dotsOf after).live = ∅ ∧ ∀ d, s.Seen i d → d ∈ (dotsOf after).covered := by
  rw [k.remove_eq] at hafter
  obtain ⟨rm, hrm, rfl⟩ := Option.map_eq_some_iff.1 hafter
  rw [step, hrm, Clean, merge_log_self] at hclean
  have hcut := hclean _ List.mem_cons_self
  have hrec := isRecord_removal hrm
  refine ⟨isRecord_writeMerged (hinv.isRecord i) hrec, ?_⟩
  rw [dotsOf_writeMerged (hinv.isRecord i) hrec hcut]
  have hseen := hinv.seen i fun p hp => hclean p (List.mem_cons_of_mem _ hp)
  cases hst : s.stored i with
  | none =>
    rw [hst] at hrm
    cases hrm
  | some l =>
    obtain ⟨r, hr, rfl⟩ := hinv.isRecord i l hst
    rw [hst] at hrm hseen
    simp only [storedDots, dotsOf_encode] at hseen ⊢
    rw [removal_dots hrm]
    refine ⟨?_, fun d hd => ?_⟩
    · refine sdiff_eq_empty_iff_subset.2 fun d hd => ?_
      rw [union_empty] at hd
      exact Finset.mem_union_right _ hd
    · show d ∈ r.dots.covered ∪ r.dots.live
      rw [Finset.union_comm]
      exact hseen d hd

/-- Merging records that only add covered dots into a record without live dots leaves it without. -/
theorem foldl_dead {k : ElementKind} (rs : List ElementRecord) (hr : r.rtype = k.rtype)
    (hdead : r.dots.live = ∅) (hrs : ∀ s ∈ rs, s.rtype = k.rtype ∧ s.dots.live ⊆ r.dots.covered)
    (hcap : (r.dots.covered ∪ coveredDots rs).card ≤ MAX_TOMB_DOTS) : (rs.foldl join r).dots.live = ∅ := by
  induction rs generalizing r with
  | nil => exact hdead
  | cons s rs ih =>
    obtain ⟨hs, hsub⟩ := hrs s List.mem_cons_self
    have hcov : (r.dots.covered ∪ s.dots.covered) ∪ coveredDots rs = r.dots.covered ∪ coveredDots (s :: rs) :=
      union_assoc _ _ _
    have hcard : (r.dots.covered ∪ s.dots.covered).card ≤ MAX_TOMB_DOTS :=
      (Finset.card_le_card (hcov ▸ subset_union_left)).trans hcap
    have hlive : (r.dots.live ∪ s.dots.live) \ (r.dots.covered ∪ s.dots.covered) = ∅ := by
      rw [hdead, empty_union, sdiff_eq_empty_iff_subset]
      exact hsub.trans subset_union_left
    have hjoin : (r.join s).dots = r.dots.plainJoin s.dots := by
      rw [dots_join k.plain hr hs, OrSet.join_eq_plainJoin (by rw [hlive]; exact Nat.zero_le _) hcard]
    refine ih (join_rtype hr hs) (by rw [hjoin]; exact hlive) (fun s' hs' => ?_) ?_
    · obtain ⟨hs't, hs'sub⟩ := hrs s' (List.mem_cons_of_mem _ hs')
      rw [hjoin]
      exact ⟨hs't, hs'sub.trans subset_union_left⟩
    · rw [hjoin]
      show ((r.dots.covered ∪ s.dots.covered) ∪ coveredDots rs).card ≤ _
      rw [hcov]
      exact hcap

/-- In a run in which no merge into node `i`'s record, the remove included, had more dots to keep than the caps allow: after
node `i` removes the element while it is visible there, merging any records whose adds had all been merged into its record
before, and which cover at most 255 dots with it, leaves the element invisible. -/
theorem removed_element_stays_dead (k : ElementKind) (ops : List ElementOp) (i : NodeId) (hlc delHlc now : UInt64)
    (after : Bytes) (hrm : k.remove ((run k ops).stored i) hlc i delHlc now = some after)
    (hclean : ((run k ops).step k (.remove i hlc delHlc now)).Clean i)
    (rs : List ElementRecord) (hrs : ∀ r ∈ rs, r.rtype = k.rtype ∧ ∀ d ∈ r.dots.live, (run k ops).Seen i d)
    (hcap : ((dotsOf after).covered ∪ coveredDots rs).card ≤ MAX_TOMB_DOTS) (delHlc' now' : UInt64) :
    memberExists (some (rs.foldl (fun b r => mergeResolve b r.encode) after)) delHlc' now' = false := by
  obtain ⟨⟨r, hr, rfl⟩, hdead, hcov⟩ := dotsOf_after_remove (inv_run k ops) hrm hclean
  rw [dotsOf_encode] at hdead hcov hcap
  rw [foldl_mergeResolve_encode]
  refine memberExists_eq_false (foldl_dead rs hr hdead (fun s hs => ?_) hcap) delHlc' now'
  exact ⟨(hrs s hs).1, fun d hd => hcov d ((hrs s hs).2 d hd)⟩

/-- Node 1 adds, node 2 receives the add and adds again, node 1 receives that and removes. -/
def addReceiveRemove : List ElementOp :=
  [.add 1 10 ⟨[], by decide⟩, .deliver 2 0, .add 2 20 ⟨[], by decide⟩, .deliver 1 0]

/-- The two adds, delivered again after the remove, do not bring the member back. -/
theorem removed_element_stays_dead_two_adds :
    ∃ after, ElementKind.member.remove ((run .member addReceiveRemove).stored 1) 30 1 0 100 = some after ∧
      memberExists (some ([memberRecord ⟨20, 2⟩ [⟨20, 2⟩, ⟨10, 1⟩] []].foldl (fun b r => mergeResolve b r.encode) after))
        0 100 = false :=
  ⟨_, rfl, removed_element_stays_dead .member addReceiveRemove 1 30 0 100 _ rfl (by decide)
    [memberRecord ⟨20, 2⟩ [⟨20, 2⟩, ⟨10, 1⟩] []] (by
      intro r hr
      obtain rfl := List.mem_singleton.1 hr
      exact ⟨rfl, by decide⟩) (by decide) 0 100⟩

/-- Node 1 adds the member five times, one record after the first add reaching node 2. -/
def fiveAdds : List ElementOp :=
  [.add 1 10 ⟨[], by decide⟩, .deliver 2 0, .add 1 20 ⟨[], by decide⟩, .add 1 30 ⟨[], by decide⟩, .add 1 40 ⟨[], by decide⟩,
    .add 1 50 ⟨[], by decide⟩]

/-- Node 1 adds the member five times and removes it; the record node 2 got after the first add, merged again, makes the
member visible: the fifth add had pushed the first dot off the live list, and the remove did not cover it. -/
theorem removed_element_comes_back :
    ∃ after old, ElementKind.member.remove ((run .member fiveAdds).stored 1) 60 1 0 100 = some after ∧
      (run .member fiveAdds).stored 2 = some old ∧ (∀ d ∈ (dotsOf old).live, (run .member fiveAdds).Seen 1 d) ∧
      memberExists (some after) 0 100 = false ∧ memberExists (some (mergeResolve after old)) 0 100 = true := by
  refine ⟨_, _, rfl, rfl, ?_, ?_, ?_⟩ <;> decide

end Marekvs
