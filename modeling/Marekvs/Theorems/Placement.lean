import Marekvs.Cluster.Placement
import Marekvs.Lib.Spread

/-!
# The owners of a partition

The two passes over the candidates take what `Spread.pick` takes from them. So there are as many owners as there can be, whatever
the order of the candidates, they cover as many zones as they can, and a node that joins drives out at most one.
-/

namespace Marekvs

open List Desc Spread Candidate

def rank (xxh3 : Bytes → UInt64) (pid : Pid) (c : Candidate) : Nat ×ₗ Nat := toLex ((score xxh3 c.node pid).toNat, c.node.toNat)

/-- The zone of a candidate as far as it counts. -/
def spreadZone (zoneSpread : Bool) (c : Candidate) : Option String := if zoneSpread then c.zone else none

variable (xxh3 : Bytes → UInt64) {candidates : List Candidate} (pid : Pid)

theorem rank_injective (h : rank xxh3 pid c = rank xxh3 pid d) : c.node = d.node :=
  UInt16.toNat_inj.1 (Prod.mk.inj (toLex_inj.1 h)).2

theorem scored_perm (candidates : List Candidate) : (scored xxh3 candidates pid).Perm candidates := sortDesc_perm _

section Distinct

variable (hd : (candidates.map Candidate.node).Nodup)
include hd

theorem scored_nodup : ((scored xxh3 candidates pid).map Candidate.node).Nodup :=
  ((scored_perm xxh3 pid candidates).map _).nodup_iff.2 hd

theorem scored_strict : Strict (rank xxh3 pid) (scored xxh3 candidates pid) := by
  refine ((sortDesc_pairwise candidates).and (pairwise_map.1 (scored_nodup xxh3 pid hd))).imp ?_
  rintro c d ⟨hle, hne⟩
  exact lt_of_le_of_ne hle fun heq => hne (rank_injective xxh3 pid heq).symm

theorem scored_eq_of_perm (hp : candidates.Perm candidates') : scored xxh3 candidates pid = scored xxh3 candidates' pid := by
  refine (scored_strict xxh3 pid hd).ext (scored_strict xxh3 pid ((hp.map _).nodup_iff.1 hd)) fun c => ?_
  rw [(scored_perm xxh3 pid candidates).mem_iff, (scored_perm xxh3 pid candidates').mem_iff, hp.mem_iff]

end Distinct

/-! ## The passes -/

theorem spreadZones_eq (n : Nat) (l : List Candidate) (out : List NodeId) (used : List String) (hout : out.length ≤ n) :
    spreadZones n l out used = out ++ ((firsts Candidate.zone used l).take (n - out.length)).map Candidate.node := by
  induction l generalizing out used with
  | nil => simp [spreadZones, firsts]
  | cons c l ih =>
    rw [spreadZones]
    by_cases hfull : out.length = n
    · rw [if_pos hfull, hfull, Nat.sub_self, take_zero, map_nil, append_nil]
    rw [if_neg hfull, firsts]
    cases hz : c.zone with
    | none => exact ih out used hout
    | some z =>
      dsimp only
      split
      · exact ih out used hout
      have hlen : (out ++ [c.node]).length ≤ n := by
        rw [length_append, length_singleton]
        omega
      have hsub : n - out.length = n - (out ++ [c.node]).length + 1 := by
        rw [length_append, length_singleton]
        omega
      rw [ih _ _ hlen, hsub, take_succ_cons, map_cons, append_assoc, singleton_append]

theorem fillOwners_eq (n : Nat) (l : List Candidate) (out : List NodeId) (hd : (l.map Candidate.node).Nodup)
    (hout : out.length ≤ n) :
    fillOwners n l out = out ++ ((l.filter fun c => c.node ∉ out).take (n - out.length)).map Candidate.node := by
  induction l generalizing out with
  | nil => simp [fillOwners]
  | cons c l ih =>
    rw [map_cons, nodup_cons] at hd
    rw [fillOwners]
    by_cases hfull : out.length = n
    · rw [if_pos hfull, hfull, Nat.sub_self, take_zero, map_nil, append_nil]
    rw [if_neg hfull]
    by_cases hmem : c.node ∈ out
    · rw [if_pos hmem, ih out hd.2 hout, filter_cons_of_neg (by simpa using hmem)]
    have hlen : (out ++ [c.node]).length ≤ n := by
      rw [length_append, length_singleton]
      omega
    have hsub : n - out.length = n - (out ++ [c.node]).length + 1 := by
      rw [length_append, length_singleton]
      omega
    -- the node that was just taken does not come again
    have hrest : (l.filter fun d => d.node ∉ out ++ [c.node]) = l.filter fun d => d.node ∉ out := by
      refine filter_congr fun d hdl => ?_
      have hne : d.node ≠ c.node := fun heq => hd.1 (heq ▸ mem_map_of_mem hdl)
      simp [hne]
    rw [if_neg hmem, ih _ hd.2 hlen, hrest, filter_cons_of_pos (by simpa using hmem), hsub, take_succ_cons,
      map_cons, append_assoc, singleton_append]

theorem firsts_none : firsts (spreadZone false) used l = [] := by
  induction l with
  | nil => rfl
  | cons c l ih => exact ih

variable (n : Nat) (zoneSpread : Bool)

/-- The owners are what is picked from the candidates in order of their scores. -/
theorem ownersForZoned_eq (hd : (candidates.map Candidate.node).Nodup) :
    ownersForZoned xxh3 candidates pid n zoneSpread =
      (pick (spreadZone zoneSpread) n (scored xxh3 candidates pid)).map Candidate.node := by
  have hnd := scored_nodup xxh3 pid hd
  rw [ownersForZoned]
  cases zoneSpread with
  | false =>
    rw [pick, firsts_none]
    simp
  | true =>
    have hzone : spreadZone true = zone := rfl
    have hle : ((firsts zone [] (scored xxh3 candidates pid)).take n).length ≤ n := length_take_le _ _
    have hspread := spreadZones_eq n (scored xxh3 candidates pid) [] [] (Nat.zero_le n)
    rw [nil_append, length_nil, Nat.sub_zero] at hspread
    simp only [Bool.not_true, Bool.false_eq_true, if_false]
    rw [hspread, fillOwners_eq n _ _ hnd (by rwa [length_map]), length_map, pick, map_append, hzone]
    congr 3
    refine filter_congr fun c hc => ?_
    rw [decide_eq_decide, not_iff_not, mem_map]
    constructor
    · rintro ⟨d, hdm, hdc⟩
      have hmem := (firsts_sublist zone [] _).subset (mem_of_mem_take hdm)
      rwa [← inj_on_of_nodup_map hnd hmem hc hdc]
    · exact fun hmem => ⟨c, hmem, rfl⟩

/-! ## What holds of the owners -/

def owning (owners : List NodeId) (candidates : List Candidate) : List Candidate := candidates.filter fun c => c.node ∈ owners

section Distinct

variable (hd : (candidates.map Candidate.node).Nodup)
include hd

theorem mem_ownersForZoned_node (hc : c ∈ candidates) :
    c.node ∈ ownersForZoned xxh3 candidates pid n zoneSpread ↔
      c ∈ pick (spreadZone zoneSpread) n (scored xxh3 candidates pid) := by
  have hnd := scored_nodup xxh3 pid hd
  have hmem : c ∈ scored xxh3 candidates pid := (scored_perm xxh3 pid candidates).mem_iff.2 hc
  rw [ownersForZoned_eq xxh3 pid n zoneSpread hd, mem_map]
  constructor
  · rintro ⟨d, hdp, hdc⟩
    rwa [← inj_on_of_nodup_map hnd (pick_subset hdp) hmem hdc]
  · exact fun hp => ⟨c, hp, rfl⟩

theorem exists_of_mem_ownersForZoned (ho : o ∈ ownersForZoned xxh3 candidates pid n zoneSpread) :
    ∃ c ∈ candidates, c.node = o := by
  rw [ownersForZoned_eq xxh3 pid n zoneSpread hd] at ho
  obtain ⟨c, hc, rfl⟩ := mem_map.1 ho
  exact ⟨c, (scored_perm xxh3 pid candidates).mem_iff.1 (pick_subset hc), rfl⟩

theorem ownersForZoned_nodup : (ownersForZoned xxh3 candidates pid n zoneSpread).Nodup := by
  have hnd := scored_nodup xxh3 pid hd
  rw [ownersForZoned_eq xxh3 pid n zoneSpread hd]
  refine (pick_nodup hnd.of_map n).map_on fun c hc d hd' heq => ?_
  exact inj_on_of_nodup_map hnd (pick_subset hc) (pick_subset hd') heq

theorem length_ownersForZoned : (ownersForZoned xxh3 candidates pid n zoneSpread).length = min n candidates.length := by
  rw [ownersForZoned_eq xxh3 pid n zoneSpread hd, length_map, length_pick (scored_nodup xxh3 pid hd).of_map,
    (scored_perm xxh3 pid candidates).length_eq]

theorem ownersForZoned_eq_of_perm (hp : candidates.Perm candidates') :
    ownersForZoned xxh3 candidates' pid n zoneSpread = ownersForZoned xxh3 candidates pid n zoneSpread := by
  rw [ownersForZoned_eq xxh3 pid n zoneSpread hd, ownersForZoned_eq xxh3 pid n zoneSpread ((hp.map _).nodup_iff.1 hd),
    scored_eq_of_perm xxh3 pid hd hp]

theorem card_zones_owning :
    (zones Candidate.zone (owning (ownersForZoned xxh3 candidates pid n true) candidates)).card =
      min n (zones Candidate.zone candidates).card := by
  have hmem : ∀ c, c ∈ owning (ownersForZoned xxh3 candidates pid n true) candidates ↔
      c ∈ pick zone n (scored xxh3 candidates pid) := by
    intro c
    rw [owning, mem_filter, decide_eq_true_eq]
    constructor
    · exact fun h => (mem_ownersForZoned_node xxh3 pid n true hd h.1).1 h.2
    · intro h
      have hc := (scored_perm xxh3 pid candidates).mem_iff.1 (pick_subset h)
      exact ⟨hc, (mem_ownersForZoned_node xxh3 pid n true hd hc).2 h⟩
  have hall : zones zone (scored xxh3 candidates pid) = zones zone candidates :=
    Finset.Subset.antisymm (zones_mono fun _ => (scored_perm xxh3 pid candidates).mem_iff.1)
      (zones_mono fun _ => (scored_perm xxh3 pid candidates).mem_iff.2)
  have howning : zones zone (owning (ownersForZoned xxh3 candidates pid n true) candidates) =
      zones zone (pick zone n (scored xxh3 candidates pid)) :=
    Finset.Subset.antisymm (zones_mono fun c => (hmem c).1) (zones_mono fun c => (hmem c).2)
  rw [howning, card_zones_pick (scored_nodup xxh3 pid hd).of_map, hall]

end Distinct

/-- What is chosen when a candidate joins was chosen before, but for the candidate, and no fewer are chosen. -/
theorem pick_join (hd : ((c :: candidates).map Candidate.node).Nodup) :
    (∀ d ∈ (pick (spreadZone zoneSpread) n (scored xxh3 (c :: candidates) pid)).toFinset, d ≠ c →
      d ∈ (pick (spreadZone zoneSpread) n (scored xxh3 candidates pid)).toFinset) ∧
    (pick (spreadZone zoneSpread) n (scored xxh3 candidates pid)).toFinset.card ≤
      (pick (spreadZone zoneSpread) n (scored xxh3 (c :: candidates) pid)).toFinset.card := by
  have hd' : (candidates.map node).Nodup := (nodup_cons.1 hd).2
  have hc : c ∉ candidates := fun hmem => (nodup_cons.1 hd).1 (mem_map_of_mem hmem)
  have hset : ∀ l : List Candidate, (scored xxh3 l pid).toFinset = l.toFinset := by
    intro l
    ext d
    rw [mem_toFinset, mem_toFinset, (scored_perm xxh3 pid l).mem_iff]
  constructor
  · rw [toFinset_pick (scored_strict xxh3 pid hd), toFinset_pick (scored_strict xxh3 pid hd'), hset, hset, toFinset_cons]
    intro d hmem hne
    refine chosen_insert (fun h => hc (mem_toFinset.1 h)) ?_ hmem hne
    intro a ha b hb hab
    rw [← toFinset_cons] at ha hb
    exact inj_on_of_nodup_map hd (mem_toFinset.1 (Finset.mem_coe.1 ha)) (mem_toFinset.1 (Finset.mem_coe.1 hb))
      (rank_injective xxh3 pid hab)
  · have hnd := (scored_nodup xxh3 pid hd).of_map
    have hnd' := (scored_nodup xxh3 pid hd').of_map
    rw [toFinset_card_of_nodup (pick_nodup hnd n), toFinset_card_of_nodup (pick_nodup hnd' n), length_pick hnd,
      length_pick hnd', (scored_perm xxh3 pid candidates).length_eq, (scored_perm xxh3 pid (c :: candidates)).length_eq,
      length_cons]
    omega

/-- The owners of a partition are distinct candidates, as many as are wanted or as there are, whatever order the candidates come
in; with zones they cover as many zones as they can; and another candidate drives out at most one owner, and none unless it
becomes an owner itself. The scores are those of any hash, so that they can be any numbers. -/
theorem owners_spread_and_stable (hd : (candidates.map Candidate.node).Nodup) :
    (ownersForZoned xxh3 candidates pid n zoneSpread).length = min n candidates.length ∧
    (ownersForZoned xxh3 candidates pid n zoneSpread).Nodup ∧
    (∀ o ∈ ownersForZoned xxh3 candidates pid n zoneSpread, o ∈ candidates.map Candidate.node) ∧
    (∀ candidates', candidates.Perm candidates' →
      ownersForZoned xxh3 candidates' pid n zoneSpread = ownersForZoned xxh3 candidates pid n zoneSpread) ∧
    (zoneSpread = true → (zones Candidate.zone (owning (ownersForZoned xxh3 candidates pid n zoneSpread) candidates)).card =
      min n (zones Candidate.zone candidates).card) ∧
    (∀ c : Candidate, c.node ∉ candidates.map Candidate.node →
      (∀ o ∈ ownersForZoned xxh3 candidates pid n zoneSpread, ∀ p ∈ ownersForZoned xxh3 candidates pid n zoneSpread,
        o ∉ ownersForZoned xxh3 (c :: candidates) pid n zoneSpread →
        p ∉ ownersForZoned xxh3 (c :: candidates) pid n zoneSpread → o = p) ∧
      (∀ o ∈ ownersForZoned xxh3 candidates pid n zoneSpread, o ∉ ownersForZoned xxh3 (c :: candidates) pid n zoneSpread →
        c.node ∈ ownersForZoned xxh3 (c :: candidates) pid n zoneSpread)) := by
  refine ⟨length_ownersForZoned xxh3 pid n zoneSpread hd, ownersForZoned_nodup xxh3 pid n zoneSpread hd, ?_, ?_, ?_, ?_⟩
  · intro o ho
    obtain ⟨c, hc, rfl⟩ := exists_of_mem_ownersForZoned xxh3 pid n zoneSpread hd ho
    exact mem_map_of_mem hc
  · intro candidates' hp
    exact ownersForZoned_eq_of_perm xxh3 pid n zoneSpread hd hp
  · rintro rfl
    exact card_zones_owning xxh3 pid n hd
  · intro c hc
    have hd' : ((c :: candidates).map Candidate.node).Nodup := nodup_cons.2 ⟨hc, hd⟩
    obtain ⟨hsub, hcard⟩ := pick_join xxh3 pid n zoneSpread hd'
    -- an owner that is lost is a candidate that is not picked any more
    have hlost : ∀ o ∈ ownersForZoned xxh3 candidates pid n zoneSpread,
        o ∉ ownersForZoned xxh3 (c :: candidates) pid n zoneSpread → ∃ d : Candidate, d.node = o ∧
          d ∈ (pick (spreadZone zoneSpread) n (scored xxh3 candidates pid)).toFinset ∧
          d ∉ (pick (spreadZone zoneSpread) n (scored xxh3 (c :: candidates) pid)).toFinset := by
      intro o ho ho'
      obtain ⟨d, hdc, rfl⟩ := exists_of_mem_ownersForZoned xxh3 pid n zoneSpread hd ho
      refine ⟨d, rfl, mem_toFinset.2 ((mem_ownersForZoned_node xxh3 pid n zoneSpread hd hdc).1 ho), fun hmem => ho' ?_⟩
      exact (mem_ownersForZoned_node xxh3 pid n zoneSpread hd' (mem_cons_of_mem _ hdc)).2 (mem_toFinset.1 hmem)
    constructor
    · intro o ho p hp ho' hp'
      obtain ⟨d, rfl, hdm, hdm'⟩ := hlost o ho ho'
      obtain ⟨e, rfl, hem, hem'⟩ := hlost p hp hp'
      rw [removed_unique hsub hcard hdm hem hdm' hem']
    · intro o ho ho'
      obtain ⟨d, rfl, hdm, hdm'⟩ := hlost o ho ho'
      have := mem_of_removed hsub hcard hdm hdm'
      exact (mem_ownersForZoned_node xxh3 pid n zoneSpread hd' mem_cons_self).2 (mem_toFinset.1 this)

/-- Three candidates in two zones, of which two are chosen with zones: node 3 and then node 1 of the other zone. -/
theorem owners_spread_and_stable_two_zones :
    ([⟨1, true, some "a"⟩, ⟨2, true, some "b"⟩, ⟨3, true, some "b"⟩].map Candidate.node).Nodup ∧
      (ownersForZoned (fun _ => 0) [⟨1, true, some "a"⟩, ⟨2, true, some "b"⟩, ⟨3, true, some "b"⟩] 7 2 true).length = 2 :=
  ⟨by decide, (owners_spread_and_stable (fun _ => 0) 7 2 true (by decide)).1⟩

end Marekvs
