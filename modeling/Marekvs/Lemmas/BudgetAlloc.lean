import Marekvs.Engine.BudgetAdmin

/-!
# Allocations

The shares of an amount add up to it. So the allocations of a budget add up to its capacity when it is created, and whatever is
added or moved afterwards keeps them so.
-/

namespace Marekvs

open List Nat UInt64 Ordered

variable {alloc : List (NodeId × UInt64)} {target : NodeId} {amount : UInt64} {hs hs' : HeadState}

/-! ## Shares -/

/-- What the shares from the `i`-th on add up to. -/
def sharesFrom (amount : UInt64) (n i k : Nat) : Nat := ((List.range' i k).map fun j => (share amount n j).toNat).sum

theorem sharesFrom_succ :
    sharesFrom amount n i (k + 1) = (share amount n i).toNat + sharesFrom amount n (i + 1) k := by
  rw [sharesFrom, range'_succ, map_cons, sum_cons, sharesFrom]

section Shares

variable (amount : UInt64) {n : Nat} (hn : 0 < n) (hsize : n < 2 ^ 64)
include hn hsize

theorem toNat_share (i : Nat) : (share amount n i).toNat = amount.toNat / n + if i < amount.toNat % n then 1 else 0 := by
  have hlt := amount.toNat_lt
  have hofNat : (ofNat n).toNat = n := by
    rw [UInt64.toNat_ofNat', mod_eq_of_lt hsize]
  have hdiv : (amount / UInt64.ofNat n).toNat = amount.toNat / n := by rw [UInt64.toNat_div, hofNat]
  have hmod : (amount % UInt64.ofNat n).toNat = amount.toNat % n := by rw [UInt64.toNat_mod, hofNat]
  rw [share, UInt64.toNat_add, hdiv, hmod]
  split
  · rename_i hi
    -- something is left over, so that there is more than one share
    have hone : n ≠ 1 := by
      rintro rfl
      rw [mod_one] at hi
      exact not_lt_zero _ hi
    have hhalf : amount.toNat / n ≤ amount.toNat / 2 := div_le_div_left (by omega) (by decide)
    have : (1 : UInt64).toNat = 1 := rfl
    rw [this, mod_eq_of_lt]
    omega
  · have hle : amount.toNat / n ≤ amount.toNat := div_le_self _ _
    have : (0 : UInt64).toNat = 0 := rfl
    rw [this, mod_eq_of_lt]
    omega

theorem sharesFrom_all : sharesFrom amount n 0 n = amount.toNat := by
  have hcount : ∀ i k r q : Nat, ((range' i k).map fun j => q + if j < r then 1 else 0).sum = k * q + min k (r - i) := by
    intro i k r q
    induction k generalizing i with
    | zero => simp
    | succ k ih =>
      rw [range'_succ, map_cons, sum_cons, ih, succ_mul]
      split <;> omega
  have hmap : ((range' 0 n).map fun j => (share amount n j).toNat) =
      (range' 0 n).map fun j => amount.toNat / n + if j < amount.toNat % n then 1 else 0 :=
    map_congr_left fun j _ => toNat_share amount hn hsize j
  have hmod := Nat.mod_lt amount.toNat hn
  rw [sharesFrom, hmap, hcount, Nat.sub_zero, Nat.min_eq_right hmod.le]
  exact Nat.div_add_mod _ _

end Shares

/-! ## Sums of allocations -/

/-- What allocations add up to. -/
def allocSum (alloc : List (NodeId × UInt64)) : Nat := (alloc.map fun e => e.2.toNat).sum

theorem allocSum_cons (e : NodeId × UInt64) (alloc : List (NodeId × UInt64)) :
    allocSum (e :: alloc) = e.2.toNat + allocSum alloc := by
  rw [allocSum, map_cons, sum_cons, allocSum]

theorem allocSum_perm (h : alloc.Perm alloc') : allocSum alloc = allocSum alloc' :=
  (h.map _).sum_eq

theorem toNat_satAdd_of_lt {a b : UInt64} (h : a.toNat + b.toNat < 2 ^ 64) : (a.satAdd b).toNat = a.toNat + b.toNat := by
  rw [toNat_satAdd]
  omega

theorem map_fst_mapIdx (g : α → β) (f : Nat → α → γ) (l : List α) :
    (l.mapIdx fun i x => (g x, f i x)).map Prod.fst = l.map g := by
  induction l generalizing f with
  | nil => rfl
  | cons a l ih => rw [mapIdx_cons, map_cons, map_cons, ih fun i => f (i + 1)]

theorem allocSum_mapIdx_share (amount : UInt64) (n i : Nat) (nodes : List NodeId) :
    allocSum (nodes.mapIdx fun j node => (node, share amount n (i + j))) = sharesFrom amount n i nodes.length := by
  induction nodes generalizing i with
  | nil => rfl
  | cons node nodes ih =>
    have := ih (i + 1)
    rw [mapIdx_cons, allocSum_cons, length_cons, sharesFrom_succ, ← this]
    simp only [add_zero, add_assoc, add_comm 1]

theorem allocSum_mapIdx_satAdd (amount : UInt64) (n i : Nat) (alloc : List (NodeId × UInt64))
    (h : allocSum alloc + sharesFrom amount n i alloc.length < 2 ^ 64) :
    allocSum (alloc.mapIdx fun j e => (e.1, e.2.satAdd (share amount n (i + j)))) =
      allocSum alloc + sharesFrom amount n i alloc.length := by
  induction alloc generalizing i with
  | nil => rfl
  | cons e alloc ih =>
    rw [allocSum_cons, length_cons, sharesFrom_succ] at h
    have := ih (i + 1) (by omega)
    rw [mapIdx_cons, allocSum_cons, length_cons, sharesFrom_succ, allocSum_cons]
    simp only [add_zero, add_assoc, add_comm 1] at this ⊢
    rw [this, toNat_satAdd_of_lt (by omega)]
    omega

@[simp] theorem map_fst_addTo (node : NodeId) (amount : UInt64) (alloc : List (NodeId × UInt64)) :
    (addTo node amount alloc).map Prod.fst = alloc.map Prod.fst := by
  induction alloc with
  | nil => rfl
  | cons e alloc ih =>
    obtain ⟨id, a⟩ := e
    rw [addTo]
    split
    · rfl
    · rw [map_cons, map_cons, ih]

@[simp] theorem map_fst_addShares (amount : UInt64) (n i : Nat) (nodes : List NodeId) (alloc : List (NodeId × UInt64)) :
    (addShares amount n i nodes alloc).map Prod.fst = alloc.map Prod.fst := by
  induction nodes generalizing i alloc with
  | nil => rfl
  | cons node nodes ih => rw [addShares, ih, map_fst_addTo]

theorem allocSum_addTo {node : NodeId} (amount : UInt64) (hmem : node ∈ alloc.map Prod.fst)
    (h : allocSum alloc + amount.toNat < 2 ^ 64) : allocSum (addTo node amount alloc) = allocSum alloc + amount.toNat := by
  induction alloc with
  | nil => cases hmem
  | cons e alloc ih =>
    obtain ⟨id, a⟩ := e
    rw [allocSum_cons] at h ⊢
    dsimp only at h ⊢
    rw [addTo]
    split
    · rw [allocSum_cons, toNat_satAdd_of_lt (by omega)]
      omega
    rename_i hne
    have hmem' : node ∈ alloc.map Prod.fst := (mem_cons.1 hmem).resolve_left fun heq => hne heq.symm
    rw [allocSum_cons, ih hmem' (by omega)]
    exact (add_assoc ..).symm

theorem allocSum_addShares (amount : UInt64) (n i : Nat) (nodes : List NodeId)
    (hmem : ∀ node ∈ nodes, node ∈ alloc.map Prod.fst) (h : allocSum alloc + sharesFrom amount n i nodes.length < 2 ^ 64) :
    allocSum (addShares amount n i nodes alloc) = allocSum alloc + sharesFrom amount n i nodes.length := by
  induction nodes generalizing i alloc with
  | nil => rfl
  | cons node nodes ih =>
    rw [length_cons, sharesFrom_succ] at h ⊢
    have hadd := allocSum_addTo (share amount n i) (hmem node mem_cons_self) (by omega)
    have hmem' : ∀ m ∈ nodes, m ∈ (addTo node (share amount n i) alloc).map Prod.fst := by
      intro m hm
      rw [map_fst_addTo]
      exact hmem m (mem_cons_of_mem _ hm)
    rw [addShares, ih (i + 1) hmem' (by omega), hadd]
    omega

namespace HeadState

@[simp] theorem map_fst_setAlloc : (setAlloc target amount alloc).map Prod.fst = alloc.map Prod.fst := by
  rw [setAlloc, map_map]
  refine map_congr_left fun e _ => ?_
  rw [Function.comp_apply]
  split <;> rfl

theorem setAlloc_of_notMem (h : target ∉ alloc.map Prod.fst) : setAlloc target amount alloc = alloc := by
  refine (map_congr_left fun x hx => ?_).trans (map_id' alloc)
  refine if_neg ?_
  rintro rfl
  exact h (mem_map_of_mem hx)

theorem allocSum_setAlloc (amount : UInt64) (hd : (alloc.map Prod.fst).Nodup) (hmem : target ∈ alloc.map Prod.fst) :
    allocSum (setAlloc target amount alloc) + (((alloc.find? fun e => e.1 = target).map Prod.snd).getD 0).toNat =
      allocSum alloc + amount.toNat := by
  induction alloc with
  | nil => cases hmem
  | cons e alloc ih =>
    rw [map_cons, nodup_cons] at hd
    by_cases he : e.1 = target
    · have hrest : setAlloc target amount alloc = alloc := setAlloc_of_notMem (he ▸ hd.1)
      have hcons : setAlloc target amount (e :: alloc) = (e.1, amount) :: setAlloc target amount alloc := by
        rw [setAlloc, map_cons, if_pos he, ← setAlloc]
      rw [hcons, allocSum_cons, allocSum_cons, hrest, find?_cons_of_pos (by simpa using he)]
      simp only [Option.map_some, Option.getD_some]
      omega
    · have hmem' : target ∈ alloc.map Prod.fst := (mem_cons.1 hmem).resolve_left fun heq => he heq.symm
      have hcons : setAlloc target amount (e :: alloc) = e :: setAlloc target amount alloc := by
        rw [setAlloc, map_cons, if_neg he, ← setAlloc]
      have := ih hd.2 hmem'
      rw [hcons, allocSum_cons, allocSum_cons, find?_cons_of_neg (by simpa using he)]
      omega

/-! ## Valid heads -/

/-- The allocations of a head are those of distinct nodes in order, and add up to the capacity. -/
structure Valid (hs : HeadState) : Prop where
  sorted : (hs.alloc.map Prod.fst).Pairwise (· < ·)
  total : hs.allocTotal = hs.capacity.toNat
  allocSize : hs.alloc.length ≤ 255
  fenceSize : hs.fence.length ≤ 255

theorem allocTotal_eq (hs : HeadState) : hs.allocTotal = allocSum hs.alloc := rfl

theorem Valid.nodup (h : hs.Valid) : (hs.alloc.map Prod.fst).Nodup := h.sorted.imp fun hlt => hlt.ne

theorem escrowNodes_sorted (nodes : List NodeId) : (escrowNodes nodes).Pairwise (· < ·) := by
  have hle : (escrowNodes nodes).Pairwise (· ≤ ·) := (sortAsc_pairwise nodes).sublist (dedup_sublist _)
  exact (hle.and (nodup_dedup _)).imp fun h => lt_of_le_of_ne h.1 h.2

theorem escrowNodes_ne_nil (h : nodes ≠ []) : escrowNodes nodes ≠ [] := by
  obtain ⟨node, hmem⟩ := exists_mem_of_ne_nil nodes h
  exact ne_nil_of_mem (mem_dedup.2 (mem_sortAsc.2 hmem))

theorem valid_create (capacity : UInt64) (o : CreateOpts) (opSeq gen : UInt64)
    (hs : nodes.Pairwise (· < ·)) (hne : nodes ≠ []) (hlen : nodes.length ≤ 255) : (create capacity o nodes opSeq gen).Valid where
  sorted := by
    have hfst : (create capacity o nodes opSeq gen).alloc.map Prod.fst = nodes :=
      (map_fst_mapIdx id _ _).trans (map_id _)
    rwa [hfst]
  total := by
    have hsum := allocSum_mapIdx_share capacity nodes.length 0 nodes
    simp only [zero_add] at hsum
    have hpos := length_pos_iff.2 hne
    rw [allocTotal_eq, create, hsum, sharesFrom_all capacity hpos (by omega)]
  allocSize := by simpa [create] using hlen
  fenceSize := zero_le _

/-- The allocations that a topup leaves add up to so much more. -/
theorem Valid.topupAlloc (h : hs.Valid)
    (hfit : hs.capacity.toNat + amount.toNat < 2 ^ 64) (ht : hs.topupAlloc self amount node = .ok alloc) :
    (alloc.map Prod.fst).Pairwise (· < ·) ∧ allocSum alloc = hs.capacity.toNat + amount.toNat ∧ alloc.length ≤ 255 := by
  have htotal : allocSum hs.alloc = hs.capacity.toNat := h.total
  cases node with
  | some n =>
    rw [HeadState.topupAlloc] at ht
    split at ht
    · rename_i hany
      obtain ⟨e, he, heq⟩ := any_eq_true.1 hany
      have hmem : n ∈ hs.alloc.map Prod.fst := of_decide_eq_true heq ▸ mem_map_of_mem he
      cases ht
      refine ⟨by rw [map_fst_addTo]; exact h.sorted, ?_, ?_⟩
      · rw [allocSum_addTo amount hmem (by omega), htotal]
      · have := congrArg length (map_fst_addTo n amount hs.alloc)
        rw [length_map, length_map] at this
        exact this ▸ h.allocSize
    · rename_i hany
      split at ht
      · cases ht
      rename_i hroom
      cases ht
      have hnew : n ∉ hs.alloc.map Prod.fst := by
        intro hmem
        obtain ⟨e, he, heq⟩ := mem_map.1 hmem
        exact hany (any_eq_true.2 ⟨e, he, decide_eq_true heq⟩)
      have hperm : (sortAsc Prod.fst (hs.alloc ++ [(n, amount)])).Perm ((n, amount) :: hs.alloc) :=
        (sortAsc_perm _).trans perm_append_comm
      refine ⟨?_, ?_, ?_⟩
      · have hnd : ((sortAsc Prod.fst (hs.alloc ++ [(n, amount)])).map Prod.fst).Nodup :=
          (hperm.map Prod.fst).nodup_iff.2 (nodup_cons.2 ⟨hnew, h.nodup⟩)
        have hle : ((sortAsc Prod.fst (hs.alloc ++ [(n, amount)])).map Prod.fst).Pairwise (· ≤ ·) :=
          pairwise_map.2 (sortAsc_pairwise _)
        exact (hle.and hnd).imp fun hab => lt_of_le_of_ne hab.1 hab.2
      · rw [allocSum_perm hperm, allocSum_cons, htotal]
        exact add_comm _ _
      · rw [hperm.length_eq, length_cons]
        omega
  | none =>
    rw [HeadState.topupAlloc] at ht
    split at ht
    · rename_i hnil
      cases ht
      have hzero : hs.capacity.toNat = 0 := by
        rw [← htotal, hnil]
        rfl
      refine ⟨pairwise_singleton _ _, ?_, by simp⟩
      rw [hzero, zero_add]
      simp [allocSum]
    · rename_i hne
      cases ht
      have hpos := length_pos_iff.2 hne
      have hsize := h.allocSize
      have hall := sharesFrom_all amount hpos (by omega)
      have hsum := allocSum_mapIdx_satAdd amount hs.alloc.length 0 hs.alloc (by omega)
      simp only [zero_add] at hsum
      refine ⟨?_, by rw [hsum, hall, htotal], by simpa using hsize⟩
      have hfst : (hs.alloc.mapIdx fun i e => (e.1, e.2.satAdd (share amount hs.alloc.length i))).map Prod.fst =
          hs.alloc.map Prod.fst := map_fst_mapIdx Prod.fst _ _
      rw [hfst]
      exact h.sorted

theorem Valid.topup (h : hs.Valid) (ht : hs.topup self amount node seq = .ok hs') : hs'.Valid := by
  rw [HeadState.topup] at ht
  cases hcap : hs.capacity.checkedAdd amount with
  | none =>
    rw [hcap] at ht
    cases ht
  | some capacity =>
    rw [hcap] at ht
    cases halloc : hs.topupAlloc self amount node with
    | error e =>
      rw [halloc] at ht
      cases ht
    | ok alloc =>
      rw [halloc] at ht
      simp only at ht
      have hcapacity := toNat_checkedAdd hcap
      have hfit : hs.capacity.toNat + amount.toNat < 2 ^ 64 := hcapacity ▸ capacity.toNat_lt
      obtain ⟨hsorted, htotal, hsize⟩ := h.topupAlloc hfit halloc
      split at ht
      · cases ht
      · cases ht
        exact ⟨hsorted, htotal.trans hcapacity.symm, hsize, h.fenceSize⟩

theorem addFence_eq_ok (h : hs.addFence target now = .ok hs') :
    hs'.alloc = hs.alloc ∧ hs'.capacity = hs.capacity ∧ hs'.opSeq = hs.opSeq ∧ hs'.gen = hs.gen ∧
      (hs.fence.length ≤ 255 → hs'.fence.length ≤ 255) := by
  rw [addFence] at h
  split at h
  · cases h
    exact ⟨rfl, rfl, rfl, rfl, id⟩
  split at h
  · cases h
  cases h
  refine ⟨rfl, rfl, rfl, rfl, fun _ => ?_⟩
  rw [(sortAsc_perm _).length_eq, length_append, length_singleton]
  omega

/-- Taking back what a node did not use moves allocations and changes neither their nodes nor their sum. -/
theorem Valid.reclaim (h : hs.Valid) (hr : hs.reclaim target consumed now seq = .ok (hs', freed)) :
    hs'.Valid ∧ hs'.allocTotal = hs.allocTotal := by
  rw [HeadState.reclaim] at hr
  have htotal : allocSum hs.alloc = hs.capacity.toNat := h.total
  have hlt := hs.capacity.toNat_lt
  generalize hc : ofNat (min consumed (hs.allocFor target).toNat) = used at hr
  have hused : used.toNat ≤ (hs.allocFor target).toNat := by
    rw [← hc, toNat_ofNat']
    exact (mod_le _ _).trans (min_le_right _ _)
  have hfreed : (hs.allocFor target - used).toNat = (hs.allocFor target).toNat - used.toNat :=
    UInt64.toNat_sub_of_le _ _ (UInt64.le_iff_toNat_le.2 hused)
  -- what the target gives up is what is free
  have hsum : allocSum (setAlloc target used hs.alloc) + (hs.allocFor target - used).toNat = allocSum hs.alloc := by
    by_cases hmem : target ∈ hs.alloc.map Prod.fst
    · have := allocSum_setAlloc used h.nodup hmem
      rw [← allocFor] at this
      omega
    · have hnone : hs.allocFor target = 0 := by
        rw [allocFor, find?_eq_none.2]
        · rfl
        · intro e he heq
          exact hmem (of_decide_eq_true heq ▸ mem_map_of_mem he)
      have hzero : (hs.allocFor target).toNat = 0 := by
        rw [hnone]
        rfl
      rw [setAlloc_of_notMem hmem]
      omega
  simp only at hr
  cases hfence : { hs with alloc := setAlloc target used hs.alloc }.addFence target now with
  | error e =>
    rw [hfence] at hr
    cases hr
  | ok fenced =>
    rw [hfence] at hr
    obtain ⟨halloc, hcap, -, -, hsize⟩ := addFence_eq_ok hfence
    simp only at halloc hcap hsize hr
    split at hr
    · cases hr
    rename_i hrs
    cases hr
    have hids : ∀ alloc : List (NodeId × UInt64), alloc.map Prod.fst = hs.alloc.map Prod.fst → alloc.length ≤ 255 := by
      intro alloc heq
      have := congrArg length heq
      rw [length_map, length_map] at this
      exact this ▸ h.allocSize
    have hfst : fenced.alloc.map Prod.fst = hs.alloc.map Prod.fst := by rw [halloc, map_fst_setAlloc]
    by_cases hpos : 0 < hs.allocFor target - used
    · have hne : fenced.recipients target ≠ [] := fun hnil => hrs ⟨hpos, hnil⟩
      have hrlen : (fenced.recipients target).length ≤ 255 := by
        refine (length_filter_le _ _).trans ?_
        rw [length_map]
        exact hids _ hfst
      have hall := sharesFrom_all (hs.allocFor target - used) (length_pos_iff.2 hne) (by omega)
      have hadd := allocSum_addShares (hs.allocFor target - used) (fenced.recipients target).length 0
        (fenced.recipients target) (fun node hnode => mem_of_mem_filter hnode) (by rw [halloc]; omega)
      have hfst' := (map_fst_addShares (hs.allocFor target - used) (fenced.recipients target).length 0
        (fenced.recipients target) fenced.alloc).trans hfst
      rw [hall, halloc, hsum] at hadd
      rw [halloc] at hfst'
      simp only [if_pos hpos, halloc, allocTotal_eq]
      exact ⟨⟨by rw [hfst']; exact h.sorted, by rw [allocTotal_eq, hadd, htotal, hcap], hids _ hfst', hsize h.fenceSize⟩, hadd⟩
    · have hzero : (hs.allocFor target - used).toNat = 0 := by
        rw [lt_iff_toNat_lt] at hpos
        simpa using hpos
      have hsame : allocSum fenced.alloc = allocSum hs.alloc := by rw [halloc]; omega
      simp only [if_neg hpos, allocTotal_eq]
      exact ⟨⟨by rw [hfst]; exact h.sorted, by rw [allocTotal_eq, hsame, htotal, hcap], hids _ hfst, hsize h.fenceSize⟩, hsame⟩

end HeadState

end Marekvs
