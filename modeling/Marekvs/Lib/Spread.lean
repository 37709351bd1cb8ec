import Marekvs.Lib.Desc

/-!
# Choosing by rank, spread over zones

From entries in descending order of a key some are chosen: first the highest of each zone, then, while there are places left, the
highest of the others. `pick` does this on a list, `chosen` says which set comes out. A new entry drives out at most one
(`removed_unique`), and none unless it is chosen itself (`mem_of_removed`).
-/

namespace Spread

open List Desc

variable {α κ ζ : Type*} [LinearOrder κ] [DecidableEq ζ] (key : α → κ) (zone : α → Option ζ)

/-! ## Sets -/

/-- The entries with higher keys. -/
def ahead (s : Finset α) (x : α) : Finset α := s.filter fun y => key x < key y

/-- The `n` entries with the highest keys. -/
def best (n : Nat) (s : Finset α) : Finset α := s.filter fun x => (ahead key s x).card < n

/-- The highest entry of each zone. -/
def leaders (s : Finset α) : Finset α := s.filter fun x => (zone x).isSome ∧ ∀ y ∈ s, zone y = zone x → key y ≤ key x

/-- The leaders first, and then the best of the others. -/
def chosen [DecidableEq α] (n : Nat) (s : Finset α) : Finset α :=
  best key n (leaders key zone s) ∪ best key (n - (best key n (leaders key zone s)).card) (s \ best key n (leaders key zone s))

variable {key zone} {s : Finset α} {n : Nat} {c x : α}

theorem mem_ahead {y : α} : y ∈ ahead key s x ↔ y ∈ s ∧ key x < key y := Finset.mem_filter

theorem mem_best : x ∈ best key n s ↔ x ∈ s ∧ (ahead key s x).card < n := Finset.mem_filter

theorem mem_leaders : x ∈ leaders key zone s ↔ x ∈ s ∧ (zone x).isSome ∧ ∀ y ∈ s, zone y = zone x → key y ≤ key x :=
  Finset.mem_filter

theorem best_subset : best key n s ⊆ s := Finset.filter_subset _ _

theorem leaders_subset : leaders key zone s ⊆ s := Finset.filter_subset _ _

section Sets

variable [DecidableEq α]

/-- Where there is room for more than were taken, all were taken. -/
theorem best_eq_self_of_card_lt (h : (best key n s).card < n) : best key n s = s := by
  refine Finset.Subset.antisymm best_subset ?_
  by_contra hsub
  have hne : (s \ best key n s).Nonempty := Finset.sdiff_nonempty.2 hsub
  -- the highest entry that is left out has only taken ones ahead of it
  obtain ⟨x, hx, hmax⟩ := Finset.exists_max_image _ key hne
  obtain ⟨hxs, hxb⟩ := Finset.mem_sdiff.1 hx
  have hahead : ahead key s x ⊆ best key n s := by
    intro y hy
    obtain ⟨hys, hlt⟩ := mem_ahead.1 hy
    by_contra hyb
    exact absurd (hmax y (Finset.mem_sdiff.2 ⟨hys, hyb⟩)) (not_le.2 hlt)
  exact hxb (mem_best.2 ⟨hxs, (Finset.card_le_card hahead).trans_lt h⟩)

theorem best_of_card_lt (h : s.card < n) : best key n s = s :=
  best_eq_self_of_card_lt ((Finset.card_le_card best_subset).trans_lt h)

/-- A set that loses at most one entry, and that one only for a new one, does not get smaller. -/
theorem card_le_of_replaced {s t : Finset α} (hc : c ∉ s) (hone : ∀ x ∈ s, ∀ y ∈ s, x ∉ t → y ∉ t → x = y)
    (hnew : ∀ x ∈ s, x ∉ t → c ∈ t) : s.card ≤ t.card := by
  refine Finset.card_le_card_of_injOn (fun x => if x ∈ t then x else c) ?_ ?_
  · intro x hx
    dsimp only
    split
    · assumption
    · exact hnew x hx ‹_›
  · intro x hx y hy hxy
    dsimp only at hxy
    split at hxy <;> split at hxy
    · exact hxy
    · exact absurd (hxy ▸ hx) hc
    · exact absurd (hxy ▸ hy) hc
    · exact hone x hx y hy ‹_› ‹_›

theorem leaders_insert (hx : x ∈ leaders key zone (insert c s)) (hne : x ≠ c) : x ∈ leaders key zone s := by
  obtain ⟨hmem, hz, hmax⟩ := mem_leaders.1 hx
  exact mem_leaders.2 ⟨Finset.mem_of_mem_insert_of_ne hmem hne, hz, fun y hy => hmax y (Finset.mem_insert_of_mem hy)⟩

section Insert

variable (hc : c ∉ s) (hinj : Set.InjOn key (insert c s : Finset α))
include hinj

/-- A leader that is not one any more has lost to the new entry. -/
theorem zone_of_displaced (hx : x ∈ leaders key zone s) (hx' : x ∉ leaders key zone (insert c s)) :
    zone c = zone x ∧ key x < key c ∧ c ∈ leaders key zone (insert c s) := by
  obtain ⟨hmem, hz, hmax⟩ := mem_leaders.1 hx
  have hlost : zone c = zone x ∧ key x < key c := by
    by_contra hno
    refine hx' (mem_leaders.2 ⟨Finset.mem_insert_of_mem hmem, hz, ?_⟩)
    intro y hy hzy
    rcases Finset.mem_insert.1 hy with rfl | hy
    · exact not_lt.1 fun hlt => hno ⟨hzy, hlt⟩
    · exact hmax y hy hzy
  refine ⟨hlost.1, hlost.2, mem_leaders.2 ⟨Finset.mem_insert_self _ _, hlost.1 ▸ hz, ?_⟩⟩
  intro y hy hzy
  rcases Finset.mem_insert.1 hy with rfl | hy
  · exact le_rfl
  · exact (hmax y hy (hzy.trans hlost.1)).trans hlost.2.le

theorem displaced_unique {y : α} (hx : x ∈ leaders key zone s) (hx' : x ∉ leaders key zone (insert c s))
    (hy : y ∈ leaders key zone s) (hy' : y ∉ leaders key zone (insert c s)) : x = y := by
  have hzone : zone x = zone y :=
    (zone_of_displaced hinj hx hx').1.symm.trans (zone_of_displaced hinj hy hy').1
  obtain ⟨hxs, -, hxmax⟩ := mem_leaders.1 hx
  obtain ⟨hys, -, hymax⟩ := mem_leaders.1 hy
  exact hinj (Finset.mem_insert_of_mem hxs) (Finset.mem_insert_of_mem hys)
    (le_antisymm (hymax x hxs hzone) (hxmax y hys hzone.symm))

include hc

/-- No fewer leaders are ahead of an entry than before the new entry came. -/
theorem card_ahead_leaders_le (x : α) :
    (ahead key (leaders key zone s) x).card ≤ (ahead key (leaders key zone (insert c s)) x).card := by
  have hdisplaced : ∀ y ∈ ahead key (leaders key zone s) x, y ∉ ahead key (leaders key zone (insert c s)) x →
      y ∈ leaders key zone s ∧ y ∉ leaders key zone (insert c s) ∧ key x < key y := by
    intro y hy hy'
    obtain ⟨hl, hlt⟩ := mem_ahead.1 hy
    exact ⟨hl, fun hl' => hy' (mem_ahead.2 ⟨hl', hlt⟩), hlt⟩
  refine card_le_of_replaced (fun hmem => hc (leaders_subset (mem_ahead.1 hmem).1)) ?_ ?_
  · intro y hy z hz hy' hz'
    obtain ⟨hyl, hyl', -⟩ := hdisplaced y hy hy'
    obtain ⟨hzl, hzl', -⟩ := hdisplaced z hz hz'
    exact displaced_unique hinj hyl hyl' hzl hzl'
  · intro y hy hy'
    obtain ⟨hyl, hyl', hlt⟩ := hdisplaced y hy hy'
    obtain ⟨-, hkey, hcl⟩ := zone_of_displaced hinj hyl hyl'
    exact mem_ahead.2 ⟨hcl, hlt.trans hkey⟩

theorem card_leaders_le : (leaders key zone s).card ≤ (leaders key zone (insert c s)).card :=
  card_le_of_replaced (fun hmem => hc (leaders_subset hmem)) (fun _ hx _ hy hx' hy' => displaced_unique hinj hx hx' hy hy')
    fun _ hx hx' => (zone_of_displaced hinj hx hx').2.2

/-- The leaders and what is ahead of an entry besides them are no fewer than before the new entry came. -/
theorem card_ahead_rest_le (x : α) :
    (ahead key (s \ leaders key zone s) x).card + (leaders key zone s).card ≤
      (ahead key (insert c s \ leaders key zone (insert c s)) x).card + (leaders key zone (insert c s)).card := by
  have hsplit : ∀ t : Finset α, (ahead key (t \ leaders key zone t) x).card + (leaders key zone t).card =
      (ahead key t x ∪ leaders key zone t).card := by
    intro t
    rw [← Finset.card_union_of_disjoint]
    · congr 1
      ext y
      simp only [Finset.mem_union, mem_ahead, Finset.mem_sdiff]
      tauto
    · refine Finset.disjoint_left.2 fun y hy hyl => ?_
      exact (Finset.mem_sdiff.1 (mem_ahead.1 hy).1).2 hyl
  have hdisplaced : ∀ y ∈ ahead key s x ∪ leaders key zone s,
      y ∉ ahead key (insert c s) x ∪ leaders key zone (insert c s) →
        y ∈ leaders key zone s ∧ y ∉ leaders key zone (insert c s) := by
    intro y hy hy'
    rw [Finset.mem_union, not_or] at hy'
    rcases Finset.mem_union.1 hy with hy | hy
    · exact absurd (mem_ahead.2 ⟨Finset.mem_insert_of_mem (mem_ahead.1 hy).1, (mem_ahead.1 hy).2⟩) hy'.1
    · exact ⟨hy, hy'.2⟩
  rw [hsplit, hsplit]
  refine card_le_of_replaced (c := c) ?_ ?_ ?_
  · intro hmem
    rcases Finset.mem_union.1 hmem with hmem | hmem
    · exact hc (mem_ahead.1 hmem).1
    · exact hc (leaders_subset hmem)
  · intro y hy z hz hy' hz'
    obtain ⟨hyl, hyl'⟩ := hdisplaced y hy hy'
    obtain ⟨hzl, hzl'⟩ := hdisplaced z hz hz'
    exact displaced_unique hinj hyl hyl' hzl hzl'
  · intro y hy hy'
    obtain ⟨hyl, hyl'⟩ := hdisplaced y hy hy'
    exact Finset.mem_union_right _ (zone_of_displaced hinj hyl hyl').2.2

/-- What is chosen among more entries is chosen among fewer. -/
theorem chosen_insert (hx : x ∈ chosen key zone n (insert c s)) (hne : x ≠ c) : x ∈ chosen key zone n s := by
  rcases Finset.mem_union.1 hx with hx | hx
  · obtain ⟨hl, hlt⟩ := mem_best.1 hx
    exact Finset.mem_union_left _
      (mem_best.2 ⟨leaders_insert hl hne, (card_ahead_leaders_le hc hinj x).trans_lt hlt⟩)
  · obtain ⟨hmem, hlt⟩ := mem_best.1 hx
    have hroom : (best key n (leaders key zone (insert c s))).card < n := by omega
    -- there is room behind the leaders, so that all leaders are taken, before and after
    have hall' := best_eq_self_of_card_lt hroom
    rw [hall'] at hmem hlt hroom
    have hall : best key n (leaders key zone s) = leaders key zone s :=
      best_of_card_lt ((card_leaders_le hc hinj).trans_lt hroom)
    have hxs : x ∈ s := Finset.mem_of_mem_insert_of_ne (Finset.mem_sdiff.1 hmem).1 hne
    rw [chosen, hall]
    by_cases hl : x ∈ leaders key zone s
    · exact Finset.mem_union_left _ hl
    refine Finset.mem_union_right _ (mem_best.2 ⟨Finset.mem_sdiff.2 ⟨hxs, hl⟩, ?_⟩)
    have hrest : (ahead key (s \ leaders key zone s) x).card + (leaders key zone s).card ≤
        (ahead key (insert c s \ leaders key zone (insert c s)) x).card + (leaders key zone (insert c s)).card :=
      card_ahead_rest_le hc hinj x
    omega

end Insert

/-! ## Losses -/

section Removed

variable {old new : Finset α} (hsub : ∀ x ∈ new, x ≠ c → x ∈ old) (hcard : old.card ≤ new.card)
include hsub hcard

/-- An entry is lost only if the new one is taken. -/
theorem mem_of_removed (hx : x ∈ old) (hx' : x ∉ new) : c ∈ new := by
  by_contra hc
  have hle : new ⊆ old := fun y hy => hsub y hy fun heq => hc (heq ▸ hy)
  rw [Finset.eq_of_subset_of_card_le hle hcard] at hx'
  exact hx' hx

theorem removed_unique (hx : x ∈ old) (hy : y ∈ old) (hx' : x ∉ new) (hy' : y ∉ new) : x = y := by
  by_contra hne
  have hle : new.erase c ⊆ (old.erase x).erase y := by
    intro z hz
    obtain ⟨hzc, hzn⟩ := Finset.mem_erase.1 hz
    refine Finset.mem_erase.2 ⟨?_, Finset.mem_erase.2 ⟨?_, hsub z hzn hzc⟩⟩
    · rintro rfl
      exact hy' hzn
    · rintro rfl
      exact hx' hzn
  have hcn := Finset.card_erase_of_mem (mem_of_removed hsub hcard hx hx')
  have hcx := Finset.card_erase_of_mem hx
  have hcy := Finset.card_erase_of_mem (Finset.mem_erase.2 ⟨fun h => hne h.symm, hy⟩)
  have hpos : 0 < (old.erase x).card := Finset.card_pos.2 ⟨y, Finset.mem_erase.2 ⟨fun h => hne h.symm, hy⟩⟩
  have := Finset.card_le_card hle
  omega

end Removed

end Sets

/-! ## Lists -/

variable (zone) in
/-- The first entry of each zone that is not used yet. -/
def firsts (used : List ζ) : List α → List α
  | [] => []
  | a :: l =>
    match zone a with
    | some z => if z ∈ used then firsts used l else a :: firsts (used ++ [z]) l
    | none => firsts used l

variable (zone) in
/-- Choose from a list that is in descending order: the first of each zone, then the first of the others. -/
def pick [DecidableEq α] (n : Nat) (l : List α) : List α :=
  (firsts zone [] l).take n ++
    (l.filter fun a => a ∉ (firsts zone [] l).take n).take (n - ((firsts zone [] l).take n).length)

variable {l : List α}

theorem firsts_sublist (zone : α → Option ζ) (used : List ζ) (l : List α) : (firsts zone used l).Sublist l := by
  induction l generalizing used with
  | nil => exact List.Sublist.refl _
  | cons a l ih =>
    rw [firsts]
    split
    · split
      · exact (ih used).cons a
      · exact (ih _).cons_cons a
    · exact (ih used).cons a

/-- In a list that descends the first of a zone is its highest. -/
theorem mem_firsts (h : Strict key l) :
    x ∈ firsts zone used l ↔ x ∈ l ∧ ∃ z, zone x = some z ∧ z ∉ used ∧ ∀ y ∈ l, zone y = some z → key y ≤ key x := by
  induction l generalizing used with
  | nil => simp [firsts]
  | cons a l ih =>
    obtain ⟨hal, hl⟩ := pairwise_cons.1 h
    -- an entry behind `a` is the highest of its zone only if `a` is not in it
    have hbehind : ∀ {z}, x ∈ l → zone x = some z →
        ((∀ y ∈ a :: l, zone y = some z → key y ≤ key x) ↔ zone a ≠ some z ∧ ∀ y ∈ l, zone y = some z → key y ≤ key x) := by
      intro z hx hz
      rw [forall_mem_cons]
      refine and_congr_left fun _ => ⟨fun himp heq => ?_, fun hne heq => absurd heq hne⟩
      exact absurd (himp heq) (not_le.2 (hal x hx))
    have hhead : x = a → x ∉ l := by
      rintro rfl hx
      exact lt_irrefl _ (hal x hx)
    have hskip : (∀ z, zone a = some z → z ∈ used) → (x ∈ firsts zone used l ↔
        x ∈ a :: l ∧ ∃ z, zone x = some z ∧ z ∉ used ∧ ∀ y ∈ a :: l, zone y = some z → key y ≤ key x) := by
      intro hused
      rw [ih hl]
      constructor
      · rintro ⟨hx, z, hz, hzu, hmax⟩
        exact ⟨mem_cons_of_mem _ hx, z, hz, hzu, (hbehind hx hz).2 ⟨fun heq => hzu (hused z heq), hmax⟩⟩
      rintro ⟨hx, z, hz, hzu, hmax⟩
      rcases mem_cons.1 hx with rfl | hx
      · exact absurd (hused z hz) hzu
      · exact ⟨hx, z, hz, hzu, ((hbehind hx hz).1 hmax).2⟩
    rw [firsts]
    cases hza : zone a with
    | none => exact hskip fun z hz => nomatch (hza.symm.trans hz)
    | some w =>
      dsimp only
      by_cases hw : w ∈ used
      · rw [if_pos hw]
        refine hskip fun z hz => ?_
        rw [hza, Option.some.injEq] at hz
        exact hz ▸ hw
      · rw [if_neg hw, mem_cons, ih hl]
        constructor
        · rintro (rfl | ⟨hx, z, hz, hzu, hmax⟩)
          · refine ⟨mem_cons_self, w, hza, hw, forall_mem_cons.2 ⟨fun _ => le_rfl, fun y hy _ => (hal y hy).le⟩⟩
          rw [mem_append, mem_singleton, not_or] at hzu
          refine ⟨mem_cons_of_mem _ hx, z, hz, hzu.1, (hbehind hx hz).2 ⟨fun heq => ?_, hmax⟩⟩
          rw [hza, Option.some.injEq] at heq
          exact hzu.2 heq.symm
        · rintro ⟨hx, z, hz, hzu, hmax⟩
          rcases mem_cons.1 hx with rfl | hx
          · exact .inl rfl
          obtain ⟨hne, hmax⟩ := (hbehind hx hz).1 hmax
          refine .inr ⟨hx, z, hz, ?_, hmax⟩
          rw [mem_append, mem_singleton, not_or]
          exact ⟨hzu, fun heq => hne (by rw [hza, heq])⟩

variable (zone) in
/-- The zones of some entries. -/
def zones (l : List α) : Finset ζ := (l.filterMap zone).toFinset

theorem mem_zones : z ∈ zones zone l ↔ ∃ a ∈ l, zone a = some z := by
  rw [zones, mem_toFinset, mem_filterMap]

theorem zones_mono (h : ∀ a ∈ l, a ∈ l') : zones zone l ⊆ zones zone l' := by
  intro z hz
  obtain ⟨a, ha, hza⟩ := mem_zones.1 hz
  exact mem_zones.2 ⟨a, h a ha, hza⟩

theorem card_zones_le (l : List α) : (zones zone l).card ≤ l.length :=
  (toFinset_card_le _).trans (length_filterMap_le _ _)

/-- The first entries of the zones are of zones, each of one of its own. -/
theorem map_firsts (zone : α → Option ζ) (used : List ζ) (l : List α) :
    ∃ zs : List ζ, (firsts zone used l).map zone = zs.map some ∧ zs.Nodup ∧ ∀ z, z ∈ zs ↔ z ∈ zones zone l ∧ z ∉ used := by
  induction l generalizing used with
  | nil => exact ⟨[], rfl, nodup_nil, by simp [zones]⟩
  | cons a l ih =>
    have hcons : ∀ z, z ∈ zones zone (a :: l) ↔ zone a = some z ∨ z ∈ zones zone l := by
      intro z
      rw [mem_zones, mem_zones]
      simp only [mem_cons, exists_eq_or_imp]
    rw [firsts]
    cases hza : zone a with
    | none =>
      obtain ⟨zs, hmap, hnd, hmem⟩ := ih used
      refine ⟨zs, hmap, hnd, fun z => ?_⟩
      rw [hmem, hcons, hza]
      simp
    | some w =>
      dsimp only
      by_cases hw : w ∈ used
      · obtain ⟨zs, hmap, hnd, hmem⟩ := ih used
        rw [if_pos hw]
        refine ⟨zs, hmap, hnd, fun z => ?_⟩
        rw [hmem, hcons, hza, Option.some.injEq]
        refine and_congr_left fun hz => ⟨.inr, fun hor => hor.resolve_left fun heq => hz (heq ▸ hw)⟩
      · obtain ⟨zs, hmap, hnd, hmem⟩ := ih (used ++ [w])
        rw [if_neg hw]
        have hwzs : w ∉ zs := fun hmem' => ((hmem w).1 hmem').2 (mem_append_right _ (mem_singleton_self w))
        refine ⟨w :: zs, by rw [map_cons, map_cons, hza, hmap], nodup_cons.2 ⟨hwzs, hnd⟩, fun z => ?_⟩
        rw [mem_cons, hmem, hcons, hza, Option.some.injEq, mem_append, mem_singleton, not_or]
        constructor
        · rintro (rfl | ⟨hz, hzu, -⟩)
          · exact ⟨.inl rfl, hw⟩
          · exact ⟨.inr hz, hzu⟩
        · rintro ⟨hz, hzu⟩
          by_cases heq : z = w
          · exact .inl heq
          · exact .inr ⟨hz.resolve_left fun h => heq h.symm, hzu, heq⟩

/-! ## What is chosen from a list -/

variable [DecidableEq α]

theorem toFinset_firsts (h : Strict key l) : (firsts zone [] l).toFinset = leaders key zone l.toFinset := by
  ext x
  rw [mem_toFinset, mem_firsts h, mem_leaders, mem_toFinset]
  refine and_congr_right fun _ => ⟨?_, ?_⟩
  · rintro ⟨z, hz, -, hmax⟩
    refine ⟨by rw [hz]; rfl, fun y hy hzy => hmax y (mem_toFinset.1 hy) (hzy.trans hz)⟩
  · rintro ⟨hz, hmax⟩
    obtain ⟨z, hz⟩ := Option.isSome_iff_exists.1 hz
    exact ⟨z, hz, not_mem_nil, fun y hy hzy => hmax y (mem_toFinset.2 hy) (hzy.trans hz.symm)⟩

/-- The first `n` of a list that descends are its best. -/
theorem toFinset_take (h : Strict key l) (n : Nat) : (l.take n).toFinset = best key n l.toFinset := by
  induction l generalizing n with
  | nil => rw [take_nil, toFinset_nil, best, Finset.filter_empty]
  | cons a l ih =>
    obtain ⟨hal, hl⟩ := pairwise_cons.1 h
    have ha : a ∉ l := fun hmem => lt_irrefl _ (hal a hmem)
    cases n with
    | zero => simp [best]
    | succ n =>
      have hfirst : ahead key (a :: l).toFinset a = ∅ := by
        refine Finset.eq_empty_of_forall_notMem fun y hy => ?_
        obtain ⟨hmem, hlt⟩ := mem_ahead.1 hy
        rcases mem_cons.1 (mem_toFinset.1 hmem) with rfl | hmem
        · exact lt_irrefl _ hlt
        · exact lt_asymm hlt (hal y hmem)
      have hrest : ∀ x ∈ l, (ahead key (a :: l).toFinset x).card = (ahead key l.toFinset x).card + 1 := by
        intro x hx
        have hinsert : ahead key (a :: l).toFinset x = insert a (ahead key l.toFinset x) := by
          rw [toFinset_cons, ahead, Finset.filter_insert, if_pos (hal x hx), ahead]
        rw [hinsert, Finset.card_insert_of_notMem]
        exact fun hmem => ha (mem_toFinset.1 (mem_ahead.1 hmem).1)
      ext x
      rw [take_succ_cons, toFinset_cons, Finset.mem_insert, ih hl, mem_best, mem_best, toFinset_cons,
        Finset.mem_insert, ← toFinset_cons]
      constructor
      · rintro (rfl | ⟨hx, hlt⟩)
        · exact ⟨.inl rfl, by rw [hfirst, Finset.card_empty]; exact Nat.succ_pos n⟩
        · exact ⟨.inr hx, by rw [hrest x (mem_toFinset.1 hx)]; exact Nat.succ_lt_succ hlt⟩
      · rintro ⟨rfl | hx, hlt⟩
        · exact .inl rfl
        · rw [hrest x (mem_toFinset.1 hx)] at hlt
          exact .inr ⟨hx, Nat.lt_of_succ_lt_succ hlt⟩

theorem toFinset_pick (h : Strict key l) (n : Nat) : (pick zone n l).toFinset = chosen key zone n l.toFinset := by
  have hfirsts := toFinset_take (h.sublist (firsts_sublist zone [] l)) n
  rw [toFinset_firsts h] at hfirsts
  have hnodup : ((firsts zone [] l).take n).Nodup :=
    h.nodup_map.of_map.sublist ((take_sublist _ _).trans (firsts_sublist zone [] l))
  have hlen : ((firsts zone [] l).take n).length = (best key n (leaders key zone l.toFinset)).card := by
    rw [← hfirsts, toFinset_card_of_nodup hnodup]
  have hothers : (l.filter fun a => a ∉ (firsts zone [] l).take n).toFinset =
      l.toFinset \ best key n (leaders key zone l.toFinset) := by
    ext x
    rw [mem_toFinset, mem_filter, Finset.mem_sdiff, mem_toFinset, ← hfirsts, mem_toFinset,
      decide_eq_true_eq]
  rw [pick, toFinset_append, toFinset_take (h.filter _), hothers, hfirsts, hlen, chosen]

section Nodup

variable (hl : l.Nodup)
include hl

theorem pick_nodup (n : Nat) : (pick zone n l).Nodup := by
  refine nodup_append.2 ⟨hl.sublist ((take_sublist _ _).trans (firsts_sublist zone [] l)),
    (hl.filter _).sublist (take_sublist _ _), ?_⟩
  intro a ha b hb heq
  have := (mem_filter.1 (mem_of_mem_take hb)).2
  exact of_decide_eq_true this (heq ▸ ha)

omit hl in
theorem pick_subset (hx : x ∈ pick zone n l) : x ∈ l := by
  rcases mem_append.1 hx with hx | hx
  · exact (firsts_sublist zone [] l).subset (mem_of_mem_take hx)
  · exact mem_of_mem_filter (mem_of_mem_take hx)

theorem length_pick (n : Nat) : (pick zone n l).length = min n l.length := by
  have hsub : ((firsts zone [] l).take n).Sublist l := (take_sublist _ _).trans (firsts_sublist zone [] l)
  have hothers : (l.filter fun a => a ∉ (firsts zone [] l).take n).length + ((firsts zone [] l).take n).length = l.length := by
    have hperm : (l.filter fun a => a ∈ (firsts zone [] l).take n).Perm ((firsts zone [] l).take n) := by
      rw [perm_ext_iff_of_nodup (hl.filter _) (hl.sublist hsub)]
      intro a
      rw [mem_filter, decide_eq_true_eq]
      exact ⟨fun h => h.2, fun h => ⟨hsub.subset h, h⟩⟩
    have hlen := length_eq_length_filter_add (l := l) fun a => decide (a ∈ (firsts zone [] l).take n)
    rw [hperm.length_eq] at hlen
    simp only [← decide_not] at hlen
    omega
  have hle : ((firsts zone [] l).take n).length ≤ n := length_take_le _ _
  generalize hls : (firsts zone [] l).take n = ls at hothers hle
  rw [pick, hls, length_append, length_take]
  omega

end Nodup

/-- The chosen entries cover as many zones as they can. -/
theorem card_zones_pick (hl : l.Nodup) (n : Nat) : (zones zone (pick zone n l)).card = min n (zones zone l).card := by
  obtain ⟨zs, hmap, hnd, hmem⟩ := map_firsts zone [] l
  have hzs : (zones zone l).card = zs.length := by
    rw [← toFinset_card_of_nodup hnd]
    congr 1
    ext z
    rw [mem_toFinset, hmem]
    simp
  refine le_antisymm (le_min ?_ (Finset.card_le_card (zones_mono fun _ => pick_subset))) ?_
  · exact (card_zones_le _).trans ((length_pick hl n).trans_le (min_le_left _ _))
  have hsub : (zs.take n).toFinset ⊆ zones zone (pick zone n l) := by
    intro z hz
    have hz' : some z ∈ ((firsts zone [] l).take n).map zone := by
      rw [map_take, hmap, ← map_take]
      exact mem_map_of_mem (mem_toFinset.1 hz)
    obtain ⟨a, ha, hza⟩ := mem_map.1 hz'
    exact mem_zones.2 ⟨a, mem_append_left _ ha, hza⟩
  calc min n (zones zone l).card = (zs.take n).length := by rw [hzs, length_take]
    _ = (zs.take n).toFinset.card := (toFinset_card_of_nodup (hnd.sublist (take_sublist _ _))).symm
    _ ≤ (zones zone (pick zone n l)).card := Finset.card_le_card hsub

end Spread
