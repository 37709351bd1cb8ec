import Marekvs.Core.ElementRecord

/-!
# The join of element records over their dot sets

A dot is written once, so it carries one value wherever it travels, and a version is stamped on one write, so it has one TTL
(`Conforms val ttlOf`). Among records that conform, a record is its type, its version and its two dot sets, and for the plain
element types the join is the capped observed-remove join of the dot sets.
-/

namespace Marekvs

open Desc TopN ElementState

namespace ElementRecord

def dots (r : ElementRecord) : OrSet Dot := r.state.toOrSet

/-- Every live dot carries the value, and the version the TTL, that the assignments give it. -/
structure Conforms (val : Dot → Bytes) (ttlOf : Version → UInt64) (r : ElementRecord) : Prop where
  value : ∀ e ∈ r.state.live, e.2 = val e.1
  ttl : r.ttl = ttlOf r.version

variable {val : Dot → Bytes} {ttlOf : Version → UInt64} {r s x y z : ElementRecord}

theorem mem_dots_live : d ∈ r.dots.live ↔ ∃ e ∈ r.state.live, e.1 = d := mem_keys

theorem mem_dots_covered : d ∈ r.dots.covered ↔ d ∈ r.state.covered := by
  show d ∈ keys id r.state.covered ↔ _
  simp [mem_keys]

theorem dots_disjoint (r : ElementRecord) : Disjoint r.dots.live r.dots.covered := by
  refine Finset.disjoint_left.2 fun d hl hc => ?_
  obtain ⟨e, he, rfl⟩ := mem_dots_live.1 hl
  exact r.canonical.uncovered e he (mem_dots_covered.1 hc)

/-- A conforming record's live entries are its live dots with the values assigned to them. -/
theorem Conforms.mem_live (hr : r.Conforms val ttlOf) : e ∈ r.state.live ↔ e.1 ∈ r.dots.live ∧ e.2 = val e.1 := by
  constructor
  · intro he
    exact ⟨mem_dots_live.2 ⟨e, he, rfl⟩, hr.value e he⟩
  · rintro ⟨hd, hv⟩
    obtain ⟨e', he', hd'⟩ := mem_dots_live.1 hd
    rwa [show e = e' from Prod.ext hd'.symm (by rw [hv, hr.value e' he', hd'])]

theorem isTombstone_iff (r : ElementRecord) : r.envelope.isTombstone = true ↔ r.state.live = [] := by
  rw [envelope, Envelope.isTombstone_flagsOf, isDead, List.isEmpty_iff]

/-- A state is its dot sets with the values assigned to the live ones. -/
theorem state_ext (hr : ∀ e ∈ r.state.live, e.2 = val e.1) (hs : ∀ e ∈ s.state.live, e.2 = val e.1) (hd : r.dots = s.dots) :
    r.state = s.state := by
  have hlive : r.state.live = s.state.live := by
    refine r.canonical.live_strict.ext_keys s.canonical.live_strict (congrArg OrSet.live hd) fun a ha b hb hab => ?_
    exact Prod.ext hab (by rw [hr a ha, hs b hb, hab])
  have hcov : r.state.covered = s.state.covered :=
    r.canonical.covered_strict.ext_keys s.canonical.covered_strict (congrArg OrSet.covered hd) fun _ _ _ _ hab => hab
  cases hr' : r.state
  cases hs' : s.state
  rw [hr', hs'] at hlive hcov
  cases hlive
  cases hcov
  rfl

/-- Records that conform are determined by type, version and dot sets. -/
theorem Conforms.ext (hr : r.Conforms val ttlOf) (hs : s.Conforms val ttlOf) (ht : r.rtype = s.rtype)
    (hv : r.version = s.version) (hd : r.dots = s.dots) : r = s :=
  ext_data ht hv (by rw [hr.ttl, hs.ttl, hv]) (state_ext hr.value hs.value hd)

theorem Conforms.join (hr : r.Conforms val ttlOf) (hs : s.Conforms val ttlOf) : (r.join s).Conforms val ttlOf where
  value e he := (mem_of_mem_joinStates he).elim (hr.value e) (hs.value e)
  ttl := by
    show (if r.version < s.version then s.ttl else r.ttl) = ttlOf (max r.version s.version)
    split
    · rename_i h
      rw [max_eq_right h.le, hs.ttl]
    · rename_i h
      rw [max_eq_left (not_lt.1 h), hr.ttl]

/-! ## Plain element types -/

/-- An element type whose merge does not collapse entries by origin. -/
def Plain (t : RecordType) : Prop := t = .hashField ∨ t = .setMember ∨ t = .zsetMember

@[simp] theorem maxType_self (t : RecordType) : maxType t t = t := by
  cases t <;> decide

theorem join_rtype (hr : r.rtype = t) (hs : s.rtype = t) : (r.join s).rtype = t := by
  show maxType r.rtype s.rtype = t
  rw [hr, hs, maxType_self]

theorem Plain.ne_counterField (h : Plain t) : t ≠ .counterField := by
  rcases h with rfl | rfl | rfl <;> decide

theorem dots_join (ht : Plain t) (hr : r.rtype = t) (hs : s.rtype = t) :
    (r.join s).dots = OrSet.join MAX_LIVE_DOTS MAX_TOMB_DOTS r.dots s.dots := by
  show (joinStates (maxType r.rtype s.rtype) r.state s.state).toOrSet = _
  rw [hr, hs, maxType_self, joinStates, if_neg ht.ne_counterField, toOrSet_normalize_append]
  rfl

/-! ## Folds -/

variable (rs : List ElementRecord)

theorem foldl_mergeResolve_encode :
    rs.foldl (fun acc s => mergeResolve acc s.encode) r.encode = (rs.foldl join r).encode := by
  induction rs generalizing r with
  | nil => rfl
  | cons s rs ih => rw [List.foldl_cons, List.foldl_cons, mergeResolve_encode, ih]

theorem foldl_join_conforms (hr : r.Conforms val ttlOf) (h : ∀ s ∈ rs, s.Conforms val ttlOf) :
    (rs.foldl join r).Conforms val ttlOf := by
  induction rs generalizing r with
  | nil => exact hr
  | cons s rs ih =>
    exact ih (hr.join (h s List.mem_cons_self)) fun s' hs' => h s' (List.mem_cons_of_mem _ hs')

theorem foldl_join_rtype (hr : r.rtype = t) (h : ∀ s ∈ rs, s.rtype = t) :
    (rs.foldl join r).rtype = t := by
  induction rs generalizing r with
  | nil => exact hr
  | cons s rs ih =>
    exact ih (join_rtype hr (h s List.mem_cons_self)) fun s' hs' => h s' (List.mem_cons_of_mem _ hs')

theorem foldl_join_version (r : ElementRecord) :
    (rs.foldl join r).version = (rs.map version).foldl max r.version := by
  induction rs generalizing r with
  | nil => rfl
  | cons s rs ih => rw [List.foldl_cons, ih, List.map_cons, List.foldl_cons]; rfl

theorem foldl_join_dots (htp : Plain t) (rs : List ElementRecord) (hr : r.rtype = t) (h : ∀ s ∈ rs, s.rtype = t) :
    (rs.foldl join r).dots = (rs.map dots).foldl (OrSet.join MAX_LIVE_DOTS MAX_TOMB_DOTS) r.dots := by
  induction rs generalizing r with
  | nil => rfl
  | cons s rs ih =>
    have hs := h s List.mem_cons_self
    rw [List.foldl_cons, ih (join_rtype hr hs) fun s' hs' => h s' (List.mem_cons_of_mem _ hs'), dots_join htp hr hs]
    rfl

end ElementRecord

/-- The adds of any of the records. -/
def liveDots (xs : List ElementRecord) : Finset Dot := OrSet.liveUnion (xs.map ElementRecord.dots)

/-- The dots any of the records covers. -/
def coveredDots (xs : List ElementRecord) : Finset Dot := OrSet.coveredUnion (xs.map ElementRecord.dots)

end Marekvs
