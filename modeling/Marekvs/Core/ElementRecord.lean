import Marekvs.Core.Merge
import Marekvs.Lib.OrSet

/-!
# Canonical element records

`ElementRecord` is an element record whose bytes are canonical: its state is sorted, free of repeats, within its caps and
without a live dot that it also covers. These are what `encodeElement` writes, and merging two of them through the byte codec is
the join of the states (`mergeResolve_encode`).
-/

namespace Marekvs

open Desc TopN Envelope

namespace ElementState

/-! ## The codec -/

/-- Every value fits a 64-bit length. -/
def SmallValues (st : ElementState) : Prop := ∀ e ∈ st.live, e.2.length < 2 ^ 64

instance (st : ElementState) : Decidable st.SmallValues := inferInstanceAs (Decidable (∀ e ∈ st.live, e.2.length < 2 ^ 64))

@[simp] theorem length_encodeDot (d : Dot) : (encodeDot d).length = 10 := by simp [encodeDot]

theorem decodeDot_encodeDot (d : Dot) (rest : Bytes) : decodeDot (encodeDot d ++ rest) = d := by
  simp [decodeDot, encodeDot]

theorem decodeLive_flatMap {live : List (Dot × Bytes)} (h : ∀ e ∈ live, e.2.length < 2 ^ 64) (rest : Bytes) :
    decodeLive live.length (live.flatMap encodeLive ++ rest) = some (live, rest) := by
  induction live with
  | nil => rfl
  | cons e live ih =>
    have hv := Bytes.getVarint_putVarint (h e List.mem_cons_self) (e.2 ++ (live.flatMap encodeLive ++ rest))
    have hlive := ih fun e' he' => h e' (List.mem_cons_of_mem _ he')
    rw [List.flatMap_cons, encodeLive, List.append_assoc, List.append_assoc, List.append_assoc, List.length_cons, decodeLive,
      List.drop_left' (length_encodeDot e.1), hv, decodeDot_encodeDot, if_neg (by simp)]
    simp only [List.drop_left]
    rw [if_neg (by simp), hlive, List.take_left]

theorem decodeCovered_flatMap (covered : List Dot) (rest : Bytes) :
    decodeCovered covered.length (covered.flatMap encodeDot ++ rest) = covered := by
  induction covered with
  | nil => rfl
  | cons d covered ih =>
    rw [List.flatMap_cons, List.append_assoc, List.length_cons, decodeCovered, List.drop_left' (length_encodeDot d), ih,
      decodeDot_encodeDot]

/-- A state whose lists fit their one-byte counts reads back from its payload. -/
theorem decode_encode {st : ElementState} (hs : st.SmallValues) (hl : st.live.length < 256) (hc : st.covered.length < 256) :
    decode st.encode = some st := by
  have hnl : (UInt8.ofNat st.live.length).toNat = st.live.length := by
    rw [UInt8.toNat_ofNat']
    exact Nat.mod_eq_of_lt hl
  have hnc : (UInt8.ofNat st.covered.length).toNat = st.covered.length := by
    rw [UInt8.toNat_ofNat']
    exact Nat.mod_eq_of_lt hc
  have hbytes : (st.covered.flatMap encodeDot).length = st.covered.length * 10 := by simp [List.length_flatMap]
  have hcov := decodeCovered_flatMap st.covered []
  rw [List.append_nil] at hcov
  rw [encode, decode, hnl, decodeLive_flatMap hs]
  simp only [hnc, hbytes, lt_irrefl, if_false, hcov]

/-! ## Canonical states -/

/-- A state as `normalize` leaves it. -/
structure Canonical (st : ElementState) : Prop where
  live_strict : Strict Prod.fst st.live
  covered_strict : Strict id st.covered
  uncovered : ∀ e ∈ st.live, e.1 ∉ st.covered
  live_le : st.live.length ≤ MAX_LIVE_DOTS
  covered_le : st.covered.length ≤ MAX_TOMB_DOTS

theorem normalize_canonical (st : ElementState) : st.normalize.Canonical where
  live_strict := ((strict_dedupKey_sortDesc st.live).filter _).take _
  covered_strict := (strict_dedupKey_sortDesc st.covered).take _
  uncovered _ he := of_decide_eq_true (List.mem_filter.1 (List.mem_of_mem_take he)).2
  live_le := List.length_take_le _ _
  covered_le := List.length_take_le _ _

theorem Canonical.normalize_eq {st : ElementState} (h : st.Canonical) : st.normalize = st := by
  have hc : (dedupKey id (sortDesc id st.covered)).take MAX_TOMB_DOTS = st.covered := by
    rw [dedupKey_sortDesc_of_strict h.covered_strict, List.take_of_length_le h.covered_le]
  have hf : st.live.filter (fun e => e.1 ∉ st.covered) = st.live :=
    List.filter_eq_self.2 fun e he => by simpa using h.uncovered e he
  rw [normalize, hc, dedupKey_sortDesc_of_strict h.live_strict, hf, List.take_of_length_le h.live_le]

theorem mem_of_mem_normalize {st : ElementState} (h : e ∈ st.normalize.live) : e ∈ st.live :=
  mem_sortDesc.1 (mem_of_mem_dedupKey (List.mem_of_mem_filter (List.mem_of_mem_take h)))

theorem Canonical.decode_encode (h : st.Canonical) (hs : st.SmallValues) : decode st.encode = some st :=
  ElementState.decode_encode hs (lt_of_le_of_lt h.live_le (by decide)) (lt_of_le_of_lt h.covered_le (by decide))

/-! ## Dot sets -/

def toOrSet (st : ElementState) : OrSet Dot := ⟨keys Prod.fst st.live, keys id st.covered⟩

theorem toOrSet_normalize (st : ElementState) :
    st.normalize.toOrSet =
      ⟨top MAX_LIVE_DOTS (st.toOrSet.live \ top MAX_TOMB_DOTS st.toOrSet.covered),
        top MAX_TOMB_DOTS st.toOrSet.covered⟩ := by
  have hc : keys id ((dedupKey id (sortDesc id st.covered)).take MAX_TOMB_DOTS) = top MAX_TOMB_DOTS (keys id st.covered) := by
    rw [(strict_dedupKey_sortDesc st.covered).keys_take, keys_dedupKey, keys_sortDesc]
  have hmem : ∀ d : Dot, d ∈ (dedupKey id (sortDesc id st.covered)).take MAX_TOMB_DOTS ↔
      d ∈ top MAX_TOMB_DOTS (keys id st.covered) := by
    intro d
    rw [← hc, mem_keys]
    simp
  refine OrSet.ext ?_ hc
  simp only [toOrSet, normalize]
  rw [((strict_dedupKey_sortDesc st.live).filter _).keys_take]
  congr 1
  rw [keys_filter fun d => d ∉ (dedupKey id (sortDesc id st.covered)).take MAX_TOMB_DOTS, keys_dedupKey, keys_sortDesc]
  ext d
  rw [Finset.mem_filter, Finset.mem_sdiff, hmem]

/-- The normalised union of two states has the joined dot sets. -/
theorem toOrSet_normalize_append (l i : ElementState) :
    (normalize ⟨l.live ++ i.live, l.covered ++ i.covered⟩).toOrSet =
      OrSet.join MAX_LIVE_DOTS MAX_TOMB_DOTS l.toOrSet i.toOrSet := by
  rw [toOrSet_normalize]
  simp only [toOrSet, keys_append, OrSet.join, OrSet.uncovered, OrSet.coveredOf]

/-! ## One entry for each origin -/

theorem collapseFrom_sublist (seen : List NodeId) (live : List (Dot × Bytes)) : (collapseFrom seen live).Sublist live := by
  induction live generalizing seen with
  | nil => exact List.Sublist.refl _
  | cons e live ih =>
    rw [collapseFrom]
    split
    · exact (ih seen).cons _
    · exact (ih _).cons_cons _

theorem collapseFrom_origins (seen : List NodeId) (live : List (Dot × Bytes)) :
    ((collapseFrom seen live).map fun e => e.1.origin).Nodup ∧ ∀ e ∈ collapseFrom seen live, e.1.origin ∉ seen := by
  induction live generalizing seen with
  | nil => exact ⟨List.nodup_nil, nofun⟩
  | cons e live ih =>
    rw [collapseFrom]
    split
    · exact ih seen
    rename_i hseen
    obtain ⟨hnd, hnot⟩ := ih (e.1.origin :: seen)
    refine ⟨List.nodup_cons.2 ⟨fun hmem => ?_, hnd⟩, fun e' he' => ?_⟩
    · obtain ⟨e', he', ho⟩ := List.mem_map.1 hmem
      exact hnot e' he' (ho ▸ List.mem_cons_self)
    · rcases List.mem_cons.1 he' with rfl | he'
      · exact hseen
      · exact fun hmem => hnot e' he' (List.mem_cons_of_mem _ hmem)

theorem Canonical.collapse {st : ElementState} (h : st.Canonical) : st.collapsePerOrigin.Canonical where
  live_strict := h.live_strict.sublist (collapseFrom_sublist [] st.live)
  covered_strict := h.covered_strict
  uncovered e he := h.uncovered e ((collapseFrom_sublist [] st.live).subset he)
  live_le := ((collapseFrom_sublist [] st.live).length_le).trans h.live_le
  covered_le := h.covered_le

end ElementState

open ElementState

/-! ## Records -/

/-- A canonical element record. -/
structure ElementRecord where
  rtype : RecordType
  version : Version
  ttl : UInt64
  state : ElementState
  orElement : rtype.isOrElement = true
  canonical : state.Canonical
  small : state.SmallValues
  collapsed : rtype = .counterField → (state.live.map fun e => e.1.origin).Nodup

namespace ElementRecord

@[ext] theorem ext_data {r s : ElementRecord} (ht : r.rtype = s.rtype) (hv : r.version = s.version) (httl : r.ttl = s.ttl)
    (hst : r.state = s.state) : r = s := by
  cases r
  cases s
  cases ht
  cases hv
  cases httl
  cases hst
  rfl

variable (r : ElementRecord)

def envelope : Envelope :=
  ⟨Envelope.flagsOf r.rtype r.state.isDead, r.version.hlc, r.version.origin, r.ttl⟩

def encode (r : ElementRecord) : Bytes := r.envelope.encodeWith r.state.encode

theorem encode_eq : r.encode = encodeElement r.rtype r.version r.ttl r.state := by
  rw [encodeElement, r.canonical.normalize_eq]
  rfl

@[simp] theorem decode_encode : Envelope.decode r.encode = some (r.envelope, r.state.encode) :=
  decode_encodeWith _ _

@[simp] theorem decode_state_encode : ElementState.decode r.state.encode = some r.state :=
  r.canonical.decode_encode r.small

theorem encode_inj {r s : ElementRecord} : r.encode = s.encode ↔ r = s := by
  constructor
  · intro h
    obtain ⟨henv, hpay⟩ := encodeWith_inj.1 h
    have hst : r.state = s.state := by
      have := r.decode_state_encode
      rw [hpay, s.decode_state_encode] at this
      exact (Option.some.inj this).symm
    have ht : r.rtype = s.rtype := by
      have := congrArg Envelope.rtype henv
      simpa [envelope] using this
    have hv : r.version = s.version := congrArg Envelope.version henv
    exact ext_data ht hv (congrArg Envelope.ttlDeadlineMs henv) hst
  · rintro rfl
    rfl

theorem isOrElement_maxType (ha : a.isOrElement = true) (hb : b.isOrElement = true) : (maxType a b).isOrElement = true := by
  revert ha hb
  cases a <;> cases b <;> decide

theorem joinStates_canonical (t : RecordType) (l i : ElementState) : (joinStates t l i).Canonical := by
  unfold joinStates
  split
  · exact (normalize_canonical _).collapse
  · exact normalize_canonical _

theorem mem_of_mem_joinStates {t : RecordType} (h : e ∈ (joinStates t l i).live) : e ∈ l.live ∨ e ∈ i.live := by
  have : e ∈ (ElementState.normalize ⟨l.live ++ i.live, l.covered ++ i.covered⟩).live := by
    unfold joinStates at h
    split at h
    · exact (collapseFrom_sublist [] _).subset h
    · exact h
  exact List.mem_append.1 (mem_of_mem_normalize this)

theorem joinStates_collapsed (l i : ElementState) :
    ((joinStates .counterField l i).live.map fun e => e.1.origin).Nodup := (collapseFrom_origins [] _).1

/-- The join of two records: states joined, the greater type, the newer version and its TTL. -/
def join (r s : ElementRecord) : ElementRecord where
  rtype := maxType r.rtype s.rtype
  version := max r.version s.version
  ttl := if r.version < s.version then s.ttl else r.ttl
  state := joinStates (maxType r.rtype s.rtype) r.state s.state
  orElement := isOrElement_maxType r.orElement s.orElement
  canonical := joinStates_canonical _ _ _
  small e he := (mem_of_mem_joinStates he).elim (r.small e) (s.small e)
  collapsed h := h ▸ joinStates_collapsed _ _

/-- Merging the bytes of two canonical records stores the bytes of their join. -/
theorem mergeResolve_encode (r s : ElementRecord) : mergeResolve r.encode s.encode = (r.join s).encode := by
  have hne : ∀ t : RecordType, t.isOrElement = true → t ≠ .counter ∧ t ≠ .hllRegister := by
    intro t
    cases t <;> decide
  have hr : r.envelope.rtype = r.rtype := rtype_flagsOf _ _ _ _ _
  have hs : s.envelope.rtype = s.rtype := rtype_flagsOf _ _ _ _ _
  have hrh : r.envelope.isHead = false := isHead_flagsOf _ _ _ _ _
  have hsh : s.envelope.isHead = false := isHead_flagsOf _ _ _ _ _
  rw [mergeResolve, mergeValues, decode_encode, decode_encode]
  simp only [hr, hs, hrh, hsh, (hne r.rtype r.orElement).1, (hne r.rtype r.orElement).2, s.orElement, false_and, if_false,
    Bool.not_true, Bool.false_eq_true, or_self, decode_state_encode, mergeElements, resolve_outcomeOf]
  rw [encode_eq]
  rfl

/-- The record that `encodeElement` writes for a state of a plain element type. -/
def ofState (t : RecordType) (version : Version) (ttl : UInt64) (st : ElementState) (ht : t.isOrElement = true)
    (hne : t ≠ .counterField) (hs : st.SmallValues) : ElementRecord where
  rtype := t
  version := version
  ttl := ttl
  state := st.normalize
  orElement := ht
  canonical := normalize_canonical st
  small e he := hs e (mem_of_mem_normalize he)
  collapsed h := absurd h hne

theorem encode_ofState (t : RecordType) (version : Version) (ttl : UInt64) (st : ElementState) (ht : t.isOrElement = true)
    (hne : t ≠ .counterField) (hs : st.SmallValues) :
    (ofState t version ttl st ht hne hs).encode = encodeElement t version ttl st := rfl

end ElementRecord

end Marekvs
