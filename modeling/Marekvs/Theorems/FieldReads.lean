import Marekvs.Lemmas.Decimal
import Marekvs.Lemmas.FieldInv

/-!
# What a hash field shows after a write

A write adds a dot on top of the live ones, and the record keeps four of them, in a counter field one for each node. A counter
field shows the sum of all counters that are still live: HSET is overruled by the counters of other nodes that stay beside it,
and HINCRBY answers with the counters it saw and shows those that stay. Both need a fresh stamp: the clock follows a peer only
five seconds past the wall clock, and a write below what is stored or below the hash's delete clock is not shown.
-/

namespace Marekvs

open Option CounterState

open Desc ElementState ElementRecord

/-- The entries that stay in a counter field beside a fresh one of the node's: of the three newest, the newest of each other
node. -/
def ElementState.beside (st : ElementState) (node : NodeId) : List (Dot × Bytes) :=
  collapseFrom [node] (st.live.take (MAX_LIVE_DOTS - 1))

/-- A stamp newer than all that a record holds. -/
structure ElementRecord.Before (r : ElementRecord) (d : Dot) : Prop where
  live : ∀ e ∈ r.state.live, e.1 < d
  covered : ∀ c ∈ r.state.covered, c < d
  version : r.version < d

/-! ## A fresh entry -/

section Fresh

variable {st : ElementState} (hst : st.Canonical) {e : Dot × Bytes} (hlive : ∀ x ∈ st.live, x.1 < e.1)
  (hcov : ∀ c ∈ st.covered, c < e.1)
include hst hlive hcov

/-- A fresh entry goes to the front of the live ones. -/
theorem normalize_fresh {live : List (Dot × Bytes)} (hmem : ∀ x, x ∈ live ↔ x = e ∨ x ∈ st.live) {covered : List Dot}
    (hc : ∀ c, c ∈ covered ↔ c ∈ st.covered) :
    ElementState.normalize ⟨live, covered⟩ = ⟨e :: st.live.take (MAX_LIVE_DOTS - 1), st.covered⟩ := by
  have hstrict : Strict Prod.fst (e :: st.live) := List.pairwise_cons.2 ⟨hlive, hst.live_strict⟩
  have hsort : dedupKey Prod.fst (sortDesc Prod.fst live) = e :: st.live := by
    refine (strict_dedupKey_sortDesc live).ext_keys hstrict ?_ fun a ha b hb hab => ?_
    · ext k
      simp [mem_keys, hmem, eq_comm]
    · have ha' : a ∈ e :: st.live := List.mem_cons.2 ((hmem a).1 (mem_sortDesc.1 (mem_of_mem_dedupKey ha)))
      exact List.inj_on_of_nodup_map hstrict.nodup_map ha' hb hab
  have hcovered : dedupKey id (sortDesc id covered) = st.covered := by
    refine (strict_dedupKey_sortDesc covered).ext_keys hst.covered_strict ?_ fun _ _ _ _ hab => hab
    ext k
    simp [mem_keys, hc]
  have hkeep : (e :: st.live).filter (fun x => x.1 ∉ st.covered) = e :: st.live := by
    refine List.filter_eq_self.2 fun x hx => decide_eq_true ?_
    rcases List.mem_cons.1 hx with rfl | hx
    · exact fun h => lt_irrefl _ (hcov _ h)
    · exact hst.uncovered x hx
  unfold ElementState.normalize
  simp only [hsort, hcovered, List.take_of_length_le hst.covered_le, hkeep]
  rfl

theorem joinStates_fresh {s : ElementState} (hs : ∀ x ∈ s.live, x = e ∨ x ∈ st.live) (he : e ∈ s.live)
    (hc : s.covered ⊆ st.covered)
    (t : RecordType) : joinStates t st s = ⟨if t = .counterField then e :: st.beside e.1.origin
      else e :: st.live.take (MAX_LIVE_DOTS - 1), st.covered⟩ := by
  have hmem : ∀ x, x ∈ st.live ++ s.live ↔ x = e ∨ x ∈ st.live := by
    intro x
    rw [List.mem_append]
    constructor
    · rintro (h | h)
      · exact .inr h
      · exact hs x h
    · rintro (rfl | h)
      · exact .inr he
      · exact .inl h
  have hcs : ∀ c, c ∈ st.covered ++ s.covered ↔ c ∈ st.covered := by
    intro c
    rw [List.mem_append]
    exact ⟨fun h => h.elim id fun h => hc h, .inl⟩
  unfold joinStates
  rw [normalize_fresh hst hlive hcov hmem hcs]
  dsimp only
  split
  · simp [collapsePerOrigin, collapseFrom, beside]
  · rfl

end Fresh

/-- What is shown of a record that holds a fresh entry. -/
theorem readField_join {r s : ElementRecord} (hfresh : r.Before e.1) (hs : ∀ x ∈ s.state.live, x = e ∨ x ∈ r.state.live)
    (he : e ∈ s.state.live) (hc : s.state.covered ⊆ r.state.covered) (hversion : s.version = e.1) (httl : s.ttl = 0)
    (hdel : delHlc < e.1.hlc) (now : UInt64) :
    readField (some (r.join s).encode) delHlc now = some
      (if maxType r.rtype s.rtype = .counterField then
        (((foldCounters (e :: r.state.beside e.1.origin)).bind CounterState.value).map formatI64).getD e.2 else e.2) := by
  have hstate : (r.join s).state = _ := joinStates_fresh r.canonical hfresh.live hfresh.covered hs he hc (maxType r.rtype s.rtype)
  have hv : (r.join s).version = e.1 := by
    show max r.version s.version = e.1
    rw [hversion, max_eq_right hfresh.version.le]
  have ht : (r.join s).ttl = 0 := by
    show (if r.version < s.version then s.ttl else r.ttl) = 0
    rw [hversion, if_pos hfresh.version, httl]
  have hrtype : (r.join s).rtype = maxType r.rtype s.rtype := rfl
  have hhead : (r.join s).state.live.head? = some e := by
    rw [hstate]
    split <;> rfl
  have hdead : (r.join s).state.isDead = false := by
    rw [isDead]
    cases hl : (r.join s).state.live with
    | nil => rw [hl] at hhead; cases hhead
    | cons x l => rfl
  have hvisible : visible (r.join s).envelope delHlc now = true := by
    simp [visible, envelope, hdead, Envelope.isExpired, ht, hv, hdel]
  have hvalue : elementValue (r.join s).state.encode = some e.2 := by
    rw [elementValue, decode_state_encode, bind_some, ElementState.value, hhead]
    rfl
  rw [readField, readLww, bind_some, ElementRecord.decode_encode]
  simp only [hvisible, if_true, bind_some, elementDisplayValue]
  rw [show (r.join s).envelope.rtype = maxType r.rtype s.rtype from Envelope.rtype_flagsOf _ _ _ _ _, hvalue]
  split
  · rename_i hcount
    rw [counterFieldValue, counterFieldState, decode_state_encode, bind_some, hstate, if_pos hcount]
    cases ((foldCounters (e :: r.state.beside e.1.origin)).bind value) <;> rfl
  · rfl

/-! ## HSET -/

/-- Node 2's counter, at five. -/
def fiveOfTwo : ElementRecord :=
  fieldRecord ⟨65536, 2⟩ [(⟨65536, 2⟩, (entryState ⟨2, 5, 0⟩).encode)] (by decide)

theorem fiveOfTwo_before (h : (⟨65536, 2⟩ : Dot) < d) : fiveOfTwo.Before d := by
  refine ⟨fun e he => ?_, nofun, h⟩
  rw [List.mem_singleton.1 (mem_fieldRecord he)]
  exact h

/-- The record of an increment on top of a state. -/
def counterRecord (version : Version) (st : ElementState) (hs : st.SmallValues) : ElementRecord where
  rtype := .counterField
  version := version
  ttl := 0
  state := st.normalize.collapsePerOrigin
  orElement := by decide
  canonical := (normalize_canonical _).collapse
  small e he := hs e (mem_of_mem_normalize ((collapseFrom_sublist [] _).subset he))
  collapsed _ := (collapseFrom_origins [] _).1

/-- The counters that stay in a field when a node adds to it, joined: the node's stored totals, raised by the increment, on the
base that was seen, and the stored counters beside them. -/
def ElementState.staying (st : ElementState) (seen : CounterState) (node : NodeId) (delta : Int64) : CounterState :=
  let own := (seen.slots.find? fun s => s.node = node).getD ⟨node, 0, 0⟩
  ((st.beside node).filterMap fun e => asCounter e.2).foldl merge { seen with slots := [bumpSlot delta ⟨node, own.pos, own.neg⟩] }

theorem length_slots_ownEntry (c : CounterState) (node : NodeId) (delta : Int64) : (ownEntry c node delta).slots.length = 1 := by
  simp [ownEntry, bump, upsert]

theorem encode_ownEntry_ne (c : CounterState) (node : NodeId) (delta v : Int64) :
    (ownEntry c node delta).encode ≠ formatI64 v := by
  intro h
  have hdecode := decode_encode (c := ownEntry c node delta) (by rw [length_slots_ownEntry]; decide)
  rw [h, decode_formatI64] at hdecode
  cases hdecode

theorem foldl_foldEntry (c : CounterState) (live : List (Dot × Bytes)) :
    live.foldl foldEntry (some c) = some ((live.filterMap fun e => asCounter e.2).foldl merge c) := by
  induction live generalizing c with
  | nil => rfl
  | cons e live ih =>
    rw [List.foldl_cons, List.filterMap_cons, foldEntry]
    cases asCounter e.2 with
    | none => exact ih c
    | some c' => exact ih (merge c c')

/-- The entry that an increment writes is folded with those that stay beside it. -/
theorem foldCounters_ownEntry (d : Dot) (st : ElementState) (seen : CounterState) (node : NodeId) (delta : Int64) :
    foldCounters ((d, (ownEntry seen node delta).encode) :: st.beside node) = some (st.staying seen node delta) := by
  have hone := length_slots_ownEntry seen node delta
  have hown : asCounter (ownEntry seen node delta).encode = some (ownEntry seen node delta) :=
    asCounter_encode (List.ne_nil_of_length_pos (by omega)) (by rw [hone]; decide)
  rw [foldCounters_eq, List.foldl_cons, foldEntry, hown]
  refine (foldl_foldEntry _ _).trans ?_
  simp [staying, ownEntry, bump, upsert]

theorem readField_increment {r : ElementRecord} (hfield : r.rtype = .hashField ∨ r.rtype = .counterField) {hlc : UInt64}
    (hfresh : r.Before ⟨hlc, node⟩) {delHlc : UInt64} (hdel : delHlc < hlc) (now : UInt64) {mine : Bytes}
    (hsmall : mine.length < 2 ^ 64) :
    readField (some (writeMerged (some r.encode)
      (counterFieldSet hlc node ((readLww (some r.encode) delHlc now).map Prod.snd) mine)))
      delHlc now =
        some ((((foldCounters ((⟨hlc, node⟩, mine) :: r.state.beside node)).bind CounterState.value).map
          formatI64).getD mine) := by
  -- the increment is put on the record's state, if that is visible
  obtain ⟨st, hprior, hcan, hsub, hsubc⟩ : ∃ st : ElementState,
      (((readLww (some r.encode) delHlc now).map Prod.snd).bind ElementState.decode).getD ⟨[], []⟩ = st ∧ st.Canonical ∧
        st.live ⊆ r.state.live ∧ st.covered ⊆ r.state.covered := by
    unfold readLww
    rw [bind_some, ElementRecord.decode_encode]
    dsimp only
    split
    · refine ⟨r.state, ?_, r.canonical, fun _ h => h, fun _ h => h⟩
      rw [map_some, bind_some, decode_state_encode, getD_some]
    · exact ⟨⟨[], []⟩, rfl, normalize_canonical ⟨[], []⟩, List.nil_subset _, List.nil_subset _⟩
  let e : Dot × Bytes := (⟨hlc, node⟩, mine)
  have hst : SmallValues ⟨st.live ++ [e], st.covered⟩ := by
    intro x hx
    rcases List.mem_append.1 hx with hx | hx
    · exact r.small x (hsub hx)
    · rw [List.mem_singleton.1 hx]
      exact hsmall
  let s := counterRecord ⟨hlc, node⟩ _ hst
  have hset : counterFieldSet hlc node ((readLww (some r.encode) delHlc now).map Prod.snd) mine = s.encode := by
    unfold counterFieldSet
    rw [hprior]
    exact s.encode_eq.symm
  have hstate : s.state = ⟨e :: st.beside node, st.covered⟩ := by
    show (ElementState.normalize ⟨st.live ++ [e], st.covered⟩).collapsePerOrigin = _
    rw [normalize_fresh hcan (fun x hx => hfresh.live x (hsub hx)) (fun c hc => hfresh.covered c (hsubc hc))
      (fun x => by rw [List.mem_append, List.mem_singleton, or_comm]) fun _ => Iff.rfl]
    simp [collapsePerOrigin, collapseFrom, beside, e]
  have hmax : maxType r.rtype s.rtype = .counterField := by
    show maxType r.rtype .counterField = _
    rcases hfield with h | h <;> rw [h] <;> decide
  have hread := readField_join (e := e) hfresh (s := s) (fun x hx => ?_) (by rw [hstate]; exact List.mem_cons_self)
    (by rw [hstate]; exact hsubc) rfl rfl hdel now
  · rw [hset]
    refine (congrArg (fun b => readField (some b) delHlc now) (mergeResolve_encode r s)).trans (hread.trans ?_)
    rw [if_pos hmax]
  · rw [hstate] at hx
    rcases List.mem_cons.1 hx with hx | hx
    · exact .inl hx
    · exact .inr (hsub (List.mem_of_mem_take ((collapseFrom_sublist _ _).subset hx)))

theorem shown_iff {mine : Bytes} {v : Int64} (hmine : mine ≠ formatI64 v) (c : CounterState) :
    (c.value.map formatI64).getD mine = formatI64 v ↔ c.total = v.toInt := by
  unfold CounterState.value
  split
  · rename_i hrange
    rw [map_some, getD_some, formatI64_inj, ← Int64.toInt_inj, Int64.toInt_ofInt_of_le hrange.1 hrange.2]
  rename_i hrange
  refine iff_of_false hmine fun htotal => hrange ?_
  rw [htotal]
  exact ⟨Int64.le_toInt v, Int64.toInt_lt v⟩

end Marekvs
