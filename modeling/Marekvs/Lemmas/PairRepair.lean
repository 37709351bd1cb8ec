import Marekvs.Lemmas.CounterField
import Marekvs.Lemmas.Exchange
import Marekvs.Lib.Collapse
import Marekvs.Repl.Pairs

/-!
# Which pairs an exchange brings together

Rounds on one key, for each kind of pair two owners can hold. Last-writer-wins values, registers and tokens are picked, so a pair
is repaired in one round or never. Counters, slots and element records are joined (`JoinFamily`): the parties meet after at most
three rounds, unless both carry the same version with different TTLs, which every merge keeps apart.
-/

namespace Marekvs

namespace Ae

open Repair ElementRecord Envelope ElementState

variable {ikey : Bytes}

/-! ## Clocks and merges -/

theorem recordHlc_eq {e : Envelope} (h : Envelope.decode v = some (e, p)) : recordHlc v = e.hlc := by
  simp [recordHlc, h]

theorem mergeVal_of_none (hk : budgetKind ikey = none) (x y : Bytes) : mergeVal ikey x y = mergeResolve x y := by
  simp [mergeVal, mergeAt, hk, mergeResolve]

theorem mergeVal_of_some {kind : UInt8} (hk : budgetKind ikey = some kind) (x y : Bytes) :
    mergeVal ikey x y = resolve x y (mergeBudget kind x y) := by
  simp [mergeVal, mergeAt, hk]

section Blocked

variable {a b pa pb : Bytes} {ea eb : Envelope} (ha : Envelope.decode a = some (ea, pa))
  (hb : Envelope.decode b = some (eb, pb))
include ha hb

theorem blocked_joined (hja : joins ikey a) (hjb : joins ikey b) :
    blocked ikey a b ↔ a ≠ b ∧ ea.version = eb.version ∧ ea.ttlDeadlineMs ≠ eb.ttlDeadlineMs := by
  simp [blocked, ha, hb, hja, hjb]

theorem blocked_ranked (hj : joins ikey a = false) {ra rb : UInt8} (hra : rankOf ikey a = some ra)
    (hrb : rankOf ikey b = some rb) :
    blocked ikey a b ↔ a ≠ b ∧ ((ea.version = eb.version ∧ ra = rb) ∨ (ea.hlc < eb.hlc ∧ staysAgainst ikey ra rb) ∨
      (eb.hlc < ea.hlc ∧ staysAgainst ikey rb ra)) := by
  simp [blocked, ha, hb, hj, hra, hrb]

theorem blocked_lww (hj : joins ikey a = false ∨ joins ikey b = false) (hr : rankOf ikey a = none ∨ rankOf ikey b = none) :
    blocked ikey a b ↔ a ≠ b ∧ ea.version = eb.version := by
  have hj' : ¬ (joins ikey a = true ∧ joins ikey b = true) := by
    rintro ⟨h1, h2⟩
    rcases hj with h | h
    · exact absurd h1 (by simp [h])
    · exact absurd h2 (by simp [h])
  rcases hr with h | h
  · simp [blocked, ha, hb, hj', h]
  · simp only [blocked, ha, hb, hj', h, if_false, Bool.and_eq_true, decide_eq_true_eq]
    cases rankOf ikey a <;> simp

end Blocked

/-- Two values that agree where their keys do come from one assignment. -/
theorem exists_assign [DecidableEq α] {s t : β} (h : a = b → s = t) : ∃ f : α → β, f a = s ∧ f b = t := by
  refine ⟨fun c => if c = a then s else t, if_pos rfl, ?_⟩
  by_cases hb : b = a
  · exact (if_pos hb).trans (h hb.symm)
  · exact if_neg hb

/-! ## Joined records -/

/-- Records of one key that are joined: the newer version with its TTL, and a content that a third merge no longer changes. -/
structure JoinFamily (ikey : Bytes) (X : Type) where
  good : X → Prop
  encode : X → Bytes
  envelope : X → Envelope
  payload : X → Bytes
  join : X → X → X
  decode : ∀ x, Envelope.decode (encode x) = some (envelope x, payload x)
  joined : ∀ x, good x → joins ikey (encode x)
  merge : ∀ x y, good x → good y → mergeVal ikey (encode x) (encode y) = encode (join x y)
  good_join : ∀ x y, good x → good y → good (join x y)
  version_join : ∀ x y, good x → good y → (envelope (join x y)).version = max (envelope x).version (envelope y).version
  ttl_join : ∀ x y, good x → good y → (envelope (join x y)).ttlDeadlineMs = winnerTtl (envelope x) (envelope y)
  self : ∀ x, good x → join x x = x
  third : ∀ x y, good x → good y →
    ((envelope x).version = (envelope y).version → (envelope x).ttlDeadlineMs = (envelope y).ttlDeadlineMs) →
    join (join x y) (join y (join x y)) = join y (join x y) ∧ join (join y (join x y)) (join x y) = join y (join x y)

namespace JoinFamily

variable {X : Type} (F : JoinFamily ikey X)

def version (x : X) : Version := (F.envelope x).version

def ttl (x : X) : UInt64 := (F.envelope x).ttlDeadlineMs

theorem clock (x : X) : recordHlc (F.encode x) = (F.version x).hlc := recordHlc_eq (F.decode x)

theorem ttl_join_eq {x y : X} (hx : F.good x) (hy : F.good y) :
    F.ttl (F.join x y) = if F.version x < F.version y then F.ttl y else F.ttl x := F.ttl_join x y hx hy

theorem ttl_eq_of_encode_eq {x y : X} (h : F.encode x = F.encode y) : F.ttl x = F.ttl y := by
  have hdec := F.decode x
  rw [h, F.decode y] at hdec
  exact congrArg Envelope.ttlDeadlineMs (Prod.mk.inj (Option.some.inj hdec)).1.symm

/-- Two records with one version and different TTLs never become equal. -/
theorem apart {x y : X} (hx : F.good x) (hy : F.good y) (hv : F.version x = F.version y) (ht : F.ttl x ≠ F.ttl y) :
    Apart recordHlc (mergeVal ikey) (F.encode x, F.encode y) := by
  have hkeep : ∀ (t t' : UInt64) (a b : Bytes), (∃ u, F.good u ∧ F.version u = F.version y ∧ F.ttl u = t ∧ a = F.encode u) →
      (∃ u, F.good u ∧ F.version u = F.version y ∧ F.ttl u = t' ∧ b = F.encode u) →
      ∃ u, F.good u ∧ F.version u = F.version y ∧ F.ttl u = t ∧ mergeVal ikey a b = F.encode u := by
    rintro t t' a b ⟨u, hu, huv, hut, rfl⟩ ⟨w, hw, hwv, hwt, rfl⟩
    refine ⟨F.join u w, F.good_join u w hu hw, ?_, ?_, F.merge u w hu hw⟩
    · exact (F.version_join u w hu hw).trans (by rw [← version, ← version, huv, hwv, max_self])
    · rw [F.ttl_join_eq hu hw, huv, hwv, if_neg (lt_irrefl _), hut]
  intro who n
  obtain ⟨⟨u, _, _, hut, hu⟩, ⟨w, _, _, hwt, hw⟩⟩ :=
    rounds_keep recordHlc (fun a b ha hb => hkeep (F.ttl x) (F.ttl y) a b ha hb)
      (fun a b ha hb => hkeep (F.ttl y) (F.ttl x) b a hb ha) ⟨x, hx, hv, rfl, rfl⟩ ⟨y, hy, rfl, rfl, rfl⟩ who n
  intro heq
  rw [hu, hw] at heq
  exact ht (hut ▸ hwt ▸ F.ttl_eq_of_encode_eq heq)

/-- Any other two records become equal in three rounds. -/
theorem repaired {x y : X} (hx : F.good x) (hy : F.good y) (hv : F.version x = F.version y → F.ttl x = F.ttl y) :
    RepairedIn recordHlc (mergeVal ikey) 3 (F.encode x, F.encode y) := by
  -- the versions of the two records fix the TTL of everything that is merged from them
  obtain ⟨ttlOf, hx', hy'⟩ := exists_assign hv
  let S : Bytes → Prop := fun b => ∃ u, F.good u ∧ F.ttl u = ttlOf (F.version u) ∧ b = F.encode u
  have hver : ∀ u w, F.good u → F.good w → F.version (F.join u w) = max (F.version u) (F.version w) := F.version_join
  have hjoin : ∀ u w, F.good u → F.good w → F.ttl u = ttlOf (F.version u) → F.ttl w = ttlOf (F.version w) →
      F.ttl (F.join u w) = ttlOf (F.version (F.join u w)) := by
    intro u w hu hw htu htw
    rw [F.ttl_join_eq hu hw, hver u w hu hw]
    split
    · rename_i h
      rw [htw, max_eq_right h.le]
    · rename_i h
      rw [htu, max_eq_left (not_lt.1 h)]
  have hsame : ∀ u w, F.ttl u = ttlOf (F.version u) → F.ttl w = ttlOf (F.version w) → F.version u = F.version w →
      F.ttl u = F.ttl w := by
    intro u w htu htw h
    rw [htu, htw, h]
  have hfam : Joins recordHlc (mergeVal ikey) S := by
    refine ⟨?_, ?_, ?_, ?_, ?_⟩
    · rintro _ _ ⟨u, hu, htu, rfl⟩ ⟨w, hw, htw, rfl⟩
      exact ⟨F.join u w, F.good_join u w hu hw, hjoin u w hu hw htu htw, F.merge u w hu hw⟩
    · rintro _ _ ⟨u, hu, htu, rfl⟩ ⟨w, hw, htw, rfl⟩
      rw [F.merge u w hu hw, F.clock, F.clock, F.clock, hver u w hu hw]
      exact (Monotone.map_max (f := Dot.hlc) fun _ _ => Dot.hlc_le_of_le)
    · rintro _ ⟨u, hu, htu, rfl⟩
      rw [F.merge u u hu hu, F.self u hu]
    · rintro _ _ ⟨u, hu, htu, rfl⟩ ⟨w, hw, htw, rfl⟩
      have hj := F.good_join u w hu hw
      rw [F.merge u w hu hw, F.merge w _ hw hj, F.merge _ _ hj (F.good_join w _ hw hj)]
      rw [(F.third u w hu hw (hsame u w htu htw)).1]
    · rintro _ _ ⟨u, hu, htu, rfl⟩ ⟨w, hw, htw, rfl⟩
      have hj := F.good_join u w hu hw
      rw [F.merge u w hu hw, F.merge w _ hw hj, F.merge _ _ (F.good_join w _ hw hj) hj]
      rw [(F.third u w hu hw (hsame u w htu htw)).2]
  exact hfam.repairedIn ⟨x, hx, hx'.symm, rfl⟩ ⟨y, hy, hy'.symm, rfl⟩

end JoinFamily

/-! ## Picked values -/

/-- A blocked pair stays apart and any other pair is repaired in three rounds. -/
def Decides (ikey a b : Bytes) : Prop :=
  (blocked ikey a b → Apart recordHlc (mergeVal ikey) (a, b)) ∧
    (blocked ikey a b = false → RepairedIn recordHlc (mergeVal ikey) 3 (a, b))

section Picked

variable {a b : Bytes} {keepA keepB : Prop} [Decidable keepA] [Decidable keepB]

theorem decides_of_choice (hab : mergeVal ikey a b = if keepA then a else b) (hba : mergeVal ikey b a = if keepB then b else a)
    (ha : mergeVal ikey a a = a) (hb : mergeVal ikey b b = b)
    (h : blocked ikey a b ↔ a ≠ b ∧ ((recordHlc a < recordHlc b ∧ keepA) ∨ (recordHlc b < recordHlc a ∧ keepB) ∨
      (recordHlc a = recordHlc b ∧ keepA ∧ keepB))) : Decides ikey a b := by
  rw [← stuck_iff_of_choice recordHlc hab hba] at h
  refine ⟨fun hblk => (h.1 hblk).apart, fun hfree => ?_⟩
  refine (repairedIn_of_choice hab hba ha hb fun hs => ?_).mono (by norm_num)
  exact absurd (h.2 hs) (by simp [hfree])

end Picked

/-- Last writer wins: stuck exactly where the versions are equal. -/
theorem lww_stuck_iff (v w : Version) :
    ((v.hlc < w.hlc ∧ ¬ v < w) ∨ (w.hlc < v.hlc ∧ ¬ w < v) ∨ (v.hlc = w.hlc ∧ ¬ v < w ∧ ¬ w < v)) ↔ v = w := by
  constructor
  · rintro (⟨h, hn⟩ | ⟨h, hn⟩ | ⟨_, h1, h2⟩)
    · exact absurd (Dot.lt_of_hlc_lt h) hn
    · exact absurd (Dot.lt_of_hlc_lt h) hn
    · exact le_antisymm (not_lt.1 h2) (not_lt.1 h1)
  · rintro rfl
    exact .inr (.inr ⟨rfl, lt_irrefl _, lt_irrefl _⟩)

/-- What the merge asks of a value of a lone kind. -/
theorem Lone.envelope (h : Lone s a) : ∃ e p, Envelope.decode a = some (e, p) ∧
    ((e.rtype = .counter ∧ e.isTombstone = false) ↔ s = .count) ∧
    ((e.rtype = .hllRegister ∧ e.isTombstone = false) ↔ s = .register) ∧
    (e.isHead = true ∨ e.rtype.isOrElement = false) := by
  cases h with
  | plain e p h =>
    refine ⟨e, p, decode_encodeWith e p, ?_⟩
    simp only [Envelope.lastWriter, decide_eq_true_eq] at h
    obtain ⟨h1, h2, h3⟩ := h
    simp only [reduceCtorEq, iff_false, not_and, Bool.not_eq_false]
    refine ⟨fun hc => h1.resolve_left (not_not.2 hc), fun hr => h2.resolve_left (not_not.2 hr), ?_⟩
    simpa using h3
  | count r c hc h =>
    exact ⟨r.envelope, _, r.decode_encode, by simp [h, StringRecord.parts, RecordType.isOrElement]⟩
  | register r => exact ⟨r.envelope, _, r.decode_encode, by simp [RecordType.isOrElement]⟩

/-- Two lone values that are not of one joined or ranked kind merge by version. -/
theorem Lone.mergeResolve (ha : Lone s a) (hb : Lone t b)
    (hst : s = t → s = .plain) (hda : Envelope.decode a = some (ea, pa)) (hdb : Envelope.decode b = some (eb, pb)) :
    mergeResolve a b = if ea.version < eb.version then b else a := by
  obtain ⟨ea', pa', hda', hca, hra, hla⟩ := ha.envelope
  obtain ⟨eb', pb', hdb', hcb, hrb, hlb⟩ := hb.envelope
  rw [hda] at hda'
  rw [hdb] at hdb'
  cases hda'
  cases hdb'
  have hc : ¬ (ea.rtype = .counter ∧ eb.rtype = .counter ∧ !ea.isTombstone ∧ !eb.isTombstone) := by
    rintro ⟨h1, h2, h3, h4⟩
    have hs := hca.1 ⟨h1, by simpa using h3⟩
    have ht := hcb.1 ⟨h2, by simpa using h4⟩
    exact absurd (hst (hs.trans ht.symm)) (by simp [hs])
  have hr : ¬ (ea.rtype = .hllRegister ∧ eb.rtype = .hllRegister ∧ !ea.isTombstone ∧ !eb.isTombstone) := by
    rintro ⟨h1, h2, h3, h4⟩
    have hs := hra.1 ⟨h1, by simpa using h3⟩
    have ht := hrb.1 ⟨h2, by simpa using h4⟩
    exact absurd (hst (hs.trans ht.symm)) (by simp [hs])
  have hl : eb.isHead ∨ ea.isHead ∨ !eb.rtype.isOrElement := by
    rcases hlb with h | h
    · exact .inl h
    · exact .inr (.inr (by simp [h]))
  unfold Marekvs.mergeResolve mergeValues
  rw [hda, hdb]
  dsimp only
  rw [if_neg hc, if_neg hr, if_pos hl, resolve_mergeLww]

theorem Lone.mergeResolve_self (h : Lone s a) : Marekvs.mergeResolve a a = a := by
  cases h with
  | plain e p h =>
    rw [Lone.mergeResolve (Lone.plain e p h) (Lone.plain e p h) (fun _ => rfl) (decode_encodeWith e p)
      (decode_encodeWith e p), if_neg (lt_irrefl _)]
  | count r c hc h => rw [StringRecord.mergeResolve_encode, r.merge_self]
  | register r => rw [RegisterRecord.mergeResolve_encode, r.merge_self]

theorem decides_lone {s t : LoneKind} (hk : budgetKind ikey = none) (ha : Lone s a) (hb : Lone t b)
    (hst : s = t → s = .plain) : Decides ikey a b := by
  obtain ⟨ea, pa, hda, hca, hra, hla⟩ := ha.envelope
  obtain ⟨eb, pb, hdb, hcb, hrb, hlb⟩ := hb.envelope
  have hab : mergeVal ikey a b = if ¬ ea.version < eb.version then a else b := by
    rw [mergeVal_of_none hk, ha.mergeResolve hb hst hda hdb, ite_not]
  have hba : mergeVal ikey b a = if ¬ eb.version < ea.version then b else a := by
    rw [mergeVal_of_none hk, hb.mergeResolve ha (fun h => h.trans (hst h.symm)) hdb hda, ite_not]
  -- a value is joined only as a counter and ranked only as a register
  have hjoins : ∀ {u : LoneKind} {v p : Bytes} {e : Envelope}, Envelope.decode v = some (e, p) →
      ((e.rtype = .counter ∧ e.isTombstone = false) ↔ u = .count) → (e.isHead = true ∨ e.rtype.isOrElement = false) →
      u ≠ .count → joins ikey v = false := by
    intro u v p e hd hc hl hu
    have hnc : ¬ (e.rtype = .counter ∧ e.isTombstone = false) := fun h => hu (hc.1 h)
    have hne : ¬ (e.rtype.isOrElement = true ∧ e.isHead = false) := by
      rintro ⟨h1, h2⟩
      rcases hl with h | h
      · simp [h] at h2
      · simp [h] at h1
    simp [joins, hd, hk, hnc, hne]
  have hranks : ∀ {u : LoneKind} {v p : Bytes} {e : Envelope}, Envelope.decode v = some (e, p) →
      ((e.rtype = .hllRegister ∧ e.isTombstone = false) ↔ u = .register) → u ≠ .register → rankOf ikey v = none := by
    intro u v p e hd hr hu
    have hnr : ¬ (e.rtype = .hllRegister ∧ e.isTombstone = false) := fun h => hu (hr.1 h)
    simp [rankOf, hd, hk, hnr]
  refine decides_of_choice hab hba (by rw [mergeVal_of_none hk, ha.mergeResolve_self])
    (by rw [mergeVal_of_none hk, hb.mergeResolve_self]) ?_
  rw [recordHlc_eq hda, recordHlc_eq hdb]
  refine (blocked_lww hda hdb ?_ ?_).trans (and_congr_right fun _ => (lww_stuck_iff ea.version eb.version).symm)
  · by_cases hs : s = .count
    · refine .inr (hjoins hdb hcb hlb fun ht => ?_)
      exact absurd (hst (hs.trans ht.symm)) (by simp [hs])
    · exact .inl (hjoins hda hca hla hs)
  · by_cases hs : s = .register
    · refine .inr (hranks hdb hrb fun ht => ?_)
      exact absurd (hst (hs.trans ht.symm)) (by simp [hs])
    · exact .inl (hranks hda hra hs)

/-! ## Ranks -/

/-- Values that are picked by rank, and on equal ranks by version. -/
theorem decides_ranked {enc payload : X → Bytes} {env : X → Envelope} {rank : X → UInt8} (tie : Version → Version → Prop)
    [DecidableRel tie] (hdec : ∀ x, Envelope.decode (enc x) = some (env x, payload x))
    (hrank : ∀ x, rankOf ikey (enc x) = some (rank x)) (hjoin : ∀ x, joins ikey (enc x) = false)
    (hmerge : ∀ x y, mergeVal ikey (enc x) (enc y) =
      if rank y < rank x ∨ rank x = rank y ∧ tie (env x).version (env y).version then enc x else enc y)
    (htie : ∀ v w, tie v w ∧ tie w v ↔ v = w)
    (hstays : ∀ r q v w, v.hlc < w.hlc → ((q < r ∨ r = q ∧ tie v w) ↔ staysAgainst ikey r q = true)) (x y : X) :
    Decides ikey (enc x) (enc y) := by
  have hself : ∀ z, mergeVal ikey (enc z) (enc z) = enc z := fun z => by rw [hmerge, ite_self]
  refine decides_of_choice (hmerge x y) (hmerge y x) (hself x) (hself y) ?_
  rw [recordHlc_eq (hdec x), recordHlc_eq (hdec y)]
  refine (blocked_ranked (hdec x) (hdec y) (hjoin x) (hrank x) (hrank y)).trans (and_congr_right fun _ => ?_)
  refine (or_comm.trans or_assoc).trans (or_congr (and_congr_right fun h => (hstays _ _ _ _ h).symm)
    (or_congr (and_congr_right fun h => (hstays _ _ _ _ h).symm) ⟨?_, ?_⟩))
  · rintro ⟨hv, hr⟩
    obtain ⟨hxy, hyx⟩ := (htie _ _).2 hv
    exact ⟨congrArg Dot.hlc hv, .inr ⟨hr, hxy⟩, .inr ⟨hr.symm, hyx⟩⟩
  · rintro ⟨-, hlt | ⟨hr, hxy⟩, hlt' | ⟨hr', hyx⟩⟩
    · exact absurd hlt (lt_asymm hlt')
    · exact absurd hr' hlt.ne
    · exact absurd hr hlt'.ne
    · exact ⟨(htie _ _).1 ⟨hxy, hyx⟩, hr⟩

/-- Registers: the higher rank, then the older version. -/
theorem decides_registers (hk : budgetKind ikey = none) (x y : RegisterRecord) : Decides ikey x.encode y.encode := by
  refine decides_ranked (· ≤ ·) RegisterRecord.decode_encode (fun z => (by simp [rankOf, hk] : _ = some z.rank))
    (fun z => by simp [joins, hk, RecordType.isOrElement]) (fun x y => ?_) (fun v w => antisymm_iff) (fun r q v w h => ?_) x y
  · rw [mergeVal_of_none hk, RegisterRecord.mergeResolve_encode, RegisterRecord.merge]
    rcases lt_trichotomy x.rank y.rank with h | h | h
    · simp [h, h.not_gt, h.ne]
    · by_cases hv : x.version ≤ y.version <;> simp [h, hv]
    · simp [h]
  · rw [and_iff_left (Dot.lt_of_hlc_lt h).le, eq_comm, ← le_iff_lt_or_eq]
    simp [staysAgainst, hk]

/-- Tokens: the higher rank, then the newer version. -/
theorem decides_tokens (hk : budgetKind ikey = some BUDGET_TOKEN) (x y : TokenRecord) : Decides ikey x.encode y.encode := by
  refine decides_ranked (fun v w => ¬ v < w) TokenRecord.decode_encode (fun z => (by simp [rankOf, hk] : _ = some z.state.rank))
    (fun z => ?_) (fun x y => ?_) (fun v w => ?_) (fun r q v w h => ?_) x y
  · have hslot : isSlotKind BUDGET_TOKEN = false := by decide
    simp [joins, hk, hslot]
  · rw [mergeVal_of_some hk, TokenRecord.mergeBudget_token, TokenRecord.merge]
    rcases lt_trichotomy x.state.rank y.state.rank with h | h | h
    · simp [h, h.not_gt, h.ne]
    · by_cases hv : x.version < y.version <;> simp [h, hv]
    · simp [h]
  · rw [not_lt, not_lt, and_comm]
    exact antisymm_iff
  · simp [staysAgainst, hk, Dot.lt_of_hlc_lt h]

/-! ## Joins -/

theorem JoinFamily.decides {X : Type} (F : JoinFamily ikey X) {x y : X} (hx : F.good x) (hy : F.good y) :
    Decides ikey (F.encode x) (F.encode y) := by
  have hblk := blocked_joined (F.decode x) (F.decode y) (F.joined x hx) (F.joined y hy)
  constructor
  · intro h
    obtain ⟨_, hv, ht⟩ := hblk.1 h
    exact F.apart hx hy hv ht
  · intro h
    by_cases heq : F.encode x = F.encode y
    · rw [heq]
      exact RepairedIn.same _ 3
    · refine F.repaired hx hy fun hv => ?_
      by_contra ht
      exact absurd (hblk.2 ⟨heq, hv, ht⟩) (by simp [h])

/-- A commutative, associative and idempotent join is settled by the first merge. -/
theorem third_of_laws {join : X → X → X} (hcomm : join y (join x y) = join (join x y) y)
    (hassoc : join (join x y) y = join x (join y y)) (hy : join y y = y) (hself : join (join x y) (join x y) = join x y) :
    join (join x y) (join y (join x y)) = join y (join x y) ∧ join (join y (join x y)) (join x y) = join y (join x y) := by
  have h : join y (join x y) = join x y := by rw [hcomm, hassoc, hy]
  rw [h]
  exact ⟨hself, hself⟩

/-- Live slots of one key. -/
def slotFamily {kind : UInt8} (hk : budgetKind ikey = some kind) (hs : isSlotKind kind) : JoinFamily ikey SlotRecord where
  good r := r.tomb = false
  encode := SlotRecord.encode
  envelope := SlotRecord.envelope
  payload r := r.state.encode
  join := SlotRecord.merge
  decode := SlotRecord.decode_encode
  joined x hx := by simp [joins, hk, hs, hx]
  merge x y _ _ := by rw [mergeVal_of_some hk, SlotRecord.mergeBudget_slot hs]
  good_join x y hx hy := by simp [SlotRecord.merge, hx, hy]
  version_join x y _ _ := SlotRecord.merge_version x y
  ttl_join x y hx hy := by
    rw [SlotRecord.merge_of_live hx hy]
    rfl
  self x _ := x.merge_self
  third x y hx hy httl := by
    refine third_of_laws ?_ (SlotRecord.merge_assoc hx hy hy) y.merge_self (SlotRecord.merge_self _)
    rw [SlotRecord.merge_comm hy (SlotRecord.merge_live hx hy) (SlotRecord.ttl_of_merge hx hy httl)]

theorem decides_slots {kind : UInt8} (hk : budgetKind ikey = some kind) (hs : isSlotKind kind) (x y : SlotRecord) :
    Decides ikey x.encode y.encode := by
  by_cases hlive : x.tomb = false ∧ y.tomb = false
  · exact (slotFamily hk hs).decides hlive.1 hlive.2
  -- a tombstone on either side is last-writer-wins
  have htomb : x.tomb = true ∨ y.tomb = true := by
    cases hx : x.tomb <;> cases hy : y.tomb <;> simp_all
  have hmerge : ∀ u w : SlotRecord, u.tomb = true ∨ w.tomb = true →
      mergeVal ikey u.encode w.encode = if ¬ u.version < w.version then u.encode else w.encode := by
    intro u w huw
    rw [mergeVal_of_some hk, SlotRecord.mergeBudget_slot hs, SlotRecord.merge, if_pos huw, ite_not]
    split <;> rfl
  have hself : ∀ u : SlotRecord, mergeVal ikey u.encode u.encode = u.encode := by
    intro u
    rw [mergeVal_of_some hk, SlotRecord.mergeBudget_slot hs, u.merge_self]
  have hkind : kind ≠ BUDGET_TOKEN := by
    rintro rfl
    exact absurd hs (by decide)
  refine decides_of_choice (hmerge x y htomb) (hmerge y x htomb.symm) (hself x) (hself y) ?_
  rw [recordHlc_eq x.decode_encode, recordHlc_eq y.decode_encode]
  refine (blocked_lww x.decode_encode y.decode_encode ?_ (.inl (by simp [rankOf, hk, hkind]))).trans ?_
  · rcases htomb with h | h
    · exact .inl (by simp [joins, hk, h])
    · exact .inr (by simp [joins, hk, h])
  · exact and_congr_right fun _ => (lww_stuck_iff x.version y.version).symm

/-- Live counters of one key, over one assignment of base values. -/
def countFamily (hk : budgetKind ikey = none) (baseOf : Version → Int64) : JoinFamily ikey StringRecord where
  good r := ∃ c hc, r.body = .count c hc ∧ c.base = baseOf c.baseVersion
  encode := StringRecord.encode
  envelope := StringRecord.envelope
  payload r := (StringRecord.parts r.body).2.2
  join := StringRecord.merge
  decode := StringRecord.decode_encode
  joined := by
    rintro x ⟨c, hc, hx, _⟩
    simp [joins, hk, hx, StringRecord.parts]
  merge x y _ _ := by rw [mergeVal_of_none hk, StringRecord.mergeResolve_encode]
  good_join := by
    rintro x y ⟨c, hc, hx, hcb⟩ ⟨d, hd, hy, hdb⟩
    refine ⟨c.merge d, hc.merge hd, by rw [StringRecord.merge_counts hx hy], ?_⟩
    rcases CounterState.merge_base c d with ⟨hv, hb⟩ | ⟨hv, hb⟩
    · rw [hv, hb, hcb]
    · rw [hv, hb, hdb]
  version_join x y _ _ := StringRecord.merge_version x y
  ttl_join := by
    rintro x y ⟨c, hc, hx, _⟩ ⟨d, hd, hy, _⟩
    rw [StringRecord.merge_counts hx hy]
    rfl
  self x _ := x.merge_self
  third := by
    rintro x y ⟨c, hc, hx, hcb⟩ ⟨d, hd, hy, hdb⟩ httl
    have hxy : (x.merge y).body = .count (c.merge d) (hc.merge hd) := by rw [StringRecord.merge_counts hx hy]
    have hbase : d.SameBase (c.merge d) := by
      intro hv
      rcases CounterState.merge_base c d with ⟨hv', hb⟩ | ⟨_, hb⟩
      · rw [hb, hdb, hcb, hv, hv']
      · exact hb.symm
    refine third_of_laws ?_ (StringRecord.merge_assoc_counts hx hy hy) y.merge_self (StringRecord.merge_self _)
    refine StringRecord.merge_comm_counts hy hxy hbase fun hv => ?_
    rw [StringRecord.merge_version] at hv
    rw [StringRecord.merge_counts hx hy]
    exact (winner_eq_right _ _ _ _ httl hv).symm

theorem decides_counts (hk : budgetKind ikey = none) {x y : StringRecord} {c d : CounterState} {hc : c.Canonical}
    {hd : d.Canonical} (hx : x.body = .count c hc) (hy : y.body = .count d hd) (hbase : c.SameBase d) :
    Decides ikey x.encode y.encode := by
  obtain ⟨baseOf, hcb, hdb⟩ := exists_assign hbase
  exact (countFamily hk baseOf).decides ⟨c, hc, hx, hcb.symm⟩ ⟨d, hd, hy, hdb.symm⟩

/-! ## Elements -/

theorem maxType_third (s t : RecordType) : maxType (maxType s t) (maxType t (maxType s t)) = maxType s t ∧
    maxType t (maxType s t) = maxType s t := by
  cases s <;> cases t <;> decide

theorem maxType_comm (s t : RecordType) : maxType s t = maxType t s := by
  rw [maxType, max_comm, maxType]

/-- The dot sets of a join, with one entry of each origin for counter fields. -/
theorem dots_join_pick (r s : ElementRecord) : (r.join s).dots =
    OrSet.joinPick Dot.origin (maxType r.rtype s.rtype = .counterField) MAX_LIVE_DOTS MAX_TOMB_DOTS r.dots s.dots := by
  unfold ElementRecord.dots ElementRecord.join OrSet.joinPick OrSet.pick joinStates
  dsimp only
  split
  · rename_i h
    rw [toOrSet_collapse (normalize_canonical _).live_strict, toOrSet_normalize_append]
    simp [h]
  · rename_i h
    rw [toOrSet_normalize_append]
    simp [h]

theorem settled_dots (r : ElementRecord) :
    OrSet.Settled Dot.origin (r.rtype = .counterField) MAX_LIVE_DOTS MAX_TOMB_DOTS r.dots where
  live := by
    rw [ElementRecord.dots, toOrSet, r.canonical.live_strict.card_keys]
    exact r.canonical.live_le
  covered := by
    rw [ElementRecord.dots, toOrSet, r.canonical.covered_strict.card_keys]
    exact r.canonical.covered_le
  disjoint := r.dots_disjoint
  picked := by
    unfold OrSet.pick
    split
    · rename_i h
      refine Finset.Subset.antisymm (Newest.newest_subset _) fun d hd => Newest.mem_newest.2 ⟨hd, fun d' hd' ho => ?_⟩
      obtain ⟨e, he, rfl⟩ := mem_dots_live.1 hd
      obtain ⟨e', he', rfl⟩ := mem_dots_live.1 hd'
      rw [List.inj_on_of_nodup_map (r.collapsed (of_decide_eq_true h)) he' he ho]
    · rfl

/-- Element records of one key, over one assignment of values to dots. -/
def elementFamily (hk : budgetKind ikey = none) (val : Dot → Bytes) : JoinFamily ikey ElementRecord where
  good r := ∀ e ∈ r.state.live, e.2 = val e.1
  encode := ElementRecord.encode
  envelope := ElementRecord.envelope
  payload r := r.state.encode
  join := ElementRecord.join
  decode := ElementRecord.decode_encode
  joined x _ := by simp [joins, hk, ElementRecord.envelope, x.orElement]
  merge x y _ _ := by rw [mergeVal_of_none hk, ElementRecord.mergeResolve_encode]
  good_join x y hx hy e he := (ElementRecord.mem_of_mem_joinStates he).elim (hx e) (hy e)
  version_join _ _ _ _ := rfl
  ttl_join _ _ _ _ := rfl
  self x hx := by
    have hc : x.Conforms val fun _ => x.ttl := ⟨hx, rfl⟩
    refine (hc.join hc).ext hc (ElementRecord.maxType_self _) (max_self _) ?_
    rw [dots_join_pick, ElementRecord.maxType_self]
    exact (settled_dots x).joinPick_self
  third x y hx hy httl := by
    obtain ⟨ttlOf, hx', hy'⟩ := exists_assign httl
    have hz := (⟨hx, hx'.symm⟩ : x.Conforms val ttlOf).join ⟨hy, hy'.symm⟩
    have hw := ElementRecord.Conforms.join ⟨hy, hy'.symm⟩ hz
    obtain ⟨htype, htype'⟩ := maxType_third x.rtype y.rtype
    have hver : max y.version (max x.version y.version) = max x.version y.version := by simp
    have hdots : ∀ u w : ElementRecord, u.rtype = maxType x.rtype y.rtype → w.rtype = maxType x.rtype y.rtype →
        (u.join w).dots = OrSet.joinPick Dot.origin (maxType x.rtype y.rtype = .counterField) MAX_LIVE_DOTS MAX_TOMB_DOTS
          u.dots w.dots := by
      intro u w hu hw
      rw [dots_join_pick, hu, hw, ElementRecord.maxType_self]
    have hthird : OrSet.joinPick Dot.origin (maxType x.rtype y.rtype = .counterField) MAX_LIVE_DOTS MAX_TOMB_DOTS
        (x.join y).dots (y.join (x.join y)).dots = (y.join (x.join y)).dots := by
      have hlast := dots_join_pick y (x.join y)
      rw [show maxType y.rtype (x.join y).rtype = maxType x.rtype y.rtype from htype'] at hlast
      rw [hlast, dots_join_pick x y]
      exact OrSet.joinPick_third _ _
    constructor
    · refine (hz.join hw).ext hw (htype.trans htype'.symm) ?_ ?_
      · show max (max x.version y.version) (max y.version (max x.version y.version)) = max y.version (max x.version y.version)
        rw [hver, max_self]
      · rw [hdots _ _ rfl htype', hthird]
    · refine (hw.join hz).ext hw ((maxType_comm _ _).trans (htype.trans htype'.symm)) ?_ ?_
      · show max (max y.version (max x.version y.version)) (max x.version y.version) = max y.version (max x.version y.version)
        rw [hver, max_self]
      · rw [hdots _ _ htype' rfl, OrSet.joinPick_comm, hthird]

theorem decides_elements (hk : budgetKind ikey = none) {x y : ElementRecord} (val : Dot → Bytes)
    (hx : ∀ e ∈ x.state.live, e.2 = val e.1) (hy : ∀ e ∈ y.state.live, e.2 = val e.1) :
    Decides ikey x.encode y.encode := (elementFamily hk val).decides hx hy

/-! ## All pairs -/

/-- Every pair two owners can hold is blocked and stays apart, or is repaired in three rounds. -/
theorem HeldPair.decides {a b : Bytes} (h : HeldPair ikey a b) : Decides ikey a b := by
  cases h with
  | lone hk ha hb hst => exact decides_lone hk ha hb hst
  | counts hk hx hy hbase => exact decides_counts hk hx hy hbase
  | registers hk x y => exact decides_registers hk x y
  | elements hk val hx hy => exact decides_elements hk val hx hy
  | slots hk hs x y => exact decides_slots hk hs x y
  | tokens hk x y => exact decides_tokens hk x y

end Ae

end Marekvs
