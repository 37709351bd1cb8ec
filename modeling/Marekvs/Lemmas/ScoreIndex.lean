import Marekvs.Engine.ZsetRun
import Marekvs.Lemmas.ShardFrame

/-!
# The index of a sorted set

`ScoreInv` says that the records of members are member records, and that the index of a key has exactly one entry for each member
with a score, whether the member is visible or not. Applying a record keeps it whatever the merge makes of the record. Removing a
member keeps it as long as the removal leaves nothing of the member; where something is left, the member is there without an entry
(`Unlisted`), and further removals do not change that.
-/

namespace Marekvs

open Option Ikey MemberRecord

open ElementRecord

variable {k m key member : Bytes} {enc del : UInt64} {r : MemberRecord}

/-! ## Member records -/

theorem plain_zsetMember : Plain .zsetMember := .inr (.inr rfl)

namespace MemberRecord

variable (r s : MemberRecord)

/-- The score of the newest live dot. -/
def score : Option UInt64 := r.state.value.map Bytes.toU64

theorem payloadScore_encode : payloadScore r.state.encode = r.score := by
  rw [payloadScore, elementValue, decode_state_encode, bind_some, score]
  cases hv : r.state.value with
  | none => rfl
  | some v =>
    have hlen : v.length = 8 := by
      obtain ⟨e, he, rfl⟩ := map_eq_some_iff.1 hv
      exact r.scores e (List.mem_of_mem_head? he)
    simp [hlen]

theorem scoreFromRecord_encode : scoreFromRecord r.encode = r.score := by
  rw [scoreFromRecord, ElementRecord.decode_encode, bind_some, payloadScore_encode]

/-- The join of two member records. -/
def merge : MemberRecord where
  toElementRecord := r.toElementRecord.join s.toElementRecord
  isMember := join_rtype r.isMember s.isMember
  scores e he := (mem_of_mem_joinStates he).elim (r.scores e) (s.scores e)

/-- The record of ZADD of one member. -/
def fresh (hlc : UInt64) (node : NodeId) (score : UInt64) : MemberRecord where
  toElementRecord := ofState .zsetMember ⟨hlc, node⟩ 0 ⟨[(⟨hlc, node⟩, Bytes.ofU64 score)], []⟩ rfl (by decide)
    (by simp [ElementState.SmallValues])
  isMember := rfl
  scores e he := by
    have hmem := ElementState.mem_of_mem_normalize he
    rw [List.mem_singleton] at hmem
    rw [hmem]
    exact Bytes.length_ofU64 score

theorem encode_fresh (hlc : UInt64) (node : NodeId) (score : UInt64) :
    elementAdd .zsetMember hlc node (Bytes.ofU64 score) = (fresh hlc node score).encode := rfl

/-- The record of a removal that sees `r`. -/
def cover (version : Version) : MemberRecord where
  toElementRecord := r.remover plain_zsetMember version
  isMember := rfl
  scores _ he := nomatch ElementState.mem_of_mem_normalize he

theorem writeMergedAt_encode (key member : Bytes) :
    writeMergedAt (zsetMemberKey key member) (some r.encode) s.encode = (r.merge s).encode := by
  have hmerge : mergeAt (zsetMemberKey key member) = mergeValues :=
    mergeAt_of_tagByte (tagByte_elemKey ..) (by decide)
  have h := mergeResolve_encode r.toElementRecord s.toElementRecord
  rw [mergeResolve] at h
  simp only [writeMergedAt, hmerge]
  exact h

end MemberRecord

/-! ## Keys -/

theorem Ikey.zsetScoreKey_eq_iff (hk : k.length < 2 ^ 64)
    (hk' : k'.length < 2 ^ 64) : zsetScoreKey k enc m = zsetScoreKey k' enc' m' ↔ k = k' ∧ enc = enc' ∧ m = m' := by
  rw [zsetScoreKey, zsetScoreKey, elemKey_eq_iff hk hk']
  constructor
  · rintro ⟨-, hkey, hsuf⟩
    obtain ⟨henc, hm⟩ := List.append_inj hsuf (by simp)
    have h := congrArg Bytes.toU64 henc
    rw [Bytes.toU64_ofU64, Bytes.toU64_ofU64] at h
    exact ⟨hkey, h, hm⟩
  · rintro ⟨rfl, rfl, rfl⟩
    exact ⟨rfl, rfl, rfl⟩

theorem Ikey.zsetMemberKey_eq_iff (hk : k.length < 2 ^ 64) (hk' : k'.length < 2 ^ 64) :
    zsetMemberKey k m = zsetMemberKey k' m' ↔ k = k' ∧ m = m' :=
  (elemKey_eq_iff hk hk').trans (and_iff_right rfl)

theorem Ikey.zsetScoreKey_ne_zsetMemberKey (k k' m m' : Bytes) (enc : UInt64) : zsetScoreKey k enc m ≠ zsetMemberKey k' m' :=
  elemKey_ne (by decide) _ _ _ _

/-! ## The invariant -/

namespace ShardCtx

/-- The score in the record of a member, visible or not. -/
def heldScore (ctx : ShardCtx) (key member : Bytes) : Option UInt64 :=
  (ctx.getRaw (zsetMemberKey key member)).bind scoreFromRecord

/-- Every member's record is a member record, and the index has its entry for every score that a record holds, and no others. -/
structure ScoreInv (ctx : ShardCtx) : Prop where
  records : ∀ {key member v : Bytes}, key.length < 2 ^ 64 → ctx.getRaw (zsetMemberKey key member) = some v →
    ∃ r : MemberRecord, v = r.encode
  index : ∀ {key member : Bytes} {enc : UInt64}, key.length < 2 ^ 64 →
    ((ctx.getRaw (zsetScoreKey key enc member)).isSome = true ↔ (ctx.heldScore key member).map encodeScore = some enc)

variable {ctx ctx' : ShardCtx}

/-- The invariant is about the records of members and the index. -/
theorem ScoreInv.congr (h : ctx.ScoreInv)
    (hmem : ∀ k m, ctx'.getRaw (zsetMemberKey k m) = ctx.getRaw (zsetMemberKey k m))
    (hidx : ∀ k enc m, ctx'.getRaw (zsetScoreKey k enc m) = ctx.getRaw (zsetScoreKey k enc m)) : ctx'.ScoreInv where
  records hk hv := h.records hk (hmem _ _ ▸ hv)
  index hk := by
    rw [hidx, heldScore, hmem]
    exact h.index hk

theorem scoreInv_empty (hints : Std.ExtTreeMap Bytes Bytes) (node : NodeId) (clock now : UInt64) :
    (⟨∅, hints, node, clock, now⟩ : ShardCtx).ScoreInv where
  records _ hv := by
    rw [getRaw, Db.getRaw_empty] at hv
    cases hv
  index _ := by
    rw [heldScore, getRaw, getRaw, Db.getRaw_empty, Db.getRaw_empty]
    simp

theorem ScoreInv.ensureHead (h : ctx.ScoreInv) (key : Bytes) (t : Ctype) : (ctx.ensureHead key t).ScoreInv :=
  h.congr (fun _ _ => ctx.getRaw_ensureHead_of_ne t (elemKey_ne (by decide) _ _ _ _))
    (fun _ _ _ => ctx.getRaw_ensureHead_of_ne t (elemKey_ne (by decide) _ _ _ _))

theorem ScoreInv.delKey (h : ctx.ScoreInv) (key : Bytes) : (ctx.delKey key).ScoreInv :=
  h.congr
    (fun _ _ => ctx.getRaw_delKey_of_ne (elemKey_ne_simple (by decide) _ _ _ _).symm (elemKey_ne (by decide) _ _ _ _))
    (fun _ _ _ => ctx.getRaw_delKey_of_ne (elemKey_ne_simple (by decide) _ _ _ _).symm (elemKey_ne (by decide) _ _ _ _))

/-! ## Applying a record -/

theorem encodeScore_eq_of_sameScore (h : sameScore a b = true) : a.map encodeScore = b.map encodeScore := by
  match a, b with
  | none, none => rfl
  | some a, some b =>
    simp only [sameScore, scoreEq, Bool.and_eq_true, Bool.or_eq_true, decide_eq_true_eq] at h
    rcases h.2 with rfl | ⟨ha, hb⟩
    · rfl
    · simp [encodeScore, ha, hb]
  | some _, none | none, some _ => cases h

/-- Without the index entry of a score. -/
def dropScore (ctx : ShardCtx) (key member : Bytes) : Option UInt64 → ShardCtx
  | some s => ctx.delRaw (zsetScoreKey key (encodeScore s) member)
  | none => ctx

/-- With the index entry of a score. -/
def addScore (ctx : ShardCtx) (key member : Bytes) : Option UInt64 → ShardCtx
  | some s => ctx.putIndex (zsetScoreKey key (encodeScore s) member)
  | none => ctx

theorem applyMemberRecord_eq (ctx : ShardCtx) :
    ctx.applyMemberRecord key member incoming =
      let after := ctx.writeMerged (zsetMemberKey key member) incoming
      if sameScore (ctx.heldScore key member) (after.heldScore key member) then after
      else (after.dropScore key member (ctx.heldScore key member)).addScore key member (after.heldScore key member) := rfl

theorem getRaw_putIndex (ctx : ShardCtx) : (ctx.putIndex idx).getRaw k = (ctx.putRaw idx []).getRaw k := by
  rw [putIndex]
  split
  · rfl
  · rw [getRaw, db_popHintOnInsert]
    rfl

theorem nowMs_putIndex (ctx : ShardCtx) (idx : Bytes) : (ctx.putIndex idx).nowMs = ctx.nowMs := by
  rw [putIndex]
  split
  · rfl
  · rw [nowMs_popHintOnInsert]
    rfl

theorem getRaw_dropScore_of_ne (old : Option UInt64) (h : ∀ enc, zsetScoreKey key enc member ≠ k) :
    (ctx.dropScore key member old).getRaw k = ctx.getRaw k := by
  cases old with
  | none => rfl
  | some s => exact getRaw_delRaw_of_ne _ (h _)

theorem getRaw_addScore_of_ne (new : Option UInt64) (h : ∀ enc, zsetScoreKey key enc member ≠ k) :
    (ctx.addScore key member new).getRaw k = ctx.getRaw k := by
  cases new with
  | none => rfl
  | some s =>
    rw [addScore, getRaw_putIndex]
    exact getRaw_putRaw_of_ne _ (h _) _

theorem zsetScoreKey_ne_of_enc (hk : key.length < 2 ^ 64) (h : enc ≠ enc') :
    zsetScoreKey key enc member ≠ zsetScoreKey key enc' member := by
  rw [Ne, zsetScoreKey_eq_iff hk hk]
  exact fun hc => h hc.2.1

/-- Without the entry of the only score there is, the member has no entry. -/
theorem getRaw_dropScore (hk : key.length < 2 ^ 64)
    (h : (ctx.getRaw (zsetScoreKey key enc member)).isSome = true ↔ old.map encodeScore = some enc) :
    (ctx.dropScore key member old).getRaw (zsetScoreKey key enc member) = none := by
  cases old with
  | none => simpa [dropScore] using h
  | some s =>
    rw [dropScore]
    by_cases henc : encodeScore s = enc
    · rw [henc]
      exact getRaw_delRaw_self _ _
    · rw [getRaw_delRaw_of_ne _ (zsetScoreKey_ne_of_enc hk henc)]
      simpa [henc] using h

/-- A member without entries has the one that is added. -/
theorem isSome_addScore (new : Option UInt64) (hk : key.length < 2 ^ 64)
    (h : ctx.getRaw (zsetScoreKey key enc member) = none) :
    ((ctx.addScore key member new).getRaw (zsetScoreKey key enc member)).isSome = true ↔
      new.map encodeScore = some enc := by
  cases new with
  | none => simp [addScore, h]
  | some s =>
    rw [addScore, getRaw_putIndex]
    by_cases henc : encodeScore s = enc
    · rw [henc, getRaw_putRaw_self]
      simp [henc]
    · rw [getRaw_putRaw_of_ne _ (zsetScoreKey_ne_of_enc hk henc), h]
      simp [henc]

@[simp] theorem nowMs_dropScore : (ctx.dropScore key member old).nowMs = ctx.nowMs := by
  cases old <;> rfl

@[simp] theorem nowMs_addScore (key member : Bytes) : (ctx.addScore key member new).nowMs = ctx.nowMs := by
  cases new with
  | none => rfl
  | some s => exact nowMs_putIndex _ _

/-- Applying a record writes the member's record and its entries. -/
theorem applyMemberRecord_frame (ctx : ShardCtx) (key member incoming : Bytes) :
    (ctx.applyMemberRecord key member incoming).nowMs = ctx.nowMs ∧
      ∀ k, (∀ enc, zsetScoreKey key enc member ≠ k) → (ctx.applyMemberRecord key member incoming).getRaw k =
        (ctx.writeMerged (zsetMemberKey key member) incoming).getRaw k := by
  rw [applyMemberRecord_eq]
  dsimp only
  split
  · exact ⟨nowMs_writeMerged _ _ _, fun _ _ => rfl⟩
  · refine ⟨by rw [nowMs_addScore, nowMs_dropScore, nowMs_writeMerged], fun k hk => ?_⟩
    rw [getRaw_addScore_of_ne _ hk, getRaw_dropScore_of_ne _ hk]

theorem ScoreInv.getRaw_writeMerged (h : ctx.ScoreInv) (hk : key.length < 2 ^ 64) (member : Bytes) (r : MemberRecord) :
    ∃ r' : MemberRecord,
      (ctx.writeMerged (zsetMemberKey key member) r.encode).getRaw (zsetMemberKey key member) = some r'.encode := by
  rw [getRaw_writeMerged_self]
  cases hraw : ctx.getRaw (zsetMemberKey key member) with
  | none => exact ⟨r, rfl⟩
  | some v =>
    obtain ⟨l, rfl⟩ := h.records hk hraw
    exact ⟨l.merge r, congrArg some (l.writeMergedAt_encode r key member)⟩

theorem ScoreInv.applyMemberRecord (h : ctx.ScoreInv) (hk : key.length < 2 ^ 64) (member : Bytes) (r : MemberRecord) :
    (ctx.applyMemberRecord key member r.encode).ScoreInv := by
  obtain ⟨r', hr'⟩ := h.getRaw_writeMerged hk member r
  have hmem : ∀ k m, k.length < 2 ^ 64 → ¬(key = k ∧ member = m) →
      (ctx.writeMerged (zsetMemberKey key member) r.encode).getRaw (zsetMemberKey k m) =
        ctx.getRaw (zsetMemberKey k m) := by
    intro k m hk' hne
    refine getRaw_writeMerged_of_ne _ ?_ _
    rwa [Ne, zsetMemberKey_eq_iff hk hk']
  have hidx : ∀ k enc m, (ctx.writeMerged (zsetMemberKey key member) r.encode).getRaw (zsetScoreKey k enc m) =
      ctx.getRaw (zsetScoreKey k enc m) := by
    intro k enc m
    exact getRaw_writeMerged_of_ne _ (zsetScoreKey_ne_zsetMemberKey _ _ _ _ _).symm _
  rw [applyMemberRecord_eq]
  dsimp only
  generalize ctx.writeMerged (zsetMemberKey key member) r.encode = after at hr' hmem hidx ⊢
  have hrec : ∀ {k m v : Bytes}, k.length < 2 ^ 64 → after.getRaw (zsetMemberKey k m) = some v →
      ∃ r : MemberRecord, v = r.encode := by
    intro k m v hk' hv
    by_cases heq : key = k ∧ member = m
    · obtain ⟨rfl, rfl⟩ := heq
      rw [hr'] at hv
      exact ⟨r', (some.inj hv).symm⟩
    · rw [hmem k m hk' heq] at hv
      exact h.records hk' hv
  have hheld : ∀ k m, k.length < 2 ^ 64 → ¬(key = k ∧ member = m) → after.heldScore k m = ctx.heldScore k m := by
    intro k m hk' hne
    rw [heldScore, heldScore, hmem k m hk' hne]
  split
  · rename_i hsame
    refine ⟨hrec, fun {k m enc} hk' => ?_⟩
    rw [hidx]
    by_cases heq : key = k ∧ member = m
    · obtain ⟨rfl, rfl⟩ := heq
      rw [h.index hk', encodeScore_eq_of_sameScore hsame]
    · rw [h.index hk', hheld k m hk' heq]
  · have hframe : ∀ {k : Bytes}, (∀ enc, zsetScoreKey key enc member ≠ k) →
        ((after.dropScore key member (ctx.heldScore key member)).addScore key member (after.heldScore key member)).getRaw k =
          after.getRaw k := by
      intro k hne
      rw [getRaw_addScore_of_ne _ hne, getRaw_dropScore_of_ne _ hne]
    have hmk : ∀ k m enc, zsetScoreKey key enc member ≠ zsetMemberKey k m :=
      fun _ _ _ => zsetScoreKey_ne_zsetMemberKey _ _ _ _ _
    refine ⟨fun {k m v} hk' hv => hrec hk' (hframe (hmk k m) ▸ hv), fun {k m enc} hk' => ?_⟩
    have hheld' : ((after.dropScore key member (ctx.heldScore key member)).addScore key member
        (after.heldScore key member)).heldScore k m = after.heldScore k m :=
      congrArg (fun v : Option Bytes => v.bind scoreFromRecord) (hframe (hmk k m))
    rw [hheld']
    by_cases heq : key = k ∧ member = m
    · obtain ⟨rfl, rfl⟩ := heq
      exact isSome_addScore _ hk (getRaw_dropScore hk (by rw [hidx]; exact h.index hk))
    have hne : ∀ enc', zsetScoreKey key enc' member ≠ zsetScoreKey k enc m := by
      intro enc' hc
      obtain ⟨h1, -, h2⟩ := (zsetScoreKey_eq_iff hk hk').1 hc
      exact heq ⟨h1, h2⟩
    rw [hframe hne, hidx, h.index hk', hheld k m hk' heq]

theorem ScoreInv.writeMember (h : ctx.ScoreInv) (hk : key.length < 2 ^ 64) (member : Bytes) (score : UInt64) :
    (ctx.writeMember key member score).ScoreInv := by
  have htick : ctx.tick.ScoreInv := h.congr (fun _ _ => rfl) fun _ _ _ => rfl
  rw [ShardCtx.writeMember, encode_fresh]
  exact htick.applyMemberRecord hk member _

/-! ## Removing a member -/

theorem memberScore_of_getRaw (h : ctx.getRaw (zsetMemberKey key member) = some r.encode) (del : UInt64) :
    ctx.memberScore key member del = if visible r.envelope del ctx.nowMs then r.score else none := by
  rw [memberScore, readLww, h, readLww_encode]
  split
  · exact r.payloadScore_encode
  · rfl

theorem score_isSome_of_visible (h : visible r.envelope del now = true) : r.score.isSome = true := by
  rw [MemberRecord.score, isSome_map]
  exact value_isSome_of_visible h

theorem ScoreInv.exists_visible (h : ctx.ScoreInv) (hk : key.length < 2 ^ 64)
    (hs : (ctx.memberScore key member del).isSome = true) : ∃ r : MemberRecord,
      ctx.getRaw (zsetMemberKey key member) = some r.encode ∧ visible r.envelope del ctx.nowMs = true := by
  cases hraw : ctx.getRaw (zsetMemberKey key member) with
  | none =>
    rw [memberScore, readLww, hraw] at hs
    cases hs
  | some v =>
    obtain ⟨r, rfl⟩ := h.records hk hraw
    rw [memberScore_of_getRaw hraw] at hs
    by_cases hvis : visible r.envelope del ctx.nowMs = true
    · exact ⟨r, rfl, hvis⟩
    · rw [if_neg hvis] at hs
      cases hs

/-- The shard after a visible member was removed. -/
def cleared (ctx : ShardCtx) (key member : Bytes) (r : MemberRecord) : ShardCtx :=
  (ctx.tick.writeMerged (zsetMemberKey key member) (r.cover ⟨ctx.hlcNow, ctx.nodeId⟩).encode).dropScore key member r.score

theorem removeMember_of_visible (hraw : ctx.getRaw (zsetMemberKey key member) = some r.encode)
    (hvis : visible r.envelope del ctx.nowMs = true) :
    ctx.removeMember key member del = some (ctx.cleared key member r) := by
  rw [removeMember]
  simp only [hraw]
  rw [removal_encode r.toElementRecord plain_zsetMember, if_pos hvis, map_some, r.scoreFromRecord_encode, cleared]
  cases r.score <;> rfl

theorem ScoreInv.removeMember_eq_none (h : ctx.ScoreInv) (hk : key.length < 2 ^ 64)
    (hs : ctx.memberScore key member del = none) : ctx.removeMember key member del = none := by
  rw [removeMember]
  cases hraw : ctx.getRaw (zsetMemberKey key member) with
  | none => rfl
  | some v =>
    obtain ⟨r, rfl⟩ := h.records hk hraw
    rw [memberScore_of_getRaw hraw] at hs
    have hvis : ¬visible r.envelope del ctx.nowMs = true := by
      intro hvis
      rw [if_pos hvis] at hs
      have hsome := score_isSome_of_visible hvis
      rw [hs] at hsome
      cases hsome
    simp only
    rw [removal_encode r.toElementRecord plain_zsetMember, if_neg hvis]
    rfl

@[simp] theorem nowMs_cleared : (ctx.cleared key member r).nowMs = ctx.nowMs := by
  rw [cleared, nowMs_dropScore, nowMs_writeMerged, nowMs_tick]

/-- A removal writes the member's record and takes away one of its entries. -/
theorem removeMember_frame (h : ctx.removeMember key member del = some ctx') :
    ctx'.nowMs = ctx.nowMs ∧ ∀ k, zsetMemberKey key member ≠ k → (∀ enc, zsetScoreKey key enc member ≠ k) →
      ctx'.getRaw k = ctx.getRaw k := by
  rw [removeMember] at h
  cases hraw : ctx.getRaw (zsetMemberKey key member) with
  | none =>
    simp only [hraw] at h
    cases h
  | some v =>
    simp only [hraw] at h
    obtain ⟨rm, -, hrm⟩ := map_eq_some_iff.1 h
    rw [← hrm]
    cases scoreFromRecord v with
    | none => exact ⟨nowMs_writeMerged _ _ _, fun k hk _ => getRaw_writeMerged_of_ne _ hk _⟩
    | some s =>
      refine ⟨nowMs_writeMerged _ _ _, fun k hk hidx => ?_⟩
      exact (getRaw_delRaw_of_ne _ (hidx _)).trans (getRaw_writeMerged_of_ne _ hk _)

theorem getRaw_cleared (hraw : ctx.getRaw (zsetMemberKey key member) = some r.encode) :
    (ctx.cleared key member r).getRaw (zsetMemberKey key member) =
      some (r.merge (r.cover ⟨ctx.hlcNow, ctx.nodeId⟩)).encode := by
  rw [cleared, getRaw_dropScore_of_ne _ fun _ => zsetScoreKey_ne_zsetMemberKey _ _ _ _ _, getRaw_writeMerged_self, getRaw_tick,
    hraw, writeMergedAt_encode]

/-- No entry of a member is left when it is removed. -/
theorem ScoreInv.getRaw_cleared_index (h : ctx.ScoreInv) (hk : key.length < 2 ^ 64)
    (hraw : ctx.getRaw (zsetMemberKey key member) = some r.encode) (enc : UInt64) :
    (ctx.cleared key member r).getRaw (zsetScoreKey key enc member) = none := by
  refine getRaw_dropScore hk ?_
  rw [getRaw_writeMerged_of_ne _ (zsetScoreKey_ne_zsetMemberKey _ _ _ _ _).symm, getRaw_tick, h.index hk, heldScore, hraw]
  exact iff_of_eq (congrArg (fun o : Option UInt64 => o.map encodeScore = some enc) r.scoreFromRecord_encode)

/-- A removal that leaves nothing of the member keeps the index in step. -/
theorem ScoreInv.cleared (h : ctx.ScoreInv) (hk : key.length < 2 ^ 64)
    (hraw : ctx.getRaw (zsetMemberKey key member) = some r.encode) (hvis : visible r.envelope del ctx.nowMs = true)
    (hclear : r.state.CanClear) : (ctx.cleared key member r).ScoreInv := by
  have hframe := (removeMember_frame (removeMember_of_visible hraw hvis)).2
  have hmem : ∀ k m, k.length < 2 ^ 64 → ¬(key = k ∧ member = m) →
      (ctx.cleared key member r).getRaw (zsetMemberKey k m) = ctx.getRaw (zsetMemberKey k m) := by
    intro k m hk' hne
    refine hframe _ ?_ fun _ => zsetScoreKey_ne_zsetMemberKey _ _ _ _ _
    rwa [Ne, zsetMemberKey_eq_iff hk hk']
  refine ⟨fun {k m v} hk' hv => ?_, fun {k m enc} hk' => ?_⟩
  · by_cases heq : key = k ∧ member = m
    · obtain ⟨rfl, rfl⟩ := heq
      rw [getRaw_cleared hraw] at hv
      exact ⟨_, (some.inj hv).symm⟩
    · rw [hmem k m hk' heq] at hv
      exact h.records hk' hv
  · by_cases heq : key = k ∧ member = m
    · obtain ⟨rfl, rfl⟩ := heq
      have hdead : (r.merge (r.cover ⟨ctx.hlcNow, ctx.nodeId⟩)).state.live = [] :=
        (live_join_remover_eq_nil_iff r.isMember plain_zsetMember _).2 hclear
      have hnone : (ctx.cleared key member r).heldScore key member = none := by
        rw [heldScore, getRaw_cleared hraw, bind_some, scoreFromRecord_encode, MemberRecord.score,
          ElementState.value, hdead]
        rfl
      rw [h.getRaw_cleared_index hk hraw, hnone]
      simp
    · have hne : ∀ enc', zsetScoreKey key enc' member ≠ zsetScoreKey k enc m := by
        intro enc' hc
        obtain ⟨h1, -, h2⟩ := (zsetScoreKey_eq_iff hk hk').1 hc
        exact heq ⟨h1, h2⟩
      rw [hframe _ (zsetScoreKey_ne_zsetMemberKey _ _ _ _ _).symm hne, heldScore, hmem k m hk' heq]
      exact h.index hk'

/-! ## Members without an entry -/

/-- A member is visible, will not go away, and has no entry. -/
structure Unlisted (ctx : ShardCtx) (key member : Bytes) (del : UInt64) : Prop where
  record : ∃ r : MemberRecord, ctx.getRaw (zsetMemberKey key member) = some r.encode ∧
    visible r.envelope del ctx.nowMs = true ∧ ¬r.state.CanClear
  entries : ∀ enc, ctx.getRaw (zsetScoreKey key enc member) = none

/-- What a removal leaves of a visible record is visible. -/
theorem visible_merge_cover (hvis : visible r.envelope del now = true) (hstuck : ¬r.state.CanClear)
    (version : Version) : visible (r.merge (r.cover version)).envelope del now = true := by
  have hlive : (r.merge (r.cover version)).state.live ≠ [] :=
    fun hnil => hstuck ((live_join_remover_eq_nil_iff r.isMember plain_zsetMember _).1 hnil)
  have htomb : (r.merge (r.cover version)).envelope.isTombstone = false := by
    rw [Bool.eq_false_iff, Ne, isTombstone_iff]
    exact hlive
  simp only [visible, Bool.not_eq_true', decide_eq_false_iff_not, not_or, Bool.not_eq_true, not_le] at hvis ⊢
  obtain ⟨-, hexp, hdel⟩ := hvis
  refine ⟨htomb, ?_, ?_⟩
  · show Envelope.isExpired ⟨_, _, _, if r.version < version then 0 else r.ttl⟩ now = false
    split
    · simp [Envelope.isExpired]
    · exact hexp
  · refine hdel.trans_le ?_
    show r.version.hlc ≤ (max r.version version).hlc
    rcases le_total r.version version with hle | hle
    · rw [max_eq_right hle]
      exact Dot.hlc_le_of_le hle
    · rw [max_eq_left hle]

/-- Where something is left of the member, it is there without an entry. -/
theorem ScoreInv.unlisted_cleared (h : ctx.ScoreInv) (hk : key.length < 2 ^ 64)
    (hraw : ctx.getRaw (zsetMemberKey key member) = some r.encode) (hvis : visible r.envelope del ctx.nowMs = true)
    (hstuck : ¬r.state.CanClear) :
    (ctx.cleared key member r).Unlisted key member del where
  record := ⟨_, getRaw_cleared hraw, by rw [nowMs_cleared]; exact visible_merge_cover hvis hstuck _,
    not_canClear_join_remover r.isMember plain_zsetMember _ hstuck⟩
  entries := h.getRaw_cleared_index hk hraw

/-- Further removals leave it like that. -/
theorem Unlisted.removeMember (h : ctx.Unlisted key member del) (hk : key.length < 2 ^ 64)
    (hrm : ctx.removeMember key m del = some ctx') : ctx'.Unlisted key member del := by
  obtain ⟨r, hraw, hvis, hstuck⟩ := h.record
  obtain ⟨hnow, hframe⟩ := removeMember_frame hrm
  by_cases hm : m = member
  · subst hm
    rw [removeMember_of_visible hraw hvis] at hrm
    obtain rfl := some.inj hrm
    refine ⟨⟨_, getRaw_cleared hraw, ?_, not_canClear_join_remover r.isMember plain_zsetMember _ hstuck⟩, fun enc => ?_⟩
    · rw [nowMs_cleared]
      exact visible_merge_cover hvis hstuck _
    -- its entries were gone already, and a removal adds none
    have hnone : (ctx.tick.writeMerged (zsetMemberKey key m) (r.cover ⟨ctx.hlcNow, ctx.nodeId⟩).encode).getRaw
        (zsetScoreKey key enc m) = none := by
      rw [getRaw_writeMerged_of_ne _ (zsetScoreKey_ne_zsetMemberKey _ _ _ _ _).symm]
      exact h.entries enc
    rw [ShardCtx.cleared]
    cases r.score with
    | none => exact hnone
    | some s =>
      rw [dropScore]
      by_cases henc : encodeScore s = enc
      · rw [henc]
        exact getRaw_delRaw_self _ _
      · rw [getRaw_delRaw_of_ne _ (zsetScoreKey_ne_of_enc hk henc)]
        exact hnone
  · refine ⟨⟨r, ?_, by rw [hnow]; exact hvis, hstuck⟩, fun enc => ?_⟩
    · rw [hframe _ ?_ fun _ => zsetScoreKey_ne_zsetMemberKey _ _ _ _ _]
      · exact hraw
      · rw [Ne, zsetMemberKey_eq_iff hk hk]
        exact fun hc => hm hc.2
    · rw [hframe _ (zsetScoreKey_ne_zsetMemberKey _ _ _ _ _).symm]
      · exact h.entries enc
      · intro enc' hc
        exact hm ((zsetScoreKey_eq_iff hk hk).1 hc).2.2

end ShardCtx

end Marekvs
