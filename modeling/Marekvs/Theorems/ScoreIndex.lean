import Marekvs.Lemmas.ScoreIndex
import Marekvs.Lemmas.ScoreOrder
import Marekvs.Lib.BytesOrder

/-!
# The index of a sorted set is complete and in order

A walk over the score index gives the visible members of the key, each once, with the score in its record, by increasing score and
member. It does so throughout a run exactly as long as every removal leaves nothing of what it removes: a member's record has room
for so many covered dots, a live dot that is older than all of them comes back with the merge, and its index entry is gone.
-/

namespace Marekvs

open List ElementRecord Binary64 Bytes Fallible Ikey ZremCommand

variable {m : Bytes} {args : List Bytes} {op : ZsetOp}

/-! ## Walks -/

/-- By increasing score, and by member where scores are equal. -/
def ScoredBefore (a b : UInt64 × Bytes) : Prop :=
  ¬IsNan a.1 → ¬IsNan b.1 → value a.1 < value b.1 ∨ value a.1 = value b.1 ∧ compare a.2 b.2 = .lt

/-- A walk gives the visible members of a key, each once, with the score that its record holds, in order. -/
structure ShardCtx.RanksMembers (ctx : ShardCtx) (key : Bytes) (del : UInt64) : Prop where
  visible : ∀ m, (∃ s, (s, m) ∈ ctx.scoredMembers key del) ↔
    memberExists (ctx.getRaw (zsetMemberKey key m)) del ctx.nowMs = true
  score : ∀ s m, (s, m) ∈ ctx.scoredMembers key del → ctx.heldScore key m = some s
  once : ((ctx.scoredMembers key del).map Prod.snd).Nodup
  ordered : (ctx.scoredMembers key del).Pairwise ScoredBefore

namespace ShardCtx

variable {ctx ctx' : ShardCtx} {key : Bytes} {del : UInt64}

/-- An index record stands for a member whose record agrees with the record's key. -/
theorem indexEntry_eq_some (hk : key.length < 2 ^ 64) (hpre : collectionPrefix .zsetScore key <+: e.1) :
    ctx.indexEntry key del e = some (s, m) ↔ e.1 = zsetScoreKey key (encodeScore s) m ∧ ctx.memberScore key m del = some s := by
  obtain ⟨suffix, hkey⟩ := collectionPrefix_isPrefix_iff.1 hpre
  rw [indexEntry, hkey, parse_elemKey rfl key suffix hk]
  dsimp only
  constructor
  · intro h
    split at h
    · cases h
    rename_i hlen
    split at h
    · cases h
    rename_i sc hsc
    split at h
    · rename_i henc
      obtain ⟨rfl, rfl⟩ := Prod.mk.injEq .. ▸ Option.some.inj h
      refine ⟨?_, hsc⟩
      rw [zsetScoreKey, henc, ofU64_toU64 (by rw [length_take]; omega), take_append_drop]
    · cases h
  · rintro ⟨hsuf, hsc⟩
    obtain rfl := elemKey_inj.1 hsuf
    have hdrop : (Bytes.ofU64 (encodeScore s) ++ m).drop 8 = m := drop_left' (length_ofU64 _)
    have htake : (Bytes.ofU64 (encodeScore s) ++ m).take 8 = Bytes.ofU64 (encodeScore s) := take_left' (length_ofU64 _)
    rw [if_neg (by simp), hdrop, hsc, htake]
    simp

theorem mem_scoredMembers (hk : key.length < 2 ^ 64) :
    (s, m) ∈ ctx.scoredMembers key del ↔
      ctx.memberScore key m del = some s ∧ (ctx.getRaw (zsetScoreKey key (encodeScore s) m)).isSome = true := by
  rw [scoredMembers, mem_filterMap]
  constructor
  · rintro ⟨⟨k, v⟩, he, hentry⟩
    obtain ⟨hv, hpre⟩ := Db.mem_scanPrefix.1 he
    obtain ⟨hkey, hsc⟩ := (indexEntry_eq_some hk hpre).1 hentry
    refine ⟨hsc, ?_⟩
    dsimp only at hkey
    rw [getRaw, ← hkey, hv]
    rfl
  · rintro ⟨hsc, hidx⟩
    obtain ⟨v, hv⟩ := Option.isSome_iff_exists.1 hidx
    have hpre : collectionPrefix .zsetScore key <+: zsetScoreKey key (encodeScore s) m :=
      collectionPrefix_isPrefix_iff.2 ⟨_, rfl⟩
    exact ⟨(_, v), Db.mem_scanPrefix.2 ⟨hv, hpre⟩, (indexEntry_eq_some hk hpre).2 ⟨rfl, hsc⟩⟩

/-- A walk goes by the form of the score, and by the member. -/
theorem scoredMembers_sorted (hk : key.length < 2 ^ 64) :
    (ctx.scoredMembers key del).Pairwise fun a b =>
      encodeScore a.1 < encodeScore b.1 ∨ encodeScore a.1 = encodeScore b.1 ∧ compare a.2 b.2 = .lt := by
  rw [scoredMembers, pairwise_filterMap]
  refine ((Db.toList_sorted ctx.db).filter _).imp_of_mem fun {e e'} he he' hlt a ha b hb => ?_
  have hpre := isPrefixOf_iff_prefix.1 (mem_filter.1 he).2
  have hpre' := isPrefixOf_iff_prefix.1 (mem_filter.1 he').2
  have hkey := ((indexEntry_eq_some hk hpre).1 ha).1
  have hkey' := ((indexEntry_eq_some hk hpre').1 hb).1
  rw [hkey, hkey', zsetScoreKey, zsetScoreKey, elemKey_eq_append, elemKey_eq_append,
    compare_append_left, compare_append (by simp), compare_ofU64] at hlt
  rcases Ordering.then_eq_lt.1 hlt with h | ⟨h, h'⟩
  · exact .inl (compare_lt_iff_lt.1 h)
  · exact .inr ⟨compare_eq_iff_eq.1 h, h'⟩

/-- With the index in step, a walk ranks the members. -/
theorem ScoreInv.ranksMembers (h : ctx.ScoreInv) (hk : key.length < 2 ^ 64) : ctx.RanksMembers key del := by
  have hheld : ∀ {m s}, ctx.memberScore key m del = some s → ctx.heldScore key m = some s := by
    intro m s hs
    obtain ⟨r, hraw, hvis⟩ := h.exists_visible hk (Option.isSome_iff_exists.2 ⟨s, hs⟩)
    rw [memberScore_of_getRaw hraw, if_pos hvis] at hs
    rw [heldScore, hraw, Option.bind_some, MemberRecord.scoreFromRecord_encode, hs]
  have hmem : ∀ {m s}, (s, m) ∈ ctx.scoredMembers key del ↔ ctx.memberScore key m del = some s := by
    intro m s
    rw [mem_scoredMembers hk]
    refine and_iff_left_of_imp fun hs => ?_
    rw [h.index hk, hheld hs]
    rfl
  refine ⟨fun m => ?_, fun s m hs => hheld (hmem.1 hs), ?_, ?_⟩
  · simp only [hmem]
    rw [← Option.isSome_iff_exists]
    cases hraw : ctx.getRaw (zsetMemberKey key m) with
    | none =>
      rw [memberScore, readLww, hraw]
      exact Iff.rfl
    | some v =>
      obtain ⟨r, rfl⟩ := h.records hk hraw
      rw [memberScore_of_getRaw hraw, memberExists, readElement_encode]
      by_cases hvis : visible r.envelope del ctx.nowMs = true
      · rw [if_pos hvis, if_pos hvis]
        exact iff_of_true (score_isSome_of_visible hvis) rfl
      · rw [if_neg hvis, if_neg hvis]
        exact Iff.rfl
  · rw [List.Nodup, pairwise_map]
    refine (scoredMembers_sorted hk).imp_of_mem fun {a b} ha hb hlt heq => ?_
    -- two entries of one member would hold one score, and so be in no order
    have hsc : a.1 = b.1 := by
      have hsa := hmem.1 ha
      rw [heq, hmem.1 hb] at hsa
      exact (Option.some.inj hsa).symm
    rw [hsc, heq] at hlt
    rcases hlt with hlt | ⟨-, hlt⟩
    · exact lt_irrefl _ hlt
    · have hself : compare b.2 b.2 = .eq := Std.ReflCmp.compare_self
      rw [hself] at hlt
      cases hlt
  · refine (scoredMembers_sorted hk).imp fun {a b} hlt ha hb => ?_
    rwa [← encodeScore_lt_iff ha hb, ← encodeScore_eq_iff ha hb]

/-- A member without an entry is not in the walk. -/
theorem Unlisted.not_ranksMembers (h : ctx.Unlisted key m del) (hk : key.length < 2 ^ 64) : ¬ctx.RanksMembers key del := by
  intro hrank
  obtain ⟨r, hraw, hvis, -⟩ := h.record
  have hexists : memberExists (ctx.getRaw (zsetMemberKey key m)) del ctx.nowMs = true := by
    rw [hraw, memberExists, readElement_encode, if_pos hvis]
    rfl
  obtain ⟨s, hs⟩ := (hrank.visible m).2 hexists
  have hidx := ((mem_scoredMembers hk).1 hs).2
  rw [h.entries] at hidx
  cases hidx

/-! ## Removals of several members -/

theorem canClear_iff {r : MemberRecord} (hraw : ctx.getRaw (zsetMemberKey key m) = some r.encode) :
    ctx.CanClear key m ↔ r.state.CanClear := by
  constructor
  · intro h
    exact h _ _ _ _ hraw r.decode_encode r.decode_state_encode
  intro h v env payload st hv hdec hst
  rw [hraw] at hv
  obtain rfl := Option.some.inj hv
  rw [r.decode_encode] at hdec
  simp only [Option.some.injEq, Prod.mk.injEq] at hdec
  rw [← hdec.2, r.decode_state_encode] at hst
  rwa [← Option.some.inj hst]

/-- Where a member is visible, its removal leaves nothing. -/
def Clears (ctx : ShardCtx) (key : Bytes) (del : UInt64) (m : Bytes) : Prop :=
  (ctx.memberScore key m del).isSome → ctx.CanClear key m

/-- Remove members one after the other, as far as they are there. -/
def removeEach (key : Bytes) (del : UInt64) (ctx : ShardCtx) (members : List Bytes) : ShardCtx :=
  members.foldl (fun ctx m => (ctx.removeMember key m del).getD ctx) ctx

theorem removeEach_cons :
    removeEach key del ctx (m :: ms) = removeEach key del ((ctx.removeMember key m del).getD ctx) ms := rfl

/-- A loop that removes members and counts or collects them. -/
theorem fst_foldl_removeMember (f : α → Bytes) (g : β → α → β) (vs : List α) (out : β) :
    (vs.foldl (fun (s : ShardCtx × β) v => match s.1.removeMember key (f v) del with
      | some ctx => (ctx, g s.2 v)
      | none => s) (ctx, out)).1 = removeEach key del ctx (vs.map f) := by
  induction vs generalizing ctx out with
  | nil => rfl
  | cons v vs ih =>
    rw [foldl_cons, map_cons, removeEach_cons]
    dsimp only
    cases ctx.removeMember key (f v) del with
    | none => exact ih out
    | some ctx' => exact ih (g out v)

theorem fst_removeMembers (ms : List Bytes) : (removeMembers key del ctx ms).1 = removeEach key del ctx ms :=
  (fst_foldl_removeMember id (fun n _ => n + 1) ms 0).trans (by rw [map_id])

theorem fst_removeVictims (vs : List (UInt64 × Bytes)) :
    (removeVictims key del ctx vs).1 = removeEach key del ctx (vs.map Prod.snd) :=
  fst_foldl_removeMember Prod.snd (fun out v => out ++ [v]) vs []

/-- What a removal that leaves nothing does to the removals to come. -/
theorem ScoreInv.removeMember_getD (h : ctx.ScoreInv) (hk : key.length < 2 ^ 64) (hm : ctx.Clears key del m) :
    ((ctx.removeMember key m del).getD ctx).ScoreInv ∧
      ∀ m', ((ctx.removeMember key m del).getD ctx).Clears key del m' ↔ ctx.Clears key del m' := by
  cases hs : ctx.memberScore key m del with
  | none =>
    rw [h.removeMember_eq_none hk hs]
    exact ⟨h, fun _ => Iff.rfl⟩
  | some s =>
    have hsome := Option.isSome_iff_exists.2 ⟨s, hs⟩
    obtain ⟨r, hraw, hvis⟩ := h.exists_visible hk hsome
    have hclear := (canClear_iff hraw).1 (hm hsome)
    have hrm := removeMember_of_visible hraw hvis
    rw [hrm, Option.getD_some]
    refine ⟨h.cleared hk hraw hvis hclear, fun m' => ?_⟩
    by_cases heq : m = m'
    · subst heq
      have hdead : (r.merge (r.cover ⟨ctx.hlcNow, ctx.nodeId⟩)).state.live = [] :=
        (live_join_remover_eq_nil_iff r.isMember plain_zsetMember _).2 hclear
      refine iff_of_true (fun hsome' => ?_) hm
      rw [memberScore_of_getRaw (getRaw_cleared hraw)] at hsome'
      split at hsome'
      · rename_i hvis'
        exact absurd hdead (live_ne_nil_of_visible hvis')
      · cases hsome'
    · have hne : zsetMemberKey key m ≠ zsetMemberKey key m' := by
        rw [Ne, zsetMemberKey_eq_iff hk hk]
        exact fun hc => heq hc.2
      have hsame := (removeMember_frame hrm).2 _ hne fun _ => zsetScoreKey_ne_zsetMemberKey _ _ _ _ _
      rw [Clears, Clears, CanClear, CanClear, memberScore, memberScore, readLww, readLww, hsame, nowMs_cleared]

theorem ScoreInv.removeEach (h : ctx.ScoreInv) (hk : key.length < 2 ^ 64) {ms : List Bytes}
    (hms : ∀ m ∈ ms, ctx.Clears key del m) : (removeEach key del ctx ms).ScoreInv := by
  induction ms generalizing ctx with
  | nil => exact h
  | cons m ms ih =>
    obtain ⟨hinv, hcl⟩ := h.removeMember_getD hk (hms m mem_cons_self)
    exact ih hinv fun m' hm' => (hcl m').2 (hms m' (mem_cons_of_mem _ hm'))

theorem Unlisted.removeEach (h : ctx.Unlisted key m del) (hk : key.length < 2 ^ 64) (ms : List Bytes) :
    (removeEach key del ctx ms).Unlisted key m del := by
  induction ms generalizing ctx with
  | nil => exact h
  | cons m' ms ih =>
    rw [removeEach_cons]
    cases hrm : ctx.removeMember key m' del with
    | none => exact ih h
    | some ctx' => exact ih (h.removeMember hk hrm)

/-- The first removal that leaves something makes a member without an entry. -/
theorem ScoreInv.unlisted_removeEach (h : ctx.ScoreInv) (hk : key.length < 2 ^ 64)
    (hms : ¬∀ m ∈ ms, ctx.Clears key del m) : ∃ m, (ShardCtx.removeEach key del ctx ms).Unlisted key m del := by
  induction ms generalizing ctx with
  | nil => exact absurd nofun hms
  | cons m ms ih =>
    by_cases hm : ctx.Clears key del m
    · obtain ⟨hinv, hcl⟩ := h.removeMember_getD hk hm
      refine ih hinv fun hall => hms fun m' hm' => ?_
      rcases mem_cons.1 hm' with rfl | hm'
      · exact hm
      · exact (hcl m').1 (hall m' hm')
    · rw [Clears, Classical.not_imp] at hm
      obtain ⟨r, hraw, hvis⟩ := h.exists_visible hk hm.1
      have hstuck : ¬r.state.CanClear := fun hc => hm.2 ((canClear_iff hraw).2 hc)
      refine ⟨m, ?_⟩
      rw [removeEach_cons, removeMember_of_visible hraw hvis, Option.getD_some]
      exact (h.unlisted_cleared hk hraw hvis hstuck).removeEach hk ms

theorem zsetDelHlc_congr (hnow : ctx'.nowMs = ctx.nowMs)
    (hraw : ∀ ik ∈ [stringKey k, listKey k, headKey k], ctx'.getRaw ik = ctx.getRaw ik) :
    ctx'.zsetDelHlc k = ctx.zsetDelHlc k := by
  have hstring : ctx'.db.getRaw (stringKey k) = ctx.db.getRaw (stringKey k) := hraw _ (by simp)
  have hlist : ctx'.db.getRaw (listKey k) = ctx.db.getRaw (listKey k) := hraw _ (by simp)
  have hhead : ctx'.db.getRaw (headKey k) = ctx.db.getRaw (headKey k) := hraw _ (by simp)
  show ctx'.db.checkType k .zset ctx'.nowMs = ctx.db.checkType k .zset ctx.nowMs
  rw [Db.checkType, Db.checkType, Db.recordLive, Db.recordLive, Db.recordLive, Db.recordLive, Db.getHead, Db.getHead, hstring,
    hlist, hhead, hnow]

/-- The keys that say what type a key has are no keys of members and entries. -/
theorem elemKey_ne_typeKey (htag : tag = .zsetMember ∨ tag = .zsetScore) (k k' s : Bytes)
    (h : ik ∈ [stringKey k, listKey k, headKey k]) : elemKey tag k' s ≠ ik := by
  simp only [mem_cons, not_mem_nil, or_false] at h
  rcases htag with rfl | rfl <;> rcases h with rfl | rfl | rfl <;> exact elemKey_ne_simple (by decide) _ _ _ _

/-- Removals leave the type of every key alone. -/
theorem zsetDelHlc_removeEach (k : Bytes) (ms : List Bytes) : (removeEach key del ctx ms).zsetDelHlc k = ctx.zsetDelHlc k := by
  induction ms generalizing ctx with
  | nil => rfl
  | cons m ms ih =>
    rw [removeEach_cons, ih]
    cases hrm : ctx.removeMember key m del with
    | none => rfl
    | some ctx' =>
      rw [Option.getD_some]
      obtain ⟨hnow, hframe⟩ := removeMember_frame hrm
      exact zsetDelHlc_congr hnow fun ik hik =>
        hframe ik (elemKey_ne_typeKey (.inl rfl) _ _ _ hik) fun _ => elemKey_ne_typeKey (.inr rfl) _ _ _ hik

/-! ## Steps -/

theorem notePop_eq (pre : Bytes) (found : List (UInt64 × Bytes)) (last : Option Bytes) :
    ∃ hints, ctx.notePop pre found last = { ctx with popHints := hints } := by
  unfold notePop
  split
  · exact ⟨_, rfl⟩
  · split
    · exact ⟨_, rfl⟩
    · exact ⟨ctx.popHints, rfl⟩

theorem popScoredCandidates_eq (n : Nat) : ∃ hints, (ctx.popScoredCandidates key del n).1 = { ctx with popHints := hints } := by
  rw [popScoredCandidates]
  dsimp only
  split
  · exact ⟨ctx.popHints, rfl⟩
  · split
    · exact notePop_eq _ _ _
    · exact notePop_eq _ _ _
  · exact notePop_eq _ _ _

theorem popVictims_eq {max : Bool} (h : popVictims key del max n ctx = .ok r) :
    ∃ hints, r.1 = { ctx with popHints := hints } := by
  rw [popVictims] at h
  split at h
  · obtain ⟨window, -, h⟩ := bind_eq_ok.1 h
    obtain ⟨-, -, h⟩ := bind_eq_ok.1 h
    cases h
    exact ⟨ctx.popHints, rfl⟩
  · cases h
    exact popScoredCandidates_eq n

theorem ScoreInv.zaddLoop (h : ctx.ScoreInv) (hk : key.length < 2 ^ 64) (env : Env) (o : ZaddOptions)
    (pairs : List (UInt64 × Bytes)) (t : ZaddTally) : (zaddLoop env o key del pairs t ctx).2.ScoreInv := by
  induction pairs generalizing ctx t with
  | nil => exact h
  | cons p pairs ih =>
    obtain ⟨score, member⟩ := p
    have hwrite : ∀ s, ((ctx.ensureHead key .zset).writeMember key member s).ScoreInv :=
      fun s => (h.ensureHead key .zset).writeMember hk member s
    unfold Marekvs.zaddLoop
    dsimp only
    -- a pair ends the command, or is passed over, or is written
    (repeat' split) <;> first
      | exact h
      | exact ih h _
      | exact ih (hwrite _) _

theorem ScoreInv.zadd (h : ctx.ScoreInv) (env : Env) (hargs : ∀ a ∈ args, a.length < 2 ^ 64) :
    (zadd env.here args ctx).2.ScoreInv := by
  have hhere : ∀ (c : Bool) key, (if c = true then env.here.ensureLocal key ctx else ctx) = ctx := by
    intro c key
    split <;> rfl
  unfold Marekvs.zadd
  split
  · rename_i cmd key a b more
    have hk := hargs key (by simp)
    simp only [hhere]
    (repeat' split) <;> first
      | exact h
      | exact h.zaddLoop hk _ _ _ _
  · exact h

theorem ScoreInv.zincrby (h : ctx.ScoreInv) (env : Env) (hargs : ∀ a ∈ args, a.length < 2 ^ 64) :
    (zincrby env.here args ctx).2.ScoreInv := by
  unfold Marekvs.zincrby
  split
  · rename_i cmd key delta member
    have hk := hargs key (by simp)
    dsimp only [Env.here]
    (repeat' split) <;> first
      | exact h
      | exact (h.ensureHead key .zset).writeMember hk _ _
  · exact h

end ShardCtx

namespace ZsetOp

open ShardCtx

variable {env : Env} {ctx : ShardCtx} {key : Bytes} {del : UInt64} {ms : List Bytes}

theorem key_of_parse {c : ZremCommand} (h : c.parse env args = .ok (key, choice)) : key ∈ args := by
  cases c <;> dsimp only [ZremCommand.parse] at h
  · unfold ZremCommand.parseZrem at h
    split at h <;> cases h
    simp
  · unfold parseZremrangebyscore at h
    (repeat' split at h) <;> cases h
    simp
  · unfold parseZremrangebyrank at h
    (repeat' split at h) <;> cases h
    simp
  · unfold parseZremrangebylex at h
    (repeat' split at h) <;> cases h
    simp

/-- A step that goes to remove members does that, and moves a cursor. -/
theorem step_of_removing (hop : op.Sized) (h : op.removing env ctx = some (key, del, ms)) :
    key.length < 2 ^ 64 ∧ ctx.zsetDelHlc key = some del ∧
      ∃ hints, op.step env ctx = removeEach key del { ctx with popHints := hints } ms := by
  cases op with
  | zrem c args =>
    rw [removing] at h
    split at h
    · cases h
    rename_i k choice hparse
    obtain ⟨d, hd, heq⟩ := Option.map_eq_some_iff.1 h
    cases heq
    refine ⟨hop key (key_of_parse hparse), hd, ctx.popHints, ?_⟩
    have hhere : c.parse env.here args = .ok (key, choice) := by
      rw [← hparse]
      cases c <;> rfl
    rw [step, run, hhere]
    show (removeChosen key choice ctx).2 = _
    rw [removeChosen, hd, ← fst_removeMembers]
  | zpop max args =>
    unfold removing at h
    dsimp only at h
    split at h
    case h_2 => cases h
    rename_i cmd k rest
    split at h
    · cases h
    rename_i hlen
    split at h
    · cases h
    rename_i count hcount
    split at h
    · cases h
    rename_i d hd
    split at h
    · cases h
    rename_i c' victims hvict
    cases h
    obtain ⟨hints, hhints⟩ := popVictims_eq hvict
    refine ⟨hop key (by simp), hd, hints, ?_⟩
    have hstep : Marekvs.zpop env.here (cmd :: key :: rest) max ctx =
        .ok (emit (removeVictims key del c' victims).2 true, (removeVictims key del c' victims).1) := by
      rw [Marekvs.zpop, if_neg hlen]
      simp only [hcount, Env.here, hd, hvict]
      rfl
    rw [step, hstep]
    dsimp only at hhints ⊢
    rw [fst_removeVictims, hhints]
  | _ => cases h

/-- A step that goes to remove nothing keeps the index in step. -/
theorem step_scoreInv_of_none (h : ctx.ScoreInv) (hop : op.Sized) (hnone : op.removing env ctx = none) :
    (op.step env ctx).ScoreInv := by
  cases op with
  | zadd args => exact h.zadd env hop
  | zincrby args => exact h.zincrby env hop
  | zrem c args =>
    have hhere : c.parse env.here args = c.parse env args := by cases c <;> rfl
    rw [removing] at hnone
    rw [step, run, hhere]
    cases hparse : c.parse env args with
    | error r => exact h
    | ok p =>
      obtain ⟨k, choice⟩ := p
      rw [hparse] at hnone
      show (removeChosen k choice ctx).2.ScoreInv
      rw [removeChosen, Option.map_eq_none_iff.1 hnone]
      exact h
  | zpop max args =>
    have hsame : ∀ r, Marekvs.zpop env.here args max ctx = .ok r → r.2 = ctx := by
      intro r hr
      unfold Marekvs.zpop at hr
      unfold removing at hnone
      split at hr
      case h_2 =>
        cases hr
        rfl
      dsimp only [Env.here] at hr hnone
      split at hr
      · cases hr
        rfl
      rename_i hlen
      rw [if_neg hlen] at hnone
      split at hr
      · cases hr
        rfl
      rename_i count hcount
      rw [hcount] at hnone
      split at hr
      · cases hr
        rfl
      rename_i d hd
      obtain ⟨⟨c', victims⟩, hvict, -⟩ := bind_eq_ok.1 hr
      simp only [hd, hvict] at hnone
      cases hnone
    rw [step]
    split
    · rename_i r hr
      rw [hsame r hr]
      exact h
    · exact h
  | del key => exact h.delKey key
  | apply key member r =>
    have hobs : ({ ctx with clock := Hlc.observe ctx.clock ctx.nowMs r.version.hlc } : ShardCtx).ScoreInv :=
      h.congr (fun _ _ => rfl) fun _ _ _ => rfl
    exact hobs.applyMemberRecord hop member r

/-- A step whose removals leave nothing keeps the index in step. -/
theorem step_scoreInv (h : ctx.ScoreInv) (hop : op.Sized) (hclears : op.Clears env ctx) : (op.step env ctx).ScoreInv := by
  cases hrem : op.removing env ctx with
  | none => exact step_scoreInv_of_none h hop hrem
  | some p =>
    obtain ⟨k, d, ms⟩ := p
    obtain ⟨hk, -, hints, hstep⟩ := step_of_removing hop hrem
    rw [hstep]
    have hinv : ({ ctx with popHints := hints } : ShardCtx).ScoreInv := h.congr (fun _ _ => rfl) fun _ _ _ => rfl
    exact hinv.removeEach hk fun m hm => hclears k d ms hrem m hm

/-- A step with a removal that leaves something makes the walk over that key incomplete. -/
theorem step_not_ranks (h : ctx.ScoreInv) (hop : op.Sized) (hclears : ¬op.Clears env ctx) :
    ∃ key del, key.length < 2 ^ 64 ∧ (op.step env ctx).zsetDelHlc key = some del ∧ ¬(op.step env ctx).RanksMembers key del := by
  rw [ZsetOp.Clears] at hclears
  push Not at hclears
  obtain ⟨k, d, ms, hrem, m, hm, hsome, hstuck⟩ := hclears
  obtain ⟨hk, hdel, hints, hstep⟩ := step_of_removing hop hrem
  have hinv : ({ ctx with popHints := hints } : ShardCtx).ScoreInv := h.congr (fun _ _ => rfl) fun _ _ _ => rfl
  have hleft : ¬∀ m ∈ ms, ({ ctx with popHints := hints } : ShardCtx).Clears k d m := fun hall => hstuck (hall m hm hsome)
  obtain ⟨m', hm'⟩ := hinv.unlisted_removeEach hk hleft
  refine ⟨k, d, hk, ?_, ?_⟩
  · rw [hstep, zsetDelHlc_removeEach]
    exact hdel
  · rw [hstep]
    exact hm'.not_ranksMembers hk

end ZsetOp

/-! ## Runs -/

/-- The walk over every sorted set ranks its members. -/
def ShardCtx.Ranked (ctx : ShardCtx) : Prop :=
  ∀ key del, key.length < 2 ^ 64 → ctx.zsetDelHlc key = some del → ctx.RanksMembers key del

/-- A node without records. -/
def ShardCtx.fresh (node : NodeId) (clock : UInt64) : ShardCtx := ⟨∅, ∅, node, clock, 0⟩

theorem ShardCtx.ScoreInv.atWall {ctx : ShardCtx} (h : ctx.ScoreInv) (wall : UInt64) : (ctx.atWall wall).ScoreInv :=
  h.congr (fun _ _ => rfl) fun _ _ _ => rfl

theorem zsetRun_take_succ {ops : List (UInt64 × ZsetOp)} {n : Nat} {wall : UInt64} (h : ops[n]? = some (wall, op)) :
    zsetRun env ctx (ops.take (n + 1)) = op.step env ((zsetRun env ctx (ops.take n)).atWall wall) := by
  rw [take_add_one, h, zsetRun, Option.toList_some, foldl_append]
  rfl

/-- The index is in step after a run whose removals left nothing. -/
theorem zsetRun_scoreInv {clock : UInt64} {ops : List (UInt64 × ZsetOp)}
    (hsized : ∀ op ∈ ops, op.2.Sized) (n : Nat)
    (hclears : ∀ i < n, ∀ wall op, ops[i]? = some (wall, op) →
      op.Clears env ((zsetRun env (.fresh node clock) (ops.take i)).atWall wall)) :
    (zsetRun env (.fresh node clock) (ops.take n)).ScoreInv := by
  induction n with
  | zero => exact ShardCtx.scoreInv_empty _ _ _ _
  | succ n ih =>
    have hinv := ih fun i hi => hclears i (Nat.lt_succ_of_lt hi)
    cases hop : ops[n]? with
    | none =>
      rw [take_add_one, hop, Option.toList_none, append_nil]
      exact hinv
    | some p =>
      obtain ⟨wall, op⟩ := p
      rw [zsetRun_take_succ hop]
      exact ZsetOp.step_scoreInv (hinv.atWall wall) (hsized _ (mem_of_getElem? hop)) (hclears n (Nat.lt_succ_self n) wall op hop)

/-- ZADD, ZINCRBY, ZREM, ZPOPMIN, ZPOPMAX, ZREMRANGEBYSCORE, ZREMRANGEBYRANK, ZREMRANGEBYLEX and DEL on a node that starts without
records, with member records from other nodes applied in between: in every state of the run, the walk over the score index of a
sorted set gives its visible members, each once, with the score in its record and in order, exactly if every step removes only
members of which its removal leaves nothing. -/
theorem score_index_ranks_members (env : Env) (node : NodeId) (clock : UInt64) (ops : List (UInt64 × ZsetOp))
    (hsized : ∀ op ∈ ops, op.2.Sized) :
    (∀ n, (zsetRun env (.fresh node clock) (ops.take n)).Ranked) ↔
      ∀ (n : Nat) (wall : UInt64) (op : ZsetOp), ops[n]? = some (wall, op) →
        op.Clears env ((zsetRun env (.fresh node clock) (ops.take n)).atWall wall) := by
  constructor
  · intro hranked n
    induction n using Nat.strong_induction_on with
    | _ n ih =>
      intro wall op hop
      by_contra hleft
      have hinv := zsetRun_scoreInv hsized n ih
      obtain ⟨k, d, hk, hdel, hnot⟩ := ZsetOp.step_not_ranks (hinv.atWall wall) (hsized _ (mem_of_getElem? hop)) hleft
      rw [← zsetRun_take_succ hop] at hdel hnot
      exact hnot (hranked (n + 1) k d hk hdel)
  · intro hclears n k d hk hdel
    exact (zsetRun_scoreInv hsized n fun i _ => hclears i).ranksMembers hk

/-- Numbers of one digit, as far as the runs below need them. -/
def digitEnv : Env where
  ensureLocal _ ctx := ctx
  meanwhile _ ctx := ctx
  polls := 0
  isTimeout _ := true
  parseF64 b := if b = [49] then some 0x3FF0000000000000 else if b = [50] then some 0x4000000000000000 else none
  mulF64 a _ := a
  addF64 a _ := a
  minF64 a _ := a
  maxF64 a _ := a
  evalSource _ _ _ ctx := (.null, ctx)

/-- `ZADD z 2 a 1 b`, then `ZREM z a`. -/
def addAndRemove : List (UInt64 × ZsetOp) :=
  [(5, .zadd [[90, 65, 68, 68], [122], [50], [97], [49], [98]]), (6, .zrem .zrem [[90, 82, 69, 77], [122], [97]])]

/-- The members come by score, and after the removal the other one is left. -/
theorem addAndRemove_ranked :
    (∀ n, (zsetRun digitEnv (.fresh 1 0) (addAndRemove.take n)).Ranked) ∧
      (zsetRun digitEnv (.fresh 1 0) (addAndRemove.take 1)).scoredMembers [122] 0 =
        [(0x3FF0000000000000, [98]), (0x4000000000000000, [97])] ∧
      (zsetRun digitEnv (.fresh 1 0) addAndRemove).scoredMembers [122] 0 = [(0x3FF0000000000000, [98])] := by
  refine ⟨(score_index_ranks_members digitEnv 1 0 addAndRemove ?_).2 ?_, rfl, rfl⟩
  · intro op hop
    rcases mem_cons.1 hop with rfl | hop
    · decide
    · obtain rfl := mem_singleton.1 hop
      decide
  · intro n wall op hop
    match n with
    | 0 =>
      cases hop
      exact nofun
    | 1 =>
      cases hop
      intro key del ms hrem m hm _ v env payload st hv hdec hst
      have hremoving : (some ([122], 0, [[97]]) : Option (Bytes × UInt64 × List Bytes)) = some (key, del, ms) := hrem
      cases hremoving
      obtain rfl := mem_singleton.1 hm
      have hstate : (((zsetRun digitEnv (.fresh 1 0) (addAndRemove.take 1)).getRaw (zsetMemberKey [122] [97])).bind
          Envelope.decode).bind (fun p => ElementState.decode p.2) =
            some ⟨[(⟨327681, 1⟩, Bytes.ofU64 0x4000000000000000)], []⟩ := rfl
      change (zsetRun digitEnv (.fresh 1 0) (addAndRemove.take 1)).getRaw _ = _ at hv
      rw [hv, Option.bind_some, hdec, Option.bind_some, hst] at hstate
      rw [Option.some.inj hstate]
      decide
    | n + 2 => cases hop

/-- The record of a member that node 2 added, and that node 1 added and removed 255 times without knowing of node 2. -/
def agedRecord : MemberRecord where
  rtype := .zsetMember
  version := ⟨300, 1⟩
  ttl := 0
  state := ⟨[(⟨1, 2⟩, Bytes.ofU64 0x3FF0000000000000)], (List.range 255).reverse.map fun i => ⟨UInt64.ofNat (i + 2), 1⟩⟩
  orElement := by decide
  canonical :=
    { live_strict := List.pairwise_singleton _ _
      covered_strict := by
        refine List.pairwise_map.2 (List.pairwise_reverse.2 (List.pairwise_lt_range.imp_of_mem fun {a b} ha hb hlt => ?_))
        have ha' := List.mem_range.1 ha
        have hb' := List.mem_range.1 hb
        refine Dot.lt_of_hlc_lt ?_
        show UInt64.ofNat (a + 2) < UInt64.ofNat (b + 2)
        rw [UInt64.lt_iff_toNat_lt, UInt64.toNat_ofNat', UInt64.toNat_ofNat']
        omega
      uncovered := by
        intro e he hc
        obtain rfl := List.mem_singleton.1 he
        obtain ⟨i, -, hi⟩ := List.mem_map.1 hc
        exact absurd (show (1 : NodeId) = 2 from congrArg Dot.origin hi) (by decide)
      live_le := by decide
      covered_le := by simp [MAX_TOMB_DOTS] }
  small := by
    intro e he
    obtain rfl := List.mem_singleton.1 he
    decide
  collapsed h := nomatch h
  isMember := rfl
  scores := by
    intro e he
    obtain rfl := List.mem_singleton.1 he
    rfl

/-- Node 2's dot is older than all that the record has room to cover. -/
theorem agedRecord_not_canClear : ¬agedRecord.state.CanClear := by
  intro h
  have hlt := h ⟨1, 2⟩ (by decide)
  have hall : (agedRecord.state.covered.filter fun d => (⟨1, 2⟩ : Dot) < d) = agedRecord.state.covered := by
    refine filter_eq_self.2 fun d hd => decide_eq_true ?_
    obtain ⟨i, hi, rfl⟩ := mem_map.1 hd
    have hi' := mem_range.1 (mem_reverse.1 hi)
    refine Dot.lt_of_hlc_lt ?_
    show (1 : UInt64) < UInt64.ofNat (i + 2)
    rw [UInt64.lt_iff_toNat_lt, UInt64.toNat_ofNat']
    show 1 < _
    omega
  have hlen : agedRecord.state.covered.length = 255 := by simp [agedRecord]
  rw [filter_append, length_append, hall, hlen, MAX_TOMB_DOTS] at hlt
  omega

theorem zsetDelHlc_fresh : ((ShardCtx.fresh node clock).atWall wall).zsetDelHlc k = some 0 := by
  simp [ShardCtx.zsetDelHlc, ShardCtx.checkType, Db.checkType, Db.recordLive, Db.getHead, ShardCtx.fresh, ShardCtx.atWall]

/-- A record of a member reaches a node, and ZREM of the member is sent there. -/
def applyAndRemove (key member : Bytes) (r : MemberRecord) : List (UInt64 × ZsetOp) :=
  [(5, .apply key member r), (6, .zrem .zrem [[90, 82, 69, 77], key, member])]

theorem applyAndRemove_unlisted (hk : key.length < 2 ^ 64) (member : Bytes)
    (hvis : visible r.envelope 0 6 = true) (hstuck : ¬r.state.CanClear) :
    (zsetRun digitEnv (.fresh 3 0) (applyAndRemove key member r)).zsetDelHlc key = some 0 ∧
      (zsetRun digitEnv (.fresh 3 0) (applyAndRemove key member r)).Unlisted key member 0 := by
  obtain ⟨ctx, hctx⟩ : ∃ ctx, ctx = (((ShardCtx.fresh 3 0).atWall 5).applyMember key member r).atWall 6 := ⟨_, rfl⟩
  obtain ⟨-, hframe⟩ := ShardCtx.applyMemberRecord_frame
    { (ShardCtx.fresh 3 0).atWall 5 with clock := Hlc.observe 0 5 r.version.hlc } key member r.encode
  have hinv : ctx.ScoreInv := by
    rw [hctx]
    exact ((ShardCtx.scoreInv_empty ∅ 3 (Hlc.observe 0 5 r.version.hlc) 5).applyMemberRecord hk member r).atWall 6
  have hraw : ctx.getRaw (zsetMemberKey key member) = some r.encode := by
    rw [hctx]
    refine (hframe _ fun _ => zsetScoreKey_ne_zsetMemberKey _ _ _ _ _).trans ?_
    exact ShardCtx.getRaw_writeMerged_self _ _ _
  have hdel : ctx.zsetDelHlc key = some 0 := by
    have hsame : ctx.zsetDelHlc key = ((ShardCtx.fresh 3 0).atWall 6).zsetDelHlc key := by
      refine ShardCtx.zsetDelHlc_congr (by rw [hctx]; rfl) fun ik hik => ?_
      rw [hctx]
      refine (hframe ik fun _ => ShardCtx.elemKey_ne_typeKey (.inr rfl) _ _ _ hik).trans ?_
      exact ShardCtx.getRaw_writeMerged_of_ne _ (ShardCtx.elemKey_ne_typeKey (.inl rfl) _ _ _ hik) _
    rw [hsame, zsetDelHlc_fresh]
  have hvis' : visible r.envelope 0 ctx.nowMs = true := by
    rw [hctx]
    exact hvis
  have hrun : zsetRun digitEnv (.fresh 3 0) (applyAndRemove key member r) = ShardCtx.removeEach key 0 ctx [member] := by
    rw [← ShardCtx.fst_removeMembers]
    show (removeChosen key (.members [member]) ((((ShardCtx.fresh 3 0).atWall 5).applyMember key member r).atWall 6)).2 = _
    rw [← hctx, removeChosen, hdel]
    rfl
  rw [hrun]
  refine ⟨(ShardCtx.zsetDelHlc_removeEach _ _).trans hdel, ?_⟩
  rw [ShardCtx.removeEach_cons, ShardCtx.removeMember_of_visible hraw hvis', Option.getD_some]
  exact hinv.unlisted_cleared hk hraw hvis' hstuck

/-- After node 1's record has come, `ZREM z m` leaves the member where it is, and no walk finds it. -/
theorem removed_member_stays_unlisted :
    (zsetRun digitEnv (.fresh 3 0) (applyAndRemove [122] [109] agedRecord)).zsetDelHlc [122] = some 0 ∧
      memberExists ((zsetRun digitEnv (.fresh 3 0) (applyAndRemove [122] [109] agedRecord)).getRaw (zsetMemberKey [122] [109])) 0
        (zsetRun digitEnv (.fresh 3 0) (applyAndRemove [122] [109] agedRecord)).nowMs = true ∧
      ∀ s, (s, [109]) ∉ (zsetRun digitEnv (.fresh 3 0) (applyAndRemove [122] [109] agedRecord)).scoredMembers [122] 0 := by
  have hvis : visible agedRecord.envelope 0 6 = true := by decide
  have hk : ([122] : Bytes).length < 2 ^ 64 := by decide
  obtain ⟨hdel, hunl⟩ := applyAndRemove_unlisted hk [109] hvis agedRecord_not_canClear
  obtain ⟨r, hraw, hvis', -⟩ := hunl.record
  refine ⟨hdel, ?_, fun s hs => ?_⟩
  · rw [hraw, memberExists, readElement_encode, if_pos hvis']
    rfl
  · have hidx := ((ShardCtx.mem_scoredMembers hk).1 hs).2
    rw [hunl.entries] at hidx
    cases hidx

end Marekvs
