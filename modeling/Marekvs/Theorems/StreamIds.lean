import Marekvs.Engine.StreamRun
import Marekvs.Lib.Run

/-!
# Automatic stream ids across nodes

An id for `*` carries the node's id in its sequence, so that no two nodes give out the same one; but a sequence that does not come
after the last id known is replaced by the next after that one, and that may carry another node's bits. In a run in which that
does not happen no id is given out by two nodes (`auto_ids_unique`). Where it happens there is always another node that gives out
the same id from the same records (`exists_same_autoId`).
-/

namespace Marekvs

open List Bytes Nat Ikey

/-- A sequence that was put together from a node's id and its clock carries the id. -/
theorem shiftRight_seq (n : NodeId) (h : UInt64) : ((n.toUInt64 <<< 20) ||| (h &&& 0xFFFFF)) >>> 20 = n.toUInt64 := by
  have hn : n.toUInt64.toNat < 2 ^ 16 := by
    rw [UInt16.toNat_toUInt64]
    exact n.toNat_lt
  have hand : (h &&& 0xFFFFF).toNat < 2 ^ 20 := by
    rw [UInt64.toNat_and]
    exact lt_of_le_of_lt and_le_right (by decide)
  have hshift : (n.toUInt64 <<< 20).toNat = n.toUInt64.toNat <<< 20 := by
    rw [UInt64.toNat_shiftLeft]
    have h20 : (20 : UInt64).toNat % 64 = 20 := by decide
    rw [h20, shiftLeft_eq]
    exact mod_eq_of_lt (by omega)
  rw [← UInt64.toNat_inj, UInt64.toNat_shiftRight, UInt64.toNat_or, hshift, ← shiftLeft_add_eq_or_of_lt hand]
  have h20 : (20 : UInt64).toNat % 64 = 20 := by decide
  rw [h20, shiftRight_eq_div_pow, shiftLeft_eq]
  omega

namespace ShardCtx

theorem genSeq_shiftRight (ctx : ShardCtx) : ctx.genSeq >>> 20 = ctx.nodeId.toUInt64 := shiftRight_seq _ _

/-- Where the wall clock does not come after the last id, the id stays in its millisecond. -/
theorem autoId_of_le {ctx : ShardCtx} (hms : ctx.nowMs ≤ lms) :
    ctx.autoId (some (lms, ls)) = (lms, if ctx.genSeq ≤ ls then ls + 1 else ctx.genSeq) := by
  have hmax : (if ctx.nowMs < lms then lms else ctx.nowMs) = lms := by
    rcases hms.lt_or_eq with h | h
    · rw [if_pos h]
    · rw [if_neg (by rw [h]; exact lt_irrefl _), h]
  simp only [autoId, hmax, true_and]

/-- Where the node's sequence need not move, it is the one given out. -/
theorem autoId_seq {ctx : ShardCtx} (h : ¬ (ctx.nowMs ≤ lms ∧ ctx.genSeq ≤ ls)) :
    (ctx.autoId (some (lms, ls))).2 = ctx.genSeq := by
  simp only [autoId]
  rw [if_neg]
  rintro ⟨hms, hseq⟩
  refine h ⟨?_, hseq⟩
  by_contra hlt
  rw [not_le] at hlt
  rw [if_neg (lt_asymm hlt)] at hms
  exact absurd hms.symm (ne_of_lt hlt)

/-- Under its condition an id for `*` carries the node's id. -/
theorem autoId_shiftRight {ctx : ShardCtx} (h : ctx.OwnSequence key) :
    (ctx.autoId (ctx.lastId key)).2 >>> 20 = ctx.nodeId.toUInt64 := by
  cases hl : ctx.lastId key with
  | none => exact ctx.genSeq_shiftRight
  | some l =>
    obtain ⟨lms, ls⟩ := l
    by_cases hbehind : ctx.nowMs ≤ lms ∧ ctx.genSeq ≤ ls
    · rw [autoId_of_le hbehind.1, if_pos hbehind.2]
      exact h lms ls hl hbehind.1 hbehind.2
    · rw [autoId_seq hbehind]
      exact ctx.genSeq_shiftRight

theorem xadd_auto {ctx ctx' : ShardCtx} {id : StreamId} (hauto : a.spec = .auto)
    (h : ctx.xadd a = (ctx', .ok id)) : id = ctx.autoId (ctx.lastId a.key) := by
  rw [xadd, hauto] at h
  split at h
  · cases (congrArg Prod.snd h)
  split at h
  · cases (congrArg Prod.snd h)
  · simp only [chooseId, Prod.mk.injEq, Except.ok.injEq] at h
    exact h.2.symm

/-- Where the condition fails, another node gives out the same id from the same records. -/
theorem exists_same_autoId {ctx : ShardCtx} (h : ¬ ctx.OwnSequence key) :
    ∃ ctx' : ShardCtx, ctx'.db = ctx.db ∧ ctx'.nodeId ≠ ctx.nodeId ∧
      ctx'.autoId (ctx'.lastId key) = ctx.autoId (ctx.lastId key) := by
  simp only [OwnSequence, not_forall] at h
  obtain ⟨lms, ls, hl, hms, hseq, hne⟩ := h
  -- a node whose wall clock is at zero and whose clock ends in twenty zeros
  let other (n : NodeId) : ShardCtx := { ctx with nodeId := n, clock := 0xFFFFF, nowMs := 0 }
  have hlast : ∀ n, (other n).lastId key = some (lms, ls) := fun n => hl
  have hgen : ∀ n, (other n).genSeq = n.toUInt64 <<< 20 := by
    intro n
    have hclock : (other n).hlcNow &&& 0xFFFFF = 0 := (by decide : Hlc.now 0xFFFFF 0 &&& 0xFFFFF = 0)
    rw [genSeq, hclock, UInt64.or_zero]
  have hzero : ∀ x : UInt64, 0 ≤ x := fun x => UInt64.le_iff_toNat_le.2 (zero_le _)
  rw [hl, autoId_of_le hms, if_pos hseq]
  by_cases hn : ctx.nodeId = 0
  · -- node 1: its own first sequence, or the one after the last, is the same
    have hother : (1 : NodeId) ≠ 0 := by decide
    refine ⟨other 1, rfl, by rw [hn]; exact hother, ?_⟩
    rw [hlast, autoId_of_le (hzero lms)]
    split
    · rfl
    next hle =>
    rw [hgen, not_le] at hle
    rw [hn] at hne
    have hlt : ls.toNat < 2 ^ 20 := UInt64.lt_iff_toNat_lt.1 hle
    have hsum : (ls + 1).toNat = ls.toNat + 1 := by
      rw [UInt64.toNat_add]
      exact mod_eq_of_lt (by change ls.toNat + 1 < _; omega)
    have hge : 2 ^ 20 ≤ ls.toNat + 1 := by
      by_contra hsmall
      refine hne (UInt64.toNat_inj.1 ?_)
      have h20 : (20 : UInt64).toNat % 64 = 20 := by decide
      rw [UInt64.toNat_shiftRight, hsum, h20, shiftRight_eq_div_pow, div_eq_of_lt (by omega)]
      rfl
    rw [hgen]
    refine congrArg (lms, ·) (UInt64.toNat_inj.1 ?_)
    rw [hsum]
    change 2 ^ 20 = _
    omega
  · -- node 0: its sequence comes first of all
    refine ⟨other 0, rfl, fun h => hn h.symm, ?_⟩
    have hle : (other 0).genSeq ≤ ls := by
      rw [hgen]
      exact hzero ls
    rw [hlast, autoId_of_le (hzero lms), if_pos hle]

end ShardCtx

/-! ## Runs -/

/-- The ids given out so far carry the ids of their nodes. -/
def StreamSys.Carried (s : StreamSys) : Prop := ∀ g ∈ s.given, g.id.2 >>> 20 = g.node.toUInt64

theorem StreamSys.carried_step {s : StreamSys} (hs : s.Carried) (hown : s.Own op) : (s.step op).Carried := by
  cases op with
  | deliver source target wall ikey =>
    simp only [step]
    cases (s.nodes source).getRaw ikey with
    | none => exact hs
    | some value => exact hs
  | xadd n wall args =>
    simp only [step]
    cases hp : parseXadd args with
    | error r => exact hs
    | ok a =>
      rcases hx : (s.ctx n wall).xadd a with ⟨ctx', r⟩
      cases r with
      | error r =>
        simp only [hx]
        exact hs
      | ok id =>
        simp only [hx]
        by_cases hauto : a.spec = .auto
        · rw [if_pos hauto]
          intro g hg
          rcases mem_cons.1 hg with rfl | hg
          · have hid := ShardCtx.xadd_auto hauto hx
            have := ShardCtx.autoId_shiftRight (hown a hp hauto)
            rw [← hid] at this
            exact this
          · exact hs g hg
        · rw [if_neg hauto]
          exact hs

/-- In a run in which every XADD with `*` gives out a sequence of its node, no id is given out for one key by two nodes, and the
records of their entries lie under different keys. The condition cannot be weakened step by step: where it fails, another node
gives out the same id from the same records. -/
theorem auto_ids_unique (clock : NodeId → UInt64) (ops : List StreamOp) :
    ((∀ i, (hi : i < ops.length) → (StreamSys.run clock (ops.take i)).Own ops[i]) →
      ∀ g ∈ (StreamSys.run clock ops).given, ∀ g' ∈ (StreamSys.run clock ops).given, g.node ≠ g'.node →
        g.id ≠ g'.id ∧ streamEntryKey g.key g.id ≠ streamEntryKey g.key g'.id) ∧
    ∀ (ctx : ShardCtx) (key : Bytes), ¬ ctx.OwnSequence key →
      ∃ ctx' : ShardCtx, ctx'.db = ctx.db ∧ ctx'.nodeId ≠ ctx.nodeId ∧
        ctx'.autoId (ctx'.lastId key) = ctx.autoId (ctx.lastId key) := by
  constructor
  · intro hown g hg g' hg' hne
    have hcarried : (StreamSys.run clock ops).Carried :=
      Run.invariant (fun s op hs hop => StreamSys.carried_step hs hop) (fun _ h => absurd h not_mem_nil) ops hown
    have hid : g.id ≠ g'.id := by
      intro heq
      have h := hcarried g hg
      rw [heq, hcarried g' hg'] at h
      exact hne (UInt16.toUInt64_inj.1 h.symm)
    refine ⟨hid, ?_⟩
    intro hkey
    have hsuffix := elemKey_inj.1 hkey
    obtain ⟨h1, h2⟩ := append_inj hsuffix (by simp)
    refine hid (Prod.ext ?_ ?_)
    · rw [← toU64_ofU64 g.id.1, h1, toU64_ofU64]
    · rw [← toU64_ofU64 g.id.2, h2, toU64_ofU64]
  · intro ctx key h
    exact ShardCtx.exists_same_autoId h

/-- XADD with `*` to a stream of the name `s`, with one field. -/
def starArgs : List Bytes := [[88, 65, 68, 68], [115], [42], [102], [118]]

/-- A run in which node 1 learns of node 3's entry and then gives out an id at a later wall clock. -/
theorem auto_ids_of_two_nodes :
    ((1001, 1638400) : StreamId) ≠ (1000, 3670016) ∧
      streamEntryKey [115] (1001, 1638400) ≠ streamEntryKey [115] (1000, 3670016) := by
  have hgiven : (StreamSys.run (fun _ => 0) [.xadd 3 1000 starArgs, .deliver 3 1 1001 (headKey [115]),
    .xadd 1 1001 starArgs]).given =
      [⟨1, [115], (1001, 1638400)⟩, ⟨3, [115], (1000, 3670016)⟩] := rfl
  have hparse : ∀ a, parseXadd starArgs = .ok a → a.key = [115] := by
    intro a ha
    cases ha
    rfl
  refine (auto_ids_unique (fun _ => 0) [.xadd 3 1000 starArgs, .deliver 3 1 1001 (headKey [115]), .xadd 1 1001 starArgs]).1 ?_
    ⟨1, [115], (1001, 1638400)⟩ ?_ ⟨3, [115], (1000, 3670016)⟩ ?_ (by decide)
  · intro i hi
    match i, hi with
    | 0, _ =>
      intro a ha _ lms ls hlast
      rw [hparse a ha] at hlast
      exact nomatch hlast
    | 1, _ => trivial
    | 2, _ =>
      intro a ha _ lms ls hlast hms
      rw [hparse a ha] at hlast
      have hlms : lms = 1000 := by
        cases hlast
        rfl
      rw [hlms] at hms
      exact absurd hms (by decide)
  · rw [hgiven]
    exact mem_cons_self
  · rw [hgiven]
    exact mem_cons_of_mem _ mem_cons_self

/-- Node 3's entry, at a later wall clock than theirs, reaches nodes 1 and 2; each of them gives out the id after it. -/
theorem two_nodes_give_out_one_id :
    (StreamSys.run (fun _ => 0) [.xadd 3 1000 starArgs, .deliver 3 1 999 (headKey [115]), .deliver 3 2 999 (headKey [115]),
        .xadd 1 999 starArgs, .xadd 2 999 starArgs]).given =
      [⟨2, [115], (1000, 3670017)⟩, ⟨1, [115], (1000, 3670017)⟩, ⟨3, [115], (1000, 3670016)⟩] := by
  rfl

end Marekvs
