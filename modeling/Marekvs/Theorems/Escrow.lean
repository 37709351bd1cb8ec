import Marekvs.Lemmas.BudgetLedger
import Marekvs.Engine.BudgetAdmin
import Marekvs.Lib.Run

/-!
# Escrow conservation

On the node that issues tokens, through any run of grants, closes and folds within one generation of a budget: a slot that was
never given up says what its tokens say, a folded token was spent or given back to the last unit, and no slot gets a unit back
twice. A slot of an old window that was given up while one of its tokens was open comes back with a part of its ledger only.
-/

namespace Marekvs

open List Option Function PendingOps Ikey Db

open Resp (ascii)

/-! ## Runs -/

/-- A batch of expired tokens folded in a transaction of its own. -/
def foldBatch (key : Bytes) (graceMs : UInt64) (limit : Nat) : BudgetJob Unit := fun ctx =>
  match ctx.headOrErr key with
  | .error e => (.error e, ctx)
  | .ok bhead =>
    let (pending, ctx) := foldExpiredOwn key bhead.state graceMs limit .empty ctx
    let (ops, ctx) := pending.intoOps ctx
    (.ok (ops, ()), ctx)

/-- Whether the record under a key is a tombstone. -/
def Db.givenUp (db : Db) (k : Bytes) : Bool := ((db.getRaw k).bind Envelope.decode).any fun e => e.1.isTombstone

/-- The issuing node: its shard, what was drawn from each token, and the slots that were given up in some state so far. -/
structure EscrowState where
  ctx : ShardCtx
  drawn : TokenId → Nat
  given : Set Bytes

inductive EscrowAct where
  | grant (commits : Bool) (epoch : UInt64) (cfg : GrantCfg) (amount : UInt64) (ttlMs : Option UInt64) (reqid : UInt64)
  | close (commits : Bool) (tid : TokenId) (op : CloseOp)
  | fold (commits : Bool) (graceMs : UInt64) (limit : Nat)
  /-- anything that is not on this budget's slots and tokens -/
  | meanwhile (ctx : ShardCtx)

/-- What was drawn after a close: a draw that was accepted counts. -/
def drawnBy (tid : TokenId) (drawn : TokenId → Nat) : CloseOp →
    Except BudgetErr (BudgetOps × Except BudgetErr UInt64) → TokenId → Nat
  | .draw n, .ok (_, .ok _) => Function.update drawn tid (drawn tid + n.toNat)
  | _, _ => drawn

/-- What was drawn after a job that may fail. -/
def drawnAfter {α : Type} (drawn : TokenId → Nat) (f : α → TokenId → Nat) : Except BudgetErr (BudgetOps × α) → TokenId → Nat
  | .error _ => drawn
  | .ok (_, out) => f out

theorem drawnAfter_const (r : Except BudgetErr (BudgetOps × α)) : drawnAfter drawn (fun _ => drawn) r = drawn := by
  cases r <;> rfl

theorem drawnAfter_close (drawn : TokenId → Nat) (r : Except BudgetErr (BudgetOps × Except BudgetErr UInt64)) :
    drawnAfter drawn (fun out => drawnBy tid drawn op (.ok ([], out))) r = drawnBy tid drawn op r := by
  rcases r with e | ⟨ops, e | n⟩ <;> cases op <;> rfl

namespace EscrowState

def next (s : EscrowState) (ctx : ShardCtx) (drawn : TokenId → Nat) : EscrowState :=
  ⟨ctx, drawn, s.given ∪ {k | ctx.db.givenUp k}⟩

def step (key : Bytes) (s : EscrowState) : EscrowAct → EscrowState
  | .grant commits epoch cfg amount ttlMs reqid =>
    s.next (budgetJob commits (grantLocal commits epoch cfg key amount ttlMs reqid) s.ctx).2 s.drawn
  | .close commits tid op =>
    let (res, ctx) := budgetJob commits (closeLocal key tid op) s.ctx
    s.next ctx (drawnBy tid s.drawn op res)
  | .fold commits graceMs limit => s.next (budgetJob commits (foldBatch key graceMs limit) s.ctx).2 s.drawn
  | .meanwhile ctx => s.next ctx s.drawn

end EscrowState

/-- The setting of a step on the issuing node: the live head is of the generation, the clock's readings rise, a close is of one
of the node's own tokens, and what happens meanwhile leaves the budget's slots and tokens as they are. -/
structure Issuing (key : Bytes) (hs : HeadState) (s : EscrowState) (act : EscrowAct) : Prop where
  head : ∀ bhead, s.ctx.headOrErr key = .ok bhead → bhead.state.gen = hs.gen ∧ bhead.state.mode = hs.mode
  clock : s.ctx.clock ≤ (s.step key act).ctx.clock
  token : ∀ commits epoch cfg amount ttlMs reqid ops grant, act = .grant commits epoch cfg amount ttlMs reqid →
    (grantLocal commits epoch cfg key amount ttlMs reqid s.ctx).1 = .ok (ops, grant) →
    s.ctx.clock < grant.token.hlc ∧ grant.token.hlc ≤ (s.step key act).ctx.clock
  own : ∀ commits tid op, act = .close commits tid op → tid.node = s.ctx.nodeId
  others : ∀ ctx, act = .meanwhile ctx → ctx.nodeId = s.ctx.nodeId ∧
    ∀ ik, collectionPrefix .budget key <+: ik → ctx.getRaw ik = s.ctx.getRaw ik

/-- What is promised of a slot and of the tokens. -/
structure Conserved (key : Bytes) (hs : HeadState) (s : EscrowState) : Prop where
  slots : ∀ window epoch st, slotKeyFor key hs window s.ctx.nodeId epoch ∉ s.given →
    s.ctx.db.slotAt (slotKeyFor key hs window s.ctx.nodeId epoch) = some st →
    (st.granted.toNat : Int) - st.returned.toNat =
        tokenSum key hs s.ctx.nodeId (slotKeyFor key hs window s.ctx.nodeId epoch) TokenState.openAmount s.ctx.db +
          tokenSum key hs s.ctx.nodeId (slotKeyFor key hs window s.ctx.nodeId epoch) TokenState.foldedSpent s.ctx.db ∧
      st.returned.toNat =
        tokenSum key hs s.ctx.nodeId (slotKeyFor key hs window s.ctx.nodeId epoch) TokenState.foldedCredit s.ctx.db
  once : ∀ window epoch st, s.ctx.db.slotAt (slotKeyFor key hs window s.ctx.nodeId epoch) = some st →
    st.returned.toNat ≤ tokenSum key hs s.ctx.nodeId
      (slotKeyFor key hs window s.ctx.nodeId epoch) TokenState.foldedCredit s.ctx.db
  tokens : ∀ t v st, t.gen = hs.gen → t.node = s.ctx.nodeId → s.ctx.getRaw (budgetTokenKey key t) = some v →
    tokenStateOf v = some st → RANK_FOLDED ≤ st.rank →
    st.spent.toNat + st.credited.toNat = st.amount.toNat ∧ s.drawn t ≤ st.spent.toNat

/-- What is promised of one step: a slot, also one that was given up and came back, gets back no more than the tokens folded in
the step give back, and a token that was folded stays as it is, so that no token's credit is added twice. -/
structure CreditsOnce (key : Bytes) (hs : HeadState) (s s' : EscrowState) : Prop where
  slots : ∀ window epoch,
    (s'.ctx.readSlot (slotKeyFor key hs window s.ctx.nodeId epoch)).returned.toNat +
        tokenSum key hs s.ctx.nodeId (slotKeyFor key hs window s.ctx.nodeId epoch) TokenState.foldedCredit s.ctx.db ≤
      (s.ctx.readSlot (slotKeyFor key hs window s.ctx.nodeId epoch)).returned.toNat +
        tokenSum key hs s.ctx.nodeId (slotKeyFor key hs window s.ctx.nodeId epoch) TokenState.foldedCredit s'.ctx.db
  tokens : ∀ t v st, t.gen = hs.gen → t.node = s.ctx.nodeId → s.ctx.getRaw (budgetTokenKey key t) = some v →
    tokenStateOf v = some st → RANK_FOLDED ≤ st.rank → s'.ctx.getRaw (budgetTokenKey key t) = some v

section Steps

variable {key : Bytes} {hs : HeadState} {node : NodeId} {past : Past} {drawn : TokenId → Nat} {clock : UInt64} {db : Db}
  {ctx : ShardCtx} {p : PendingOps}

/-! ## Transactions -/

/-- Records that are no tokens change nothing about tokens. -/
theorem putAll_of_none (hops : ∀ op ∈ ops, tokenIdOf key op.1 = none)
    (h : TokensOk key hs node drawn clock db) : TokensOk key hs node drawn clock (db.putAll ops) ∧
      ∀ slotKey f, tokenSum key hs node slotKey f (db.putAll ops) = tokenSum key hs node slotKey f db := by
  induction ops generalizing db with
  | nil => exact ⟨h, fun _ _ => rfl⟩
  | cons op ops ih =>
    have hne : ∀ t, tokenIdOf key op.1 = some t → t.gen ≠ hs.gen := by
      intro t ht
      rw [hops op mem_cons_self] at ht
      cases ht
    obtain ⟨htok, hsum⟩ := ih (fun o ho => hops o (mem_cons_of_mem _ ho)) (h.putRaw_of_ne hne op.2)
    exact ⟨htok, fun slotKey f => (hsum slotKey f).trans (tokenSum_putRaw_of_ne hne op.2 slotKey f)⟩

/-- A slot that was given up before a transaction or by it is not kept; the others are as they were collected. -/
theorem Overlay.commit (ho : Overlay key hs node past drawn clock ctx p) :
    Overlay key hs node ⟨past.given ∪ {k | ((p.intoOps ctx).2.commitOps (p.intoOps ctx).1).db.givenUp k}, past.db⟩ drawn clock
      ((p.intoOps ctx).2.commitOps (p.intoOps ctx).1) .empty := by
  obtain ⟨hkeys, ⟨hctx, -⟩, hops⟩ := fst_slotOps p.slots ctx
  have hdb : ((p.intoOps ctx).2.commitOps (p.intoOps ctx).1).db = (ctx.db.putAll p.other).putAll (slotOps p.slots ctx).1 := by
    rw [ShardCtx.commitOps_eq, ← putAll_append]
    show (slotOps p.slots ctx).2.db.putAll _ = _
    rw [hctx]
    rfl
  generalize (p.intoOps ctx).2.commitOps (p.intoOps ctx).1 = ctx' at hdb
  have hnone : ∀ op ∈ (slotOps p.slots ctx).1, tokenIdOf key op.1 = none :=
    fun op hop => ho.slots op.1 (hkeys ▸ mem_map_of_mem hop)
  obtain ⟨htok, hsum⟩ := putAll_of_none hnone ho.tokens
  refine ⟨by rw [hdb]; exact htok, fun ik w hw hfold => ?_, fun window epoch => ?_, forall_mem_nil _, forall_mem_nil _, nodup_nil⟩
  · show ctx'.db.getRaw ik = some w
    rw [hdb]
    rcases getRaw_putAll (ctx.db.putAll p.other) (slotOps p.slots ctx).1 ik with ⟨-, hraw⟩ | ⟨v, hv, -⟩
    · exact hraw.trans (ho.settled ik w hw hfold)
    · obtain ⟨t, -, ht, -⟩ := hfold
      cases ht.symm.trans (hnone _ hv)
  have hag := ho.agrees window epoch
  have hslot := tokenIdOf_slotKeyFor key hs window node epoch
  generalize slotKeyFor key hs window node epoch = k at hag hslot
  have hview : empty.slot ctx' k = p.slot ctx k ∨ ctx'.db.givenUp k ∧ empty.slot ctx' k = .empty := by
    show ctx'.readSlot k = (p.slots.lookup k).getD (ctx.readSlot k) ∨ _ ∧ ctx'.readSlot k = _
    rw [ShardCtx.readSlot_eq, ShardCtx.readSlot_eq, hdb]
    rcases getRaw_putAll (ctx.db.putAll p.other) (slotOps p.slots ctx).1 k with ⟨hnot, hraw⟩ | ⟨v, hv, hraw⟩
    · have hlook : p.slots.lookup k = none := by
        rw [hkeys] at hnot
        refine lookup_eq_none_iff.2 fun e he => ?_
        rw [bne_iff_ne]
        rintro rfl
        exact hnot (mem_map_of_mem he)
      rcases getRaw_putAll ctx.db p.other k with ⟨-, hraw'⟩ | ⟨v, hv, hraw'⟩
      · left
        simp only [hlook, getD_none, Db.slotAt, hraw, hraw']
      · obtain ⟨version, hver⟩ := ho.buried _ hv hslot
        dsimp only at hver
        right
        simp [givenUp, Db.slotAt, hraw, hraw', hver, encodeSlotRecord]
    · obtain ⟨version, st, hmem, hrec⟩ := hops _ hv
      have hlook : p.slots.lookup k = some st := (Ordered.lookup_eq_some_of_nodup ho.nodup).2 hmem
      left
      rw [hlook, getD_some, slotAt_encode hraw hrec]
      rfl
  have hsums : ∀ f, tokenSum key hs node k f (ctx'.db.putAll empty.other) = tokenSum key hs node k f (ctx.db.putAll p.other) := by
    intro f
    show tokenSum key hs node k f ctx'.db = _
    rw [hdb, hsum]
  rcases hview with hview | ⟨hgone, hview⟩
  · rw [hview]
    exact hag.of_sums Set.subset_union_left rfl hsums
  · -- it starts again at nothing
    have hnot : ∀ {P : Prop}, k ∉ past.given ∪ {k | ctx'.db.givenUp k} → P := fun hk => absurd (.inr hgone) hk
    have hcredits := hag.credits
    have hzero : SlotState.empty.returned.toNat = 0 := rfl
    rw [hview]
    exact ⟨hnot, hnot, by rw [hsums]; dsimp only; omega⟩

end Steps

/-- The invariant of the issuing node between transactions, since some store of before. -/
structure Ledger (key : Bytes) (hs : HeadState) (node : NodeId) (old : Db) (s : EscrowState) : Prop where
  overlay : Overlay key hs node ⟨s.given, old⟩ s.drawn s.ctx.clock s.ctx .empty
  fresh : ∀ t, s.ctx.clock < t.hlc → s.drawn t = 0
  node : s.ctx.nodeId = node

/-- What a job leaves behind: what it wants written is in step with what was drawn then, and where it fails the shard is as it
was, or is in step. -/
def HandsOver (key : Bytes) (hs : HeadState) (node : NodeId) (old : Db) (s : EscrowState) (clock : UInt64) {α : Type}
    (drawn : α → TokenId → Nat) (r : Except BudgetErr (BudgetOps × α) × ShardCtx) : Prop :=
  r.2.nodeId = node ∧
    match r.1 with
    | .error _ => Overlay key hs node ⟨s.given ∪ {k | r.2.db.givenUp k}, old⟩ s.drawn clock r.2 .empty
    | .ok (ops, out) => (∀ t, clock < t.hlc → drawn out t = 0) ∧
        ∃ p ctx, Overlay key hs node ⟨s.given, old⟩ (drawn out) clock ctx p ∧ ctx.db = s.ctx.db ∧ p.intoOps ctx = (ops, r.2)

section Jobs

variable {key : Bytes} {hs : HeadState} {node : NodeId} {old : Db} {s : EscrowState} {clock : UInt64} {α : Type} {drawn : α →
  TokenId → Nat}
  (h : Ledger key hs node old s) (hclock : s.ctx.clock ≤ clock)
include h hclock

theorem Ledger.overlay_of_db (hdb : ctx.db = s.ctx.db) :
    Overlay key hs node ⟨s.given ∪ {k | ctx.db.givenUp k}, old⟩ s.drawn clock ctx .empty :=
  (h.overlay.congr hdb).mono Set.subset_union_left hclock

theorem Ledger.fails (hdb : ctx.db = s.ctx.db) (hnode : ctx.nodeId = s.ctx.nodeId) (e : BudgetErr) :
    HandsOver key hs node old s clock drawn (.error e, ctx) := ⟨hnode.trans h.node, h.overlay_of_db hclock hdb⟩

/-- A job's transaction, whether it is committed or not. -/
theorem Ledger.budgetJob (hjob : HandsOver key hs node old s clock drawn (job s.ctx)) (commits : Bool)
    (hr : r = Marekvs.budgetJob commits job s.ctx) (hc : r.2.clock = clock) :
    Ledger key hs node old (s.next r.2 (drawnAfter s.drawn drawn r.1)) := by
  have hfresh : ∀ t, clock < t.hlc → s.drawn t = 0 := fun t ht => h.fresh t (lt_of_le_of_lt hclock ht)
  unfold Marekvs.budgetJob at hr
  generalize job s.ctx = res at hjob hr
  obtain ⟨e | ⟨ops, out⟩, ctx'⟩ := res
  · subst hr hc
    exact ⟨hjob.2, hfresh, hjob.1⟩
  obtain ⟨hnode, hout, p, ctx, ho, hdb, hops⟩ := hjob
  obtain ⟨-, ⟨hdb', -⟩, -⟩ := fst_slotOps p.slots ctx
  have hctx' : ctx' = (p.intoOps ctx).2 := (congrArg Prod.snd hops).symm
  dsimp only at hr
  split at hr
  · subst hr hc
    refine ⟨h.overlay_of_db hclock ?_, hfresh, hnode⟩
    rw [hctx']
    exact hdb'.trans hdb
  · subst hr hc
    have hcommit := ho.commit
    rw [hops] at hcommit
    refine ⟨hcommit, hout, ?_⟩
    show (ctx'.commitOps ops).nodeId = node
    rw [ShardCtx.commitOps_eq]
    exact hnode

variable (hk : key.length < 2 ^ 64)
  (hhead : ∀ bhead, s.ctx.headOrErr key = .ok bhead → bhead.state.gen = hs.gen ∧ bhead.state.mode = hs.mode)
include hk hhead

theorem Ledger.foldBatch (graceMs : UInt64) (limit : Nat) :
    HandsOver key hs node old s clock (fun _ => s.drawn) (Marekvs.foldBatch key graceMs limit s.ctx) := by
  unfold Marekvs.foldBatch
  cases hh : s.ctx.headOrErr key with
  | error e => exact h.fails hclock rfl rfl e
  | ok bhead =>
    obtain ⟨hgen, hmode⟩ := hhead bhead hh
    obtain ⟨ho, hdb, hnode⟩ := (h.overlay.of_head hgen hmode).foldExpiredOwn hk h.node graceMs limit rfl
    dsimp only
    generalize foldExpiredOwn key bhead.state graceMs limit .empty s.ctx = r at ho hdb hnode
    obtain ⟨p, ctx⟩ := r
    obtain ⟨-, ⟨-, hnode'⟩, -⟩ := fst_slotOps p.slots ctx
    exact ⟨hnode'.trans (hnode.trans h.node), fun t ht => h.fresh t (lt_of_le_of_lt hclock ht), p, ctx,
      (ho.of_head hgen.symm hmode.symm).mono subset_rfl hclock, hdb, rfl⟩

theorem Ledger.grantLocal (commits : Bool) (epoch : UInt64) (cfg : GrantCfg) (amount : UInt64) (ttlMs : Option UInt64)
    (reqid : UInt64)
    (htoken : ∀ ops grant, (Marekvs.grantLocal commits epoch cfg key amount ttlMs reqid s.ctx).1 = .ok (ops, grant) →
      s.ctx.clock < grant.token.hlc ∧ grant.token.hlc ≤ clock) :
    HandsOver key hs node old s clock (fun _ => s.drawn) (Marekvs.grantLocal commits epoch cfg key amount ttlMs reqid s.ctx) := by
  revert htoken
  unfold Marekvs.grantLocal
  cases hh : s.ctx.headOrErr key with
  | error e => exact fun _ => h.fails hclock rfl rfl e
  | ok bhead =>
    obtain ⟨hgen, hmode⟩ := hhead bhead hh
    dsimp only
    cases hrefuses : bhead.state.refuses cfg s.ctx.nodeId amount ttlMs with
    | some e => exact fun _ => h.fails hclock rfl rfl e
    | none =>
      obtain ⟨ho, hdb, hnode⟩ := (h.overlay.of_head hgen hmode).foldExpiredOwn hk h.node cfg.graceMs FOLD_BATCH rfl
      dsimp only
      generalize foldExpiredOwn key bhead.state cfg.graceMs FOLD_BATCH .empty s.ctx = r at ho hdb hnode
      obtain ⟨p, ctx⟩ := r
      have hwin : (ctx.currentWindow bhead.state).2.db = ctx.db ∧ (ctx.currentWindow bhead.state).2.nodeId = ctx.nodeId := by
        unfold ShardCtx.currentWindow
        split <;> exact ⟨rfl, rfl⟩
      dsimp only at ho hdb hnode ⊢
      generalize ctx.currentWindow bhead.state = w at hwin
      obtain ⟨window, ctx₁⟩ := w
      dsimp only at hwin ⊢
      obtain ⟨ho₂, hdb₂, hnode₂⟩ := (ho.congr hwin.1).gcOldWindows (bhead.state.maxTtlFor cfg) cfg.graceMs window FOLD_BATCH rfl
      generalize gcOldWindows key bhead.state (bhead.state.maxTtlFor cfg) cfg.graceMs window FOLD_BATCH p ctx₁ =
        g at ho₂ hdb₂ hnode₂
      obtain ⟨p₂, ctx₂⟩ := g
      dsimp only at ho₂ hdb₂ hnode₂ ⊢
      have hdb' : ctx₂.db = s.ctx.db := hdb₂.trans (hwin.1.trans hdb)
      have hnode' : ctx₂.nodeId = node := (hnode₂.trans (hwin.2.trans hnode)).trans h.node
      split
      · intro _
        split
        · exact h.fails hclock hdb' (hnode'.trans h.node.symm) _
        obtain ⟨-, ⟨hdb₃, hnode₃⟩, -⟩ := fst_slotOps p₂.slots ctx₂
        cases commits with
        | false => exact h.fails hclock (hdb₃.trans hdb') (hnode₃.trans (hnode'.trans h.node.symm)) _
        | true =>
          refine ⟨?_, ((ho₂.of_head hgen.symm hmode.symm).mono subset_rfl hclock).commit⟩
          show ((p₂.intoOps ctx₂).2.commitOps (p₂.intoOps ctx₂).1).nodeId = node
          rw [ShardCtx.commitOps_eq]
          exact hnode₃.trans hnode'
      · unfold writeGrant
        dsimp only
        cases hadd : (p₂.slot ctx₂ (slotKeyFor key bhead.state window ctx₂.nodeId epoch)).granted.checkedAdd amount with
        | none => exact fun _ => h.fails hclock hdb' (hnode'.trans h.node.symm) _
        | some granted =>
          intro htoken
          obtain ⟨hlow, hhigh⟩ := htoken _ _ rfl
          dsimp only at hlow hhigh
          let st : TokenState := ⟨RANK_OPEN, STATE_OPEN, amount, 0, 0, ctx₂.nowMs + bhead.state.ttlFor cfg ttlMs, window, reqid⟩
          have hst : st.rank = RANK_OPEN ∧ st.spent = 0 := ⟨rfl, rfl⟩
          have hgrant := ho₂.grant hk (t := ⟨bhead.state.gen, ctx₂.hlcNow, ctx₂.nodeId, epoch⟩) rfl hnode' hclock hlow hhigh
            (h.fresh _ hlow) hst hadd ⟨ctx₂.hlcNow, ctx₂.nodeId⟩
          refine ⟨?_, fun t ht => h.fresh t (lt_of_le_of_lt hclock ht), _, ctx₂.tick,
            (hgrant.of_head hgen.symm hmode.symm).congr rfl, hdb', rfl⟩
          exact (fst_slotOps _ ctx₂.tick).2.1.2.trans hnode'

omit hhead in
/-- Closing an open token as spent to some extent, which is no less than what was drawn. -/
theorem Ledger.closeToken (hgen : hs'.gen = hs.gen) (hmode : hs'.mode = hs.mode) (htid : tid.gen = hs.gen)
    (hnode : tid.node = node)
    (hraw : s.ctx.getRaw (budgetTokenKey key tid) = some w) (hst : tokenStateOf w = some st) (hrank : st.rank < RANK_FOLDED)
    (state : UInt8) (hspent : st.spent ≤ spent) (hdrawn : drawn out = s.drawn) :
    HandsOver key hs node old s clock drawn (.ok ((Marekvs.closeToken key hs' tid st state spent s.ctx).2.1, out),
      (Marekvs.closeToken key hs' tid st state spent s.ctx).2.2) := by
  have hfold := (h.overlay.of_head hgen hmode).fold hk (htid.trans hgen.symm) hnode hraw hst hrank state hspent
  have ho : Overlay key hs node ⟨s.given, old⟩ s.drawn clock s.ctx.tick _ :=
    ((hfold.of_head hgen.symm hmode.symm).mono subset_rfl hclock).congr rfl
  rw [← hdrawn] at ho
  refine ⟨?_, fun t ht => ?_, _, _, ho, rfl, rfl⟩
  · obtain ⟨-, ⟨-, hid⟩, -⟩ := fst_slotOps
      (foldToken key hs' (budgetTokenKey key tid) tid.node tid.epoch st state spent .empty s.ctx).2.1.slots s.ctx.tick
    exact hid.trans h.node
  · rw [hdrawn]
    exact h.fresh t (lt_of_le_of_lt hclock ht)

theorem Ledger.closeLocal (hnode : tid.node = node) (op : CloseOp) :
    HandsOver key hs node old s clock (fun out => drawnBy tid s.drawn op (.ok ([], out)))
      (Marekvs.closeLocal key tid op s.ctx) := by
  have hkeep : ∀ e, drawnBy tid s.drawn op (.ok ([], .error e)) = s.drawn := by
    intro e
    cases op <;> rfl
  unfold Marekvs.closeLocal
  split
  · exact h.fails hclock rfl rfl _
  rename_i bhead hh
  obtain ⟨hgen, hmode⟩ := hhead bhead hh
  split
  · exact h.fails hclock rfl rfl _
  rename_i htid
  have htid' : tid.gen = hs.gen := (not_not.1 htid).symm.trans hgen
  split
  · exact h.fails hclock rfl rfl _
  rename_i d hd
  obtain ⟨w, hraw, hw⟩ := bind_eq_some_iff.1 hd
  split
  · exact h.fails hclock rfl rfl _
  rename_i st hst
  have hst' : tokenStateOf w = some st := by simp [tokenStateOf, hw, hst]
  split
  · exact h.fails hclock rfl rfl _
  rename_i hrank
  have hrank' := not_le.1 hrank
  split
  · exact h.closeToken hclock hk hgen hmode htid' hnode hraw hst' hrank' STATE_EXPIRED le_rfl (hkeep _)
  cases op with
  | release => exact h.closeToken hclock hk hgen hmode htid' hnode hraw hst' hrank' STATE_RELEASED le_rfl rfl
  | commit explicit =>
    unfold closeOpen
    dsimp only
    split
    · exact h.fails hclock rfl rfl _
    split
    · exact h.fails hclock rfl rfl _
    rename_i hlow
    exact h.closeToken hclock hk hgen hmode htid' hnode hraw hst' hrank' STATE_COMMITTED (not_lt.1 hlow) rfl
  | draw n =>
    unfold closeOpen
    dsimp only
    split
    · exact h.fails hclock rfl rfl _
    split
    · exact h.fails hclock rfl rfl _
    rename_i spent hadd
    split
    · exact h.fails hclock rfl rfl _
    rename_i hle
    obtain ⟨hhlc, hok⟩ := h.overlay.token hk htid' hnode hraw hst'
    obtain ⟨-, hspent, -⟩ := hok.open_of_lt hrank'
    have hself : spent.toNat = update s.drawn tid (s.drawn tid + n.toNat) tid := by
      rw [update_self, ← hspent, UInt64.toNat_checkedAdd hadd]
    have hdraw := h.overlay.draw hk htid' hnode hraw hst' hrank' (not_lt.1 hle)
      (fun t' hne => update_of_ne hne _ _) hself ⟨s.ctx.hlcNow, s.ctx.nodeId⟩
    refine ⟨h.node, fun t ht => ?_, _, s.ctx.tick, (hdraw.mono subset_rfl hclock).congr rfl, rfl, rfl⟩
    have hne : t ≠ tid := by
      rintro rfl
      exact absurd (lt_of_le_of_lt hclock ht) (not_lt.2 hhlc)
    exact (update_of_ne hne _ _).trans (h.fresh t (lt_of_le_of_lt hclock ht))

end Jobs

/-! ## Runs of the issuing node -/

section Runs

variable {key : Bytes} {hs : HeadState} {node : NodeId} {old : Db} {s : EscrowState}

/-- What happens beside the budget's slots and tokens. -/
theorem Ledger.meanwhile (h : Ledger key hs node old s) (hclock : s.ctx.clock ≤ ctx.clock) (hnode : ctx.nodeId = s.ctx.nodeId)
    (hsame : ∀ ik, collectionPrefix .budget key <+: ik → ctx.getRaw ik = s.ctx.getRaw ik) :
    Ledger key hs node old (s.next ctx s.drawn) := by
  have hcount : ∀ ik, (collectionPrefix .budget key).isPrefixOf ik = false → tokenIdOf key ik = none := by
    intro ik hik
    rw [tokenIdOf, if_neg]
    intro hpre
    rw [elemKey_eq_append, isPrefixOf_iff_prefix] at hpre
    rw [Bool.eq_false_iff, Ne, isPrefixOf_iff_prefix] at hik
    exact hik ((prefix_append _ _).trans hpre)
  have hsum : ∀ slotKey f, tokenSum key hs node slotKey f ctx.db = tokenSum key hs node slotKey f s.ctx.db := by
    intro slotKey f
    refine total_congr (fun ik hik v => ?_) fun ik hik => hsame ik <| isPrefixOf_iff_prefix.1 hik
    simp [tokenShare, hcount ik hik]
  have hslot : ∀ window epoch, empty.slot ctx (slotKeyFor key hs window node epoch) =
      empty.slot s.ctx (slotKeyFor key hs window node epoch) := by
    intro window epoch
    have hpre : collectionPrefix .budget key <+: slotKeyFor key hs window node epoch := by
      unfold slotKeyFor budgetWindowSlotKey budgetSlotKey
      split <;> (rw [elemKey_eq_append]; exact prefix_append _ _)
    show ctx.readSlot _ = s.ctx.readSlot _
    have hraw : ctx.db.getRaw (slotKeyFor key hs window node epoch) = s.ctx.db.getRaw _ := hsame _ hpre
    rw [ShardCtx.readSlot_eq, ShardCtx.readSlot_eq, Db.slotAt, Db.slotAt, hraw]
  have hin : ∀ {ik t}, tokenIdOf key ik = some t → ctx.getRaw ik = s.ctx.getRaw ik := by
    intro ik t ht
    by_cases hpre : collectionPrefix .budget key <+: ik
    · exact hsame ik hpre
    · rw [← isPrefixOf_iff_prefix, Bool.not_eq_true] at hpre
      rw [hcount ik hpre] at ht
      cases ht
  refine ⟨⟨fun ik v t hraw ht hgen hown => ?_, fun ik w hw hfold => ?_, fun window epoch => ?_, forall_mem_nil _,
    forall_mem_nil _,
    nodup_nil⟩, fun t ht => ?_, hnode.trans h.node⟩
  · obtain ⟨hik, hle, hst⟩ := h.overlay.tokens ik v t ((hin ht).symm.trans hraw) ht hgen hown
    exact ⟨hik, hle.trans hclock, hst⟩
  · obtain ⟨t, st, ht, hst⟩ := hfold
    exact (hin ht).trans (h.overlay.settled ik w hw ⟨t, st, ht, hst⟩)
  · have hag := h.overlay.agrees window epoch
    rw [← hslot] at hag
    exact hag.of_sums Set.subset_union_left rfl (hsum _)
  · exact h.fresh t (lt_of_le_of_lt hclock ht)

theorem Ledger.step (h : Ledger key hs node old s) (hk : key.length < 2 ^ 64) (hi : Issuing key hs s act) :
    Ledger key hs node old (s.step key act) := by
  cases act with
  | grant commits epoch cfg amount ttlMs reqid =>
    have hjob := h.grantLocal hi.clock hk hi.head commits epoch cfg amount ttlMs reqid fun ops grant hg =>
      hi.token _ _ _ _ _ _ ops grant rfl hg
    have hnext := h.budgetJob hi.clock hjob commits rfl rfl
    rw [drawnAfter_const] at hnext
    exact hnext
  | fold commits graceMs limit =>
    have hnext := h.budgetJob hi.clock (h.foldBatch hi.clock hk hi.head graceMs limit) commits rfl rfl
    rw [drawnAfter_const] at hnext
    exact hnext
  | close commits tid op =>
    have hown : tid.node = node := (hi.own commits tid op rfl).trans h.node
    have hnext := h.budgetJob hi.clock (h.closeLocal hi.clock hk hi.head hown op) commits rfl rfl
    rw [drawnAfter_close] at hnext
    exact hnext
  | meanwhile ctx =>
    obtain ⟨hnode, hsame⟩ := hi.others ctx rfl
    exact h.meanwhile hi.clock hnode hsame

theorem Ledger.conserved (h : Ledger key hs node ∅ s) (hk : key.length < 2 ^ 64) : Conserved key hs s := by
  obtain ⟨ho, -, rfl⟩ := h
  have hagrees : ∀ window epoch st, s.ctx.db.slotAt (slotKeyFor key hs window s.ctx.nodeId epoch) = some st →
      Agrees key hs s.ctx.nodeId ⟨s.given, ∅⟩ s.ctx.db (slotKeyFor key hs window s.ctx.nodeId epoch) st := by
    intro window epoch st hst
    have hslot : empty.slot s.ctx (slotKeyFor key hs window s.ctx.nodeId epoch) = st := by
      show s.ctx.readSlot _ = st
      rw [ShardCtx.readSlot_eq, hst, getD_some]
    rw [← hslot]
    exact ho.agrees window epoch
  refine ⟨fun window epoch st hgiven hst => ?_, fun window epoch st hst => ?_, fun t v st hgen hnode hraw hst hrank => ?_⟩
  · obtain ⟨hg, hr, -⟩ := hagrees window epoch st hst
    have hsplit := ho.tokens.tokenSum_split (slotKeyFor key hs window s.ctx.nodeId epoch)
    have hdb : s.ctx.db.putAll empty.other = s.ctx.db := rfl
    rw [hdb] at hsplit
    have hgranted := hg hgiven
    have hreturned := hr hgiven
    exact ⟨by omega, hreturned⟩
  · exact (Nat.le_add_right _ _).trans ((hagrees window epoch st hst).credits.trans_eq (Nat.zero_add _))
  · obtain ⟨-, -, st', hst', hok⟩ := ho.tokens _ _ t hraw (tokenIdOf_budgetTokenKey hk t) hgen hnode
    cases hst.symm.trans hst'
    rcases hok with ⟨hopen, -⟩ | ⟨-, hle, hsum⟩
    · rw [hopen] at hrank
      exact absurd hrank (by decide)
    · exact ⟨hsum, hle⟩

/-- The present store is one to count from. -/
theorem Ledger.renew (h : Ledger key hs node old s) : Ledger key hs node s.ctx.db s := by
  refine ⟨⟨h.overlay.tokens, fun _ _ hw _ => hw, fun window epoch => ?_, forall_mem_nil _, forall_mem_nil _, nodup_nil⟩,
    h.fresh, h.node⟩
  obtain ⟨hg, hr, -⟩ := h.overlay.agrees window epoch
  refine ⟨hg, hr, ?_⟩
  show (s.ctx.readSlot _).returned.toNat + _ ≤ _
  rw [ShardCtx.readSlot_eq]
  exact le_rfl

theorem Ledger.creditsOnce (h : Ledger key hs node old s) (hk : key.length < 2 ^ 64) (hi : Issuing key hs s act) :
    CreditsOnce key hs s (s.step key act) := by
  have hnode := h.node
  have hnext := (h.renew.step hk hi).overlay
  subst hnode
  refine ⟨fun window epoch => ?_, fun t v st hgen hnode hraw hst hrank => ?_⟩
  · rw [s.ctx.readSlot_eq]
    exact (hnext.agrees window epoch).credits
  · exact hnext.settled _ v hraw ⟨t, st, tokenIdOf_budgetTokenKey hk t, hgen, hnode, hst, hrank⟩

end Runs

/-- A generation before its first grant on the node. -/
structure NewGeneration (key : Bytes) (hs : HeadState) (s : EscrowState) : Prop where
  tokens : ∀ ik v t, s.ctx.getRaw ik = some v → tokenIdOf key ik = some t → t.gen = hs.gen → t.node ≠ s.ctx.nodeId
  slots : ∀ window epoch, s.ctx.getRaw (slotKeyFor key hs window s.ctx.nodeId epoch) = none
  drawn : ∀ t, s.drawn t = 0

theorem NewGeneration.ledger (h : NewGeneration key hs s) : Ledger key hs s.ctx.nodeId ∅ s := by
  have hzero : ∀ slotKey f, tokenSum key hs s.ctx.nodeId slotKey f s.ctx.db = 0 := by
    intro slotKey f
    unfold tokenSum total
    refine sum_eq_zero fun n hn => ?_
    obtain ⟨e, he, rfl⟩ := mem_map.1 hn
    unfold tokenShare
    split
    · rename_i t st ht hst
      rw [if_neg fun hown => h.tokens e.1 e.2 t (mem_toList.1 he) ht hown.1 hown.2.1]
    · rfl
  refine ⟨⟨fun ik v t hraw ht hgen hnode => absurd hnode (h.tokens ik v t hraw ht hgen), fun ik w hw => ?_,
    fun window epoch => ?_,
    forall_mem_nil _, forall_mem_nil _, nodup_nil⟩, fun t _ => h.drawn t, rfl⟩
  · cases hw
  have hslot : empty.slot s.ctx (slotKeyFor key hs window s.ctx.nodeId epoch) = .empty := by
    have hraw : s.ctx.db.getRaw (slotKeyFor key hs window s.ctx.nodeId epoch) = none := h.slots window epoch
    show s.ctx.readSlot _ = .empty
    rw [ShardCtx.readSlot_eq, Db.slotAt, hraw]
    rfl
  rw [hslot]
  exact ⟨fun _ => (hzero _ _).symm, fun _ => (hzero _ _).symm, Nat.zero_le _⟩

/-- Escrow conservation: within a generation, after every transaction of the issuing node, what a slot that was never given up
has out is what its open tokens hold and its folded ones spent, and what it got back is what its folded tokens gave back. No
step adds the credit of a token to any slot a second time. -/
theorem escrow_is_conserved {key : Bytes} {hs : HeadState} {s : EscrowState} {acts : List EscrowAct} (hk : key.length < 2 ^ 64)
    (hnew : NewGeneration key hs s) (hrun : Run.Always (EscrowState.step key) (Issuing key hs) s acts) :
    Conserved key hs (acts.foldl (EscrowState.step key) s) ∧
      ∀ act, Issuing key hs (acts.foldl (EscrowState.step key) s) act →
        CreditsOnce key hs (acts.foldl (EscrowState.step key) s) ((acts.foldl (EscrowState.step key) s).step key act) := by
  have hledger := hrun.invariant (fun _ _ h hi => h.step hk hi) hnew.ledger
  exact ⟨hledger.conserved hk, fun act hi => hledger.creditsOnce hk hi⟩

/-! ## A ledger that comes back in part -/

section Example

variable {key : Bytes} {hs : HeadState} {s : EscrowState}
  (hhead : (s.ctx.headOrErr key).toOption.map (fun b => (b.state.gen, b.state.mode)) = some (hs.gen, hs.mode))
include hhead

theorem issuing_head (b : BudgetHead) (hb : s.ctx.headOrErr key = .ok b) : b.state.gen = hs.gen ∧ b.state.mode = hs.mode := by
  rw [hb] at hhead
  exact Prod.mk.inj (some.inj hhead)

theorem issuing_grant
    (hclock : s.ctx.clock ≤ (s.step key (.grant commits epoch cfg amount ttlMs reqid)).ctx.clock)
    (hgrant : (grantLocal commits epoch cfg key amount ttlMs reqid s.ctx).1.toOption.map (fun r => r.2.token.hlc) = some n)
    (hn : s.ctx.clock < n ∧ n ≤ (s.step key (.grant commits epoch cfg amount ttlMs reqid)).ctx.clock) :
    Issuing key hs s (.grant commits epoch cfg amount ttlMs reqid) := by
  refine ⟨issuing_head hhead, hclock, fun _ _ _ _ _ _ ops grant hact hok => ?_, nofun, nofun⟩
  cases hact
  rw [hok] at hgrant
  cases hgrant
  exact hn

theorem issuing_close
    (hclock : s.ctx.clock ≤ (s.step key (.close commits tid op)).ctx.clock) (hown : tid.node = s.ctx.nodeId) :
    Issuing key hs s (.close commits tid op) := by
  refine ⟨issuing_head hhead, hclock, nofun, fun _ _ _ hact => ?_, nofun⟩
  cases hact
  exact hown

theorem issuing_clock (hclock : s.ctx.clock ≤ clock) : Issuing key hs s (.meanwhile { s.ctx with clock := clock }) := by
  refine ⟨issuing_head hhead, hclock, nofun, nofun, fun ctx hact => ?_⟩
  cases hact
  exact ⟨rfl, fun _ _ => rfl⟩

end Example

/-- A budget of windows of a second, created on node 1. -/
def windowBudget : EscrowState :=
  ⟨(bgCreate [] ⟨true, true⟩ [ascii "BG.CREATE", [98], ascii "10", ascii "MODE", ascii "WINDOW", ascii "1000"]
    (ShardCtx.mk ∅ ∅ 1 0 5)).2, fun _ => 0, ∅⟩

def windowHead : HeadState := ⟨0, 327680, MODE_WINDOW, 1000, 10, 0, 0, 0, [], []⟩

def windowGrant : EscrowAct := .grant true 1 ⟨1000, 1000, 0⟩ 5 (some 1000) 0

/-- The token of the first grant, committed with two spent. -/
def windowCommit : EscrowAct := .close true ⟨327680, 327682, 1, 1⟩ (.commit (some 2))

/-- The clock of a peer that is within the drift is observed after the first grant. -/
def windowAhead : EscrowAct := .meanwhile { (windowBudget.step [98] windowGrant).ctx with clock := 327680000 }

theorem windowBudget_isNew : NewGeneration [98] windowHead windowBudget := by
  have hone : windowBudget.ctx.db.toList.map Prod.fst = [headKey [98]] := by rfl
  have honly : ∀ ik v, windowBudget.ctx.getRaw ik = some v → ik = headKey [98] := by
    intro ik v hraw
    exact mem_singleton.1 (hone ▸ mem_map_of_mem (Db.mem_toList.2 hraw))
  refine ⟨fun ik v t hraw ht => ?_, fun window epoch => ?_, fun _ => rfl⟩
  · have hnone : tokenIdOf [98] (headKey [98]) = none := by rfl
    rw [honly ik v hraw, hnone] at ht
    cases ht
  · cases hraw : windowBudget.ctx.getRaw (slotKeyFor [98] windowHead window windowBudget.ctx.nodeId epoch) with
    | none => rfl
    | some v => exact absurd (honly _ _ hraw) (elemKey_ne (by decide) _ _ _ _)

set_option maxRecDepth 4000 in
/-- The slot of the first window is given up while its token is open, and comes back with what the token gave back and nothing
of what was granted. -/
theorem buried_slot_comes_back_in_part :
    NewGeneration [98] windowHead windowBudget ∧
      Run.Always (EscrowState.step [98]) (Issuing [98] windowHead) windowBudget [windowGrant, windowAhead, windowGrant,
      windowCommit] ∧
      ∃ db st, db = ([windowGrant, windowAhead, windowGrant, windowCommit].foldl (EscrowState.step [98]) windowBudget).ctx.db ∧
        db.slotAt (slotKeyFor [98] windowHead 0 1 1) = some st ∧
        (st.granted.toNat : Int) - st.returned.toNat ≠
          tokenSum [98] windowHead 1 (slotKeyFor [98] windowHead 0 1 1) TokenState.openAmount db +
            tokenSum [98] windowHead 1 (slotKeyFor [98] windowHead 0 1 1) TokenState.foldedSpent db := by
  refine ⟨windowBudget_isNew, ⟨?_, ?_, ?_, ?_, trivial⟩, _, ⟨0, 3⟩, rfl, by rfl, ?_⟩
  · exact issuing_grant (by rfl) (n := 327682) (by decide) (by rfl) (by decide)
  · exact issuing_clock (by rfl) (by decide)
  · exact issuing_grant (by rfl) (n := 327680003) (by decide) (by rfl) (by decide)
  · exact issuing_close (by rfl) (by decide) (by decide)
  have hgranted : (0 : UInt64).toNat = 0 := rfl
  have hreturned : (3 : UInt64).toNat = 3 := rfl
  dsimp only
  omega

/-- A grant and its commit. -/
theorem escrow_is_conserved_one_token :
    NewGeneration [98] windowHead windowBudget ∧
      Run.Always (EscrowState.step [98]) (Issuing [98] windowHead) windowBudget [windowGrant, windowCommit] ∧
      Conserved [98] windowHead ([windowGrant, windowCommit].foldl (EscrowState.step [98]) windowBudget) ∧
      CreditsOnce [98] windowHead (windowBudget.step [98] windowGrant)
        ((windowBudget.step [98] windowGrant).step [98] windowCommit) := by
  have hgrant : Issuing [98] windowHead windowBudget windowGrant :=
    issuing_grant (by rfl) (n := 327682) (by decide) (by rfl) (by decide)
  have hcommit : Issuing [98] windowHead (windowBudget.step [98] windowGrant) windowCommit :=
    issuing_close (by rfl) (by decide) (by decide)
  have hone : Run.Always (EscrowState.step [98]) (Issuing [98] windowHead) windowBudget [windowGrant] := ⟨hgrant, trivial⟩
  have hrun : Run.Always (EscrowState.step [98]) (Issuing [98] windowHead) windowBudget [windowGrant, windowCommit] :=
    ⟨hgrant, hcommit, trivial⟩
  exact ⟨windowBudget_isNew, hrun, (escrow_is_conserved (by decide) windowBudget_isNew hrun).1,
    (escrow_is_conserved (by decide) windowBudget_isNew hone).2 windowCommit hcommit⟩

end Marekvs
