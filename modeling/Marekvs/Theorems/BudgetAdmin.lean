import Marekvs.Lemmas.BudgetAlloc
import Marekvs.Lemmas.ShardFrame

/-!
# The allocations of a budget

However often a budget is created, topped up and reclaimed, its head splits the capacity exactly: the nodes are distinct and in
order, and what they have adds up to it. A command whose sequence number was used up changes nothing.
-/

namespace Marekvs

open Option ShardCtx Ikey

open Resp (ascii)

/-! ## Commands and runs -/

/-- An administrative command on a budget: what follows the key, and the home owners for BG.CREATE. -/
inductive AdminCmd where
  | create (owners : List NodeId) (rest : List Bytes)
  | topup (rest : List Bytes)
  | reclaim (rest : List Bytes)

namespace AdminCmd

def exec (key : Bytes) (disk : Disk) (ctx : ShardCtx) : AdminCmd → Reply × ShardCtx
  | create owners rest => bgCreate owners disk (ascii "BG.CREATE" :: key :: rest) ctx
  | topup rest => bgTopup disk (ascii "BG.TOPUP" :: key :: rest) ctx
  | reclaim rest => bgReclaim disk (ascii "BG.RECLAIM" :: key :: rest) ctx

/-- The sequence number that a command carries. -/
def seq : AdminCmd → Option UInt64
  | create _ (_ :: opts) =>
    match createOpts opts.length opts ⟨MODE_POOL, 0, 0, 0, 0, [], none⟩ with
    | .ok o => o.seq
    | .error _ => none
  | topup (_ :: opts) =>
    match topupOpts opts none none with
    | .ok (_, seq) => seq
    | .error _ => none
  | reclaim [_, word, v] => if eqIgnoreCase word "SEQ" then readWord v else none
  | _ => none

end AdminCmd

/-- The state in the head that is stored, deleted or not. -/
def ShardCtx.headState (ctx : ShardCtx) (key : Bytes) : Option HeadState := (ctx.headRaw key).bind fun h => h.2.2.2

/-- What administrative commands lead to. Between two of them anything may happen that leaves the head as it is: time passes,
tokens are granted and folded, the next command is given to another node that has the head. -/
inductive AdminReach (key : Bytes) (start : ShardCtx) : ShardCtx → Prop where
  | start : AdminReach key start start
  | exec {ctx : ShardCtx} (h : AdminReach key start ctx) (cmd : AdminCmd) (disk : Disk) :
      AdminReach key start (cmd.exec key disk ctx).2
  | meanwhile {ctx ctx' : ShardCtx} (h : AdminReach key start ctx)
      (hhead : ctx'.getRaw (headKey key) = ctx.getRaw (headKey key)) : AdminReach key start ctx'

/-! ## Heads -/

variable {key : Bytes} {ctx : ShardCtx}

theorem headRaw_congr {ctx' : ShardCtx} (h : ctx'.getRaw (headKey key) = ctx.getRaw (headKey key)) :
    ctx'.headRaw key = ctx.headRaw key := by
  rw [headRaw, h, headRaw]

theorem headState_congr {ctx' : ShardCtx} (h : ctx'.getRaw (headKey key) = ctx.getRaw (headKey key)) :
    ctx'.headState key = ctx.headState key := by
  rw [headState, headRaw_congr h, headState]

theorem headRaw_of_record (hv : hs.Valid) (h : ctx.getRaw (headKey key) = some (budgetHeadRecord hlc node del hs)) :
    ctx.headRaw key = some (Envelope.head hlc node, Ctype.budget.toByte, del, some hs) := by
  have hdrop : (encodeHead Ctype.budget.toByte del ++ hs.encode).drop 9 = hs.encode := by simp [encodeHead]
  have hhead : decodeHead (encodeHead Ctype.budget.toByte del ++ hs.encode) = some (Ctype.budget.toByte, del) :=
    HeadRecord.decodeHead_payload ⟨false, ⟨hlc, node⟩, 0, Ctype.budget.toByte, del, hs.encode⟩
  rw [headRaw, h, budgetHeadRecord, bind_some, Envelope.decode_encodeWith, bind_some]
  simp only [hhead, hdrop, HeadState.decode_encode hv.allocSize hv.fenceSize, map_some, if_true]

/-- The head that a command wrote says what it was written with. -/
theorem headState_of_record {hs : HeadState} (hv : hs.Valid)
    (h : ctx.getRaw (headKey key) = some (budgetHeadRecord hlc node del hs)) : ctx.headState key = some hs := by
  rw [headState, headRaw_of_record hv h, bind_some]

/-- A live budget is one whose head is stored. -/
theorem headState_of_headOrErr (h : ctx.headOrErr key = .ok bhead) : ctx.headState key = some bhead.state := by
  unfold headOrErr at h
  split at h
  · cases h
  split at h
  · cases h
  rename_i env payload hraw
  split at h
  · cases h
  rename_i ctype del hdec
  split at h
  · cases h
  split at h
  · cases h
  rename_i hctype
  split at h
  · cases h
  rename_i hs hhs
  cases h
  simp [headState, headRaw, hraw, hdec, not_not.1 hctype, hhs]

/-- What commands leave as a head: none of a budget, or a valid one that is live at all times. -/
def HeadOk (ctx : ShardCtx) (key : Bytes) : Prop :=
  ctx.headState key = none ∨
    ∃ hlc node del hs, ctx.getRaw (headKey key) = some (budgetHeadRecord hlc node del hs) ∧ HeadState.Valid hs

theorem HeadOk.congr (h : HeadOk ctx key) (heq : ctx'.getRaw (headKey key) = ctx.getRaw (headKey key)) :
    HeadOk ctx' key := by
  rcases h with h | ⟨hlc, node, del, hs, hraw, hv⟩
  · exact .inl ((headState_congr heq).trans h)
  · exact .inr ⟨hlc, node, del, hs, heq.trans hraw, hv⟩

theorem HeadOk.valid (h : HeadOk ctx key) {hs : HeadState} (hhs : ctx.headState key = some hs) : hs.Valid := by
  rcases h with h | ⟨hlc, node, del, hs', hraw, hv⟩
  · cases (h.symm.trans hhs)
  · rw [headState_of_record hv hraw, some.injEq] at hhs
    exact hhs ▸ hv

theorem HeadOk.liveState_eq (h : HeadOk ctx key) : liveState now (ctx.headRaw key) = ctx.headState key := by
  rcases h with h | ⟨hlc, node, del, hs, hraw, hv⟩
  · rw [h]
    rw [headState] at h
    cases hr : ctx.headRaw key with
    | none => rfl
    | some p =>
      obtain ⟨env, ctype, del, st⟩ := p
      rw [hr, bind_some] at h
      dsimp only at h
      rw [h, liveState, ite_self]
  · have hflags : COLLECTION_HEAD &&& TOMBSTONE = 0 := by decide
    have hlive : (Envelope.head hlc node).isLive now = true := by
      simp [Envelope.head, Envelope.isLive, Envelope.isTombstone, Envelope.isExpired, hflags]
    rw [headState_of_record hv hraw, headRaw_of_record hv hraw, liveState, if_pos hlive]

/-! ## Jobs that write a head -/

/-- What a command writes: a valid head, under a new sequence number if it carries one, and with the old sum if `same`. -/
def Writes (ctx : ShardCtx) (key : Bytes) (seq : Option UInt64) (same : Prop) (hs : HeadState) : Prop :=
  hs.Valid ∧ (∀ old, ctx.headState key = some old → alreadyDone seq old = false) ∧
    (same → (ctx.headState key).map HeadState.allocTotal = some hs.allocTotal)

/-- A job reads, and writes nothing but a head. -/
structure HeadJob {α : Type} (key : Bytes) (ctx : ShardCtx) (seq : Option UInt64) (same : Prop) (job : BudgetJob α) : Prop where
  reads : ∀ k, (job ctx).2.getRaw k = ctx.getRaw k
  writes : ∀ ops out, (job ctx).1 = .ok (ops, out) → (ops = [] ∧ (ctx.headState key).isSome) ∨
    ∃ hlc node del hs, ops = [(headKey key, budgetHeadRecord hlc node del hs)] ∧ Writes ctx key seq same hs

/-- How a command leaves the store: the head as it was or a new one, and some head where the command is not refused. -/
structure Leaves (key : Bytes) (ctx : ShardCtx) (seq : Option UInt64) (same : Prop) (refused : Bool)
    (ctx' : ShardCtx) : Prop where
  head : ctx'.getRaw (headKey key) = ctx.getRaw (headKey key) ∨
    ∃ hlc node del hs, ctx'.getRaw (headKey key) = some (budgetHeadRecord hlc node del hs) ∧ Writes ctx key seq same hs
  done : refused = false → (ctx'.headState key).isSome

theorem Leaves.imp {ctx' : ShardCtx}
    (h : Leaves key ctx seq same refused ctx') (himp : same' → same) : Leaves key ctx seq same' refused ctx' := by
  refine ⟨h.head.imp_right ?_, h.done⟩
  rintro ⟨hlc, node, del, hs, hraw, hv, hold, hsum⟩
  exact ⟨hlc, node, del, hs, hraw, hv, hold, fun hsame => hsum (himp hsame)⟩

theorem leaves_refused (seq : Option UInt64) (same : Prop) : Leaves key ctx seq same true ctx := ⟨.inl rfl, nofun⟩

theorem isErr_reply (e : BudgetErr) : e.reply.isErr = true := by cases e <;> rfl

theorem HeadJob.leaves {job : BudgetJob α} (h : HeadJob key ctx seq same job) (disk : Disk) (ok : α → Reply) :
    Leaves key ctx seq same (budgetReply ok (budgetWrite disk job ctx).1).isErr (budgetWrite disk job ctx).2 := by
  have hreads := h.reads (headKey key)
  have hwrites := h.writes
  rw [budgetWrite, budgetJob]
  cases hjob : job ctx with
  | mk res ctx' =>
    rw [hjob] at hreads hwrites
    cases res with
    | error e => exact ⟨.inl hreads, fun herr => nomatch ((isErr_reply e).symm.trans herr)⟩
    | ok p =>
      obtain ⟨ops, out⟩ := p
      dsimp only at hreads ⊢
      split
      · exact ⟨.inl hreads,
          fun herr => absurd ((isErr_reply (.tryAgain (ascii "storage commit failed"))).symm.trans herr) nofun⟩
      rcases hwrites ops out rfl with ⟨rfl, hsome⟩ | ⟨hlc, node, del, hs, rfl, hhs⟩
      · exact ⟨.inl hreads, fun _ => (headState_congr hreads).symm ▸ hsome⟩
      have hput : (ctx'.commitOps [(headKey key, budgetHeadRecord hlc node del hs)]).getRaw (headKey key) =
          some (budgetHeadRecord hlc node del hs) := getRaw_putRaw_self _ _ _
      refine ⟨.inr ⟨hlc, node, del, hs, hput, hhs⟩, fun _ => ?_⟩
      rw [headState_of_record hhs.1 hput]
      rfl

section Jobs

variable (hhead : HeadOk ctx key)
include hhead

theorem headJob_create (capacity : UInt64) (o : CreateOpts) {nodes : List NodeId} (hsorted : nodes.Pairwise (· < ·))
    (hne : nodes ≠ [])
    (hlen : nodes.length ≤ 255) : HeadJob key ctx o.seq False (createJob key capacity o nodes) where
  reads k := by
    rw [createJob]
    repeat' first | rfl | split | dsimp only
  writes ops out hout := by
    rw [createJob] at hout
    split at hout
    · cases hout
    dsimp only at hout
    rw [hhead.liveState_eq] at hout
    split at hout
    · cases hout
    split at hout
    · rename_i hdone
      cases hout
      exact .inl ⟨rfl, isSome_of_any hdone⟩
    · rename_i hdone
      cases hout
      refine .inr ⟨_, _, _, _, rfl, HeadState.valid_create _ _ _ _ hsorted hne hlen, fun old hold => ?_, nofun⟩
      rw [hold, any_some, Bool.not_eq_true] at hdone
      exact hdone

theorem headJob_topup (amount : UInt64) (node : Option NodeId) (seq : Option UInt64) :
    HeadJob key ctx seq False (topupJob key amount node seq) where
  reads k := by
    rw [topupJob]
    repeat' first | rfl | split
  writes ops out hout := by
    rw [topupJob] at hout
    cases hbhead : ctx.headOrErr key with
    | error e =>
      rw [hbhead] at hout
      cases hout
    | ok bhead =>
      rw [hbhead] at hout
      have hstate := headState_of_headOrErr hbhead
      dsimp only at hout
      split at hout
      · cases hout
        exact .inl ⟨rfl, by rw [hstate]; rfl⟩
      rename_i hdone
      cases htopup : bhead.state.topup ctx.nodeId amount node seq with
      | error e =>
        rw [htopup] at hout
        cases hout
      | ok hs =>
        rw [htopup] at hout
        cases hout
        refine .inr ⟨_, _, _, _, rfl, (hhead.valid hstate).topup htopup, fun old hold => ?_, nofun⟩
        rw [hstate, some.injEq] at hold
        exact Bool.not_eq_true _ ▸ hold ▸ hdone

theorem headJob_reclaim (target : NodeId) (seq : Option UInt64) : HeadJob key ctx seq True (reclaimJob key target seq) where
  reads k := by
    rw [reclaimJob]
    repeat' first | rfl | split | dsimp only
  writes ops out hout := by
    rw [reclaimJob] at hout
    cases hbhead : ctx.headOrErr key with
    | error e =>
      rw [hbhead] at hout
      cases hout
    | ok bhead =>
      rw [hbhead] at hout
      have hstate := headState_of_headOrErr hbhead
      have hsome : (ctx.headState key).isSome := by
        rw [hstate]
        rfl
      dsimp only at hout
      split at hout
      · cases hout
        exact .inl ⟨rfl, hsome⟩
      rename_i hdone
      split at hout
      · cases hout
        exact .inl ⟨rfl, hsome⟩
      cases hreclaim : bhead.state.reclaim target
          (max (ctx.tokenConsumed key bhead.state.gen target) (ctx.slotConsumed key bhead.state target)) ctx.nowMs seq with
      | error e =>
        rw [hreclaim] at hout
        cases hout
      | ok p =>
        obtain ⟨hs, freed⟩ := p
        rw [hreclaim] at hout
        cases hout
        obtain ⟨hv, htotal⟩ := (hhead.valid hstate).reclaim hreclaim
        refine .inr ⟨_, _, _, _, rfl, hv, fun old hold => ?_, fun _ => ?_⟩
        · rw [hstate, some.injEq] at hold
          exact Bool.not_eq_true _ ▸ hold ▸ hdone
        · rw [hstate, map_some, htotal]

omit hhead in
/-- Options that cannot be read are answered with an error. -/
theorem isErr_of_createOpts {r : Reply} (h : createOpts fuel args o = .error r) : r.isErr = true := by
  fun_induction createOpts fuel args o <;> first
    | exact ‹_ → _› h
    | cases h
  all_goals rfl

omit hhead in
theorem isErr_of_topupOpts {r : Reply} (h : topupOpts args node seq = .error r) : r.isErr = true := by
  fun_induction topupOpts args node seq with
  | case1 => cases h
  | case2 _ _ _ _ _ _ _ _ ih => exact ih h
  | case4 _ _ _ _ _ _ _ _ _ ih => exact ih h
  | _ =>
    cases h
    rfl

/-- How a command leaves the store, whatever its arguments are. -/
theorem AdminCmd.leaves (cmd : AdminCmd) (disk : Disk) :
    Leaves key ctx cmd.seq (∃ rest, cmd = .reclaim rest) (cmd.exec key disk ctx).1.isErr (cmd.exec key disk ctx).2 := by
  cases cmd with
  | create owners rest =>
    rw [exec, bgCreate.eq_def]
    cases rest with
    | nil => exact leaves_refused _ _
    | cons capacity rest =>
      rw [AdminCmd.seq]
      dsimp only
      cases readWord capacity with
      | none => exact leaves_refused _ _
      | some capacity =>
        cases hopts : createOpts rest.length rest ⟨MODE_POOL, 0, 0, 0, 0, [], none⟩ with
        | error r =>
          dsimp only
          rw [isErr_of_createOpts hopts]
          exact leaves_refused _ _
        | ok o =>
          dsimp only
          generalize hnodes : (if o.nodes ≠ [] then o.nodes else if owners ≠ [] then owners else [ctx.nodeId]) = nodes
          have hne : nodes ≠ [] := by
            rw [← hnodes]
            split
            · assumption
            · split
              · assumption
              · exact List.cons_ne_nil _ _
          by_cases hlen : 255 < (escrowNodes nodes).length
          · rw [if_pos hlen]
            exact leaves_refused _ _
          rw [if_neg hlen]
          have hjob := headJob_create hhead capacity o (HeadState.escrowNodes_sorted nodes) (HeadState.escrowNodes_ne_nil hne)
            (not_lt.1 hlen)
          exact (hjob.leaves disk fun _ => .ok).imp fun ⟨_, heq⟩ => nomatch heq
  | topup rest =>
    rw [exec, bgTopup.eq_def]
    cases rest with
    | nil => exact leaves_refused _ _
    | cons amount rest =>
      rw [AdminCmd.seq]
      dsimp only
      cases (readWord amount).filter (0 < ·) with
      | none => exact leaves_refused _ _
      | some amount =>
        cases hopts : topupOpts rest none none with
        | error r =>
          dsimp only
          rw [isErr_of_topupOpts hopts]
          exact leaves_refused _ _
        | ok p =>
          exact ((headJob_topup hhead amount p.1 p.2).leaves disk .int).imp fun ⟨_, heq⟩ => nomatch heq
  | reclaim rest =>
    rw [exec, bgReclaim.eq_def]
    cases rest with
    | nil => exact leaves_refused _ _
    | cons target rest =>
      dsimp only
      cases readNode target with
      | none => exact leaves_refused _ _
      | some node =>
        dsimp only
        by_cases hself : node = ctx.nodeId
        · rw [if_pos hself]
          exact leaves_refused _ _
        rw [if_neg hself]
        match rest with
        | [] => exact ((headJob_reclaim hhead node none).leaves disk .int).imp fun _ => trivial
        | [_] => exact leaves_refused _ _
        | [word, v] =>
          rw [AdminCmd.seq]
          dsimp only
          by_cases hword : eqIgnoreCase word "SEQ" = true
          · simp only [if_pos hword]
            cases readWord v with
            | none => exact leaves_refused _ _
            | some seq => exact ((headJob_reclaim hhead node (some seq)).leaves disk .int).imp fun _ => trivial
          · simp only [if_neg hword]
            exact leaves_refused _ _
        | _ :: _ :: _ :: _ => exact leaves_refused _ _

end Jobs

/-! ## Runs -/

theorem HeadOk.exec (h : HeadOk ctx key) (cmd : AdminCmd) (disk : Disk) : HeadOk (cmd.exec key disk ctx).2 key := by
  rcases (cmd.leaves h disk).head with heq | ⟨hlc, node, del, hs, hraw, hv, -⟩
  · exact h.congr heq
  · exact .inr ⟨hlc, node, del, hs, hraw, hv⟩

theorem AdminReach.headOk {start : ShardCtx} (hstart : start.headState key = none) (h : AdminReach key start ctx) :
    HeadOk ctx key := by
  induction h with
  | start => exact .inl hstart
  | exec _ cmd disk ih => exact ih.exec cmd disk
  | meanwhile _ hhead ih => exact ih.congr hhead

/-- In every run of administrative commands on a budget key, in any state: the stored head has strictly increasing node ids, and
their allocations add up to the capacity. A command that is not refused leaves such a head; BG.RECLAIM leaves the sum as it is;
and a command whose sequence number is not above the stored one leaves the bytes of the head as they are. -/
theorem admin_commands_split_the_capacity {start : ShardCtx} (hstart : start.headState key = none)
    (hreach : AdminReach key start ctx) :
    (∀ hs, ctx.headState key = some hs →
      (hs.alloc.map Prod.fst).Pairwise (· < ·) ∧ hs.allocTotal ≤ hs.capacity.toNat ∧ hs.allocTotal = hs.capacity.toNat) ∧
    ∀ (cmd : AdminCmd) (disk : Disk),
      ((cmd.exec key disk ctx).1.isErr = false → ((cmd.exec key disk ctx).2.headState key).isSome) ∧
      (∀ rest, cmd = .reclaim rest →
        ((cmd.exec key disk ctx).2.headState key).map HeadState.allocTotal = (ctx.headState key).map HeadState.allocTotal) ∧
      (∀ hs seq, ctx.headState key = some hs → cmd.seq = some seq → seq ≤ hs.opSeq →
        (cmd.exec key disk ctx).2.getRaw (headKey key) = ctx.getRaw (headKey key)) := by
  have hok := hreach.headOk hstart
  refine ⟨fun hs hhs => ?_, fun cmd disk => ?_⟩
  · have hv := hok.valid hhs
    exact ⟨hv.sorted, hv.total.le, hv.total⟩
  obtain ⟨hhead, hdone⟩ := cmd.leaves hok disk
  refine ⟨hdone, ?_, ?_⟩
  · rintro rest rfl
    rcases hhead with heq | ⟨hlc, node, del, hs, hraw, hv, -, hsum⟩
    · rw [headState_congr heq]
    · rw [headState_of_record hv hraw, hsum ⟨rest, rfl⟩, map_some]
  · intro hs seq hhs hseq hle
    rcases hhead with heq | ⟨hlc, node, del, hs', hraw, hv, hold, -⟩
    · exact heq
    · have hdone := hold hs hhs
      rw [hseq, alreadyDone, any_some, decide_eq_false_iff_not] at hdone
      exact absurd hle hdone

/-- A budget of ten units for three nodes, created in an empty store. -/
theorem admin_commands_split_the_capacity_of_ten :
    (ShardCtx.mk ∅ ∅ 1 0 5).headState [98] = none ∧
      (((AdminCmd.create [] [ascii "10", ascii "NODES", ascii "3", ascii "1", ascii "2"]).exec [98] ⟨true, true⟩
        (ShardCtx.mk ∅ ∅ 1 0 5)).2.headState [98]).isSome :=
  ⟨rfl, ((admin_commands_split_the_capacity rfl .start).2
    (.create [] [ascii "10", ascii "NODES", ascii "3", ascii "1", ascii "2"]) ⟨true, true⟩).1 rfl⟩

end Marekvs
