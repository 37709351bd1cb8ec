import Marekvs.Engine.BudgetReserve
import Marekvs.Engine.BudgetAdmin
import Marekvs.Lib.Run

/-!
# Repeated reservations

A node with any number of handlers of BG.RESERVE, whose steps come in any order. If no request is looked up while another with its
key and REQID is under way, every grant is synced, and no request is looked up that was granted in a generation that is over, then
a REQID is granted once, and nobody is answered with a token of a generation that was over when they asked.
-/

namespace Marekvs

open List

open Resp (ascii)

variable {e : ReserveEngine} {req : ReserveReq} {act : ReserveAct}

/-! ## Runs -/

def ShardCtx.budgetGen (ctx : ShardCtx) (key : Bytes) : Option UInt64 :=
  match ctx.headOrErr key with
  | .ok bhead => some bhead.state.gen
  | .error _ => none

/-- A request with where its handler is, and the generations that were over when it arrived. -/
structure ReserveHandler where
  req : ReserveReq
  phase : ReservePhase
  ended : List (Bytes × UInt64)

/-- A node with its handlers, the tokens that were made for requests, and the generations that DEL and CREATE have put an end
to. -/
structure ReserveNode where
  engine : ReserveEngine
  handlers : List ReserveHandler
  created : List ((Bytes × UInt64) × TokenId)
  ended : List (Bytes × UInt64)

/-- What happens next: a request arrives from a client or from a peer, a handler goes on, or anything else happens to the shard.
-/
inductive ReserveAct where
  | client (args : List Bytes)
  | peer (key : Bytes) (amount ttlMs reqid : UInt64)
  | resume (i : Nat) (env : ReserveEnv)
  | meanwhile (ctx : ShardCtx) (gone : List (Bytes × UInt64))

/-- What a request is known by in the table. -/
def ReserveReq.id (req : ReserveReq) : Bytes × UInt64 := (req.key, req.reqid)

namespace ReservePhase

/-- Whether a handler has looked its request up and has no answer yet. -/
def underWay : ReservePhase → Bool
  | arrived => false
  | answered _ => false
  | _ => true

/-- The token that was made and is not in the table yet. -/
def token : ReservePhase → Option TokenId
  | committed grant => some grant.token
  | _ => none

/-- The grant that a handler has come to. -/
def grant : ReservePhase → Option BudgetGrant
  | committed grant => some grant
  | answered (.ok grant) => some grant
  | _ => none

end ReservePhase

/-- The token that a handler makes as it goes on. -/
def ReserveReq.creates (req : ReserveReq) : ReservePhase → ReservePhase → List ((Bytes × UInt64) × TokenId)
  | .ready, .committed grant => [(req.id, grant.token)]
  | _, _ => []

namespace ReserveNode

def start (engine : ReserveEngine) : ReserveNode := ⟨engine, [], [], []⟩

def arrive (s : ReserveNode) (req : ReserveReq) : ReserveNode := { s with handlers := s.handlers ++ [⟨req, .arrived, s.ended⟩] }

def step (epoch : UInt64) (s : ReserveNode) : ReserveAct → ReserveNode
  | .client args =>
    match reserveArgs args with
    | .error _ => s
    | .ok req => s.arrive req
  | .peer key amount ttlMs reqid => s.arrive (remoteReserve key amount ttlMs reqid)
  | .resume i env =>
    match s.handlers[i]? with
    | none => s
    | some h =>
      let (phase, engine) := h.req.resume epoch env s.engine h.phase
      { s with engine := engine, handlers := s.handlers.set i { h with phase := phase }
               created := s.created ++ h.req.creates h.phase phase }
  | .meanwhile ctx gone => { s with engine := { s.engine with ctx := ctx }, ended := gone ++ s.ended }

/-- The tokens made for a key and REQID. -/
def made (s : ReserveNode) (id : Bytes × UInt64) : List TokenId :=
  s.created.filterMap fun c => if c.1 = id then some c.2 else none

end ReserveNode

/-- Whether a handler is at work on a key and REQID. -/
def ReserveHandler.Claims (h : ReserveHandler) (id : Bytes × UInt64) : Prop := h.req.id = id ∧ h.phase.underWay = true

abbrev ReserveNode.HasRoom (s : ReserveNode) (_ : ReserveAct) : Prop := s.engine.reqids.order.length < s.engine.reqids.cap

/-- What keeps requests apart: a request with a REQID is looked up when no other one with its key and REQID is under way, and
what it was granted before is of no generation that is over; its grant is synced; and peers grant nothing of a generation that
is over. -/
def ReserveHandler.Orderly (s : ReserveNode) (env : ReserveEnv) (h : ReserveHandler) : Prop :=
  match h.phase with
  | .arrived => h.req.reqid ≠ 0 → (∀ h' ∈ s.handlers, ¬ h'.Claims h.req.id) ∧
      ∀ grant, s.engine.remembered h.req = some grant → (h.req.key, grant.token.gen) ∉ s.ended
  | .committed _ => h.req.reqid ≠ 0 → env.disk.syncs = true
  | .forwarding => ∀ grant, forwardReserve env.peers = .ok grant → (h.req.key, grant.token.gen) ∉ s.ended
  | _ => True

/-- An orderly step. The heads of budgets are merged by their versions, so a peer's late write can bring back a generation that is
over; an orderly step does not. -/
structure Orderly (epoch : UInt64) (s : ReserveNode) (act : ReserveAct) : Prop where
  goneForGood : ∀ key gen, (s.step epoch act).engine.ctx.budgetGen key = some gen → (key, gen) ∉ (s.step epoch act).ended
  apart : ∀ i env h, act = .resume i env → s.handlers[i]? = some h → h.Orderly s env

/-! ## The table -/

namespace ReqidLru

variable {t : ReqidLru} {key : Bytes} {reqid : UInt64}

/-- Below the capacity nothing is dropped. -/
theorem evict_of_le (h : t.order.length ≤ t.cap) : t.evict = t := by
  simp [evict, Nat.sub_eq_zero_of_le h]

/-- Where the table has room, a grant is added to it and the others stay. -/
theorem get_put (h : t.order.length < t.cap) (grant : BudgetGrant) (key' : Bytes) (reqid' : UInt64) :
    (t.put key reqid grant).get key' reqid' = if (key', reqid') = (key, reqid) then some grant else t.get key' reqid' := by
  rw [put, evict_of_le]
  · rfl
  dsimp only
  split
  · exact h.le
  · rw [length_append, length_singleton]
    exact h

end ReqidLru

/-! ## One grant for a request -/

section Once

variable {epoch : UInt64} {s s' : ReserveNode} {id : Bytes × UInt64} {i : Nat} {h : ReserveHandler}

instance : DecidablePred (ReserveHandler.Claims · id) := fun _ => inferInstanceAs (Decidable (_ ∧ _))

/-- The handlers at work on a key and REQID. -/
def ReserveNode.atWork (s : ReserveNode) (id : Bytes × UInt64) : List ReserveHandler := s.handlers.filter (·.Claims id)

/-- A key and REQID has one handler at work, whose token is the only one, or none, and then a token that was made is in the
table. -/
def Once (s : ReserveNode) (id : Bytes × UInt64) : Prop :=
  match s.atWork id with
  | [] => s.made id = [] ∨ ∃ t, s.made id = [t] ∧ (s.engine.reqids.get id.1 id.2).isSome
  | [h] => s.made id = h.phase.token.toList
  | _ => False

theorem Once.length_made (ho : Once s id) : (s.made id).length ≤ 1 := by
  unfold Once at ho
  split at ho
  · rcases ho with hm | ⟨t, hm, -⟩
    · rw [hm]
      exact Nat.zero_le 1
    · rw [hm]
      exact Nat.le_refl 1
  · rw [ho]
    exact Option.length_toList_le
  · exact ho.elim

theorem Once.congr (ho : Once s id) (hwork : s'.atWork id = s.atWork id) (hmade : s'.made id = s.made id)
    (hget : s'.engine.reqids.get id.1 id.2 = s.engine.reqids.get id.1 id.2) : Once s' id := by
  rw [Once, hwork, hmade, hget]
  exact ho

variable {before after : List ReserveHandler} {h' : ReserveHandler}

/-- A handler among the others, and what takes its place. -/
theorem exists_handlers_eq (hi : s.handlers[i]? = some h) :
    ∃ before after, s.handlers = before ++ h :: after ∧ ∀ h', s.handlers.set i h' = before ++ h' :: after := by
  obtain ⟨hlt, rfl⟩ := List.getElem?_eq_some_iff.1 hi
  refine ⟨s.handlers.take i, s.handlers.drop (i + 1), ?_, fun h' => ?_⟩
  · rw [← drop_eq_getElem_cons hlt, take_append_drop]
  · rw [set_eq_take_append_cons_drop, if_pos hlt]

theorem Once.alone (ho : Once s id) (hs : s.handlers = before ++ h :: after) (hc : h.Claims id) :
    s.made id = h.phase.token.toList ∧ before.filter (·.Claims id) = [] ∧ after.filter (·.Claims id) = [] := by
  rw [Once, ReserveNode.atWork, hs, filter_append, filter_cons, if_pos (decide_eq_true hc)] at ho
  generalize before.filter (·.Claims id) = bs at ho ⊢
  generalize after.filter (·.Claims id) = as at ho ⊢
  rcases bs with _ | ⟨b, _ | ⟨b', bs⟩⟩
  · cases as with
    | nil => exact ⟨ho, rfl, rfl⟩
    | cons a as => exact ho.elim
  · exact ho.elim
  · exact ho.elim

/-- The handler that went on is the only one to look at. -/
theorem Once.of_set (hs : s'.handlers = before ++ h' :: after) (hbefore : before.filter (·.Claims id) = [])
    (hafter : after.filter (·.Claims id) = []) (hclaims : h'.Claims id → s'.made id = h'.phase.token.toList)
    (hsettled : ¬ h'.Claims id → s'.made id = [] ∨ ∃ t, s'.made id = [t] ∧ (s'.engine.reqids.get id.1 id.2).isSome) :
    Once s' id := by
  rw [Once, ReserveNode.atWork, hs, filter_append, filter_cons, hbefore, hafter]
  by_cases hc : h'.Claims id
  · rw [if_pos (decide_eq_true hc)]
    exact hclaims hc
  · rw [if_neg (by simpa using hc)]
    exact hsettled hc

/-- A handler of another request leaves the handlers at work as they were. -/
theorem atWork_of_other (hs : s.handlers = before ++ h :: after) (hs' : s'.handlers = before ++ h' :: after)
    (hreq : h'.req = h.req)
    (hne : h.req.id ≠ id) : s'.atWork id = s.atWork id := by
  have hnot : ∀ k : ReserveHandler, k.req = h.req → ¬ decide (k.Claims id) = true :=
    fun k hk hc => hne (hk ▸ (of_decide_eq_true hc).1)
  rw [ReserveNode.atWork, ReserveNode.atWork, hs, hs', filter_append, filter_append, filter_cons, if_neg (hnot h' hreq),
    filter_cons, if_neg (hnot h rfl)]

end Once

/-! ## Steps -/

section Step

variable {epoch : UInt64} {s : ReserveNode} {id : Bytes × UInt64} {i : Nat} {h : ReserveHandler} {env : ReserveEnv}

theorem ReserveEngine.get_remember (hroom : e.reqids.order.length < e.reqids.cap) (req : ReserveReq) (grant : BudgetGrant) :
    (e.remember req grant).reqids.get id.1 id.2 =
      if req.reqid ≠ 0 ∧ id = req.id then some grant else e.reqids.get id.1 id.2 := by
  rw [remember]
  by_cases hr : req.reqid ≠ 0
  · rw [if_pos hr]
    simp only [hr, true_and, ReqidLru.get_put hroom, ne_eq, not_false_eq_true]
    rfl
  · rw [if_neg hr, if_neg fun hand => hr hand.1]

/-- Another request's entry in the table stays as it is. -/
theorem ReserveReq.get_resume_of_ne (hroom : e.reqids.order.length < e.reqids.cap) (hne : req.id ≠ id) (phase : ReservePhase) :
    (req.resume epoch env e phase).2.reqids.get id.1 id.2 = e.reqids.get id.1 id.2 := by
  have hremember : ∀ grant, (e.remember req grant).reqids.get id.1 id.2 = e.reqids.get id.1 id.2 := by
    intro grant
    rw [e.get_remember hroom, if_neg fun hand => hne hand.2.symm]
  cases phase with
  | arrived =>
    rw [resume]
    cases e.remembered req <;> rfl
  | missed =>
    rw [resume]
    split <;> rfl
  | ready => rfl
  | committed grant =>
    rw [resume]
    split
    · exact hremember grant
    · rfl
  | forwarding =>
    rw [resume]
    cases forwardReserve env.peers with
    | error e => rfl
    | ok grant => exact hremember grant
  | answered reply => rfl

namespace ReserveNode

theorem step_resume (hi : s.handlers[i]? = some h) :
    s.step epoch (.resume i env) =
      { s with engine := (h.req.resume epoch env s.engine h.phase).2
               handlers := s.handlers.set i { h with phase := (h.req.resume epoch env s.engine h.phase).1 }
               created := s.created ++ h.req.creates h.phase (h.req.resume epoch env s.engine h.phase).1 } := by
  rw [step, hi]

theorem made_append (created : List ((Bytes × UInt64) × TokenId)) :
    ({ s with created := s.created ++ created } : ReserveNode).made id =
      s.made id ++ created.filterMap fun c => if c.1 = id then some c.2 else none := by
  rw [made, filterMap_append]
  rfl

end ReserveNode

theorem ReserveReq.creates_of_ne (hne : req.id ≠ id) (phase phase' : ReservePhase) :
    ((req.creates phase phase').filterMap fun c => if c.1 = id then some c.2 else none) = [] := by
  unfold creates
  split
  · simp [hne]
  · rfl

theorem ReserveReq.creates_of_ne_ready (req : ReserveReq) (hne : phase ≠ .ready) (phase' : ReservePhase) :
    req.creates phase phase' = [] := by
  unfold creates
  split
  · exact absurd rfl hne
  · rfl

/-- A handler that is at work goes on. -/
theorem Once.resume_claims (ho : Once s h.req.id) (hroom : s.engine.reqids.order.length < s.engine.reqids.cap)
    (hid : h.req.reqid ≠ 0) (hi : s.handlers[i]? = some h) (hc : h.Claims h.req.id)
    (hsync : ∀ grant, h.phase = .committed grant → env.disk.syncs = true) : Once (s.step epoch (.resume i env)) h.req.id := by
  obtain ⟨before, after, hs, hset⟩ := exists_handlers_eq hi
  obtain ⟨hmade, hbefore, hafter⟩ := ho.alone hs hc
  have hput : ∀ grant, ((s.engine.remember h.req grant).reqids.get h.req.id.1 h.req.id.2).isSome := by
    intro grant
    rw [s.engine.get_remember hroom, if_pos ⟨hid, rfl⟩]
    rfl
  rw [ReserveNode.step_resume hi]
  cases hp : h.phase with
  | arrived =>
    have := hc.2
    rw [hp] at this
    cases this
  | answered reply =>
    have := hc.2
    rw [hp] at this
    cases this
  | missed =>
    rw [hp] at hmade
    rw [h.req.creates_of_ne_ready (by exact nofun), append_nil]
    refine Once.of_set (hset _) hbefore hafter (fun _ => ?_) fun _ => .inl hmade
    rw [ReserveReq.resume]
    split <;> exact hmade
  | ready =>
    rw [hp] at hmade
    rw [ReserveReq.resume]
    generalize budgetJob env.disk.commits _ s.engine.ctx = out
    obtain ⟨res, ctx⟩ := out
    have hgrant : ∀ created, ({ s with created := s.created ++ created } : ReserveNode).made h.req.id =
        created.filterMap fun c => if c.1 = h.req.id then some c.2 else none := by
      intro created
      rw [ReserveNode.made_append, hmade]
      rfl
    have herror : ∀ e, Once { s with engine := { s.engine with ctx := ctx }
                                     handlers := s.handlers.set i { h with phase := h.req.afterJob (.error e) }
                                     created := s.created ++ h.req.creates .ready (h.req.afterJob (.error e)) } h.req.id := by
      intro e
      have hnil : h.req.creates .ready (h.req.afterJob (.error e)) = [] ∧ (h.req.afterJob (.error e)).token = none := by
        cases e with
        | exhausted =>
          rw [ReserveReq.afterJob]
          split <;> exact ⟨rfl, rfl⟩
        | _ => exact ⟨rfl, rfl⟩
      refine Once.of_set (hset _) hbefore hafter (fun _ => ?_) fun _ => .inl ?_
      · rw [hnil.1, hnil.2]
        exact hgrant []
      · rw [hnil.1]
        exact hgrant []
    cases res with
    | error e => exact herror e
    | ok out =>
      obtain ⟨ops, grant⟩ := out
      refine Once.of_set (hset _) hbefore hafter (fun _ => (hgrant _).trans ?_) fun hc' => absurd ⟨rfl, rfl⟩ hc'
      simp [ReserveReq.creates, ReserveReq.afterJob, ReservePhase.token]
  | committed grant =>
    rw [hp] at hmade
    rw [h.req.creates_of_ne_ready (by exact nofun), append_nil, ReserveReq.resume, if_pos (hsync grant hp)]
    exact Once.of_set (hset _) hbefore hafter (fun hc' => absurd hc'.2 nofun) fun _ => .inr ⟨_, hmade, hput grant⟩
  | forwarding =>
    rw [hp] at hmade
    rw [h.req.creates_of_ne_ready (by exact nofun), append_nil, ReserveReq.resume]
    cases forwardReserve env.peers with
    | error e => exact Once.of_set (hset _) hbefore hafter (fun hc' => absurd hc'.2 nofun) fun _ => .inl hmade
    | ok grant => exact Once.of_set (hset _) hbefore hafter (fun hc' => absurd hc'.2 nofun) fun _ => .inl hmade

theorem Once.arrive (ho : Once s id) (req : ReserveReq) : Once (s.arrive req) id :=
  ho.congr (by simp [ReserveNode.arrive, ReserveNode.atWork, ReserveHandler.Claims, ReservePhase.underWay]) rfl rfl

theorem Once.step (ho : Once s id) (hid : id.2 ≠ 0) (hroom : s.HasRoom act) (hok : Orderly epoch s act) :
    Once (s.step epoch act) id := by
  cases act with
  | client args =>
    rw [ReserveNode.step]
    split
    · exact ho
    · exact ho.arrive _
  | peer key amount ttlMs reqid => exact ho.arrive _
  | meanwhile ctx gone => exact ho.congr rfl rfl rfl
  | resume i env =>
    cases hi : s.handlers[i]? with
    | none =>
      rw [ReserveNode.step, hi]
      exact ho
    | some h =>
      obtain ⟨before, after, hs, hset'⟩ := exists_handlers_eq hi
      by_cases hne : h.req.id = id
      · subst hne
        have hreq : h.req.reqid ≠ 0 := hid
        by_cases hc : h.Claims h.req.id
        · refine ho.resume_claims hroom hid hi hc fun grant hp => ?_
          have hsync := hok.apart i env h rfl hi
          rw [ReserveHandler.Orderly, hp] at hsync
          exact hsync hreq
        rw [ReserveNode.step_resume hi]
        cases hp : h.phase with
        | arrived =>
          have hlook := hok.apart i env h rfl hi
          rw [ReserveHandler.Orderly, hp] at hlook
          obtain ⟨hnone, -⟩ := hlook hreq
          have hfree : s.atWork h.req.id = [] := filter_eq_nil_iff.2 fun k hk hc => hnone k hk (of_decide_eq_true hc)
          obtain ⟨hbefore, hafter⟩ : before.filter (·.Claims h.req.id) = [] ∧ after.filter (·.Claims h.req.id) = [] := by
            rw [ReserveNode.atWork, hs, filter_append, filter_cons, if_neg (by simpa using hc)] at hfree
            exact append_eq_nil_iff.1 hfree
          have hsettled : s.made h.req.id = [] ∨ ∃ t, s.made h.req.id = [t] ∧
            (s.engine.reqids.get h.req.id.1 h.req.id.2).isSome := by
            rwa [Once, hfree] at ho
          rw [h.req.creates_of_ne_ready (by exact nofun), append_nil, ReserveReq.resume]
          cases hrem : s.engine.remembered h.req with
          | some prev =>
            exact Once.of_set (hset' _) hbefore hafter (fun hc' => absurd hc'.2 nofun) fun _ => hsettled
          | none =>
            rw [ReserveEngine.remembered, if_pos hreq] at hrem
            refine Once.of_set (hset' _) hbefore hafter (fun _ => ?_) fun hc' => absurd ⟨rfl, rfl⟩ hc'
            rcases hsettled with hm | ⟨t, -, hsome⟩
            · exact hm
            · cases (hrem ▸ hsome : (none : Option BudgetGrant).isSome = true)
        | answered reply =>
          obtain ⟨hlt, hget⟩ := List.getElem?_eq_some_iff.1 hi
          have hsame : s.handlers.set i { h with phase := h.phase } = s.handlers := by
            rw [← hget]
            exact set_getElem_self hlt
          rw [h.req.creates_of_ne_ready (by exact nofun), append_nil, ReserveReq.resume, ← hp, hsame]
          exact ho
        | missed => exact absurd ⟨rfl, by rw [hp]; rfl⟩ hc
        | ready => exact absurd ⟨rfl, by rw [hp]; rfl⟩ hc
        | committed grant => exact absurd ⟨rfl, by rw [hp]; rfl⟩ hc
        | forwarding => exact absurd ⟨rfl, by rw [hp]; rfl⟩ hc
      · rw [ReserveNode.step_resume hi]
        refine ho.congr (atWork_of_other hs (hset' _) rfl hne) ?_ (ReserveReq.get_resume_of_ne hroom hne _)
        refine (ReserveNode.made_append _).trans ?_
        rw [ReserveReq.creates_of_ne hne, append_nil]

end Step

/-! ## Generations -/

section Generations

variable {epoch : UInt64} {s : ReserveNode}

/-- A job that was committed went well. -/
theorem ok_of_budgetJob (h : (budgetJob commits job ctx).1 = .ok (ops, out)) : (job ctx).1 = .ok (ops, out) := by
  rw [budgetJob] at h
  generalize job ctx = out' at h
  obtain ⟨res, ctx'⟩ := out'
  cases res with
  | error e => cases h
  | ok p =>
    obtain ⟨ops', a⟩ := p
    dsimp only at h ⊢
    by_cases hfail : ops' ≠ [] ∧ !commits
    · rw [if_pos hfail] at h
      cases h
    · rw [if_neg hfail] at h
      exact h

theorem budgetGen_of_grant
    (h : (grantLocal commits epoch cfg key amount ttlMs reqid ctx).1 = .ok (ops, grant)) :
    ctx.budgetGen key = some grant.token.gen := by
  rw [ShardCtx.budgetGen]
  rw [grantLocal] at h
  cases hhead : ctx.headOrErr key with
  | error e => rw [hhead] at h; cases h
  | ok bhead =>
    rw [hhead] at h
    dsimp only at h ⊢
    cases hrefuse : bhead.state.refuses cfg ctx.nodeId amount ttlMs with
    | some e => rw [hrefuse] at h; cases h
    | none =>
      rw [hrefuse] at h
      dsimp only at h
      split at h
      · split at h <;> cases h
      rw [writeGrant] at h
      dsimp only at h
      split at h
      · cases h
      · cases h
        rfl

/-- Where a handler's grant comes from. -/
theorem ReserveReq.grant_resume
    (h : (req.resume epoch env e phase).1.grant = some grant) :
    phase.grant = some grant ∨ (phase = .arrived ∧ e.remembered req = some grant) ∨
      (phase = .ready ∧ e.ctx.budgetGen req.key = some grant.token.gen) ∨
      (phase = .forwarding ∧ forwardReserve env.peers = .ok grant) := by
  cases phase with
  | arrived =>
    rw [resume] at h
    cases hrem : e.remembered req with
    | none => rw [hrem] at h; cases h
    | some prev =>
      rw [hrem] at h
      cases h
      exact .inr (.inl ⟨rfl, rfl⟩)
  | missed =>
    rw [resume] at h
    split at h <;> cases h
  | ready =>
    refine .inr (.inr (.inl ⟨rfl, ?_⟩))
    rw [resume] at h
    dsimp only at h
    cases hres : (budgetJob env.disk.commits
        (grantLocal env.disk.commits epoch env.cfg req.key req.amount req.ttl req.reqid) e.ctx).1 with
    | ok out =>
      obtain ⟨ops, prev⟩ := out
      rw [hres] at h
      cases h
      exact budgetGen_of_grant (ok_of_budgetJob hres)
    | error err =>
      rw [hres, afterJob.eq_def] at h
      cases err <;> dsimp only at h
      all_goals first | cases h | (split at h <;> cases h)
  | committed prev =>
    rw [resume] at h
    split at h
    · exact .inl h
    · cases h
  | forwarding =>
    rw [resume] at h
    cases hpeers : forwardReserve env.peers with
    | error err => rw [hpeers] at h; cases h
    | ok prev =>
      rw [hpeers] at h
      cases h
      exact .inr (.inr (.inr ⟨rfl, rfl⟩))
  | answered reply => exact .inl h

/-- No budget has a generation that is over, and no handler has come to a grant of one that was over when its request arrived. -/
structure Current (s : ReserveNode) : Prop where
  live : ∀ key gen, s.engine.ctx.budgetGen key = some gen → (key, gen) ∉ s.ended
  handlers : ∀ h ∈ s.handlers, h.ended ⊆ s.ended ∧ ∀ grant, h.phase.grant = some grant → (h.req.key, grant.token.gen) ∉ h.ended

theorem Current.step (hc : Current s) (hok : Orderly epoch s act) : Current (s.step epoch act) := by
  have harrive : ∀ req, ∀ h ∈ (s.arrive req).handlers, h.ended ⊆ s.ended ∧
      ∀ grant, h.phase.grant = some grant → (h.req.key, grant.token.gen) ∉ h.ended := by
    intro req h hmem
    rcases mem_append.1 hmem with hmem | hmem
    · exact hc.handlers h hmem
    · rw [mem_singleton.1 hmem]
      exact ⟨List.Subset.refl _, nofun⟩
  refine ⟨hok.goneForGood, ?_⟩
  cases act with
  | client args =>
    rw [ReserveNode.step]
    split
    · exact hc.handlers
    · exact harrive _
  | peer key amount ttlMs reqid => exact harrive _
  | meanwhile ctx gone =>
    exact fun h hmem => ⟨subset_append_of_subset_right _ (hc.handlers h hmem).1, (hc.handlers h hmem).2⟩
  | resume i env =>
    cases hi : s.handlers[i]? with
    | none =>
      rw [ReserveNode.step, hi]
      exact hc.handlers
    | some h =>
      rw [ReserveNode.step_resume hi]
      intro k hmem
      obtain ⟨hended, hgrants⟩ := hc.handlers h (mem_of_getElem? hi)
      have horder := hok.apart i env h rfl hi
      rw [ReserveHandler.Orderly] at horder
      rcases mem_or_eq_of_mem_set hmem with hmem | rfl
      · exact hc.handlers k hmem
      refine ⟨hended, fun grant hg => ?_⟩
      rcases ReserveReq.grant_resume hg with hg | ⟨hp, hg⟩ | ⟨hp, hg⟩ | ⟨hp, hg⟩
      · exact hgrants grant hg
      · have hid : h.req.reqid ≠ 0 := by
          intro hz
          rw [ReserveEngine.remembered, hz] at hg
          cases hg
        rw [hp] at horder
        exact fun hend => (horder hid).2 grant hg (hended hend)
      · exact fun hend => hc.live _ _ hg (hended hend)
      · rw [hp] at horder
        exact fun hend => horder grant hg (hended hend)

end Generations

/-! ## Runs -/

/-- What repeated reservations are promised: one token at most for a key and REQID, and no answer of a generation that was over
when the request arrived. -/
def ReserveNode.Promise (s : ReserveNode) : Prop :=
  (∀ key reqid, reqid ≠ 0 → (s.made (key, reqid)).length ≤ 1) ∧
    ∀ h ∈ s.handlers, ∀ grant, h.phase = .answered (.ok grant) → (h.req.key, grant.token.gen) ∉ h.ended

/-- In every run of a node that begins without handlers, whose table has room and whose steps are all orderly, repeated
reservations are granted once, and never with an old token. -/
theorem orderly_requests_are_granted_once (epoch : UInt64) (engine : ReserveEngine) (acts : List ReserveAct)
    (hroom : Run.Always (ReserveNode.step epoch) ReserveNode.HasRoom (.start engine) acts)
    (hok : Run.Always (ReserveNode.step epoch) (Orderly epoch) (.start engine) acts) :
    (acts.foldl (ReserveNode.step epoch) (.start engine)).Promise := by
  have hstep : ∀ s act, (Current s ∧ ∀ id : Bytes × UInt64, id.2 ≠ 0 → Once s id) → s.HasRoom act ∧ Orderly epoch s act →
      Current (s.step epoch act) ∧ ∀ id : Bytes × UInt64, id.2 ≠ 0 → Once (s.step epoch act) id :=
    fun s act hinv hand => ⟨hinv.1.step hand.2, fun id hid => (hinv.2 id hid).step hid hand.1 hand.2⟩
  have hstart : Current (.start engine) ∧ ∀ id : Bytes × UInt64, id.2 ≠ 0 → Once (.start engine) id :=
    ⟨⟨fun _ _ _ => not_mem_nil, nofun⟩,
      fun _ _ => .inl rfl⟩
  obtain ⟨hcurrent, honce⟩ := (hroom.and hok).invariant hstep hstart
  refine ⟨fun key reqid hid => (honce (key, reqid) hid).length_made, fun h hmem grant hg => ?_⟩
  refine (hcurrent.handlers h hmem).2 grant ?_
  rw [hg]
  rfl

/-! ## Requests that get in each other's way -/

/-- A node with a budget of ten, just created. -/
def reserveExample : ReserveEngine :=
  ⟨(bgCreate [] ⟨true, true⟩ [ascii "BG.CREATE", [98], ascii "10"] (ShardCtx.mk ∅ ∅ 1 0 5)).2, .new 4⟩

/-- One unit for a minute, with REQID 7. -/
def reserveSeven : List Bytes := [ascii "BG.RESERVE", [98], ascii "1", ascii "TTL", ascii "60000", ascii "REQID", ascii "7"]

/-- Nothing goes wrong outside. -/
def smoothEnv : ReserveEnv := ⟨true, ⟨60000, 60000, 0⟩, ⟨true, true⟩, []⟩

def oneRequest : List ReserveAct :=
  [.client reserveSeven, .resume 0 smoothEnv, .resume 0 smoothEnv, .resume 0 smoothEnv, .resume 0 smoothEnv]

def twoRequests : List ReserveAct :=
  [.client reserveSeven, .client reserveSeven, .resume 0 smoothEnv, .resume 1 smoothEnv, .resume 0 smoothEnv, .resume 1 smoothEnv,
    .resume 0 smoothEnv, .resume 1 smoothEnv]

/-- The shard after DEL and CREATE. -/
def recreated : ShardCtx :=
  let ctx := (oneRequest.foldl (ReserveNode.step 1) (.start reserveExample)).engine.ctx
  (bgCreate [] ⟨true, true⟩ [ascii "BG.CREATE", [98], ascii "10"]
    { ctx.tick with db := (ctx.db.delKey [98] ctx.hlcNow ctx.nodeId ctx.nowMs).getD ctx.db }).2

/-- A request, the end of its generation, and the request again. -/
def requestAgain : List ReserveAct :=
  oneRequest ++ [.meanwhile recreated [([98], (reserveExample.ctx.budgetGen [98]).getD 0)], .client reserveSeven,
    .resume 1 smoothEnv]

/-- Two requests that are looked up before either is granted get a token each. And a request that was granted before the budget
was deleted and created again is answered with the token of the old generation. -/
theorem repeated_requests_are_granted_twice :
    (Run.Always (ReserveNode.step 1) ReserveNode.HasRoom (.start reserveExample) twoRequests ∧
      ¬ (twoRequests.foldl (ReserveNode.step 1) (.start reserveExample)).Promise) ∧
    Run.Always (ReserveNode.step 1) ReserveNode.HasRoom (.start reserveExample) requestAgain ∧
      ¬ (requestAgain.foldl (ReserveNode.step 1) (.start reserveExample)).Promise := by
  refine ⟨⟨?_, fun h => ?_⟩, ?_, fun h => ?_⟩
  · exact ⟨by decide, by decide, by decide, by decide, by decide, by decide, by decide, by decide, trivial⟩
  · have hlen : ((twoRequests.foldl (ReserveNode.step 1) (.start reserveExample)).made ([98], 7)).length = 2 := by rfl
    have := h.1 [98] 7 (by decide)
    omega
  · exact ⟨by decide, by decide, by decide, by decide, by decide, by decide, by decide, by decide, trivial⟩
  · have hold : (requestAgain.foldl (ReserveNode.step 1) (.start reserveExample)).handlers[1]? =
        some ⟨⟨[98], 1, some 60000, 7, false⟩, .answered (.ok ⟨⟨327680, 327681, 1, 1⟩, 1, 60005⟩), [([98], 327680)]⟩ := by rfl
    exact h.2 _ (mem_of_getElem? hold) _ rfl (mem_singleton_self _)

/-- A request and, after its answer, the same request again. -/
def retried : List ReserveAct := oneRequest ++ [.client reserveSeven, .resume 1 smoothEnv]

theorem orderly_client (hend : (s.step epoch (.client args)).ended = []) : Orderly epoch s (.client args) := by
  refine ⟨fun key gen _ => ?_, nofun⟩
  rw [hend]
  exact not_mem_nil

theorem orderly_resume (hend : (s.step epoch (.resume i env)).ended = []) (hi : s.handlers[i]? = some h) (hok : h.Orderly s env) :
    Orderly epoch s (.resume i env) := by
  refine ⟨fun key gen _ => ?_, fun j env' k heq hj => ?_⟩
  · rw [hend]
    exact not_mem_nil
  · cases heq
    rw [hi] at hj
    exact Option.some.inj hj ▸ hok

/-- The request that comes again is answered with the token of the first, and no other is made. -/
theorem retried_request_is_granted_once :
    (retried.foldl (ReserveNode.step 1) (.start reserveExample)).Promise ∧
      ∃ grant, (retried.foldl (ReserveNode.step 1) (.start reserveExample)).handlers.map (·.phase) =
          [.answered (.ok grant), .answered (.ok grant)] ∧
        (retried.foldl (ReserveNode.step 1) (.start reserveExample)).made ([98], 7) = [grant.token] := by
  refine ⟨orderly_requests_are_granted_once 1 reserveExample retried ?_ ?_, ⟨⟨327680, 327681, 1, 1⟩, 1, 60005⟩, by rfl, by rfl⟩
  · exact ⟨by decide, by decide, by decide, by decide, by decide, by decide, by decide, trivial⟩
  refine ⟨orderly_client rfl, orderly_resume rfl rfl ?_, orderly_resume rfl rfl trivial, orderly_resume rfl rfl trivial,
    orderly_resume rfl rfl fun _ => rfl, orderly_client rfl, orderly_resume rfl rfl ?_, trivial⟩
  · refine fun _ => ⟨fun k hk hc => ?_, fun _ _ => not_mem_nil⟩
    rw [mem_singleton.1 hk] at hc
    exact Bool.false_ne_true hc.2
  · refine fun _ => ⟨fun k hk hc => ?_, fun _ _ => not_mem_nil⟩
    -- the first handler has answered, the second one has just arrived
    rcases mem_cons.1 hk with rfl | hk
    · exact Bool.false_ne_true hc.2
    · rw [mem_singleton.1 hk] at hc
      exact Bool.false_ne_true hc.2

end Marekvs
