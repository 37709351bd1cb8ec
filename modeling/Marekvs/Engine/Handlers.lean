import Marekvs.Lib.Routine
import Marekvs.Engine.Streams

/-!
# Handlers as routines

For every key it comes to, a handler has the key fetched if another node holds it, and then hands a job to the shard that owns the
key. All internal keys of such a job hold the user key, so that a handler is a routine over the records by user key.

On one shard these are the handlers as functions of the shard (`run_lmpop` and the others).
-/

namespace Marekvs

open Machine (Fault sum reserve)

abbrev Handler : Type := Routine Bytes ShardCtx (Except Fault Reply)

namespace Handler

def reply (r : Reply) : Handler := .done (.ok r)

def fail (f : Fault) : Handler := .done (.error f)

/-- Go on with what was computed, or stop. -/
def orFail {α : Type} (x : Except Fault α) (next : α → Handler) : Handler :=
  match x with
  | .ok a => next a
  | .error f => fail f

/-- Go on with arguments that were understood, or refuse them. -/
def parsed {α : Type} (x : Except Fault (Except Reply α)) (next : α → Handler) : Handler :=
  orFail x fun r =>
    match r with
    | .ok a => next a
    | .error r => reply r

/-- Fetch a key and run a job on its shard. -/
def onKey {α : Type} (key : Bytes) (f : ShardCtx → Except Fault (ShardCtx × α)) (next : α → Handler) : Handler :=
  .fetch key <| .job key
    (fun ctx => match f ctx with
      | .ok r => r.1
      | .error _ => ctx)
    (fun ctx => orFail (f ctx) fun r => next r.2)

def readKey {α : Type} (key : Bytes) (f : ShardCtx → α) (next : α → Handler) : Handler :=
  .fetch key <| .job key id fun ctx => next (f ctx)

/-! ## Pops -/

def lmpopInner (left : Bool) (count : Nat) : List Bytes → Handler
  | [] => reply .nullArray
  | key :: keys => onKey key (tryPopMany key left count) fun
    | none => reply .wrongtype
    | some [] => lmpopInner left count keys
    | some values => reply (.array [.bulk key, .array (values.map .bulk)])

variable (args : List Bytes)

def lmpop : Handler :=
  if args.length < 4 then reply (.wrongArgs "lmpop")
  else parsed (parseLmpopTail args 1) fun p => lmpopInner p.2.1 p.2.2 p.1

def zmpopInner (max : Bool) (count : Nat) : List Bytes → Handler
  | [] => reply .nullArray
  | key :: keys => onKey key (tryZpop key max count) fun
    | none => reply .wrongtype
    | some [] => zmpopInner max count keys
    | some items => reply (zmpopReply key items)

def zmpop : Handler :=
  if args.length < 4 then reply (.wrongArgs "zmpop")
  else parsed (parseZmpopTail args 1) fun p => zmpopInner p.2.1 p.2.2 p.1

/-! ## Cardinalities -/

def setItems (key : Bytes) (ctx : ShardCtx) : Option (List Bytes) := ctx.db.smembers key ctx.nowMs

/-- The members of a sorted set with their scores. -/
def scoredItems (key : Bytes) (ctx : ShardCtx) : Option (List (UInt64 × Bytes)) :=
  (ctx.zsetDelHlc key).map (ctx.scoredMembers key)

/-- The members of a sorted set. -/
def zsetItems (key : Bytes) (ctx : ShardCtx) : Option (List Bytes) := (scoredItems key ctx).map (·.map Prod.snd)

def interCard (items : Bytes → ShardCtx → Option (List Bytes)) (early : Bool) (limit : Nat) :
    List Bytes → Option (List Bytes) → Handler
  | [], acc => reply (.int (Int64.ofNat (min (acc.getD []).length limit)))
  | key :: keys, acc => readKey key (items key) fun
    | none => reply .wrongtype
    | some members =>
      let set := members.dedup
      let acc := match acc with
        | none => set
        | some cur => cur.filter (· ∈ set)
      if early && acc.isEmpty then reply (.int (Int64.ofNat (min acc.length limit)))
      else interCard items early limit keys (some acc)

def sintercard : Handler :=
  if args.length < 3 then reply (.wrongArgs "sintercard")
  else parsed (parseSintercard args) fun p => interCard setItems false p.2 p.1 none

def zintercard : Handler :=
  if args.length < 3 then reply (.wrongArgs "zintercard")
  else parsed (parseZintercard args) fun p => interCard zsetItems true p.2 p.1 none

/-! ## Set operations on sorted sets -/

/-- Read the keys one after the other, each into a map with its weight. -/
def zsetopMaps (env : Env) (next : List ScoreMap → Handler) : List (Bytes × UInt64) → List ScoreMap → Handler
  | [], maps => next maps
  | (key, weight) :: rest, maps => readKey key (scoredItems key) fun
    | none => reply .wrongtype
    | some items =>
      let map := items.foldl (fun (m : ScoreMap) i => m.insert i.2 (env.mulF64 i.1 weight)) ∅
      zsetopMaps env next rest (maps ++ [map])

variable (env : Env)

def zsetop (args : List Bytes) (op : ZSetOp) (storeDst : Bool) : Handler :=
  if args.length < (if storeDst then 4 else 3) then reply (.wrongArgs "zsetop")
  else parsed (parseZsetop env args storeDst (if storeDst then 2 else 1)) fun p =>
    orFail (reserve SIZE_OF_HASH_MAP p.1.length) fun _ =>
      zsetopMaps env (fun maps =>
        let out := zsetopResult env op p.2.agg maps
        if storeDst then
          let dst := args.getD 1 []
          onKey dst (fun ctx => .ok (ctx.storeMembers dst out, ())) fun _ => reply (.int (Int64.ofNat out.length))
        else reply (emit out p.2.withscores)) (p.1.zip p.2.weights) []

/-! ## Streams -/

def xreadInner (count : Option Nat) : List (Bytes × Bytes) → List Reply → Handler
  | [], out => reply (if out = [] then .nullArray else .array out)
  | (key, id) :: rest, out => readKey key (xreadEntries key id count) fun
    | none => reply .wrongtype
    | some [] => xreadInner count rest out
    | some entries => xreadInner count rest (out ++ [.array [.bulk key, .array entries]])

def xread : Handler := parsed (.ok (parseXread args)) fun p => xreadInner p.1 p.2 []

def xinfo : Handler := parsed (.ok (parseXinfo args)) fun key => readKey key (xinfoReply key) reply

/-! ## On one shard -/

def run (env : Env) : Handler → ShardCtx → Outcome
  | .done (.ok r), ctx => .ok (r, ctx)
  | .done (.error f), _ => .error f
  | .fetch key next, ctx => run env next (env.ensureLocal key ctx)
  | .job _ write next, ctx => run env (next ctx) (write ctx)

@[simp] theorem run_reply : run env (reply r) ctx = .ok (r, ctx) := rfl

theorem run_orFail (next : α → Handler) (ctx : ShardCtx) :
    run env (orFail x next) ctx = x.bind fun a => run env (next a) ctx := by
  cases x <;> rfl

theorem run_parsed (next : α → Handler) (ctx : ShardCtx) :
    run env (parsed x next) ctx = x.bind fun r =>
      match r with
      | .ok a => run env (next a) ctx
      | .error r => .ok (r, ctx) := by
  rw [parsed, run_orFail]
  congr 1
  funext r
  cases r <;> rfl

theorem run_onKey (f : ShardCtx → Except Fault (ShardCtx × α)) (next : α → Handler) (ctx : ShardCtx) :
    run env (onKey key f next) ctx = (f (env.ensureLocal key ctx)).bind fun r => run env (next r.2) r.1 := by
  rw [onKey, run, run, run_orFail]
  cases f (env.ensureLocal key ctx) <;> rfl

theorem run_readKey (next : α → Handler) (ctx : ShardCtx) :
    run env (readKey key f next) ctx = run env (next (f (env.ensureLocal key ctx))) (env.ensureLocal key ctx) := rfl

theorem run_lmpopInner (left : Bool) (count : Nat) (keys : List Bytes) (ctx : ShardCtx) :
    run env (lmpopInner left count keys) ctx = Marekvs.lmpopInner env left count keys ctx := by
  induction keys generalizing ctx with
  | nil => rfl
  | cons key keys ih =>
    rw [lmpopInner, run_onKey, Marekvs.lmpopInner]
    refine congrArg _ (funext fun r => ?_)
    obtain ⟨ctx, popped⟩ := r
    match popped with
    | none => rfl
    | some [] => exact ih ctx
    | some (v :: values) => rfl

theorem run_lmpop (args : List Bytes) (ctx : ShardCtx) : run env (lmpop args) ctx = Marekvs.lmpop env args ctx := by
  rw [lmpop, Marekvs.lmpop]
  split
  · rfl
  rw [run_parsed]
  refine congrArg _ (funext fun r => ?_)
  match r with
  | .error r => rfl
  | .ok (keys, left, count) => exact run_lmpopInner env left count keys ctx

theorem run_zmpopInner (max : Bool) (count : Nat) (keys : List Bytes) (ctx : ShardCtx) :
    run env (zmpopInner max count keys) ctx = Marekvs.zmpopInner env max count keys ctx := by
  induction keys generalizing ctx with
  | nil => rfl
  | cons key keys ih =>
    rw [zmpopInner, run_onKey, Marekvs.zmpopInner]
    refine congrArg _ (funext fun r => ?_)
    obtain ⟨ctx, popped⟩ := r
    match popped with
    | none => rfl
    | some [] => exact ih ctx
    | some (v :: items) => rfl

theorem run_zmpop (args : List Bytes) (ctx : ShardCtx) : run env (zmpop args) ctx = Marekvs.zmpop env args ctx := by
  rw [zmpop, Marekvs.zmpop]
  split
  · rfl
  rw [run_parsed]
  refine congrArg _ (funext fun r => ?_)
  match r with
  | .error r => rfl
  | .ok (keys, max, count) => exact run_zmpopInner env max count keys ctx

/-- The walk of a cardinality command from a running intersection on. -/
theorem run_interCard
    (hitems : ∀ key ctx, itemsOf key ctx = (env.ensureLocal key ctx, items key (env.ensureLocal key ctx))) (early : Bool)
    (limit : Nat) (keys : List Bytes) (acc : Option (List Bytes)) (ctx : ShardCtx) :
    run env (interCard items early limit keys acc) ctx = .ok (match interLoop itemsOf early keys acc ctx with
      | (ctx, none) => (.wrongtype, ctx)
      | (ctx, some acc) => (.int (Int64.ofNat (min (acc.getD []).length limit)), ctx)) := by
  induction keys generalizing acc ctx with
  | nil => rfl
  | cons key keys ih =>
    rw [interCard, run_readKey, interLoop, hitems]
    cases items key (env.ensureLocal key ctx) with
    | none => rfl
    | some members =>
      cases acc with
      | none =>
        dsimp only
        split
        · rfl
        · exact ih _ _
      | some cur =>
        dsimp only
        split
        · rfl
        · exact ih _ _

theorem run_sintercard (args : List Bytes) (ctx : ShardCtx) :
    run env (sintercard args) ctx = Marekvs.sintercard env args ctx := by
  rw [sintercard, Marekvs.sintercard]
  split
  · rfl
  rw [run_parsed]
  refine congrArg _ (funext fun r => ?_)
  match r with
  | .error r => rfl
  | .ok (keys, limit) => exact run_interCard env (fun _ _ => rfl) false limit keys none ctx

theorem run_zintercard (args : List Bytes) (ctx : ShardCtx) :
    run env (zintercard args) ctx = Marekvs.zintercard env args ctx := by
  rw [zintercard, Marekvs.zintercard]
  split
  · rfl
  rw [run_parsed]
  refine congrArg _ (funext fun r => ?_)
  match r with
  | .error r => rfl
  | .ok (keys, limit) => exact run_interCard env (fun _ _ => rfl) true limit keys none ctx

theorem run_zsetopMaps (maps : List ScoreMap) (ctx : ShardCtx) :
    run env (zsetopMaps env next pairs maps) ctx = match Marekvs.zsetopMaps env pairs ctx with
      | (ctx, none) => .ok (.wrongtype, ctx)
      | (ctx, some more) => run env (next (maps ++ more)) ctx := by
  induction pairs generalizing maps ctx with
  | nil => simp only [zsetopMaps, Marekvs.zsetopMaps, List.append_nil]
  | cons pair pairs ih =>
    obtain ⟨key, weight⟩ := pair
    rw [zsetopMaps, run_readKey, Marekvs.zsetopMaps]
    simp only [zitemsOf, scoredItems]
    cases ((env.ensureLocal key ctx).zsetDelHlc key).map ((env.ensureLocal key ctx).scoredMembers key) with
    | none => rfl
    | some items =>
      dsimp only
      rw [ih]
      rcases Marekvs.zsetopMaps env pairs (env.ensureLocal key ctx) with ⟨ctx, _ | more⟩
      · rfl
      · simp only [List.append_assoc, List.singleton_append]

theorem run_zsetop (args : List Bytes) (op : ZSetOp) (storeDst : Bool) (ctx : ShardCtx) :
    run env (zsetop env args op storeDst) ctx = Marekvs.zsetop env args op storeDst ctx := by
  rw [zsetop, Marekvs.zsetop]
  by_cases hlen : args.length < if storeDst then 4 else 3
  · rw [if_pos hlen, if_pos hlen, run_reply]
  rw [if_neg hlen, if_neg hlen, run_parsed]
  refine congrArg _ (funext fun r => ?_)
  match r with
  | .error r => rfl
  | .ok (keys, opts) =>
    dsimp only
    rw [run_orFail]
    refine congrArg _ (funext fun _ => ?_)
    rw [run_zsetopMaps]
    rcases Marekvs.zsetopMaps env (keys.zip opts.weights) ctx with ⟨ctx, _ | maps⟩
    · rfl
    · dsimp only
      rw [List.nil_append]
      cases storeDst <;> rfl

/-! ## Which keys are visited -/

section

variable {F : Bytes → Prop} {P : Bytes → (ShardCtx → ShardCtx) → Prop} {α : Type} {key : Bytes}

/-- Jobs that only read the key are allowed. -/
def MayRead (F : Bytes → Prop) (P : Bytes → (ShardCtx → ShardCtx) → Prop) (key : Bytes) : Prop :=
  F key ∧ ∀ w, (∀ s, w s = s) → P key w

/-- All jobs on the key are allowed. -/
def MayWrite (F : Bytes → Prop) (P : Bytes → (ShardCtx → ShardCtx) → Prop) (key : Bytes) : Prop := F key ∧ ∀ w, P key w

theorem visits_orFail {next : α → Handler} (h : ∀ a, x = .ok a → (next a).Visits F P) : (orFail x next).Visits F P := by
  cases x with
  | ok a => exact h a rfl
  | error f => trivial

theorem visits_parsed {next : α → Handler} (h : ∀ a, x = .ok (.ok a) → (next a).Visits F P) : (parsed x next).Visits F P := by
  refine visits_orFail fun r hr => ?_
  cases r with
  | ok a => exact h a hr
  | error r => trivial

theorem visits_onKey {next : α → Handler} (hkey : MayWrite F P key)
    (h : ∀ ctx r, f ctx = .ok r → (next r.2).Visits F P) : (onKey key f next).Visits F P :=
  ⟨hkey.1, hkey.2 _, fun ctx => visits_orFail fun r hr => h ctx r hr⟩

theorem visits_readKey (hkey : MayRead F P key) (h : ∀ a, (next a).Visits F P) :
    (readKey key f next).Visits F P := ⟨hkey.1, hkey.2 _ fun _ => rfl, fun _ => h _⟩

end

end Handler

end Marekvs
