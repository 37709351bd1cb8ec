import Marekvs.Engine.CountedCommands

/-!
# Numbers from clients

When a command that takes an offset, a count or a number of keys comes to a fault. A number of keys is read as an unsigned word
by the sorted-set commands and SINTERCARD, and near the top of its range the sum with a position wraps. A count is a capacity as
it comes. The conditions below say for each command which numbers are harmless, and they are exact for the handlers: a command
that is refused before its handler runs does no harm with any number.
-/

namespace Marekvs

open Option Fallible Nat

open Machine

variable {n : Int} {env : Env} {args : List Bytes} {ctx ctx' : ShardCtx} {left : Bool} {key : Bytes} {count i arity : Nat}
  {read : Bytes → Option Int} {β : Type} {r : Reply} {del : UInt64}

/-- A command lies in memory: no vector has more than `isize::MAX` bytes. -/
structure InMemory (args : List Bytes) : Prop where
  args_le : args.length * SIZE_OF_VEC ≤ ISIZE_MAX
  arg_le : ∀ a ∈ args, a.length ≤ ISIZE_MAX

theorem ISIZE_MAX_eq : ISIZE_MAX = 2 ^ 63 - 1 := rfl

/-! ## Integers -/

theorem readI64_lt (h : readI64 b = some n) : -2 ^ 63 ≤ n ∧ n < 2 ^ 63 := by
  obtain ⟨i, -, rfl⟩ := map_eq_some_iff.1 h
  exact ⟨Int64.le_toInt i, Int64.toInt_lt i⟩

theorem readU64_lt (h : readU64 b = some n) : 0 ≤ n ∧ n < 2 ^ 64 := by
  unfold readU64 at h
  extract_lets digits at h
  rcases ite_none_left_eq_some.1 h with ⟨hn, h⟩
  cases h
  simp only [not_or, not_le] at hn
  exact ⟨Int.natCast_nonneg _, by omega⟩

/-! ## SETRANGE -/

/-- What SETRANGE needs where it comes to write: the end of the patch is an admissible length, unless the string is that long
already. -/
def SetrangeFits (env : Env) (args : List Bytes) (ctx : ShardCtx) : Prop :=
  match args with
  | [_, key, text, patch] =>
    match readI64 text, readString (env.ensureLocal key ctx) key with
    | some offset, some old =>
      isImmutableKey key = true ∨ offset < 0 ∨ patch = [] ∨
        offset.toNat + patch.length ≤ max ISIZE_MAX (old.getD []).length
    | _, _ => True
  | _ => True

theorem safe_patch (v : List UInt8) {patch : Bytes} {offset : Nat} (f : Bytes → Reply × ShardCtx) (hoff : offset < 2 ^ 63)
    (hpatch : patch.length ≤ ISIZE_MAX) :
    Safe (do
      let stop ← sum offset patch.length
      if v.length < stop then reserve 1 stop
      let v := v ++ List.replicate (stop - v.length) 0
      let _ ← span v offset stop
      .ok (f (v.take offset ++ patch ++ v.drop stop)) : Outcome) ↔
      offset + patch.length ≤ max ISIZE_MAX v.length := by
  rw [ISIZE_MAX_eq] at hpatch
  rw [sum_eq (by omega), ok_bind]
  have hspan : Safe (do
      let _ ← span (v ++ List.replicate (offset + patch.length - v.length) 0) offset (offset + patch.length)
      .ok (f ((v ++ List.replicate (offset + patch.length - v.length) 0).take offset ++ patch ++
        (v ++ List.replicate (offset + patch.length - v.length) 0).drop (offset + patch.length))) : Outcome) := by
    rw [span_eq (by rw [List.length_append, List.length_replicate]; omega)]
    exact safe_ok _
  split
  · next hlt =>
    rw [safe_reserve_bind, mul_one]
    constructor
    · rintro ⟨h, -⟩
      exact le_max_of_le_left h
    · intro h
      exact ⟨(le_max_iff.1 h).resolve_right (not_le.2 hlt), hspan⟩
  · next hge => exact iff_of_true hspan (le_max_of_le_right (not_lt.1 hge))

theorem safe_setrange (hargs : InMemory args) : Safe (setrange env args ctx) ↔ SetrangeFits env args ctx := by
  unfold setrange SetrangeFits
  by_cases himm : args[1]?.any isImmutableKey = true
  · rw [if_pos himm]
    refine iff_of_true (safe_ok _) ?_
    split
    · split
      · exact .inl (by simpa using himm)
      · trivial
    · trivial
  rw [if_neg himm]
  split
  · next name key text patch =>
    have hkey : isImmutableKey key = false := by simpa using himm
    dsimp only
    cases hn : readI64 text with
    | none => simp
    | some n =>
      have hlt := (readI64_lt hn).2
      simp only
      split
      · next hneg => cases readString (env.ensureLocal key ctx) key <;> simp [hneg]
      next h0 =>
      cases readString (env.ensureLocal key ctx) key with
      | none => simp
      | some old =>
        simp only [hkey, Bool.false_eq_true, h0, false_or]
        split
        · next hp => simp [hp]
        next hp =>
        rw [or_iff_right hp]
        have hoff : n.toNat < 2 ^ 63 := by omega
        exact safe_patch (old.getD [])
          (fun v => (.int (Int64.ofNat v.length), (env.ensureLocal key ctx).tick.putRaw (Ikey.stringKey key) (writeString
            (env.ensureLocal key ctx).hlcNow (env.ensureLocal key ctx).nodeId v
              (currentTtlDeadline (env.ensureLocal key ctx) key))))
          hoff (hargs.arg_le patch (by simp))
  · simp

/-! ## Pops from lists -/

/-- What LPOP and RPOP need with a count: room for as many replies, where there is a list to pop from. -/
def PopFits (env : Env) (args : List Bytes) (ctx : ShardCtx) : Prop :=
  match args with
  | [_, key, text] =>
    let ctx := env.ensureLocal key ctx
    match readI64 text, ctx.checkType key .list with
    | some n, some del => n < 0 ∨ (ctx.listRange key del).2 = none ∨ n.toNat * SIZE_OF_REPLY ≤ ISIZE_MAX
    | _, _ => True
  | _ => True

theorem safe_pop : Safe (pop env args left ctx) ↔ PopFits env args ctx := by
  unfold pop PopFits
  match args with
  | [] | [_] => simp
  | [_, key] =>
    simp only [List.length_nil, List.head?_nil, popCount, not_lt_zero, if_false]
    refine iff_true_intro ?_
    cases (env.ensureLocal key ctx).checkType key .list with
    | none => exact safe_ok _
    | some del =>
      simp only
      split
      · exact safe_ok _
      · exact safe_ok _
  | [_, key, text] =>
    simp only [List.length_singleton, lt_irrefl, if_false, List.head?_cons, popCount]
    cases readI64 text with
    | none => simp
    | some n =>
      simp only
      by_cases hn : 0 ≤ n
      · rw [if_pos hn]
        simp only
        cases (env.ensureLocal key ctx).checkType key .list with
        | none => simp
        | some del =>
          simp only [Int.not_lt.2 hn, false_or]
          split
          · next hr => simp [hr]
          · next hr =>
            rw [hr, safe_reserve_bind]
            simp
      · rw [if_neg hn]
        simp only
        cases (env.ensureLocal key ctx).checkType key .list <;> simp [Int.not_le.1 hn]
  | _ :: _ :: _ :: _ :: _ => simp

/-- Whether a walk over keys comes to a list that has an element, before it comes to a key of another type; and the shard where
it ends. -/
def findList (env : Env) : List Bytes → ShardCtx → ShardCtx × Option Bool
  | [], ctx => (ctx, some false)
  | key :: keys, ctx =>
    let ctx := env.ensureLocal key ctx
    match ctx.checkType key .list with
    | none => (ctx, none)
    | some del =>
      match ctx.listRange key del with
      | (ctx, none) => findList env keys ctx
      | (ctx, some _) => (ctx, some true)

theorem safe_tryPopMany (left : Bool) (ctx : ShardCtx) (hcount : count * SIZE_OF_VEC ≤ ISIZE_MAX) :
    Safe (tryPopMany key left count ctx) := by
  unfold tryPopMany
  split
  · exact safe_ok _
  split
  · exact safe_ok _
  · rw [safe_reserve_bind]
    exact ⟨hcount, safe_ok _⟩

theorem safe_lmpopInner (env : Env) (left : Bool) (hcount : count * SIZE_OF_VEC ≤ ISIZE_MAX) (keys : List Bytes) :
    ∀ ctx, Safe (lmpopInner env left count keys ctx) := by
  induction keys with
  | nil => exact fun _ => safe_ok _
  | cons key keys ih =>
    intro ctx
    obtain ⟨⟨ctx', popped⟩, h⟩ := safe_tryPopMany left (env.ensureLocal key ctx) hcount
    rw [lmpopInner, h, ok_bind]
    simp only
    split
    · exact safe_ok _
    · exact ih _
    · exact safe_ok _

/-- With a count that is too large, the walk over the keys ends at the first list. -/
theorem lmpopInner_of_large (hcount : ¬ count * SIZE_OF_VEC ≤ ISIZE_MAX) (keys : List Bytes) :
    ∀ ctx, lmpopInner env left count keys ctx =
      match findList env keys ctx with
      | (ctx, none) => .ok (.wrongtype, ctx)
      | (ctx, some false) => .ok (.nullArray, ctx)
      | (_, some true) => .error .capacity := by
  induction keys with
  | nil => exact fun _ => rfl
  | cons key keys ih =>
    intro ctx
    rw [lmpopInner, findList, tryPopMany]
    cases (env.ensureLocal key ctx).checkType key .list with
    | none => rfl
    | some del =>
      simp only
      cases hr : ((env.ensureLocal key ctx).listRange key del) with
      | mk ctx' range =>
        cases range with
        | none => exact ih ctx'
        | some range => rw [reserve, if_neg hcount]; rfl

theorem safe_pollLoop (hpoll : ∀ ctx, Safe (poll ctx)) (n : Nat) : ∀ ctx, Safe (pollLoop env poll n ctx) := by
  induction n with
  | zero => exact fun ctx => safe_ok _
  | succ n ih =>
    intro ctx
    obtain ⟨⟨r, ctx'⟩, h⟩ := hpoll ctx
    rw [pollLoop, h, ok_bind]
    split
    · exact ih _
    · exact safe_ok _

/-- Whether one of a blocking command's polls comes to a list that has an element. -/
def pollsFindList (env : Env) (keys : List Bytes) : Nat → ShardCtx → Bool
  | 0, _ => false
  | n + 1, ctx =>
    match findList env keys ctx with
    | (_, none) => false
    | (ctx, some false) => pollsFindList env keys n (env.meanwhile n ctx)
    | (_, some true) => true

theorem safe_pollLoop_lmpop (keys : List Bytes) (n : Nat) : ∀ ctx,
    Safe (pollLoop env (lmpopInner env left count keys) n ctx) ↔
      pollsFindList env keys n ctx = false ∨ count * SIZE_OF_VEC ≤ ISIZE_MAX := by
  by_cases hcount : count * SIZE_OF_VEC ≤ ISIZE_MAX
  · exact fun ctx => iff_of_true (safe_pollLoop (safe_lmpopInner env left hcount keys) n ctx) (.inr hcount)
  induction n with
  | zero => exact fun ctx => iff_of_true (safe_ok _) (.inl rfl)
  | succ n ih =>
    intro ctx
    rw [pollLoop, pollsFindList, lmpopInner_of_large hcount]
    rcases findList env keys ctx with ⟨ctx', _ | _ | _⟩
    · exact iff_of_true (safe_ok _) (.inl rfl)
    · exact ih _
    · simp [hcount]

/-! ## Keys behind their number -/

/-- `keys` are the `n` arguments behind the number `n` at position `i`. -/
def KeysFollow (read : Bytes → Option Int) (args : List Bytes) (i : Nat) (keys : List Bytes) : Prop :=
  ∃ n : Int, args[i]?.bind read = some n ∧ 0 ≤ n ∧ i + 1 + n.toNat ≤ args.length ∧ keys = (args.drop (i + 1)).take n.toNat

/-- The sum of the number of keys at position `i` and the position behind it does not wrap. -/
def NumkeysFits (read : Bytes → Option Int) (args : List Bytes) (i : Nat) : Prop :=
  ∀ n, args[i]?.bind read = some n → i + 1 + n.toNat < 2 ^ 64

/-- What the reading of a number of keys and of what follows it gives: a fault where the sum wraps, a refusal, or the keys. -/
def Parses {β : Type} (read : Bytes → Option Int) (args : List Bytes) (i : Nat) :
    Except Fault (Except Reply (List Bytes × β)) → Prop
  | .error _ => ¬ NumkeysFits read args i
  | .ok (.error r) => r.isErr = true ∧ NumkeysFits read args i
  | .ok (.ok (keys, _)) => KeysFollow read args i keys ∧ NumkeysFits read args i

theorem NumkeysFits.of_eq_none (h : args[i]?.bind read = none) : NumkeysFits read args i := by
  intro n hn
  cases (h.symm.trans hn)

theorem NumkeysFits.of_eq_some (h : args[i]?.bind read = some n) : NumkeysFits read args i ↔ i + 1 + n.toNat < 2 ^ 64 := by
  constructor
  · exact fun hf => hf n h
  · intro hlt m hm
    cases h.symm.trans hm
    exact hlt

/-- The position of a number that was read lies within the command. -/
theorem InMemory.position_lt (hargs : InMemory args) (h : args[i]?.bind read = some n) : i + 1 < 2 ^ 63 := by
  obtain ⟨a, ha, -⟩ := bind_eq_some_iff.1 h
  have hi : i < args.length := by
    by_contra hge
    rw [List.getElem?_eq_none (by omega)] at ha
    cases ha
  have := hargs.args_le
  rw [SIZE_OF_VEC, ISIZE_MAX_eq] at this
  omega

/-- The beginning that all of them share: read the number, refuse some of those that are not positive, and add the number to the
position behind it. -/
theorem parses_numkeys (hargs : InMemory args) (p : Int → Prop) [DecidablePred p] (hr : r.isErr = true)
    (hp : ∀ n, p n → n ≤ 0) (f : Int → Nat → Except Fault (Except Reply (List Bytes × β)))
    (hf : ∀ n, args[i]?.bind read = some n → ¬ p n → NumkeysFits read args i → Parses read args i (f n (i + 1 + n.toNat))) :
    Parses read args i
      (match args[i]?.bind read with
      | none => .ok (.error .notInt)
      | some n => if p n then .ok (.error r) else sum (i + 1) n.toNat >>= f n) := by
  cases hn : args[i]?.bind read with
  | none => exact ⟨rfl, .of_eq_none hn⟩
  | some n =>
    have hi := hargs.position_lt hn
    simp only
    split
    · next hrefuse =>
      have := hp n hrefuse
      exact ⟨hr, (NumkeysFits.of_eq_some hn).2 (by omega)⟩
    next hrefuse =>
    by_cases hfit : i + 1 + n.toNat < 2 ^ 64
    · rw [sum_eq hfit, ok_bind]
      exact hf n hn hrefuse ((NumkeysFits.of_eq_some hn).2 hfit)
    · rw [sum, if_neg hfit]
      exact fun hfits => hfit (hfits n hn)

theorem mpopCount_isErr (rest : List Bytes) (count : Nat) : ∀ {r}, mpopCount rest count = .error r → r.isErr = true := by
  fun_induction mpopCount rest count <;> grind [Reply.isErr, Reply.notInt, Reply.syntaxError]

theorem mpopTail_parses {yes no : String} (hargs : InMemory args) : Parses read args i (mpopTail read yes no args i) := by
  refine parses_numkeys hargs (· ≤ 0) rfl (fun _ h => h) _ fun n hn h0 hfits => ?_
  split
  · exact ⟨rfl, hfits⟩
  next hlen =>
  obtain ⟨word, hword⟩ : ∃ word, args[i + 1 + n.toNat]? = some word := ⟨_, List.getElem?_eq_getElem (by omega)⟩
  rw [item_eq hword, ok_bind]
  split
  · exact ⟨rfl, hfits⟩
  cases hc : mpopCount (args.drop (i + 1 + n.toNat + 1)) 1 with
  | error r => exact ⟨mpopCount_isErr _ _ hc, hfits⟩
  | ok count =>
    simp only
    rw [span_eq (by omega), ok_bind]
    exact ⟨⟨n, hn, by omega, by omega, rfl⟩, hfits⟩

theorem readU64_at_nonneg (h : args[i]?.bind readU64 = some n) : 0 ≤ n := by
  obtain ⟨a, -, ha⟩ := bind_eq_some_iff.1 h
  exact (readU64_lt ha).1

theorem parseSintercard_parses (hargs : InMemory args) : Parses readU64 args 1 (parseSintercard args) := by
  refine parses_numkeys hargs (· = 0) rfl (fun _ h => le_of_eq h) _ fun n hn _ hfits => ?_
  split
  · exact ⟨rfl, hfits⟩
  next hlen =>
  have hkeys : KeysFollow readU64 args 1 ((args.drop 2).take n.toNat) := ⟨n, hn, readU64_at_nonneg hn, by omega, rfl⟩
  split
  · next hlt =>
    have hmem := hargs.args_le
    rw [SIZE_OF_VEC, ISIZE_MAX_eq] at hmem
    obtain ⟨word, hword⟩ : ∃ word, args[1 + 1 + n.toNat]? = some word := ⟨_, List.getElem?_eq_getElem hlt⟩
    rw [item_eq hword, ok_bind]
    split
    · exact ⟨rfl, hfits⟩
    rw [sum_eq (by omega), ok_bind]
    split
    · exact ⟨rfl, hfits⟩
    · rw [span_eq (by omega), ok_bind]
      exact ⟨hkeys, hfits⟩
  · rw [span_eq (by omega), ok_bind]
    exact ⟨hkeys, hfits⟩

theorem zintercardLimit_isErr (rest : List Bytes) (limit : Nat) :
    ∀ {r}, zintercardLimit rest limit = .error r → r.isErr = true := by
  fun_induction zintercardLimit rest limit <;> grind [Reply.isErr, Reply.notInt, Reply.syntaxError]

theorem parseZintercard_parses (hargs : InMemory args) : Parses readU64 args 1 (parseZintercard args) := by
  refine parses_numkeys hargs (· = 0) rfl (fun _ h => le_of_eq h) _ fun n hn _ hfits => ?_
  split
  · exact ⟨rfl, hfits⟩
  next hlen =>
  cases hl : zintercardLimit (args.drop (1 + 1 + n.toNat)) USIZE_MAX with
  | error r => exact ⟨zintercardLimit_isErr _ _ hl, hfits⟩
  | ok limit =>
    simp only
    rw [span_eq (by omega), ok_bind]
    exact ⟨⟨n, hn, readU64_at_nonneg hn, by omega, rfl⟩, hfits⟩

theorem length_of_mapM_eq_some {xs : List α} {ys : List β} (h : xs.mapM f = some ys) : ys.length = xs.length := by
  induction xs generalizing ys with
  | nil => cases h; rfl
  | cons x xs ih =>
    rw [List.mapM_cons] at h
    obtain ⟨y, -, h⟩ := bind_eq_some_iff.mp h
    obtain ⟨zs, hzs, h⟩ := bind_eq_some_iff.mp h
    cases h
    rw [List.length_cons, List.length_cons, ih hzs]

/-- The options of a set operation are read without a fault, and there are as many weights as keys. -/
theorem zsetopOpts_cases (env : Env) {numkeys : Nat} (storeDst : Bool) (hargs : InMemory args)
    (hkeys : numkeys ≤ args.length) (fuel : Nat) : ∀ idx opts, opts.weights.length = numkeys →
    (∃ r, zsetopOpts env args numkeys storeDst fuel idx opts = .ok (.error r) ∧ r.isErr = true) ∨
      ∃ opts', zsetopOpts env args numkeys storeDst fuel idx opts = .ok (.ok opts') ∧ opts'.weights.length = numkeys := by
  have hmem := hargs.args_le
  rw [SIZE_OF_VEC, ISIZE_MAX_eq] at hmem
  induction fuel with
  | zero => exact fun idx opts hlen => .inr ⟨opts, rfl, hlen⟩
  | succ fuel ih =>
    intro idx opts hlen
    rw [zsetopOpts]
    cases hw : args[idx]? with
    | none => exact .inr ⟨opts, rfl, hlen⟩
    | some word =>
      have hidx : idx < args.length := by
        by_contra hge
        rw [List.getElem?_eq_none (by omega)] at hw
        cases hw
      simp only
      split
      · rw [sum_eq (by omega), ok_bind]
        split
        · exact .inl ⟨_, rfl, rfl⟩
        rw [span_eq (by omega), ok_bind]
        split
        · exact .inl ⟨_, rfl, rfl⟩
        next weights hweights =>
        refine ih _ _ ((length_of_mapM_eq_some hweights).trans ?_)
        rw [List.length_take, List.length_drop]
        omega
      split
      · split
        · exact .inl ⟨_, rfl, rfl⟩
        split
        · exact ih _ _ hlen
        split
        · exact ih _ _ hlen
        split
        · exact ih _ _ hlen
        · exact .inl ⟨_, rfl, rfl⟩
      split
      · exact ih _ _ hlen
      · exact .inl ⟨_, rfl, rfl⟩

theorem parseZsetop_parses (hargs : InMemory args) : Parses readU64 args i (parseZsetop env args storeDst i) := by
  refine parses_numkeys hargs (· = 0) rfl (fun _ h => le_of_eq h) _ fun n hn _ hfits => ?_
  simp only
  split
  · exact ⟨rfl, hfits⟩
  next hlen =>
  have hle : n.toNat ≤ args.length := by omega
  have hroom : n.toNat * SIZE_OF_F64 ≤ ISIZE_MAX := by
    have := hargs.args_le
    rw [SIZE_OF_VEC] at this
    rw [SIZE_OF_F64]
    omega
  rw [span_eq (by omega), ok_bind, reserve, if_pos hroom, ok_bind]
  rcases zsetopOpts_cases env storeDst hargs hle args.length (i + 1 + n.toNat)
      ⟨List.replicate n.toNat 0x3FF0000000000000, .sum, false⟩ (List.length_replicate ..) with ⟨r, hr, herr⟩ | ⟨opts, hopts, -⟩
  · rw [hr, ok_bind]
    exact ⟨herr, hfits⟩
  · rw [hopts, ok_bind]
    exact ⟨⟨n, hn, readU64_at_nonneg hn, by omega, rfl⟩, hfits⟩

/-- EVAL's number of keys is a signed one, whose sum with a position never wraps. -/
theorem parseEval_fits : NumkeysFits readI64 args 2 := by
  intro n hn
  obtain ⟨a, -, ha⟩ := bind_eq_some_iff.1 hn
  have := (readI64_lt ha).2
  omega

theorem parseEval_parses (hargs : InMemory args) : Parses readI64 args 2 (parseEval args) := by
  refine parses_numkeys hargs (· < 0) rfl (fun _ h => le_of_lt h) _ fun n hn h0 hfits => ?_
  split
  · exact ⟨rfl, hfits⟩
  · next hlen =>
    rw [span_eq (by omega), ok_bind, span, if_pos ⟨by omega, le_rfl⟩, ok_bind]
    exact ⟨⟨n, hn, by omega, by omega, rfl⟩, hfits⟩

/-- The condition of a command that has at least `arity` arguments, reads a number of keys at `i`, and goes on with what is
read. -/
def ParsedFits {β : Type} (arity : Nat) (read : Bytes → Option Int) (args : List Bytes) (i : Nat)
    (x : Except Fault (Except Reply (List Bytes × β))) (fits : List Bytes → β → Prop) : Prop :=
  args.length < arity ∨ NumkeysFits read args i ∧ ∀ keys opts, x = .ok (.ok (keys, opts)) → fits keys opts

/-- A command that goes on with what it has read, or replies with the refusal. -/
theorem safe_parsed {x : Except Fault (Except Reply (List Bytes × β))} (hx : Parses read args i x)
    {refusal : Reply × ShardCtx} {k : Except Reply (List Bytes × β) → Outcome} (hrefused : ∀ r, Safe (k (.error r)))
    {fits : List Bytes → β → Prop} (hk : ∀ keys opts, Safe (k (.ok (keys, opts))) ↔ fits keys opts) :
    Safe (if args.length < arity then .ok refusal else x >>= k : Outcome) ↔ ParsedFits arity read args i x fits := by
  unfold ParsedFits
  split
  · next h => exact iff_of_true (safe_ok _) (.inl h)
  next h =>
  rw [or_iff_right h]
  match x, hx with
  | .error f, hx => exact iff_of_false (not_safe_error _) fun h => hx h.1
  | .ok (.error r), hx => exact iff_of_true (hrefused r) ⟨hx.2, nofun⟩
  | .ok (.ok (keys, opts)), hx =>
    constructor
    · intro h
      refine ⟨hx.2, ?_⟩
      rintro _ _ ⟨⟩
      exact (hk _ _).1 h
    · exact fun h => (hk _ _).2 (h.2 keys opts rfl)

/-! ## LMPOP and BLMPOP -/

/-- What LMPOP needs: room for as many strings as the count says, if the walk over its keys comes to a list. -/
def LmpopFits (env : Env) (args : List Bytes) (ctx : ShardCtx) : Prop :=
  ParsedFits 4 readI64 args 1 (parseLmpopTail args 1) fun keys opts =>
    (findList env keys ctx).2 ≠ some true ∨ opts.2 * SIZE_OF_VEC ≤ ISIZE_MAX

theorem safe_lmpop (hargs : InMemory args) : Safe (lmpop env args ctx) ↔ LmpopFits env args ctx := by
  refine safe_parsed (mpopTail_parses hargs) (fun _ => safe_ok _) fun keys opts => ?_
  show Safe (lmpopInner env opts.1 opts.2 keys ctx) ↔ _
  by_cases hcount : opts.2 * SIZE_OF_VEC ≤ ISIZE_MAX
  · exact iff_of_true (safe_lmpopInner env opts.1 hcount keys ctx) (.inr hcount)
  · rw [lmpopInner_of_large hcount, or_iff_left hcount]
    rcases findList env keys ctx with ⟨ctx', _ | _ | _⟩ <;> simp

/-- What BLMPOP needs: room for as many strings as the count says, if one of its polls comes to a list. -/
def BlmpopFits (env : Env) (args : List Bytes) (ctx : ShardCtx) : Prop :=
  args[1]?.any env.isTimeout = false ∨
    ParsedFits 5 readI64 args 2 (parseLmpopTail args 2) fun keys opts =>
      pollsFindList env keys (env.polls + 1) ctx = false ∨ opts.2 * SIZE_OF_VEC ≤ ISIZE_MAX

/-- A timeout that is refused is refused before anything is read, but after the arguments are counted. -/
theorem safe_blocking {timeout : Bool} {r₁ r₂ : Reply × ShardCtx} {x : Outcome} :
    Safe (if args.length < arity then .ok r₁ else if !timeout then .ok r₂ else x) ↔
      timeout = false ∨ Safe (if args.length < arity then .ok r₁ else x) := by
  by_cases h : args.length < arity
  · simp [h]
  · cases timeout <;> simp [h]

theorem safe_blmpop (hargs : InMemory args) : Safe (blmpop env args ctx) ↔ BlmpopFits env args ctx := by
  refine safe_blocking.trans (or_congr_right ?_)
  exact safe_parsed (mpopTail_parses hargs) (fun _ => safe_ok _) fun keys opts => safe_pollLoop_lmpop keys _ ctx

/-! ## Pops from sorted sets -/

theorem safe_popVictims {max : Bool} {n : Nat} :
    Safe (popVictims key del max n ctx) ↔ max = false ∨ (n + 1) * SIZE_OF_SCORED ≤ ISIZE_MAX := by
  cases max with
  | false => exact iff_of_true (safe_ok _) (.inl rfl)
  | true =>
    simp only [popVictims, if_true, Bool.true_eq_false, false_or]
    by_cases hfit : n + 1 < 2 ^ 64
    · rw [sum_eq hfit, ok_bind, safe_reserve_bind]
      simp
    rw [sum, if_neg hfit]
    refine iff_of_false (not_safe_error _) fun h => hfit ?_
    rw [SIZE_OF_SCORED, ISIZE_MAX_eq] at h
    omega

/-- What ZPOPMIN and ZPOPMAX need: room for one member more than the count says, where the high end of a sorted set is popped. -/
def ZpopFits (env : Env) (max : Bool) (args : List Bytes) (ctx : ShardCtx) : Prop :=
  match args with
  | [_, key, text] =>
    match readI64 text with
    | some n => max = false ∨ n < 0 ∨ (env.ensureLocal key ctx).zsetDelHlc key = none ∨ (n.toNat + 1) * SIZE_OF_SCORED ≤ ISIZE_MAX
    | none => True
  | _ => True

/-- What follows the walk does not fault. -/
theorem safe_zpop_tail {f : ShardCtx × List (UInt64 × Bytes) → Reply × ShardCtx} :
    Safe (do let r ← x; .ok (f r) : Outcome) ↔ Safe x := by
  rw [safe_bind]
  exact exists_congr fun a => and_iff_left (safe_ok _)

theorem safe_zpop {max : Bool} : Safe (zpop env args max ctx) ↔ ZpopFits env max args ctx := by
  unfold zpop ZpopFits
  match args with
  | [] | [_] => simp
  | [_, key] =>
    simp only [List.length_nil, List.head?_nil, popCount, not_lt_zero, if_false, getD_none]
    refine iff_true_intro ?_
    cases (env.ensureLocal key ctx).zsetDelHlc key with
    | none => exact safe_ok _
    | some del => exact safe_zpop_tail.2 (safe_popVictims.2 (.inr (by decide)))
  | [_, key, text] =>
    simp only [List.length_singleton, lt_irrefl, if_false, List.head?_cons, popCount]
    cases readI64 text with
    | none => simp
    | some n =>
      simp only
      by_cases hn : 0 ≤ n
      · rw [if_pos hn]
        simp only [Int.not_lt.2 hn, false_or, getD_some]
        cases (env.ensureLocal key ctx).zsetDelHlc key with
        | none => simp
        | some del =>
          simp only [reduceCtorEq, false_or]
          exact safe_zpop_tail.trans safe_popVictims
      · simp [hn, Int.not_le.1 hn]
  | _ :: _ :: _ :: _ :: _ => simp

/-- What a walk of ZMPOP over its keys needs: room for one member more than the count says, where the high end is popped and the
first key holds no other type. -/
def ZmpopInnerFits (env : Env) (ctx : ShardCtx) (keys : List Bytes) (opts : Bool × Nat) : Prop :=
  opts.1 = false ∨ (opts.2 + 1) * SIZE_OF_SCORED ≤ ISIZE_MAX ∨
    ∀ key, keys.head? = some key → (env.ensureLocal key ctx).zsetDelHlc key = none

theorem safe_tryZpop (key : Bytes) {max : Bool} (ctx : ShardCtx)
    (h : max = false ∨ (count + 1) * SIZE_OF_SCORED ≤ ISIZE_MAX) : Safe (tryZpop key max count ctx) := by
  unfold tryZpop
  split
  · exact safe_ok _
  next del _ =>
  obtain ⟨r, hr⟩ : Safe (popVictims key del max count ctx) := safe_popVictims.2 h
  rw [hr]
  exact safe_ok _

theorem safe_zmpopInner (env : Env) {max : Bool} (h : max = false ∨ (count + 1) * SIZE_OF_SCORED ≤ ISIZE_MAX)
    (keys : List Bytes) : ∀ ctx, Safe (zmpopInner env max count keys ctx) := by
  induction keys with
  | nil => exact fun _ => safe_ok _
  | cons key keys ih =>
    intro ctx
    obtain ⟨⟨ctx', popped⟩, hr⟩ := safe_tryZpop key (env.ensureLocal key ctx) h
    rw [zmpopInner, hr, ok_bind]
    simp only
    split
    · exact safe_ok _
    · exact ih _
    · exact safe_ok _

/-- With a count that is too large, the walk ends at the first key. -/
theorem zmpopInner_of_large (hcount : ¬ (count + 1) * SIZE_OF_SCORED ≤ ISIZE_MAX) (key : Bytes) (keys : List Bytes)
    (ctx : ShardCtx) :
    ((env.ensureLocal key ctx).zsetDelHlc key = none ∧
      zmpopInner env true count (key :: keys) ctx = .ok (.wrongtype, env.ensureLocal key ctx)) ∨
    ((env.ensureLocal key ctx).zsetDelHlc key ≠ none ∧ ¬ Safe (zmpopInner env true count (key :: keys) ctx)) := by
  rw [zmpopInner, tryZpop]
  cases (env.ensureLocal key ctx).zsetDelHlc key with
  | none => exact .inl ⟨rfl, rfl⟩
  | some del =>
    refine .inr ⟨nofun, fun hs => hcount ?_⟩
    obtain ⟨a, ha, -⟩ := safe_bind.1 hs
    obtain ⟨b, hb, -⟩ := bind_eq_ok.1 ha
    exact (safe_popVictims.1 ⟨b, hb⟩).resolve_left nofun

theorem safe_pollLoop_zmpop (n : Nat) (ctx : ShardCtx) :
    Safe (pollLoop env (zmpopInner env opts.1 opts.2 keys) (n + 1) ctx) ↔ ZmpopInnerFits env ctx keys opts := by
  by_cases hfit : opts.1 = false ∨ (opts.2 + 1) * SIZE_OF_SCORED ≤ ISIZE_MAX
  · exact iff_of_true (safe_pollLoop (safe_zmpopInner env hfit keys) _ ctx) (hfit.imp_right .inl)
  obtain ⟨hmax, hcount⟩ := not_or.1 hfit
  obtain ⟨max, count⟩ := opts
  cases Bool.of_not_eq_false hmax
  have hcond : ZmpopInnerFits env ctx keys (true, count) ↔
      ∀ key, keys.head? = some key → (env.ensureLocal key ctx).zsetDelHlc key = none := by
    rw [ZmpopInnerFits, or_iff_right hmax, or_iff_right hcount]
  rw [hcond]
  cases keys with
  | nil => exact iff_of_true (safe_pollLoop (fun _ => safe_ok _) _ ctx) nofun
  | cons key keys =>
    simp only [List.head?_cons, some.injEq, forall_eq', pollLoop]
    rcases zmpopInner_of_large hcount key keys ctx with ⟨hnone, h⟩ | ⟨hsome, h⟩
    · rw [h]
      exact iff_of_true (safe_ok _) hnone
    · refine iff_of_false (fun hs => h ?_) hsome
      obtain ⟨a, ha, -⟩ := safe_bind.1 hs
      exact ⟨a, ha⟩

theorem safe_zmpopInner_iff : Safe (zmpopInner env opts.1 opts.2 keys ctx) ↔ ZmpopInnerFits env ctx keys opts := by
  rw [← safe_pollLoop_zmpop 0 ctx, pollLoop, safe_bind]
  constructor
  · rintro ⟨⟨r, ctx'⟩, h⟩
    refine ⟨_, h, ?_⟩
    split <;> exact safe_ok _
  · rintro ⟨a, ha, -⟩
    exact ⟨a, ha⟩

def ZmpopFits (env : Env) (args : List Bytes) (ctx : ShardCtx) : Prop :=
  ParsedFits 4 readU64 args 1 (parseZmpopTail args 1) (ZmpopInnerFits env ctx)

theorem safe_zmpop (hargs : InMemory args) : Safe (zmpop env args ctx) ↔ ZmpopFits env args ctx :=
  safe_parsed (mpopTail_parses hargs) (fun _ => safe_ok _) fun _ _ => safe_zmpopInner_iff

def BzmpopFits (env : Env) (args : List Bytes) (ctx : ShardCtx) : Prop :=
  args[1]?.any env.isTimeout = false ∨ ParsedFits 5 readU64 args 2 (parseZmpopTail args 2) (ZmpopInnerFits env ctx)

theorem safe_bzmpop (hargs : InMemory args) : Safe (bzmpop env args ctx) ↔ BzmpopFits env args ctx := by
  refine safe_blocking.trans (or_congr_right ?_)
  exact safe_parsed (mpopTail_parses hargs) (fun _ => safe_ok _) fun _ _ => safe_pollLoop_zmpop _ ctx

/-! ## ZRANDMEMBER -/

/-- What ZRANDMEMBER needs: room for its replies, where the key is a sorted set that has a member. -/
def RandFits (env : Env) (args : List Bytes) (ctx : ShardCtx) : Prop :=
  match args with
  | _ :: key :: text :: rest =>
    let ctx := env.ensureLocal key ctx
    match readI64 text, ctx.zsetDelHlc key with
    | some n, some del =>
      1 < rest.length ∨ rest.any (!eqIgnoreCase · "WITHSCORES") = true ∨ ctx.scoredMembers key del = [] ∨
        randTake n (ctx.scoredMembers key del).length * (rest.length + 1) * SIZE_OF_REPLY ≤ ISIZE_MAX
    | _, _ => True
  | _ => True

/-- As many members as are asked for, of as many as are asked for. -/
theorem randTake_limited (n : Int) (members : List (UInt64 × Bytes)) :
    randTake n (members.take (max n.natAbs 1)).length = randTake n members.length := by
  unfold randTake
  split
  · rfl
  · rw [List.length_take]
    omega

theorem safe_rand_reserve {r : Reply × ShardCtx} :
    Safe (do
      reserve SIZE_OF_REPLY (cells % 2 ^ 64)
      reserve SIZE_OF_REPLY cells
      .ok r : Outcome) ↔ cells * SIZE_OF_REPLY ≤ ISIZE_MAX := by
  rw [safe_reserve_bind, safe_reserve_bind]
  constructor
  · exact fun h => h.2.1
  · intro h
    refine ⟨?_, h, safe_ok _⟩
    exact (mul_le_mul_right _ (mod_le _ _)).trans h

theorem safe_randReply_none : Safe (randReply key del none withscores ctx) := by
  unfold randReply
  dsimp only
  cases ctx.scoredMembersLimited key del (max ((Option.map Int.natAbs none).getD 1) 1) with
  | nil => exact safe_ok _
  | cons first rest => exact safe_ok _

theorem safe_randReply :
    Safe (randReply key del (some n) withscores ctx) ↔ ctx.scoredMembers key del = [] ∨
      randTake n (ctx.scoredMembers key del).length * (if withscores then 2 else 1) * SIZE_OF_REPLY ≤ ISIZE_MAX := by
  unfold randReply
  simp only [ShardCtx.scoredMembersLimited, map_some, getD_some]
  cases ctx.scoredMembers key del with
  | nil => exact iff_of_true (by simp) (.inl rfl)
  | cons first rest =>
    have hlimited := randTake_limited n (first :: rest)
    obtain ⟨k, hk⟩ : ∃ k, max n.natAbs 1 = k + 1 := ⟨max n.natAbs 1 - 1, by omega⟩
    rw [hk] at hlimited ⊢
    rw [← hlimited, List.take_succ_cons, or_iff_right nofun]
    exact safe_rand_reserve

theorem safe_zrandmember : Safe (zrandmember env args ctx) ↔ RandFits env args ctx := by
  unfold zrandmember RandFits
  match args with
  | [] | [_] => simp
  | [_, key] =>
    simp only [List.length_nil, not_lt_zero, if_false, List.getElem?_nil, any_none, bind_none,
      Bool.false_eq_true]
    refine iff_true_intro ?_
    cases (env.ensureLocal key ctx).zsetDelHlc key with
    | none => exact safe_ok _
    | some del => exact safe_randReply_none
  | [_, key, text] =>
    dsimp only
    rw [if_neg (by simp), if_neg (by simp)]
    cases (env.ensureLocal key ctx).zsetDelHlc key with
    | none => cases readI64 text <;> simp
    | some del =>
      simp only [List.getElem?_cons_zero, bind_some]
      cases readI64 text with
      | none => exact iff_true_intro safe_randReply_none
      | some n =>
        rw [safe_randReply]
        simp
  | [_, key, text, word] =>
    dsimp only
    rw [if_neg (by simp)]
    by_cases hword : (!eqIgnoreCase word "WITHSCORES") = true
    · rw [if_pos (by simpa using hword)]
      refine iff_of_true (safe_ok _) ?_
      split
      · exact .inr (.inl (by simpa using hword))
      · trivial
    rw [if_neg (by simpa using hword)]
    cases (env.ensureLocal key ctx).zsetDelHlc key with
    | none => cases readI64 text <;> simp
    | some del =>
      simp only [List.getElem?_cons_zero, bind_some]
      cases readI64 text with
      | none => exact iff_true_intro safe_randReply_none
      | some n =>
        rw [safe_randReply]
        simp [hword]
  | _ :: _ :: _ :: _ :: _ :: _ =>
    dsimp only
    rw [if_pos (by simp)]
    refine iff_of_true (safe_ok _) ?_
    split
    · exact .inl (by simp)
    · trivial

/-! ## Cardinalities and set operations -/

def SintercardFits (args : List Bytes) : Prop := ParsedFits 3 readU64 args 1 (parseSintercard args) fun _ _ => True

theorem safe_sintercard (hargs : InMemory args) : Safe (sintercard env args ctx) ↔ SintercardFits args :=
  safe_parsed (parseSintercard_parses hargs) (fun _ => safe_ok _) fun _ _ => iff_true_intro (safe_ok _)

def ZintercardFits (args : List Bytes) : Prop := ParsedFits 3 readU64 args 1 (parseZintercard args) fun _ _ => True

theorem safe_zintercard (hargs : InMemory args) : Safe (zintercard env args ctx) ↔ ZintercardFits args :=
  safe_parsed (parseZintercard_parses hargs) (fun _ => safe_ok _) fun _ _ => iff_true_intro (safe_ok _)

/-- What a set operation needs: its number of keys does not wrap, and a map for each of them has room. -/
def ZsetopFits (env : Env) (storeDst : Bool) (args : List Bytes) : Prop :=
  ParsedFits (if storeDst then 4 else 3) readU64 args (if storeDst then 2 else 1)
    (parseZsetop env args storeDst (if storeDst then 2 else 1)) fun keys _ => keys.length * SIZE_OF_HASH_MAP ≤ ISIZE_MAX

theorem safe_zsetop (hargs : InMemory args) : Safe (zsetop env args op storeDst ctx) ↔ ZsetopFits env storeDst args := by
  refine safe_parsed (parseZsetop_parses hargs) (fun _ => safe_ok _) fun keys opts => ?_
  show Safe (reserve SIZE_OF_HASH_MAP keys.length >>= fun _ => _) ↔ _
  rw [safe_reserve_bind, and_iff_left]
  split
  · exact safe_ok _
  · cases storeDst <;> exact safe_ok _

/-- EVAL is its arguments' reading behind the count of them. -/
theorem eval_eq :
    eval env args ctx =
      if args.length < 3 then .ok (.wrongArgs "eval", ctx)
      else parseEval args >>= fun
        | .error r => .ok (r, ctx)
        | .ok (keys, argv) => .ok (env.evalSource (args.getD 1 []) keys argv ctx) := by
  match args with
  | [] | [_] | [_, _] => rfl
  | _ :: _ :: _ :: _ =>
    rw [if_neg (by simp)]
    rfl

theorem safe_eval (hargs : InMemory args) : Safe (eval env args ctx) := by
  rw [eval_eq]
  refine (safe_parsed (parseEval_parses hargs) (fun _ => safe_ok _) fun _ _ => iff_true_intro (safe_ok _)).2 ?_
  exact .inr ⟨parseEval_fits, fun _ _ _ => trivial⟩

/-! ## All commands -/

namespace CountedCommand

/-- Which numbers a command takes without a fault. -/
def Fits (env : Env) (args : List Bytes) (ctx : ShardCtx) : CountedCommand → Prop
  | setrange => SetrangeFits env args ctx
  | lpop | rpop => PopFits env args ctx
  | lmpop => LmpopFits env args ctx
  | blmpop => BlmpopFits env args ctx
  | zpopmin => ZpopFits env false args ctx
  | zpopmax => ZpopFits env true args ctx
  | zmpop => ZmpopFits env args ctx
  | bzmpop => BzmpopFits env args ctx
  | zrandmember => RandFits env args ctx
  | sintercard => SintercardFits args
  | zintercard => ZintercardFits args
  | zunion | zinter | zdiff => ZsetopFits env false args
  | zunionstore | zinterstore | zdiffstore => ZsetopFits env true args
  | eval => True

theorem safe_exec_iff (hargs : InMemory args) (c : CountedCommand) : Safe (c.exec env args ctx) ↔ c.Fits env args ctx := by
  cases c with
  | setrange => exact safe_setrange hargs
  | lpop | rpop => exact safe_pop
  | lmpop => exact safe_lmpop hargs
  | blmpop => exact safe_blmpop hargs
  | zpopmin | zpopmax => exact safe_zpop
  | zmpop => exact safe_zmpop hargs
  | bzmpop => exact safe_bzmpop hargs
  | zrandmember => exact safe_zrandmember
  | sintercard => exact safe_sintercard hargs
  | zintercard => exact safe_zintercard hargs
  | zunion | zinter | zdiff | zunionstore | zinterstore | zdiffstore => exact safe_zsetop hargs
  | eval => exact iff_true_intro (safe_eval hargs)

end CountedCommand

/-- A command refuses, or goes on with the keys that follow their number. -/
theorem error_or_keys (hx : Parses read args i x) (hrefusal : refusal.1.isErr = true)
    {k : Except Reply (List Bytes × β) → Outcome} (hk : ∀ r, k (.error r) = .ok (r, ctx))
    (h : (if args.length < arity then .ok refusal else x >>= k : Outcome) = .ok (r, ctx')) :
    r.isErr = true ∨ ∃ keys, x.map (·.map Prod.fst) = .ok (.ok keys) ∧ KeysFollow read args i keys := by
  split at h
  · cases h
    exact .inl hrefusal
  match x, hx with
  | .error f, hx => cases h
  | .ok (.error r'), hx =>
    rw [ok_bind, hk] at h
    cases h
    exact .inl hx.1
  | .ok (.ok (keys, opts)), hx => exact .inr ⟨keys, rfl, hx.1⟩

theorem error_or_blocking
    (h : (if args.length < arity then .ok (r₁, ctx) else if !timeout then .ok (r₂, ctx) else x : Outcome) = .ok (r, ctx'))
    (hr₂ : r₂.isErr = true)
    (hx : (if args.length < arity then .ok (r₁, ctx) else x : Outcome) = .ok (r, ctx') → r.isErr = true ∨ p) :
    r.isErr = true ∨ p := by
  cases timeout with
  | true => exact hx h
  | false =>
    by_cases hlen : args.length < arity
    · rw [if_pos hlen] at h hx
      exact hx h
    · rw [if_neg hlen] at h
      cases h
      exact .inl hr₂

namespace CountedCommand

theorem error_or_keys_of_exec (hargs : InMemory args) {c : CountedCommand} (h : c.exec env args ctx = .ok (r, ctx'))
    (hx : c.keys env args = some x) :
    r.isErr = true ∨ ∃ keys, x = .ok (.ok keys) ∧ KeysFollow c.readNumkeys args c.numkeysAt keys := by
  cases c with
  | setrange | lpop | rpop | zpopmin | zpopmax | zrandmember => cases hx
  | lmpop =>
    cases hx
    exact error_or_keys (mpopTail_parses hargs) rfl (fun _ => rfl) h
  | blmpop =>
    cases hx
    exact error_or_blocking h rfl fun h => error_or_keys (mpopTail_parses hargs) rfl (fun _ => rfl) h
  | zmpop =>
    cases hx
    exact error_or_keys (mpopTail_parses hargs) rfl (fun _ => rfl) h
  | bzmpop =>
    cases hx
    exact error_or_blocking h rfl fun h => error_or_keys (mpopTail_parses hargs) rfl (fun _ => rfl) h
  | sintercard =>
    cases hx
    exact error_or_keys (parseSintercard_parses hargs) rfl (fun _ => rfl) h
  | zintercard =>
    cases hx
    exact error_or_keys (parseZintercard_parses hargs) rfl (fun _ => rfl) h
  | zunion | zinter | zdiff =>
    cases hx
    exact error_or_keys (parseZsetop_parses hargs) rfl (fun _ => rfl) h
  | zunionstore | zinterstore | zdiffstore =>
    cases hx
    exact error_or_keys (parseZsetop_parses hargs) rfl (fun _ => rfl) h
  | eval =>
    cases hx
    exact error_or_keys (parseEval_parses hargs) rfl (fun _ => rfl) (eval_eq.symm.trans h)

end CountedCommand

/-- A command comes to no fault exactly on the numbers that fit it, and a command with a number of keys replies with an error or
uses exactly the keys that follow the number. -/
theorem counted_command_safe_iff (env : Env) (c : CountedCommand) {args : List Bytes} (ctx : ShardCtx) (hargs : InMemory args) :
    (Safe (c.exec env args ctx) ↔ c.Fits env args ctx) ∧
      ∀ r ctx' x, c.exec env args ctx = .ok (r, ctx') → c.keys env args = some x →
        r.isErr = true ∨ ∃ keys, x = .ok (.ok keys) ∧ KeysFollow c.readNumkeys args c.numkeysAt keys :=
  ⟨c.safe_exec_iff hargs, fun _ _ _ h hx => CountedCommand.error_or_keys_of_exec hargs h hx⟩

/-- Nothing happens but the command, and no text is a number with a fraction. -/
def quietEnv : Env where
  ensureLocal _ ctx := ctx
  meanwhile _ ctx := ctx
  polls := 0
  isTimeout _ := true
  parseF64 _ := none
  mulF64 a _ := a
  addF64 a _ := a
  minF64 a _ := a
  maxF64 a _ := a
  evalSource _ _ _ ctx := (.null, ctx)

/-- A node without a record. -/
def emptyCtx : ShardCtx := ⟨∅, ∅, 1, 0, 0⟩

open Resp (ascii)

theorem union_of_one_key_safe : Safe (CountedCommand.zunion.exec quietEnv [ascii "ZUNION", ascii "1", ascii "k"] emptyCtx) := by
  have hargs : InMemory [ascii "ZUNION", ascii "1", ascii "k"] := ⟨by decide, by decide⟩
  refine (counted_command_safe_iff quietEnv .zunion emptyCtx hargs).1.2 (.inr ⟨?_, ?_⟩)
  · intro n hn
    cases (show ([ascii "ZUNION", ascii "1", ascii "k"][1]?.bind readU64) = some 1 by decide).symm.trans hn
    decide
  · intro keys opts hparse
    have hone : parseZsetop quietEnv [ascii "ZUNION", ascii "1", ascii "k"] false 1 =
        .ok (.ok ([ascii "k"], ⟨[0x3FF0000000000000], .sum, false⟩)) := rfl
    cases hone.symm.trans hparse
    decide

/-- `ZUNION 18446744073709551615 k`: in the source the sum is 1, the comparison passes, and `args[2..1]` stops the node.
`ZPOPMAX k 9223372036854775807`, `SETRANGE k 9223372036854775807 x`: memory that no vector may have. -/
theorem client_integers_fault :
    CountedCommand.zunion.exec quietEnv [ascii "ZUNION", ascii "18446744073709551615", ascii "k"] emptyCtx = .error .wrapped ∧
    CountedCommand.zpopmax.exec quietEnv [ascii "ZPOPMAX", ascii "k", ascii "9223372036854775807"] emptyCtx = .error .capacity ∧
    CountedCommand.setrange.exec quietEnv [ascii "SETRANGE", ascii "k", ascii "9223372036854775807", ascii "x"] emptyCtx =
      .error .capacity := by
  refine ⟨?_, ?_, ?_⟩
  · rfl
  · rfl
  · rfl

end Marekvs
