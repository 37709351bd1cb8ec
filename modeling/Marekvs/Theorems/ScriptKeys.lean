import Marekvs.Engine.DiffKeys
import Marekvs.Theorems.CountedCommands

/-!
# Scripts and their keys

A script's call stays within the script's keys if the bridge knows all keys of the command. Where keys stand at fixed places, the
command table has them. For commands whose keys stand behind their number or behind a word it has none, and the call stays within
the script's keys exactly if all keys that its arguments name are declared. Otherwise the handler works on the records of an
undeclared key at once if the key lies on the script's shard, and if not, its job is in that shard's queue by the time the call is
reported as suspended.
-/

namespace Marekvs

open List Option Function Fallible Ikey Handler ShardCtx Bytes Nat

open Machine (Fault ISIZE_MAX reserve sum Safe eq_of_sum_eq_ok)

open Resp (ascii)

variable {c : Command} {argv declared args : List Bytes} {k key : Bytes} {α : Type} {count : Nat}

/-! ## The command table -/

namespace Command

/-- How the table writes places down. -/
def KeyPlaces.spec : KeyPlaces → KeySpec
  | .nowhere => ⟨0, 0, 0⟩
  | .first => ⟨1, 1, 1⟩
  | .firstTwo => ⟨1, 2, 1⟩
  | .everywhere => ⟨1, -1, 1⟩
  | .pairs => ⟨1, -1, 2⟩
  | .triples => ⟨1, -1, 3⟩
  | .allButLast => ⟨1, -2, 1⟩

/-- The table has the places of all script commands whose keys do not move. -/
theorem keySpec_eq (hsafe : c.scriptSafe = true) (hfixed : c.movable = false) : c.keySpec = c.places.spec := by
  cases c <;> first | rfl | exact Bool.noConfusion hfixed | exact Bool.noConfusion hsafe

theorem ne_diffImport (hsafe : c.scriptSafe = true) : c ≠ .diffImport := by
  rintro rfl
  cases hsafe

/-- Every position a whole number of steps from the first, up to the last. -/
theorem mem_extractKeys (hc : c ≠ .diffImport) {last : Int} {step i : Nat} (hspec : c.keySpec = ⟨1, last, step⟩)
    (hstep : 0 < step) (n : Nat) (hn : 1 + n * step = i) (hk : argv[i]? = some k)
    (hlast : (i : Int) ≤ if last < 0 then argv.length + last else last) : k ∈ c.extractKeys argv := by
  subst hn
  obtain ⟨hlen, hget⟩ := List.getElem?_eq_some_iff.mp hk
  have hmem := mem_keysFrom hstep argv.length n 1 hlast hlen (by omega)
  rw [getD_eq_getElem?_getD, hk] at hmem
  have hpos : ¬ ((step : Int) ≤ 0) := by omega
  simpa only [extractKeys, if_neg hc, hspec, if_neg (show ¬ ((1 : Int) = 0) by decide), if_neg hpos, getD_some,
    cast_one] using hmem

/-- The keys at the places that the table writes down. -/
theorem mem_extractKeys_of_spec (hc : c ≠ .diffImport) {p : KeyPlaces} (hspec : c.keySpec = p.spec) (hk : k ∈ p.keys argv) :
    k ∈ c.extractKeys argv := by
  obtain ⟨i, hi, hget⟩ := KeyPlaces.mem_keys.mp hk
  have hlen := (List.getElem?_eq_some_iff.mp hget).1
  -- in every case: which step the position is, and that it is not beyond the last one
  cases p with
  | nowhere => cases hi
  | first =>
    obtain rfl : i = 1 := by simpa [KeyPlaces.holds] using hi
    exact mem_extractKeys hc hspec one_pos 0 rfl hget (by simp)
  | firstTwo =>
    have hi : i = 1 ∨ i = 2 := by simpa [KeyPlaces.holds] using hi
    obtain rfl | rfl := hi
    · exact mem_extractKeys hc hspec one_pos 0 rfl hget (by simp)
    · exact mem_extractKeys hc hspec one_pos 1 rfl hget (by simp)
  | everywhere =>
    have hi : 1 ≤ i := by simpa [KeyPlaces.holds] using hi
    exact mem_extractKeys hc hspec one_pos (i - 1) (show 1 + (i - 1) * 1 = i by omega) hget (by rw [if_pos (by decide)]; omega)
  | pairs =>
    have hi : i % 2 = 1 := by simpa [KeyPlaces.holds] using hi
    exact mem_extractKeys hc hspec two_pos (i / 2) (show 1 + i / 2 * 2 = i by omega) hget (by rw [if_pos (by decide)]; omega)
  | triples =>
    have hi : i % 3 = 1 := by simpa [KeyPlaces.holds] using hi
    exact mem_extractKeys hc hspec (succ_pos 2) (i / 3) (show 1 + i / 3 * 3 = i by omega) hget
      (by rw [if_pos (by decide)]; omega)
  | allButLast =>
    have hi : 1 ≤ i ∧ i + 1 < argv.length := by simpa [KeyPlaces.holds] using hi
    exact mem_extractKeys hc hspec one_pos (i - 1) (show 1 + (i - 1) * 1 = i by omega) hget (by rw [if_pos (by decide)]; omega)

/-- The keys at a command's places are among those the table gives. -/
theorem mem_extractKeys_of_mem_places (hsafe : c.scriptSafe = true) (hfixed : c.movable = false)
    (hk : k ∈ c.places.keys argv) : k ∈ c.extractKeys argv :=
  mem_extractKeys_of_spec (ne_diffImport hsafe) (keySpec_eq hsafe hfixed) hk

end Command

/-! ## The keys of the handlers -/

theorem mem_understood {x : Except Fault (Except Reply α)} {keys : α → List Bytes} :
    k ∈ understood x keys ↔ ∃ a, x = .ok (.ok a) ∧ k ∈ keys a := by
  constructor
  · intro hk
    match x with
    | .ok (.ok a) => exact ⟨a, rfl, hk⟩
    | .ok (.error r) => cases hk
    | .error f => cases hk
  · rintro ⟨a, rfl, hk⟩
    exact hk

/-- The keys of a command that has enough arguments. -/
theorem mem_of_arity {x : Except Fault (Except Reply α)} {keys : α → List Bytes} {m n : Nat} :
    k ∈ (if m < n then [] else understood x keys) ↔ ¬ m < n ∧ ∃ a, x = .ok (.ok a) ∧ k ∈ keys a := by
  rw [mem_ite_nil_left, mem_understood]

namespace Handler

variable {F : Bytes → Prop} {P : Bytes → (ShardCtx → ShardCtx) → Prop}

theorem visits_lmpopInner (left : Bool) (count : Nat) (keys : List Bytes) (hkeys : ∀ k ∈ keys, MayWrite F P k) :
    (lmpopInner left count keys).Visits F P := by
  induction keys with
  | nil => trivial
  | cons key keys ih =>
    refine visits_onKey (hkeys key mem_cons_self) fun ctx r _ => ?_
    obtain ⟨ctx, popped⟩ := r
    match popped with
    | none => trivial
    | some [] => exact ih fun k hk => hkeys k (mem_cons_of_mem _ hk)
    | some (v :: values) => trivial

theorem visits_zmpopInner (max : Bool) (count : Nat) (keys : List Bytes) (hkeys : ∀ k ∈ keys, MayWrite F P k) :
    (zmpopInner max count keys).Visits F P := by
  induction keys with
  | nil => trivial
  | cons key keys ih =>
    refine visits_onKey (hkeys key mem_cons_self) fun ctx r _ => ?_
    obtain ⟨ctx, popped⟩ := r
    match popped with
    | none => trivial
    | some [] => exact ih fun k hk => hkeys k (mem_cons_of_mem _ hk)
    | some (v :: items) => trivial

theorem visits_zmpopInner_first (hbig : ISIZE_MAX < (count + 1) * SIZE_OF_SCORED) (keys : List Bytes)
    (hkeys : ∀ k ∈ keys.take 1, MayWrite F P k) : (zmpopInner true count keys).Visits F P := by
  cases keys with
  | nil => trivial
  | cons key keys =>
    refine visits_onKey (hkeys key mem_cons_self) fun ctx r hr => ?_
    -- either the key holds another type, or the job fails
    unfold tryZpop at hr
    split at hr
    · cases hr
      trivial
    · obtain ⟨v, hv, -⟩ := bind_eq_ok.1 hr
      exact ((safe_popVictims.1 ⟨v, hv⟩).elim nofun hbig.not_ge).elim

theorem visits_interCard (items : Bytes → ShardCtx → Option (List Bytes)) (early : Bool) (limit : Nat) (keys : List Bytes)
    (hkeys : ∀ k ∈ keys, MayRead F P k) (acc : Option (List Bytes)) : (interCard items early limit keys acc).Visits F P := by
  induction keys generalizing acc with
  | nil => trivial
  | cons key keys ih =>
    refine visits_readKey (hkeys key mem_cons_self) fun members => ?_
    cases members with
    | none => trivial
    | some members =>
      have hrest : ∀ acc, (interCard items early limit keys acc).Visits F P := ih fun k hk => hkeys k (mem_cons_of_mem _ hk)
      cases acc with
      | none =>
        dsimp only
        split
        · trivial
        · exact hrest _
      | some cur =>
        dsimp only
        split
        · trivial
        · exact hrest _

theorem visits_zsetopMaps (env : Env) {next : List ScoreMap → Handler} (hnext : ∀ maps, (next maps).Visits F P)
    (pairs : List (Bytes × UInt64)) (hpairs : ∀ p ∈ pairs, MayRead F P p.1) (maps : List ScoreMap) :
    (zsetopMaps env next pairs maps).Visits F P := by
  induction pairs generalizing maps with
  | nil => exact hnext maps
  | cons pair pairs ih =>
    refine visits_readKey (hpairs pair mem_cons_self) fun items => ?_
    cases items with
    | none => trivial
    | some items => exact ih (fun p hp => hpairs p (mem_cons_of_mem _ hp)) _

theorem visits_zsetop (env : Env) (args : List Bytes) (op : ZSetOp) (storeDst : Bool)
    (hK : ¬ args.length < (if storeDst then 4 else 3) →
      ∀ p, parseZsetop env args storeDst (if storeDst then 2 else 1) = .ok (.ok p) →
      ¬ ISIZE_MAX < p.1.length * SIZE_OF_HASH_MAP →
        (∀ k ∈ p.1, MayRead F P k) ∧ (storeDst = true → MayWrite F P (args.getD 1 []))) :
    (zsetop env args op storeDst).Visits F P := by
  unfold zsetop
  by_cases hlen : args.length < if storeDst then 4 else 3
  · rw [if_pos hlen]
    trivial
  rw [if_neg hlen]
  refine visits_parsed fun p hp => visits_orFail fun _ hroom => ?_
  have hfits : ¬ ISIZE_MAX < p.1.length * SIZE_OF_HASH_MAP := by
    intro hbig
    rw [reserve, if_neg (not_le.mpr hbig)] at hroom
    cases hroom
  obtain ⟨hread, hwrite⟩ := hK hlen p hp hfits
  refine visits_zsetopMaps env (fun maps => ?_) _ (fun q hq => hread q.1 (of_mem_zip hq).1) _
  cases storeDst with
  | false => trivial
  | true =>
    simp only [↓reduceIte]
    refine visits_onKey (hwrite rfl) fun _ _ _ => ?_
    trivial

theorem visits_xreadInner (count : Option Nat) (pairs : List (Bytes × Bytes)) (hpairs : ∀ p ∈ pairs, MayRead F P p.1)
    (out : List Reply) :
    (xreadInner count pairs out).Visits F P := by
  induction pairs generalizing out with
  | nil => trivial
  | cons pair pairs ih =>
    have hrest : ∀ p ∈ pairs, MayRead F P p.1 := fun p hp => hpairs p (mem_cons_of_mem _ hp)
    refine visits_readKey (hpairs pair mem_cons_self) fun entries => ?_
    match entries with
    | none => trivial
    | some [] => exact ih hrest _
    | some (e :: entries) => exact ih hrest _

theorem getD_mem_toList (h : 1 < args.length) : args.getD 1 [] ∈ args[1]?.toList := by
  rw [getD_eq_getElem?_getD, getElem?_eq_getElem h]
  exact mem_singleton_self _

/-- The handlers written out work on the keys that their arguments name, and write those of them that their command writes. -/
theorem visits_namedKeys (sys : ScriptEnv) (others : Handlers) (hc : c.movable = true) (args : List Bytes)
    (h : ∀ k ∈ namedKeys sys.env c args, F k ∧ ∀ w, (k ∉ c.writeKeys args → ∀ s, w s = s) → P k w) :
    (handlerOf sys others c args).Visits F P := by
  have hread (k : Bytes) (hk : k ∈ namedKeys sys.env c args) : MayRead F P k := ⟨(h k hk).1, fun w hw => (h k hk).2 w fun _ => hw⟩
  have hwrite (k : Bytes) (hk : k ∈ namedKeys sys.env c args) (hw : k ∈ c.writeKeys args) : MayWrite F P k :=
    ⟨(h k hk).1, fun w => (h k hk).2 w fun hnot => absurd hw hnot⟩
  have hzsetop (op : ZSetOp) (storeDst : Bool) (hdst : storeDst = true → c.writeKeys args = args[1]?.toList)
      (hnamed : namedKeys sys.env c args = if args.length < (if storeDst then 4 else 3) then []
        else understood (parseZsetop sys.env args storeDst (if storeDst then 2 else 1)) fun p =>
          if ISIZE_MAX < p.1.length * SIZE_OF_HASH_MAP then [] else p.1 ++ (if storeDst then [args.getD 1 []] else [])) :
      (zsetop sys.env args op storeDst).Visits F P := by
    refine visits_zsetop sys.env args op storeDst fun hlen p hp hfits => ?_
    rw [if_neg hlen, hp, understood, if_neg hfits] at hnamed
    refine ⟨fun k hk => hread k (hnamed ▸ mem_append_left _ hk), ?_⟩
    rintro rfl
    have hlen : 1 < args.length := lt_of_lt_of_le (by decide) (not_lt.1 hlen)
    exact hwrite _ (hnamed ▸ mem_append_right _ mem_cons_self) (hdst rfl ▸ getD_mem_toList hlen)
  cases c with
  | lmpop =>
    simp only [handlerOf, lmpop]
    split
    · trivial
    · rename_i hlen
      refine visits_parsed fun p hp => visits_lmpopInner _ _ _ fun k hk => ?_
      exact hwrite k (mem_of_arity.2 ⟨hlen, p, hp, hk⟩) (mem_understood.2 ⟨p, hp, hk⟩)
  | zmpop =>
    simp only [handlerOf, zmpop]
    split
    · trivial
    rename_i hlen
    refine visits_parsed fun p hp => ?_
    have hkeys : ∀ k ∈ (if p.2.1 ∧ ISIZE_MAX < (p.2.2 + 1) * SIZE_OF_SCORED then p.1.take 1 else p.1), MayWrite F P k := by
      intro k hk
      refine hwrite k (mem_of_arity.2 ⟨hlen, p, hp, hk⟩) (mem_understood.2 ⟨p, hp, ?_⟩)
      split at hk
      · exact mem_of_mem_take hk
      · exact hk
    obtain ⟨keys, max, count⟩ := p
    by_cases hbig : max = true ∧ ISIZE_MAX < (count + 1) * SIZE_OF_SCORED
    · rw [if_pos hbig] at hkeys
      obtain ⟨rfl, hbig⟩ := hbig
      exact visits_zmpopInner_first hbig keys hkeys
    · rw [if_neg hbig] at hkeys
      exact visits_zmpopInner max count keys hkeys
  | sintercard =>
    simp only [handlerOf, sintercard]
    split
    · trivial
    · rename_i hlen
      refine visits_parsed fun p hp => visits_interCard _ _ _ _ (fun k hk => ?_) _
      exact hread k (mem_of_arity.2 ⟨hlen, p, hp, hk⟩)
  | zintercard =>
    simp only [handlerOf, zintercard]
    split
    · trivial
    · rename_i hlen
      refine visits_parsed fun p hp => visits_interCard _ _ _ _ (fun k hk => ?_) _
      exact hread k (mem_of_arity.2 ⟨hlen, p, hp, hk⟩)
  | zunion => exact hzsetop .union false (absurd · Bool.false_ne_true) rfl
  | zinter => exact hzsetop .inter false (absurd · Bool.false_ne_true) rfl
  | zdiff => exact hzsetop .diff false (absurd · Bool.false_ne_true) rfl
  | zunionstore => exact hzsetop .union true (fun _ => rfl) rfl
  | zinterstore => exact hzsetop .inter true (fun _ => rfl) rfl
  | zdiffstore => exact hzsetop .diff true (fun _ => rfl) rfl
  | xread =>
    simp only [handlerOf, xread]
    refine visits_parsed fun p hp => visits_xreadInner _ _ (fun q hq => ?_) _
    exact hread q.1 (mem_understood.2 ⟨p, hp, mem_map_of_mem hq⟩)
  | xinfo =>
    simp only [handlerOf, xinfo]
    refine visits_parsed fun key hkey => visits_readKey (hread key ?_) fun _ => trivial
    exact mem_understood.2 ⟨key, hkey, mem_cons_self⟩
  | _ => cases hc

theorem within_namedKeys {K : Bytes → Prop} (sys : ScriptEnv) (others : Handlers) (hc : c.movable = true) (args : List Bytes)
    (hK : ∀ k ∈ namedKeys sys.env c args, K k) : (handlerOf sys others c args).Within K :=
  Routine.within_iff.2 (visits_namedKeys sys others hc args fun k hk => ⟨hK k hk, fun _ _ => hK k hk⟩)

end Handler

/-! ## Calls that stay within the keys -/

theorem mem_declared_of_find {keys : List Bytes} (h : keys.find? (· ∉ declared) = none) : ∀ k ∈ keys, k ∈ declared := by
  intro k hk
  simpa using find?_eq_none.mp h k hk

variable (sys : ScriptEnv)

/-- The handler of a call that passed the bridge. -/
theorem within_dispatch (others : Handlers) (node : ScriptNode) (hsafe : c.scriptSafe = true)
    (htable : ∀ k ∈ c.extractKeys argv, k ∈ declared)
    (hnamed : c.guardCommand argv = none → ∀ k ∈ namedKeys sys.env c argv, k ∈ declared) :
    (dispatch sys others node c argv).Within (· ∈ declared) := by
  unfold dispatch
  cases hguard : c.guardCommand argv with
  | some r => trivial
  | none =>
    dsimp only
    split
    · trivial
    split
    · trivial
    cases hmov : c.movable with
    | true => exact within_namedKeys sys others hmov argv (hnamed hguard)
    | false =>
      have hothers : handlerOf sys others c argv = others.handler c argv := by
        cases c <;> first | rfl | cases hmov
      rw [hothers]
      refine Routine.Within.mono (fun k hk => ?_) _ (others.within c argv hsafe hmov)
      exact htable k (Command.mem_extractKeys_of_mem_places hsafe hmov hk)

theorem bridgeCall_of_passes (others : Handlers) (pid : Pid) (declared : List Bytes) (node : ScriptNode)
    (hcall : calledCommand sys argv = some c)
    (hsafe : c.scriptSafe = true) (htable : (c.extractKeys argv).find? (· ∉ declared) = none) :
    bridgeCall sys others pid declared argv node =
      let polled := (dispatch sys others node c argv).poll (fun k => sys.shardOf (pidOf k) = sys.shardOf pid) sys.answer node.host
      (polled.1.getD (.ok suspended), polled.2) := by
  cases argv with
  | nil => cases hcall
  | cons name rest =>
    have hfind : (Command.find (sys.toUppercase (sys.lossy name))).filter Command.scriptSafe = some c :=
      filter_eq_some_iff.mpr ⟨hcall, hsafe⟩
    simp only [bridgeCall, hfind, htable]

/-- A call changes nothing, or the bridge lets it pass: the handler is polled, and the keys of the table are declared. -/
theorem bridgeCall_cases (others : Handlers) (pid : Pid) (declared argv : List Bytes) (node : ScriptNode) :
    (bridgeCall sys others pid declared argv node).2 = node.host ∨
      ∃ c, calledCommand sys argv = some c ∧ c.scriptSafe = true ∧ (∀ k ∈ c.extractKeys argv, k ∈ declared) ∧
        (bridgeCall sys others pid declared argv node).2 = ((dispatch sys others node c argv).poll
          (fun k => sys.shardOf (pidOf k) = sys.shardOf pid) sys.answer node.host).2 := by
  cases argv with
  | nil => exact .inl rfl
  | cons name rest =>
    unfold bridgeCall
    dsimp only
    split
    · exact .inl rfl
    rename_i c hc
    obtain ⟨hfind, hsafe⟩ := filter_eq_some_iff.mp hc
    split
    · exact .inl rfl
    · rename_i hnone
      exact .inr ⟨c, hfind, hsafe, mem_declared_of_find hnone, rfl⟩

/-- What a call must name. -/
def Declares (declared argv : List Bytes) : Prop :=
  ∀ c, calledCommand sys argv = some c → c.guardCommand argv = none → ∀ k ∈ namedKeys sys.env c argv, k ∈ declared

/-- A call that names declared keys only stays within them. -/
theorem bridgeCall_stays (others : Handlers) (pid : Pid) (node : ScriptNode)
    (h : Declares sys declared argv) : Host.Stays (· ∈ declared) node.host (bridgeCall sys others pid declared argv node).2 := by
  rcases bridgeCall_cases sys others pid declared argv node with heq | ⟨c, hfind, hsafe, htable, heq⟩
  · rw [heq]
    exact Host.Stays.refl _ _
  · rw [heq]
    exact Routine.poll_stays _ _ _ (within_dispatch sys others node hsafe htable (h c hfind)) _

/-! ## Records on which a handler comes to all its keys -/

/-- A shard that has no records, and no cursor that says otherwise. -/
structure Blank (ctx : ShardCtx) : Prop where
  db : ctx.db = ∅
  hints : ∀ pre v : Bytes, ctx.popHints[pre]? = some v → v = []

namespace Blank

variable {ctx : ShardCtx}

theorem getRaw (h : Blank ctx) (ikey : Bytes) : ctx.db.getRaw ikey = none := by
  rw [h.db]
  exact Std.ExtTreeMap.getElem?_empty

theorem scanPrefix (h : Blank ctx) (pre : Bytes) : ctx.db.scanPrefix pre = [] := by
  rw [h.db]
  rfl

theorem checkType (h : Blank ctx) (key : Bytes) (t : Ctype) : ctx.checkType key t = some 0 := by
  simp [ShardCtx.checkType, Db.checkType, Db.recordLive, Db.getHead, h.getRaw]

/-- A cursor that says that nothing is there changes nothing. -/
theorem insert_hint (h : Blank ctx) (pre : Bytes) : Blank { ctx with popHints := ctx.popHints.insert pre [] } := by
  refine ⟨h.db, fun q v hv => ?_⟩
  rw [Std.ExtTreeMap.getElem?_insert] at hv
  split at hv
  · exact (some.inj hv).symm
  · exact h.hints q v hv

theorem listRange (h : Blank ctx) (key : Bytes) (del : UInt64) : ∃ ctx', ctx.listRange key del = (ctx', none) ∧ Blank ctx' := by
  have hrecover : ctx.recover key del = (ctx.setEmpty key, none) := by
    simp [ShardCtx.recover, ShardCtx.scanMinmax, ShardCtx.livePairs, h.scanPrefix]
  unfold ShardCtx.listRange ShardCtx.getHint
  cases hhint : ctx.popHints[ShardCtx.hintKey key]? with
  | none => exact ⟨_, hrecover, h.insert_hint _⟩
  | some v =>
    obtain rfl := h.hints _ v hhint
    exact ⟨ctx, rfl, h⟩

theorem tryPopMany (h : Blank ctx) (key : Bytes) (left : Bool) (count : Nat) :
    ∃ ctx', Marekvs.tryPopMany key left count ctx = .ok (ctx', some []) ∧ Blank ctx' := by
  obtain ⟨ctx', hrange, hblank⟩ := h.listRange key 0
  refine ⟨ctx', ?_, hblank⟩
  simp only [Marekvs.tryPopMany, h.checkType, hrange]

theorem popScoredCandidates (h : Blank ctx) (key : Bytes) (del : UInt64) (limit : Nat) :
    ∃ ctx', ctx.popScoredCandidates key del limit = (ctx', []) ∧ Blank ctx' := by
  unfold ShardCtx.popScoredCandidates ShardCtx.getPopHint
  cases hhint : ctx.popHints[collectionPrefix .zsetScore key]? with
  | none =>
    refine ⟨ctx.setPopHintEmpty (collectionPrefix .zsetScore key), ?_, h.insert_hint _⟩
    simp [hhint, h.scanPrefix, popWalk, notePop]
  | some v =>
    obtain rfl := h.hints _ v hhint
    exact ⟨ctx, by simp [hhint], h⟩

theorem scoredMembers (h : Blank ctx) (key : Bytes) (del : UInt64) : ctx.scoredMembers key del = [] := by
  simp [ShardCtx.scoredMembers, h.scanPrefix]

theorem tryZpop (h : Blank ctx) (key : Bytes) {max : Bool} (hfits : ¬ (max = true ∧ ISIZE_MAX < (count + 1) * SIZE_OF_SCORED)) :
    ∃ ctx', Marekvs.tryZpop key max count ctx = .ok (ctx', some []) ∧ Blank ctx' := by
  have hvictims : ∃ ctx', popVictims key 0 max count ctx = .ok (ctx', []) ∧ Blank ctx' := by
    cases max with
    | false =>
      obtain ⟨ctx', hctx', hblank⟩ := h.popScoredCandidates key 0 count
      exact ⟨ctx', congrArg Except.ok hctx', hblank⟩
    | true =>
      have hroom : (count + 1) * SIZE_OF_SCORED ≤ ISIZE_MAX := by simpa using hfits
      have hword : count + 1 < 2 ^ 64 := by
        rw [ISIZE_MAX_eq, SIZE_OF_SCORED] at hroom
        omega
      refine ⟨ctx, ?_, h⟩
      rw [popVictims, if_pos rfl, Machine.sum, if_pos hword]
      change (reserve SIZE_OF_SCORED (count + 1) >>= fun _ => _) = _
      have hnone : lastFirst count ([] : List (UInt64 × Bytes)) = [] := by simp [lastFirst]
      rw [reserve, if_pos hroom, h.scoredMembers, hnone]
      rfl
  obtain ⟨ctx', hctx', hblank⟩ := hvictims
  refine ⟨ctx', ?_, hblank⟩
  simp only [Marekvs.tryZpop, zsetDelHlc, h.checkType, hctx']
  rfl

theorem setItems (h : Blank ctx) (key : Bytes) : Handler.setItems key ctx = some [] := by
  have htype : ctx.db.checkType key .set ctx.nowMs = some 0 := h.checkType key .set
  simp [Handler.setItems, Db.smembers, htype, Db.setMembers, h.scanPrefix]

theorem scoredItems (h : Blank ctx) (key : Bytes) : Handler.scoredItems key ctx = some [] := by
  simp [Handler.scoredItems, zsetDelHlc, h.checkType, h.scoredMembers]

theorem xreadEntries (h : Blank ctx) (key id : Bytes) (count : Option Nat) : Marekvs.xreadEntries key id count ctx = some [] := by
  have hentries : ctx.collectEntries key 0 = [] := by simp [collectEntries, h.scanPrefix]
  simp only [Marekvs.xreadEntries, h.checkType, hentries, filter_nil, map_nil]
  split
  · rfl
  · cases count <;> simp

end Blank

/-- The member of `oneMember`. -/
def memberM : Bytes := [109]

/-- A shard on which a key holds a sorted set with one member, whose score is zero. -/
def oneMember (key : Bytes) : ShardCtx :=
  { emptyCtx with
    db := (Db.putRaw ∅ (zsetMemberKey key memberM) (elementAdd .zsetMember 1 1 (Bytes.ofU64 0))).putRaw
      (zsetScoreKey key (encodeScore 0) memberM) [] }

theorem oneMember_getRaw_of_ne {ikey : Bytes} (hmember : zsetMemberKey key memberM ≠ ikey)
    (hscore : zsetScoreKey key (encodeScore 0) memberM ≠ ikey) : (oneMember key).db.getRaw ikey = none := by
  have hdb : (oneMember key).db = (Db.putRaw ∅ (zsetMemberKey key memberM)
    (elementAdd .zsetMember 1 1 (ofU64 0))).putRaw (zsetScoreKey key (encodeScore 0) memberM) [] := rfl
  rw [hdb, Db.getRaw_putRaw_of_ne _ hscore, Db.getRaw_putRaw_of_ne _ hmember]
  exact Std.ExtTreeMap.getElem?_empty

theorem oneMember_checkType : (oneMember key).checkType key .zset = some 0 := by
  have hstring : (oneMember key).db.getRaw (stringKey key) = none :=
    oneMember_getRaw_of_ne (elemKey_ne_simple (by decide) _ _ _ _) (elemKey_ne_simple (by decide) _ _ _ _)
  have hlist : (oneMember key).db.getRaw (listKey key) = none :=
    oneMember_getRaw_of_ne (elemKey_ne_simple (by decide) _ _ _ _) (elemKey_ne_simple (by decide) _ _ _ _)
  have hhead : (oneMember key).db.getRaw (headKey key) = none :=
    oneMember_getRaw_of_ne (elemKey_ne (by decide) _ _ _ _) (elemKey_ne (by decide) _ _ _ _)
  simp [checkType, Db.checkType, Db.recordLive, Db.getHead, hstring, hlist, hhead]

theorem oneMember_memberScore : (oneMember key).memberScore key memberM 0 = some 0 := by
  have hget : (oneMember key).getRaw (zsetMemberKey key memberM) = some (elementAdd .zsetMember 1 1 (ofU64 0)) := by
    have hne : zsetScoreKey key (encodeScore 0) memberM ≠ zsetMemberKey key memberM :=
      elemKey_ne (by decide) _ _ _ _
    exact (Db.getRaw_putRaw_of_ne _ hne _).trans (Db.getRaw_putRaw_self _ _ _)
  rw [ShardCtx.memberScore, ShardCtx.readLww, hget]
  rfl

theorem mem_zsetItems_oneMember (hlen : key.length < 2 ^ 64) :
    ∃ items, Handler.zsetItems key (oneMember key) = some items ∧ memberM ∈ items := by
  refine ⟨((oneMember key).scoredMembers key 0).map Prod.snd, ?_, ?_⟩
  · simp [zsetItems, scoredItems, zsetDelHlc, oneMember_checkType]
  refine mem_map.mpr ⟨(0, memberM), mem_filterMap.mpr ⟨(zsetScoreKey key (encodeScore 0) memberM, []), ?_, ?_⟩, rfl⟩
  · rw [Db.mem_scanPrefix]
    exact ⟨Db.getRaw_putRaw_self _ _ _, collectionPrefix_isPrefix_iff.mpr ⟨_, rfl⟩⟩
  have hparse := parse_elemKey (by decide : Tag.zsetScore.isSimple = false) key (ofU64 (encodeScore 0) ++ memberM) hlen
  have hkey : parse (zsetScoreKey key (encodeScore 0) memberM) = _ := hparse
  have hdrop : (ofU64 (encodeScore 0) ++ memberM).drop 8 = memberM := by decide
  have htake : (ofU64 (encodeScore 0) ++ memberM).take 8 = ofU64 (encodeScore 0) := by decide
  have hlen8 : ¬ (ofU64 (encodeScore 0) ++ memberM).length < 8 := by decide
  simp only [indexEntry, hkey, if_neg hlen8, hdrop, htake, oneMember_memberScore, toU64_ofU64, if_true]

namespace Handler

variable {s : Bytes → ShardCtx}

theorem trace_onKey {f : ShardCtx → Except Fault (ShardCtx × α)} {next : α → Handler} {ctx : ShardCtx} {a : α}
    (h : f (s key) = .ok (ctx, a)) :
    (onKey key f next).trace s = key :: key :: (next a).trace (Function.update s key ctx) := by
  simp only [onKey, Routine.trace, h, orFail]

theorem trace_readKey {f : ShardCtx → α} {next : α → Handler} :
    (readKey key f next).trace s = key :: key :: (next (f (s key))).trace s := by
  simp only [readKey, Routine.trace, id, update_eq_self]

theorem blank_update (hs : ∀ k, Blank (s k)) (key : Bytes) {ctx : ShardCtx} (h : Blank ctx) :
    ∀ k, Blank (Function.update s key ctx k) := by
  intro k
  by_cases hk : k = key
  · rw [hk, update_self]
    exact h
  · rw [update_of_ne hk]
    exact hs k

/-- A job on a key comes to the key, and then to the keys of what follows. -/
theorem mem_cons_cons {keys rest : List Bytes} (hk : k ∈ key :: keys) (hrest : k ∈ keys → k ∈ rest) : k ∈ key :: key :: rest := by
  rcases mem_cons.mp hk with rfl | hk
  · exact mem_cons_self
  · exact mem_cons_of_mem _ (mem_cons_of_mem _ (hrest hk))

theorem mem_trace_lmpopInner (left : Bool) (count : Nat) (keys : List Bytes) (hs : ∀ k, Blank (s k)) :
    ∀ k ∈ keys, k ∈ (lmpopInner left count keys).trace s := by
  induction keys generalizing s with
  | nil => exact nofun
  | cons key keys ih =>
    intro k hk
    obtain ⟨ctx, hpop, hblank⟩ := (hs key).tryPopMany key left count
    rw [lmpopInner, trace_onKey hpop]
    exact mem_cons_cons hk (ih (blank_update hs key hblank) k)

theorem mem_trace_zmpopInner {max : Bool} (hfits : ¬ (max = true ∧ ISIZE_MAX < (count + 1) * SIZE_OF_SCORED))
    (keys : List Bytes) (hs : ∀ k, Blank (s k)) : ∀ k ∈ keys, k ∈ (zmpopInner max count keys).trace s := by
  induction keys generalizing s with
  | nil => exact nofun
  | cons key keys ih =>
    intro k hk
    obtain ⟨ctx, hpop, hblank⟩ := (hs key).tryZpop key hfits
    rw [zmpopInner, trace_onKey hpop]
    exact mem_cons_cons hk (ih (blank_update hs key hblank) k)

/-- A cardinality command without an early end reads all keys, if all hold sets. -/
theorem mem_trace_interCard {items : Bytes → ShardCtx → Option (List Bytes)} (limit : Nat) (keys : List Bytes)
    (hitems : ∀ key, (items key (s key)).isSome) (acc : Option (List Bytes)) :
    ∀ k ∈ keys, k ∈ (interCard items false limit keys acc).trace s := by
  induction keys generalizing acc with
  | nil => exact nofun
  | cons key keys ih =>
    intro k hk
    obtain ⟨members, hmembers⟩ := isSome_iff_exists.mp (hitems key)
    rw [interCard, trace_readKey, hmembers]
    exact mem_cons_cons hk fun hk => by cases acc <;> exact ih _ k hk

/-- With an early end it reads all keys if they have a member in common. -/
theorem mem_trace_interCard_early {items : Bytes → ShardCtx → Option (List Bytes)} (limit : Nat) (m : Bytes)
    (keys : List Bytes) (hitems : ∀ key ∈ keys, ∃ members, items key (s key) = some members ∧ m ∈ members)
    (acc : Option (List Bytes)) (hacc : ∀ cur, acc = some cur → m ∈ cur) :
    ∀ k ∈ keys, k ∈ (interCard items true limit keys acc).trace s := by
  induction keys generalizing acc with
  | nil => exact nofun
  | cons key keys ih =>
    intro k hk
    obtain ⟨members, hmembers, hm⟩ := hitems key mem_cons_self
    rw [interCard, trace_readKey, hmembers]
    refine mem_cons_cons hk fun hk => ?_
    have hset : m ∈ members.dedup := mem_dedup.mpr hm
    have hnext (cur : List Bytes) (hcur : m ∈ cur) : k ∈ (interCard items true limit keys (some cur)).trace s :=
      ih (fun key hkey => hitems key (mem_cons_of_mem _ hkey)) (some cur) (fun _ h => some.inj h ▸ hcur) k hk
    have hne (cur : List Bytes) (hcur : m ∈ cur) : ¬ (true && cur.isEmpty) = true := by
      cases cur with
      | nil => cases hcur
      | cons c cs => exact Bool.false_ne_true
    cases acc with
    | none =>
      dsimp only
      rw [if_neg (hne _ hset)]
      exact hnext _ hset
    | some cur =>
      have hcur : m ∈ cur.filter (· ∈ members.dedup) := mem_filter.mpr ⟨hacc cur rfl, decide_eq_true hset⟩
      dsimp only
      rw [if_neg (hne _ hcur)]
      exact hnext _ hcur

/-- The reads of a set operation come to all keys, and then to what follows. -/
theorem mem_trace_zsetopMaps (env : Env) {next : List ScoreMap → Handler} (hs : ∀ k, Blank (s k))
    (pairs : List (Bytes × UInt64)) (hk : k ∈ pairs.map Prod.fst ∨ ∀ maps, k ∈ (next maps).trace s) (maps : List ScoreMap) :
    k ∈ (zsetopMaps env next pairs maps).trace s := by
  induction pairs generalizing maps with
  | nil =>
    rcases hk with hk | hk
    · cases hk
    · exact hk maps
  | cons pair pairs ih =>
    rw [zsetopMaps, trace_readKey, (hs pair.1).scoredItems pair.1]
    rcases hk with hk | hk
    · exact mem_cons_cons hk fun hk => ih (.inl hk) _
    · exact mem_cons_of_mem _ (mem_cons_of_mem _ (ih (.inr hk) _))

theorem mem_trace_xreadInner (count : Option Nat) (hs : ∀ k, Blank (s k)) (pairs : List (Bytes × Bytes)) (out : List Reply) :
    ∀ k ∈ pairs.map Prod.fst, k ∈ (xreadInner count pairs out).trace s := by
  induction pairs generalizing out with
  | nil => exact nofun
  | cons pair pairs ih =>
    intro k hk
    rw [xreadInner, trace_readKey, (hs pair.1).xreadEntries pair.1 pair.2 count]
    exact mem_cons_cons hk (ih out k)

end Handler

theorem parseZsetop_length {env : Env} {storeDst : Bool} {i : Nat} (hargs : InMemory args) {p : List Bytes × ZSetOpOpts}
    (h : parseZsetop env args storeDst i = .ok (.ok p)) : p.1.length = p.2.weights.length := by
  unfold parseZsetop at h
  split at h
  · cases h
  rename_i n hn
  split at h
  · cases h
  obtain ⟨stop, hstop, h⟩ := bind_eq_ok.1 h
  split at h
  · cases h
  obtain rfl := eq_of_sum_eq_ok hstop
  have hkeys : n.toNat ≤ args.length := by omega
  rw [Machine.span_eq (by omega), ok_bind] at h
  obtain ⟨_, -, h⟩ := bind_eq_ok.1 h
  obtain ⟨r, hr, h⟩ := bind_eq_ok.1 h
  rcases zsetopOpts_cases env storeDst hargs hkeys args.length (i + 1 + n.toNat)
      ⟨List.replicate n.toNat 0x3FF0000000000000, .sum, false⟩ (length_replicate ..) with
    ⟨_, hopts, -⟩ | ⟨opts, hopts, hweights⟩
  · cases hopts.symm.trans hr
    cases h
  cases hopts.symm.trans hr
  cases h
  rw [hweights, length_take, length_drop]
  omega

/-- Every key that the arguments name is one the handler comes to on some records. -/
theorem exists_mem_trace (others : Handlers) (hc : c.movable = true) (hargs : InMemory args) (hk : k ∈ namedKeys sys.env c args) :
    ∃ s, k ∈ (handlerOf sys others c args).trace s := by
  have hblank : ∀ k : Bytes, Blank ((fun _ => emptyCtx) k) := by
    intro _
    refine ⟨rfl, fun pre v hv => ?_⟩
    have hnone : emptyCtx.popHints[pre]? = none := Std.ExtTreeMap.getElem?_empty
    cases (hnone.symm.trans hv)
  have hzsetop (op : ZSetOp) (storeDst : Bool)
      (h : k ∈ (if args.length < (if storeDst then 4 else 3) then []
        else understood (parseZsetop sys.env args storeDst (if storeDst then 2 else 1)) fun p =>
          if ISIZE_MAX < p.1.length * SIZE_OF_HASH_MAP then [] else p.1 ++ (if storeDst then [args.getD 1 []] else []))) :
      k ∈ (Handler.zsetop sys.env args op storeDst).trace fun _ => emptyCtx := by
    obtain ⟨hlen, p, hp, h⟩ := mem_of_arity.mp h
    obtain ⟨hfits, h⟩ := mem_ite_nil_left.mp h
    rw [Handler.zsetop, if_neg hlen, hp]
    simp only [Handler.parsed, Handler.orFail, reserve, if_pos (not_lt.mp hfits)]
    refine mem_trace_zsetopMaps sys.env hblank _ ?_ _
    rw [map_fst_zip (parseZsetop_length hargs hp).le]
    rcases mem_append.mp h with h | h
    · exact .inl h
    refine .inr fun maps => ?_
    cases storeDst with
    | false => cases h
    | true =>
      rw [mem_singleton.mp h]
      exact mem_cons_self
  cases c with
  | lmpop =>
    obtain ⟨hlen, p, hp, hk⟩ := mem_of_arity.mp hk
    refine ⟨fun _ => emptyCtx, ?_⟩
    simp only [handlerOf, Handler.lmpop, if_neg hlen, hp, Handler.parsed, Handler.orFail]
    exact Handler.mem_trace_lmpopInner _ _ _ hblank k hk
  | zmpop =>
    obtain ⟨hlen, ⟨keys, max, count⟩, hp, hk⟩ := mem_of_arity.mp hk
    refine ⟨fun _ => emptyCtx, ?_⟩
    simp only [handlerOf, Handler.zmpop, if_neg hlen, hp, Handler.parsed, Handler.orFail]
    by_cases hbig : max = true ∧ ISIZE_MAX < (count + 1) * SIZE_OF_SCORED
    · rw [if_pos hbig] at hk
      cases keys with
      | nil => cases hk
      | cons key keys =>
        rw [mem_singleton.mp hk]
        exact mem_cons_self
    · rw [if_neg hbig] at hk
      exact Handler.mem_trace_zmpopInner hbig keys hblank k hk
  | sintercard =>
    obtain ⟨hlen, p, hp, hk⟩ := mem_of_arity.mp hk
    refine ⟨fun _ => emptyCtx, ?_⟩
    simp only [handlerOf, Handler.sintercard, if_neg hlen, hp, Handler.parsed, Handler.orFail]
    exact Handler.mem_trace_interCard _ _ (fun key => by rw [(hblank key).setItems]; rfl) _ k hk
  | zintercard =>
    obtain ⟨hlen, p, hp, hk⟩ := mem_of_arity.mp hk
    refine ⟨oneMember, ?_⟩
    simp only [handlerOf, Handler.zintercard, if_neg hlen, hp, Handler.parsed, Handler.orFail]
    have hfollow := parseZintercard_parses hargs
    rw [hp] at hfollow
    obtain ⟨⟨n, -, -, -, hkeys⟩, -⟩ := hfollow
    refine Handler.mem_trace_interCard_early _ memberM _ (fun key hkey => mem_zsetItems_oneMember ?_) none (by rintro _ ⟨⟩) k hk
    rw [hkeys] at hkey
    have hle := hargs.arg_le key (mem_of_mem_drop (mem_of_mem_take hkey))
    rw [ISIZE_MAX_eq] at hle
    omega
  | zunion => exact ⟨_, hzsetop .union false hk⟩
  | zinter => exact ⟨_, hzsetop .inter false hk⟩
  | zdiff => exact ⟨_, hzsetop .diff false hk⟩
  | zunionstore => exact ⟨_, hzsetop .union true hk⟩
  | zinterstore => exact ⟨_, hzsetop .inter true hk⟩
  | zdiffstore => exact ⟨_, hzsetop .diff true hk⟩
  | xread =>
    obtain ⟨p, hp, hk⟩ := mem_understood.mp hk
    refine ⟨fun _ => emptyCtx, ?_⟩
    simp only [handlerOf, xread, Except.ok.inj hp, parsed, orFail]
    exact mem_trace_xreadInner _ hblank _ _ k hk
  | xinfo =>
    obtain ⟨key, hp, hk⟩ := mem_understood.mp hk
    refine ⟨fun _ => emptyCtx, ?_⟩
    simp only [handlerOf, xinfo, Except.ok.inj hp, parsed, orFail, mem_singleton.mp hk]
    exact mem_cons_self
  | _ => cases hc

/-! ## Scripts -/

theorem pidOf_of_mem {pid : Pid} (hpid : scriptPid declared = some pid) (hk : k ∈ declared) : pidOf k = pid := by
  cases declared with
  | nil => cases hk
  | cons key keys =>
    obtain ⟨hall, hpid⟩ := ite_none_right_eq_some.mp hpid
    cases hpid
    rcases mem_cons.mp hk with rfl | hk
    · rfl
    · simpa using all_eq_true.mp hall k hk

/-- Handlers that do nothing. -/
def idleHandlers : Handlers := ⟨fun _ _ => .reply .null, fun _ _ _ _ => trivial⟩

/-- A call that names a key which is not declared comes to such a key, at once or later. -/
theorem exists_touched_undeclared {pid : Pid} (hpid : scriptPid declared = some pid)
    (hargs : InMemory argv) (hcall : calledCommand sys argv = some c) (hguard : c.guardCommand argv = none)
    (hk : k ∈ namedKeys sys.env c argv) (hout : k ∉ declared) :
    ∃ s : Bytes → ShardCtx, ∃ k, k ∉ declared ∧
      k ∈ (bridgeCall sys idleHandlers pid declared argv ⟨⟨s, fun _ => false, [], []⟩, false, false⟩).2.drain.touched := by
  have hmov : c.movable = true := by
    cases c <;> first | rfl | cases hk
  obtain ⟨s, hs⟩ := exists_mem_trace sys idleHandlers hmov hargs hk
  refine ⟨s, ?_⟩
  -- the bridge lets the call through: the command table has no keys for it
  have hsafe : c.scriptSafe = true := by
    cases c <;> first | rfl | cases hmov
  have htable : c.extractKeys argv = [] := by
    cases c <;> first | rfl | cases hmov
  have hdispatch (h : Host Bytes ShardCtx) :
      dispatch sys idleHandlers ⟨h, false, false⟩ c argv = handlerOf sys idleHandlers c argv := by
    simp [dispatch, hguard]
  rw [bridgeCall_of_passes sys idleHandlers pid declared _ hcall hsafe (by rw [htable]; rfl), hdispatch]
  have hmine : ∀ k, k ∈ declared → decide (sys.shardOf (pidOf k) = sys.shardOf pid) = true := by
    intro k hk
    rw [pidOf_of_mem hpid hk]
    exact decide_eq_true rfl
  obtain ⟨q, hq, htouched⟩ :=
    Routine.exists_touched_outside (K := (· ∈ declared)) (fun k => sys.shardOf (pidOf k) = sys.shardOf pid)
    sys.answer hmine (handlerOf sys idleHandlers c argv) ⟨s, fun _ => false, [], []⟩ (fun _ => rfl) ⟨k, hs, hout⟩
  exact ⟨q, hq, Host.touched_drain _ htouched⟩

/-- A call reads and writes records of the script's keys only, and leaves all others as they are, then and when the queues have
been worked off, whatever the records are and whatever the other handlers do, exactly if it names declared keys only. -/
theorem script_call_confined_iff (sys : ScriptEnv) {pid : Pid} {declared argv : List Bytes}
    (hpid : scriptPid declared = some pid) (hargs : InMemory argv) :
    (∀ (others : Handlers) (node : ScriptNode), node.host.queue = [] → node.host.touched = [] →
      (∀ k ∈ (bridgeCall sys others pid declared argv node).2.drain.touched, k ∈ declared) ∧
      ∀ k, k ∉ declared → (bridgeCall sys others pid declared argv node).2.state k = node.host.state k ∧
        (bridgeCall sys others pid declared argv node).2.drain.state k = node.host.state k) ↔
    Declares sys declared argv := by
  constructor
  · intro h c hcall hguard k hk
    by_contra hout
    obtain ⟨s, q, hq, htouched⟩ := exists_touched_undeclared sys hpid hargs hcall hguard hk hout
    exact hq ((h idleHandlers ⟨⟨s, fun _ => false, [], []⟩, false, false⟩ rfl rfl).1 q htouched)
  · intro h others node hqueue htouched
    have hstays := bridgeCall_stays sys others pid node h
    have hdrain := Host.drain_stays (K := (· ∈ declared)) _ fun j hj =>
      (hstays.queue j hj).resolve_left (by rw [hqueue]; exact not_mem_nil)
    refine ⟨fun k hk => ?_, fun k hk => ⟨hstays.state k hk, (hstays.trans hdrain).state k hk⟩⟩
    exact ((hstays.trans hdrain).touched k hk).resolve_left (by rw [htouched]; exact not_mem_nil)

/-! ## Examples -/

/-- Names in upper case, answers that bring nothing, and the given shards. -/
def scriptsOn (shardOf : Pid → Nat) : ScriptEnv := ⟨quietEnv, shardOf, id, id, fun _ ctx => ctx⟩

/-- `LMPOP 1 other LEFT`. -/
def popOther : List Bytes := [ascii "LMPOP", ascii "1", ascii "other", ascii "LEFT"]

/-- A shard where the key `other` holds a list of one element. -/
def listX : ShardCtx :=
  { emptyCtx with nowMs := 1, db := Db.putRaw ∅ (listElemKey (ascii "other") 7) (newLww .list 1 1 (ascii "x") 0) }

def nodeX : ScriptNode := ⟨⟨fun k => if k = ascii "other" then listX else emptyCtx, fun _ => false, [], []⟩, false, false⟩

set_option maxRecDepth 4000 in
theorem find_lmpop : Command.find (ascii "LMPOP") = some .lmpop := by decide

theorem calledCommand_popOther (shardOf : Pid → Nat) : calledCommand (scriptsOn shardOf) popOther = some .lmpop := by
  simp only [calledCommand, popOther, scriptsOn, head?_cons, bind_some, id]
  exact find_lmpop

theorem pop_of_declared_key_confined :
    (bridgeCall (scriptsOn fun _ => 0) idleHandlers (pidOf (ascii "other")) [ascii "other"] popOther nodeX).2.drain.touched ⊆
      [ascii "other"] := by
  have hargs : InMemory popOther := ⟨by decide, by decide⟩
  have hdeclares : Declares (scriptsOn fun _ => 0) [ascii "other"] popOther := by
    intro c hc _ k hk
    obtain rfl : Command.lmpop = c := some.inj ((calledCommand_popOther _).symm.trans hc)
    have hnamed : namedKeys quietEnv .lmpop popOther = [ascii "other"] := rfl
    rw [← hnamed]
    exact hk
  exact ((script_call_confined_iff (scriptsOn fun _ => 0) rfl hargs).2 hdeclares idleHandlers nodeX rfl rfl).1

/-- A script that declares no keys calls `LMPOP 1 other LEFT`. With one shard it gets the element. With a shard for every
partition it is told that the command was suspended, and the element is gone once that shard has worked off its queue. -/
theorem script_pops_undeclared_key :
    scriptPid [] = some 0 ∧ listX.readElem (ascii "other") 7 0 = some (ascii "x") ∧
    (bridgeCall (scriptsOn fun _ => 0) idleHandlers 0 [] popOther nodeX).1 =
      .ok (.array [.bulk (ascii "other"), .array [.bulk (ascii "x")]]) ∧
    (bridgeCall (scriptsOn UInt16.toNat) idleHandlers 0 [] popOther nodeX).1 = .ok suspended ∧
    ((bridgeCall (scriptsOn UInt16.toNat) idleHandlers 0 [] popOther nodeX).2.drain.state (ascii "other")).readElem
      (ascii "other") 7 0 = none := by
  have hpasses (shardOf : Pid → Nat) := bridgeCall_of_passes (scriptsOn shardOf) idleHandlers 0 [] nodeX
    (calledCommand_popOther shardOf) rfl rfl
  rw [hpasses, hpasses]
  refine ⟨rfl, rfl, ?_, ?_, ?_⟩
  · rfl
  · rfl
  · rfl

end Marekvs
