import Marekvs.Theorems.ScriptKeys
import Marekvs.Theorems.ReplyFrames

/-!
# Immutable keys

Every key that the grammar takes for a snapshot, a graph or a result is a key that the fence knows. For every command the fence
looks at all places whose keys the handler writes: the command table has them, or the fence has them itself. So a handler that
would write such a key does not start, on a connection, inside `EXEC` and from a script, and nothing but a fetch changes the key's
records.
-/

namespace Marekvs

open Option Bool Fallible Handler

open Machine (Fault eq_of_sum_eq_ok span)

open Resp (ascii)

open Routine (Fetched Spares)

variable {b k : Bytes} {args keys : List Bytes} {c : Command}

/-! ## The two grammars -/

theorem splitOnce_eq (h : splitOnce pat b = some p) : b = p.1 ++ (pat ++ p.2) := by
  induction b generalizing p with
  | nil =>
    rw [splitOnce] at h
    split at h
    · rename_i hpat
      cases h
      simp [hpat]
    · cases h
  | cons c b ih =>
    rw [splitOnce] at h
    split at h
    · rename_i hpat
      cases h
      obtain ⟨rest, hrest⟩ := List.isPrefixOf_iff_prefix.1 hpat
      rw [← hrest, List.drop_left]
      rfl
    · obtain ⟨q, hq, rfl⟩ := map_eq_some_iff.1 h
      rw [ih hq]
      rfl

/-- What is split off is what stands behind the first suffix that opens with the pattern. -/
theorem find_tails_of_splitOnce {pat : Bytes} {p : Bytes × Bytes} (hpat : pat ≠ []) (h : splitOnce pat b = some p) :
    (b.tails.find? fun t => pat.isPrefixOf t).map (·.drop pat.length) = some p.2 := by
  induction b generalizing p with
  | nil =>
    rw [splitOnce, if_neg hpat] at h
    cases h
  | cons c b ih =>
    rw [splitOnce] at h
    rw [List.tails_cons, List.find?_cons]
    split at h
    · rename_i hfirst
      cases h
      rw [hfirst]
      rfl
    · rename_i hfirst
      obtain ⟨q, hq, rfl⟩ := map_eq_some_iff.1 h
      rw [eq_false_iff.2 hfirst]
      have hrest := ih hq
      exact hrest

theorem DiffKey.parse_parts (h : parse isUtf8 k = .ok d) (himm : d.immutable = true) :
    ∃ family rest tail tag kind name, splitOnce (ascii ":\x7b") k = some (family, rest) ∧
      splitOnce (ascii "\x7d:") rest = some (tag, tail) ∧ splitOnce (ascii ":") tail = some (kind, name) ∧
      (family = ascii "doc" ∧ kind = ascii "s" ∨ family = ascii "diff" ∧ (kind = ascii "g" ∨ kind = ascii "r")) := by
  unfold parse at h
  split at h
  · cases h
  split at h
  · cases h
  next family rest hfamily =>
  split at h
  · cases h
  next tag tail htag =>
  split at h
  · cases h
  next kind name hkind =>
  refine ⟨family, rest, tail, tag, kind, name, hfamily, htag, hkind, ?_⟩
  -- what is left are the five pairs of a family and a kind
  split at h
  · cases h
  split at h
  · cases h
  split at h
  · cases h
    cases himm
  split at h
  · rename_i hpair
    exact .inl hpair
  split at h
  · rename_i hpair
    exact .inr ⟨hpair.1, .inl hpair.2⟩
  split at h
  · cases h
    cases himm
  split at h
  · rename_i hpair
    exact .inr ⟨hpair.1, .inr hpair.2⟩
  · cases h

theorem isImmutableKey_doc (rest : Bytes) : isImmutableKey (ascii "doc:\x7b" ++ rest) =
    ((rest.tails.find? fun t => ([125, 58] : Bytes).isPrefixOf t).map (·.drop 2)).any fun t => (ascii "s:").isPrefixOf t := by
  have hdoc : (ascii "doc:\x7b").isPrefixOf (ascii "doc:\x7b" ++ rest) = true :=
    List.isPrefixOf_iff_prefix.2 (List.prefix_append _ _)
  rw [isImmutableKey, if_pos hdoc]
  rfl

theorem isImmutableKey_diff (rest : Bytes) : isImmutableKey (ascii "diff:\x7b" ++ rest) =
    ((rest.tails.find? fun t => ([125, 58] : Bytes).isPrefixOf t).map (·.drop 2)).any fun t =>
      (ascii "g:").isPrefixOf t || (ascii "r:").isPrefixOf t := by
  have hdoc : (ascii "doc:\x7b").isPrefixOf (ascii "diff:\x7b" ++ rest) = false := rfl
  have hdiff : (ascii "diff:\x7b").isPrefixOf (ascii "diff:\x7b" ++ rest) = true :=
    List.isPrefixOf_iff_prefix.2 (List.prefix_append _ _)
  rw [isImmutableKey, hdoc, if_neg Bool.false_ne_true, if_pos hdiff]
  rfl

/-- The fence knows every key that the grammar takes for immutable. -/
theorem DiffKey.isImmutableKey_of_parse (h : parse isUtf8 k = .ok d) (himm : d.immutable = true) : isImmutableKey k = true := by
  obtain ⟨family, rest, tail, tag, kind, name, hfamily, htag, hkind, hpair⟩ := parse_parts h himm
  obtain rfl : k = family ++ (ascii ":\x7b" ++ rest) := splitOnce_eq hfamily
  obtain rfl : tail = kind ++ (ascii ":" ++ name) := splitOnce_eq hkind
  have hbehind : (rest.tails.find? fun t => ([125, 58] : Bytes).isPrefixOf t).map (·.drop 2) =
    some (kind ++ (ascii ":" ++ name)) :=
    find_tails_of_splitOnce (by decide) htag
  rcases hpair with ⟨rfl, rfl⟩ | ⟨rfl, rfl | rfl⟩
  · exact (isImmutableKey_doc rest).trans (by rw [hbehind]; rfl)
  · exact (isImmutableKey_diff rest).trans (by rw [hbehind]; rfl)
  · exact (isImmutableKey_diff rest).trans (by rw [hbehind]; rfl)

/-! ## Keys behind their number -/

theorem readU64_of_no_plus (h : ∀ digits, b ≠ 43 :: digits) :
    readU64 b = if b = [] ∨ !b.all isDigit ∨ 2 ^ 64 ≤ digitsValue b then none else some (digitsValue b : Int) := by
  unfold readU64
  dsimp only
  split
  · exact absurd rfl (h _)
  · rfl

/-- A positive number reads the same without a sign bit. -/
theorem readU64_of_readI64 {n : Int} (h : readI64 b = some n) (hn : 0 < n) : readU64 b = some n := by
  obtain ⟨v, hv, rfl⟩ := map_eq_some_iff.1 h
  -- with a minus in front the number is not positive
  have hplain : ∀ digits : Bytes, signed false digits = some v →
      (if digits = [] ∨ !digits.all isDigit ∨ 2 ^ 64 ≤ digitsValue digits then none else some (digitsValue digits : Int)) =
        some v.toInt := by
    intro digits hd
    unfold signed at hd
    split at hd
    · cases hd
    rename_i hshape
    simp only [false_eq_true, if_false] at hd
    split at hd
    · rename_i hrange
      obtain rfl := some.inj hd
      have hval : (Int64.ofInt (digitsValue digits)).toInt = digitsValue digits := Int64.toInt_ofInt_of_le hrange.1 hrange.2
      have hfits : ¬ (digits = [] ∨ !digits.all isDigit ∨ 2 ^ 64 ≤ digitsValue digits) := by
        rintro (hnil | hdigit | hbig)
        · exact hshape (.inl hnil)
        · exact hshape (.inr hdigit)
        · omega
      rw [if_neg hfits, hval]
    · cases hd
  unfold parseI64 at hv
  split at hv
  · rename_i digits
    exfalso
    unfold signed at hv
    split at hv
    · cases hv
    simp only [if_true] at hv
    split at hv
    · rename_i hrange
      obtain rfl := some.inj hv
      rw [Int64.toInt_ofInt_of_le hrange.1 hrange.2] at hn
      omega
    · cases hv
  · exact hplain _ hv
  · rename_i hplus
    rw [readU64_of_no_plus hplus]
    exact hplain b hv

theorem mem_take_of_mpopTail {read : Bytes → Option Int} {p : List Bytes × Bool × Nat}
    (h : mpopTail read yes no args start = .ok (.ok p)) :
    ∃ n : Int, args[start]?.bind read = some n ∧ 0 < n ∧ ∀ k ∈ p.1, k ∈ (args.drop (start + 1)).take n.toNat := by
  unfold mpopTail at h
  split at h
  · cases h
  rename_i n hn
  split at h
  · cases h
  rename_i hpos
  refine ⟨n, hn, by omega, ?_⟩
  obtain ⟨wordIdx, hidx, h⟩ := bind_eq_ok.1 h
  split at h
  · cases h
  obtain ⟨word, -, h⟩ := bind_eq_ok.1 h
  split at h
  · cases h
  split at h
  · cases h
  obtain ⟨keys, hkeys, h⟩ := bind_eq_ok.1 h
  cases h
  unfold span at hkeys
  split at hkeys
  · obtain rfl := Except.ok.inj hkeys
    rw [eq_of_sum_eq_ok hidx, List.drop_take, Nat.add_sub_cancel_left]
    exact fun k hk => hk
  · cases hkeys

/-- The keys that a multiple pop understands are among those that the fence counts off. -/
theorem mem_counted_of_understood {read : Bytes → Option Int} (hread : ∀ b n, read b = some n → 0 < n → readU64 b = some n)
    (hk : k ∈ understood (mpopTail read yes no args start) fun p => p.1) :
    k ∈ (args.drop (start + 1)).take (((args[start]?.bind readU64).map Int.toNat).getD 0) := by
  rcases hparse : mpopTail read yes no args start with f | r | p
  · rw [hparse] at hk
    cases hk
  · rw [hparse] at hk
    cases hk
  rw [hparse] at hk
  obtain ⟨n, hn, hpos, hkeys⟩ := mem_take_of_mpopTail hparse
  obtain ⟨b, hb, hbn⟩ := bind_eq_some_iff.1 hn
  rw [hb, bind_some, hread b n hbn hpos]
  exact hkeys k hk

/-! ## The places of the fence -/

namespace Command

/-- The commands whose keys the fence takes from the command table. -/
def fencedByTable : Command → Bool
  | copy | sunionstore | sinterstore | sdiffstore | zunionstore | zinterstore | zdiffstore | zrangestore | pfmerge | lmpop
  | zmpop | blmpop | bzmpop => false
  | _ => true

variable {c : Command} {args : List Bytes} {k : Bytes}

theorem guardCommand_of_table (hw : c.isWriteCommand = true) (hf : c.fenced = true) (hs : c.runsScript = false)
    (ht : c.fencedByTable = true) (args : List Bytes) :
    c.guardCommand args = if (c.extractKeys args).any isImmutableKey then some diffImmutable else none := by
  cases c <;> first
    | exact Bool.noConfusion hw
    | exact Bool.noConfusion hf
    | exact Bool.noConfusion hs
    | exact Bool.noConfusion ht
    | rfl

theorem keySpec_eq_writePlaces (hw : c.isWriteCommand = true) (hf : c.fenced = true) (hs : c.runsScript = false)
    (ht : c.fencedByTable = true) : c.keySpec = c.writePlaces.spec := by
  cases c <;> first
    | exact Bool.noConfusion hw
    | exact Bool.noConfusion hf
    | exact Bool.noConfusion hs
    | exact Bool.noConfusion ht
    | rfl

theorem writeKeys_of_table (ht : c.fencedByTable = true) (args : List Bytes) : c.writeKeys args = c.writePlaces.keys args := by
  cases c <;> first
    | exact Bool.noConfusion ht
    | rfl

theorem not_mem_writeKeys_of_read (hw : c.isWriteCommand = false) : k ∉ c.writeKeys args := by
  have hplaces : c.fencedByTable = true ∧ c.writePlaces = .nowhere := by
    cases c <;> first
      | exact Bool.noConfusion hw
      | exact ⟨rfl, rfl⟩
  rw [writeKeys_of_table hplaces.1, hplaces.2]
  intro hk
  obtain ⟨i, hi, -⟩ := KeyPlaces.mem_keys.mp hk
  cases hi

theorem guard_of_mem (hk : k ∈ keys) (himm : isImmutableKey k = true) :
    (if keys.any isImmutableKey then some diffImmutable else none) = some diffImmutable :=
  if_pos (List.any_eq_true.2 ⟨k, hk, himm⟩)

/-- The fence stops every command whose handler writes an immutable key. -/
theorem guardCommand_of_mem_writeKeys (hf : c.fenced = true) (hs : c.runsScript = false) (hk : k ∈ c.writeKeys args)
    (himm : isImmutableKey k = true) : c.guardCommand args = some diffImmutable := by
  rcases hw : c.isWriteCommand with _ | _
  · exact absurd hk (not_mem_writeKeys_of_read hw)
  rcases ht : c.fencedByTable with _ | _
  · cases c with
    | copy | sunionstore | sinterstore | sdiffstore | zunionstore | zinterstore | zdiffstore | zrangestore | pfmerge =>
      exact guard_of_mem hk himm
    | lmpop | blmpop => exact guard_of_mem (mem_counted_of_understood (fun _ _ => readU64_of_readI64) hk) himm
    | zmpop | bzmpop => exact guard_of_mem (mem_counted_of_understood (fun _ _ h _ => h) hk) himm
    | _ => exact Bool.noConfusion ht
  · rw [guardCommand_of_table hw hf hs ht]
    rw [writeKeys_of_table ht] at hk
    have hne : c ≠ .diffImport := by
      rintro rfl
      cases hf
    exact guard_of_mem (mem_extractKeys_of_spec hne (keySpec_eq_writePlaces hw hf hs ht) hk) himm

end Command

/-! ## What the handlers write -/

namespace Handler

theorem visits_rounds {round : Handler} (h : round.Visits F P) (n : Nat) : (rounds round n).Visits F P := by
  induction n with
  | zero => trivial
  | succ n ih =>
    refine h.bind fun r => ?_
    split
    · exact ih
    · trivial

end Handler

/-- A handler writes the keys of its command and hidden records. -/
theorem handlerFor_uses (sys : ScriptEnv) (hs : NodeHandlers) (hf : c.fenced = true) (hscript : c.runsScript = false)
    (args : List Bytes) :
    (handlerFor sys hs c args).Uses (fun k => k ∈ c.writeKeys args ∨ isSystemKey k = true) fun _ => True := by
  refine Routine.uses_iff.2 ?_
  cases hmov : c.movable with
  | true =>
    have heq : handlerFor sys hs c args = handlerOf sys hs.toHandlers c args := by
      cases c <;> first | rfl | cases hmov
    rw [heq]
    refine visits_namedKeys sys _ hmov args fun k _ => ⟨trivial, fun w hw => ?_⟩
    by_cases hk : k ∈ c.writeKeys args
    · exact .inl (.inl hk)
    · exact .inr ⟨trivial, hw hk⟩
  | false =>
    cases c with
    | blmpop =>
      simp only [handlerFor, Handler.blmpop]
      split
      · trivial
      split
      · trivial
      · exact visits_parsed fun p hp => visits_rounds (visits_lmpopInner _ _ _ fun k hk =>
          ⟨trivial, fun _ => .inl (.inl (mem_understood.2 ⟨p, hp, hk⟩))⟩) _
    | bzmpop =>
      simp only [handlerFor, Handler.bzmpop]
      split
      · trivial
      split
      · trivial
      · exact visits_parsed fun p hp => visits_rounds (visits_zmpopInner _ _ _ fun k hk =>
          ⟨trivial, fun _ => .inl (.inl (mem_understood.2 ⟨p, hp, hk⟩))⟩) _
    | _ => first | exact Routine.uses_iff.1 (hs.writes _ args hf hscript) | cases hmov

theorem isImmutableKey_of_system (h : isSystemKey k = true) : isImmutableKey k = false := by
  obtain ⟨rest, rfl⟩ : ∃ rest, k = 0 :: rest := by
    rcases or_eq_true _ _ ▸ h with h | h
    · obtain ⟨rest, rfl⟩ := List.isPrefixOf_iff_prefix.1 h
      exact ⟨_, rfl⟩
    · obtain ⟨rest, rfl⟩ := List.isPrefixOf_iff_prefix.1 h
      exact ⟨_, rfl⟩
  rfl

/-- A handler that would write an immutable key does not start. -/
theorem guardCommand_of_writes (sys : ScriptEnv) (hs : NodeHandlers) (hf : c.fenced = true) (hscript : c.runsScript = false)
    (himm : isImmutableKey k = true) (hw : (handlerFor sys hs c args).Writes k) : c.guardCommand args = some diffImmutable := by
  by_contra hguard
  refine Routine.Uses.not_writes ?_ _ (handlerFor_uses sys hs hf hscript args) hw
  rintro (hk | hk)
  · exact hguard (Command.guardCommand_of_mem_writeKeys hf hscript hk himm)
  · rw [isImmutableKey_of_system hk] at himm
    cases himm

/-! ## From a script -/

section

variable (sys : ScriptEnv) (hs : NodeHandlers) {k : Bytes} (himm : isImmutableKey k = true)

theorem Command.fenced_of_scriptSafe (hsafe : c.scriptSafe = true) : c.fenced = true ∧ c.runsScript = false := by
  cases c <;> first
    | exact Bool.noConfusion hsafe
    | exact ⟨rfl, rfl⟩

/-- A script's command has the handler that it has on a connection. -/
theorem handlerFor_of_scriptSafe (hsafe : c.scriptSafe = true) (args : List Bytes) :
    handlerFor sys hs c args = handlerOf sys hs.toHandlers c args := by
  cases c <;> first
    | exact Bool.noConfusion hsafe
    | rfl

include himm

theorem dispatch_not_writes (node : ScriptNode) (hsafe : c.scriptSafe = true) (args : List Bytes) :
    ¬ (dispatch sys hs.toHandlers node c args).Writes k := by
  obtain ⟨hf, hscript⟩ := Command.fenced_of_scriptSafe hsafe
  unfold dispatch
  rcases hguard : c.guardCommand args with _ | r
  · dsimp only
    split
    · exact id
    split
    · exact id
    rw [← handlerFor_of_scriptSafe sys hs hsafe]
    intro hw
    rw [guardCommand_of_writes sys hs hf hscript himm hw] at hguard
    cases hguard
  · exact id

theorem bridgeCall_spares (pid : Pid) (declared argv : List Bytes) (node : ScriptNode) :
    Spares sys.answer k node.host (bridgeCall sys hs.toHandlers pid declared argv node).2 := by
  rcases bridgeCall_cases sys hs.toHandlers pid declared argv node with heq | ⟨c, -, hsafe, -, heq⟩
  · rw [heq]
    exact Spares.refl _
  · rw [heq]
    exact Routine.poll_spares _ _ _ (dispatch_not_writes sys hs himm node hsafe _) node.host

theorem Script.run_spares (pid : Pid) (declared : List Bytes) (script : Script) (node : ScriptNode) :
    Spares sys.answer k node.host (script.run sys hs.toHandlers pid declared node).2.host := by
  induction script generalizing node with
  | finish r => exact Spares.refl _
  | call argv next ih =>
    have hcall := bridgeCall_spares sys hs himm pid declared argv node
    rw [Script.run]
    split
    · rename_i r host hr
      rw [hr] at hcall
      exact hcall.trans (ih r { node with host := host })
    · rename_i f host hr
      rw [hr] at hcall
      exact hcall

/-- A call that would write the key changes nothing at all. -/
theorem bridgeCall_refused (pid : Pid) (declared : List Bytes) {argv : List Bytes} (node : ScriptNode)
    (hcall : calledCommand sys argv = some c) (hw : (handlerFor sys hs c argv).Writes k) :
    (bridgeCall sys hs.toHandlers pid declared argv node).2 = node.host := by
  rcases bridgeCall_cases sys hs.toHandlers pid declared argv node with heq | ⟨c', hfind, hsafe, -, heq⟩
  · exact heq
  obtain rfl : c' = c := some.inj (hfind.symm.trans hcall)
  obtain ⟨hf, hscript⟩ := Command.fenced_of_scriptSafe hsafe
  rw [heq, dispatch, guardCommand_of_writes sys hs hf hscript himm hw]
  rfl

end

/-! ## On a connection -/

namespace Conn

variable {S : Type} {svc : Services S} {sys : ScriptEnv} {hs : NodeHandlers} (rec : Recorded svc sys hs) {k : Bytes}

/-- From the one connection to the other, the records of the key changed by fetches only, and the queue not at all. -/
structure Kept (k : Bytes) (conn conn' : Conn svc) : Prop where
  records : Fetched sys.answer k (rec.records conn.engine k) (rec.records conn'.engine k)
  multi : conn'.multi = conn.multi

namespace Kept

variable {rec} {conn conn' conn'' : Conn svc}

theorem of_records (h : rec.records conn'.engine = rec.records conn.engine) (hmulti : conn'.multi = conn.multi) :
    Kept rec k conn conn' := ⟨by rw [h]; exact Fetched.refl _ _ _, hmulti⟩

theorem of_engine (h : conn'.engine = conn.engine) (hmulti : conn'.multi = conn.multi) : Kept rec k conn conn' :=
  of_records (congrArg rec.records h) hmulti

theorem trans (a : Kept rec k conn conn') (b : Kept rec k conn' conn'') : Kept rec k conn conn'' :=
  ⟨a.records.trans b.records, b.multi.trans a.multi⟩

end Kept

/-- No DIFF command and no flush. -/
def FencedArgs (svc : Services S) (args : List Bytes) : Prop := ∀ c, Command.find (svc.commandName args) = some c →
    c.fenced = true

/-- Nothing else is queued. -/
def Fenced (conn : Conn svc) : Prop := ∀ q aborted, conn.multi = some (q, aborted) → ∀ args ∈ q.cmds, FencedArgs svc args

theorem configSet_records (params : List Bytes) (s : S) : rec.records (svc.configSet params s).2 = rec.records s := by
  fun_induction Services.configSet svc params s with
  | case3 key val rest s hlog hook hhook s' hs' ih =>
    rw [ih]
    exact rec.logReload hook hhook _ _ _ hs'
  | case5 key val rest s hlog s' hs' ih =>
    rw [ih]
    exact rec.setting _ _ _ _ hs'
  | _ => rfl

variable (himm : isImmutableKey k = true)

include himm

theorem kept_handler (hf : c.fenced = true) (hscript : c.runsScript = false) (hguard : c.guardCommand args = none)
    (h : rec.records conn'.engine = ((handlerFor sys hs c args).complete sys.answer (rec.records conn.engine)).2)
    (hmulti : conn'.multi = conn.multi) : Kept rec k conn conn' := by
  refine ⟨?_, hmulti⟩
  rw [h]
  refine Routine.fetched_complete _ _ (fun hw => ?_) _
  rw [guardCommand_of_writes sys hs hf hscript himm hw] at hguard
  cases hguard

theorem kept_script (hscript : c.runsScript = true)
    (h : conn'.engine = (svc.script c args conn.engine).2) (hmulti : conn'.multi = conn.multi) : Kept rec k conn conn' := by
  obtain ⟨prog, pid, declared, node, hqueue, hfetched, hrecords⟩ := rec.script c args conn.engine hscript
  have hrun := Script.run_spares sys hs himm pid declared prog node
  refine ⟨?_, hmulti⟩
  rw [h, hrecords]
  refine ((hfetched k).trans hrun.state).trans (Routine.drain_spared _ _ fun j hj => ?_)
  refine (hrun.queue j hj).resolve_left ?_
  rw [hqueue]
  exact List.not_mem_nil

theorem kept_serve (hf : c.fenced = true) (hguard : c.guardCommand args = none)
    (h : serve c args conn = some x) : Kept rec k conn x.2 := by
  unfold serve at h
  split at h
  · cases h
    exact .of_engine rfl rfl
  split at h
  · cases h
    exact .of_engine (greets_hello args conn).engine (greets_hello args conn).multi
  · cases h
    exact .of_engine (greets_auth args conn).engine (greets_auth args conn).multi
  · cases h
    exact .of_engine rfl rfl
  · cases h
  · cases h
    exact .of_records (rec.subscribe _ args conn.engine) rfl
  · cases h
    exact .of_records (rec.subscribe _ args conn.engine) rfl
  · cases h
    exact .of_records (rec.subscribe _ args conn.engine) rfl
  · cases h
    exact .of_records (rec.subscribe _ args conn.engine) rfl
  · split at h
    · cases h
      exact .of_records (configSet_records rec _ conn.engine) rfl
    · cases h
      exact kept_handler rec himm hf rfl hguard (rec.handler _ args _ hf rfl rfl rfl) rfl
  · cases h
    exact kept_script rec himm rfl rfl rfl
  · cases h
    exact kept_script rec himm rfl rfl rfl
  · rename_i heval hevalsha
    have hscript : c.runsScript = false := by
      simp only [Command.runsScript, or_eq_false_iff, decide_eq_false_iff_not]
      exact ⟨heval, hevalsha⟩
    split at h
    · rename_i hproto
      have hrec := rec.proto c args conn.engine hproto
      rcases hr : svc.proto c args conn.engine with ⟨e | r, s⟩
      all_goals
        rw [hr] at h hrec
        cases h
        exact kept_handler rec himm hf hscript hguard hrec rfl
    rename_i hproto
    split at h
    · rename_i hjson
      have hrec := rec.json c args conn.engine hjson
      rcases hr : svc.json c args conn.engine with ⟨e | r, s⟩
      all_goals
        rw [hr] at h hrec
        cases h
        exact kept_handler rec himm hf hscript hguard hrec rfl
    · rename_i hjson
      cases h
      have hrec := rec.handler c args conn.engine hf hscript (eq_false_iff.2 hproto) (eq_false_iff.2 hjson)
      exact kept_handler rec himm hf hscript hguard hrec rfl

theorem kept_command (hargs : FencedArgs svc args) (h : command args conn = some x) : Kept rec k conn x.2 := by
  unfold command at h
  dsimp only at h
  split at h
  · cases h
    exact .of_engine rfl rfl
  rename_i c hc
  split at h
  · cases h
    exact .of_engine rfl rfl
  rename_i hguard
  split at h
  · cases h
    exact .of_engine rfl rfl
  split at h
  · cases h
    exact .of_engine rfl rfl
  · obtain ⟨y, hy, rfl⟩ := map_eq_some_iff.1 h
    have hserve := kept_serve rec himm (hargs c hc) hguard hy
    exact hserve

theorem kept_written (hargs : FencedArgs svc args) (h : conn.written args = some conn') : Kept rec k conn conn' := by
  obtain ⟨y, hy, rfl⟩ := map_eq_some_iff.1 h
  have hcommand := kept_command rec himm hargs hy
  exact ⟨hcommand.records, hcommand.multi⟩

theorem kept_exec {cmds : List (List Bytes)} (hcmds : ∀ args ∈ cmds, FencedArgs svc args)
    (h : cmds.foldlM written conn = some conn') : Kept rec k conn conn' := by
  induction cmds generalizing conn with
  | nil =>
    cases h
    exact .of_engine rfl rfl
  | cons args cmds ih =>
    obtain ⟨next, hnext, hrest⟩ := bind_eq_some_iff.1 h
    have hfirst := kept_written rec himm (hcmds args List.mem_cons_self) hnext
    exact hfirst.trans (ih (fun a ha => hcmds a (List.mem_cons_of_mem _ ha)) hrest)

omit himm in
theorem fenced_push {conn : Conn svc} (hconn : conn.Fenced) (hargs : FencedArgs svc args)
    (hq : conn.multi = some (q, aborted)) (h : svc.isSubscription args = false) (aborted' : Bool) :
    Fenced { conn with multi := some (q.push args h, aborted') } := by
  intro q' a' heq a ha
  obtain ⟨rfl, rfl⟩ := Prod.mk.inj (some.inj heq)
  rcases List.mem_append.1 ha with ha | ha
  · exact hconn q aborted hq a ha
  · exact List.mem_singleton.1 ha ▸ hargs

omit himm in
theorem fenced_of_none {conn : Conn svc} (h : conn.multi = none) : conn.Fenced := by
  intro q aborted hq
  rw [h] at hq
  cases hq

/-- What becomes of a command: it is answered, it runs, or the commands that were queued do. -/
def Route.Fenced (conn : Conn svc) : Route svc → Prop
  | .fixed _ next => next.engine = conn.engine ∧ next.Fenced
  | .run next => next = conn
  | .exec q next => next.engine = conn.engine ∧ next.multi = none ∧ ∀ a ∈ q.cmds, FencedArgs svc a

omit himm in
theorem route_fenced {conn : Conn svc} (hconn : conn.Fenced) (hargs : FencedArgs svc args) : (route args conn).Fenced conn := by
  unfold route
  dsimp only
  split
  · exact ⟨rfl, hconn⟩
  split
  · split
    · exact ⟨rfl, hconn⟩
    · refine ⟨rfl, fun q aborted hq a ha => ?_⟩
      obtain ⟨rfl, rfl⟩ := Prod.mk.inj (some.inj hq)
      cases ha
  split
  · split
    · exact ⟨rfl, fenced_of_none rfl⟩
    · exact ⟨rfl, hconn⟩
  split
  · exact ⟨rfl, hconn⟩
  split
  · split
    · exact ⟨rfl, hconn⟩
    · exact ⟨rfl, fenced_of_none rfl⟩
    · rename_i q hq
      exact ⟨rfl, rfl, hconn q false hq⟩
  · split
    · rfl
    rename_i q aborted hq
    split
    · exact ⟨rfl, fenced_push hconn hargs hq _ _⟩
    · refine ⟨rfl, fun q' aborted' hq' => ?_⟩
      obtain ⟨rfl, rfl⟩ := Prod.mk.inj (some.inj hq')
      exact hconn q aborted hq

theorem kept_dispatch {conn conn' : Conn svc} (hconn : conn.Fenced) (hargs : FencedArgs svc args)
    (h : conn.dispatch args = some conn') :
    Fetched sys.answer k (rec.records conn.engine k) (rec.records conn'.engine k) ∧ conn'.Fenced := by
  unfold dispatch at h
  split at h
  · cases h
    exact ⟨Fetched.refl _ _ _, hconn⟩
  have hroute := route_fenced hconn hargs
  rcases hr : route args conn with ⟨r, next⟩ | next | ⟨q, next⟩
  · rw [hr] at h hroute
    cases h
    refine ⟨?_, hroute.2⟩
    rw [← hroute.1]
    exact Fetched.refl _ _ _
  · rw [hr] at h hroute
    obtain rfl : next = conn := hroute
    have hkept := kept_written rec himm hargs h
    refine ⟨hkept.records, ?_⟩
    intro q aborted hq
    rw [hkept.multi] at hq
    exact hconn q aborted hq
  · rw [hr] at h hroute
    obtain ⟨hengine, hmulti, hcmds⟩ := hroute
    have hkept := kept_exec rec himm hcmds h
    refine ⟨?_, fenced_of_none (hkept.multi.trans hmulti)⟩
    rw [← hengine]
    exact hkept.records

theorem kept_session {conn conn' : Conn svc} (hconn : conn.Fenced)
    (hcmds : ∀ args ∈ cmds, FencedArgs svc args) (h : conn.session cmds = some conn') :
    Fetched sys.answer k (rec.records conn.engine k) (rec.records conn'.engine k) := by
  induction cmds generalizing conn with
  | nil =>
    cases h
    exact Fetched.refl _ _ _
  | cons args cmds ih =>
    obtain ⟨next, hnext, hrest⟩ := bind_eq_some_iff.1 h
    obtain ⟨hfirst, hfenced⟩ := kept_dispatch rec himm hconn (hcmds args List.mem_cons_self) hnext
    exact hfirst.trans (ih hfenced (fun a ha => hcmds a (List.mem_cons_of_mem _ ha)) hrest)

theorem command_refused (hc : Command.find (svc.commandName args) = some c) (hf : c.fenced = true)
    (hscript : c.runsScript = false) (hw : (handlerFor sys hs c args).Writes k) (conn : Conn svc) :
    command args conn = some (diffImmutable, conn) := by
  rw [command, hc]
  dsimp only
  rw [guardCommand_of_writes sys hs hf hscript himm hw]

end Conn

/-- No client writes the key: a handler that would is refused before it starts, on a connection or inside `EXEC`, where nothing
changes but the reply, and from a script, where nothing changes at all. Whatever commands a client sends, the key's records are
what they were, but for fetches. -/
structure Protected {S : Type} {svc : Services S} {sys : ScriptEnv} {hs : NodeHandlers} (rec : Recorded svc sys hs) (k : Bytes) :
    Prop where
  refused : ∀ c args, c.fenced = true → c.runsScript = false → (handlerFor sys hs c args).Writes k →
    c.guardCommand args = some diffImmutable
  sent : ∀ args c, Command.find (svc.commandName args) = some c → c.fenced = true → c.runsScript = false →
    (handlerFor sys hs c args).Writes k → ∀ conn : Conn svc, conn.command args = some (diffImmutable, conn)
  called : ∀ argv c, calledCommand sys argv = some c → (handlerFor sys hs c argv).Writes k →
    ∀ pid declared node, (bridgeCall sys hs.toHandlers pid declared argv node).2 = node.host
  kept : ∀ (conn conn' : Conn svc) cmds, conn.Fenced → (∀ args ∈ cmds, Conn.FencedArgs svc args) →
    conn.session cmds = some conn' → Fetched sys.answer k (rec.records conn.engine k) (rec.records conn'.engine k)

/-- Snapshots, graphs and results are protected. -/
theorem immutable_keys_protected {S : Type} {svc : Services S} {sys : ScriptEnv} {hs : NodeHandlers} (rec : Recorded svc sys hs)
    {isUtf8 : Bytes → Bool} {k : Bytes} {d : DiffKey} (hparse : DiffKey.parse isUtf8 k = .ok d) (himm : d.immutable = true) :
    Protected rec k := by
  have hkey := DiffKey.isImmutableKey_of_parse hparse himm
  exact
    { refused := fun c args hf hscript hw => guardCommand_of_writes sys hs hf hscript hkey hw
      sent := fun args c hc hf hscript hw conn => Conn.command_refused hkey hc hf hscript hw conn
      called := fun argv c hcall hw pid declared node => bridgeCall_refused sys hs hkey pid declared node hcall hw
      kept := fun conn conn' cmds hconn hcmds h => Conn.kept_session rec hkey hconn hcmds h }

/-! ## A node that knows SET -/

def setJob (key value : Bytes) : Handler :=
  .onKey key (fun ctx => .ok (ctx.putRaw (Ikey.stringKey key) value, ())) fun _ => .reply .ok

/-- SET writes its key, and nothing else is served. -/
def setHandler : Command → List Bytes → Handler
  | .set, _ :: key :: value :: _ => setJob key value
  | _, _ => .reply .null

theorem first_mem_keys (name key : Bytes) (rest : List Bytes) : key ∈ Command.KeyPlaces.first.keys (name :: key :: rest) :=
  Command.KeyPlaces.mem_keys.2 ⟨1, rfl, rfl⟩

def setOnly : NodeHandlers where
  handler := setHandler
  within := by
    intro c args _ _
    unfold setHandler
    split
    · have hfirst := first_mem_keys
      exact Routine.within_iff.2 (Handler.visits_onKey ⟨hfirst _ _ _, fun _ => hfirst _ _ _⟩ fun _ _ _ => by trivial)
    · trivial
  writes := by
    intro c args _ _
    unfold setHandler
    split
    · exact Routine.uses_iff.2
        (Handler.visits_onKey ⟨trivial, fun _ => .inl (.inl (first_mem_keys _ _ _))⟩ fun _ _ _ => by trivial)
    · trivial

def oneShard : ScriptEnv := scriptsOn fun _ => 0

/-- Services whose state is the records. -/
def recordServices : Services (Bytes → ShardCtx) where
  fmt := Conn.bareServices.fmt
  lossy := Conn.bareServices.lossy
  toUppercase := Conn.bareServices.toUppercase
  toLowercase := Conn.bareServices.toLowercase
  clean_lossy := Conn.bareServices.clean_lossy
  clean_toUppercase := Conn.bareServices.clean_toUppercase
  requirepass := fun _ => []
  writeStopped := fun _ => false
  compactionStopped := fun _ => false
  scanFailed := fun _ _ => false
  topology := fun _ => false
  handler := fun c args s =>
    ((Conn.bareServices.handler c args ()).1, ((handlerFor oneShard setOnly c args).complete oneShard.answer s).2)
  proto := fun c args s => (.error .noBinding, ((handlerFor oneShard setOnly c args).complete oneShard.answer s).2)
  json := fun c args s => (.error .notUtf8, ((handlerFor oneShard setOnly c args).complete oneShard.answer s).2)
  script := fun _ _ s => (.returned .nil trivial, s)
  setting := fun _ _ s => .ok s
  logReload := none
  subscribe := fun _ _ s => ([], s)

def setRecorded : Recorded recordServices oneShard setOnly where
  records := id
  handler := fun _ _ _ _ _ _ _ => rfl
  proto := fun _ _ _ _ => rfl
  json := fun _ _ _ _ => rfl
  script := fun _ _ s _ =>
    ⟨.finish .null, 0, [], ⟨⟨s, fun _ => false, [], []⟩, false, false⟩, rfl, fun _ => Fetched.refl _ _ _, rfl⟩
  setting := fun _ _ _ _ h => congrArg id (Except.ok.inj h).symm
  logReload := nofun
  subscribe := fun _ _ _ => rfl

def snapshotKey : Bytes := ascii "doc:\x7bt\x7d:s:0123456789abcdef0123456789abcdef"

theorem parse_snapshotKey : DiffKey.parse (fun b => b.all (· < 128)) snapshotKey =
    .ok (.snapshot (ascii "t") (ascii "0123456789abcdef0123456789abcdef")) := rfl

theorem setJob_writes (key value : Bytes) : (setJob key value).Writes key := by
  refine .inl ⟨rfl, emptyCtx, fun h => ?_⟩
  have hget : (emptyCtx.putRaw (Ikey.stringKey key) value).getRaw (Ikey.stringKey key) = emptyCtx.getRaw (Ikey.stringKey key) :=
    congrArg (fun ctx : ShardCtx => ctx.getRaw (Ikey.stringKey key)) h
  simp [ShardCtx.getRaw, ShardCtx.putRaw, Db.getRaw, Db.putRaw, emptyCtx] at hget

theorem set_of_snapshot_refused :
    (handlerFor oneShard setOnly .set [ascii "SET", snapshotKey, ascii "v"]).Writes snapshotKey ∧
      Command.set.guardCommand [ascii "SET", snapshotKey, ascii "v"] = some diffImmutable := by
  have hprotected : Protected setRecorded snapshotKey := immutable_keys_protected setRecorded parse_snapshotKey rfl
  have hwrites : (handlerFor oneShard setOnly .set [ascii "SET", snapshotKey, ascii "v"]).Writes snapshotKey :=
    setJob_writes snapshotKey (ascii "v")
  exact ⟨hwrites, hprotected.refused .set _ rfl rfl hwrites⟩

end Marekvs
