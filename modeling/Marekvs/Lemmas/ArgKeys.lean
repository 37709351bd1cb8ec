import Marekvs.Theorems.ScriptKeys

/-!
# Keys are arguments

The handlers of the commands that a pipeline may run side by side work on keys that stand among their arguments, behind the name.
-/

namespace Marekvs

open Fallible

variable {k : Bytes} {args : List Bytes} {i : Nat} {c : Command}

open Machine (Fault sum span item)

namespace Command

theorem KeyPlaces.mem_tail {p : KeyPlaces} (hk : k ∈ p.keys argv) : k ∈ argv.tail := by
  obtain ⟨i, hp, hi⟩ := mem_keys.mp hk
  cases i with
  | zero => cases p <;> simp [holds] at hp
  | succ i =>
    cases argv with
    | nil => cases hi
    | cons name rest => exact List.mem_of_getElem? hi

end Command

theorem mem_tail_of_drop (hi : 0 < i) (hk : k ∈ args.drop i) : k ∈ args.tail := by
  have hsplit : args.drop i = args.tail.drop (i - 1) := by
    rw [← List.drop_one, List.drop_drop, Nat.add_sub_cancel' hi]
  rw [hsplit] at hk
  exact List.mem_of_mem_drop hk

theorem mem_tail_of_span (hi : 0 < i) (h : span args i j = .ok keys) (hk : k ∈ keys) : k ∈ args.tail := by
  unfold span at h
  split at h
  · obtain rfl := Except.ok.inj h
    rw [List.drop_take] at hk
    exact mem_tail_of_drop hi (List.mem_of_mem_take hk)
  · cases h

/-! ## Keys behind a number -/

theorem mem_tail_of_mpopTail {read : Bytes → Option Int} {p : List Bytes × Bool × Nat}
    (h : mpopTail read yes no args start = .ok (.ok p)) (hk : k ∈ p.1) :
    k ∈ args.tail := by
  unfold mpopTail at h
  split at h
  · cases h
  split at h
  · cases h
  obtain ⟨wordIdx, -, h⟩ := bind_eq_ok.1 h
  split at h
  · cases h
  obtain ⟨word, -, h⟩ := bind_eq_ok.1 h
  split at h
  · cases h
  split at h
  · cases h
  · obtain ⟨keys, hkeys, h⟩ := bind_eq_ok.1 h
    cases h
    exact mem_tail_of_span (Nat.succ_pos _) hkeys hk

theorem mem_tail_of_parseSintercard {p : List Bytes × Nat} (h : parseSintercard args = .ok (.ok p)) (hk : k ∈ p.1) :
    k ∈ args.tail := by
  unfold parseSintercard at h
  split at h
  · cases h
  split at h
  · cases h
  obtain ⟨stop, -, h⟩ := bind_eq_ok.1 h
  split at h
  · cases h
  split at h
  · obtain ⟨word, -, h⟩ := bind_eq_ok.1 h
    split at h
    · cases h
    obtain ⟨next, -, h⟩ := bind_eq_ok.1 h
    split at h
    · cases h
    · obtain ⟨keys, hkeys, h⟩ := bind_eq_ok.1 h
      cases h
      exact mem_tail_of_span Nat.two_pos hkeys hk
  · obtain ⟨keys, hkeys, h⟩ := bind_eq_ok.1 h
    cases h
    exact mem_tail_of_span Nat.two_pos hkeys hk

theorem mem_tail_of_parseZintercard {p : List Bytes × Nat} (h : parseZintercard args = .ok (.ok p)) (hk : k ∈ p.1) :
    k ∈ args.tail := by
  unfold parseZintercard at h
  split at h
  · cases h
  split at h
  · cases h
  obtain ⟨stop, -, h⟩ := bind_eq_ok.1 h
  split at h
  · cases h
  split at h
  · cases h
  · obtain ⟨keys, hkeys, h⟩ := bind_eq_ok.1 h
    cases h
    exact mem_tail_of_span Nat.two_pos hkeys hk

theorem mem_tail_of_parseZsetop {env : Env}
    (h : parseZsetop env args storeDst i = .ok (.ok p)) (hk : k ∈ p.1) : k ∈ args.tail := by
  unfold parseZsetop at h
  split at h
  · cases h
  split at h
  · cases h
  obtain ⟨stop, -, h⟩ := bind_eq_ok.1 h
  split at h
  · cases h
  obtain ⟨keys, hkeys, h⟩ := bind_eq_ok.1 h
  obtain ⟨_, -, h⟩ := bind_eq_ok.1 h
  obtain ⟨r, -, h⟩ := bind_eq_ok.1 h
  split at h
  · cases h
  · cases h
    exact mem_tail_of_span (Nat.succ_pos _) hkeys hk

/-! ## Keys behind a word -/

theorem mem_of_xreadOpts (h : xreadOpts words count = .ok p) (hk : k ∈ p.2) : k ∈ words := by
  fun_induction xreadOpts words count with
  | case6 count word b rest _ n _ ih => exact List.mem_cons_of_mem _ (List.mem_cons_of_mem _ (ih h))
  | case8 count word b rest _ _ n _ ih => exact List.mem_cons_of_mem _ (List.mem_cons_of_mem _ (ih h))
  | case3 =>
    cases h
    cases hk
  | case9 =>
    cases h
    exact List.mem_cons_of_mem _ hk
  | _ => cases h

theorem mem_tail_of_parseXread {p : Option Nat × List (Bytes × Bytes)} (h : parseXread args = .ok p)
    (hk : k ∈ p.2.map Prod.fst) : k ∈ args.tail := by
  unfold parseXread at h
  split at h
  · cases h
  rename_i count tail hopts
  split at h
  · cases h
  cases h
  obtain ⟨q, hq, rfl⟩ := List.mem_map.mp hk
  have hmem : q.1 ∈ tail := List.mem_of_mem_take (List.of_mem_zip hq).1
  rw [← List.drop_one]
  exact mem_of_xreadOpts hopts hmem

theorem mem_tail_of_parseXinfo {key : Bytes} (h : parseXinfo args = .ok key) : key ∈ args.tail := by
  unfold parseXinfo at h
  split at h
  · split at h
    · split at h <;> cases h
    split at h
    · cases h
      exact List.mem_cons_of_mem _ List.mem_cons_self
    · cases h
  · cases h

/-! ## All handlers -/

theorem getD_mem_tail (h : 1 < args.length) : args.getD 1 [] ∈ args.tail := by
  match args, h with
  | _ :: key :: _, _ => exact List.mem_cons_self

theorem namedKeys_mem_tail (env : Env) (hk : k ∈ namedKeys env c args) : k ∈ args.tail := by
  have hzsetop (storeDst : Bool) (h : k ∈ (if args.length < (if storeDst then 4 else 3) then []
      else understood (parseZsetop env args storeDst (if storeDst then 2 else 1)) fun p =>
        if Machine.ISIZE_MAX < p.1.length * SIZE_OF_HASH_MAP then [] else p.1 ++ (if storeDst then [args.getD 1 []] else []))) :
      k ∈ args.tail := by
    obtain ⟨hlen, p, hp, hmem⟩ := mem_of_arity.mp h
    split at hmem
    · cases hmem
    rcases List.mem_append.mp hmem with hmem | hmem
    · exact mem_tail_of_parseZsetop hp hmem
    cases storeDst with
    | false => cases hmem
    | true =>
      rw [List.mem_singleton.mp hmem]
      exact getD_mem_tail (by simp only [if_true] at hlen; omega)
  cases c with
  | lmpop =>
    obtain ⟨-, p, hp, hmem⟩ := mem_of_arity.mp hk
    exact mem_tail_of_mpopTail hp hmem
  | zmpop =>
    obtain ⟨-, p, hp, hmem⟩ := mem_of_arity.mp hk
    refine mem_tail_of_mpopTail hp ?_
    split at hmem
    · exact List.mem_of_mem_take hmem
    · exact hmem
  | sintercard =>
    obtain ⟨-, p, hp, hmem⟩ := mem_of_arity.mp hk
    exact mem_tail_of_parseSintercard hp hmem
  | zintercard =>
    obtain ⟨-, p, hp, hmem⟩ := mem_of_arity.mp hk
    exact mem_tail_of_parseZintercard hp hmem
  | zunion | zinter | zdiff => exact hzsetop false hk
  | zunionstore | zinterstore | zdiffstore => exact hzsetop true hk
  | xread =>
    obtain ⟨p, hp, hmem⟩ := mem_understood.mp hk
    exact mem_tail_of_parseXread (Except.ok.inj hp) hmem
  | xinfo =>
    obtain ⟨key, hkey, hmem⟩ := mem_understood.mp hk
    rw [List.mem_singleton.mp hmem]
    exact mem_tail_of_parseXinfo (Except.ok.inj hkey)
  | _ => cases hk

/-- A command that is safe beside others and no PROTO command may be called from scripts, unless it has tasks of its own. -/
theorem Command.scriptSafe_of_parallelSafe (hsafe : c.parallelSafe = true) (hproto : c.isProto = false) (hget : c ≠ .mget)
    (hset : c ≠ .mset) : c.scriptSafe = true := by
  cases c <;> first
    | rfl
    | exact absurd rfl hget
    | exact absurd rfl hset
    | exact Bool.noConfusion hsafe
    | exact Bool.noConfusion hproto

theorem handlerOf_within_args (sys : ScriptEnv) (others : Handlers)
    (multi : ∀ c args, c = .mget ∨ c = .mset → (others.handler c args).Within (· ∈ args.tail))
    (hsafe : c.parallelSafe = true) (hproto : c.isProto = false) (args : List Bytes) :
    (handlerOf sys others c args).Within (· ∈ args.tail) := by
  cases hmov : c.movable with
  | true => exact Handler.within_namedKeys sys others hmov args fun k hk => namedKeys_mem_tail sys.env hk
  | false =>
    have hothers : handlerOf sys others c args = others.handler c args := by
      cases c <;> first | rfl | cases hmov
    rw [hothers]
    by_cases hc : c = .mget ∨ c = .mset
    · exact multi c args hc
    · have hscript := Command.scriptSafe_of_parallelSafe hsafe hproto (fun h => hc (.inl h)) fun h => hc (.inr h)
      exact Routine.Within.mono (fun k hk => Command.KeyPlaces.mem_tail hk) _ (others.within c args hscript hmov)

end Marekvs
