import Marekvs.Lemmas.Beside

/-!
# Pipelined batches

Commands of one batch share no argument, and all keys of a handler are arguments, so that in most batches no order of the jobs
can be told from another. The table of bindings is the exception: a typed write that looks its type up names a key, which is
another argument than the prefix of a PROTO.BIND even where the prefix covers it. Without such a pair, replies and records are
those of the commands one after the other (`served_as_in_order`); with one, a write that was sent behind its BIND may be refused
(`write_overtakes_bind`).
-/

namespace Marekvs

open List Bool Fallible

open Machine (Fault)

open Resp (ascii)

open Proto (isHidden)

open Strand (Interleaved)

variable {P D M : Type}

variable {now : UInt64} {c : Command} {args : List Bytes} {batch : List (List Bytes)} {n : DataNode}
  {rs : List (Except Fault Reply)}

/-! ## The registry is only read -/

namespace Proto

variable {W R : Bytes → Prop} (hR : ∀ k, isHidden k = true → R k) (sys : Services P D M)

theorem isHidden_append (k : Bytes) : isHidden (SYS ++ k) = true := by
  rw [isHidden, isPrefixOf_iff_prefix]
  exact prefix_append SYS k

theorem uses_andThen {t : Lookup α} (ht : t.Uses W R) {f : α → Lookup β} (hf : ∀ a, (f a).Uses W R) :
    (t.andThen f).Uses W R := by
  refine ht.bind fun r => ?_
  cases r with
  | ok a => exact hf a
  | error e => trivial

include hR

theorem uses_loadSchema (name : Bytes) (version : Nat) : (loadSchema sys name version).Uses W R := by
  refine ⟨.inr ⟨hR _ ?_, fun _ => rfl⟩, fun _ => trivial⟩
  split
  · exact isHidden_append _
  · exact isHidden_append _

theorem uses_findTypeFrom (typeName : Bytes) (names hits : List (Bytes × Nat)) :
    (findTypeFrom sys typeName names hits).Uses W R := by
  induction names generalizing hits with
  | nil => trivial
  | cons name names ih =>
    refine (uses_loadSchema hR sys name.1 0).bind fun r => ?_
    cases r with
    | ok r => exact ih _
    | error e => exact ih _

theorem uses_findType (typeName : Bytes) : (findType sys typeName).Uses W R :=
  ⟨.inr ⟨hR _ (isHidden_append _), fun _ => rfl⟩, fun _ => uses_findTypeFrom hR sys typeName _ _⟩

theorem uses_explicit (typeName : Bytes) (schema : Option Bytes) (version : Nat) :
    (explicit sys typeName schema version).Uses W R := by
  cases schema with
  | some s => trivial
  | none => exact uses_andThen (uses_findType hR sys typeName) fun _ => trivial

theorem uses_describe (b : Proto.BindingRecord) : (describe sys b).Uses W R := by
  refine uses_andThen ?_ fun _ => trivial
  exact uses_andThen (uses_loadSchema hR sys _ _) fun _ => trivial

theorem uses_fieldRmw {key : Bytes} (hkey : W key) (op : Proto.FieldOp) (tries : Nat) : (fieldRmw sys key op tries).Uses W R := by
  induction tries with
  | zero => trivial
  | succ tries ih =>
    refine ⟨.inl hkey, fun ctx => ?_⟩
    dsimp only
    split
    · trivial
    refine (uses_describe hR sys _).bind fun r => ?_
    cases r with
    | error e => trivial
    | ok t =>
      refine ⟨.inl hkey, fun ctx => ?_⟩
      dsimp only
      split
      · trivial
      · exact ih

omit hR

/-! ## Typed writes -/

/-- The call is for a key among the arguments, and writes nothing else. -/
def TypedCall.Fits (W R : Bytes → Prop) (call : TypedCall D) : Prop := W call.key ∧ ∀ t, (call.store t).Uses W R

variable {args : List Bytes} {call : TypedCall D}

theorem setWith_fits (hW : ∀ a ∈ args.tail, W a) {read : D → Bytes → Except Bytes M}
    (h : setWith sys cmd read now args = .ok call) : call.Fits W R := by
  unfold setWith at h
  split at h
  · cases h
  rename_i hlen
  obtain ⟨o, -, h⟩ := bind_eq_ok.1 h
  cases h
  have hkey : W (args.getD 1 []) := hW _ (getD_mem_tail (by omega))
  refine ⟨hkey, fun t => ?_⟩
  dsimp only [orInvalid]
  split
  · unfold writeValue
    split
    · trivial
    · exact Routine.uses_iff.2 (Handler.visits_onKey ⟨trivial, fun _ => .inl hkey⟩ fun _ _ _ => trivial)
  · trivial

/-- What the other commands do with a key as their first argument. -/
theorem uses_delegate (others : Handlers) (hsafe : c.scriptSafe = true) (hfixed : c.movable = false)
    (hplaces : c.places = .first) {key : Bytes} (hkey : W key) (name : Bytes) (rest : List Bytes) :
    (others.handler c (name :: key :: rest)).Uses W R := by
  have hwithin := others.within c (name :: key :: rest) hsafe hfixed
  refine Routine.Within.uses R _ (Routine.Within.mono (fun k hk => ?_) _ hwithin)
  rw [hplaces] at hk
  obtain ⟨i, hp, hi⟩ := Command.KeyPlaces.mem_keys.mp hk
  obtain rfl : i = 1 := by simpa [Command.KeyPlaces.holds] using hp
  obtain rfl : key = k := Option.some.inj hi
  exact hkey

theorem uses_validated (r : Proto.ResolvedType D) (raws : List Bytes) {next : Handler} (h : next.Uses W R) :
    (validated sys r raws next).Uses W R := by
  unfold validated
  split
  · exact h
  · trivial

theorem hset_fits (others : Handlers) (hW : ∀ a ∈ args.tail, W a) (h : hset sys others args = .ok call) : call.Fits W R := by
  unfold hset at h
  split at h
  · cases h
  rename_i hlen
  obtain ⟨⟨typeName, rest⟩, -, h⟩ := bind_eq_ok.1 h
  dsimp only at h
  split at h
  · cases h
  · cases h
    have hkey : W (args.getD 1 []) := hW _ (getD_mem_tail (by omega))
    exact ⟨hkey, fun t => uses_validated sys t _ (uses_delegate others rfl rfl rfl hkey _ _)⟩

theorem sadd_fits (others : Handlers) (hW : ∀ a ∈ args.tail, W a) (h : sadd sys others args = .ok call) : call.Fits W R := by
  unfold sadd at h
  split at h
  · cases h
  rename_i hlen
  obtain ⟨⟨typeName, rest⟩, -, h⟩ := bind_eq_ok.1 h
  dsimp only at h
  split at h
  · cases h
  · cases h
    have hkey : W (args.getD 1 []) := hW _ (getD_mem_tail (by omega))
    exact ⟨hkey, fun t => uses_validated sys t _ (uses_delegate others rfl rfl rfl hkey _ _)⟩

theorem parseBind_mem (h : parseBind sys args = .ok b) : b.1 ∈ args.tail := by
  unfold parseBind at h
  split at h
  · cases h
  rename_i hlen
  dsimp only at h
  split at h
  · cases h
  obtain ⟨t, -, h⟩ := bind_eq_ok.1 h
  obtain ⟨⟨schema, version⟩, -, h⟩ := bind_eq_ok.1 h
  cases h
  exact getD_mem_tail (by omega)

end Proto

/-! ## The commands of a batch -/

namespace Task

variable {R : Bytes → Prop} {frozen : Prop} {target : Option Proto.BindCache} {own : Bytes → Prop} {n₀ : DataNode}
variable {s : Bytes → ShardCtx} (hR : ∀ k, isHidden k = true → R k) {sys : Proto.Services P D M} {now : UInt64}

include hR

theorem comes_typed {call : Except Reply (Proto.TypedCall D)} (hfits : ∀ c, call = .ok c → c.Fits own R)
    (hmode : frozen ∧ target = (lookedUp sys now n₀).2 ∨ ∀ c, call = .ok c → c.typeName ≠ none) :
    Comes R frozen target own n₀ s (typed sys now call) := by
  unfold typed
  split
  · exact comes_done _
  rename_i call
  have hstore (b : Proto.BindingRecord) (s : Bytes → ShardCtx) :
      Comes R frozen target own n₀ s (find (Proto.describe sys b) fun t => handle (call.store t)) :=
    comes_find (Proto.uses_describe hR sys b) fun t s => comes_handle ((hfits call rfl).2 t)
  unfold resolveForKey
  split
  · exact comes_find (Proto.uses_explicit hR sys _ _ _) hstore
  rename_i htype
  rcases hmode with ⟨hf, htarget⟩ | hmode
  · refine comes_bindings hf htarget ?_
    dsimp only
    split
    · exact hstore _ _
    · exact comes_done _
  · exact absurd htype (hmode call rfl)

theorem comes_protoBind (hW : ∀ a ∈ args.tail, own a) : Comes R False none own n₀ s (protoBind sys args) := by
  unfold protoBind
  split
  · exact comes_done _
  rename_i pre t schema version hparse
  refine comes_find (Proto.uses_explicit hR sys _ _ _) fun b s => ?_
  refine comes_find (Proto.uses_describe hR sys _) fun r s => ?_
  exact comes_bind (hW _ (Proto.parseBind_mem sys hparse)) _ _

omit hR

theorem comes_protoUnbind (hW : ∀ a ∈ args.tail, own a) : Comes R False none own n₀ s (protoUnbind args) := by
  unfold protoUnbind
  split
  · exact comes_done _
  · exact comes_unbind (hW _ (getD_mem_tail (by omega))) fun b => .ok (.int (if b then 1 else 0))

end Task

theorem parallelSafe_of_batchable (h : batchable args = some c) : c.parallelSafe = true := by
  unfold batchable at h
  obtain ⟨name, -, h⟩ := Option.bind_eq_some_iff.mp h
  split at h
  · cases h
  · exact (Option.filter_eq_some_iff.mp h).2

variable (env : PipeEnv P D M)

/-- A typed write that looks nothing up has its type among the arguments. -/
theorem typeName_ne_none {call : Except Reply (Proto.TypedCall D)} (hcall : typedCall env now args = call.toOption)
    (hlooks : looksUp env now args = false) :
    ∀ c, call = .ok c → c.typeName ≠ none := by
  rintro c rfl hnone
  rw [looksUp, hcall] at hlooks
  simp [Except.toOption, hnone] at hlooks

/-- The commands beside which no hidden keys are named are the PROTO commands. -/
theorem isProto_of_protoTask (hsafe : c.parallelSafe = true) (h : protoTask env now c args = none) : c.isProto = false := by
  cases c <;> first | rfl | exact Bool.noConfusion hsafe | cases h

section Batch

variable {R : Bytes → Prop} {frozen : Prop} {target : Option Proto.BindCache} {n₀ : DataNode} {now : UInt64}

/-- Either nobody writes the table, and the copy goes where a look-up takes it, or nobody looks anything up. -/
def Mode (frozen : Prop) (target : Option Proto.BindCache) (n₀ : DataNode) (now : UInt64) (args : List Bytes) : Prop :=
  (frozen ∧ target = (Task.lookedUp env.proto now n₀).2 ∧ bindsTable args = false) ∨
    (frozen = False ∧ target = none ∧ looksUp env now args = false)

/-- Every command of a batch comes to what it comes to alone. -/
theorem comes_taskOf (hc : batchable args = some c) (hR : c.isProto = true → ∀ k, isHidden k = true → R k)
    (hmode : Mode env frozen target n₀ now args) :
    Task.Comes R frozen target (· ∈ args.tail) n₀ n₀.keys (taskOf env now c args) := by
  have hsafe := parallelSafe_of_batchable hc
  have htyped {call : Except Reply (Proto.TypedCall D)} (hproto : c.isProto = true)
      (hcall : typedCall env now args = call.toOption) (hfits : ∀ c, call = .ok c → c.Fits (· ∈ args.tail) R) :
      Task.Comes R frozen target (· ∈ args.tail) n₀ n₀.keys (Task.typed env.proto now call) := by
    refine Task.comes_typed (hR hproto) hfits ?_
    rcases hmode with ⟨hf, htarget, -⟩ | ⟨-, -, hlooks⟩
    · exact .inl ⟨hf, htarget⟩
    · exact .inr (typeName_ne_none env hcall hlooks)
  have hown : ∀ a ∈ args.tail, a ∈ args.tail := fun a ha => ha
  unfold taskOf
  split
  · exact Task.comes_done _
  refine Task.comes_read (fun n haround => by rw [haround.writeStopped, haround.compactionStopped]) ?_
  split
  · exact Task.comes_done _
  split
  · exact Task.comes_done _
  cases htask : protoTask env now c args with
  | none =>
    have hwithin := handlerOf_within_args env.sys env.others env.multi hsafe (isProto_of_protoTask env hsafe htask) args
    exact Task.comes_handle (Routine.Within.uses R _ hwithin)
  | some t =>
    unfold protoTask at htask
    split at htask
    · cases htask
      rcases hmode with ⟨-, -, hbinds⟩ | ⟨rfl, rfl, -⟩
      · simp [bindsTable, hc] at hbinds
      · exact Task.comes_protoBind (hR rfl) hown
    · cases htask
      rcases hmode with ⟨-, -, hbinds⟩ | ⟨rfl, rfl, -⟩
      · simp [bindsTable, hc] at hbinds
      · exact Task.comes_protoUnbind hown
    · cases htask
      exact htyped rfl (by rw [typedCall, hc]) fun call hcall => Proto.setWith_fits env.proto hown hcall
    · cases htask
      exact htyped rfl (by rw [typedCall, hc]) fun call hcall => Proto.setWith_fits env.proto hown hcall
    · cases htask
      exact htyped rfl (by rw [typedCall, hc]) fun call hcall => Proto.hset_fits env.proto env.others hown hcall
    · cases htask
      exact htyped rfl (by rw [typedCall, hc]) fun call hcall => Proto.sadd_fits env.proto env.others hown hcall
    · cases htask
      refine Task.comes_handle ?_
      unfold Proto.setfield
      split
      · trivial
      · split
        · trivial
        · exact Proto.uses_fieldRmw (hR rfl) env.proto (getD_mem_tail (by omega)) _ _
    · cases htask
      refine Task.comes_handle ?_
      unfold Proto.clearfield
      split
      · trivial
      · split
        · trivial
        · exact Proto.uses_fieldRmw (hR rfl) env.proto (getD_mem_tail (by omega)) _ _
    · cases htask

end Batch

/-! ## Batches -/

/-- The commands may run side by side, and no two of them share an argument. -/
structure Beside (batch : List (List Bytes)) : Prop where
  batchable : ∀ args ∈ batch, isBatchable args = true
  disjoint : batch.Pairwise fun a b => ∀ k ∈ a.tail, k ∉ b.tail

theorem takeBatch_beside (seen : List Bytes) (pending : List (List Bytes)) :
    Beside (takeBatch seen pending).1 ∧ ∀ args ∈ (takeBatch seen pending).1, ∀ k ∈ args.tail, k ∉ seen := by
  induction pending generalizing seen with
  | nil => exact ⟨⟨forall_mem_nil _, .nil⟩, forall_mem_nil _⟩
  | cons next pending ih =>
    rw [takeBatch]
    split
    · exact ⟨⟨forall_mem_nil _, .nil⟩, forall_mem_nil _⟩
    rename_i hjoins
    rw [not_eq_true, or_eq_false_iff, not_eq_false', any_eq_false] at hjoins
    obtain ⟨hbatchable, hfresh⟩ := hjoins
    obtain ⟨⟨hall, hdisjoint⟩, hseen⟩ := ih (next.tail ++ seen)
    refine ⟨⟨?_, ?_⟩, ?_⟩
    · intro args hargs
      rcases mem_cons.mp hargs with rfl | hargs
      · exact hbatchable
      · exact hall args hargs
    · refine pairwise_cons.mpr ⟨fun args hargs k hk hk' => ?_, hdisjoint⟩
      exact hseen args hargs k hk' (mem_append_left _ hk)
    · intro args hargs k hk
      rcases mem_cons.mp hargs with rfl | hargs
      · simpa using hfresh k hk
      · exact fun h => hseen args hargs k hk (mem_append_right _ h)

theorem beside_of_mem_batches (h : batch ∈ batches pending) (hlen : 2 ≤ batch.length) : Beside batch := by
  induction pending using batches.induct with
  | case1 =>
    rw [batches] at h
    cases h
  | case2 args pending hjoins ih =>
    rw [batches, if_pos hjoins] at h
    rcases mem_cons.mp h with rfl | h
    · obtain ⟨⟨hall, hdisjoint⟩, hseen⟩ := takeBatch_beside args.tail pending
      refine ⟨fun a ha => ?_, pairwise_cons.mpr ⟨fun a ha k hk hk' => hseen a ha k hk' hk, hdisjoint⟩⟩
      rcases mem_cons.mp ha with rfl | ha
      · exact hjoins.2
      · exact hall a ha
    · exact ih h
  | case3 args pending hjoins ih =>
    rw [batches, if_neg hjoins] at h
    rcases mem_cons.mp h with rfl | h
    · simp at hlen
    · exact ih h

/-- The batches hold all commands, in the order sent. -/
theorem flatten_batches (pending : List (List Bytes)) : (batches pending).flatten = pending := by
  induction pending using batches.induct with
  | case1 =>
    rw [batches]
    rfl
  | case2 args pending hjoins ih =>
    rw [batches, if_pos hjoins, flatten_cons, ih, cons_append, takeBatch_append]
  | case3 args pending hjoins ih =>
    rw [batches, if_neg hjoins, flatten_cons, ih]
    rfl

/-- In every order of the jobs of a batch, replies and node are the same. -/
theorem interleaved_unique (hbeside : Beside batch) (hapart : Apart env now batch)
    (h₁ : Interleaved (tasks env now batch) n rs n₁)
    (h₂ : Interleaved (tasks env now batch) n rs' n₂) : rs = rs' ∧ n₁ = n₂ := by
  let R : Bytes → Prop := fun k => (∃ args ∈ batch, (batchable args).any Command.isProto = true) ∧ isHidden k = true
  obtain ⟨frozen, target, hmode⟩ : ∃ frozen target, ∀ args ∈ batch, Mode env frozen target n now args := by
    rcases hapart.table with hbinds | hlooks
    · exact ⟨True, _, fun args hargs => .inl ⟨trivial, rfl, hbinds args hargs⟩⟩
    · exact ⟨False, none, fun args hargs => .inr ⟨rfl, rfl, hlooks args hargs⟩⟩
  have hparts : ∀ args ∈ batch, ∃ x : Task × Part, (batchable args).map (fun c => taskOf env now c args) = some x.1 ∧
      x.2.own = (· ∈ args.tail) ∧ (x.2.contract R frozen target).Meets x.1 n := by
    intro args hargs
    obtain ⟨c, hc⟩ := Option.isSome_iff_exists.mp (hbeside.batchable args hargs)
    have hR : c.isProto = true → ∀ k, isHidden k = true → R k := by
      intro hproto k hk
      exact ⟨⟨args, hargs, by rw [hc]; exact hproto⟩, hk⟩
    obtain ⟨p, hown, hmeets⟩ := comes_taskOf env hc hR (hmode args hargs)
    exact ⟨(_, p), by rw [hc]; rfl, hown, hmeets n ⟨fun _ _ => rfl, Around.refl n⟩⟩
  have : Nonempty (Task × Part) := by
    cases batch with
    | nil => exact ⟨(.done (.ok .null), ⟨fun _ => False, .ok .null, n.keys, fun _ => none, False, False⟩)⟩
    | cons args batch => exact ⟨(hparts args mem_cons_self).choose⟩
  choose! x hx using hparts
  have htasks : tasks env now batch = (batch.map x).map Prod.fst := by
    rw [tasks, filterMap_congr fun args hargs => (hx args hargs).1, map_map, filterMap_eq_map']
    rfl
  have hmeets : ∀ y ∈ batch.map x, (y.2.contract R frozen target).Meets y.1 n := by
    intro y hy
    obtain ⟨args, hargs, rfl⟩ := mem_map.mp hy
    exact (hx args hargs).2.2
  have hR : ∀ y ∈ batch.map x, ∀ k, y.2.own k → ¬ R k := by
    intro y hy k hk hRk
    obtain ⟨args, hargs, rfl⟩ := mem_map.mp hy
    rw [(hx args hargs).2.1] at hk
    exact absurd hRk.2 (eq_false_iff.mp (hapart.hidden hRk.1 args hargs k hk))
  have hdisjoint : ((batch.map x).map Prod.snd).Pairwise fun p q => ∀ k, p.own k → ¬ q.own k := by
    rw [map_map]
    refine pairwise_map.mpr (hbeside.disjoint.imp_of_mem fun {a b} ha hb hab k hk hk' => ?_)
    simp only [Function.comp_apply, (hx a ha).2.1, (hx b hb).2.1] at hk hk'
    exact hab k hk hk'
  rw [htasks] at h₁ h₂
  exact Part.unique hmeets hR hdisjoint h₁ h₂

/-! ## Whole pipelines -/

theorem executeAll_append :
    executeAll env now (as ++ bs) n =
      ((executeAll env now as n).1 ++ (executeAll env now bs (executeAll env now as n).2).1,
        (executeAll env now bs (executeAll env now as n).2).2) := by
  induction as generalizing n with
  | nil => rfl
  | cons args as ih =>
    rw [cons_append, executeAll, executeAll]
    rcases execute env now args n with ⟨r, m⟩
    dsimp only
    rw [ih]
    rfl

/-- One after the other, the tasks of a batch are its commands. -/
theorem executeAll_eq_inOrder (now : UInt64) (h : ∀ args ∈ batch, isBatchable args = true) (n : DataNode) :
    executeAll env now batch n = Strand.inOrder (tasks env now batch) n := by
  induction batch generalizing n with
  | nil => rfl
  | cons args batch ih =>
    obtain ⟨c, hc⟩ := Option.isSome_iff_exists.mp (h args mem_cons_self)
    have htasks : tasks env now (args :: batch) = taskOf env now c args :: tasks env now batch := by
      rw [tasks, filterMap_cons, hc]
      rfl
    rw [htasks, executeAll, Strand.inOrder, execute, hc]
    dsimp only
    rw [ih fun a ha => h a (mem_cons_of_mem _ ha)]

theorem servedBatches_eq (h : ServedBatches env now bs n rs n') (hbs : ∀ b ∈ bs, 2 ≤ b.length → Beside b ∧ Apart env now b)
    (hclock : ∀ b ∈ bs, b.any clockBound = false) : executeAll env now bs.flatten n = (rs, n') := by
  induction h with
  | nil n => rfl
  | @single args bs n n' rs _ ih =>
    rw [flatten_cons, singleton_append, executeAll]
    dsimp only
    rw [ih (fun b hb => hbs b (mem_cons_of_mem _ hb)) fun b hb => hclock b (mem_cons_of_mem _ hb)]
  | @batch batch bs n n' n'' rs rs' hlen hjobs _ ih =>
    obtain ⟨hbeside, hapart⟩ := hbs batch mem_cons_self hlen
    have horder := Strand.interleaved_inOrder (tasks env now batch) [] n
    obtain ⟨hrs, hn⟩ := interleaved_unique env hbeside hapart hjobs horder
    rw [flatten_cons, executeAll_append, executeAll_eq_inOrder env now hbeside.batchable, ← hn,
      ih (fun b hb => hbs b (mem_cons_of_mem _ hb)) fun b hb => hclock b (mem_cons_of_mem _ hb), hrs]
    rfl
  | clocked hbound =>
    rw [hclock _ mem_cons_self] at hbound
    cases hbound

/-- A registry with one schema, which defines every type. -/
def oneSchema : Proto.Services Unit Unit Unit where
  isUtf8 _ := true
  schemaIndex _ := [(ascii "s", 1)]
  schemaRecord _ _ := some (.ok ⟨1, [], [ascii "T"]⟩)
  poolFromFds _ := .ok ()
  getMessage _ _ := some ()
  decode _ _ := .ok ()
  deserialize _ _ := .ok ()
  encodedLen _ := 0
  maxValue := 1
  parsePath _ := .ok []
  putValue _ _ _ _ ctx := (ctx, .ok)
  identity _ _ := .error .null
  putFields _ _ _ _ ctx := (ctx, none)
  bindTtlMs := 2000

def typedEnv : PipeEnv Unit Unit Unit where
  sys := scriptsOn fun _ => 0
  proto := oneSchema
  others := idleHandlers
  multi _ _ _ := trivial
  single _ _ n := (.ok .null, n)

/-- Nothing is bound, and nothing is known of the table. -/
def unboundNode : DataNode := ⟨fun _ => emptyCtx, ∅, false, none, false, false⟩

/-- `PROTO.BIND user: T` -/
def bindUser : List Bytes := [ascii "PROTO.BIND", ascii "user:", ascii "T"]

/-- `PROTO.SET user:1 v` -/
def setUser : List Bytes := [ascii "PROTO.SET", ascii "user:1", ascii "v"]

/-- `PROTO.SET user:1 v TYPE U` -/
def setTyped : List Bytes := [ascii "PROTO.SET", ascii "user:1", ascii "v", ascii "TYPE", ascii "U"]

theorem find_bind_and_set : Command.find [80, 82, 79, 84, 79, 46, 66, 73, 78, 68] = some .protoBind ∧
    Command.find [80, 82, 79, 84, 79, 46, 83, 69, 84] = some .protoSet := by
  decide

theorem batchable_bindUser : batchable bindUser = some .protoBind := by
  have hname : (ascii "PROTO.BIND").map asciiUpper = [80, 82, 79, 84, 79, 46, 66, 73, 78, 68] := by decide
  simp only [batchable, bindUser, head?_cons, Option.bind_some, hname, find_bind_and_set.1]
  rfl

theorem batchable_set (rest : List Bytes) : batchable (ascii "PROTO.SET" :: rest) = some .protoSet := by
  have hname : (ascii "PROTO.SET").map asciiUpper = [80, 82, 79, 84, 79, 46, 83, 69, 84] := by decide
  simp only [batchable, head?_cons, Option.bind_some, hname, find_bind_and_set.2]
  rfl

theorem batches_pair (ha : isBatchable a = true) (hb : isBatchable b = true)
    (hdisjoint : b.tail.any (· ∈ a.tail) = false) : batches [a, b] = [[a, b]] := by
  have htake : takeBatch a.tail [b] = ([b], []) := by
    rw [takeBatch, hb, hdisjoint]
    rfl
  rw [batches, if_pos ⟨cons_ne_nil _ _, ha⟩, htake, batches]

section Pair

variable {args : List Bytes} (hset : batchable args = some .protoSet) (hdisjoint : args.tail.any (· ∈ bindUser.tail) = false)

include hset

theorem tasks_pair : tasks typedEnv 0 [bindUser, args] =
    [taskOf typedEnv 0 .protoBind bindUser, taskOf typedEnv 0 .protoSet args] := by
  simp [tasks, batchable_bindUser, hset]

include hdisjoint

theorem served_pair
    (h : Interleaved [taskOf typedEnv 0 .protoBind bindUser, taskOf typedEnv 0 .protoSet args] (n.atTime 0) rs n') :
    Served typedEnv [(0, [bindUser, args])] n (rs ++ [] ++ []) n' := by
  refine .read ?_ (.nil n')
  rw [batches_pair (by rw [isBatchable, batchable_bindUser]; rfl) (by rw [isBatchable, hset]; rfl) hdisjoint]
  exact .batch (Nat.le_refl 2) (by rw [tasks_pair hset]; exact h) (.nil n')

end Pair

theorem inOrder_pair (hset : batchable args = some .protoSet) (n : DataNode) :
    (inOrder typedEnv [(0, [bindUser, args])] n).1 =
      (Strand.inOrder [taskOf typedEnv 0 .protoBind bindUser, taskOf typedEnv 0 .protoSet args] (n.atTime 0)).1 := by
  have hall : ∀ a ∈ [bindUser, args], isBatchable a = true := by simp [isBatchable, batchable_bindUser, hset]
  rw [inOrder, executeAll_eq_inOrder typedEnv 0 hall, tasks_pair hset]
  exact append_nil _

end Marekvs
