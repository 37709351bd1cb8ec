import Marekvs.Engine.BudgetTokens
import Marekvs.Lemmas.ShardFrame
import Marekvs.Lib.Ordered

/-!
# Ledgers and tokens in step

A slot says what its tokens say: what was granted from it is the sum of their amounts, and what was returned the sum of what the
folded ones gave back. A transaction is collected before it is written, so both are read through the collected writes: `Overlay`
is the invariant with the tokens as they will be stored and the slots as they were collected.
-/

namespace Marekvs

open List Db Ikey PendingOps

variable {k ik v w : Bytes} {st : TokenState} {drawn : Nat} {spent clock' : UInt64} {drawn' : TokenId → Nat}

/-! ## Sums over records -/

namespace Db

theorem nodup_toList (db : Db) : db.toList.Nodup := by
  refine db.toList_sorted.imp ?_
  rintro a b h rfl
  simp at h

theorem toList_putRaw_perm (db : Db) (k v : Bytes) :
    (db.putRaw k v).toList.Perm ((k, v) :: db.toList.filter fun e => e.1 ≠ k) := by
  refine (perm_ext_iff_of_nodup (nodup_toList _) ?_).2 ?_
  · refine nodup_cons.2 ⟨?_, db.nodup_toList.filter _⟩
    simp
  rintro ⟨k', v'⟩
  rw [mem_toList]
  by_cases h : k' = k
  · subst h
    simp [eq_comm]
  · rw [getRaw_putRaw_of_ne _ (Ne.symm h), ← mem_toList]
    simp [h]

/-- What a number for each record adds up to. -/
def total (g : Bytes → Bytes → Nat) (db : Db) : Nat := (db.toList.map fun e => g e.1 e.2).sum

theorem total_putRaw (g : Bytes → Bytes → Nat) (db : Db) (k v : Bytes) :
    (db.putRaw k v).total g + (db.getRaw k).elim 0 (g k) = db.total g + g k v := by
  have hput : ∀ w, (db.putRaw k w).total g = g k w + ((db.toList.filter fun e => e.1 ≠ k).map fun e => g e.1 e.2).sum := by
    intro w
    rw [total, ((db.toList_putRaw_perm k w).map _).sum_eq]
    simp
  cases hk : db.getRaw k with
  | none =>
    have hall : (db.toList.filter fun e => e.1 ≠ k) = db.toList := by
      refine filter_eq_self.2 fun e he => decide_eq_true ?_
      rintro rfl
      exact absurd (mem_toList.1 he) (by simp [hk])
    rw [hput, hall, total, Option.elim_none]
    omega
  | some w =>
    have hsame : db.putRaw k w = db := by
      refine Std.ExtTreeMap.ext_getElem? fun {k'} => ?_
      by_cases h : k = k'
      · subst h
        exact (getRaw_putRaw_self db k w).trans hk.symm
      · exact getRaw_putRaw_of_ne db h w
    have hw := hput w
    rw [hsame] at hw
    rw [hput, hw, Option.elim_some]
    omega

theorem total_putRaw_of_zero (h : ∀ v, g k v = 0) (db : Db) (v : Bytes) : (db.putRaw k v).total g = db.total g := by
  have hput := total_putRaw g db k v
  have hold : (db.getRaw k).elim 0 (g k) = 0 := by cases db.getRaw k <;> simp [h]
  rw [h, hold] at hput
  omega

/-- A number that only some keys count for depends on their records only. -/
theorem total_congr {counts : Bytes → Bool} (hg : ∀ k, counts k = false → ∀ v, g k v = 0)
    {db db' : Db} (h : ∀ k, counts k → db.getRaw k = db'.getRaw k) : db.total g = db'.total g := by
  have hfilter : ∀ l : List (Bytes × Bytes),
      (l.map fun e => g e.1 e.2).sum = ((l.filter fun e => counts e.1).map fun e => g e.1 e.2).sum := by
    intro l
    induction l with
    | nil => rfl
    | cons e l ih =>
      rw [map_cons, sum_cons, ih, filter_cons]
      split
      · rfl
      · rename_i hc
        rw [hg e.1 (Bool.eq_false_iff.2 hc), zero_add]
  have hperm : (db.toList.filter fun e => counts e.1).Perm (db'.toList.filter fun e => counts e.1) := by
    refine (perm_ext_iff_of_nodup (db.nodup_toList.filter _) (db'.nodup_toList.filter _)).2 ?_
    rintro ⟨k, v⟩
    rw [mem_filter, mem_filter, mem_toList, mem_toList]
    refine and_congr_left fun hc => ?_
    rw [h k hc]
  rw [total, total, hfilter, hfilter db'.toList, (hperm.map _).sum_eq]

/-- The records of a transaction, in the order they are put. -/
def putAll (db : Db) (ops : BudgetOps) : Db := ops.foldl (fun db op => db.putRaw op.1 op.2) db

theorem putAll_append (db : Db) (ops ops' : BudgetOps) : db.putAll (ops ++ ops') = (db.putAll ops).putAll ops' := foldl_append

theorem getRaw_putAll (db : Db) (ops : BudgetOps) (k : Bytes) :
    (k ∉ ops.map Prod.fst ∧ (db.putAll ops).getRaw k = db.getRaw k) ∨ ∃ v, (k, v) ∈ ops ∧ (db.putAll ops).getRaw k = some v := by
  induction ops using List.reverseRecOn with
  | nil => exact .inl ⟨not_mem_nil, rfl⟩
  | append_singleton ops op ih =>
    obtain ⟨k', v⟩ := op
    rw [putAll_append]
    show _ ∨ ∃ w, _ ∧ ((db.putAll ops).putRaw k' v).getRaw k = some w
    by_cases h : k' = k
    · subst h
      exact .inr ⟨v, by simp, getRaw_putRaw_self _ _ _⟩
    rw [show (putAll (db.putAll ops) [(k', v)]).getRaw k = (db.putAll ops).getRaw k from getRaw_putRaw_of_ne _ h _,
      getRaw_putRaw_of_ne _ h]
    rcases ih with ⟨hk, hraw⟩ | ⟨w, hw, hraw⟩
    · exact .inl ⟨by simpa [hk] using Ne.symm h, hraw⟩
    · exact .inr ⟨w, mem_append_left _ hw, hraw⟩

end Db

theorem ShardCtx.commitOps_eq (ctx : ShardCtx) : ctx.commitOps ops = { ctx with db := ctx.db.putAll ops } := by
  induction ops generalizing ctx with
  | nil => rfl
  | cons op ops ih => exact (ih _).trans rfl

/-! ## Tokens in the store -/

def tokenIdOf (key ik : Bytes) : Option TokenId :=
  if (elemKey .budget key [BUDGET_TOKEN]).isPrefixOf ik then (parse ik).bind fun p => tokenSuffixFields p.suffix else none

def tokenStateOf (v : Bytes) : Option TokenState := (Envelope.decode v).bind fun e => TokenState.decode e.2

@[simp] theorem tokenStateOf_encode (version : Version) (ttl : UInt64) (st : TokenState) :
    tokenStateOf (encodeTokenRecord version ttl st) = some st := by
  simp [tokenStateOf, encodeTokenRecord]

/-- An element's key with one kind byte is not the key of a token if the kind is another. -/
theorem tokenIdOf_of_kind {key : Bytes} {kind : UInt8} (hkind : kind ≠ BUDGET_TOKEN) {suffix : Bytes}
    (h : elemKey .budget key (kind :: suffix) <+: ik) : tokenIdOf key ik = none := by
  rw [tokenIdOf, if_neg]
  intro hpre
  rw [elemKey_eq_append] at h
  rw [elemKey_eq_append, isPrefixOf_iff_prefix] at hpre
  have hone : collectionPrefix .budget key ++ [kind] <+: ik := by
    refine List.IsPrefix.trans ⟨suffix, ?_⟩ h
    simp
  have heq := prefix_of_prefix_length_le hone hpre (by simp)
  rw [prefix_append_right_inj] at heq
  simp [hkind] at heq

theorem tokenIdOf_slotKeyFor (key : Bytes) (hs : HeadState) (window : UInt64) (node : NodeId) (epoch : UInt64) :
    tokenIdOf key (slotKeyFor key hs window node epoch) = none := by
  unfold slotKeyFor
  split
  · exact tokenIdOf_of_kind (by decide) (prefix_refl _)
  · exact tokenIdOf_of_kind (by decide) (prefix_refl _)

theorem tokenIdOf_budgetTokenKey (hk : key.length < 2 ^ 64) (t : TokenId) :
    tokenIdOf key (budgetTokenKey key t) = some t := by
  have hpre : (elemKey .budget key [BUDGET_TOKEN]).isPrefixOf (budgetTokenKey key t) := by
    rw [budgetTokenKey, elemKey_eq_append, elemKey_eq_append, isPrefixOf_iff_prefix]
    exact ⟨Bytes.ofU64 t.gen ++ Bytes.ofU64 t.hlc ++ Bytes.ofU16 t.node ++ Bytes.ofU64 t.epoch, by simp⟩
  rw [tokenIdOf, if_pos hpre, budgetTokenKey, parse_elemKey (by decide) _ _ hk]
  simp [tokenSuffixFields, drop_append, drop_eq_nil_of_le, take_of_length_le]

section Escrow

variable {key : Bytes} {hs : HeadState} {node : NodeId}

/-- What a record contributes to a slot: a number for the state of the node's token, if it was granted from that slot. -/
def tokenShare (key : Bytes) (hs : HeadState) (node : NodeId) (slotKey : Bytes) (f : TokenState → Nat) (ik v : Bytes) : Nat :=
  match tokenIdOf key ik, tokenStateOf v with
  | some t, some st =>
    if t.gen = hs.gen ∧ t.node = node ∧ slotKeyFor key hs st.window t.node t.epoch = slotKey then f st else 0
  | _, _ => 0

/-- The sum over the node's tokens that were granted from a slot. -/
def tokenSum (key : Bytes) (hs : HeadState) (node : NodeId) (slotKey : Bytes) (f : TokenState → Nat) (db : Db) : Nat :=
  db.total (tokenShare key hs node slotKey f)

namespace TokenState

def openAmount (st : TokenState) : Nat := if st.rank < RANK_FOLDED then st.amount.toNat else 0

def foldedSpent (st : TokenState) : Nat := if st.rank < RANK_FOLDED then 0 else st.spent.toNat

/-- What a folded token gave back. -/
def foldedCredit (st : TokenState) : Nat := if st.rank < RANK_FOLDED then 0 else st.credited.toNat

/-- A token of which `drawn` was drawn: open, with that much spent; or folded, with no less spent and the rest given back. -/
def Ok (st : TokenState) (drawn : Nat) : Prop :=
  (st.rank = RANK_OPEN ∧ st.spent.toNat = drawn ∧ st.spent ≤ st.amount) ∨
    (st.rank = RANK_FOLDED ∧ drawn ≤ st.spent.toNat ∧ st.spent.toNat + st.credited.toNat = st.amount.toNat)

theorem Ok.split (h : st.Ok drawn) : st.amount.toNat = st.openAmount + st.foldedSpent + st.foldedCredit := by
  rcases h with ⟨hr, -, -⟩ | ⟨hr, -, hsum⟩
  · simp [openAmount, foldedSpent, foldedCredit, hr, RANK_OPEN, RANK_FOLDED]
  · simp only [openAmount, foldedSpent, foldedCredit, hr, lt_irrefl, if_false]
    omega

theorem Ok.open_of_lt (h : st.Ok drawn) (hlt : st.rank < RANK_FOLDED) :
    st.rank = RANK_OPEN ∧ st.spent.toNat = drawn ∧ st.spent ≤ st.amount := by
  rcases h with h | ⟨hr, -⟩
  · exact h
  · rw [hr] at hlt
    exact absurd hlt (lt_irrefl _)

/-- An open token that is folded gives back what was not spent. -/
theorem Ok.folded (h : st.Ok drawn) (hlt : st.rank < RANK_FOLDED) (state : UInt8) (hspent : st.spent ≤ spent) :
    (st.folded state spent).Ok drawn := by
  obtain ⟨-, hd, hle⟩ := h.open_of_lt hlt
  have hmin : min spent st.amount ≤ st.amount := min_le_right _ _
  have hge : st.spent ≤ min spent st.amount := le_min hspent hle
  rw [UInt64.le_iff_toNat_le] at hge
  refine .inr ⟨rfl, by rw [← hd]; exact hge, ?_⟩
  show (min spent st.amount).toNat + (st.amount - min spent st.amount).toNat = st.amount.toNat
  rw [UInt64.toNat_sub_of_le _ _ hmin]
  rw [UInt64.le_iff_toNat_le] at hmin
  omega

end TokenState

/-- The node's tokens of the generation: each under its own key, none younger than the clock, each in order. -/
def TokensOk (key : Bytes) (hs : HeadState) (node : NodeId) (drawn : TokenId → Nat) (clock : UInt64) (db : Db) : Prop :=
  ∀ ik v t, db.getRaw ik = some v → tokenIdOf key ik = some t → t.gen = hs.gen → t.node = node →
    ik = budgetTokenKey key t ∧ t.hlc ≤ clock ∧ ∃ st, tokenStateOf v = some st ∧ st.Ok (drawn t)

variable {drawn : TokenId → Nat} {clock : UInt64} {db : Db}

/-- The amounts of a slot's tokens are open, spent or given back. -/
theorem TokensOk.tokenSum_split (h : TokensOk key hs node drawn clock db) (slotKey : Bytes) :
    tokenSum key hs node slotKey (fun st => st.amount.toNat) db = tokenSum key hs node slotKey TokenState.openAmount db +
      tokenSum key hs node slotKey TokenState.foldedSpent db + tokenSum key hs node slotKey TokenState.foldedCredit db := by
  unfold tokenSum total
  rw [← sum_map_add, ← sum_map_add]
  congr 1
  refine map_congr_left fun e he => ?_
  unfold tokenShare
  cases ht : tokenIdOf key e.1 with
  | none => rfl
  | some t =>
    cases hst : tokenStateOf e.2 with
    | none => rfl
    | some st =>
      dsimp only
      split
      · rename_i hown
        obtain ⟨-, -, st', hst', hok⟩ := h e.1 e.2 t (mem_toList.1 he) ht hown.1 hown.2.1
        cases hst.symm.trans hst'
        exact hok.split
      · rfl

theorem tokenSum_putRaw_of_ne (h : ∀ t, tokenIdOf key ik = some t → t.gen ≠ hs.gen) (v slotKey : Bytes)
    (f : TokenState → Nat) : tokenSum key hs node slotKey f (db.putRaw ik v) = tokenSum key hs node slotKey f db := by
  refine total_putRaw_of_zero (fun w => ?_) db v
  unfold tokenShare
  split
  · rename_i t st ht hst
    rw [if_neg fun hown => h t ht hown.1]
  · rfl

theorem TokensOk.putRaw_of_ne (h : TokensOk key hs node drawn clock db)
    (hne : ∀ t, tokenIdOf key ik = some t → t.gen ≠ hs.gen) (v : Bytes) : TokensOk key hs node drawn clock (db.putRaw ik v) := by
  intro k w t hraw ht hgen hnode
  by_cases hk : ik = k
  · exact absurd hgen (hne t (hk ▸ ht))
  · rw [getRaw_putRaw_of_ne _ hk] at hraw
    exact h k w t hraw ht hgen hnode

section Token

variable (hk : key.length < 2 ^ 64) {t : TokenId} (hgen : t.gen = hs.gen) (hnode : t.node = node)
include hk hgen hnode

theorem tokenShare_token (slotKey : Bytes) (f : TokenState → Nat) (hv : tokenStateOf v = some st) :
    tokenShare key hs node slotKey f (budgetTokenKey key t) v =
      if slotKeyFor key hs st.window t.node t.epoch = slotKey then f st else 0 := by
  simp [tokenShare, tokenIdOf_budgetTokenKey hk, hv, hgen, hnode]

theorem tokenSum_new (hraw : db.getRaw (budgetTokenKey key t) = none) (slotKey : Bytes) (f : TokenState → Nat)
    (hv : tokenStateOf v = some st) :
    tokenSum key hs node slotKey f (db.putRaw (budgetTokenKey key t) v) = tokenSum key hs node slotKey f db +
      if slotKeyFor key hs st.window t.node t.epoch = slotKey then f st else 0 := by
  have hput := total_putRaw (tokenShare key hs node slotKey f) db (budgetTokenKey key t) v
  rw [hraw, tokenShare_token hk hgen hnode _ _ hv] at hput
  exact hput

/-- A token that is written again contributes its new state in place of the old. -/
theorem tokenSum_again {old : TokenState} (hraw : db.getRaw (budgetTokenKey key t) = some w)
    (hw : tokenStateOf w = some old) (slotKey : Bytes) (f : TokenState → Nat) (hv : tokenStateOf v = some st)
    (hwin : st.window = old.window) :
    tokenSum key hs node slotKey f (db.putRaw (budgetTokenKey key t) v) +
        (if slotKeyFor key hs old.window t.node t.epoch = slotKey then f old else 0) =
      tokenSum key hs node slotKey f db + if slotKeyFor key hs old.window t.node t.epoch = slotKey then f st else 0 := by
  have hput := total_putRaw (tokenShare key hs node slotKey f) db (budgetTokenKey key t) v
  rw [hraw, Option.elim_some, tokenShare_token hk hgen hnode _ _ hv, tokenShare_token hk hgen hnode _ _ hw, hwin] at hput
  exact hput

theorem TokensOk.putToken (h : TokensOk key hs node drawn clock db) (hclock : clock ≤ clock') (hhlc : t.hlc ≤ clock')
    (hdrawn : ∀ t', t' ≠ t → drawn' t' = drawn t') (hv : tokenStateOf v = some st) (hok : st.Ok (drawn' t)) :
    TokensOk key hs node drawn' clock' (db.putRaw (budgetTokenKey key t) v) := by
  intro k w t' hraw ht hgen' hnode'
  by_cases heq : budgetTokenKey key t = k
  · subst heq
    rw [tokenIdOf_budgetTokenKey hk, Option.some.injEq] at ht
    subst ht
    rw [getRaw_putRaw_self, Option.some.injEq] at hraw
    exact ⟨rfl, hhlc, st, hraw ▸ hv, hok⟩
  · rw [getRaw_putRaw_of_ne _ heq] at hraw
    obtain ⟨hik, hle, st', hst', hok'⟩ := h k w t' hraw ht hgen' hnode'
    have hne : t' ≠ t := by
      rintro rfl
      exact heq hik.symm
    exact ⟨hik, hle.trans hclock, st', hst', by rwa [hdrawn t' hne]⟩

end Token

/-! ## Collected writes -/

/-- The ledger under a slot's key; none where it was given up. -/
def Db.slotAt (db : Db) (slotKey : Bytes) : Option SlotState :=
  match (db.getRaw slotKey).bind Envelope.decode with
  | none => none
  | some (env, payload) => if env.isTombstone then none else SlotState.decode payload

theorem ShardCtx.readSlot_eq (ctx : ShardCtx) (slotKey : Bytes) : ctx.readSlot slotKey = (ctx.db.slotAt slotKey).getD .empty := by
  unfold ShardCtx.readSlot Db.slotAt ShardCtx.getRaw
  cases (ctx.db.getRaw slotKey).bind Envelope.decode with
  | none => rfl
  | some e => dsimp only; split <;> rfl

theorem slotAt_encode {st : SlotState} (h : db.getRaw k = some v)
    (hv : v = encodeSlotRecord version 0 tomb st) : db.slotAt k = if tomb then none else some st := by
  simp [Db.slotAt, h, hv, encodeSlotRecord]

namespace PendingOps

variable {p : PendingOps} {ctx : ShardCtx}

theorem lookup_setSlot (k : Bytes) (st : SlotState) (k' : Bytes) :
    (p.setSlot k st).slots.lookup k' = if k' = k then some st else p.slots.lookup k' := by
  have hmap : ∀ l : List (Bytes × SlotState), (l.map fun e => if e.1 = k then (e.1, st) else e).lookup k' =
      if k' = k then (l.lookup k').map fun _ => st else l.lookup k' := by
    intro l
    induction l with
    | nil => simp
    | cons e l ih =>
      obtain ⟨a, b⟩ := e
      have hfst : (if a = k then (a, st) else (a, b)).1 = a := by split <;> rfl
      rw [map_cons, lookup_cons, lookup_cons, hfst, ih]
      by_cases hka : k' = a
      · subst hka
        by_cases hk : k' = k <;> simp [hk]
      · simp [beq_eq_false_iff_ne.2 hka]
  unfold setSlot
  dsimp only
  split
  · rename_i hsome
    rw [hmap]
    split
    · rename_i heq
      subst heq
      obtain ⟨b, hb⟩ := Option.isSome_iff_exists.1 hsome
      rw [hb, Option.map_some]
    · rfl
  · rename_i hnone
    rw [Option.not_isSome_iff_eq_none] at hnone
    rw [lookup_append]
    by_cases heq : k' = k
    · subst heq
      simp [hnone]
    · simp [heq, lookup_cons, beq_eq_false_iff_ne.2 heq]

theorem map_fst_setSlot (k : Bytes) (st : SlotState) :
    (p.setSlot k st).slots.map Prod.fst = if (p.slots.lookup k).isSome then p.slots.map Prod.fst
    else p.slots.map Prod.fst ++ [k] := by
  unfold setSlot
  dsimp only
  split
  · rw [map_map]
    refine map_congr_left fun e _ => ?_
    dsimp only [Function.comp_apply]
    split <;> rfl
  · simp

theorem fst_slotOps (slots : List (Bytes × SlotState)) (ctx : ShardCtx) :
    (slotOps slots ctx).1.map Prod.fst = slots.map Prod.fst ∧ ((slotOps slots ctx).2.db = ctx.db ∧
      (slotOps slots ctx).2.nodeId = ctx.nodeId) ∧ ∀ op ∈ (slotOps slots ctx).1, ∃ version st, (op.1, st) ∈ slots ∧
        op.2 = encodeSlotRecord version 0 false st := by
  induction slots generalizing ctx with
  | nil => exact ⟨rfl, ⟨rfl, rfl⟩, nofun⟩
  | cons e slots ih =>
    obtain ⟨k, st⟩ := e
    obtain ⟨hkeys, hctx, hops⟩ := ih ctx.tick
    refine ⟨by simp [slotOps, hkeys], hctx, ?_⟩
    intro op hop
    rcases mem_cons.1 hop with rfl | hop
    · exact ⟨_, st, mem_cons_self, rfl⟩
    · obtain ⟨version, st', hmem, heq⟩ := hops op hop
      exact ⟨version, st', mem_cons_of_mem _ hmem, heq⟩

end PendingOps

/-- What is over: the slots that were given up, and a store from before. -/
structure Past where
  given : Set Bytes
  db : Db

/-- A slot's state agrees with the tokens granted from it, if it was never given up. In any case it got back, since the past
store, no more than the tokens folded since then gave back. -/
structure Agrees (key : Bytes) (hs : HeadState) (node : NodeId) (past : Past) (db : Db) (k : Bytes) (st : SlotState) : Prop where
  granted : k ∉ past.given → st.granted.toNat = tokenSum key hs node k (fun st => st.amount.toNat) db
  returned : k ∉ past.given → st.returned.toNat = tokenSum key hs node k TokenState.foldedCredit db
  credits : st.returned.toNat + tokenSum key hs node k TokenState.foldedCredit past.db ≤
    ((past.db.slotAt k).getD .empty).returned.toNat + tokenSum key hs node k TokenState.foldedCredit db

/-- A record of a folded token of the generation and the node. -/
def FoldedToken (key : Bytes) (hs : HeadState) (node : NodeId) (ik w : Bytes) : Prop :=
  ∃ t st, tokenIdOf key ik = some t ∧ t.gen = hs.gen ∧ t.node = node ∧ tokenStateOf w = some st ∧ RANK_FOLDED ≤ st.rank

/-- The invariant through the collected writes of a transaction on `db`: the tokens as they will be are in order, those folded
in the past are as they were, and the slots as they will be agree with the tokens. -/
structure Overlay (key : Bytes) (hs : HeadState) (node : NodeId) (past : Past) (drawn : TokenId → Nat) (clock : UInt64)
    (ctx : ShardCtx) (p : PendingOps) : Prop where
  tokens : TokensOk key hs node drawn clock (ctx.db.putAll p.other)
  settled : ∀ ik w, past.db.getRaw ik = some w → FoldedToken key hs node ik w → (ctx.db.putAll p.other).getRaw ik = some w
  agrees : ∀ window epoch, Agrees key hs node past (ctx.db.putAll p.other)
    (slotKeyFor key hs window node epoch) (p.slot ctx (slotKeyFor key hs window node epoch))
  buried : ∀ op ∈ p.other, tokenIdOf key op.1 = none → ∃ version, op.2 = encodeSlotRecord version 0 true .empty
  slots : ∀ k ∈ p.slots.map Prod.fst, tokenIdOf key k = none
  nodup : (p.slots.map Prod.fst).Nodup

theorem Agrees.of_sums {past past' : Past} {k : Bytes} {st : SlotState} (h : Agrees key hs node past db k st)
    (hgiven : past.given ⊆ past'.given) (hdb : past'.db = past.db)
    (hsum : ∀ f, tokenSum key hs node k f db' = tokenSum key hs node k f db) : Agrees key hs node past' db' k st := by
  refine ⟨fun hk => ?_, fun hk => ?_, ?_⟩
  · rw [hsum]
    exact h.granted fun hmem => hk (hgiven hmem)
  · rw [hsum]
    exact h.returned fun hmem => hk (hgiven hmem)
  · rw [hsum, hdb]
    exact h.credits

variable {past : Past} {ctx : ShardCtx} {p : PendingOps}

theorem slot_congr (h : ctx'.db = ctx.db) (p : PendingOps) (k : Bytes) : p.slot ctx' k = p.slot ctx k := by
  rw [slot, slot, ctx'.readSlot_eq, ctx.readSlot_eq, h]

theorem slot_setSlot (k : Bytes) (st : SlotState) (k' : Bytes) :
    (p.setSlot k st).slot ctx k' = if k' = k then st else p.slot ctx k' := by
  rw [slot, lookup_setSlot]
  split <;> rfl

theorem Overlay.congr (ho : Overlay key hs node past drawn clock ctx p) (h : ctx'.db = ctx.db) :
    Overlay key hs node past drawn clock ctx' p := by
  refine ⟨by rw [h]; exact ho.tokens, by rw [h]; exact ho.settled, fun window epoch => ?_, ho.buried, ho.slots, ho.nodup⟩
  rw [h, slot_congr h]
  exact ho.agrees window epoch

/-- A record that is no token of the generation is collected: a token of another one, or the end of a slot. -/
theorem Overlay.push (ho : Overlay key hs node past drawn clock ctx p) (hne : ∀ t, tokenIdOf key ik = some t → t.gen ≠ hs.gen)
    (hv : tokenIdOf key ik = none → ∃ version, v = encodeSlotRecord version 0 true .empty) :
    Overlay key hs node past drawn clock ctx (p.push ik v) := by
  have hdb : ctx.db.putAll (p.push ik v).other = (ctx.db.putAll p.other).putRaw ik v := ctx.db.putAll_append _ _
  refine ⟨hdb ▸ ho.tokens.putRaw_of_ne hne v, fun ik' w hw hfold => ?_, fun window epoch => ?_, fun op hop hnone => ?_, ho.slots,
    ho.nodup⟩
  · have hother : ik ≠ ik' := by
      rintro rfl
      obtain ⟨t, -, ht, hgen, -⟩ := hfold
      exact hne t ht hgen
    rw [hdb, getRaw_putRaw_of_ne _ hother]
    exact ho.settled ik' w hw hfold
  · rw [hdb]
    exact (ho.agrees window epoch).of_sums subset_rfl rfl fun f => tokenSum_putRaw_of_ne hne v _ f
  · rcases mem_append.1 hop with hop | hop
    · exact ho.buried op hop hnone
    · rw [mem_singleton.1 hop] at hnone ⊢
      exact hv hnone

/-- The keys of collected slots stay keys of slots, and distinct. -/
theorem Overlay.setSlot (ho : Overlay key hs node past drawn clock ctx p) {slotKey : Bytes}
    (hslot : tokenIdOf key slotKey = none) (slot : SlotState) :
    (∀ k ∈ (p.setSlot slotKey slot).slots.map Prod.fst, tokenIdOf key k = none) ∧
      ((p.setSlot slotKey slot).slots.map Prod.fst).Nodup := by
  rw [map_fst_setSlot]
  split
  · exact ⟨ho.slots, ho.nodup⟩
  rename_i hnone
  refine ⟨fun k hmem => ?_, nodup_append.2 ⟨ho.nodup, nodup_singleton _, ?_⟩⟩
  · rcases mem_append.1 hmem with hmem | hmem
    · exact ho.slots k hmem
    · rw [mem_singleton.1 hmem]
      exact hslot
  · rintro a ha b hb rfl
    rw [mem_singleton.1 hb] at ha
    obtain ⟨e, he, heq⟩ := mem_map.1 ha
    refine hnone (lookup_isSome_iff.2 ⟨e, he, ?_⟩)
    simp [heq]

/-- A token of the node's is collected, after what was collected for its slot. -/
theorem Overlay.pushToken (ho : Overlay key hs node past drawn clock ctx p) (hk : key.length < 2 ^ 64)
    {p₁ : PendingOps} (hother : p₁.other = p.other)
    (hkeys : (∀ k ∈ p₁.slots.map Prod.fst, tokenIdOf key k = none) ∧ (p₁.slots.map Prod.fst).Nodup)
    (htokens : TokensOk key hs node drawn' clock' ((ctx.db.putAll p.other).putRaw (budgetTokenKey key t) v))
    (hopen : ∀ w st, (ctx.db.putAll p.other).getRaw (budgetTokenKey key t) = some w → tokenStateOf w = some st →
      st.rank < RANK_FOLDED)
    (hagrees : ∀ k, Agrees key hs node past (ctx.db.putAll p.other) k (p.slot ctx k) →
      Agrees key hs node past ((ctx.db.putAll p.other).putRaw (budgetTokenKey key t) v) k (p₁.slot ctx k)) :
    Overlay key hs node past drawn' clock' ctx (p₁.push (budgetTokenKey key t) v) := by
  have hdb : ctx.db.putAll (p₁.push (budgetTokenKey key t) v).other =
      (ctx.db.putAll p.other).putRaw (budgetTokenKey key t) v := by
    rw [← hother]
    exact ctx.db.putAll_append _ _
  refine ⟨hdb ▸ htokens, fun ik w hw hfold => ?_, fun window epoch => ?_, fun op hop hnone => ?_, hkeys.1, hkeys.2⟩
  · have hraw := ho.settled ik w hw hfold
    have hthis : budgetTokenKey key t ≠ ik := by
      rintro rfl
      obtain ⟨-, st, -, -, -, hst, hrank⟩ := hfold
      exact absurd hrank (not_le.2 (hopen w st hraw hst))
    rw [hdb, getRaw_putRaw_of_ne _ hthis]
    exact hraw
  · rw [hdb]
    exact hagrees _ (ho.agrees window epoch)
  rcases mem_append.1 hop with hop | hop
  · exact ho.buried op (hother ▸ hop) hnone
  · rw [mem_singleton.1 hop, tokenIdOf_budgetTokenKey hk] at hnone
    cases hnone

section Own

variable (ho : Overlay key hs node past drawn clock ctx p) (hk : key.length < 2 ^ 64) {t : TokenId} (hgen : t.gen = hs.gen)
  (hnode : t.node = node)
include ho hk hgen hnode

theorem Overlay.token (hraw : (ctx.db.putAll p.other).getRaw (budgetTokenKey key t) = some w)
    (hw : tokenStateOf w = some st) : t.hlc ≤ clock ∧ st.Ok (drawn t) := by
  obtain ⟨-, hle, st', hst', hok⟩ := ho.tokens _ _ _ hraw (tokenIdOf_budgetTokenKey hk t) hgen hnode
  cases hw.symm.trans hst'
  exact ⟨hle, hok⟩

omit ho hk hgen hnode in
theorem rank_lt_of_getRaw (hraw : (ctx.db.putAll p.other).getRaw (budgetTokenKey key t) = some w)
    (hw : tokenStateOf w = some st) (hlt : st.rank < RANK_FOLDED) (w' : Bytes) (st' : TokenState)
    (hraw' : (ctx.db.putAll p.other).getRaw (budgetTokenKey key t) = some w') (hw' : tokenStateOf w' = some st') :
    st'.rank < RANK_FOLDED := by
  cases hraw.symm.trans hraw'
  cases hw.symm.trans hw'
  exact hlt

/-- Folding an open token: what it gives back is added to its slot. -/
theorem Overlay.fold (hraw : (ctx.db.putAll p.other).getRaw (budgetTokenKey key t) = some w)
    (hw : tokenStateOf w = some st) (hlt : st.rank < RANK_FOLDED) (state : UInt8) (hspent : st.spent ≤ spent) :
    Overlay key hs node past drawn clock ctx
      (foldToken key hs (budgetTokenKey key t) t.node t.epoch st state spent p ctx).2.1 := by
  obtain ⟨hhlc, hok⟩ := ho.token hk hgen hnode hraw hw
  have hok' := hok.folded hlt state hspent
  have hv : ∀ version, tokenStateOf (encodeTokenRecord version 0 (st.folded state spent)) = some (st.folded state spent) :=
    fun _ => tokenStateOf_encode _ _ _
  have htokens := ho.tokens.putToken hk hgen hnode (le_refl clock) hhlc (fun _ _ => rfl) (hv ⟨ctx.hlcNow, ctx.nodeId⟩) hok'
  refine ho.pushToken hk rfl (ho.setSlot (tokenIdOf_slotKeyFor _ _ _ _ _) _) htokens
    (rank_lt_of_getRaw hraw hw hlt) fun k hag => ?_
  have hsum := fun f => tokenSum_again hk hgen hnode hraw hw k f (hv ⟨ctx.hlcNow, ctx.nodeId⟩) rfl
  have hamount := hsum fun st => st.amount.toNat
  have hcredit := hsum TokenState.foldedCredit
  have hold : st.foldedCredit = 0 := if_pos hlt
  have hnew : (st.folded state spent).foldedCredit = (st.folded state spent).credited.toNat := if_neg (lt_irrefl RANK_FOLDED)
  have hsame : (st.folded state spent).amount = st.amount := rfl
  simp only [hold, hnew, hsame, ite_self, add_zero] at hamount hcredit
  rw [slot_setSlot]
  by_cases heq : k = slotKeyFor key hs st.window t.node t.epoch
  · subst heq
    rw [if_pos rfl]
    rw [if_pos rfl] at hcredit
    have hc := hag.credits
    refine ⟨fun hkept => (hag.granted hkept).trans (by omega), fun hkept => ?_, ?_⟩
    · -- what is given back in all is no more than what was granted, which is a word
      have hsplit := htokens.tokenSum_split (slotKeyFor key hs st.window t.node t.epoch)
      have hword := (p.slot ctx (slotKeyFor key hs st.window t.node t.epoch)).granted.toNat_lt
      have hg := hag.granted hkept
      have hr := hag.returned hkept
      dsimp only
      rw [UInt64.toNat_satAdd]
      omega
    · dsimp only
      rw [UInt64.toNat_satAdd]
      omega
  · rw [if_neg heq]
    exact hag.of_sums subset_rfl rfl fun f => by simpa only [if_neg (Ne.symm heq), add_zero] using hsum f

/-- A new token: its amount is added to its slot. -/
theorem Overlay.grant (hclock : clock ≤ clock') (hlow : clock < t.hlc) (hhigh : t.hlc ≤ clock') (hdrawn : drawn t = 0)
    (hst : st.rank = RANK_OPEN ∧ st.spent = 0) {granted : UInt64}
    (hadd : (p.slot ctx (slotKeyFor key hs st.window t.node t.epoch)).granted.checkedAdd st.amount = some granted)
    (version : Version) :
    Overlay key hs node past drawn clock' ctx
      ((p.setSlot (slotKeyFor key hs st.window t.node t.epoch)
        { p.slot ctx (slotKeyFor key hs st.window t.node t.epoch) with granted := granted }).push (budgetTokenKey key t)
        (encodeTokenRecord version 0 st)) := by
  have hnone : (ctx.db.putAll p.other).getRaw (budgetTokenKey key t) = none := by
    cases hraw : (ctx.db.putAll p.other).getRaw (budgetTokenKey key t) with
    | none => rfl
    | some w =>
      obtain ⟨-, hle, -⟩ := ho.tokens _ _ _ hraw (tokenIdOf_budgetTokenKey hk t) hgen hnode
      exact absurd hle (not_le.2 hlow)
  have hv := tokenStateOf_encode version 0 st
  have hok : st.Ok (drawn t) := .inl ⟨hst.1, by rw [hst.2, hdrawn]; rfl, by rw [hst.2]; exact UInt64.zero_le⟩
  have htokens := ho.tokens.putToken hk hgen hnode hclock hhigh (fun _ _ => rfl) hv hok
  have hopens : ∀ w st, (ctx.db.putAll p.other).getRaw (budgetTokenKey key t) = some w → tokenStateOf w = some st →
      st.rank < RANK_FOLDED := by
    intro w st hraw
    rw [hnone] at hraw
    cases hraw
  refine ho.pushToken hk rfl (ho.setSlot (tokenIdOf_slotKeyFor _ _ _ _ _) _) htokens hopens fun k hag => ?_
  have hsum := fun f => tokenSum_new hk hgen hnode hnone k f hv
  have hamount := hsum fun st => st.amount.toNat
  have hcredit := hsum TokenState.foldedCredit
  have hopen : st.foldedCredit = 0 := if_pos (by rw [hst.1]; decide)
  rw [hopen, ite_self, add_zero] at hcredit
  rw [slot_setSlot]
  by_cases heq : k = slotKeyFor key hs st.window t.node t.epoch
  · subst heq
    rw [if_pos rfl] at hamount ⊢
    refine ⟨fun hkept => ?_, fun hkept => (hag.returned hkept).trans hcredit.symm, by rw [hcredit]; exact hag.credits⟩
    rw [hamount, ← hag.granted hkept]
    exact UInt64.toNat_checkedAdd hadd
  · rw [if_neg heq]
    exact hag.of_sums subset_rfl rfl fun f => by simpa only [if_neg (Ne.symm heq), add_zero] using hsum f

theorem Overlay.draw (hraw : (ctx.db.putAll p.other).getRaw (budgetTokenKey key t) = some w)
    (hw : tokenStateOf w = some st) (hlt : st.rank < RANK_FOLDED) (hle : spent ≤ st.amount)
    (hdrawn : ∀ t', t' ≠ t → drawn' t' = drawn t') (hself : spent.toNat = drawn' t) (version : Version) :
    Overlay key hs node past drawn' clock ctx
      (p.push (budgetTokenKey key t) (encodeTokenRecord version 0 { st with spent := spent })) := by
  obtain ⟨hhlc, hok⟩ := ho.token hk hgen hnode hraw hw
  obtain ⟨hr, -, -⟩ := hok.open_of_lt hlt
  have hv := tokenStateOf_encode version 0 { st with spent := spent }
  have htokens := ho.tokens.putToken hk hgen hnode (le_refl clock) hhlc hdrawn hv (.inl ⟨hr, hself, hle⟩)
  refine ho.pushToken hk rfl ⟨ho.slots, ho.nodup⟩ htokens (rank_lt_of_getRaw hraw hw hlt) fun k hag => ?_
  have hsum := fun f => tokenSum_again hk hgen hnode hraw hw k f hv rfl
  have hamount := hsum fun st => st.amount.toNat
  have hcredit := hsum TokenState.foldedCredit
  have hcred : TokenState.foldedCredit { st with spent := spent } = st.foldedCredit := rfl
  rw [hcred] at hcredit
  dsimp only at hamount
  have hc := hag.credits
  exact ⟨fun hkept => (hag.granted hkept).trans (by omega), fun hkept => (hag.returned hkept).trans (by omega), by omega⟩

end Own

/-! ## Scans -/

/-- What a scan takes from a record that it looks at. -/
def Seen.victim {α : Type} : Seen α → Option α
  | own v => v
  | _ => none

/-- A scan takes its victims from the records up to the one it stops at. -/
theorem scanVictims_eq (judge : Bytes × Bytes → Seen α) (limit : Nat) (es : List (Bytes × Bytes)) (acc : List α) :
    ∃ n, scanVictims judge limit es acc = acc ++ (es.take n).filterMap fun e => (judge e).victim := by
  induction es generalizing acc with
  | nil => exact ⟨0, by simp [scanVictims]⟩
  | cons e es ih =>
    rw [scanVictims]
    cases hj : judge e with
    | skip =>
      obtain ⟨n, hn⟩ := ih acc
      exact ⟨n + 1, by simp [hn, hj, Seen.victim]⟩
    | stop => exact ⟨0, by simp⟩
    | own v =>
      dsimp only
      split
      · obtain ⟨n, hn⟩ := ih (acc ++ v.toList)
        refine ⟨n + 1, ?_⟩
        rw [hn, take_succ_cons, append_assoc]
        cases v <;> simp [hj, Seen.victim]
      · refine ⟨1, ?_⟩
        cases v <;> simp [hj, Seen.victim]

/-- A record of an open token of the node's, with the token and its state. -/
def OpenToken (key : Bytes) (node : NodeId) (v : TokenId × TokenState) (ik w : Bytes) : Prop :=
  tokenIdOf key ik = some v.1 ∧ v.1.node = node ∧ tokenStateOf w = some v.2 ∧ v.2.rank < RANK_FOLDED

/-- A token that is taken is an open one of the node's. -/
theorem judgeToken_victim {v : Bytes × TokenId × TokenState}
    (hpre : elemKey .budget key [BUDGET_TOKEN] <+: e.1) (h : (judgeToken ctx gen graceMs e).victim = some v) :
    v.1 = e.1 ∧ OpenToken key ctx.nodeId v.2 e.1 e.2 := by
  rw [judgeToken] at h
  rw [← isPrefixOf_iff_prefix] at hpre
  rw [OpenToken, tokenIdOf, if_pos hpre, tokenStateOf]
  repeat' split at h
  all_goals cases h
  rename_i ht hnode _ _ _ hd _ _ _ hst hrank _
  exact ⟨rfl, ht, not_not.1 hnode, by simp [hd, hst], not_le.1 hrank⟩

/-- The victims of a fold: open tokens of the node's, each once. -/
theorem victims_spec (gen graceMs : UInt64) (limit : Nat)
    (hvs : vs = scanVictims (judgeToken ctx gen graceMs) limit (ctx.db.scanPrefix (elemKey .budget key [BUDGET_TOKEN])) []) :
    (vs.map Prod.fst).Nodup ∧ ∀ v ∈ vs, ∃ w, ctx.db.getRaw v.1 = some w ∧ OpenToken key ctx.nodeId v.2 v.1 w := by
  obtain ⟨n, hn⟩ := scanVictims_eq (judgeToken ctx gen graceMs) limit (ctx.db.scanPrefix (elemKey .budget key [BUDGET_TOKEN])) []
  have hspec : ∀ {e v}, e ∈ (ctx.db.scanPrefix (elemKey .budget key [BUDGET_TOKEN])).take n →
      (judgeToken ctx gen graceMs e).victim = some v → v.1 = e.1 ∧ OpenToken key ctx.nodeId v.2 e.1 e.2 :=
    fun he hv => judgeToken_victim (mem_scanPrefix.1 (mem_of_mem_take he)).2 hv
  rw [hvs, hn, nil_append]
  refine ⟨?_, fun v hv => ?_⟩
  · rw [List.Nodup, pairwise_map, pairwise_filterMap]
    refine ((ctx.db.toList_sorted.filter _).sublist (take_sublist n _)).imp_of_mem fun he he' hlt v hv v' hv' heq => ?_
    rw [(hspec he hv).1, (hspec he' hv').1] at heq
    simp [heq] at hlt
  · obtain ⟨e, he, hev⟩ := mem_filterMap.1 hv
    obtain ⟨hkey, htoken⟩ := hspec he hev
    rw [hkey]
    exact ⟨e.2, (mem_scanPrefix.1 (mem_of_mem_take he)).1, htoken⟩

/-- What a pass over a ledger leaves: it has only collected, and nothing is written yet. -/
def Collected (key : Bytes) (hs : HeadState) (node : NodeId) (past : Past) (drawn : TokenId → Nat) (clock : UInt64)
    (ctx : ShardCtx) (r : PendingOps × ShardCtx) : Prop :=
  Overlay key hs node past drawn clock r.2 r.1 ∧ r.2.db = ctx.db ∧ r.2.nodeId = ctx.nodeId

/-- Folding open tokens of the node's one after the other. -/
theorem Overlay.foldVictims (hk : key.length < 2 ^ 64) {vs : List (Bytes × TokenId × TokenState)} :
    ∀ {p : PendingOps} {ctx : ShardCtx}, Overlay key hs node past drawn clock ctx p → (vs.map Prod.fst).Nodup →
      (∀ v ∈ vs, ∃ w, (ctx.db.putAll p.other).getRaw v.1 = some w ∧ OpenToken key node v.2 v.1 w) →
      Collected key hs node past drawn clock ctx (vs.foldl (foldVictim key hs) (p, ctx)) := by
  induction vs with
  | nil => exact fun ho _ _ => ⟨ho, rfl, rfl⟩
  | cons v vs ih =>
    intro p ctx ho hnd hvs
    rw [map_cons, nodup_cons] at hnd
    obtain ⟨w, hraw, hid, hnode, hst, hrank⟩ := hvs v mem_cons_self
    have hstep : Overlay key hs node past drawn clock (foldVictim key hs (p, ctx) v).2 (foldVictim key hs (p, ctx) v).1 ∧
        (foldVictim key hs (p, ctx) v).2 = ctx.tick ∧ ∃ r, (foldVictim key hs (p, ctx) v).1.other = p.other ++ [(v.1, r)] := by
      unfold foldVictim
      split
      · rename_i hgen
        obtain ⟨hkey, -⟩ := ho.tokens _ _ _ hraw hid hgen hnode
        rw [hkey] at hraw ⊢
        exact ⟨(ho.fold hk hgen hnode hraw hst hrank STATE_EXPIRED le_rfl).congr rfl, rfl, _, rfl⟩
      · rename_i hgen
        refine ⟨(ho.push (fun t ht => ?_) fun hnone => ?_).congr rfl, rfl, _, rfl⟩
        · rw [hid, Option.some.injEq] at ht
          exact ht ▸ hgen
        · rw [hid] at hnone
          cases hnone
    obtain ⟨ho', hctx, r, hother⟩ := hstep
    rw [foldl_cons]
    generalize foldVictim key hs (p, ctx) v = acc at ho' hctx hother
    obtain ⟨p', ctx'⟩ := acc
    dsimp only at ho' hctx hother
    subst hctx
    refine ih ho' hnd.2 fun v' hv' => ?_
    obtain ⟨w', hraw', htoken⟩ := hvs v' (mem_cons_of_mem _ hv')
    refine ⟨w', ?_, htoken⟩
    rw [hother, putAll_append]
    refine (getRaw_putRaw_of_ne _ (fun heq => hnd.1 ?_) _).trans hraw'
    exact heq ▸ mem_map_of_mem hv'

/-- What is known of a ledger stays known when the clock goes on and more slots are out of it. -/
theorem Overlay.mono (ho : Overlay key hs node past drawn clock ctx p) (hgiven : past.given ⊆ given')
    (hclock : clock ≤ clock') : Overlay key hs node ⟨given', past.db⟩ drawn clock' ctx p := by
  refine ⟨fun ik v t hraw ht hgen hnode => ?_, ho.settled, fun window epoch => ?_, ho.buried, ho.slots, ho.nodup⟩
  rotate_left
  · exact (ho.agrees window epoch).of_sums hgiven rfl fun _ => rfl
  obtain ⟨hik, hle, hst⟩ := ho.tokens ik v t hraw ht hgen hnode
  exact ⟨hik, hle.trans hclock, hst⟩

/-- A head enters by its generation and its mode only. -/
theorem Overlay.of_head (ho : Overlay key hs node past drawn clock ctx p) (hgen : hs'.gen = hs.gen)
    (hmode : hs'.mode = hs.mode) : Overlay key hs' node past drawn clock ctx p := by
  have hslot : ∀ window node epoch, slotKeyFor key hs' window node epoch = slotKeyFor key hs window node epoch := by
    intro window node epoch
    simp only [slotKeyFor, hgen, hmode]
  have hsum : ∀ slotKey f db, tokenSum key hs' node slotKey f db = tokenSum key hs node slotKey f db := by
    intro slotKey f db
    simp only [tokenSum, total, tokenShare, hslot, hgen]
  refine ⟨fun ik v t hraw ht htgen => ho.tokens ik v t hraw ht (htgen.trans hgen), fun ik w hw hfold => ?_,
    fun window epoch => ?_,
    ho.buried, ho.slots, ho.nodup⟩
  · obtain ⟨t, st, ht, htgen, hrest⟩ := hfold
    exact ho.settled ik w hw ⟨t, st, ht, htgen.trans hgen, hrest⟩
  rw [hslot]
  obtain ⟨hg, hr, hc⟩ := ho.agrees window epoch
  simp only [← hsum] at hg hr hc
  exact ⟨hg, hr, hc⟩

theorem Overlay.foldExpiredOwn (ho : Overlay key hs node past drawn clock ctx .empty) (hk : key.length < 2 ^ 64)
    (hnode : ctx.nodeId = node) (graceMs : UInt64) (limit : Nat) {r : PendingOps × ShardCtx}
    (hr : r = Marekvs.foldExpiredOwn key hs graceMs limit .empty ctx) :
    Collected key hs node past drawn clock ctx r := by
  unfold Marekvs.foldExpiredOwn at hr
  generalize hscan : scanVictims (judgeToken ctx hs.gen graceMs) limit
    (ctx.db.scanPrefix (elemKey .budget key [BUDGET_TOKEN])) [] = vs at hr
  obtain ⟨hnd, hvs⟩ := victims_spec hs.gen graceMs limit hscan.symm
  subst hr
  refine ho.foldVictims hk hnd fun v hv => ?_
  obtain ⟨w, hraw, hid, hown, hst⟩ := hvs v hv
  exact ⟨w, hraw, hid, hown.trans hnode, hst⟩

theorem Overlay.buryWindows {vs : List Bytes} (hvs : ∀ k ∈ vs, tokenIdOf key k = none) :
    ∀ {p : PendingOps} {ctx : ShardCtx}, Overlay key hs node past drawn clock ctx p →
      Collected key hs node past drawn clock ctx (vs.foldl buryWindow (p, ctx)) := by
  induction vs with
  | nil => exact fun ho => ⟨ho, rfl, rfl⟩
  | cons k vs ih =>
    intro p ctx ho
    have hnone := hvs k mem_cons_self
    have hstep : Overlay key hs node past drawn clock (buryWindow (p, ctx) k).2 (buryWindow (p, ctx) k).1 := by
      refine (ho.push (fun t ht => ?_) fun _ => ⟨_, rfl⟩).congr rfl
      rw [hnone] at ht
      cases ht
    exact ih (fun k' hk' => hvs k' (mem_cons_of_mem _ hk')) hstep

theorem judgeWindow_victim (h : (judgeWindow ctx cutoff e).victim = some k) : k = e.1 := by
  unfold judgeWindow at h
  repeat' split at h
  all_goals cases h
  rfl

/-- Slots that are given up are none that tokens are kept under. -/
theorem Overlay.gcOldWindows (ho : Overlay key hs node past drawn clock ctx p) (maxTtlMs graceMs current : UInt64)
    (limit : Nat) {r : PendingOps × ShardCtx} (hr : r = Marekvs.gcOldWindows key hs maxTtlMs graceMs current limit p ctx) :
    Collected key hs node past drawn clock ctx r := by
  unfold Marekvs.gcOldWindows at hr
  split at hr
  · subst hr
    exact ⟨ho, rfl, rfl⟩
  dsimp only at hr
  split at hr
  · subst hr
    exact ⟨ho, rfl, rfl⟩
  subst hr
  refine Overlay.buryWindows (fun k hmem => ?_) ho
  obtain ⟨n, hn⟩ := scanVictims_eq _ limit (ctx.db.scanPrefix (budgetKindPrefix key BUDGET_WINDOW_SLOT hs.gen)) []
  rw [hn, nil_append] at hmem
  obtain ⟨e, he, hek⟩ := mem_filterMap.1 hmem
  rw [judgeWindow_victim hek]
  exact tokenIdOf_of_kind (by decide) (mem_scanPrefix.1 (mem_of_mem_take he)).2

end Escrow

end Marekvs
