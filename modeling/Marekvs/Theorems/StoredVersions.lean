import Marekvs.Repl.Apply

/-!
# The version stored under a string key

SET and MSET put their records without reading what is there. That is sound as long as the clock has passed the stored version:
then versions only rise, and nothing that was stored before a blind put can undo it. The clock need not have passed it. It
follows a replicated stamp only five seconds past the wall clock, and it starts again from the wall clock, so a record from
further ahead is stored and the next SET goes below it.
-/

namespace Marekvs

open List Option Envelope Ikey

namespace Node

/-- The record is of a type that string keys hold. -/
def stringTyped (value : Bytes) : Bool :=
  match Envelope.decode value with
  | none => true
  | some (env, _) => env.rtype = .string ∨ env.rtype = .counter

/-- A replicated record under a string key is of a type that string keys hold. Records under other keys are any. -/
def typedRecord (op : ReplOp) : Bool :=
  match parse op.ikey with
  | some ⟨_, .string, _, _⟩ => stringTyped op.value
  | _ => true

/-- The records a step takes in for string keys are of the types that string keys hold. -/
def TypedOp : NodeOp → Prop
  | .applyOpFrom op _ => typedRecord op
  | .applyOpsBatch _ ops => ∀ op ∈ ops, typedRecord op.1
  | _ => True

/-- The node's next reading is not below `v`: the clock is about to pass it or the wall clock has. -/
def clockReaches (id : NodeId) (clock wall : UInt64) (v : Version) : Prop :=
  v ≤ ⟨clock + 1, id⟩ ∨ v ≤ ⟨hlcPack wall 0, id⟩

instance (id : NodeId) (clock wall : UInt64) (v : Version) : Decidable (clockReaches id clock wall v) :=
  inferInstanceAs (Decidable (_ ∨ _))

/-- The clock reaches the version stored under each key of an MSET when the key's turn comes. -/
def msetCovered (n : Node) : UInt64 → List (Bytes × Bytes × UInt64) → Prop
  | _, [] => True
  | clock, (userkey, _, wall) :: items =>
    clockReaches n.id clock wall (n.versionAt (stringKey userkey)) ∧ msetCovered n (Hlc.now clock wall) items

/-- At a blind put the clock reaches the version that is stored. -/
def Covered (n : Node) : NodeOp → Prop
  | .writeString userkey _ _ wall => clockReaches n.id n.clock wall (n.versionAt (stringKey userkey))
  | .mset items => msetCovered n n.clock items
  | _ => True

/-! ## The merge of string-key records -/

theorem clockReaches.le {id : NodeId} {clock wall : UInt64} (h : clockReaches id clock wall v) :
    v ≤ ⟨Hlc.now clock wall, id⟩ := by
  have hmono : ∀ {a : UInt64}, a ≤ Hlc.now clock wall → (⟨a, id⟩ : Version) ≤ ⟨Hlc.now clock wall, id⟩ := by
    intro a ha
    rcases ha.lt_or_eq with hlt | heq
    · exact .inl hlt
    · exact .inr ⟨heq, le_rfl⟩
  rcases h with h | h
  · exact h.trans (hmono (le_max_left _ _))
  · exact h.trans (hmono (le_max_right _ _))

@[simp] theorem versionOf_newLww (t : RecordType) (hlc : UInt64) (node : NodeId) (payload : Bytes) (ttl : UInt64) :
    versionOf (newLww t hlc node payload ttl) = ⟨hlc, node⟩ := by
  simp [versionOf, newLww, version, new, withTtl]

theorem stringTyped_newLww (hlc : UInt64) (node : NodeId) (payload : Bytes) (ttl : UInt64) :
    stringTyped (newLww .string hlc node payload ttl) = true := by
  have hstr : ((new .string hlc node).withTtl ttl).rtype = .string := rtype_flagsOf _ false _ _ _
  simp [stringTyped, newLww, hstr]

/-- Records of the types that string keys hold are merged as counters or by version. -/
theorem mergeValues_typed (hl : stringTyped l = true) (hi : stringTyped i = true)
    (hdl : Envelope.decode l = some (lenv, lpay)) (hdi : Envelope.decode i = some (ienv, ipay)) :
    mergeValues l i = if lenv.rtype = .counter ∧ ienv.rtype = .counter ∧ !lenv.isTombstone ∧ !ienv.isTombstone then
      mergeCounters lenv lpay ienv ipay l i else mergeLww lenv ienv := by
  have hlt : lenv.rtype = .string ∨ lenv.rtype = .counter := by simpa [stringTyped, hdl] using hl
  have hit : ienv.rtype = .string ∨ ienv.rtype = .counter := by simpa [stringTyped, hdi] using hi
  have hreg : ¬ (lenv.rtype = .hllRegister ∧ ienv.rtype = .hllRegister ∧ !lenv.isTombstone ∧ !ienv.isTombstone) := by
    rintro ⟨h, _⟩
    rcases hlt with h' | h' <;> rw [h] at h' <;> cases h'
  have helem : ienv.isHead ∨ lenv.isHead ∨ !ienv.rtype.isOrElement := by
    right; right
    rcases hit with h' | h' <;> rw [h'] <;> rfl
  simp only [mergeValues, hdl, hdi, if_neg hreg, if_pos helem]

/-- What the merge of two string-key records does: one of the two stays by version, or two counters join under the newer
version. -/
theorem mergeResolve_typed (hl : stringTyped l = true) (hi : stringTyped i = true) :
    versionOf l ≤ versionOf (mergeResolve l i) ∧ stringTyped (mergeResolve l i) = true := by
  unfold mergeResolve
  cases hdl : decode l with
  | none =>
    simp only [mergeValues, versionOf, hdl, map_none, getD_none]
    exact ⟨Dot.zero_le _, hi⟩
  | some lp =>
    obtain ⟨lenv, lpay⟩ := lp
    cases hdi : decode i with
    | none =>
      simp only [mergeValues, hdl, hdi]
      exact ⟨le_rfl, hl⟩
    | some ip =>
      obtain ⟨ienv, ipay⟩ := ip
      have hlww : versionOf l ≤ versionOf (resolve l i (mergeLww lenv ienv)) ∧
          stringTyped (resolve l i (mergeLww lenv ienv)) = true := by
        rw [resolve_mergeLww]
        split
        · rename_i hlt
          refine ⟨?_, hi⟩
          simpa [versionOf, hdl, hdi] using hlt.le
        · exact ⟨le_rfl, hl⟩
      rw [mergeValues_typed hl hi hdl hdi]
      split
      · unfold mergeCounters
        split
        · refine ⟨?_, ?_⟩
          · simp only [resolve_outcomeOf, versionOf, hdl, decode_encodeWith, map_some, getD_some]
            exact le_max_left _ _
          · simp only [resolve_outcomeOf, stringTyped, decode_encodeWith, decide_eq_true_eq]
            exact .inr (rtype_flagsOf _ false _ _ _)
        · exact hlww
      · exact hlww

/-- A text is not changed by merging a string-key record that is not newer. -/
theorem mergeResolve_newLww {hlc : UInt64} {ttl : UInt64} {b : Bytes}
    (hb : stringTyped b = true) (hle : versionOf b ≤ ⟨hlc, node⟩) :
    mergeResolve (newLww .string hlc node payload ttl) b = newLww .string hlc node payload ttl := by
  have hdl : decode (newLww .string hlc node payload ttl) = some ((new .string hlc node).withTtl ttl, payload) :=
    decode_encodeWith _ _
  have hstr : ((new .string hlc node).withTtl ttl).rtype = .string := rtype_flagsOf _ false _ _ _
  unfold mergeResolve
  cases hdi : decode b with
  | none =>
    rw [mergeValues, hdl, hdi]
    rfl
  | some ip =>
    have hver : ip.1.version ≤ ⟨hlc, node⟩ := by simpa [versionOf, hdi] using hle
    rw [mergeValues_typed (stringTyped_newLww ..) hb hdl hdi, if_neg (by simp [hstr]), resolve_mergeLww]
    exact if_neg (not_lt.2 hver)

/-! ## What one step keeps -/

/-- Everything stored under a string key, and everything that waits to be merged, is of the types that string keys hold. -/
structure Typed (n : Node) : Prop where
  db : ∀ ikey b, n.db.getRaw ikey = some b → stringTyped b = true
  inbox : ∀ p ∈ n.inbox, ∀ op ∈ p.2, typedRecord op = true

/-- The blind puts of a covered step are texts stamped at or above what is stored. -/
theorem blindWrites_spec (hcov : Covered n op) (hw : (k, w) ∈ blindWrites n op) :
    ∃ hlc payload ttl, w = newLww .string hlc n.id payload ttl ∧ n.versionAt k ≤ ⟨hlc, n.id⟩ := by
  have hmset : ∀ (items : List (Bytes × Bytes × UInt64)) (clock : UInt64), msetCovered n clock items →
      (k, w) ∈ stampAll n.id clock items →
      ∃ hlc payload ttl, w = newLww .string hlc n.id payload ttl ∧ n.versionAt k ≤ ⟨hlc, n.id⟩ := by
    intro items
    induction items with
    | nil => intro clock _ hmem; cases hmem
    | cons item items ih =>
      obtain ⟨userkey, value, wall⟩ := item
      intro clock hc hmem
      obtain ⟨hreach, hrest⟩ := hc
      rcases mem_cons.1 hmem with heq | hmem
      · obtain ⟨rfl, rfl⟩ := Prod.mk.inj heq
        exact ⟨_, _, _, rfl, hreach.le⟩
      · exact ih _ hrest hmem
  cases op with
  | writeString userkey value ttl wall =>
    obtain ⟨rfl, rfl⟩ := Prod.mk.inj (mem_singleton.1 hw)
    exact ⟨_, _, _, rfl, clockReaches.le hcov⟩
  | mset items => exact hmset items n.clock hcov hw
  | _ => cases hw

/-- After blind puts a key holds what it held or one of the records put. -/
theorem getRaw_putManyLww (items : List (Bytes × Bytes)) (db : Db) (k : Bytes) :
    (putManyLww db items).getRaw k = db.getRaw k ∨ ∃ w, (k, w) ∈ items ∧ (putManyLww db items).getRaw k = some w := by
  induction items generalizing db with
  | nil => exact .inl rfl
  | cons item items ih =>
    obtain ⟨k', v⟩ := item
    rcases ih (db.putRaw k' v) with h | ⟨w, hw, h⟩
    · by_cases hk : k' = k
      · subst hk
        exact .inr ⟨v, mem_cons_self, h.trans (Db.getRaw_putRaw_self db k' v)⟩
      · exact .inl (h.trans (Db.getRaw_putRaw_of_ne db hk v))
    · exact .inr ⟨w, mem_cons_of_mem _ hw, h⟩

/-- The later store is typed, and no version is lower there. -/
def Rises (db db' : Db) : Prop :=
  (∀ k b, db'.getRaw k = some b → stringTyped b = true) ∧
    ∀ k, ((db.getRaw k).map versionOf).getD ⟨0, 0⟩ ≤ ((db'.getRaw k).map versionOf).getD ⟨0, 0⟩

/-- A shard that merges a typed record keeps a typed store typed and lowers no version. -/
theorem applyRecord_typed (pid : Pid) {db : Db} (hdb : ∀ k b, db.getRaw k = some b → stringTyped b = true)
    (hop : typedRecord op = true) : Rises db (applyRecord pid db op) := by
  unfold applyRecord
  split
  · rename_i p userkey suffix hparse
    rw [typedRecord, hparse] at hop
    split
    · exact ⟨hdb, fun k => le_rfl⟩
    have hkind : mergeAt op.ikey = mergeValues := by
      funext l i
      simp [mergeAt, budgetKind, hparse]
    have hget : ∀ k, k ≠ op.ikey → (db.writeMerged op.ikey op.value).getRaw k = db.getRaw k :=
      fun k hk => Db.getRaw_writeMerged_of_ne db (Ne.symm hk) op.value
    have hself : stringTyped (writeMergedAt op.ikey (db.getRaw op.ikey) op.value) = true ∧
        ((db.getRaw op.ikey).map versionOf).getD ⟨0, 0⟩ ≤ versionOf (writeMergedAt op.ikey (db.getRaw op.ikey) op.value) := by
      cases hl : db.getRaw op.ikey with
      | none => exact ⟨hop, Dot.zero_le _⟩
      | some l =>
        have := mergeResolve_typed (hdb _ l hl) hop
        simp only [writeMergedAt, hkind]
        exact ⟨this.2, this.1⟩
    constructor
    · intro k b hk
      by_cases hkk : k = op.ikey
      · subst hkk
        rw [Db.getRaw_writeMerged_self, some.injEq] at hk
        exact hk ▸ hself.1
      · exact hdb k b (hget k hkk ▸ hk)
    · intro k
      by_cases hkk : k = op.ikey
      · subst hkk
        rw [Db.getRaw_writeMerged_self]
        exact hself.2
      · rw [hget k hkk]
  · exact ⟨hdb, fun k => le_rfl⟩

theorem foldl_applyRecord_typed (pid : Pid) {ops : List ReplOp} {db : Db}
    (hdb : ∀ k b, db.getRaw k = some b → stringTyped b = true) (hops : ∀ op ∈ ops, typedRecord op = true) :
    Rises db (ops.foldl (applyRecord pid) db) := by
  induction ops generalizing db with
  | nil => exact ⟨hdb, fun k => le_rfl⟩
  | cons op ops ih =>
    obtain ⟨hdb', hle⟩ := applyRecord_typed pid hdb (hops op mem_cons_self)
    obtain ⟨hdb'', hle'⟩ := ih hdb' fun o ho => hops o (mem_cons_of_mem _ ho)
    exact ⟨hdb'', fun k => (hle k).trans (hle' k)⟩

/-- A step other than a shard's merge changes the store by its blind puts alone. -/
theorem step_db (hop : ∀ index, op ≠ .runShard index) : (step n op).db = putManyLww n.db (blindWrites n op) := by
  cases op with
  | runShard index => exact absurd rfl (hop index)
  | applyOpFrom op wall =>
    simp only [step]
    split
    · rfl
    · split <;> rfl
  | applyOpsBatch pid ops =>
    simp only [step]
    split <;> rfl
  | _ => rfl

/-- What waits to be merged stays typed. -/
theorem typed_inbox (htyped : Typed n) (hop : TypedOp op) : ∀ p ∈ (step n op).inbox, ∀ o ∈ p.2, typedRecord o = true := by
  cases op with
  | restart wall => exact nofun
  | applyOpFrom o wall =>
    simp only [step]
    split
    · exact htyped.inbox
    split
    · exact htyped.inbox
    refine forall_mem_append.2 ⟨htyped.inbox, forall_mem_singleton.2 (forall_mem_singleton.2 hop)⟩
  | applyOpsBatch pid ops =>
    simp only [step]
    split
    · exact htyped.inbox
    exact forall_mem_append.2 ⟨htyped.inbox, forall_mem_singleton.2 (forall_mem_map.2 hop)⟩
  | runShard index =>
    simp only [step]
    split
    · exact htyped.inbox
    exact fun p hp => htyped.inbox p (mem_of_mem_eraseIdx hp)
  | _ => exact htyped.inbox

theorem step_keeps {n : Node} {op : NodeOp} (htyped : Typed n) (hop : TypedOp op) (hcov : Covered n op) :
    Typed (step n op) ∧ ∀ k, n.versionAt k ≤ (step n op).versionAt k := by
  by_cases hrun : ∃ index, op = .runShard index
  · obtain ⟨index, rfl⟩ := hrun
    have hinbox := typed_inbox htyped hop
    simp only [step] at hinbox ⊢
    split
    · exact ⟨htyped, fun k => le_rfl⟩
    rename_i pid ops hidx
    obtain ⟨hdb, hle⟩ := foldl_applyRecord_typed pid htyped.db (htyped.inbox _ (mem_of_getElem? hidx))
    rw [hidx] at hinbox
    exact ⟨⟨hdb, hinbox⟩, hle⟩
  · have hdb := step_db (n := n) fun index h => hrun ⟨index, h⟩
    have hcase := fun k => getRaw_putManyLww (blindWrites n op) n.db k
    rw [← hdb] at hcase
    refine ⟨⟨fun k b hb => ?_, typed_inbox htyped hop⟩, fun k => ?_⟩
    · rcases hcase k with h | ⟨w, hw, h⟩
      · exact htyped.db k b (h ▸ hb)
      · obtain ⟨hlc, payload, ttl, rfl, _⟩ := blindWrites_spec hcov hw
        rw [h, some.injEq] at hb
        exact hb ▸ stringTyped_newLww ..
    · rcases hcase k with h | ⟨w, hw, h⟩
      · rw [versionAt, versionAt, h]
      · obtain ⟨hlc, payload, ttl, rfl, hle⟩ := blindWrites_spec hcov hw
        have : (step n op).versionAt k = ⟨hlc, n.id⟩ := by simp [versionAt, h]
        exact this ▸ hle

/-! ## Whole runs -/

theorem typed_boot (id : NodeId) (wall : UInt64) : Typed (boot id wall) :=
  ⟨fun k b h => by simp [boot] at h, nofun⟩

section

variable {id : NodeId} {wall : UInt64} {ops : List NodeOp}

theorem run_take_succ (hi : i < ops.length) : run id wall (ops.take (i + 1)) = step (run id wall (ops.take i)) ops[i] := by
  rw [take_succ_eq_append_getElem hi, run, run, foldl_append]
  rfl

theorem typed_run (htyped : ∀ op ∈ ops, TypedOp op)
    (hcov : ∀ i, (hi : i < ops.length) → Covered (run id wall (ops.take i)) ops[i]) (i : Nat) :
    Typed (run id wall (ops.take i)) := by
  induction i with
  | zero => exact typed_boot id wall
  | succ i ih =>
    by_cases hi : i < ops.length
    · rw [run_take_succ hi]
      exact (step_keeps ih (htyped _ (getElem_mem hi)) (hcov i hi)).1
    · rw [take_of_length_le (by omega)] at ih ⊢
      exact ih

theorem versionAt_mono (htyped : ∀ op ∈ ops, TypedOp op)
    (hcov : ∀ i, (hi : i < ops.length) → Covered (run id wall (ops.take i)) ops[i]) (k : Bytes) (hij : i ≤ j) :
    (run id wall (ops.take i)).versionAt k ≤ (run id wall (ops.take j)).versionAt k := by
  induction j, hij using Nat.le_induction with
  | base => exact le_rfl
  | succ j _ ih =>
    by_cases hj : j < ops.length
    · rw [run_take_succ hj]
      exact ih.trans ((step_keeps (typed_run htyped hcov j) (htyped _ (getElem_mem hj)) (hcov j hj)).2 k)
    · rw [take_of_length_le (l := ops) (i := j) (by omega)] at ih
      rw [take_of_length_le (l := ops) (i := j + 1) (by omega)]
      exact ih

end

/-- In every run in which string keys receive only texts, counters and tombstones, and in which the clock reaches the stored
version at every blind put: the version stored under a key never goes back, and no record that was stored under a key before a
blind put changes the record put when it is merged into it. -/
theorem stored_versions_never_go_back (id : NodeId) (wall : UInt64) (ops : List NodeOp) (htyped : ∀ op ∈ ops, TypedOp op)
    (hcov : ∀ i, (hi : i < ops.length) → Covered (run id wall (ops.take i)) ops[i]) :
    (∀ k i j, i ≤ j → (run id wall (ops.take i)).versionAt k ≤ (run id wall (ops.take j)).versionAt k) ∧
      ∀ i j, i ≤ j → (hj : j < ops.length) → ∀ k w, (k, w) ∈ blindWrites (run id wall (ops.take j)) ops[j] →
        ∀ b, (run id wall (ops.take i)).db.getRaw k = some b → mergeResolve w b = w := by
  refine ⟨fun k i j hij => versionAt_mono htyped hcov k hij, fun i j hij hj k w hw b hb => ?_⟩
  obtain ⟨hlc, payload, ttl, rfl, hle⟩ := blindWrites_spec (hcov j hj) hw
  have hbv : (run id wall (ops.take i)).versionAt k = versionOf b := by simp [versionAt, hb]
  exact mergeResolve_newLww ((typed_run htyped hcov i).db k b hb) (hbv ▸ (versionAt_mono htyped hcov k hij).trans hle)

/-- A replicated text of key `k`, stamped at second 4 by node 2, reaches node 1 at second 1; node 1 sets the key at second 2. -/
def setAfterNear : List NodeOp :=
  [.applyOpFrom ⟨Ikey.stringKey [107], newLww .string (hlcPack 4000 0) 2 [97] 0⟩ 1000, .runShard 0,
    .writeString [107] [98] 0 2000]

theorem stored_versions_never_go_back_near :
    (run 1 1000 (setAfterNear.take 2)).versionAt (stringKey [107]) ≤
      (run 1 1000 (setAfterNear.take 3)).versionAt (stringKey [107]) := by
  refine (stored_versions_never_go_back 1 1000 setAfterNear ?_ ?_).1 _ 2 3 (by decide)
  · intro op hop
    simp only [setAfterNear, mem_cons, not_mem_nil, or_false] at hop
    rcases hop with rfl | rfl | rfl
    · show typedRecord _ = true
      decide
    · trivial
    · trivial
  · intro i hi
    have hi3 : i < 3 := hi
    interval_cases i
    · trivial
    · trivial
    · show clockReaches _ _ _ _
      decide

/-- The same with a text that is stamped at second 10. -/
def setAfterFar : List NodeOp :=
  [.applyOpFrom ⟨Ikey.stringKey [107], newLww .string (hlcPack 10000 0) 2 [97] 0⟩ 1000, .runShard 0,
    .writeString [107] [98] 0 2000]

/-- The stamp is nine seconds ahead, the clock follows it for five, and SET goes below the text that is stored; merged again,
that text undoes the SET. -/
theorem stored_version_goes_back :
    (∀ op ∈ setAfterFar, TypedOp op) ∧
      (run 1 1000 (setAfterFar.take 3)).versionAt (stringKey [107]) <
        (run 1 1000 (setAfterFar.take 2)).versionAt (stringKey [107]) ∧
      ∃ b w, (run 1 1000 (setAfterFar.take 2)).db.getRaw (stringKey [107]) = some b ∧
        (run 1 1000 (setAfterFar.take 3)).db.getRaw (stringKey [107]) = some w ∧ mergeResolve w b = b ∧ b ≠ w := by
  refine ⟨?_, by decide, newLww .string (hlcPack 10000 0) 2 [97] 0, newLww .string (hlcPack 6000 2) 1 [98] 0,
    by decide, by decide, by decide, by decide⟩
  intro op hop
  simp only [setAfterFar, mem_cons, not_mem_nil, or_false] at hop
  rcases hop with rfl | rfl | rfl
  · show typedRecord _ = true
    decide
  · trivial
  · trivial

end Node

end Marekvs
