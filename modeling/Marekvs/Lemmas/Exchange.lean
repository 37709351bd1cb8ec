import Marekvs.Lib.Repair
import Marekvs.Repl.AntiEntropy

/-!
# An exchange repairs every key on its own

Where the hash function tells the keys, the values, the digests and the roots of two owners apart (`Distinguishes`), a whole
exchange between them is one round of `Repair.round` on each key, with the clock readings of the records and the key's merge.
-/

namespace Marekvs

open List

namespace Ae

variable {xxh3 : Bytes → UInt64} {pid : Pid} {keys : List Bytes}

variable {s a b t : Records} {f g : Bytes → Bytes} {st : Records × Records} {p : Bytes → Bytes × Bytes} {k : Bytes} {i : Nat}
  {who : Nat → Bool}

/-- The internal keys of one partition that are exchanged, each once. -/
structure Keyed (pid : Pid) (keys : List Bytes) : Prop where
  nodup : keys.Nodup
  parse : ∀ k ∈ keys, ∃ p, Ikey.parse k = some p ∧ p.pid = pid ∧ p.tag ≠ .zsetScore

/-- The node holds the value `f k` under each key. -/
def Holds (keys : List Bytes) (s : Records) (f : Bytes → Bytes) : Prop := ∀ k ∈ keys, s k = some (f k)

/-- Each of two nodes holds its part of `p k` under each key. -/
def HoldPair (keys : List Bytes) (st : Records × Records) (p : Bytes → Bytes × Bytes) : Prop :=
  ∀ k ∈ keys, st.1 k = some (p k).1 ∧ st.2 k = some (p k).2

/-- The hash function does not confuse what two owners compare: their keys, their values of one key, their digests of a bucket
and their roots. -/
structure Distinguishes (xxh3 : Bytes → UInt64) (keys : List Bytes) (a b : Records) : Prop where
  keyHash : ∀ k ∈ keys, ∀ k' ∈ keys, xxh3 k = xxh3 k' → k = k'
  valueHash : ∀ k ∈ keys, ∀ x y, a k = some x → b k = some y → xxh3 x = xxh3 y → x = y
  digest : ∀ i < BUCKETS, (bucketDigests xxh3 keys a)[i]? = (bucketDigests xxh3 keys b)[i]? →
    bucketEntries xxh3 keys a i = bucketEntries xxh3 keys b i
  root : partitionRoot xxh3 keys a = partitionRoot xxh3 keys b → bucketDigests xxh3 keys a = bucketDigests xxh3 keys b

/-- The merge of a key's stored values. -/
def mergeVal (ikey x y : Bytes) : Bytes := resolve x y (mergeAt ikey x y)

theorem Holds.pair (ha : Holds keys a f) (hb : Holds keys b g) : HoldPair keys (a, b) fun k => (f k, g k) :=
  fun k hk => ⟨ha k hk, hb k hk⟩

namespace HoldPair

theorem fst (h : HoldPair keys st p) : Holds keys st.1 fun k => (p k).1 := fun k hk => (h k hk).1

theorem snd (h : HoldPair keys st p) : Holds keys st.2 fun k => (p k).2 := fun k hk => (h k hk).2

theorem swap (h : HoldPair keys st p) : HoldPair keys st.swap fun k => (p k).swap := fun k hk => (h k hk).symm

theorem congr (h : HoldPair keys st p) (heq : ∀ k ∈ keys, q k = p k) : HoldPair keys st q := by
  intro k hk
  rw [heq k hk]
  exact h k hk

end HoldPair

/-! ## Scans -/

theorem scan_eq (hk : Keyed pid keys) (hs : Holds keys s f) : scan keys s = keys.map fun k => ⟨k, f k⟩ := by
  unfold scan
  rw [← filterMap_eq_map]
  refine filterMap_congr fun k hkm => ?_
  obtain ⟨p, hp, _, htag⟩ := hk.parse k hkm
  have hidx : isIndex k = false := by simp [isIndex, hp, htag]
  simp [hidx, hs k hkm]

theorem bucketRecords_eq (hk : Keyed pid keys) (hs : Holds keys s f) (i : Nat) :
    bucketRecords xxh3 keys s i = (keys.filter fun k => bucketOf xxh3 k = i).map fun k => ⟨k, f k⟩ := by
  unfold bucketRecords
  rw [scan_eq hk hs, filter_map]
  rfl

theorem bucketEntries_eq (hk : Keyed pid keys) (hs : Holds keys s f) (i : Nat) :
    bucketEntries xxh3 keys s i = (keys.filter fun k => bucketOf xxh3 k = i).map fun k => entryOf xxh3 ⟨k, f k⟩ := by
  unfold bucketEntries
  rw [bucketRecords_eq hk hs, map_map]
  rfl

theorem mem_bucket : k ∈ keys.filter (fun k => bucketOf xxh3 k = i) ↔ k ∈ keys ∧ bucketOf xxh3 k = i := by
  simp

theorem lookupEntry_bucketEntries (hk : Keyed pid keys) (hs : Holds keys s f)
    (hkeys : ∀ k ∈ keys, ∀ k' ∈ keys, xxh3 k = xxh3 k' → k = k') (hkm : k ∈ keys) :
    lookupEntry (bucketEntries xxh3 keys s (bucketOf xxh3 k)) (xxh3 k) = some (entryOf xxh3 ⟨k, f k⟩) := by
  cases hfind : lookupEntry (bucketEntries xxh3 keys s (bucketOf xxh3 k)) (xxh3 k) with
  | none =>
    rw [lookupEntry, bucketEntries_eq hk hs] at hfind
    have hnone := find?_eq_none.1 hfind (entryOf xxh3 ⟨k, f k⟩)
      (mem_reverse.2 (mem_map.2 ⟨k, mem_bucket.2 ⟨hkm, rfl⟩, rfl⟩))
    simp [entryOf] at hnone
  | some e =>
    rw [lookupEntry, bucketEntries_eq hk hs] at hfind
    have hhash : e.hash = xxh3 k := by simpa using find?_some hfind
    obtain ⟨k', hk', rfl⟩ := mem_map.1 (mem_reverse.1 (mem_of_find?_eq_some hfind))
    rw [hkeys k' (mem_of_mem_filter hk') k hkm hhash]

theorem bucketOf_lt (k : Bytes) : bucketOf xxh3 k < BUCKETS := by
  unfold bucketOf BUCKETS
  rw [UInt64.toNat_and]
  exact Nat.lt_succ_of_le Nat.and_le_right

/-! ## One bucket -/

/-- What a batch of records of the partition does to a node. -/
theorem applyOps_map (hk : Keyed pid keys) {l : List Bytes} (hnd : l.Nodup) (hl : ∀ k ∈ l, k ∈ keys) (g : Bytes → Bytes)
    (s : Records) (k : Bytes) :
    applyOps pid s (l.map fun k => ⟨k, g k⟩) k = if k ∈ l then some (writeMergedAt k (s k) (g k)) else s k := by
  induction l generalizing s with
  | nil => rfl
  | cons k' l ih =>
    obtain ⟨hnot, hnd'⟩ := nodup_cons.1 hnd
    obtain ⟨p, hp, hpid, _⟩ := hk.parse k' (hl k' mem_cons_self)
    have hstep : applyOps pid s ((k' :: l).map fun k => ⟨k, g k⟩) =
        applyOps pid (Function.update s k' (some (writeMergedAt k' (s k') (g k')))) (l.map fun k => ⟨k, g k⟩) := by
      simp [applyOps, hp, hpid]
    rw [hstep, ih hnd' (fun x hx => hl x (mem_cons_of_mem _ hx))]
    by_cases hkk : k = k'
    · subst hkk
      simp [hnot]
    · simp [hkk]

/-- The exchange about one bucket, after the asking node has sent its entries of it: the answering node's pushes are merged by
the asking node, and what it requests is merged by the answering node. -/
def bucketStep (xxh3 : Bytes → UInt64) (pid : Pid) (keys : List Bytes) (i : Nat) (entries : List BucketEntry)
    (st : Records × Records) : Records × Records :=
  let (push, want) := diffBucket xxh3 keys st.2 i entries
  let a := applyOps pid st.1 push
  (a, applyOps pid st.2 (recordsByHash xxh3 keys a i want))

/-- Whether a node that holds `y` pushes it to one that holds `x`. -/
def sends (x y : Bytes) : Bool := recordHlc x < recordHlc y ∨ (recordHlc y = recordHlc x ∧ y ≠ x)

theorem beats_entry (h : xxh3 y = xxh3 x → y = x) : beats (entryOf xxh3 ⟨k, y⟩) (some (entryOf xxh3 ⟨k, x⟩)) = sends x y := by
  have hne : xxh3 y ≠ xxh3 x ↔ y ≠ x := not_congr ⟨h, congrArg xxh3⟩
  simp only [beats, entryOf, sends, recordVhash, hne]

section

variable {a0 a b : Records} {f g : Bytes → Bytes} {i : Nat} (hk : Keyed pid keys) (hf0 : Holds keys a0 f) (hb : Holds keys b g)
  (hkeys : ∀ k ∈ keys, ∀ k' ∈ keys, xxh3 k = xxh3 k' → k = k')
  (hvals : ∀ k ∈ keys, bucketOf xxh3 k = i → xxh3 (f k) = xxh3 (g k) → f k = g k)

include hk hf0 hb hkeys hvals

theorem diffBucket_push : (diffBucket xxh3 keys b i (bucketEntries xxh3 keys a0 i)).1 =
    (keys.filter fun k => bucketOf xxh3 k = i ∧ sends (f k) (g k)).map fun k => ⟨k, g k⟩ := by
  unfold diffBucket
  dsimp only
  rw [bucketRecords_eq hk hb, filter_map]
  congr 1
  rw [filter_filter]
  refine filter_congr fun k hkm => ?_
  by_cases hbk : bucketOf xxh3 k = i
  · subst hbk
    simp only [Function.comp_apply, lookupEntry_bucketEntries hk hf0 hkeys hkm,
      beats_entry fun h => (hvals k hkm rfl h.symm).symm,
      decide_true, Bool.and_true]
    simp
  · simp [hbk]

theorem mem_diffBucket_want (hkm : k ∈ keys) (hbk : bucketOf xxh3 k = i) :
    xxh3 k ∈ (diffBucket xxh3 keys b i (bucketEntries xxh3 keys a0 i)).2 ↔ sends (g k) (f k) = true := by
  subst hbk
  have hmem : xxh3 k ∈ (bucketEntries xxh3 keys a0 (bucketOf xxh3 k)).map BucketEntry.hash := by
    rw [bucketEntries_eq hk hf0]
    exact mem_map.2 ⟨_, mem_map.2 ⟨k, mem_bucket.2 ⟨hkm, rfl⟩, rfl⟩, rfl⟩
  unfold diffBucket
  rw [mem_filter, lookupEntry_bucketEntries hk hf0 hkeys hkm, lookupEntry_bucketEntries hk hb hkeys hkm]
  dsimp only
  rw [beats_entry (hvals k hkm rfl)]
  exact and_iff_right hmem

end

/-- One round on the values of a key. -/
def roundAt (k : Bytes) (p : Bytes × Bytes) : Bytes × Bytes := Repair.round recordHlc (mergeVal k) p.1 p.2

theorem roundAt_eq (k : Bytes) (p : Bytes × Bytes) : roundAt k p =
    ((if sends p.1 p.2 then mergeVal k p.1 p.2 else p.1),
      (if sends p.2 p.1 then mergeVal k p.2 (if sends p.1 p.2 then mergeVal k p.1 p.2 else p.1) else p.2)) := by
  obtain ⟨x, y⟩ := p
  unfold roundAt Repair.round sends
  by_cases hxy : x = y
  · simp [hxy]
  rcases lt_trichotomy (recordHlc x) (recordHlc y) with h | h | h
  · simp [hxy, h, h.not_gt, h.ne, h.ne']
  · simp [hxy, Ne.symm hxy, h]
  · simp [hxy, h, h.not_gt, h.ne', h.ne]

/-- The exchange about one bucket is a round on each of its keys. -/
theorem bucketStep_holds (hk : Keyed pid keys) (hf0 : Holds keys a0 f0) (hst : HoldPair keys st p)
    (hsame : ∀ k ∈ keys, bucketOf xxh3 k = i → (p k).1 = f0 k) (hkeys : ∀ k ∈ keys, ∀ k' ∈ keys, xxh3 k = xxh3 k' → k = k')
    (hvals : ∀ k ∈ keys, bucketOf xxh3 k = i → xxh3 (f0 k) = xxh3 (p k).2 → f0 k = (p k).2) :
    HoldPair keys (bucketStep xxh3 pid keys i (bucketEntries xxh3 keys a0 i) st)
      fun k => if bucketOf xxh3 k = i then roundAt k (p k) else p k := by
  -- the asking node after the pushes
  have h1 : Holds keys (bucketStep xxh3 pid keys i (bucketEntries xxh3 keys a0 i) st).1
      (fun k => (if bucketOf xxh3 k = i then roundAt k (p k) else p k).1) := by
    intro k hkm
    show applyOps pid st.1 (diffBucket xxh3 keys st.2 i (bucketEntries xxh3 keys a0 i)).1 k = _
    rw [diffBucket_push hk hf0 hst.snd hkeys hvals,
      applyOps_map hk (hk.nodup.filter _) (fun x hx => mem_of_mem_filter hx), (hst k hkm).1]
    by_cases hbk : bucketOf xxh3 k = i
    · by_cases hs : sends (f0 k) (p k).2 = true
      · simp [hkm, hbk, hs, writeMergedAt, mergeVal, roundAt_eq, hsame k hkm hbk]
      · simp [hbk, hs, roundAt_eq, hsame k hkm hbk]
    · simp [hbk]
  refine fun k hkm => ⟨h1 k hkm, ?_⟩
  show applyOps pid st.2 (recordsByHash xxh3 keys (bucketStep xxh3 pid keys i (bucketEntries xxh3 keys a0 i) st).1 i
    (diffBucket xxh3 keys st.2 i (bucketEntries xxh3 keys a0 i)).2) k = _
  unfold recordsByHash
  rw [bucketRecords_eq hk h1, filter_map, filter_filter,
    applyOps_map hk (hk.nodup.filter _) (fun x hx => mem_of_mem_filter hx), (hst k hkm).2]
  by_cases hbk : bucketOf xxh3 k = i
  · have hwant := mem_diffBucket_want hk hf0 hst.snd hkeys hvals hkm hbk
    by_cases hs : sends (p k).2 (f0 k) = true
    · simp [hkm, hbk, hs, hwant.2 hs, writeMergedAt, mergeVal, roundAt_eq, hsame k hkm hbk]
    · simp [hbk, hs, mt hwant.1 hs, roundAt_eq, hsame k hkm hbk]
  · simp [hbk]

/-! ## A whole exchange -/

theorem applyOps_nil : applyOps pid s [] = s := rfl

theorem converse_requestKeys (hashes : List UInt64) :
    converse xxh3 pid keys (n + 2) me other (.requestKeys i hashes) =
      (me, applyOps pid other (recordsByHash xxh3 keys me i hashes)) := by
  unfold converse handle
  by_cases h : recordsByHash xxh3 keys me i hashes = []
  · simp [h, applyOps_nil]
  · simp [h, converse, handle]

theorem converse_bucketKeys (n : Nat) (me other : Records) (i : Nat) (entries : List BucketEntry) :
    converse xxh3 pid keys (n + 3) me other (.bucketKeys i entries false) =
      (bucketStep xxh3 pid keys i entries (other, me)).swap := by
  have hrepair : ∀ (a b : Records) (ops : List ReplOp),
      converse xxh3 pid keys (n + 2) a b (.repairOps ops) = (applyOps pid a ops, b) := fun a b ops => rfl
  unfold converse handle bucketStep
  by_cases hpush : (diffBucket xxh3 keys me i entries).1 = []
  · by_cases hwant : (diffBucket xxh3 keys me i entries).2 = []
    · simp [hpush, hwant, applyOps_nil, recordsByHash]
    · simp [hpush, hwant, applyOps_nil, converse_requestKeys]
  · by_cases hwant : (diffBucket xxh3 keys me i entries).2 = []
    · simp [hpush, hwant, applyOps_nil, recordsByHash, hrepair]
    · simp [hpush, hwant, hrepair, converse_requestKeys]

/-- An exchange goes through the buckets whose digests differ, where the roots do. -/
theorem exchange_eq (a b : Records) : exchange xxh3 pid keys a b =
    if partitionRoot xxh3 keys b = partitionRoot xxh3 keys a then (a, b)
    else (differing (bucketDigests xxh3 keys a) (bucketDigests xxh3 keys b)).foldl
      (fun st i => bucketStep xxh3 pid keys i (bucketEntries xxh3 keys a i) st) (a, b) := by
  unfold exchange converse handle
  by_cases h : partitionRoot xxh3 keys b = partitionRoot xxh3 keys a
  · simp [h, converse, handle]
  have hbuckets : converse xxh3 pid keys 4 a b (.merkleBuckets (bucketDigests xxh3 keys b)) =
      (differing (bucketDigests xxh3 keys a) (bucketDigests xxh3 keys b)).foldl
        (fun st i => bucketStep xxh3 pid keys i (bucketEntries xxh3 keys a i) st) (a, b) := by
    unfold converse handle
    simp only [Bool.not_true, foldl_map]
    congr 1
    funext st i
    rw [converse_bucketKeys 0, Prod.swap_swap]
  simp [h, hbuckets]

theorem mem_differing (hi : i < BUCKETS) (ho : i < ours.length) (ht : i < theirs.length) :
    i ∈ differing ours theirs ↔ ours[i]? ≠ theirs[i]? := by
  simp [differing, hi, ho, ht]

theorem length_bucketDigests (s : Records) : (bucketDigests xxh3 keys s).length = BUCKETS := by
  have hfold : ∀ (ops : List ReplOp) (ds : List UInt64), (ops.foldl
      (fun digests op => digests.modify (bucketOf xxh3 op.ikey)
        (· ^^^ entryHash xxh3 op.ikey (recordHlc op.value) (recordVhash xxh3 op.value))) ds).length = ds.length := by
    intro ops
    induction ops with
    | nil => intro ds; rfl
    | cons op ops ih => intro ds; rw [foldl_cons, ih, length_modify]
  unfold bucketDigests
  rw [hfold, length_replicate]

/-- Going through some of the buckets is a round on each of their keys. -/
theorem foldl_bucketStep_holds (hk : Keyed pid keys) (hst : HoldPair keys st p)
    (hkeys : ∀ k ∈ keys, ∀ k' ∈ keys, xxh3 k = xxh3 k' → k = k')
    (hvals : ∀ k ∈ keys, xxh3 (p k).1 = xxh3 (p k).2 → (p k).1 = (p k).2) (buckets : List Nat) (hnd : buckets.Nodup) :
    HoldPair keys (buckets.foldl (fun st' i => bucketStep xxh3 pid keys i (bucketEntries xxh3 keys st.1 i) st') st)
      fun k => if bucketOf xxh3 k ∈ buckets then roundAt k (p k) else p k := by
  induction buckets using List.reverseRecOn with
  | nil => simpa using hst
  | append_singleton buckets i ih =>
    obtain ⟨hnd', hnot⟩ : buckets.Nodup ∧ i ∉ buckets := by
      rw [nodup_append] at hnd
      exact ⟨hnd.1, fun hi => hnd.2.2 i hi i (by simp) rfl⟩
    rw [foldl_append, foldl_cons, foldl_nil]
    -- the keys of bucket `i` are as they were
    have hkeep : ∀ k, bucketOf xxh3 k = i → (if bucketOf xxh3 k ∈ buckets then roundAt k (p k) else p k) = p k := by
      rintro k rfl
      exact if_neg hnot
    refine (bucketStep_holds (i := i) hk hst.fst (ih hnd') (fun k _ hki => by rw [hkeep k hki]) hkeys
      (fun k hkm hki => by rw [hkeep k hki]; exact hvals k hkm)).congr fun k _ => ?_
    by_cases hki : bucketOf xxh3 k = i
    · simp [hki, hnot]
    · simp [hki]

/-- An exchange between two owners that the hash function tells apart is a round on every key. -/
theorem exchange_holds (hk : Keyed pid keys) (hst : HoldPair keys st p) (hd : Distinguishes xxh3 keys st.1 st.2) :
    HoldPair keys (exchange xxh3 pid keys st.1 st.2) fun k => roundAt k (p k) := by
  have hvals : ∀ k ∈ keys, xxh3 (p k).1 = xxh3 (p k).2 → (p k).1 = (p k).2 :=
    fun k hkm h => hd.valueHash k hkm _ _ (hst k hkm).1 (hst k hkm).2 h
  -- a key whose bucket has equal digests has equal values, and a round changes nothing
  have hquiet : ∀ k ∈ keys, (bucketDigests xxh3 keys st.1)[bucketOf xxh3 k]? = (bucketDigests xxh3 keys st.2)[bucketOf xxh3 k]? →
      roundAt k (p k) = p k := by
    intro k hkm h
    have hlook := lookupEntry_bucketEntries hk hst.fst hd.keyHash hkm
    rw [hd.digest _ (bucketOf_lt k) h, lookupEntry_bucketEntries hk hst.snd hd.keyHash hkm] at hlook
    exact if_pos (hvals k hkm (congrArg BucketEntry.vhash (Option.some.inj hlook)).symm)
  rw [exchange_eq]
  split
  · rename_i hroot
    have hdig := hd.root hroot.symm
    exact hst.congr fun k hkm => hquiet k hkm (by rw [hdig])
  · have hnd : (differing (bucketDigests xxh3 keys st.1) (bucketDigests xxh3 keys st.2)).Nodup := nodup_range.filter _
    refine (foldl_bucketStep_holds hk hst hd.keyHash hvals _ hnd).congr fun k hkm => ?_
    split
    · rfl
    rename_i hnot
    have hlt : bucketOf xxh3 k < BUCKETS := bucketOf_lt k
    rw [mem_differing hlt (by rw [length_bucketDigests]; exact hlt) (by rw [length_bucketDigests]; exact hlt), not_not] at hnot
    exact hquiet k hkm hnot

/-! ## Many exchanges -/

theorem Distinguishes.symm (h : Distinguishes xxh3 keys a b) : Distinguishes xxh3 keys b a where
  keyHash := h.keyHash
  valueHash k hk x y hx hy hxy := (h.valueHash k hk y x hy hx hxy.symm).symm
  digest i hi hd := (h.digest i hi hd.symm).symm
  root hr := (h.root hr.symm).symm

/-- After any number of exchanges each key has had that many rounds. -/
theorem exchanges_holds (hk : Keyed pid keys) (hp : HoldPair keys (a, b) p)
    (hd : ∀ n, HoldPair keys (exchanges xxh3 pid keys who a b n) (fun k => Repair.rounds recordHlc (mergeVal k) who (p k) n) →
      Distinguishes xxh3 keys (exchanges xxh3 pid keys who a b n).1 (exchanges xxh3 pid keys who a b n).2) (n : Nat) :
    HoldPair keys (exchanges xxh3 pid keys who a b n) fun k => Repair.rounds recordHlc (mergeVal k) who (p k) n := by
  induction n with
  | zero => exact hp
  | succ n ih =>
    unfold exchanges Repair.rounds Repair.turn
    cases hw : who n with
    | true =>
      simp only [if_true]
      exact exchange_holds hk ih (hd n ih)
    | false =>
      simp only [Bool.false_eq_true, if_false]
      exact (exchange_holds hk ih.swap (hd n ih).symm).swap

/-- The hash function tells all reached stores apart where it tells the rounds' records apart. -/
theorem distinguishes_exchanges (hk : Keyed pid keys) (hp : HoldPair keys (a, b) p)
    (h : ∀ n st, HoldPair keys st (fun k => Repair.rounds recordHlc (mergeVal k) who (p k) n) → Distinguishes xxh3 keys st.1 st.2)
    (n : Nat) : Distinguishes xxh3 keys (exchanges xxh3 pid keys who a b n).1 (exchanges xxh3 pid keys who a b n).2 :=
  h n _ (exchanges_holds hk hp (fun m hm => h m _ hm) n)

/-! ## Stores that agree, and stores with one key -/

theorem scan_congr (h : ∀ k ∈ keys, s k = t k) : scan keys s = scan keys t := by
  unfold scan
  refine filterMap_congr fun k hk => ?_
  rw [h k hk]

theorem bucketDigests_congr (h : ∀ k ∈ keys, s k = t k) : bucketDigests xxh3 keys s = bucketDigests xxh3 keys t := by
  unfold bucketDigests
  rw [scan_congr h]

theorem partitionRoot_congr (h : ∀ k ∈ keys, s k = t k) : partitionRoot xxh3 keys s = partitionRoot xxh3 keys t := by
  unfold partitionRoot
  rw [bucketDigests_congr h]

/-- Stores with the same records have nothing to tell apart but the keys. -/
theorem distinguishes_of_agree (hkeys : ∀ k ∈ keys, ∀ k' ∈ keys, xxh3 k = xxh3 k' → k = k') (h : ∀ k ∈ keys, s k = t k) :
    Distinguishes xxh3 keys s t where
  keyHash := hkeys
  valueHash k hk x y hx hy _ := Option.some.inj (hx.symm.trans ((h k hk).trans hy))
  digest i _ _ := by
    unfold bucketEntries bucketRecords
    rw [scan_congr h]
  root _ := bucketDigests_congr h

/-- The digests of a store with the one key `k`. -/
def singleDigests (xxh3 : Bytes → UInt64) (k v : Bytes) : List UInt64 :=
  (List.replicate BUCKETS 0).modify (bucketOf xxh3 k) (· ^^^ entryHash xxh3 k (recordHlc v) (xxh3 v))

/-- The hash function tells two stores with one key apart where it tells the two records apart. -/
theorem distinguishes_single (hk : Keyed pid [k]) (hval : xxh3 x ≠ xxh3 y)
    (hdig : (singleDigests xxh3 k x)[bucketOf xxh3 k]? ≠ (singleDigests xxh3 k y)[bucketOf xxh3 k]?)
    (hzero : (singleDigests xxh3 k x).all (· = 0) = false ∧ (singleDigests xxh3 k y).all (· = 0) = false)
    (hroot : xxh3 ((singleDigests xxh3 k x).flatMap Bytes.ofU64) ≠ xxh3 ((singleDigests xxh3 k y).flatMap Bytes.ofU64))
    (hs : s k = some x) (ht : t k = some y) : Distinguishes xxh3 [k] s t := by
  have hholds : ∀ {u : Records} {v : Bytes}, u k = some v → Holds [k] u fun _ => v := by
    intro u v hu k' hk'
    rw [mem_singleton.1 hk', hu]
  have hdigests : ∀ {u : Records} {v : Bytes}, u k = some v → bucketDigests xxh3 [k] u = singleDigests xxh3 k v := by
    intro u v hu
    unfold bucketDigests
    rw [scan_eq hk (hholds hu)]
    rfl
  refine ⟨?_, ?_, ?_, ?_⟩
  · intro k1 h1 k2 h2 _
    rw [mem_singleton.1 h1, mem_singleton.1 h2]
  · intro k' hk' x' y' hx' hy' heq
    rw [mem_singleton.1 hk'] at hx' hy'
    rw [hs] at hx'
    rw [ht] at hy'
    cases hx'
    cases hy'
    exact absurd heq hval
  · intro i _ heq
    rw [hdigests hs, hdigests ht] at heq
    have hi : bucketOf xxh3 k ≠ i := by
      rintro rfl
      exact hdig heq
    rw [bucketEntries_eq hk (hholds hs), bucketEntries_eq hk (hholds ht)]
    simp [hi]
  · intro heq
    unfold partitionRoot at heq
    rw [hdigests hs, hdigests ht, hzero.1, hzero.2] at heq
    exact absurd heq (by simpa using hroot)

end Ae

end Marekvs
