import Marekvs.Lib.Run
import Marekvs.Repl.Bootstrap

/-!
# A streamed partition arrives whole, where its chunks fit in frames

A message is lost in two places: the writer drops one that is too large, and a lost connection takes its queue along. Neither
stops the stream, so the end of the stream can arrive without the chunks before it. Where every message that is written fits, and
the connection is not replaced under a running stream, the messages come in order and the last one follows every chunk.
-/

namespace Marekvs

open List

/-! ## What a chunk holds -/

/-- A key beyond another is at or beyond the position right after it. -/
theorem compare_append_zero {k last : Bytes} (h : compare k last = .gt) : compare (last ++ [0]) k ≠ .gt := by
  induction last generalizing k with
  | nil =>
    cases k with
    | nil => exact absurd h (by decide)
    | cons x k =>
      have hx : compare (0 : UInt8) x ≠ .gt := by
        clear h
        revert x
        decide +kernel
      rw [List.nil_append, List.compare_cons_cons]
      cases hc : compare (0 : UInt8) x with
      | gt => exact absurd hc hx
      | lt => simp
      | eq => cases k <;> simp
  | cons y last ih =>
    cases k with
    | nil => exact absurd h (by simp)
    | cons x k =>
      rw [List.compare_cons_cons] at h
      rw [List.cons_append, List.compare_cons_cons]
      cases hc : compare x y with
      | lt => simp [hc] at h
      | gt => simp [Std.OrientedCmp.gt_iff_lt.1 hc]
      | eq =>
        have hxy : x = y := Std.LawfulEqCmp.eq_of_compare hc
        subst hxy
        simp only [hc] at h ⊢
        simpa [Std.ReflCmp.compare_self] using ih h

theorem mem_streamable : (k, v) ∈ streamable pid start db ↔
    db.getRaw k = some v ∧ partitionPrefix pid <+: k ∧ compare start k ≠ .gt ∧ isIndex k = false := by
  simp [streamable, Db.mem_scanPrefix, and_assoc]

theorem streamable_sorted (pid : Pid) (start : Bytes) (db : Db) :
    (streamable pid start db).Pairwise fun a b => compare a.1 b.1 = .lt := by
  unfold streamable Db.scanPrefix
  exact (db.toList_sorted.filter _).filter _

/-- A chunk holds every record of the store between where it began and where its scan ended. -/
theorem ChunkRead.mem_ops {pid : Pid} {r : ChunkRead} (hr : r.ops = readChunk pid r.start r.db) {k v : Bytes}
    (hstart : partitionPrefix pid <+: k) (hpass : r.passes k) (hindex : isIndex k = false) (hget : r.db.getRaw k = some v) :
    ⟨k, v⟩ ∈ r.ops := by
  obtain ⟨hfrom, hto⟩ := hpass
  have hmem : (k, v) ∈ streamable pid r.start r.db := mem_streamable.2 ⟨hget, hstart, hfrom, hindex⟩
  have hsorted := streamable_sorted pid r.start r.db
  rw [hr, readChunk] at hto ⊢
  refine mem_map.2 ⟨(k, v), ?_, rfl⟩
  rw [← take_append_drop BOOTSTRAP_CHUNK (streamable pid r.start r.db)] at hmem hsorted
  rcases mem_append.1 hmem with h | h
  · exact h
  rcases hto with hlen | ⟨last, hlast, hle⟩
  · -- a chunk that is not full leaves nothing
    rw [length_map, length_take] at hlen
    rw [drop_eq_nil_of_le (by omega)] at h
    cases h
  · -- a record that is left out is beyond the last one taken
    obtain ⟨e, he, rfl⟩ := mem_map.1 (mem_of_getLast? hlast)
    have hlt : compare e.1 k = .lt := (pairwise_append.1 hsorted).2.2 e he _ h
    exact absurd (Std.OrientedCmp.gt_iff_lt.2 hlt) hle

/-- Where a chunk is not empty, the keys from its start on are passed or come after its last record. -/
theorem ChunkRead.passes_or_after {r : ChunkRead} (hlast : r.ops.getLast? = some last)
    (h : compare r.start k ≠ .gt) : r.passes k ∨ compare (last.ikey ++ [0]) k ≠ .gt := by
  by_cases hk : compare k last.ikey = .gt
  · exact .inr (compare_append_zero hk)
  · exact .inl ⟨h, .inr ⟨last, hlast, hk⟩⟩

theorem compare_of_isPrefix {start k : Bytes} (h : start <+: k) : compare start k ≠ .gt := by
  obtain ⟨rest, rfl⟩ := h
  induction start with
  | nil => cases rest <;> simp
  | cons x start ih => simpa [List.compare_cons_cons, Std.ReflCmp.compare_self] using ih

namespace BootStream

/-! ## The invariant of a stream -/

/-- Every record read is with the joiner's apply, or in one of these messages. -/
def Accounted (s : BootStream) (msgs : List BootMsg) : Prop :=
  ∀ r ∈ s.reads, ∀ op ∈ r.ops, op ∈ s.delivered ∨ ∃ m ∈ msgs, op ∈ m.ops

/-- Every key of the partition has been passed. -/
def Passed (pid : Pid) (s : BootStream) : Prop := ∀ k, partitionPrefix pid <+: k → ∃ r ∈ s.reads, r.passes k

structure Inv (pid : Pid) (s : BootStream) : Prop where
  chunks : ∀ r ∈ s.reads, r.ops = readChunk pid r.start r.db
  covered : ∀ k, partitionPrefix pid <+: k → (∃ r ∈ s.reads, r.passes k) ∨ compare (chunkStart pid s.cursor) k ≠ .gt
  /-- a running stream has not ended, and has lost nothing unless its connection is gone -/
  running : s.stopped = false → s.done = false ∧ (∀ m ∈ s.pending, m.isDone = false) ∧
    (s.connected = true → s.Accounted s.pending)
  /-- the end of the stream is behind everything that was read -/
  ending : ∀ before m after, s.pending = before ++ m :: after → m.isDone = true →
    after = [] ∧ s.Accounted before ∧ Passed pid s
  ended : s.done = true → s.Accounted [] ∧ Passed pid s

variable {postcard : BootMsg → Bytes} {pid : Pid} {s : BootStream}

theorem inv_init : Inv pid init where
  chunks := nofun
  covered := fun _ hk => .inr (compare_of_isPrefix hk)
  running := fun _ => ⟨rfl, nofun, nofun⟩
  ending := fun before m after h => absurd h (by cases before <;> simp [pending, init])
  ended := nofun

/-- A step that leaves the donor, the joiner and the messages between them as they are. -/
theorem Inv.frame (h : Inv pid s) {queue wire lane : List BootMsg} (hp : lane ++ wire ++ queue = s.pending) :
    Inv pid { s with queue := queue, wire := wire, lane := lane } where
  chunks := h.chunks
  covered := h.covered
  running := fun hs => by
    obtain ⟨hd, hm, hacc⟩ := h.running hs
    rw [← hp] at hm hacc
    exact ⟨hd, hm, hacc⟩
  ending := fun before m after heq => h.ending before m after (hp.symm.trans heq)
  ended := h.ended

theorem Inv.stop (h : Inv pid s) : Inv pid { s with stopped := true } where
  chunks := h.chunks
  covered := h.covered
  running := nofun
  ending := h.ending
  ended := h.ended

theorem Inv.drop (h : Inv pid s) : Inv pid { s with connected := false, queue := [], wire := [] } where
  chunks := h.chunks
  covered := h.covered
  running := fun hs => by
    obtain ⟨hd, hm, -⟩ := h.running hs
    refine ⟨hd, fun m hmem => hm m ?_, nofun⟩
    have hlane : m ∈ s.lane := by simpa [pending] using hmem
    simp [pending, hlane]
  ending := fun before m after heq hdone => by
    have hlane : s.lane = before ++ m :: after := by simpa [pending] using heq
    obtain ⟨hnil, hacc⟩ := h.ending before m (after ++ (s.wire ++ s.queue)) (by simp [pending, hlane]) hdone
    exact ⟨(append_eq_nil_iff.1 hnil).1, hacc⟩
  ended := h.ended

theorem Inv.connect (h : Inv pid s) (hok : s.stopped = true ∨ s.reads = []) : Inv pid { s with connected := true } where
  chunks := h.chunks
  covered := h.covered
  running := fun hs => by
    obtain ⟨hd, hm, -⟩ := h.running hs
    refine ⟨hd, hm, fun _ r hr => ?_⟩
    rcases hok with hstop | hnone
    · exact absurd (hstop.symm.trans hs) (by decide)
    · have hr' : r ∈ s.reads := hr
      rw [hnone] at hr'
      cases hr'
  ending := h.ending
  ended := h.ended

theorem Inv.handle (h : Inv pid s) : Inv pid (s.step postcard pid .handle) := by
  rw [step]
  split
  · exact h
  · rename_i p ops lane hlane
    have hpend : s.pending = .bootstrapChunk p ops :: (lane ++ s.wire ++ s.queue) := by simp [pending, hlane]
    -- the records of the chunk move from its message to the records delivered
    have hmove : ∀ msgs, s.Accounted (.bootstrapChunk p ops :: msgs) →
        Accounted { s with lane := lane, delivered := s.delivered ++ ops } msgs := by
      intro msgs hacc r hr op hop
      rcases hacc r hr op hop with hd | ⟨m, hm, hmem⟩
      · exact .inl (mem_append_left _ hd)
      · rcases mem_cons.1 hm with rfl | hm
        · exact .inl (mem_append_right _ hmem)
        · exact .inr ⟨m, hm, hmem⟩
    refine ⟨h.chunks, h.covered, fun hs => ?_, fun before m after heq hdone => ?_, fun hd => ?_⟩
    · obtain ⟨hd, hm, hacc⟩ := h.running hs
      rw [hpend] at hm hacc
      exact ⟨hd, fun m hmem => hm m (mem_cons_of_mem _ hmem), fun hc => hmove _ (hacc hc)⟩
    · have heq' : s.pending = (.bootstrapChunk p ops :: before) ++ m :: after := by
        rw [hpend, cons_append, ← heq]
        rfl
      obtain ⟨hnil, hacc, hpass⟩ := h.ending _ m after heq' hdone
      exact ⟨hnil, hmove _ hacc, hpass⟩
    · obtain ⟨hacc, hpass⟩ := h.ended hd
      refine ⟨fun r hr op hop => ?_, hpass⟩
      rcases hacc r hr op hop with hd | ⟨m, hm, -⟩
      · exact .inl (mem_append_left _ hd)
      · cases hm
  · rename_i p seq lane hlane
    have hpend : s.pending = [] ++ .bootstrapDone p seq :: (lane ++ s.wire ++ s.queue) := by simp [pending, hlane]
    obtain ⟨hnil, hacc, hpass⟩ := h.ending _ _ _ hpend rfl
    refine ⟨h.chunks, h.covered, fun hs => ?_, fun before m after heq => ?_, fun _ => ⟨hacc, hpass⟩⟩
    · have := (h.running hs).2.1 (.bootstrapDone p seq) (by rw [hpend]; simp)
      exact absurd this (by simp [BootMsg.isDone])
    · have heq' : lane ++ s.wire ++ s.queue = before ++ m :: after := heq
      rw [hnil] at heq'
      exact absurd heq'.symm (by simp)

theorem Inv.read (h : Inv pid s) (db : Db) (seq : UInt64) : Inv pid (s.step postcard pid (.read db seq)) := by
  rw [step]
  split
  · exact h
  rename_i hstop
  have hrun : s.stopped = false := by simpa using hstop
  obtain ⟨hd, hm, hacc⟩ := h.running hrun
  have hnot : s.done ≠ true := by simp [hd]
  have hold : ∀ before m after, s.pending = before ++ m :: after → m.isDone = true → False := by
    intro before m after heq hdone
    simp [hm m (by rw [heq]; simp)] at hdone
  generalize hops : readChunk pid (chunkStart pid s.cursor) db = ops
  have hchunks : ∀ r ∈ (⟨chunkStart pid s.cursor, db, ops⟩ : ChunkRead) :: s.reads, r.ops = readChunk pid r.start r.db :=
    forall_mem_cons.2 ⟨hops.symm, h.chunks⟩
  have hcovered : ∀ k, partitionPrefix pid <+: k →
      (∃ r ∈ (⟨chunkStart pid s.cursor, db, ops⟩ : ChunkRead) :: s.reads, r.passes k) ∨
        compare (chunkStart pid s.cursor) k ≠ .gt :=
    fun k hk => (h.covered k hk).imp_left fun ⟨r, hr, hp⟩ => ⟨r, mem_cons_of_mem _ hr, hp⟩
  dsimp only
  split
  · rename_i hnil
    subst hnil
    -- an empty chunk passes whatever is left of the partition
    have hpass : ∀ k, partitionPrefix pid <+: k →
        ∃ r ∈ (⟨chunkStart pid s.cursor, db, []⟩ : ChunkRead) :: s.reads, r.passes k :=
      fun k hk => (hcovered k hk).elim id fun hfrom => ⟨_, mem_cons_self, hfrom, .inl (by simp [BOOTSTRAP_CHUNK])⟩
    refine ⟨hchunks, fun k hk => .inl (hpass k hk), nofun, fun before m after heq hdone => ?_,
      fun hd' => (hnot hd').elim⟩
    by_cases hc : s.connected = true
    · have heq' : s.pending ++ [.bootstrapDone pid seq] = before ++ m :: after := by
        rw [← heq]
        simp [pending, hc]
      rcases eq_nil_or_concat' after with rfl | ⟨after', x, rfl⟩
      · obtain ⟨rfl, -⟩ := append_inj' heq' rfl
        refine ⟨rfl, fun r hr op hop => ?_, hpass⟩
        rcases mem_cons.1 hr with rfl | hr
        · cases hop
        · exact hacc hc r hr op hop
      · rw [← cons_append, ← append_assoc] at heq'
        exact (hold before m after' (append_inj' heq' rfl).1 hdone).elim
    · simp only [hc] at heq
      exact (hold before m after heq hdone).elim
  · rename_i hne
    obtain ⟨last, hlast⟩ : ∃ last, ops.getLast? = some last := Option.isSome_iff_exists.1 (getLast?_isSome.2 hne)
    split
    · rename_i hc
      have hpend : s.lane ++ s.wire ++ (s.queue ++ [.bootstrapChunk pid ops]) = s.pending ++ [.bootstrapChunk pid ops] := by
        simp [pending]
      have hm' : ∀ m ∈ s.lane ++ s.wire ++ (s.queue ++ [.bootstrapChunk pid ops]), m.isDone = false := by
        rw [hpend]
        exact forall_mem_append.2 ⟨hm, by simp [BootMsg.isDone]⟩
      refine ⟨hchunks, fun k hk => ?_, fun _ => ⟨hd, hm', fun _ r hr op hop => ?_⟩, fun before m after heq hdone => ?_,
        fun hd' => (hnot hd').elim⟩
      · rw [hlast]
        refine (hcovered k hk).elim .inl fun hfrom => ?_
        exact (ChunkRead.passes_or_after (r := ⟨_, db, ops⟩) hlast hfrom).imp_left fun hp => ⟨_, mem_cons_self, hp⟩
      · rcases mem_cons.1 hr with rfl | hr
        · exact .inr ⟨.bootstrapChunk pid ops, by simp [pending], hop⟩
        · refine (hacc hc r hr op hop).imp_right fun ⟨m, hmem, hin⟩ => ⟨m, ?_, hin⟩
          rw [pending, hpend]
          exact mem_append_left _ hmem
      · rw [pending] at heq
        simp [hm' m (by simp [heq])] at hdone
    · exact ⟨hchunks, hcovered, nofun, fun before m after heq hdone => (hold before m after heq hdone).elim,
        fun hd' => (hnot hd').elim⟩

theorem Inv.step (h : Inv pid s) {op : BootOp} (hok : s.Sound postcard op) : Inv pid (s.step postcard pid op) := by
  cases op with
  | read db seq => exact h.read db seq
  | fail => exact h.stop
  | write =>
    rw [BootStream.step]
    split
    · exact h
    rename_i msg queue hq
    have hfits : encodeFrame postcard msg ≠ none := by
      have hlen := hok msg (by simp [hq])
      simp [encodeFrame, hlen]
    split
    · exact absurd ‹_› hfits
    · exact h.frame (by simp [pending, hq])
  | receive =>
    rw [BootStream.step]
    split
    · exact h
    · rename_i msg wire hw
      exact h.frame (by simp [pending, hw])
  | handle => exact h.handle
  | drop => exact h.drop
  | connect => exact h.connect hok

theorem inv_run (ops : List BootOp) (hok : ∀ i, (hi : i < ops.length) → (run postcard pid (ops.take i)).Sound postcard ops[i]) :
    Inv pid (run postcard pid ops) :=
  Run.invariant (fun _ _ hinv hop => hinv.step hop) inv_init ops hok

/-- In every run in which each message that is written fits in a frame and the connection is not replaced under the running
stream: once the joiner has handled the end of the stream, the scan has passed every key of the partition, and every record that
the store held at a key when a chunk's scan passed it has been handed to the joiner's apply. -/
theorem bootstrap_delivers_what_was_read (postcard : BootMsg → Bytes) (pid : Pid) (ops : List BootOp)
    (hok : ∀ i, (hi : i < ops.length) → (run postcard pid (ops.take i)).Sound postcard ops[i])
    (hdone : (run postcard pid ops).done = true) (k : Bytes) (hk : partitionPrefix pid <+: k) :
    (∃ r ∈ (run postcard pid ops).reads, r.passes k) ∧
      ∀ r ∈ (run postcard pid ops).reads, r.passes k → isIndex k = false → ∀ v, r.db.getRaw k = some v →
        ⟨k, v⟩ ∈ (run postcard pid ops).delivered := by
  have hinv := inv_run ops hok
  obtain ⟨hacc, hpass⟩ := hinv.ended hdone
  refine ⟨hpass k hk, fun r hr hp hindex v hget => ?_⟩
  rcases hacc r hr _ (ChunkRead.mem_ops (hinv.chunks r hr) hk hp hindex hget) with hd | ⟨m, hm, -⟩
  · exact hd
  · exact nomatch hm

/-! ## The codec at work -/

/-- An integer in groups of seven bits, the low group first. -/
def varint : Nat → Nat → Bytes
  | 0, _ => []
  | fuel + 1, n => if n < 128 then [UInt8.ofNat n] else UInt8.ofNat (n % 128 + 128) :: varint fuel (n / 128)

def postcardBytes (b : Bytes) : Bytes := varint 10 b.length ++ b

/-- The body of a message as the codec writes it: the number of the variant and then its fields. -/
def postcardMsg : BootMsg → Bytes
  | .bootstrapChunk pid ops =>
    18 :: (varint 3 pid.toNat ++ varint 10 ops.length ++ ops.flatMap fun op => postcardBytes op.ikey ++ postcardBytes op.value)
  | .bootstrapDone pid asOfSeq => 19 :: (varint 3 pid.toNat ++ varint 10 asOfSeq.toNat)

theorem length_varint_le (fuel n : Nat) : (varint fuel n).length ≤ fuel := by
  induction fuel generalizing n with
  | zero => rfl
  | succ fuel ih =>
    rw [varint]
    split
    · simp
    · have := ih (n / 128)
      simp only [length_cons]
      omega

/-- The keys of two fields of the hash `h`, which lie in one partition. -/
def firstField : Bytes := Ikey.hashFieldKey [104] [1]

def secondField : Bytes := Ikey.hashFieldKey [104] [2]

/-- The hash with the same value in both fields. -/
def twoFields (value : Bytes) : Db := (Db.putRaw ∅ firstField value).putRaw secondField value

/-- The donor streams a partition that does not change, each message arriving before the next is read. -/
def quietStream (db : Db) : List BootOp :=
  [.read db 7, .write, .receive, .handle, .read db 7, .write, .receive, .handle]

theorem fieldKeys : pidOf [104] = 2923 ∧ firstField = [11, 107, 104, 1, 104, 1] ∧ secondField = [11, 107, 104, 1, 104, 2] := by
  decide

theorem readChunk_twoFields (value : Bytes) :
    readChunk (pidOf [104]) (chunkStart (pidOf [104]) none) (twoFields value) = [⟨firstField, value⟩, ⟨secondField, value⟩] ∧
      readChunk (pidOf [104]) (chunkStart (pidOf [104]) (some secondField)) (twoFields value) = [] := by
  obtain ⟨hpid, hfirst, hsecond⟩ := fieldKeys
  rw [twoFields, hpid, hfirst, hsecond]
  exact ⟨rfl, rfl⟩

theorem fits_done (pid : Pid) (seq : UInt64) : (postcardMsg (.bootstrapDone pid seq)).length ≤ MAX_FRAME := by
  have h₁ := length_varint_le 3 pid.toNat
  have h₂ := length_varint_le 10 seq.toNat
  simp only [postcardMsg, length_cons, length_append, MAX_FRAME]
  omega

/-- A stream of the two fields whose only chunk does not fit: nothing arrives but the end. -/
theorem run_quietStream_of_large
    (hlarge : MAX_FRAME < (postcardMsg (.bootstrapChunk (pidOf [104]) [⟨firstField, value⟩, ⟨secondField, value⟩])).length) :
    (run postcardMsg (pidOf [104]) (quietStream (twoFields value))).done = true ∧
      (run postcardMsg (pidOf [104]) (quietStream (twoFields value))).delivered = [] ∧
      ⟨chunkStart (pidOf [104]) none, twoFields value, [⟨firstField, value⟩, ⟨secondField, value⟩]⟩ ∈
        (run postcardMsg (pidOf [104]) (quietStream (twoFields value))).reads := by
  obtain ⟨hchunk, hend⟩ := readChunk_twoFields value
  have hnone : encodeFrame postcardMsg (.bootstrapChunk (pidOf [104]) [⟨firstField, value⟩, ⟨secondField, value⟩]) = none :=
    if_pos hlarge
  obtain ⟨frame, hsome⟩ : ∃ frame, encodeFrame postcardMsg (.bootstrapDone (pidOf [104]) 7) = some frame := by
    unfold encodeFrame
    exact ⟨_, if_neg (fits_done _ _).not_gt⟩
  simp [run, quietStream, step, init, hchunk, hend, hnone, hsome]

theorem bootstrap_delivers_small_fields :
    ⟨firstField, [1]⟩ ∈ (run postcardMsg (pidOf [104]) (quietStream (twoFields [1]))).delivered := by
  have hall := bootstrap_delivers_what_was_read postcardMsg (pidOf [104]) (quietStream (twoFields [1])) ?_
    (by decide) firstField (by decide)
  · obtain ⟨⟨r, hr, hpass⟩, hdelivered⟩ := hall
    refine hdelivered r hr hpass (by decide) [1] ?_
    have hreads : ∀ r ∈ (run postcardMsg (pidOf [104]) (quietStream (twoFields [1]))).reads,
      r.db.getRaw firstField = some [1] := by
      decide
    exact hreads r hr
  · intro i hi
    have hi8 : i < 8 := hi
    interval_cases i
    · trivial
    · show ∀ msg ∈ _, _
      decide
    · trivial
    · trivial
    · trivial
    · show ∀ msg ∈ _, _
      decide
    · trivial
    · trivial

/-- A partition's two records that fit in a frame each and not together. -/
theorem quietStream_loses (hlength : value.length = 5 * 2 ^ 20) :
    (∀ field ∈ [firstField, secondField], (postcardMsg (.bootstrapChunk (pidOf [104]) [⟨field, value⟩])).length ≤ MAX_FRAME) ∧
    (run postcardMsg (pidOf [104]) (quietStream (twoFields value))).done = true ∧
    (run postcardMsg (pidOf [104]) (quietStream (twoFields value))).delivered = [] ∧
    ∃ r ∈ (run postcardMsg (pidOf [104]) (quietStream (twoFields value))).reads,
      r.passes firstField ∧ r.db.getRaw firstField = some value := by
  have hlarge : MAX_FRAME <
      (postcardMsg (.bootstrapChunk (pidOf [104]) [⟨firstField, value⟩, ⟨secondField, value⟩])).length := by
    simp only [postcardMsg, postcardBytes, flatMap_cons, length_cons, length_append, MAX_FRAME]
    omega
  obtain ⟨hdone, hnothing, hread⟩ := run_quietStream_of_large hlarge
  refine ⟨fun field hfield => ?_, hdone, hnothing, _, hread, ⟨?_, .inl (by simp [BOOTSTRAP_CHUNK])⟩, ?_⟩
  · have hkey : field.length = 6 := by
      rcases mem_pair.1 hfield with rfl | rfl <;> decide
    have h₁ := length_varint_le 3 (pidOf [104]).toNat
    have h₂ := length_varint_le 10 (0 + 1)
    have h₃ := length_varint_le 10 field.length
    have h₄ := length_varint_le 10 value.length
    simp only [postcardMsg, postcardBytes, flatMap_cons, flatMap_nil, length_cons, length_append,
      length_nil, MAX_FRAME]
    omega
  · have hfrom : compare (chunkStart (pidOf [104]) none) firstField ≠ .gt := by decide
    exact hfrom
  · unfold twoFields
    rw [Db.getRaw_putRaw_of_ne _ (by decide), Db.getRaw_putRaw_self]

/-- With values of five mebibytes the joiner is told that the partition is complete without having received either record. -/
theorem bootstrap_ends_without_its_records :
    (∀ field ∈ [firstField, secondField],
      (postcardMsg (.bootstrapChunk (pidOf [104]) [⟨field, replicate (5 * 2 ^ 20) 120⟩])).length ≤ MAX_FRAME) ∧
    (run postcardMsg (pidOf [104]) (quietStream (twoFields (replicate (5 * 2 ^ 20) 120)))).done = true ∧
    (run postcardMsg (pidOf [104]) (quietStream (twoFields (replicate (5 * 2 ^ 20) 120)))).delivered = [] ∧
    ∃ r ∈ (run postcardMsg (pidOf [104]) (quietStream (twoFields (replicate (5 * 2 ^ 20) 120)))).reads,
      r.passes firstField ∧ r.db.getRaw firstField = some (replicate (5 * 2 ^ 20) 120) := by
  have hlength : (replicate (5 * 2 ^ 20) (120 : UInt8)).length = 5 * 2 ^ 20 := length_replicate
  exact quietStream_loses hlength

end BootStream

end Marekvs
