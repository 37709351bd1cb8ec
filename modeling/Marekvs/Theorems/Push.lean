import Marekvs.Lib.Run
import Marekvs.Repl.Push

/-!
# No push is skipped, where a pass keeps to a resumed connection

The receiver's cursor is the number of the last batch it handled, whatever came before that batch. A pass that begins on a new
connection before the receiver's cursor has rewound the sender's goes on after entries that were lost with the old one. Where
every pass keeps to a connection that has been resumed, each batch follows, in the order of arrival, everything sent below the
number it covers.
-/

namespace Marekvs

open List Nat

variable {e : RingEntry} {seq cursor bytes max newCursor : Nat} {entries : List RingEntry}

/-! ## The ring -/

/-- The entries in the ring have consecutive numbers, up to the next one to give. -/
def Ring.Ok (r : Ring) : Prop := ∃ first, r.buf.map RingEntry.seq = List.range' first r.buf.length ∧
    r.nextLocalSeq = first + r.buf.length

namespace Ring

variable {r : Ring}

theorem evict_isSuffix (buf : List RingEntry) (bytes : Nat) : (evict buf bytes).1 <:+ buf := by
  induction buf generalizing bytes with
  | nil => exact suffix_refl _
  | cons e rest ih =>
    rw [evict]
    split
    · exact (ih _).trans (suffix_cons e rest)
    · exact suffix_refl _

theorem Ok.append (h : r.Ok) (origin : NodeId) (op : ReplOp) : (r.append origin op).Ok := by
  obtain ⟨first, hmap, hnext⟩ := h
  refine ⟨first, ?_, ?_⟩
  · simp only [Ring.append, map_append, map_cons, map_nil, length_append, length_cons, length_nil,
      zero_add, hmap, hnext]
    rw [range'_concat]
    simp
  · simp [Ring.append, hnext]
    omega

theorem Ok.suffix (h : r.Ok) {buf : List RingEntry} (hs : buf <:+ r.buf) (bytes : Nat) :
    Ok { r with buf := buf, bytes := bytes } := by
  obtain ⟨first, hmap, hnext⟩ := h
  obtain ⟨gone, hgone⟩ := hs
  refine ⟨first + gone.length, ?_, ?_⟩
  · rw [← hgone, map_append, length_append, ← range'_append_1] at hmap
    exact (append_inj' hmap (by simp)).2
  · simp only [hnext, ← hgone, length_append]
    omega

theorem Ok.push (h : r.Ok) (origin : NodeId) (ops : List ReplOp) : (r.push origin ops).Ok := by
  have hfold : (ops.foldl (fun r op => r.append origin op) r).Ok := List.foldlRecOn ops _ h fun _ h op _ => h.append origin op
  exact hfold.suffix (evict_isSuffix _ _) _

theorem nextLocalSeq_le_push (r : Ring) (origin : NodeId) (ops : List ReplOp) :
    r.nextLocalSeq ≤ (r.push origin ops).nextLocalSeq := by
  have hfold : r.nextLocalSeq ≤ (ops.foldl (fun r op => r.append origin op) r).nextLocalSeq :=
    List.foldlRecOn (motive := fun r' : Ring => r.nextLocalSeq ≤ r'.nextLocalSeq) ops _ le_rfl fun r' h op _ => by
      simp only [Ring.append]
      omega
  exact hfold

theorem Ok.sorted (h : r.Ok) : r.buf.Pairwise fun a b => a.seq < b.seq := by
  obtain ⟨first, hmap, -⟩ := h
  rw [← pairwise_map (f := RingEntry.seq), hmap]
  exact pairwise_lt_range'

theorem Ok.readAfter_sorted (h : r.Ok) (after max : Nat) : (r.readAfter after max).1.Pairwise fun a b => a.seq < b.seq :=
  (h.sorted.filter _).sublist (take_sublist _ _)

theorem Ok.lt_next (h : r.Ok) (he : e ∈ r.buf) : e.seq < r.nextLocalSeq := by
  obtain ⟨first, hmap, hnext⟩ := h
  have hmem : e.seq ∈ List.range' first r.buf.length := hmap ▸ mem_map_of_mem he
  rw [hnext]
  exact (mem_range'_1.1 hmem).2

/-- A number that was given is in the ring, or older than everything there. -/
theorem Ok.mem_or_lt (h : r.Ok) (hseq : seq < r.nextLocalSeq) : (∃ e ∈ r.buf, e.seq = seq) ∨ seq < r.firstSeq := by
  obtain ⟨first, hmap, hnext⟩ := h
  have hfirst : r.firstSeq = first := by
    unfold firstSeq
    cases hbuf : r.buf with
    | nil => simp [hnext, hbuf]
    | cons e rest =>
      rw [hbuf, map_cons, length_cons, range'_succ] at hmap
      simpa using (List.cons.inj hmap).1
  by_cases hlt : seq < first
  · exact .inr (hfirst ▸ hlt)
  · refine .inl (mem_map.1 ?_)
    rw [hmap]
    exact mem_range'_1.2 ⟨not_lt.1 hlt, hnext ▸ hseq⟩

end Ring

/-! ## The walk -/

section

variable {route : RingEntry → Route}

theorem walk_end (entries : List RingEntry) (cursor bytes : Nat) :
    (walk route entries cursor bytes).2.1 = cursor ∨ ∃ e ∈ entries, (walk route entries cursor bytes).2.1 = e.seq := by
  induction entries generalizing cursor bytes with
  | nil => exact .inl rfl
  | cons e rest ih =>
    have hrest : ∀ bytes, ∃ e' ∈ e :: rest, (walk route rest e.seq bytes).2.1 = e'.seq := by
      intro bytes
      rcases ih e.seq bytes with h | ⟨e', he', h⟩
      · exact ⟨e, mem_cons_self, h⟩
      · exact ⟨e', mem_cons_of_mem _ he', h⟩
    rw [walk]
    split
    · exact .inl rfl
    · exact .inr (hrest _)
    dsimp only
    split
    · exact .inr ⟨e, mem_cons_self, rfl⟩
    · exact .inr (hrest _)

theorem mem_of_mem_walk (he : e ∈ (walk route entries cursor bytes).1) : e ∈ entries ∧ route e = .send := by
  induction entries generalizing cursor bytes with
  | nil => cases he
  | cons e' rest ih =>
    rw [walk] at he
    split at he
    · cases he
    · exact ⟨mem_cons_of_mem _ (ih he).1, (ih he).2⟩
    rename_i hsend
    dsimp only at he
    split at he
    · rw [mem_singleton.1 he]
      exact ⟨mem_cons_self, hsend⟩
    · rcases mem_cons.1 he with rfl | he
      · exact ⟨mem_cons_self, hsend⟩
      · exact ⟨mem_cons_of_mem _ (ih he).1, (ih he).2⟩

/-- The walk ends at or after everything it sends. -/
theorem le_walk_end (hsorted : entries.Pairwise fun a b => a.seq < b.seq) (he : e ∈ (walk route entries cursor bytes).1) :
    e.seq ≤ (walk route entries cursor bytes).2.1 := by
  induction entries generalizing cursor bytes with
  | nil => cases he
  | cons e' rest ih =>
    obtain ⟨hhead, htail⟩ := pairwise_cons.1 hsorted
    rw [walk] at he ⊢
    split at he
    · cases he
    · exact ih htail he
    dsimp only at he ⊢
    split at he
    · rw [mem_singleton.1 he, if_pos ‹_›]
    rw [if_neg ‹_›]
    rcases mem_cons.1 he with rfl | he
    · rcases @walk_end route rest e.seq (bytes + (e.op.ikey.length + e.op.value.length)) with hend | ⟨e', he', hend⟩
      · exact hend.ge
      · exact (hhead e' he').le.trans hend.ge
    · exact ih htail he

/-- An entry up to the end of the walk was walked: it was not deferred, and it is sent if it was to be sent. -/
theorem walk_covers (hsorted : entries.Pairwise fun a b => a.seq < b.seq) (hafter : ∀ e ∈ entries, cursor < e.seq)
    (bytes : Nat) (he : e ∈ entries) (hle : e.seq ≤ (walk route entries cursor bytes).2.1) :
    route e ≠ .defer ∧ (route e = .send → e ∈ (walk route entries cursor bytes).1) := by
  induction entries generalizing cursor bytes with
  | nil => cases he
  | cons e' rest ih =>
    obtain ⟨hhead, htail⟩ := pairwise_cons.1 hsorted
    rw [walk] at hle ⊢
    split at hle
    · exact absurd hle (not_le.2 (hafter e he))
    · rename_i hskip
      rcases mem_cons.1 he with rfl | he
      · simp [hskip]
      · exact ih htail hhead bytes he hle
    · rename_i hsend
      dsimp only at hle ⊢
      split at hle
      · rename_i hfull
        rcases mem_cons.1 he with rfl | he
        · simp [hsend, hfull]
        · exact absurd hle (not_le.2 (hhead e he))
      · rename_i hroom
        simp only [hroom, if_false]
        rcases mem_cons.1 he with rfl | he
        · simp [hsend]
        · obtain ⟨hd, hs⟩ := ih htail hhead _ he hle
          exact ⟨hd, fun h => mem_cons_of_mem _ (hs h)⟩

end

theorem lt_of_mem_readAfter {r : Ring} (he : e ∈ (r.readAfter cursor max).1) : cursor < e.seq := by
  simpa using (mem_filter.1 (mem_of_mem_take he)).2

/-- An entry of the ring between the cursor and the end of a walk was read. -/
theorem mem_readAfter {r : Ring} (h : r.Ok) (he : e ∈ r.buf) (hlt : cursor < e.seq)
    (hle : e.seq ≤ (walk route (r.readAfter cursor max).1 cursor 0).2.1) : e ∈ (r.readAfter cursor max).1 := by
  have hsorted : (r.buf.filter fun e => cursor < e.seq).Pairwise fun a b => a.seq < b.seq := h.sorted.filter _
  have hmem : e ∈ r.buf.filter fun e => cursor < e.seq := mem_filter.2 ⟨he, by simpa using hlt⟩
  rw [← take_append_drop max (r.buf.filter fun e => cursor < e.seq)] at hmem hsorted
  rcases mem_append.1 hmem with hin | hout
  · exact hin
  -- an entry that was not read is beyond all that were
  rcases @walk_end route (r.readAfter cursor max).1 cursor 0 with hend | ⟨e', he', hend⟩
  · exact absurd hlt (not_lt.2 (hend ▸ hle))
  · have := (pairwise_append.1 hsorted).2.2 e' he' e hout
    omega

/-- A pass over the ring: an entry of the ring between the cursor and the end of the walk was walked. -/
theorem walk_readAfter {r : Ring} (h : r.Ok) (cursor max : Nat) (he : e ∈ r.buf)
    (hlt : cursor < e.seq) (hle : e.seq ≤ (walk route (r.readAfter cursor max).1 cursor 0).2.1) :
    route e ≠ .defer ∧ (route e = .send → e ∈ (walk route (r.readAfter cursor max).1 cursor 0).1) :=
  walk_covers (h.readAfter_sorted cursor max) (fun _ => lt_of_mem_readAfter) 0 (mem_readAfter h he hlt hle) hle

namespace PushSys

/-! ## The invariant -/

variable (s : PushSys)

/-- The number has been applied, or was reported as gone. -/
def Served (seq : Nat) : Prop := (∃ e ∈ s.applied, e.seq = seq) ∨ s.Gone seq

/-- The number is served, or on its way in one of these batches. -/
def Covered (batches : List ReplBatch) (seq : Nat) : Prop :=
  s.Served seq ∨ ∃ b ∈ batches, ∃ e ∈ b.entries, e.seq = seq

/-- The batches on their way, the oldest first. -/
def pending : List ReplBatch := s.lane ++ s.wire

/-- Every number sent up to this one is served. -/
def ServedTo (c : Nat) : Prop := c ≤ s.passed ∧ ∀ seq ∈ s.routed, seq ≤ c → s.Served seq

/-- Every number sent up to this one is covered. -/
def CoveredTo (batches : List ReplBatch) (c : Nat) : Prop := ∀ seq ∈ s.routed, seq ≤ c → s.Covered batches seq

end PushSys

/-- How far a pass has come. -/
def PumpPass.reach (p : PumpPass) : Nat := (p.walked.map Prod.fst).getD p.cursor

namespace PushSys

structure Inv (s : PushSys) : Prop where
  ring : s.ring.Ok
  known : ∀ seq ∈ s.routed, seq < s.ring.nextLocalSeq ∧ seq ≤ s.passed
  cursor : s.ServedTo s.cursor
  resuming : ∀ c ∈ s.resuming, s.ServedTo c
  messages : ∀ c conn, .resumeFrom c conn ∈ s.backLane ++ s.backWire → s.ServedTo c
  /-- a batch is behind everything below the number it covers -/
  batches : ∀ before b after, s.pending = before ++ b :: after → b.lastSeq ≤ s.passed ∧ s.CoveredTo (before ++ [b]) b.lastSeq
  live : s.resumed = true → s.up = true
  flow : s.resumed = true → ∃ f, s.flow = some f ∧ s.CoveredTo s.pending f.sent
  pass : ∀ p ∈ s.pass, p.conn ≤ s.conn ∧ (s.up = true → p.conn = s.conn → s.CoveredTo s.pending p.reach)

variable {cfg : PushConfig} {s s' : PushSys}

theorem inv_init (firstSeq cursor : Nat) : Inv (init firstSeq cursor) where
  ring := ⟨max firstSeq 1, rfl, rfl⟩
  known := nofun
  cursor := ⟨le_rfl, nofun⟩
  resuming := nofun
  messages := nofun
  batches := fun before _ _ h => absurd h (by cases before <;> simp [pending, init])
  live := nofun
  flow := nofun
  pass := nofun

theorem Served.mono (ha : s.applied ⊆ s'.applied) (hg : s.gaps ⊆ s'.gaps) (h : s.Served seq) : s'.Served seq := by
  rcases h with ⟨e, he, hseq⟩ | ⟨gap, hgap, hin⟩
  · exact .inl ⟨e, ha he, hseq⟩
  · exact .inr ⟨gap, hg hgap, hin⟩

theorem Covered.handled {b : ReplBatch} {batches : List ReplBatch} (ha : s'.applied = s.applied ++ b.entries)
    (hg : s'.gaps = s.gaps) (h : s.Covered (b :: batches) seq) : s'.Covered batches seq := by
  rcases h with hs | ⟨b', hmem, e, he, hseq⟩
  · exact .inl (hs.mono (by simp [ha]) (by simp [hg]))
  rcases mem_cons.1 hmem with rfl | hmem
  · refine .inl (.inl ⟨e, ?_, hseq⟩)
    rw [ha]
    exact mem_append_right _ he
  · exact .inr ⟨b', hmem, e, he, hseq⟩

theorem Covered.nil (h : s.Covered [] seq) : s.Served seq := by
  rcases h with hs | ⟨b, hb, -⟩
  · exact hs
  · cases hb

theorem ServedTo.covered {c : Nat} (h : s.ServedTo c) (batches : List ReplBatch) : s.CoveredTo batches c :=
  fun seq hseq hle => .inl (h.2 seq hseq hle)

/-! ## The receiver and the connection -/

theorem Inv.push (h : Inv s) (origin : NodeId) (ops : List ReplOp) : Inv { s with ring := s.ring.push origin ops } :=
  { h with
    ring := h.ring.push origin ops
    known := fun seq hseq => ⟨(h.known seq hseq).1.trans_le (s.ring.nextLocalSeq_le_push origin ops), (h.known seq hseq).2⟩ }

theorem Inv.drop (h : Inv s) : Inv { s with up := false, wire := [], backWire := [], resumed := false } :=
  { h with
    messages := fun c conn hmem => h.messages c conn (by
      rw [append_nil] at hmem
      exact mem_append_left _ hmem)
    batches := fun before b after heq => by
      have hlane : s.lane = before ++ b :: after := by simpa [pending] using heq
      exact h.batches before b (after ++ s.wire) (by simp [pending, hlane])
    live := nofun
    flow := nofun
    pass := fun p hp => ⟨(h.pass p hp).1, nofun⟩ }

theorem Inv.connect (h : Inv s) : Inv { s with up := true, conn := s.conn + 1 } :=
  { h with
    live := fun _ => rfl
    pass := fun p hp => by
      have hle := (h.pass p hp).1
      refine ⟨le_succ_of_le hle, fun _ hconn => ?_⟩
      have hconn' : p.conn = s.conn + 1 := hconn
      omega }

/-- The receiver handles the first batch: what it covers is served from now on. -/
theorem Inv.handle (h : Inv s) : Inv (s.step cfg .handle) := by
  simp only [step]
  split
  · exact h
  rename_i batch lane hlane
  have hpend : s.pending = batch :: (lane ++ s.wire) := by simp [pending, hlane]
  obtain ⟨hle, hcov⟩ := h.batches [] batch (lane ++ s.wire) hpend
  have hserved : ∀ {seq}, s.Served seq → Served { s with applied := s.applied ++ batch.entries } seq := by
    intro seq hs
    refine Served.mono ?_ ?_ hs
    · exact subset_append_left _ _
    · exact List.Subset.refl _
  have hto : ∀ c, s.ServedTo c → ServedTo { s with applied := s.applied ++ batch.entries } c :=
    fun c hc => ⟨hc.1, fun seq hseq hseqle => hserved (hc.2 seq hseq hseqle)⟩
  have hrest : ∀ c, s.CoveredTo s.pending c →
      CoveredTo { s with applied := s.applied ++ batch.entries } (lane ++ s.wire) c := by
    intro c hc seq hseq hseqle
    have := hc seq hseq hseqle
    rw [hpend] at this
    refine Covered.handled ?_ ?_ this <;> rfl
  refine ⟨h.ring, h.known, ⟨hle, fun seq hseq hseqle => ?_⟩, fun c hc => hto c (h.resuming c hc), fun c conn hmem => ?_,
    fun before b after heq => ?_, h.live, fun hr => ?_, fun p hp => ⟨(h.pass p hp).1, fun hup hconn => ?_⟩⟩
  · refine Covered.nil (Covered.handled ?_ ?_ (hcov seq hseq hseqle)) <;> rfl
  · refine hto c (h.messages c conn ?_)
    dsimp only at hmem
    split at hmem
    · simpa using hmem
    · exact hmem
  · have heq' : s.pending = (batch :: before) ++ b :: after := by
      rw [hpend, cons_append]
      exact congrArg (batch :: ·) heq
    obtain ⟨hlast, hall⟩ := h.batches _ b after heq'
    refine ⟨hlast, fun seq hseq hseqle => ?_⟩
    refine Covered.handled ?_ ?_ (hall seq hseq hseqle) <;> rfl
  · obtain ⟨f, hf, hcovf⟩ := h.flow hr
    exact ⟨f, hf, hrest _ hcovf⟩
  · exact hrest _ ((h.pass p hp).2 hup hconn)

theorem Inv.deliver (h : Inv s) {wire lane : List ReplBatch} (hp : lane ++ wire = s.pending) :
    Inv { s with wire := wire, lane := lane } :=
  { h with
    batches := fun before b after heq => h.batches before b after (hp.symm.trans heq)
    flow := fun hr => by
      obtain ⟨f, hf, hcov⟩ := h.flow hr
      rw [← hp] at hcov
      exact ⟨f, hf, hcov⟩
    pass := fun p hpp => ⟨(h.pass p hpp).1, fun hup hconn => by
      have := (h.pass p hpp).2 hup hconn
      rw [← hp] at this
      exact this⟩ }

/-- Messages of the receiver move, or new ones are sent that are true. -/
theorem Inv.messages_of (h : Inv s) {backWire backLane : List BackMsg} {resuming : Option Nat}
    (hmsg : ∀ c conn, .resumeFrom c conn ∈ backLane ++ backWire → s.ServedTo c) (hres : ∀ c ∈ resuming, s.ServedTo c) :
    Inv { s with backWire := backWire, backLane := backLane, resuming := resuming } :=
  { h with
    resuming := hres
    messages := hmsg }

/-! ## The sender -/

/-- The sender's flow changes and covers what it covered. -/
theorem Inv.setFlow (h : Inv s) {flow : Option PeerFlow} {resumed : Bool} {backLane : List BackMsg}
    (hmsg : ∀ m ∈ backLane, m ∈ s.backLane) (hlive : resumed = true → s.up = true)
    (hflow : resumed = true → ∃ f, flow = some f ∧ s.CoveredTo s.pending f.sent) :
    Inv { s with flow := flow, resumed := resumed, backLane := backLane } :=
  { h with
    messages := fun c conn hmem => h.messages c conn (by
      rcases mem_append.1 hmem with hm | hm
      · exact mem_append_left _ (hmsg _ hm)
      · exact mem_append_right _ hm)
    live := hlive
    flow := hflow }

theorem Inv.setPass (h : Inv s) {pass : Option PumpPass}
    (hpass : ∀ p ∈ pass, p.conn ≤ s.conn ∧ (s.up = true → p.conn = s.conn → s.CoveredTo s.pending p.reach)) :
    Inv { s with pass := pass } :=
  { h with
    pass := hpass }

theorem Inv.handleBack (h : Inv s) : Inv (s.step cfg .handleBack) := by
  simp only [step]
  split
  · exact h
  · rename_i seq backLane hlane
    refine h.setFlow (fun m hm => ?_) h.live fun hr => ?_
    · rw [hlane]
      exact mem_cons_of_mem _ hm
    · obtain ⟨f, hf, hcov⟩ := h.flow hr
      exact ⟨f.onAck seq, by simp [hf], hcov⟩
  · rename_i seq conn backLane hlane
    have hto : s.ServedTo seq := h.messages seq conn (by simp [hlane])
    refine h.setFlow (fun m hm => ?_) (fun hr => ?_) fun _ => ⟨_, rfl, hto.covered _⟩
    · rw [hlane]
      exact mem_cons_of_mem _ hm
    · rcases Bool.or_eq_true_iff.1 hr with hr | hr
      · exact h.live hr
      · exact (Bool.and_eq_true_iff.1 hr).1

theorem Inv.pumpBegin (h : Inv s) (hr : s.resumed = true) : Inv (s.step cfg .pumpBegin) := by
  obtain ⟨f, hf, hcov⟩ := h.flow hr
  simp only [step, hf, Option.getD_some]
  split
  · exact h
  split
  · rw [← hf]
    exact h
  rw [← hf]
  refine h.setPass fun p hp => ?_
  cases hp
  exact ⟨le_rfl, fun _ _ => hcov⟩

theorem Inv.pumpEnd (h : Inv s) (hok : ∀ p ∈ s.pass, s.resumed = true → p.conn = s.conn) : Inv (s.step cfg .pumpEnd) := by
  simp only [step]
  split
  · rename_i cursor conn newCursor bytes hp
    have hnone : Inv { s with pass := none } := h.setPass nofun
    -- a pass that ends on a resumed connection has covered what it walked
    have hreach : s.resumed = true → s.CoveredTo s.pending newCursor := fun hr =>
      (h.pass _ hp).2 (h.live hr) (hok _ hp hr)
    split
    · exact hnone
    split
    · exact hnone
    · split
      · exact hnone.setFlow (fun _ hm => hm) h.live fun hr => ⟨_, rfl, hreach hr⟩
      · exact hnone.setFlow (fun _ hm => hm) h.live fun hr => ⟨_, rfl, hreach hr⟩
  · exact h

/-- More gaps are reported, and a pass comes further. -/
theorem Inv.grow (h : Inv s) {gaps : List (Nat × Nat)} {passed : Nat} (hg : s.gaps ⊆ gaps) (hp : s.passed ≤ passed) :
    Inv { s with gaps := gaps, passed := passed } := by
  have hserved : ∀ {seq}, s.Served seq → Served { s with gaps := gaps, passed := passed } seq :=
    fun hs => hs.mono (List.Subset.refl s.applied) hg
  have hto : ∀ c, s.ServedTo c → ServedTo { s with gaps := gaps, passed := passed } c :=
    fun c hc => ⟨hc.1.trans hp, fun seq hseq hle => hserved (hc.2 seq hseq hle)⟩
  have hcov : ∀ batches c, s.CoveredTo batches c → CoveredTo { s with gaps := gaps, passed := passed } batches c :=
    fun batches c hc seq hseq hle => (hc seq hseq hle).imp_left hserved
  refine ⟨h.ring, fun seq hseq => ⟨(h.known seq hseq).1, (h.known seq hseq).2.trans hp⟩, hto _ h.cursor,
    fun c hc => hto c (h.resuming c hc), fun c conn hm => hto c (h.messages c conn hm), fun before b after heq => ?_, h.live,
    fun hr => ?_, fun p hpp => ⟨(h.pass p hpp).1, fun hup hconn => hcov _ _ ((h.pass p hpp).2 hup hconn)⟩⟩
  · obtain ⟨hle, hall⟩ := h.batches before b after heq
    exact ⟨hle.trans hp, hcov _ _ hall⟩
  · obtain ⟨f, hf, hall⟩ := h.flow hr
    exact ⟨f, hf, hcov _ _ hall⟩

section

variable {env : RouteEnv} {cursor conn : Nat}

/-- What was sent before, up to the end of a pass, is covered by what is pending and the entries of the pass. -/
theorem Inv.covered_walk (h : Inv s) (hp : s.pass = some ⟨cursor, conn, none⟩) (hup : s.up = true) (hconn : conn = s.conn)
    (hgap : ∀ seq, cursor < seq → seq < s.ring.firstSeq → s.Gone seq) (hroute : ∀ e ∈ s.ring.buf, s.SameRoute cfg env e)
    {ops : List RingEntry}
    (hw : walk (routeEntry cfg env) (s.ring.readAfter cursor max).1 cursor 0 = (ops, newCursor, bytes))
    (hseq : seq ∈ s.routed) (hle : seq ≤ newCursor) : s.Covered s.pending seq ∨ ∃ e ∈ ops, e.seq = seq := by
  by_cases hcur : seq ≤ cursor
  · exact .inl ((h.pass _ hp).2 hup hconn seq hseq hcur)
  have hlt : cursor < seq := not_le.1 hcur
  obtain ⟨hnext, hpassed⟩ := h.known seq hseq
  rcases h.ring.mem_or_lt hnext with ⟨e, he, rfl⟩ | hgone
  · -- the entry is still in the ring, and the pass decides about it as before
    obtain ⟨hdefer, hsend⟩ := walk_readAfter h.ring cursor max he hlt (by rw [hw]; exact hle)
    have hskip := (hroute e he hpassed).1 hseq
    refine .inr ⟨e, ?_, rfl⟩
    rw [hw] at hsend
    cases hr : routeEntry cfg env e with
    | defer => exact absurd hr hdefer
    | skip => exact absurd hr hskip
    | send => exact hsend hr
  · exact .inl (.inl (.inr (hgap seq hlt hgone)))

theorem Inv.walkNothing (h : Inv s) (hp : s.pass = some ⟨cursor, conn, none⟩)
    (hgap : ∀ seq, cursor < seq → seq < s.ring.firstSeq → s.Gone seq) (hroute : ∀ e ∈ s.ring.buf, s.SameRoute cfg env e)
    (hw : walk (routeEntry cfg env) (s.ring.readAfter cursor max).1 cursor 0 = ([], newCursor, bytes)) :
    Inv { s with pass := some ⟨cursor, conn, some (newCursor, none)⟩, passed := Nat.max s.passed newCursor } := by
  refine (h.grow (List.Subset.refl _) (Nat.le_max_left s.passed newCursor)).setPass fun p hpp => ?_
  cases hpp
  refine ⟨(h.pass _ hp).1, fun hup hc seq hseq hle => ?_⟩
  rcases h.covered_walk hp hup hc hgap hroute hw hseq hle with hcov | ⟨e, he, -⟩
  · exact hcov
  · cases he

/-- A pass that sends a batch: what is new in it was never passed, so no cursor has come to it yet. -/
theorem Inv.walkSend (h : Inv s) (hp : s.pass = some ⟨cursor, conn, none⟩) (hup : s.up = true) (hconn : conn = s.conn)
    (hgap : ∀ seq, cursor < seq → seq < s.ring.firstSeq → s.Gone seq) (hroute : ∀ e ∈ s.ring.buf, s.SameRoute cfg env e)
    (hw : walk (routeEntry cfg env) (s.ring.readAfter cursor max).1 cursor 0 = (ops, newCursor, bytes)) :
    Inv { s with
      pass := some ⟨cursor, conn, some (newCursor, some bytes)⟩
      wire := s.wire ++ [⟨ops, newCursor⟩]
      passed := Nat.max s.passed newCursor
      routed := ops.map RingEntry.seq ++ s.routed } := by
  have hops : ∀ e ∈ ops, e ∈ s.ring.buf ∧ routeEntry cfg env e = .send := by
    intro e he
    have hmem : e ∈ (walk (routeEntry cfg env) (s.ring.readAfter cursor max).1 cursor 0).1 := by rwa [hw]
    obtain ⟨hin, hsend⟩ := mem_of_mem_walk hmem
    exact ⟨(mem_filter.1 (mem_of_mem_take hin)).1, hsend⟩
  -- below what was passed, the numbers sent are the old ones
  have hold : ∀ seq ∈ ops.map RingEntry.seq ++ s.routed, seq ≤ s.passed → seq ∈ s.routed := by
    intro seq hseq hle
    rcases mem_append.1 hseq with hnew | hseq
    · obtain ⟨e, he, rfl⟩ := mem_map.1 hnew
      exact (hroute e (hops e he).1 hle).2 (hops e he).2
    · exact hseq
  have hto : ∀ c, s.ServedTo c → ServedTo { s with
      passed := Nat.max s.passed newCursor, routed := ops.map RingEntry.seq ++ s.routed } c :=
    fun c hc => ⟨hc.1.trans (Nat.le_max_left _ _), fun seq hseq hle => hc.2 seq (hold seq hseq (hle.trans hc.1)) hle⟩
  -- what a cursor beyond the old numbers covers is covered with the new batch
  have hcov : ∀ c, (∀ seq ∈ s.routed, seq ≤ c → s.Covered s.pending seq ∨ ∃ e ∈ ops, e.seq = seq) →
      CoveredTo { s with routed := ops.map RingEntry.seq ++ s.routed } (s.pending ++ [⟨ops, newCursor⟩]) c := by
    intro c hc seq hseq hle
    have hbatch : ∀ e ∈ ops, e.seq = seq → s.Covered (s.pending ++ [⟨ops, newCursor⟩]) seq := fun e he heq =>
      .inr ⟨⟨ops, newCursor⟩, mem_append_right _ (mem_singleton_self _), e, he, heq⟩
    rcases mem_append.1 hseq with hnew | hseq
    · obtain ⟨e, he, heq⟩ := mem_map.1 hnew
      exact hbatch e he heq
    · rcases hc seq hseq hle with hin | ⟨e, he, heq⟩
      · exact hin.imp_right fun ⟨b, hb, hin⟩ => ⟨b, mem_append_left _ hb, hin⟩
      · exact hbatch e he heq
  have hpend : s.lane ++ (s.wire ++ [⟨ops, newCursor⟩]) = s.pending ++ [⟨ops, newCursor⟩] := (append_assoc _ _ _).symm
  have hreach := hcov newCursor fun seq hseq hle => h.covered_walk hp hup hconn hgap hroute hw hseq hle
  refine ⟨h.ring, fun seq hseq => ?_, hto _ h.cursor, fun c hc => hto c (h.resuming c hc),
    fun c conn hm => hto c (h.messages c conn hm), fun before b after heq => ?_, h.live, fun hr => ?_, fun p hpp => ?_⟩
  · rcases mem_append.1 hseq with hnew | hseq
    · obtain ⟨e, he, rfl⟩ := mem_map.1 hnew
      have hmem : e ∈ (walk (routeEntry cfg env) (s.ring.readAfter cursor max).1 cursor 0).1 := by rwa [hw]
      have hle := le_walk_end (h.ring.readAfter_sorted cursor max) hmem
      rw [hw] at hle
      exact ⟨h.ring.lt_next (hops e he).1, hle.trans (le_max_right _ _)⟩
    · exact ⟨(h.known seq hseq).1, (h.known seq hseq).2.trans (le_max_left _ _)⟩
  · rw [pending, hpend] at heq
    rcases eq_nil_or_concat' after with rfl | ⟨after', x, rfl⟩
    · obtain ⟨rfl, hb⟩ := append_inj' heq rfl
      obtain rfl : b = ⟨ops, newCursor⟩ := (singleton_inj.1 hb).symm
      exact ⟨le_max_right _ _, hreach⟩
    · rw [← cons_append, ← append_assoc] at heq
      obtain ⟨hlast, hall⟩ := h.batches before b after' (append_inj' heq rfl).1
      exact ⟨hlast.trans (le_max_left _ _), fun seq hseq hle => hall seq (hold seq hseq (hle.trans hlast)) hle⟩
  · obtain ⟨f, hf, hall⟩ := h.flow hr
    refine ⟨f, hf, ?_⟩
    rw [pending, hpend]
    exact hcov f.sent fun seq hseq hle => .inl (hall seq hseq hle)
  · cases hpp
    refine ⟨(h.pass _ hp).1, fun _ _ => ?_⟩
    rw [pending, hpend]
    exact hreach

end

/-- Where a pass reports its gap, every number between its cursor and the oldest entry is gone. -/
theorem gone_reportGap (hlt : cursor < seq) (hfirst : seq < s.ring.firstSeq) : (s.reportGap cursor).Gone seq := by
  have hgap : (s.ring.readAfter cursor BATCH_MAX_OPS).2 = true := by
    simp only [Ring.readAfter, decide_eq_true_eq]
    omega
  rw [reportGap, if_pos hgap]
  exact ⟨(cursor, s.ring.firstSeq), mem_cons_self, hlt, hfirst⟩

theorem Inv.pumpEntries (h : Inv s) {conn : Nat} (hp : s.pass = some ⟨cursor, conn, none⟩) (hconn : s.up = true → conn = s.conn)
    (hgap : ∀ seq, cursor < seq → seq < s.ring.firstSeq → s.Gone seq) (hroute : ∀ e ∈ s.ring.buf, s.SameRoute cfg env e) :
    Inv (s.pumpEntries cfg env accepts cursor conn) := by
  have hnone : Inv { s with pass := none } := h.setPass nofun
  unfold PushSys.pumpEntries
  dsimp only
  split
  · exact hnone
  rcases hw : walk (routeEntry cfg env) (s.ring.readAfter cursor BATCH_MAX_OPS).1 cursor 0 with ⟨ops, newCursor, bytes⟩
  dsimp only
  split
  · rename_i hempty
    subst hempty
    exact h.walkNothing hp hgap hroute hw
  · split
    · rename_i hsend
      exact h.walkSend hp hsend.1 (hconn hsend.1) hgap hroute hw
    · exact hnone

theorem Inv.pumpSend (h : Inv s) {env : RouteEnv} {accepts : Bool} (hconn : ∀ p ∈ s.pass, s.up = true → p.conn = s.conn)
    (hroute : ∀ e ∈ s.ring.buf, s.SameRoute cfg env e) : Inv (s.step cfg (.pumpSend env accepts)) := by
  simp only [step]
  split
  · rename_i cursor conn hp
    have hsame : (s.reportGap cursor).ring = s.ring ∧ (s.reportGap cursor).pass = s.pass ∧ (s.reportGap cursor).up = s.up ∧
        (s.reportGap cursor).conn = s.conn ∧ (s.reportGap cursor).passed = s.passed ∧
        (s.reportGap cursor).routed = s.routed := by
      unfold reportGap
      split <;> exact ⟨rfl, rfl, rfl, rfl, rfl, rfl⟩
    obtain ⟨hring, hpass, hup, hcn, hpassed, hrouted⟩ := hsame
    have hinv : Inv (s.reportGap cursor) := by
      unfold reportGap
      split
      · exact h.grow (subset_cons_self _ _) le_rfl
      · exact h
    refine hinv.pumpEntries (hpass.trans hp) (fun h' => ?_) (fun seq hlt hfirst => ?_) fun e he => ?_
    · rw [hcn]
      exact hconn _ hp (hup ▸ h')
    · exact gone_reportGap hlt (hring ▸ hfirst)
    · have := hroute e (hring ▸ he)
      simpa only [SameRoute, hpassed, hrouted] using this
  · exact h

theorem Inv.step (h : Inv s) {op : PushOp} (hok : s.Settled cfg op) : Inv (s.step cfg op) := by
  cases op with
  | push origin ops => exact h.push origin ops
  | pumpBegin => exact h.pumpBegin hok
  | pumpSend env accepts => exact h.pumpSend hok.1 hok.2
  | pumpEnd => exact h.pumpEnd hok
  | drop => exact h.drop
  | connect =>
    simp only [PushSys.step]
    split
    · exact h
    · exact h.connect
  | disconnected =>
    refine h.setFlow (fun _ hm => hm) h.live fun hr => ?_
    obtain ⟨f, hf, hcov⟩ := h.flow hr
    exact ⟨f.clearInflight, by simp [hf], hcov⟩
  | deliver =>
    simp only [PushSys.step]
    split
    · exact h
    · rename_i batch wire hw
      exact h.deliver (by simp [pending, hw])
  | deliverBack =>
    simp only [PushSys.step]
    split
    · exact h
    rename_i msg backWire hw
    refine h.messages_of (fun c conn hm => h.messages c conn ?_) h.resuming
    rw [hw]
    simpa using hm
  | handle => exact h.handle
  | handleBack => exact h.handleBack
  | resumeRead =>
    refine h.messages_of h.messages fun c hc => ?_
    cases hc
    exact h.cursor
  | resumeSend =>
    simp only [PushSys.step]
    split
    · exact h
    rename_i seq hres
    refine h.messages_of (fun c conn hm => ?_) nofun
    split at hm
    · rw [← append_assoc] at hm
      rcases mem_append.1 hm with hm | hm
      · exact h.messages c conn hm
      · cases mem_singleton.1 hm
        exact h.resuming _ hres
    · exact h.messages c conn hm

theorem inv_run (firstSeq cursor : Nat) (ops : List PushOp)
    (hok : ∀ i, (hi : i < ops.length) → ((init firstSeq cursor).run cfg (ops.take i)).Settled cfg ops[i]) :
    Inv ((init firstSeq cursor).run cfg ops) :=
  Run.invariant (fun _ _ hinv hop => hinv.step hop) (inv_init firstSeq cursor) ops hok

/-- In every run in which each pass begins after the receiver's cursor of its connection has been handled, sends on that
connection, ends before the cursor of another has been handled and decides as before about entries that were passed before: every
entry that was sent to the receiver and whose number is at most the receiver's cursor has been applied by the receiver, or was
reported as gone from the ring. -/
theorem no_push_is_skipped (cfg : PushConfig) (firstSeq cursor : Nat) (ops : List PushOp)
    (hok : ∀ i, (hi : i < ops.length) → ((init firstSeq cursor).run cfg (ops.take i)).Settled cfg ops[i]) (seq : Nat)
    (hseq : seq ∈ ((init firstSeq cursor).run cfg ops).routed) (hle : seq ≤ ((init firstSeq cursor).run cfg ops).cursor) :
    (∃ e ∈ ((init firstSeq cursor).run cfg ops).applied, e.seq = seq) ∨ ((init firstSeq cursor).run cfg ops).Gone seq :=
  (inv_run firstSeq cursor ops hok).cursor.2 seq hseq hle

/-- Nodes 1 and 2 own everything; node 1 sends to node 2. -/
def pairConfig : PushConfig where
  xxh3 := fun b => UInt64.ofNat (b.foldl (fun h x => h * 31 + x.toNat + 1) 7)
  zoneSpread := false
  selfId := 1
  peer := 2
  replicasN := 2
  window := 4194304

def pairEnv : RouteEnv := ⟨⟨[⟨1, .active, none⟩, ⟨2, .active, none⟩], 1⟩, fun _ _ => false⟩

/-- A string record of node 1. -/
def pairRecord (value : UInt8) : PushOp := .push 1 [⟨Ikey.stringKey [97], [value]⟩]

/-- The receiver's cursor reaches the sender. -/
def resumption : List PushOp := [.resumeRead, .resumeSend, .deliverBack, .handleBack]

def wholePass : List PushOp := [.pumpBegin, .pumpSend pairEnv true, .pumpEnd]

/-- The first batch is lost with its connection, and sent again after the receiver's cursor has come. -/
def lostAndResumed : List PushOp :=
  [.connect] ++ resumption ++ [pairRecord 1] ++ wholePass ++ [.drop, .disconnected, .connect] ++ resumption ++ wholePass ++
    [.deliver, .handle]

theorem no_push_is_skipped_when_resumed : (∃ e ∈ ((init 1 0).run pairConfig lostAndResumed).applied, e.seq = 1) ∨
    ((init 1 0).run pairConfig lostAndResumed).Gone 1 := by
  exact no_push_is_skipped pairConfig 1 0 lostAndResumed (by decide) 1 (by decide) (by decide)

/-- After the reconnect a pass begins before the receiver's cursor has come. -/
def lostAndPumped : List PushOp :=
  [.connect] ++ resumption ++ [pairRecord 1] ++ wholePass ++ [.drop, .disconnected, .connect, pairRecord 2] ++ wholePass ++
    [.deliver, .handle] ++ resumption

/-- The first entry was sent, is below the receiver's cursor and still in the ring, but was not applied; the sender has taken the
cursor over and will not send it again. -/
theorem push_is_skipped : 1 ∈ ((init 1 0).run pairConfig lostAndPumped).routed ∧
    ((init 1 0).run pairConfig lostAndPumped).cursor = 2 ∧
    ((init 1 0).run pairConfig lostAndPumped).applied.map RingEntry.seq = [2] ∧
    ((init 1 0).run pairConfig lostAndPumped).gaps = [] ∧
    ((init 1 0).run pairConfig lostAndPumped).ring.buf.map RingEntry.seq = [1, 2] ∧
    ((init 1 0).run pairConfig lostAndPumped).flow.map PeerFlow.sent = some 2 := by
  decide +kernel

end PushSys

end Marekvs
