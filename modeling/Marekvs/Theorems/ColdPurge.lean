import Marekvs.Repl.ColdPurge

/-!
# A cold purge has current evidence

What ties an answer to the records being deleted is the generation: a root is remembered with a generation only where the
generation was the same before the scan and after it, and the records do not change without the generation. A nonce is pending in
one place at most and is counted once.
-/

namespace Marekvs

open List Function UInt64

namespace ColdNode

variable {cfg : ColdConfig} {s : ColdNode}

variable {pid : Pid} {g task : Nat} {dirty : Pid → Bool} {fault : Option PurgeFault} {now : UInt64}

theorem update_eq_some {pid' : Pid} {x : α}
    (h : Function.update f pid v pid' = some x) : pid' = pid ∧ v = some x ∨ pid' ≠ pid ∧ f pid' = some x := by
  rw [update_apply] at h
  split at h
  · exact .inl ⟨‹_›, h⟩
  · exact .inr ⟨‹_›, h⟩

/-! ## Roots and generations -/

section

variable (cfg : ColdConfig) (hist : Pid → Nat → Db) (generation : Pid → Nat)

def RootAt (pid : Pid) (root : UInt64) (g : Nat) : Prop := g ≤ generation pid ∧ root = rootOf cfg (hist pid g)

/-- What a task knows at its stage. -/
def StageOk (pid : Pid) : Stage → Prop
  | .begun => True
  | .reading g => g ≤ generation pid
  | .scanned g root => ∃ g', g ≤ g' ∧ RootAt cfg hist generation pid root g'
  | .ready root g => RootAt cfg hist generation pid root g

end

/-- `hist` is the content of each generation so far. -/
structure RootsOk (cfg : ColdConfig) (hist : Pid → Nat → Db) (s : ColdNode) : Prop where
  shown : ∀ pid, s.observing pid = 0 → s.content pid = hist pid (s.generation pid)
  roots : ∀ pid root g, s.roots pid = some (root, g) → RootAt cfg hist s.generation pid root g
  offers : ∀ t ∈ s.offers, StageOk cfg hist s.generation t.pid t.stage
  issued : ∀ q ∈ s.issued, RootAt cfg hist s.generation q.pid q.proof.root q.proof.generation

section

variable {hist hist' : Pid → Nat → Db} {generation generation' : Pid → Nat}

theorem RootAt.mono (hle : generation ≤ generation') (hkeep : ∀ pid g, g ≤ generation pid → hist' pid g = hist pid g)
    {root : UInt64} (h : RootAt cfg hist generation pid root g) : RootAt cfg hist' generation' pid root g :=
  ⟨h.1.trans (hle pid), by rw [h.2, hkeep pid g h.1]⟩

theorem StageOk.mono (hle : generation ≤ generation') (hkeep : ∀ pid g, g ≤ generation pid → hist' pid g = hist pid g)
    {stage : Stage} (h : StageOk cfg hist generation pid stage) : StageOk cfg hist' generation' pid stage := by
  cases stage with
  | begun => trivial
  | reading g => exact h.trans (hle pid)
  | scanned g root =>
    obtain ⟨g', hg, hroot⟩ := h
    exact ⟨g', hg, hroot.mono hle hkeep⟩
  | ready root g => exact RootAt.mono hle hkeep h

/-- The next generation of a partition, with this content. -/
def extend (hist : Pid → Nat → Db) (pid : Pid) (g : Nat) (content : Db) : Pid → Nat → Db :=
  Function.update hist pid (Function.update (hist pid) g content)

theorem extend_self (pid : Pid) (g : Nat) (content : Db) : extend hist pid g content pid g = content := by simp [extend]

theorem extend_of_le {content : Db} (hg : generation pid < g) (pid' : Pid) (g' : Nat) (h : g' ≤ generation pid') :
    extend hist pid g content pid' g' = hist pid' g' := by
  unfold extend
  by_cases hp : pid' = pid
  · subst hp
    rw [update_self, update_of_ne (by omega)]
  · rw [update_of_ne hp]

/-- A partition goes to its next generation, whose content is the one shown. -/
theorem RootsOk.advance (h : RootsOk cfg hist s) {content : Pid → Db} {observing : Pid → Nat}
    {evidence : Pid → Option ColdEvidence} (hcontent : ∀ pid' ≠ pid, content pid' = s.content pid')
    (hobserving : ∀ pid' ≠ pid, observing pid' = s.observing pid') :
    RootsOk cfg (extend hist pid (s.generation pid + 1) (content pid))
      { s with
        content := content
        generation := update s.generation pid (s.generation pid + 1)
        observing := observing
        dirty := dirty
        evidence := evidence } := by
  have hle : s.generation ≤ update s.generation pid (s.generation pid + 1) :=
    le_update_self_iff.2 (Nat.le_succ _)
  have hkeep : ∀ pid' g, g ≤ s.generation pid' → extend hist pid (s.generation pid + 1) (content pid) pid' g = hist pid' g :=
    extend_of_le (Nat.lt_succ_self _)
  refine ⟨fun pid' hobs => ?_, fun pid' root g hr => (h.roots pid' root g hr).mono hle hkeep,
    fun t ht => (h.offers t ht).mono hle hkeep, fun q hq => (h.issued q hq).mono hle hkeep⟩
  by_cases hp : pid' = pid
  · subst hp
    simp only [update_self, extend_self]
  · simp only [update_of_ne hp, extend, hcontent pid' hp]
    exact h.shown pid' ((hobserving pid' hp).symm.trans hobs)

/-- A task's stage changes, or a task is added. -/
theorem RootsOk.setOffers (h : RootsOk cfg hist s) {offers : List OfferTask}
    (hoffers : ∀ t ∈ offers, t ∈ s.offers ∨ StageOk cfg hist s.generation t.pid t.stage) :
    RootsOk cfg hist { s with offers := offers, dirty := dirty } where
  shown := h.shown
  roots := h.roots
  offers := fun t ht => (hoffers t ht).elim (h.offers t) id
  issued := h.issued

theorem RootsOk.setStage (h : RootsOk cfg hist s) (hstage : StageOk cfg hist s.generation t.pid stage) :
    RootsOk cfg hist ({ s with dirty := dirty }.setStage task t stage) := by
  refine h.setOffers fun t' ht' => ?_
  rcases mem_or_eq_of_mem_set ht' with hmem | rfl
  · exact .inl hmem
  · exact .inr hstage

theorem RootsOk.endOffer (h : RootsOk cfg hist s) : RootsOk cfg hist ({ s with dirty := dirty }.endOffer task) :=
  h.setOffers fun _ ht => .inl (mem_of_mem_eraseIdx ht)

theorem RootsOk.issueTo (h : RootsOk cfg hist s)
    (hroot : RootAt cfg hist s.generation t.pid root g) : RootsOk cfg hist (s.issueTo cfg t root g) := by
  unfold ColdNode.issueTo
  split
  · exact h
  split
  · exact ⟨h.shown, h.roots, h.offers, h.issued⟩
  refine ⟨h.shown, h.roots, h.offers, fun q hq => ?_⟩
  rcases mem_cons.1 hq with rfl | hq
  · exact hroot
  · exact h.issued q hq

theorem RootsOk.stageOk (h : RootsOk cfg hist s) (ht : s.offers[task]? = some t)
    (hstage : t.stage = stage) : StageOk cfg hist s.generation t.pid stage :=
  hstage ▸ h.offers t (mem_of_getElem? ht)

end

theorem RootsOk.step {hist : Pid → Nat → Db} (h : RootsOk cfg hist s) (op : ColdOp) :
    ∃ hist', RootsOk cfg hist' (s.step cfg op) := by
  cases op with
  | commit pid content changes =>
    simp only [ColdNode.step]
    split
    · exact ⟨hist, h⟩
    rename_i hfree
    refine ⟨hist, fun pid' hobs => ?_, h.roots, h.offers, h.issued⟩
    by_cases hp : pid' = pid
    · subst hp
      simp only [update_self] at hobs
      exact absurd (.inr hobs) hfree
    · simp only [update_of_ne hp] at hobs ⊢
      exact h.shown pid' hobs
  | observe pid =>
    simp only [ColdNode.step]
    split
    · exact ⟨hist, h⟩
    · exact ⟨_, h.advance (fun _ _ => rfl) fun _ hp => update_of_ne hp _ _⟩
  | offer pid peer =>
    refine ⟨hist, h.setOffers fun t ht => ?_⟩
    rcases mem_append.1 ht with hmem | hmem
    · exact .inl hmem
    · rw [mem_singleton.1 hmem]
      exact .inr trivial
  | useCached task =>
    refine ⟨hist, ?_⟩
    simp only [ColdNode.step]
    split
    · exact h
    split
    · rename_i root g _ hroots
      split
      · exact h.setStage (h.roots _ _ _ hroots)
      · exact h
    · exact h
  | readGeneration task =>
    refine ⟨hist, ?_⟩
    simp only [ColdNode.step]
    split
    · exact h
    · split
      · exact h.setStage le_rfl
      · exact h
  | scan task fails =>
    refine ⟨hist, ?_⟩
    simp only [ColdNode.step]
    split
    · exact h
    rename_i t ht
    split
    · rename_i g hstage
      split
      · exact h
      rename_i hobs
      split
      · exact h.endOffer
      · refine h.setStage ⟨s.generation t.pid, h.stageOk ht hstage, le_rfl, ?_⟩
        rw [h.shown t.pid (not_not.1 hobs)]
    · exact h
  | checkGeneration task =>
    refine ⟨hist, ?_⟩
    simp only [ColdNode.step]
    split
    · exact h
    rename_i t ht
    split
    · rename_i g root hstage
      split
      · rename_i hsame
        -- the generation has not moved, so the scan saw the content of this very generation
        obtain ⟨g', hle, hg', hroot⟩ := h.stageOk ht hstage
        have hgg : g' = g := le_antisymm (hsame ▸ hg') hle
        subst hgg
        have hat : RootAt cfg hist s.generation t.pid root g' := ⟨hg', hroot⟩
        have h' : RootsOk cfg hist { s with roots := update s.roots t.pid (some (root, g')) } := by
          refine ⟨h.shown, fun pid r g hr => ?_, h.offers, h.issued⟩
          rcases update_eq_some hr with ⟨rfl, ⟨⟩⟩ | ⟨-, hr⟩
          · exact hat
          · exact h.roots pid r g hr
        exact h'.setStage hat
      · exact h.endOffer
    · exact h
  | issue task =>
    refine ⟨hist, ?_⟩
    simp only [ColdNode.step]
    split
    · exact h
    rename_i t ht
    split
    · rename_i root g hstage
      split
      · exact h
      · have hok : RootAt cfg hist s.generation t.pid root g := h.stageOk ht hstage
        exact (h.issueTo hok).endOffer
    · exact h
  | purge pid now fault =>
    simp only [ColdNode.step, purgePartition]
    split
    · exact ⟨hist, h⟩
    · split
      · exact ⟨_, h.advance (fun _ hp => update_of_ne hp _ _) fun _ _ => rfl⟩
      · exact ⟨hist, h⟩
  | _ =>
    -- the view, the markers, the answers and the evidence are no part of the invariant
    simp only [ColdNode.step, ColdNode.trackOwnershipLoss, noteCleanColdRound]
    (repeat' split) <;> exact ⟨hist, h.shown, h.roots, h.offers, h.issued⟩

/-! ## Nonces and rounds -/

/-- The nonce was sent for the partition under this generation and view, to a peer that was then an active owner, and the peer
has answered it with the root it was sent for. -/
def Answered (cfg : ColdConfig) (issued : List ColdRequest) (answers : List ColdAnswer) (pid : Pid) (nonce : Bytes)
    (generation : Nat) (epoch : UInt64) : Prop :=
  ∃ q ∈ issued, q.pid = pid ∧ q.proof.nonce = nonce ∧ q.proof.generation = generation ∧ q.view.epoch = epoch ∧
    q.proof.peer ∈ q.view.owners cfg.xxh3 cfg.zoneSpread pid cfg.replicasN ∧ q.view.isActive q.proof.peer = true ∧
    ⟨q.proof.peer, pid, nonce, q.proof.root⟩ ∈ answers

/-- The rounds of the evidence are answers to so many distinct nonces, all of them counted. -/
def Backed (cfg : ColdConfig) (issued : List ColdRequest) (answers : List ColdAnswer) (noted : List Bytes) (pid : Pid)
    (e : ColdEvidence) : Prop :=
  ∃ nonces : List Bytes, nonces.Nodup ∧ e.rounds.toNat ≤ nonces.length ∧
    ∀ n ∈ nonces, n ∈ noted ∧ Answered cfg issued answers pid n e.generation e.viewEpoch

/-- A request as it is sent. -/
structure RequestOk (cfg : ColdConfig) (r : ColdProofRequests) (q : ColdRequest) : Prop where
  epoch : q.view.epoch = q.proof.viewEpoch
  owner : q.proof.peer ∈ q.view.owners cfg.xxh3 cfg.zoneSpread q.pid cfg.replicasN
  active : q.view.isActive q.proof.peer = true
  nonce : ∃ boot sequence, r.boot = some boot ∧ sequence ≤ r.sequence ∧ q.proof.nonce = boot ++ Bytes.ofU64 sequence

/-- `noted` are the nonces whose answers have been counted, or were refused when they were to be counted. -/
structure NoncesOk (cfg : ColdConfig) (noted : List Bytes) (s : ColdNode) : Prop where
  issued : ∀ q ∈ s.issued, RequestOk cfg s.requests q
  pending : ∀ pid p, s.requests.pending pid = some p →
    (∃ q ∈ s.issued, q.pid = pid ∧ q.proof = p) ∧ p.nonce ∉ s.notes.map NoteTask.nonce ++ noted
  apart : ∀ pid pid' p p', s.requests.pending pid = some p → s.requests.pending pid' = some p' → p.nonce = p'.nonce → pid = pid'
  notes : ∀ t ∈ s.notes, Answered cfg s.issued s.answers t.pid t.nonce t.generation t.viewEpoch
  once : (s.notes.map NoteTask.nonce ++ noted).Nodup
  known : ∀ n ∈ s.notes.map NoteTask.nonce ++ noted, ∃ q ∈ s.issued, q.proof.nonce = n
  evidence : ∀ pid e, s.evidence pid = some e → Backed cfg s.issued s.answers noted pid e

theorem Answered.mono {issued issued' : List ColdRequest} {answers answers' : List ColdAnswer} (hi : issued ⊆ issued')
    (ha : answers ⊆ answers') {epoch : UInt64} (h : Answered cfg issued answers pid nonce g epoch) :
    Answered cfg issued' answers' pid nonce g epoch := by
  obtain ⟨q, hq, hpid, hn, hg, he, ho, hact, hans⟩ := h
  exact ⟨q, hi hq, hpid, hn, hg, he, ho, hact, ha hans⟩

theorem Backed.mono {issued issued' : List ColdRequest} {answers answers' : List ColdAnswer}
    (hi : issued ⊆ issued') (ha : answers ⊆ answers') (hn : noted ⊆ noted') {e : ColdEvidence}
    (h : Backed cfg issued answers noted pid e) : Backed cfg issued' answers' noted' pid e := by
  obtain ⟨nonces, hnd, hlen, hall⟩ := h
  exact ⟨nonces, hnd, hlen, fun n hmem => ⟨hn (hall n hmem).1, (hall n hmem).2.mono hi ha⟩⟩

section

variable {noted : List Bytes}

/-- What stays where nothing is sent, received or counted. -/
structure Quiet (s s' : ColdNode) : Prop where
  requests : s'.requests = s.requests
  notes : s'.notes = s.notes
  issued : s'.issued = s.issued
  answers : s'.answers = s.answers
  evidence : ∀ pid, s'.evidence pid = s.evidence pid ∨ s'.evidence pid = none ∨
    ∃ e, s.evidence pid = some e ∧ s'.evidence pid = some { e with rounds := 0 }

theorem NoncesOk.frame (h : NoncesOk cfg noted s) {s' : ColdNode} (hq : Quiet s s') : NoncesOk cfg noted s' := by
  obtain ⟨hr, hn, hi, ha, he⟩ := hq
  refine ⟨by rw [hi, hr]; exact h.issued, by rw [hi, hr, hn]; exact h.pending, by rw [hr]; exact h.apart,
    by rw [hi, ha, hn]; exact h.notes, by rw [hn]; exact h.once, by rw [hi, hn]; exact h.known, fun pid e hev => ?_⟩
  rw [hi, ha]
  rcases he pid with heq | hnone | ⟨e', he', heq⟩
  · exact h.evidence pid e (heq.symm.trans hev)
  · cases hnone.symm.trans hev
  · cases heq.symm.trans hev
    exact ⟨[], nodup_nil, by simp, nofun⟩

/-- A new sequence number makes a new nonce. -/
theorem nonce_fresh (hq : RequestOk cfg r q) {boot : Bytes} {sequence : UInt64}
    (hboot : r.boot = some boot) (hseq : UInt64.checkedAdd r.sequence 1 = some sequence) :
    q.proof.nonce ≠ boot ++ Bytes.ofU64 sequence := by
  obtain ⟨boot', seq', hboot', hle, hnonce⟩ := hq.nonce
  intro heq
  have hsame : boot' = boot := Option.some.inj (hboot'.symm.trans hboot)
  rw [hnonce, hsame] at heq
  have hseqs : seq' = sequence := by simpa using congrArg Bytes.toU64 (append_cancel_left heq)
  have hnext := toNat_checkedAdd hseq
  rw [le_iff_toNat_le, hseqs, hnext] at hle
  simp at hle

theorem NoncesOk.issueTo (h : NoncesOk cfg noted s) (t : OfferTask) (root : UInt64) (g : Nat) :
    NoncesOk cfg noted (s.issueTo cfg t root g) := by
  unfold ColdNode.issueTo ColdProofRequests.issue
  split
  · exact h
  rename_i hgo
  simp only [not_or, Bool.not_eq_false, current, Bool.and_eq_true, decide_eq_true_eq, contains_iff_mem] at hgo
  obtain ⟨-, ⟨⟨⟨hepoch, -⟩, -⟩, howner⟩, hactive⟩ := hgo
  cases hboot : s.requests.boot with
  | none => exact h.frame ⟨rfl, rfl, rfl, rfl, fun _ => .inl rfl⟩
  | some boot =>
    dsimp only
    cases hseq : checkedAdd s.requests.sequence 1 with
    | none => exact h.frame ⟨rfl, rfl, rfl, rfl, fun _ => .inl rfl⟩
    | some sequence =>
      dsimp only
      have hle : s.requests.sequence ≤ sequence := by
        rw [le_iff_toNat_le, toNat_checkedAdd hseq]
        exact Nat.le_add_right _ _
      have hfresh : ∀ q ∈ s.issued, q.proof.nonce ≠ boot ++ Bytes.ofU64 sequence :=
        fun q hq => nonce_fresh (h.issued q hq) hboot hseq
      refine ⟨fun q hq => ?_, fun pid p hp => ?_, fun pid pid' p p' hp hp' hn => ?_, fun t' ht' => ?_,
        h.once, fun n hn => ?_, fun pid e he => ?_⟩
      · rcases mem_cons.1 hq with rfl | hq
        · exact ⟨hepoch, howner, hactive, boot, sequence, rfl, le_rfl, rfl⟩
        · obtain ⟨he, ho, ha, b, q', hb, hq', hn⟩ := h.issued q hq
          exact ⟨he, ho, ha, b, q', hboot.symm.trans hb, hq'.trans hle, hn⟩
      · rcases update_eq_some hp with ⟨rfl, ⟨⟩⟩ | ⟨-, hp⟩
        · refine ⟨⟨_, mem_cons_self, rfl, rfl⟩, fun hn => ?_⟩
          obtain ⟨q, hq, hqn⟩ := h.known _ hn
          exact hfresh q hq hqn
        · obtain ⟨⟨q, hq, hqp⟩, hn⟩ := h.pending pid p hp
          exact ⟨⟨q, mem_cons_of_mem _ hq, hqp⟩, hn⟩
      · have hold : ∀ pid'' p'', s.requests.pending pid'' = some p'' → p''.nonce ≠ boot ++ Bytes.ofU64 sequence := by
          intro pid'' p'' hp''
          obtain ⟨⟨q, hq, -, rfl⟩, -⟩ := h.pending pid'' p'' hp''
          exact hfresh q hq
        rcases update_eq_some hp with ⟨rfl, ⟨⟩⟩ | ⟨-, hp⟩
        · rcases update_eq_some hp' with ⟨rfl, -⟩ | ⟨-, hp'⟩
          · rfl
          · exact absurd hn.symm (hold pid' p' hp')
        · rcases update_eq_some hp' with ⟨rfl, ⟨⟩⟩ | ⟨-, hp'⟩
          · exact absurd hn (hold pid p hp)
          · exact h.apart pid pid' p p' hp hp' hn
      · exact (h.notes t' ht').mono (subset_cons_self _ _) (List.Subset.refl _)
      · obtain ⟨q, hq, hqn⟩ := h.known n hn
        exact ⟨q, mem_cons_of_mem _ hq, hqn⟩
      · exact (h.evidence pid e he).mono (subset_cons_self _ _) (List.Subset.refl _) (List.Subset.refl _)

theorem take_cases (r : ColdProofRequests) (pid : Pid) (peer : NodeId) (nonce : Bytes) :
    r.take pid peer nonce = (r, none) ∨ ∃ p, r.pending pid = some p ∧ p.peer = peer ∧ p.nonce = nonce ∧
      r.take pid peer nonce = ({ r with pending := update r.pending pid none }, some p) := by
  unfold ColdProofRequests.take
  cases hp : r.pending pid with
  | none => exact .inl rfl
  | some p =>
    by_cases hmatch : p.peer = peer ∧ p.nonce = nonce
    · exact .inr ⟨p, rfl, hmatch.1, hmatch.2, by simp [hmatch]⟩
    · exact .inl (by simp [hmatch])

/-- The answers received so far, with one more. -/
theorem NoncesOk.receive (h : NoncesOk cfg noted s) (answer : ColdAnswer) :
    NoncesOk cfg noted { s with answers := answer :: s.answers } where
  issued := h.issued
  pending := h.pending
  apart := h.apart
  notes := fun t ht => (h.notes t ht).mono (List.Subset.refl _) (subset_cons_self _ _)
  once := h.once
  known := h.known
  evidence := fun pid e he => (h.evidence pid e he).mono (List.Subset.refl _) (subset_cons_self _ _) (List.Subset.refl _)

/-- A request is taken out of the pending ones. -/
theorem NoncesOk.forget (h : NoncesOk cfg noted s) (pid : Pid) :
    NoncesOk cfg noted { s with requests := { s.requests with pending := update s.requests.pending pid none } } := by
  have hsub : ∀ pid' p, update s.requests.pending pid none pid' = some p → s.requests.pending pid' = some p :=
    fun pid' p hp => ((update_eq_some hp).resolve_left fun h => nomatch h.2).2
  refine ⟨fun q hq => ?_, fun pid' p hp => h.pending pid' p (hsub pid' p hp),
    fun pid₁ pid₂ p p' hp hp' => h.apart pid₁ pid₂ p p' (hsub _ _ hp) (hsub _ _ hp'), h.notes, h.once, h.known, h.evidence⟩
  obtain ⟨he, ho, ha, hn⟩ := h.issued q hq
  exact ⟨he, ho, ha, hn⟩

/-- A request that is not pending any more goes to a task that counts it. -/
theorem NoncesOk.addNote (h : NoncesOk cfg noted s)
    (hans : Answered cfg s.issued s.answers t.pid t.nonce t.generation t.viewEpoch)
    (hnew : t.nonce ∉ s.notes.map NoteTask.nonce ++ noted)
    (hgone : ∀ pid p, s.requests.pending pid = some p → p.nonce ≠ t.nonce) :
    NoncesOk cfg noted { s with notes := s.notes ++ [t] } := by
  have hperm : ((s.notes ++ [t]).map NoteTask.nonce ++ noted).Perm (t.nonce :: (s.notes.map NoteTask.nonce ++ noted)) := by
    simp
  refine ⟨h.issued, fun pid p hp => ⟨(h.pending pid p hp).1, fun hn => ?_⟩, h.apart, fun t' ht' => ?_, ?_, fun n hn => ?_,
    h.evidence⟩
  · rcases mem_cons.1 (hperm.mem_iff.1 hn) with heq | hn
    · exact hgone pid p hp heq
    · exact (h.pending pid p hp).2 hn
  · rcases mem_append.1 ht' with ht' | ht'
    · exact h.notes t' ht'
    · rw [mem_singleton.1 ht']
      exact hans
  · exact hperm.nodup_iff.2 (nodup_cons.2 ⟨hnew, h.once⟩)
  · rcases mem_cons.1 (hperm.mem_iff.1 hn) with rfl | hn
    · obtain ⟨q, hq, -, hqn, -⟩ := hans
      exact ⟨q, hq, hqn⟩
    · exact h.known n hn

theorem NoncesOk.response (h : NoncesOk cfg noted s) (answer : ColdAnswer) :
    NoncesOk cfg noted (s.step cfg (.response answer)) := by
  simp only [ColdNode.step]
  split
  · exact h
  rcases take_cases s.requests answer.pid answer.peer answer.nonce with htake | ⟨p, hp, hpeer, hnonce, htake⟩
  · rw [htake]
    exact h.receive answer
  rw [htake]
  dsimp only
  have hrest := (h.receive answer).forget answer.pid
  split
  · rename_i hroot
    obtain ⟨⟨q, hq, hpid, rfl⟩, hnew⟩ := h.pending _ p hp
    have hok := h.issued q hq
    have hq' : Answered cfg s.issued (answer :: s.answers) answer.pid q.proof.nonce q.proof.generation
        q.proof.viewEpoch := by
      refine ⟨q, hq, hpid, rfl, rfl, hok.epoch, hpid ▸ hok.owner, hok.active, mem_cons.2 (.inl ?_)⟩
      rw [hpeer, hnonce, hroot]
    refine hrest.addNote (t := ⟨answer.pid, answer.peer, q.proof.generation, q.proof.viewEpoch, q.proof.nonce⟩)
      hq' hnew fun pid' p' hp' heq => ?_
    obtain ⟨hpid', hp'⟩ := (update_eq_some hp').resolve_left fun h => nomatch h.2
    exact hpid' (h.apart pid' answer.pid p' q.proof hp' hp heq)
  · exact hrest

theorem toNat_satAdd_one_le (rounds : UInt64) : (UInt64.satAdd rounds 1).toNat ≤ rounds.toNat + 1 := by
  rw [toNat_satAdd]
  exact min_le_left _ _

/-- A counted round adds one to the rounds of its own generation and view. -/
theorem count_cases (entry : Option ColdEvidence) (g : Nat) (epoch : UInt64) :
    (ColdEvidence.count entry g epoch).generation = g ∧ (ColdEvidence.count entry g epoch).viewEpoch = epoch ∧
      ((ColdEvidence.count entry g epoch).rounds.toNat ≤ 1 ∨ ∃ e, entry = some e ∧ e.generation = g ∧ e.viewEpoch = epoch ∧
        (ColdEvidence.count entry g epoch).rounds.toNat ≤ e.rounds.toNat + 1) := by
  unfold ColdEvidence.count
  cases entry with
  | none =>
    simp only [Option.getD_none, ne_eq, not_true_eq_false, or_self, if_false, true_and]
    exact .inl (toNat_satAdd_one_le 0)
  | some e =>
    simp only [Option.getD_some]
    split
    · exact ⟨rfl, rfl, .inl (toNat_satAdd_one_le 0)⟩
    · rename_i hsame
      obtain ⟨hg, he⟩ := not_or.1 hsame
      exact ⟨not_not.1 hg, not_not.1 he, .inr ⟨e, rfl, not_not.1 hg, not_not.1 he, toNat_satAdd_one_le _⟩⟩

/-- The round of a task is counted, or refused. -/
theorem NoncesOk.note (h : NoncesOk cfg noted s) (ht : s.notes[task]? = some t) :
    NoncesOk cfg (t.nonce :: noted) { s.noteCleanColdRound cfg t with notes := s.notes.eraseIdx task } := by
  have hmem : t ∈ s.notes := mem_of_getElem? ht
  have hperm : ((s.notes.eraseIdx task).map NoteTask.nonce ++ t.nonce :: noted).Perm (s.notes.map NoteTask.nonce ++ noted) := by
    have hlt : task < s.notes.length := (List.getElem?_eq_some_iff.1 ht).1
    have hget : s.notes[task] = t := (List.getElem?_eq_some_iff.1 ht).2
    refine perm_middle.trans ?_
    rw [← cons_append, ← map_cons]
    refine List.Perm.append_right _ (List.Perm.map _ ?_)
    rw [← hget]
    exact getElem_cons_eraseIdx_perm hlt
  have hfirst : t.nonce ∉ noted := fun hn =>
    (nodup_append.1 h.once).2.2 t.nonce (mem_map.2 ⟨t, hmem, rfl⟩) t.nonce hn rfl
  have hrest : ∀ {evidence : Pid → Option ColdEvidence},
      (∀ pid e, evidence pid = some e → Backed cfg s.issued s.answers (t.nonce :: noted) pid e) →
      NoncesOk cfg (t.nonce :: noted) { s with evidence := evidence, notes := s.notes.eraseIdx task } := by
    intro evidence hev
    refine ⟨h.issued, fun pid p hp => ⟨(h.pending pid p hp).1, fun hn => (h.pending pid p hp).2 (hperm.mem_iff.1 hn)⟩, h.apart,
      fun t' ht' => h.notes t' (mem_of_mem_eraseIdx ht'), hperm.nodup_iff.2 h.once,
      fun n hn => h.known n (hperm.mem_iff.1 hn), hev⟩
  have hold : ∀ pid e, s.evidence pid = some e → Backed cfg s.issued s.answers (t.nonce :: noted) pid e :=
    fun pid e he => (h.evidence pid e he).mono (List.Subset.refl _) (List.Subset.refl _) (subset_cons_self _ _)
  unfold noteCleanColdRound
  split
  · exact hrest hold
  refine hrest fun pid e he => ?_
  rcases update_eq_some he with ⟨rfl, ⟨⟩⟩ | ⟨-, he⟩
  · obtain ⟨hg, hep, hrounds⟩ := count_cases (s.evidence t.pid) t.generation t.viewEpoch
    rw [Backed, hg, hep]
    have hthis := h.notes t hmem
    rcases hrounds with hone | ⟨e, he, hg', hep', hmore⟩
    · refine ⟨[t.nonce], nodup_singleton _, hone, fun n hn => ?_⟩
      rw [mem_singleton.1 hn]
      exact ⟨mem_cons_self, hthis⟩
    · obtain ⟨nonces, hnd, hlen, hall⟩ := h.evidence t.pid e he
      refine ⟨t.nonce :: nonces, nodup_cons.2 ⟨fun hn => hfirst (hall _ hn).1, hnd⟩, ?_, fun n hn => ?_⟩
      · rw [length_cons]
        omega
      rcases mem_cons.1 hn with rfl | hn
      · exact ⟨mem_cons_self, hthis⟩
      · obtain ⟨hin, hans⟩ := hall n hn
        rw [hg', hep'] at hans
        exact ⟨mem_cons_of_mem _ hin, hans⟩
  · exact hold pid e he

theorem step_quiet (s : ColdNode) (op : ColdOp) (hissue : ∀ task, op ≠ .issue task) (hresponse : ∀ answer, op ≠ .response answer)
    (hnote : ∀ task, op ≠ .note task) : Quiet s (s.step cfg op) := by
  have hdrop : ∀ pid pid', update s.evidence pid none pid' = s.evidence pid' ∨
      update s.evidence pid none pid' = none := by
    intro pid pid'
    by_cases hp : pid' = pid
    · subst hp
      exact .inr (update_self _ _ _)
    · exact .inl (update_of_ne hp _ _)
  have hzero : ∀ pid pid', let e' := update s.evidence pid ((s.evidence pid).map fun proof => { proof with rounds := 0 })
      e' pid' = s.evidence pid' ∨ ∃ e, s.evidence pid' = some e ∧ e' pid' = some { e with rounds := 0 } := by
    intro pid pid' e'
    by_cases hp : pid' = pid
    · subst hp
      cases he : s.evidence pid' with
      | none => exact .inl (by simp [e', he])
      | some e => exact .inr ⟨e, rfl, by simp [e', he]⟩
    · exact .inl (update_of_ne hp _ _)
  cases op with
  | issue task => exact absurd rfl (hissue task)
  | response answer => exact absurd rfl (hresponse answer)
  | note task => exact absurd rfl (hnote task)
  | _ =>
    simp only [step, setStage, endOffer, trackOwnershipLoss, purgePartition]
    (repeat' split) <;> first
      | exact ⟨rfl, rfl, rfl, rfl, fun _ => .inl rfl⟩
      | exact ⟨rfl, rfl, rfl, rfl, fun pid' => (hdrop _ pid').imp_right .inl⟩
      | exact ⟨rfl, rfl, rfl, rfl, fun pid' => (hzero _ pid').imp_right .inr⟩

theorem NoncesOk.step (h : NoncesOk cfg noted s) (op : ColdOp) : ∃ noted', NoncesOk cfg noted' (s.step cfg op) := by
  cases op with
  | issue task =>
    refine ⟨noted, ?_⟩
    simp only [ColdNode.step]
    split
    · exact h
    split
    · split
      · exact h
      · exact (h.issueTo _ _ _).frame ⟨rfl, rfl, rfl, rfl, fun _ => .inl rfl⟩
    · exact h
  | response answer => exact ⟨noted, h.response answer⟩
  | note task =>
    simp only [ColdNode.step]
    split
    · exact ⟨noted, h⟩
    · split
      · exact ⟨noted, h⟩
      · exact ⟨_, h.note ‹_›⟩
  | _ =>
    exact ⟨noted, h.frame (step_quiet s _ nofun nofun nofun)⟩

end

/-! ## The purge -/

/-- Generations do not go back, and what was sent stays sent. -/
theorem step_mono (s : ColdNode) (op : ColdOp) :
    s.generation ≤ (s.step cfg op).generation ∧ s.issued ⊆ (s.step cfg op).issued := by
  have hbump : ∀ pid, s.generation ≤ update s.generation pid (s.generation pid + 1) :=
    fun _ => le_update_self_iff.2 (Nat.le_succ _)
  have hsent : ∀ t root g, s.generation ≤ (s.issueTo cfg t root g).generation ∧ s.issued ⊆ (s.issueTo cfg t root g).issued := by
    intro t root g
    unfold issueTo
    split
    · exact ⟨le_rfl, List.Subset.refl _⟩
    · split
      · exact ⟨le_rfl, List.Subset.refl _⟩
      · exact ⟨le_rfl, subset_cons_self _ _⟩
  cases op <;>
    simp only [step, setStage, endOffer, trackOwnershipLoss, purgePartition, noteCleanColdRound] <;> (repeat' split) <;>
    first
    | exact ⟨le_rfl, List.Subset.refl _⟩
    | exact ⟨hbump _, List.Subset.refl _⟩
    | exact hsent _ _ _

theorem run_mono (s : ColdNode) (ops : List ColdOp) :
    s.generation ≤ (s.run cfg ops).generation ∧ s.issued ⊆ (s.run cfg ops).issued := by
  induction ops generalizing s with
  | nil => exact ⟨le_rfl, List.Subset.refl _⟩
  | cons op ops ih =>
    obtain ⟨hg, hi⟩ := @step_mono cfg s op
    obtain ⟨hg', hi'⟩ := ih (s.step cfg op)
    exact ⟨hg.trans hg', List.Subset.trans hi hi'⟩

theorem of_purgeIfEligible {marker : Option UInt64} {content : Db} {eligible : Bool} {entry : Option ColdEvidence}
    (h : purgeIfEligible fault marker content g now delay needRounds epoch eligible entry = .ok .purged) :
    eligible = true ∧ ∃ e, entry = some e ∧ e.generation = g ∧ e.viewEpoch = epoch ∧ needRounds ≤ e.rounds := by
  unfold purgeIfEligible at h
  split at h
  · cases h
  rename_i helig
  iterate 6
    split at h
    · cases h
  rename_i e
  split at h
  · cases h
  rename_i hsame
  split at h
  · cases h
  rename_i hrounds
  obtain ⟨hg, he⟩ := not_or.1 hsame
  exact ⟨by simpa using helig, e, rfl, not_not.1 hg, not_not.1 he, not_lt.1 hrounds⟩

/-- A purge that changes what the partition holds is one that was decided, on a shard that is free. -/
theorem purged_of_content_ne (h : (s.step cfg (.purge pid now fault)).content pid ≠ s.content pid) :
    s.observing pid = 0 ∧ s.purgeOutcome cfg pid now fault = .ok .purged := by
  simp only [step, purgePartition] at h
  split at h
  · exact absurd rfl h
  rename_i hobs
  split at h
  · exact ⟨not_not.1 hobs, ‹_›⟩
  · exact absurd rfl h

section

variable (view : View) (rejoining : Bool) (content : Pid → Db) (marker : Pid → Option UInt64) (bootId : Option Bytes)

theorem rootsOk_run (ops : List ColdOp) : ∃ hist, RootsOk cfg hist ((boot view rejoining content marker bootId).run cfg ops) := by
  refine List.foldlRecOn (motive := fun s => ∃ hist, RootsOk cfg hist s) ops (step cfg) ⟨fun pid _ => content pid, ?_⟩
    fun s hs op _ => ?_
  · exact ⟨fun _ _ => rfl, nofun, nofun, nofun⟩
  · obtain ⟨hist, hok⟩ := hs
    exact hok.step op

theorem noncesOk_run (ops : List ColdOp) :
    ∃ noted, NoncesOk cfg noted ((boot view rejoining content marker bootId).run cfg ops) := by
  refine List.foldlRecOn (motive := fun s => ∃ noted, NoncesOk cfg noted s) ops (step cfg) ⟨[], ?_⟩ fun s hs op _ => ?_
  · exact ⟨nofun, nofun, nofun, nofun,
      nodup_nil, nofun, nofun⟩
  · obtain ⟨noted, hok⟩ := hs
    exact hok.step op

/-- A request that was sent before a purge is of an older generation than every state after it. -/
theorem generation_lt_after_purge {before : List ColdOp}
    (hdel : (((boot view rejoining content marker bootId).run cfg before).step cfg (.purge pid now fault)).content pid ≠
      ((boot view rejoining content marker bootId).run cfg before).content pid)
    {q : ColdRequest} (hq : q ∈ ((boot view rejoining content marker bootId).run cfg before).issued) (hpid : q.pid = pid)
    (after : List ColdOp) : q.proof.generation <
      ((boot view rejoining content marker bootId).run cfg (before ++ .purge pid now fault :: after)).generation pid := by
  obtain ⟨hist, hok⟩ := @rootsOk_run cfg view rejoining content marker bootId before
  generalize hs : (boot view rejoining content marker bootId).run cfg before = s at hdel hq hok
  obtain ⟨hobs, hpurged⟩ := purged_of_content_ne hdel
  have hrun : (boot view rejoining content marker bootId).run cfg (before ++ .purge pid now fault :: after) =
      (s.step cfg (.purge pid now fault)).run cfg after := by
    rw [← hs]
    simp [run]
  have hbump : (s.step cfg (.purge pid now fault)).generation pid = s.generation pid + 1 := by
    simp [step, purgePartition, hobs, hpurged]
  rw [hrun]
  calc q.proof.generation ≤ s.generation pid := hpid ▸ (hok.issued q hq).1
    _ < (s.step cfg (.purge pid now fault)).generation pid := by omega
    _ ≤ _ := (run_mono _ after).1 pid

/-- In every run of a process: a purge that changes what a partition holds finds that the node is not an owner and that as many
owners as there are replicas are active in the current view, and at least the configured number of distinct nonces were sent for
the partition under the current view's epoch, each to an active owner that answered it with the root of exactly the records being
deleted; and none of these was sent before an earlier purge of the partition. -/
theorem cold_purge_has_current_evidence (cfg : ColdConfig) (view : View) (rejoining : Bool) (content : Pid → Db)
    (marker : Pid → Option UInt64) (bootId : Option Bytes) (ops : List ColdOp) (pid : Pid) (now : UInt64)
    (fault : Option PurgeFault)
    (hdel : (((boot view rejoining content marker bootId).run cfg ops).step cfg (.purge pid now fault)).content pid ≠
      ((boot view rejoining content marker bootId).run cfg ops).content pid) :
    let s := (boot view rejoining content marker bootId).run cfg ops
    cfg.selfId ∉ s.owners cfg pid ∧ cfg.replicasN ≤ (s.owners cfg pid).length ∧
      (∀ owner ∈ s.owners cfg pid, s.view.isActive owner = true) ∧
      ∃ nonces : List Bytes, nonces.Nodup ∧ cfg.needRounds.toNat ≤ nonces.length ∧ ∀ n ∈ nonces,
        ∃ q ∈ s.issued, q.pid = pid ∧ q.proof.nonce = n ∧ q.view.epoch = s.view.epoch ∧
          q.proof.peer ∈ q.view.owners cfg.xxh3 cfg.zoneSpread pid cfg.replicasN ∧ q.view.isActive q.proof.peer = true ∧
          ⟨q.proof.peer, pid, n, rootOf cfg (s.content pid)⟩ ∈ s.answers ∧
          ∀ before now' fault' after, ops = before ++ .purge pid now' fault' :: after →
            (((boot view rejoining content marker bootId).run cfg before).step cfg (.purge pid now' fault')).content pid ≠
              ((boot view rejoining content marker bootId).run cfg before).content pid →
            q ∉ ((boot view rejoining content marker bootId).run cfg before).issued := by
  intro s
  obtain ⟨hist, hroots⟩ := @rootsOk_run cfg view rejoining content marker bootId ops
  obtain ⟨noted, hnonces⟩ := @noncesOk_run cfg view rejoining content marker bootId ops
  obtain ⟨hobs, hpurged⟩ := purged_of_content_ne hdel
  obtain ⟨helig, e, he, hg, hepoch, hrounds⟩ := of_purgeIfEligible hpurged
  simp only [eligible, Bool.and_eq_true, Bool.not_eq_true', decide_eq_true_eq, all_eq_true] at helig
  obtain ⟨⟨⟨-, hself⟩, hn⟩, hactive⟩ := helig
  obtain ⟨nonces, hnd, hlen, hall⟩ := hnonces.evidence pid e he
  refine ⟨by simpa [View.isOwner, owners] using hself, hn, hactive, nonces, hnd, (UInt64.le_iff_toNat_le.1 hrounds).trans hlen,
    fun n hmem => ?_⟩
  obtain ⟨-, q, hq, hpid, hnonce, hgen, hview, howner, hact, hans⟩ := hall n hmem
  -- the request's root is that of its generation, which is the current one
  have hroot : q.proof.root = rootOf cfg (s.content pid) := by
    rw [(hroots.issued q hq).2, hpid, hgen, hg, ← hroots.shown pid hobs]
  refine ⟨q, hq, hpid, hnonce, hview.trans hepoch, howner, hact, hroot ▸ hans, ?_⟩
  intro before now' fault' after hops hdel' hold
  have hlt := generation_lt_after_purge view rejoining content marker bootId hdel' hold hpid after
  rw [← hops, hgen, hg] at hlt
  exact absurd hlt (lt_irrefl _)

end

/-- Node 1 holds a record of partition 0, which node 2 owns alone. -/
def coldConfig : ColdConfig where
  xxh3 := fun b => UInt64.ofNat (b.foldl (fun h x => h * 31 + x.toNat + 1) 7)
  zoneSpread := false
  selfId := 1
  replicasN := 1
  delay := 900
  needRounds := 1

def coldRecord : Db := Db.putRaw ∅ [0, 0, 115, 97] [1]

def coldStart : ColdNode :=
  boot ⟨[⟨2, .active, none⟩], 5⟩ false (fun pid => if pid = 0 then coldRecord else ∅) (fun _ => none) (some [9])

/-- The partition is marked and offered, the owner is asked and answers, and the round is counted. -/
def coldRound : List ColdOp :=
  [.trackOwnershipLoss 0 100, .offer 0 2, .readGeneration 0, .scan 0 false, .checkGeneration 0, .issue 0,
    .response ⟨2, 0, [9] ++ Bytes.ofU64 1, rootOf coldConfig coldRecord⟩, .note 0]

theorem cold_purge_has_current_evidence_once : ∃ peer nonce,
    ⟨peer, 0, nonce, rootOf coldConfig ((coldStart.run coldConfig coldRound).content 0)⟩ ∈
      (coldStart.run coldConfig coldRound).answers := by
  have hdel : ((coldStart.run coldConfig coldRound).step coldConfig (.purge 0 1000 none)).content 0 ≠
      (coldStart.run coldConfig coldRound).content 0 := by
    intro h
    have hget := congrArg (fun db => Db.getRaw db [0, 0, 115, 97]) h
    revert hget
    decide +kernel
  unfold coldStart at hdel ⊢
  obtain ⟨-, -, -, nonces, -, hlen, hall⟩ := cold_purge_has_current_evidence coldConfig ⟨[⟨2, .active, none⟩], 5⟩ false
    (fun pid => if pid = 0 then coldRecord else ∅) (fun _ => none) (some [9]) coldRound 0 1000 none hdel
  have hpos : 1 ≤ nonces.length := hlen
  obtain ⟨n, hn⟩ : ∃ n, n ∈ nonces := exists_mem_of_length_pos hpos
  obtain ⟨q, -, -, -, -, -, -, hans, -⟩ := hall n hn
  exact ⟨q.proof.peer, n, hans⟩

end ColdNode

end Marekvs
