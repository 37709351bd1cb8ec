import Marekvs.Server.Pipeline
import Marekvs.Lemmas.ArgKeys

/-!
# Tasks beside each other

The contracts of the tasks in one batch. A task owns its arguments: the records of the keys among them, and the entries of the
table under them. The copy of the table is shared. Either nobody writes the table, and the copy goes, if anywhere, to what a
look-up of this table leaves there; or nobody looks a type up, and the copy goes, if anywhere, to nothing: this is `target`.
-/

namespace Marekvs

open List Function

open Machine (Fault)

open Proto (isHidden BindingRecord BindCache)

open Strand (Interleaved Contract)

/-! ## Contracts -/

section Contracts

variable (R : Bytes → Prop) (frozen : Prop) (target : Option BindCache)

/-- What happens to the registry beside a task that owns `own`. -/
structure Around (own : Bytes → Prop) (n n' : DataNode) : Prop where
  bindings : ∀ p, frozen ∨ own p → n'.bindings[p]? = n.bindings[p]?
  trace : n'.trace = n.trace ∨ ¬ frozen ∧ n'.trace = true
  cache : n'.cache = n.cache ∨ n'.cache = target
  writeStopped : n'.writeStopped = n.writeStopped
  compactionStopped : n'.compactionStopped = n.compactionStopped

/-- What happens to the keys beside a task that owns `own` and reads `R`. -/
def KeysKept (own : Bytes → Prop) (s s' : Bytes → ShardCtx) : Prop := ∀ k, own k ∨ R k → s' k = s k

/-- What a task that owns `own` may find: the keys as in `s`, and the registry as `n₀` and others leave it. -/
structure Found (own : Bytes → Prop) (s : Bytes → ShardCtx) (n₀ n : DataNode) : Prop where
  keys : KeysKept R own s n.keys
  around : Around frozen target own n₀ n

/-- What a task does that owns `own`. -/
structure Changes (own : Bytes → Prop) (binds settles : Prop) (n n' : DataNode) : Prop where
  keys : ∀ k, ¬ own k → n'.keys k = n.keys k
  bindings : ∀ p, frozen ∨ ¬ own p → n'.bindings[p]? = n.bindings[p]?
  trace : n'.trace = n.trace ∨ ¬ frozen ∧ binds ∧ n'.trace = true
  cache : n'.cache = n.cache ∨ settles ∧ n'.cache = target
  writeStopped : n'.writeStopped = n.writeStopped
  compactionStopped : n'.compactionStopped = n.compactionStopped

variable {R frozen target} {own own' : Bytes → Prop} {binds binds' settles settles' : Prop} {n n' n'' : DataNode}

theorem Around.refl (n : DataNode) : Around frozen target own n n := ⟨fun _ _ => rfl, .inl rfl, .inl rfl, rfl, rfl⟩

theorem Around.trans (h : Around frozen target own n n') (h' : Around frozen target own n' n'') :
    Around frozen target own n n'' := by
  refine ⟨fun p hp => (h'.bindings p hp).trans (h.bindings p hp), ?_, ?_, h'.writeStopped.trans h.writeStopped,
    h'.compactionStopped.trans h.compactionStopped⟩
  · rcases h'.trace with ht | ht
    · rw [ht]
      exact h.trace
    · exact .inr ht
  · rcases h'.cache with hc | hc
    · rw [hc]
      exact h.cache
    · exact .inr hc

theorem Found.rely (h : Found R frozen target own s n₀ n)
    (h' : KeysKept R own n.keys n'.keys ∧ Around frozen target own n n') : Found R frozen target own s n₀ n' :=
  ⟨fun k hk => (h'.1 k hk).trans (h.keys k hk), h.around.trans h'.2⟩

theorem Changes.refl (n : DataNode) : Changes frozen target own binds settles n n :=
  ⟨fun _ _ => rfl, fun _ _ => rfl, .inl rfl, .inl rfl, rfl, rfl⟩

theorem Changes.trans (h : Changes frozen target own binds settles n n') (h' : Changes frozen target own binds settles n' n'') :
    Changes frozen target own binds settles n n'' := by
  refine ⟨fun k hk => (h'.keys k hk).trans (h.keys k hk), fun p hp => (h'.bindings p hp).trans (h.bindings p hp), ?_, ?_,
    h'.writeStopped.trans h.writeStopped, h'.compactionStopped.trans h.compactionStopped⟩
  · rcases h'.trace with ht | ht
    · rw [ht]
      exact h.trace
    · exact .inr ht
  · rcases h'.cache with hc | hc
    · rw [hc]
      exact h.cache
    · exact .inr hc

theorem Changes.mono (h : Changes frozen target own binds settles n n') (hown : ∀ k, own k → own' k) (hbinds : binds → binds')
    (hsettles : settles → settles') : Changes frozen target own' binds' settles' n n' := by
  refine ⟨fun k hk => h.keys k fun ho => hk (hown k ho),
    fun p hp => h.bindings p (hp.imp_right fun hp ho => hp (hown p ho)), ?_, ?_,
    h.writeStopped, h.compactionStopped⟩
  · exact h.trace.imp_right fun ⟨hf, hb, ht⟩ => ⟨hf, hbinds hb, ht⟩
  · exact h.cache.imp_right fun ⟨hs, hc⟩ => ⟨hsettles hs, hc⟩

/-- Where nobody writes the table it stays the same. -/
theorem Around.table (hf : frozen) (h : Around frozen target own n n') : n'.bindings = n.bindings ∧ n'.trace = n.trace :=
  ⟨Std.ExtTreeMap.ext_getElem? fun {q} => h.bindings q (.inl hf), h.trace.resolve_right fun h => h.1 hf⟩

/-- What a task does that owns other arguments. -/
theorem Changes.around (h : Changes frozen target own binds settles n n') (hapart : ∀ k, own k → ¬ own' k) :
    Around frozen target own' n n' := by
  refine ⟨fun p hp => h.bindings p ?_, ?_, h.cache.imp_right And.right, h.writeStopped, h.compactionStopped⟩
  · exact hp.imp_right fun hp ho => hapart p ho hp
  · exact h.trace.imp_right fun ⟨hf, _, ht⟩ => ⟨hf, ht⟩

end Contracts

/-- What a task owns, and what it comes to. -/
structure Part where
  own : Bytes → Prop
  reply : Except Fault Reply
  keys : Bytes → ShardCtx
  bindings : Bytes → Option BindingRecord
  /-- the hash has records in the end -/
  binds : Prop
  /-- the copy is at the target in the end -/
  settles : Prop

namespace Part

variable (R : Bytes → Prop) (frozen : Prop) (target : Option BindCache)

def contract (p : Part) : Contract DataNode (Except Fault Reply) where
  rely n n' := KeysKept R p.own n.keys n'.keys ∧ Around frozen target p.own n n'
  guar n n' := Changes frozen target p.own p.binds p.settles n n'
  post r n := r = p.reply ∧ (∀ k, p.own k → n.keys k = p.keys k) ∧ (∀ q, p.own q → n.bindings[q]? = p.bindings q) ∧
    (p.binds → n.trace = true) ∧ (p.settles → n.cache = target)
  refl n := ⟨fun _ _ => rfl, Around.refl n⟩
  trans h h' := ⟨fun k hk => (h'.1 k hk).trans (h.1 k hk), h.2.trans h'.2⟩

variable {R frozen target}

theorem compatible {p q : Part} (hpq : ∀ k, p.own k → ¬ q.own k) (hp : ∀ k, p.own k → ¬ R k) (hq : ∀ k, q.own k → ¬ R k) :
    (p.contract R frozen target).Compatible (q.contract R frozen target) := by
  constructor
  · intro n n' h
    exact ⟨fun k hk => h.keys k fun ho => hk.elim (hpq k ho) (hp k ho), Changes.around h hpq⟩
  · intro n n' h
    exact ⟨fun k hk => h.keys k fun ho => hk.elim (fun hk => hpq k hk ho) (hq k ho),
      Changes.around h fun k hk hk' => hpq k hk' hk⟩

/-- Each part is brought about, and the replies are the ones promised. -/
theorem posts {ps : List Part} (h : List.Forall₂ (fun r c => c.post r n) rs (ps.map (contract R frozen target))) :
    rs = ps.map reply ∧ ∀ p ∈ ps, (p.contract R frozen target).post p.reply n := by
  induction ps generalizing rs with
  | nil =>
    cases h
    exact ⟨rfl, nofun⟩
  | cons p ps ih =>
    obtain ⟨r, rs, hpost, hrest, rfl⟩ := forall₂_cons_right_iff.mp h
    obtain ⟨hrs, hps⟩ := ih hrest
    have hr : r = p.reply := hpost.1
    subst hr
    refine ⟨by rw [hrs, map_cons], fun q hq => ?_⟩
    rcases mem_cons.mp hq with rfl | hq
    · exact hpost
    · exact hps q hq

/-- What several tasks do. -/
abbrev ChangesAll (frozen : Prop) (target : Option BindCache) (ps : List Part) : DataNode → DataNode → Prop :=
  Changes frozen target (fun k => ∃ p ∈ ps, p.own k) (∃ p ∈ ps, p.binds) (∃ p ∈ ps, p.settles)

/-- Whoever brings all parts about, and does nothing else, leaves the same node behind. -/
theorem node_unique (h₁ : ∀ p ∈ ps, (p.contract R frozen target).post p.reply n₁)
    (h₂ : ∀ p ∈ ps, (p.contract R frozen target).post p.reply n₂) (c₁ : ChangesAll frozen target ps n n₁)
    (c₂ : ChangesAll frozen target ps n n₂) : n₁ = n₂ := by
  have hkeys : n₁.keys = n₂.keys := by
    funext k
    by_cases hk : ∃ p ∈ ps, p.own k
    · obtain ⟨p, hp, hk⟩ := hk
      exact ((h₁ p hp).2.1 k hk).trans ((h₂ p hp).2.1 k hk).symm
    · exact (c₁.keys k hk).trans (c₂.keys k hk).symm
  have hbindings : n₁.bindings = n₂.bindings := by
    refine Std.ExtTreeMap.ext_getElem? fun {q} => ?_
    by_cases hq : ∃ p ∈ ps, p.own q
    · obtain ⟨p, hp, hq⟩ := hq
      exact ((h₁ p hp).2.2.1 q hq).trans ((h₂ p hp).2.2.1 q hq).symm
    · exact (c₁.bindings q (.inr hq)).trans (c₂.bindings q (.inr hq)).symm
  have htrace : n₁.trace = n₂.trace := by
    by_cases hb : ∃ p ∈ ps, p.binds
    · obtain ⟨p, hp, hb⟩ := hb
      exact ((h₁ p hp).2.2.2.1 hb).trans ((h₂ p hp).2.2.2.1 hb).symm
    · have ht₁ := c₁.trace.resolve_right fun h => hb h.2.1
      have ht₂ := c₂.trace.resolve_right fun h => hb h.2.1
      exact ht₁.trans ht₂.symm
  have hcache : n₁.cache = n₂.cache := by
    by_cases hs : ∃ p ∈ ps, p.settles
    · obtain ⟨p, hp, hs⟩ := hs
      exact ((h₁ p hp).2.2.2.2 hs).trans ((h₂ p hp).2.2.2.2 hs).symm
    · have hc₁ := c₁.cache.resolve_right fun h => hs h.1
      have hc₂ := c₂.cache.resolve_right fun h => hs h.1
      exact hc₁.trans hc₂.symm
  have hwrite := c₁.writeStopped.trans c₂.writeStopped.symm
  have hcompaction := c₁.compactionStopped.trans c₂.compactionStopped.symm
  cases n₁
  cases n₂
  cases hkeys
  cases hbindings
  cases htrace
  cases hcache
  cases hwrite
  cases hcompaction
  rfl

/-- Tasks that meet their contracts come to the same replies and to the same node in every order. -/
theorem unique {xs : List (Task × Part)} (hmeets : ∀ x ∈ xs, (x.2.contract R frozen target).Meets x.1 n)
    (hR : ∀ x ∈ xs, ∀ k, x.2.own k → ¬ R k) (hapart : (xs.map Prod.snd).Pairwise fun p q => ∀ k, p.own k → ¬ q.own k)
    {n₁ n₂ : DataNode} (h₁ : Interleaved (xs.map Prod.fst) n rs n₁)
    (h₂ : Interleaved (xs.map Prod.fst) n rs' n₂) : rs = rs' ∧ n₁ = n₂ := by
  have hall {rs : List (Except Fault Reply)} {m : DataNode} (h : Interleaved (xs.map Prod.fst) n rs m) :=
    h.posts (K := ChangesAll frozen target (xs.map Prod.snd)) Changes.refl Changes.trans
      (xs.map fun x => (x.1, x.2.contract R frozen target)) (by rw [map_map]; rfl) (by
        intro x hx
        obtain ⟨y, hy, rfl⟩ := mem_map.mp hx
        exact hmeets y hy) (by
        rw [map_map]
        refine pairwise_map.mpr ((pairwise_map.mp hapart).imp_of_mem fun {x y} hx hy hxy => ?_)
        exact compatible hxy (hR x hx) (hR y hy)) (by
        intro x hx s s' hguar
        obtain ⟨y, hy, rfl⟩ := mem_map.mp hx
        have hmem := mem_map_of_mem (f := Prod.snd) hy
        exact Changes.mono hguar (fun k hk => ⟨y.2, hmem, hk⟩) (fun hb => ⟨y.2, hmem, hb⟩) fun hs => ⟨y.2, hmem, hs⟩)
  obtain ⟨p₁, c₁⟩ := hall h₁
  obtain ⟨p₂, c₂⟩ := hall h₂
  have hmap : (xs.map fun x => (x.1, x.2.contract R frozen target)).map Prod.snd =
      (xs.map Prod.snd).map (contract R frozen target) := by
    rw [map_map, map_map]
    rfl
  rw [hmap] at p₁ p₂
  obtain ⟨hrs, hp₁⟩ := posts p₁
  obtain ⟨hrs', hp₂⟩ := posts p₂
  exact ⟨hrs.trans hrs'.symm, node_unique hp₁ hp₂ c₁ c₂⟩

end Part

/-! ## Parts of tasks -/

namespace Task

variable {R : Bytes → Prop} {frozen : Prop} {target : Option BindCache} {α : Type}

/-- The jobs of a routine see the keys of the task as if nothing were beside them. -/
theorem meets_jobs {p : Part} (ht : t.Uses p.own R) {next : α → Task} :
    ∀ {n : DataNode} {s : Bytes → ShardCtx}, KeysKept R p.own s n.keys →
      (∀ n', KeysKept R p.own (t.run s).2 n'.keys → Around frozen target p.own n n' →
        (p.contract R frozen target).Meets (next (t.run s).1) n') →
      (p.contract R frozen target).Meets (jobs t next) n := by
  induction t with
  | done a =>
    intro n s hs hnext
    exact hnext n hs (Around.refl n)
  | fetch key t ih =>
    intro n s hs hnext
    exact ih ht hs hnext
  | job key write t ih =>
    intro n s hs hnext n₁ hrely
    obtain ⟨hkeys, haround⟩ := hrely
    have hs₁ : KeysKept R p.own s n₁.keys := fun k hk => (hkeys k hk).trans (hs k hk)
    have hkey : n₁.keys key = s key := hs₁ key (ht.1.imp_right And.left)
    constructor
    · refine ⟨fun k hk => ?_, fun _ _ => rfl, .inl rfl, .inl rfl, rfl, rfl⟩
      change update n₁.keys key (write (n₁.keys key)) k = n₁.keys k
      by_cases hkk : k = key
      · subst hkk
        rw [update_self]
        exact (ht.1.resolve_left hk).2 _
      · exact update_of_ne hkk _ _
    · dsimp only
      rw [hkey]
      have hrun : KeysKept R p.own (update s key (write (s key))) (n₁.runKey key write).keys := by
        intro k hk
        change update n₁.keys key (write (n₁.keys key)) k = update s key (write (s key)) k
        by_cases hkk : k = key
        · subst hkk
          rw [update_self, update_self, hkey]
        · rw [update_of_ne hkk, update_of_ne hkk]
          exact hs₁ k hk
      refine ih (s key) (ht.2 (s key)) hrun fun n' hk' haround' => hnext n' hk' (haround.trans ?_)
      -- the job leaves the registry as it is
      exact ⟨haround'.bindings, haround'.trace, haround'.cache, haround'.writeStopped, haround'.compactionStopped⟩

/-- Beside others, the task comes to what it comes to alone on the keys `s` and the registry of `n₀`. -/
def Comes (R : Bytes → Prop) (frozen : Prop) (target : Option BindCache) (own : Bytes → Prop) (n₀ : DataNode)
    (s : Bytes → ShardCtx) (t : Task) : Prop :=
  ∃ p : Part, p.own = own ∧ ∀ n, Found R frozen target own s n₀ n → (p.contract R frozen target).Meets t n

variable {own : Bytes → Prop} {n₀ : DataNode} {s : Bytes → ShardCtx}

theorem comes_done (r : Except Machine.Fault Reply) : Comes R frozen target own n₀ s (.done r) := by
  refine ⟨⟨own, r, s, fun q => n₀.bindings[q]?, False, False⟩, rfl, fun n hn n' hrely => ?_⟩
  have hn' := hn.rely hrely
  exact ⟨rfl, fun k hk => hn'.keys k (.inl hk), fun q hq => hn'.around.bindings q (.inr hq), False.elim, False.elim⟩

theorem comes_jobs (ht : t.Uses own R) {next : α → Task}
    (h : Comes R frozen target own n₀ (t.run s).2 (next (t.run s).1)) : Comes R frozen target own n₀ s (jobs t next) := by
  obtain ⟨p, rfl, hp⟩ := h
  exact ⟨p, rfl, fun n hn => meets_jobs ht hn.keys fun n' hs' haround' => hp n' ⟨hs', hn.around.trans haround'⟩⟩

theorem comes_handle {t : Handler} (ht : t.Uses own R) : Comes R frozen target own n₀ s (handle t) := comes_jobs ht (comes_done _)

theorem comes_find (ht : t.Uses own R) {next : α → Task}
    (h : ∀ a s, Comes R frozen target own n₀ s (next a)) : Comes R frozen target own n₀ s (find t next) := by
  refine comes_jobs ht ?_
  split
  · exact h _ _
  · exact comes_done _

/-- An access that changes nothing, and sees the same whatever the others do. -/
theorem comes_read {next : DataNode → Task} (hsame : ∀ n, Around frozen target own n₀ n → next n = next n₀)
    (h : Comes R frozen target own n₀ s (next n₀)) : Comes R frozen target own n₀ s (.act id next) := by
  obtain ⟨p, rfl, hp⟩ := h
  refine ⟨p, rfl, fun n hn n' hrely => ⟨Changes.refl n', ?_⟩⟩
  have hn' := hn.rely hrely
  rw [hsame n' hn'.around]
  exact hp n' hn'

/-! ## Looking up -/

/-- Once the copy is at the target it stays there. -/
theorem meets_settles {p : Part} {t : Task} : ∀ {n : DataNode}, n.cache = target → (p.contract R frozen target).Meets t n →
    (Part.contract R frozen target { p with settles := True }).Meets t n := by
  have hkept {n n' : DataNode} (hn : n.cache = target) (h : Around frozen target p.own n n') : n'.cache = target :=
    h.cache.elim (fun hc => hc.trans hn) id
  induction t with
  | done r =>
    intro n hn h n' hrely
    obtain ⟨hr, hkeys, hbindings, hbinds, -⟩ := h n' hrely
    exact ⟨hr, hkeys, hbindings, hbinds, fun _ => hkept hn hrely.2⟩
  | act run next ih =>
    intro n hn h n' hrely
    obtain ⟨hguar, hnext⟩ := h n' hrely
    refine ⟨Changes.mono hguar (fun _ hk => hk) id fun _ => trivial, ih n' ?_ hnext⟩
    rcases Changes.cache hguar with hc | hc
    · exact hc.trans (hkept hn hrely.2)
    · exact hc.2

variable {P D M : Type} {sys : Proto.Services P D M} {now : UInt64}

/-- What a look-up that reads the table finds, and the copy it leaves. -/
def refreshed (now : UInt64) (n : DataNode) : List (Bytes × BindingRecord) × Option BindCache :=
  let stored := (n.entries, some ⟨now, n.entries⟩)
  if n.entries = [] ∧ n.trace = false then
    match n.cache with
    | some c => if c.entries ≠ [] then (c.entries, n.cache) else stored
    | none => stored
  else stored

/-- What a look-up finds, and the copy it leaves. -/
def lookedUp (sys : Proto.Services P D M) (now : UInt64) (n : DataNode) : List (Bytes × BindingRecord) × Option BindCache :=
  match n.cache with
  | some c => if isFresh sys now c then (c.entries, n.cache) else refreshed now n
  | none => refreshed now n

/-- Another look-up of the same table in between makes no difference to one that reads the table. -/
theorem refreshed_eq (hb : n'.bindings = n.bindings) (ht : n'.trace = n.trace)
    (hc : n'.cache = n.cache ∨ n'.cache = (refreshed now n).2) : refreshed now n' = refreshed now n := by
  have hentries : n'.entries = n.entries := by rw [DataNode.entries, DataNode.entries, hb]
  rcases hc with hc | hc
  · rw [refreshed, refreshed, hentries, ht, hc]
  by_cases hempty : n.entries = [] ∧ n.trace = false
  · cases hcache : n.cache with
    | none =>
      simp only [refreshed, hcache, if_pos hempty] at hc ⊢
      simp [hentries, ht, hc, hempty]
    | some c =>
      by_cases hne : c.entries ≠ []
      · simp only [refreshed, hcache, if_pos hempty, if_pos hne] at hc ⊢
        simp [hentries, ht, hc, hempty, hne]
      · simp only [refreshed, hcache, if_pos hempty, if_neg hne] at hc ⊢
        simp [hentries, ht, hc, hempty]
  · simp only [refreshed, hentries, ht, if_neg hempty]

/-- What is found is what the copy holds afterwards. -/
theorem refreshed_fst (h : (refreshed now n).2 = some c) : refreshed now n = (c.entries, some c) := by
  unfold refreshed at h ⊢
  dsimp only at h ⊢
  split at h
  · split at h
    · rename_i hempty c' hcache
      split at h
      · obtain rfl := Option.some.inj (hcache.symm.trans h)
        simp_all
      · obtain rfl := Option.some.inj h
        simp_all
    · obtain rfl := Option.some.inj h
      simp_all
  · rename_i hempty
    obtain rfl := Option.some.inj h
    rw [if_neg hempty]

/-- Another look-up of the same table in between makes no difference. -/
theorem lookedUp_eq (hb : n'.bindings = n.bindings) (ht : n'.trace = n.trace)
    (hc : n'.cache = n.cache ∨ n'.cache = (lookedUp sys now n).2) : lookedUp sys now n' = lookedUp sys now n := by
  have hsame (hc : n'.cache = n.cache) : lookedUp sys now n' = lookedUp sys now n := by
    rw [lookedUp, lookedUp, hc, refreshed_eq hb ht (.inl hc)]
  rcases hc with hc | hc
  · exact hsame hc
  by_cases hfresh : ∃ c, n.cache = some c ∧ isFresh sys now c = true
  · obtain ⟨c, hcache, hfresh⟩ := hfresh
    refine hsame (hc.trans ?_)
    simp only [lookedUp, hcache, if_pos hfresh]
  · have hread : lookedUp sys now n = refreshed now n := by
      unfold lookedUp
      split
      · rename_i c hcache
        exact if_neg fun h => hfresh ⟨c, hcache, h⟩
      · rfl
    rw [hread] at hc ⊢
    have hrefreshed := refreshed_eq hb ht (.inr hc)
    unfold lookedUp
    split
    · rename_i c hcache
      split
      · rw [hcache] at hc ⊢
        exact (refreshed_fst hc.symm).symm
      · exact hrefreshed
    · exact hrefreshed

section LookUp

variable {p : Part} {next : List (Bytes × BindingRecord) → Task}

theorem meets_storeCache (htarget : target = some ⟨now, entries⟩)
    (hnext : ∀ n, Found R frozen target p.own s n₀ n → (p.contract R frozen target).Meets (next entries) n)
    (hn : Found R frozen target p.own s n₀ n) :
    (Part.contract R frozen target { p with settles := True }).Meets (storeCache now entries next) n := by
  intro n₁ hrely
  obtain ⟨hkeys, haround⟩ := hn.rely hrely
  refine ⟨⟨fun _ _ => rfl, fun _ _ => rfl, .inl rfl, .inr ⟨trivial, htarget.symm⟩, rfl, rfl⟩,
    meets_settles htarget.symm (hnext _ ⟨hkeys, ?_⟩)⟩
  exact ⟨haround.bindings, haround.trace, .inr htarget.symm, haround.writeStopped, haround.compactionStopped⟩

/-- Reading the table leads to the target, whatever other look-ups do in between. -/
theorem meets_refreshBindings (hf : frozen) (hans : refreshed now n₁ = (ans, target))
    (hnext : ∀ n, Found R frozen target p.own s n₀ n → (p.contract R frozen target).Meets (next ans) n)
    (hn : Found R frozen target p.own s n₀ n) (hlater : Around frozen target p.own n₁ n) :
    (Part.contract R frozen target { p with settles := True }).Meets (refreshBindings now next) n := by
  have hread {n : DataNode} (h : Around frozen target p.own n₁ n) : refreshed now n = (ans, target) := by
    obtain ⟨hb, ht⟩ := h.table hf
    rw [← hans]
    exact refreshed_eq hb ht (h.cache.imp_right fun hc => by rw [hc, hans])
  intro n₂ hrely
  have hn₂ := hn.rely hrely
  have hread₂ := hread (hlater.trans hrely.2)
  refine ⟨Changes.refl n₂, ?_⟩
  dsimp only
  split
  · rename_i hempty
    intro n₃ hrely₃
    have hn₃ := hn₂.rely hrely₃
    have hread₃ := hread ((hlater.trans hrely.2).trans hrely₃.2)
    obtain ⟨(hb : n₃.bindings = n₂.bindings), (ht : n₃.trace = n₂.trace)⟩ := Around.table hf hrely₃.2
    have hentries : n₃.entries = n₂.entries := by rw [DataNode.entries, DataNode.entries, hb]
    rw [refreshed, hentries, ht, if_pos hempty] at hread₃
    refine ⟨Changes.refl n₃, ?_⟩
    dsimp only
    split
    · rename_i c hcache
      rw [hcache] at hread₃
      split
      · rename_i hne
        dsimp only at hread₃
        rw [if_pos hne] at hread₃
        obtain ⟨hfound, hleft⟩ := Prod.mk.inj hread₃
        rw [hfound]
        exact meets_settles (hcache.trans hleft) (hnext _ hn₃)
      · rename_i hne
        dsimp only at hread₃
        rw [if_neg hne] at hread₃
        obtain ⟨hfound, hleft⟩ := Prod.mk.inj hread₃
        refine meets_storeCache hleft.symm ?_ hn₃
        rw [hfound]
        exact hnext
    · rename_i hcache
      rw [hcache] at hread₃
      obtain ⟨hfound, hleft⟩ := Prod.mk.inj hread₃
      refine meets_storeCache hleft.symm ?_ hn₃
      rw [hfound]
      exact hnext
  · rename_i hempty
    rw [refreshed, if_neg hempty] at hread₂
    obtain ⟨hfound, hleft⟩ := Prod.mk.inj hread₂
    refine meets_storeCache hleft.symm ?_ hn₂
    rw [hfound]
    exact hnext

end LookUp

/-- A look-up finds the same beside others, as long as nobody writes the table. -/
theorem comes_bindings (hf : frozen) (htarget : target = (lookedUp sys now n₀).2)
    {next : List (Bytes × BindingRecord) → Task} (h : Comes R frozen target own n₀ s (next (lookedUp sys now n₀).1)) :
    Comes R frozen target own n₀ s (bindings sys now next) := by
  obtain ⟨p, rfl, hp⟩ := h
  refine ⟨{ p with settles := True }, rfl, fun n hn n₁ hrely => ⟨Changes.refl n₁, ?_⟩⟩
  have hn₁ := hn.rely hrely
  obtain ⟨hb, ht⟩ := hn₁.around.table hf
  have hfound : lookedUp sys now n₁ = ((lookedUp sys now n₀).1, target) := by
    rw [lookedUp_eq hb ht (htarget ▸ hn₁.around.cache), htarget]
  dsimp only
  split
  · rename_i c hcache
    rw [lookedUp, hcache] at hfound
    split
    · rename_i hfresh
      dsimp only at hfound
      rw [if_pos hfresh] at hfound
      obtain ⟨hfound, hleft⟩ := Prod.mk.inj hfound
      rw [hfound]
      exact meets_settles (hcache.trans hleft) (hp _ hn₁)
    · rename_i hfresh
      dsimp only at hfound
      rw [if_neg hfresh] at hfound
      exact meets_refreshBindings hf hfound hp hn₁ (Around.refl n₁)
  · rename_i hcache
    rw [lookedUp, hcache] at hfound
    exact meets_refreshBindings hf hfound hp hn₁ (Around.refl n₁)

/-! ## Binding -/

/-- The end of BIND and UNBIND: the copy is dropped. -/
theorem meets_invalidate {p : Part} (hr : p.reply = r) (hsettles : p.settles) (hkeys : ∀ k, p.own k → n.keys k = p.keys k)
    (hbindings : ∀ q, p.own q → n.bindings[q]? = p.bindings q) (hbinds : p.binds → n.trace = true) :
    (p.contract R False none).Meets (.act (·.invalidateBindings) fun _ => .done r) n := by
  intro n₁ ⟨hkeys₁, haround₁⟩
  refine ⟨⟨fun _ _ => rfl, fun _ _ => rfl, .inl rfl, .inr ⟨hsettles, rfl⟩, rfl, rfl⟩, fun n₂ ⟨hkeys₂, haround₂⟩ => ?_⟩
  refine ⟨hr.symm, fun k hk => ?_, fun q hq => ?_, fun hb => ?_, fun _ => ?_⟩
  · exact ((hkeys₂ k (.inl hk)).trans (hkeys₁ k (.inl hk))).trans (hkeys k hk)
  · exact ((haround₂.bindings q (.inr hq)).trans (haround₁.bindings q (.inr hq))).trans (hbindings q hq)
  · have ht₁ : n₁.trace = true := haround₁.trace.elim (fun h => h.trans (hbinds hb)) And.right
    exact haround₂.trace.elim (fun h => h.trans ht₁) And.right
  · exact haround₂.cache.elim id id

/-- BIND writes the entry under its own prefix, and drops the copy. -/
theorem comes_bind {pre : Bytes} (hpre : own pre) (b : Proto.BindingRecord) (r : Except Machine.Fault Reply) :
    Comes R False none own n₀ s (.act (·.bind pre b) fun _ => .act (·.invalidateBindings) fun _ => .done r) := by
  refine ⟨⟨own, r, s, fun q => (n₀.bindings.insert pre b)[q]?, True, True⟩, rfl, fun n hn n₁ hrely => ⟨?_, ?_⟩⟩
  · refine ⟨fun _ _ => rfl, fun q hq => ?_, .inr ⟨id, trivial, rfl⟩, .inl rfl, rfl, rfl⟩
    have hne : ¬ pre = q := fun h => hq.elim id fun hq => hq (h ▸ hpre)
    change (n₁.bindings.insert pre b)[q]? = n₁.bindings[q]?
    rw [Std.ExtTreeMap.getElem?_insert, if_neg (by simpa using hne)]
  · obtain ⟨hkeys, haround₁⟩ := hn.rely hrely
    refine meets_invalidate rfl trivial (fun k hk => hkeys k (.inl hk)) (fun q hq => ?_) fun _ => rfl
    change (n₁.bindings.insert pre b)[q]? = (n₀.bindings.insert pre b)[q]?
    rw [Std.ExtTreeMap.getElem?_insert, Std.ExtTreeMap.getElem?_insert, haround₁.bindings q (.inr hq)]

/-- UNBIND removes the entry under its own prefix, says whether there was one, and drops the copy. -/
theorem comes_unbind {pre : Bytes} (hpre : own pre) (r : Bool → Except Fault Reply) :
    Comes R False none own n₀ s (.act (·.unbind pre) fun n => .act (·.invalidateBindings) fun _ =>
      .done (r (n.bindings.contains pre))) := by
  refine ⟨⟨own, r (n₀.bindings.contains pre), s, fun q => (n₀.bindings.erase pre)[q]?,
    n₀.bindings.contains pre = true, True⟩, rfl,
    fun n hn n₁ hrely => ?_⟩
  obtain ⟨hkeys, haround₁⟩ := hn.rely hrely
  have hcontains : n₁.bindings.contains pre = n₀.bindings.contains pre := by
    rw [Std.ExtTreeMap.contains_eq_isSome_getElem?, Std.ExtTreeMap.contains_eq_isSome_getElem?, haround₁.bindings pre (.inr hpre)]
  constructor
  · refine ⟨fun _ _ => rfl, fun q hq => ?_, ?_, .inl rfl, rfl, rfl⟩
    · have hne : ¬ pre = q := fun h => hq.elim id fun hq => hq (h ▸ hpre)
      change (n₁.bindings.erase pre)[q]? = n₁.bindings[q]?
      rw [Std.ExtTreeMap.getElem?_erase, if_neg (by simpa using hne)]
    · change (n₁.trace || n₁.bindings.contains pre) = n₁.trace ∨ _
      cases hb : n₀.bindings.contains pre with
      | false =>
        rw [hcontains, hb, Bool.or_false]
        exact .inl rfl
      | true =>
        refine .inr ⟨id, rfl, ?_⟩
        change (n₁.trace || n₁.bindings.contains pre) = true
        rw [hcontains, hb, Bool.or_true]
  · refine meets_invalidate (congrArg r hcontains.symm) trivial (fun k hk => hkeys k (.inl hk))
      (fun q hq => ?_) fun hb => ?_
    · change (n₁.bindings.erase pre)[q]? = (n₀.bindings.erase pre)[q]?
      rw [Std.ExtTreeMap.getElem?_erase, Std.ExtTreeMap.getElem?_erase, haround₁.bindings q (.inr hq)]
    · change (n₁.trace || n₁.bindings.contains pre) = true
      rw [hcontains, hb, Bool.or_true]

end Task

end Marekvs
