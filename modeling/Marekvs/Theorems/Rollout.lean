import Marekvs.Operator.Rollout
import Marekvs.Lib.Run

/-!
# Rollouts that look before they leap

Whether a pod is replaced only after a pass found the cluster healthy, with the steps of the operator, of the StatefulSet's
controller and of the pods in any order. A run keeps count of it: `gate` is set by a pass that found all pods ready and no
partition under-replicated, and cleared by a replacement and by a new template.
-/

namespace Marekvs

open List Option Function RolloutCluster

/-- A cluster, whether a pass has found it healthy since the last replacement and template change, and whether the pass that is
running observed it since the last replacement. -/
structure GatedCluster where
  cluster : RolloutCluster
  gate : Bool
  fresh : Bool
  deriving DecidableEq, Repr

namespace GatedCluster

def step (s : GatedCluster) (act : RolloutAct) : GatedCluster :=
  let cluster := s.cluster.step act
  match act with
  | .observe _ => ⟨cluster, s.gate, if s.cluster.pass.isSome then s.fresh else true⟩
  | .publish =>
    match s.cluster.pass with
    | none => s
    | some p => ⟨cluster, p.template = s.cluster.template && (s.gate || s.fresh && p.observed.healthy), s.fresh⟩
  | .replace => if s.cluster.victim.isSome then ⟨cluster, false, false⟩ else s
  | _ => ⟨cluster, s.gate, s.fresh⟩

/-- The state before the `i`-th step of a run. -/
def before (s : GatedCluster) (acts : List RolloutAct) (i : Nat) : GatedCluster := (acts.take i).foldl step s

/-- Every pod that is replaced is replaced after a pass that found the cluster healthy. -/
def Gated (s : GatedCluster) (acts : List RolloutAct) : Prop :=
  ∀ i, acts[i]? = some .replace → (s.before acts i).cluster.victim.isSome → (s.before acts i).gate = true

/-- All pods from an ordinal on have the StatefulSet's template. -/
def Released (s : GatedCluster) (p : Int) : Prop :=
  ∀ (i : Nat) (pod : Pod), s.cluster.pods[i]? = some pod → p ≤ i → pod.revision = s.cluster.template

/-- What keeps replacements behind the gate: no pod is replaced before a pass has put a partition into the operator's status; a
changed template is published only while there is none; and a pass that finds the cluster healthy during a rollout begins when
every released pod has been replaced. -/
structure Paced (s : GatedCluster) (act : RolloutAct) : Prop where
  frozen : act = .replace → s.cluster.rolloutPartition ≠ none
  change : act = .publish → ∀ pass, s.cluster.pass = some pass → pass.template ≠ s.cluster.template →
    s.cluster.rolloutPartition = none
  caughtUp : ∀ under p, act = .observe under → s.cluster.rolloutPartition = some p →
    (s.cluster.observed under).healthy = true → s.Released p

/-! ## The invariant -/

/-- In a rollout, all released pods are replaced, or all but the lowest and the gate is open; and a running pass that found the
cluster healthy found all of them replaced, and nothing was replaced since. -/
structure Walk (s : GatedCluster) : Prop where
  range : ∀ p, s.cluster.rolloutPartition = some p → s.cluster.partition = p ∧ 0 ≤ p ∧ p ≤ s.cluster.pods.length
  released : ∀ p, s.cluster.rolloutPartition = some p → s.Released p ∨ s.Released (p + 1) ∧ s.gate = true
  passSize : ∀ pass, s.cluster.pass = some pass → pass.observed.replicas = s.cluster.pods.length
  passPartition : ∀ pass, s.cluster.pass = some pass → pass.observed.partition = s.cluster.rolloutPartition
  passFresh : ∀ pass p, s.cluster.pass = some pass → s.cluster.rolloutPartition = some p → pass.observed.healthy = true →
    s.Released p ∧ s.fresh = true

variable {s : GatedCluster} {act : RolloutAct}

theorem Released.congr {s' : GatedCluster} (h : s.Released p) (ht : s'.cluster.template = s.cluster.template)
    (hpods : s'.cluster.pods.map Pod.revision = s.cluster.pods.map Pod.revision) : s'.Released p := by
  intro i pod hi hle
  have hrev : (s'.cluster.pods.map Pod.revision)[i]? = some pod.revision := by rw [getElem?_map, hi, map_some]
  rw [hpods, getElem?_map, map_eq_some_iff] at hrev
  obtain ⟨old, hold, heq⟩ := hrev
  rw [← heq, ht]
  exact h i old hold hle

/-- Beyond the last pod nothing is left to replace. -/
theorem released_length : s.Released s.cluster.pods.length := by
  intro i pod hi hle
  have := (List.getElem?_eq_some_iff.1 hi).1
  omega

/-- A pod that may be replaced is released and has another revision. -/
theorem victim_spec {c : RolloutCluster} (h : c.victim = some i) :
    c.partition ≤ i ∧ ∃ pod, c.pods[i]? = some pod ∧ pod.revision ≠ c.template := by
  rw [victim] at h
  split at h
  · have hmem := mem_of_getLast? h
    obtain ⟨-, hcond⟩ := mem_filter.1 hmem
    rw [decide_eq_true_eq] at hcond
    obtain ⟨hle, hany⟩ := hcond
    refine ⟨hle, ?_⟩
    cases hpod : c.pods[i]? with
    | none => rw [hpod] at hany; cases hany
    | some pod =>
      rw [hpod, any_some, decide_eq_true_eq] at hany
      exact ⟨pod, rfl, hany⟩
  · cases h

/-- During a rollout only the pod at the partition can be replaced, and the gate is open then. -/
theorem Walk.victim_eq (hw : s.Walk) {i : Nat} (hp : s.cluster.rolloutPartition = some p)
    (hv : s.cluster.victim = some i) : (i : Int) = p ∧ s.Released (p + 1) ∧ s.gate = true ∧ ¬ s.Released p := by
  obtain ⟨hle, pod, hpod, hne⟩ := victim_spec hv
  rw [(hw.range p hp).1] at hle
  have hnot : ¬ s.Released p := fun hr => hne (hr i pod hpod hle)
  obtain ⟨hr, hg⟩ := (hw.released p hp).resolve_left hnot
  refine ⟨?_, hr, hg, hnot⟩
  by_contra hip
  exact hne (hr i pod hpod (by omega))

/-- What does not concern the operator keeps the walk. -/
theorem Walk.congr (hw : s.Walk) (ht : c.template = s.cluster.template)
    (hpods : c.pods.map Pod.revision = s.cluster.pods.map Pod.revision) (hpart : c.partition = s.cluster.partition)
    (hroll : c.rolloutPartition = s.cluster.rolloutPartition) (hpass : c.pass = s.cluster.pass) : Walk ⟨c, s.gate, s.fresh⟩ := by
  have hlen : c.pods.length = s.cluster.pods.length := by simpa using congrArg List.length hpods
  have hrel : ∀ p, s.Released p → Released ⟨c, s.gate, s.fresh⟩ p := fun p hr => hr.congr ht hpods
  refine ⟨?_, ?_, ?_, ?_, ?_⟩
  · intro p hp
    dsimp only at hp ⊢
    rw [hpart, hlen]
    exact hw.range p (hroll ▸ hp)
  · intro p hp
    exact (hw.released p (hroll ▸ hp)).imp (hrel p) fun hr => ⟨hrel _ hr.1, hr.2⟩
  · intro pass hp
    dsimp only at hp ⊢
    rw [hlen]
    exact hw.passSize pass (hpass ▸ hp)
  · intro pass hp
    dsimp only at hp ⊢
    rw [hroll]
    exact hw.passPartition pass (hpass ▸ hp)
  · intro pass p hp hr hh
    obtain ⟨hrl, hf⟩ := hw.passFresh pass p (hpass ▸ hp) (hroll ▸ hr) hh
    exact ⟨hrel p hrl, hf⟩

theorem Walk.observe (hw : s.Walk) (under : Option Int) (hok : s.Paced (.observe under)) : (s.step (.observe under)).Walk := by
  rw [step, RolloutCluster.step]
  by_cases hp : s.cluster.pass.isSome
  · rw [if_pos hp, if_pos hp]
    exact hw
  rw [if_neg hp, if_neg hp]
  refine ⟨hw.range, hw.released, ?_, ?_, ?_⟩
  · rintro pass ⟨⟩
    rfl
  · rintro pass ⟨⟩
    rfl
  · rintro pass p ⟨⟩ hr hh
    exact ⟨hok.caughtUp under p rfl hr hh, rfl⟩

/-- What a pass decides in a rollout: to end it, to stay, or to go one down if it found the cluster healthy. -/
theorem rolloutStep_of_some (hp : o.partition = some p) (h0 : 0 ≤ p) (hle : p ≤ o.replicas) :
    (rolloutStep o).rolloutPartition = none ∨ rolloutStep o = .blocked p ∨
      rolloutStep o = .advance (p - 1) ∧ 0 < p ∧ o.healthy = true := by
  have hcur : o.current = p := by
    rw [RolloutObserved.current, hp, getD_some]
    omega
  rw [rolloutStep, hcur, hp]
  simp only [isNone_some, Bool.false_eq_true, false_and, if_false]
  split
  · exact .inl rfl
  split
  · exact .inl rfl
  split
  · exact .inr (.inl rfl)
  rename_i hh
  rw [Bool.not_eq_true', Bool.not_eq_false] at hh
  split
  · rename_i hz
    rw [hz]
    exact .inr (.inl rfl)
  · exact .inr (.inr ⟨rfl, by omega, hh⟩)

/-- What a pass decides where no rollout was seen: nothing, or to hold all pods back. -/
theorem rolloutStep_of_none (hp : o.partition = none) (hsize : 0 ≤ o.replicas) :
    (rolloutStep o).rolloutPartition = none ∨ rolloutStep o = .blocked o.replicas := by
  have hcur : o.current = o.replicas := by
    rw [RolloutObserved.current, hp, getD_none]
    omega
  rw [rolloutStep, hcur, hp]
  simp only [isNone_none, true_and]
  split
  · exact .inl rfl
  split
  · exact .inl rfl
  split
  · exact .inr rfl
  · have hz : o.replicas = 0 := by omega
    rw [hz, if_pos rfl, ite_self]
    exact .inr rfl

theorem Walk.publish (hw : s.Walk) (hok : s.Paced .publish) : (s.step .publish).Walk := by
  rw [step, RolloutCluster.step]
  cases hpass : s.cluster.pass with
  | none => exact hw
  | some pass =>
    dsimp only
    have hsize := hw.passSize pass hpass
    have hpart := hw.passPartition pass hpass
    generalize hgate : (decide (pass.template = s.cluster.template) && (s.gate || s.fresh && pass.observed.healthy)) = gate
    -- a state without a pass has only its partition to speak of
    have hmk : ∀ p : Int, 0 ≤ p → p ≤ s.cluster.pods.length → ∀ rollout : Rollout,
        rollout.rolloutPartition = some p → rollout.partition = p →
        (∀ t : GatedCluster, t.cluster.pods = s.cluster.pods → t.cluster.template = pass.template → t.gate = gate →
          t.Released p ∨ t.Released (p + 1) ∧ t.gate = true) →
        Walk ⟨{ s.cluster with template := pass.template, partition := max 0 (min rollout.partition s.cluster.pods.length),
                               rolloutPartition := rollout.rolloutPartition, pass := none }, gate, s.fresh⟩ := by
      intro p h0 hle rollout hroll hp hrel
      refine ⟨?_, ?_, nofun, nofun, nofun⟩
      · intro q hq
        dsimp only at hq ⊢
        rw [hroll, some.injEq] at hq
        subst hq
        rw [hp]
        omega
      · intro q hq
        dsimp only at hq
        rw [hroll, some.injEq] at hq
        subst hq
        exact hrel _ rfl rfl rfl
    have hnone : ∀ rollout : Rollout, rollout.rolloutPartition = none →
        Walk ⟨{ s.cluster with template := pass.template, partition := max 0 (min rollout.partition s.cluster.pods.length),
                               rolloutPartition := rollout.rolloutPartition, pass := none }, gate, s.fresh⟩ := by
      intro rollout hroll
      exact ⟨fun _ hp => absurd (hroll.symm.trans hp) nofun, fun _ hp => absurd (hroll.symm.trans hp) nofun, nofun, nofun, nofun⟩
    cases hroll : s.cluster.rolloutPartition with
    | none =>
      rw [hroll] at hpart
      rcases rolloutStep_of_none hpart (by rw [hsize]; exact Int.natCast_nonneg _) with h | h
      · exact hnone _ h
      refine hmk s.cluster.pods.length (Int.natCast_nonneg _) (Int.le_refl _) _ (by rw [h, hsize]; rfl) (by rw [h, hsize]; rfl) ?_
      intro t hpods _ _
      rw [← hpods]
      exact .inl t.released_length
    | some p =>
      rw [hroll] at hpart
      obtain ⟨-, h0, hle⟩ := hw.range p hroll
      have htmpl : pass.template = s.cluster.template := by
        by_contra hne
        cases ((hok.change rfl pass hpass hne).symm.trans hroll)
      have hrel : ∀ t : GatedCluster, t.cluster.pods = s.cluster.pods → t.cluster.template = pass.template → ∀ q, s.Released q →
          t.Released q := fun t hpods ht q hr => hr.congr (ht.trans htmpl) (by rw [hpods])
      rcases rolloutStep_of_some hpart h0 (hsize ▸ hle) with h | h | ⟨h, hpos, hh⟩
      · exact hnone _ h
      · refine hmk p h0 hle _ (by rw [h]; rfl) (by rw [h]; rfl) fun t hpods ht hg => ?_
        refine (hw.released p hroll).imp (hrel t hpods ht p) fun hr => ⟨hrel t hpods ht _ hr.1, ?_⟩
        rw [hg, ← hgate, htmpl, hr.2]
        simp
      · obtain ⟨hr, hf⟩ := hw.passFresh pass p hpass hroll hh
        refine hmk (p - 1) (by omega) (by omega) _ (by rw [h]; rfl) (by rw [h]; rfl) fun t hpods ht hg => .inr ⟨?_, ?_⟩
        · rw [Int.sub_add_cancel]
          exact hrel t hpods ht p hr
        · rw [hg, ← hgate, htmpl, hf, hh]
          simp

theorem Walk.replace (hw : s.Walk) (hok : s.Paced .replace) : (s.step .replace).Walk := by
  rw [step, RolloutCluster.step]
  cases hv : s.cluster.victim with
  | none => exact hw
  | some i =>
    obtain ⟨p, hp⟩ := ne_none_iff_exists'.1 (hok.frozen rfl)
    obtain ⟨hip, hr, -, hnot⟩ := hw.victim_eq hp hv
    rw [isSome_some, if_pos rfl]
    dsimp only
    refine ⟨?_, ?_, ?_, hw.passPartition, ?_⟩
    · intro q hq
      dsimp only
      rw [length_set]
      exact hw.range q hq
    · intro q hq
      have hqp : q = p := some.inj (hq.symm.trans hp)
      subst hqp
      refine .inl fun j pod hj hle => ?_
      dsimp only at hj ⊢
      by_cases hij : i = j
      · rw [hij, getElem?_set_self', Option.map_eq_map, Option.map_eq_some_iff] at hj
        obtain ⟨_, -, rfl⟩ := hj
        rfl
      · rw [getElem?_set_ne hij] at hj
        exact hr j pod hj (by omega)
    · intro pass hpass
      dsimp only
      rw [length_set]
      exact hw.passSize pass hpass
    · intro pass q hpass hq hh
      have hqp : q = p := some.inj (hq.symm.trans hp)
      subst hqp
      exact absurd (hw.passFresh pass q hpass hp hh).1 hnot

theorem Walk.step (hw : s.Walk) (hok : s.Paced act) : (s.step act).Walk := by
  cases act with
  | edit template => exact hw.congr rfl rfl rfl rfl rfl
  | observe under => exact hw.observe under hok
  | publish => exact hw.publish hok
  | replace => exact hw.replace hok
  | readiness ordinal ready =>
    refine hw.congr rfl ?_ rfl rfl rfl
    refine ext_getElem? fun i => ?_
    rw [RolloutCluster.step, getElem?_map, getElem?_map, getElem?_modify, Option.map_eq_map,
      Option.map_map]
    congr 1
    funext pod
    dsimp only [comp_apply]
    split <;> rfl
  | complete =>
    show Walk ⟨if _ then _ else _, _, _⟩
    split
    · exact hw.congr rfl rfl rfl rfl rfl
    · exact hw

theorem walk_of_idle (hroll : s.cluster.rolloutPartition = none) (hpass : s.cluster.pass = none) : s.Walk :=
  ⟨fun _ hp => absurd (hroll.symm.trans hp) nofun, fun _ hp => absurd (hroll.symm.trans hp) nofun,
    fun _ hp => absurd (hpass.symm.trans hp) nofun, fun _ hp => absurd (hpass.symm.trans hp) nofun,
    fun _ _ hp => absurd (hpass.symm.trans hp) nofun⟩

/-! ## Runs -/

/-- In every run of a cluster where no rollout was seen and no pass was running, whose steps all keep pace, every pod is replaced
after a pass that found all pods ready and no partition under-replicated, and that observed the cluster after the replacement and
the template change before. -/
theorem paced_rollouts_are_gated (s : GatedCluster) (acts : List RolloutAct) (hroll : s.cluster.rolloutPartition = none)
    (hpass : s.cluster.pass = none) (hok : ∀ i, (hi : i < acts.length) → (s.before acts i).Paced acts[i]) : s.Gated acts := by
  intro i hi hv
  obtain ⟨hlt, hact⟩ := List.getElem?_eq_some_iff.1 hi
  have hwalk : (s.before acts i).Walk := by
    refine Run.invariant (fun _ _ hw hok => hw.step hok) (walk_of_idle hroll hpass) (acts.take i) fun j hj => ?_
    rw [length_take] at hj
    rw [take_take, Nat.min_eq_left (by omega), getElem_take]
    exact hok j (by omega)
  have hpaced := hok i hlt
  rw [hact] at hpaced
  obtain ⟨p, hp⟩ := ne_none_iff_exists'.1 (hpaced.frozen rfl)
  obtain ⟨j, hj⟩ := isSome_iff_exists.1 hv
  exact (hwalk.victim_eq hp hj).2.2.1

/-- Two pods of revision 0. -/
def twoPods : GatedCluster := ⟨⟨[⟨0, true⟩, ⟨0, true⟩], 0, 0, 0, none, 0, none⟩, false, false⟩

/-- A new template comes with partition 0, and a pod is replaced before any pass has looked. And where passes come faster than
replacements, two pods are released, and the second one is replaced with no pass after the first. -/
theorem rollouts_run_ahead :
    ¬ twoPods.Gated [.edit 1, .observe (some 0), .publish, .replace] ∧
      ¬ twoPods.Gated [.edit 1, .observe (some 0), .publish, .observe (some 0), .publish, .observe (some 0), .publish,
        .observe (some 0), .publish, .replace, .readiness 1 true, .replace] := by
  refine ⟨fun h => absurd (h 3 rfl rfl) (by decide), fun h => absurd (h 11 rfl rfl) (by decide)⟩

/-- A rollout that keeps pace: frozen by the second pass, released by the third. -/
theorem paced_rollouts_are_gated_two_pods :
    twoPods.Gated [.edit 1, .observe (some 0), .publish, .observe (some 0), .publish, .observe (some 0), .publish, .replace] := by
  have hnone : ∀ {s : GatedCluster} {act : RolloutAct}, s.cluster.rolloutPartition = none → act ≠ .replace → s.Paced act :=
    fun hroll hact => ⟨fun h => absurd h hact, fun _ _ _ _ => hroll, fun _ _ _ hp => nomatch (hroll.symm.trans hp)⟩
  refine paced_rollouts_are_gated _ _ rfl rfl fun i hi => ?_
  match i, hi with
  | 0, _ => exact hnone rfl nofun
  | 1, _ => exact hnone rfl nofun
  | 2, _ => exact hnone rfl nofun
  | 3, _ => exact hnone rfl nofun
  | 4, _ => exact hnone rfl nofun
  | 5, _ =>
    refine ⟨nofun, nofun, fun under p _ hp _ => ?_⟩
    have hp2 : (2 : Int) = p := some.inj hp
    rw [← hp2]
    exact released_length
  | 6, _ => exact ⟨nofun, fun _ pass hpass hne => absurd (by cases hpass; rfl) hne, nofun⟩
  | 7, _ => exact ⟨fun _ => nofun, nofun, nofun⟩

end GatedCluster

end Marekvs
