import Marekvs.Theorems.Placement
import Marekvs.Theorems.Push

/-!
# One pass of the pump

A pass waits at an entry of a partition that the node alone owns while the view has other members. With one replica that is not a
view that has yet to settle, and the pass waits for good. Where the first entry after the cursor is not such an entry, the pass
moves the cursor, and sends what is for the peer up to there. A node that is alone in its view sends nothing, so there the pass is
exact if nothing is for the peer.
-/

namespace Marekvs

open List PeerFlow

variable {route : RingEntry → Route} {entries : List RingEntry} {cursor bytes : Nat} {e : RingEntry}

/-! ## The walk -/

theorem walk_sublist : (walk route entries cursor bytes).1.Sublist entries := by
  induction entries generalizing cursor bytes with
  | nil => exact List.Sublist.slnil
  | cons e rest ih =>
    rw [walk]
    split
    · exact nil_sublist _
    · exact ih.cons e
    dsimp only
    split
    · exact (nil_sublist rest).cons_cons e
    · exact ih.cons_cons e

/-- The walk moves on exactly if it does not wait at the first entry. -/
theorem lt_walk_end_iff (hsorted : (e :: rest).Pairwise fun a b => a.seq < b.seq)
    (hafter : cursor < e.seq) : cursor < (walk route (e :: rest) cursor bytes).2.1 ↔ route e ≠ .defer := by
  have hrest : ∀ bytes, cursor < (walk route rest e.seq bytes).2.1 := by
    intro bytes
    rcases @walk_end route rest e.seq bytes with hend | ⟨e', he', hend⟩
    · rwa [hend]
    · rw [hend]
      exact hafter.trans ((pairwise_cons.1 hsorted).1 e' he')
  rw [walk]
  split
  · rename_i hr
    simp [hr]
  · rename_i hr
    simpa [hr] using hrest bytes
  rename_i hr
  dsimp only
  split
  · simpa [hr] using hafter
  · simpa [hr] using hrest _

/-- A walk that neither waits nor sends goes to the last entry. -/
theorem le_walk_end_of_skip (hsorted : entries.Pairwise fun a b => a.seq < b.seq) (hskip : ∀ e ∈ entries, route e = .skip)
    (he : e ∈ entries) : e.seq ≤ (walk route entries cursor bytes).2.1 := by
  induction entries generalizing cursor bytes with
  | nil => cases he
  | cons e' rest ih =>
    obtain ⟨hhead, htail⟩ := pairwise_cons.1 hsorted
    rw [walk, hskip e' mem_cons_self]
    rcases mem_cons.1 he with rfl | he
    · rcases @walk_end route rest e.seq bytes with hend | ⟨e', he', hend⟩
      · exact hend.ge
      · exact (hhead e' he').le.trans hend.ge
    · exact ih htail (fun e he => hskip e (mem_cons_of_mem _ he)) he

/-! ## Who gets an entry -/

section

variable (cfg : PushConfig) (env : RouteEnv)

def Others : Prop := ∃ m ∈ env.view.members, m.node ≠ cfg.selfId

/-- The entry is in a partition that has no owner but this node. -/
def Alone (e : RingEntry) : Prop :=
  ∃ p, Ikey.parse e.op.ikey = some p ∧ (env.view.owners cfg.xxh3 cfg.zoneSpread p.pid cfg.replicasN = [] ∨
    env.view.owners cfg.xxh3 cfg.zoneSpread p.pid cfg.replicasN = [cfg.selfId])

/-- The entry is for the peer: it is this node's own, in a partition that the peer owns, or this node forwards it as primary, to
a peer that has a live interest, is not an owner and did not write it. -/
def Wanted (e : RingEntry) : Prop :=
  ∃ p, Ikey.parse e.op.ikey = some p ∧
    ((e.origin = cfg.selfId ∧ cfg.peer ∈ env.view.owners cfg.xxh3 cfg.zoneSpread p.pid cfg.replicasN) ∨
      (env.view.h1 cfg.xxh3 cfg.zoneSpread p.pid cfg.replicasN = some cfg.selfId ∧ e.origin ≠ cfg.peer ∧
        cfg.peer ∉ env.view.owners cfg.xxh3 cfg.zoneSpread p.pid cfg.replicasN ∧ env.interested p.pid p.userkey = true))

variable {cfg env}

theorem routeEntry_eq_defer : routeEntry cfg env e = .defer ↔ Alone cfg env e ∧ Others cfg env := by
  unfold routeEntry Alone Others
  cases Ikey.parse e.op.ikey with
  | none => simp
  | some p =>
    simp only [Option.some.injEq, exists_eq_left']
    split
    · rename_i halone
      simp [halone]
    rename_i halone
    simp only [halone, false_and, iff_false]
    split
    · nofun
    · split <;> nofun

theorem routeEntry_eq_send (hpeer : cfg.peer ≠ cfg.selfId) :
    routeEntry cfg env e = .send ↔ Wanted cfg env e ∧ ¬ Alone cfg env e := by
  unfold routeEntry Alone Wanted
  cases Ikey.parse e.op.ikey with
  | none => simp
  | some p =>
    simp only [Option.some.injEq, exists_eq_left']
    split
    · rename_i halone
      simp only [halone, not_true_eq_false, and_false, iff_false]
      split <;> nofun
    · rename_i halone
      simp only [halone, not_false_eq_true, and_true]
      split
      · rename_i hown
        simp [hown.1, hown.2.1]
      rename_i hown
      have hnot : ¬ (e.origin = cfg.selfId ∧ cfg.peer ∈ env.view.owners cfg.xxh3 cfg.zoneSpread p.pid cfg.replicasN) :=
        fun h => hown ⟨h.1, h.2, hpeer⟩
      rw [or_iff_right hnot]
      split
      · rename_i hfwd
        simpa using hfwd
      · rename_i hfwd
        simpa using hfwd

/-- Without other members, a node is alone in every partition. -/
theorem routeEntry_eq_skip (hnodes : (env.view.members.map Member.node).Nodup) (hothers : ¬ Others cfg env) :
    routeEntry cfg env e = .skip := by
  have hself : ∀ m ∈ env.view.members, m.node = cfg.selfId := by simpa [Others] using hothers
  have hcand : (env.view.ownerCandidates.map Candidate.node).Nodup := by
    rw [View.ownerCandidates, map_map]
    exact hnodes.sublist (filter_sublist.map _)
  have hall : ∀ pid, ∀ o ∈ env.view.owners cfg.xxh3 cfg.zoneSpread pid cfg.replicasN, o = cfg.selfId := by
    intro pid o ho
    obtain ⟨c, hc, rfl⟩ := exists_of_mem_ownersForZoned _ _ _ _ hcand ho
    obtain ⟨m, hm, rfl⟩ := mem_map.1 hc
    exact hself m (mem_filter.1 hm).1
  have halone : ∀ pid, env.view.owners cfg.xxh3 cfg.zoneSpread pid cfg.replicasN = [] ∨
      env.view.owners cfg.xxh3 cfg.zoneSpread pid cfg.replicasN = [cfg.selfId] := by
    intro pid
    have hnd : (env.view.owners cfg.xxh3 cfg.zoneSpread pid cfg.replicasN).Nodup := ownersForZoned_nodup _ _ _ _ hcand
    have hrep := eq_replicate_of_mem (hall pid)
    rw [hrep, nodup_replicate] at hnd
    rw [hrep]
    interval_cases (env.view.owners cfg.xxh3 cfg.zoneSpread pid cfg.replicasN).length <;> simp
  unfold routeEntry
  cases Ikey.parse e.op.ikey with
  | none => rfl
  | some p => simpa [halone p.pid] using hself

end

/-! ## A pass -/

namespace PushSys

variable {cfg : PushConfig} {env : RouteEnv} {s : PushSys} {f : PeerFlow}

/-- A pass for the peer, whose queue takes what is sent. -/
def pumpPass (cfg : PushConfig) (env : RouteEnv) (s : PushSys) : PushSys :=
  ((s.step cfg .pumpBegin).step cfg (.pumpSend env true)).step cfg .pumpEnd

/-- The peer is connected, its window is not full, its cursor is below the ring's last number, and no pass is under way. -/
structure Ready (cfg : PushConfig) (s : PushSys) (f : PeerFlow) : Prop where
  ring : s.ring.Ok
  idle : s.pass = none
  up : s.up = true
  flow : s.flow = some f
  window : f.windowFull cfg.window = false
  behind : f.sent < s.ring.lastSeq

/-- What a pass makes of the cursor and of what is sent. -/
theorem pumpPass_eq (h : Ready cfg s f) :
    let w := walk (routeEntry cfg env) (s.ring.readAfter f.sent BATCH_MAX_OPS).1 f.sent 0
    (s.pumpPass cfg env).flow.map sent = some w.2.1 ∧
      (s.pumpPass cfg env).wire = s.wire ++ (if w.1 = [] then [] else [⟨w.1, w.2.1⟩]) := by
  intro w
  have hbegin : s.step cfg .pumpBegin = { s with pass := some ⟨f.sent, s.conn, none⟩ } := by
    simp [step, h.idle, h.up, h.flow, h.window, not_le.2 h.behind]
  have hgap : ∀ t : PushSys, (t.reportGap f.sent).ring = t.ring ∧ (t.reportGap f.sent).flow = t.flow ∧
      (t.reportGap f.sent).up = t.up ∧ (t.reportGap f.sent).wire = t.wire := by
    intro t
    unfold reportGap
    split <;> exact ⟨rfl, rfl, rfl, rfl⟩
  obtain ⟨hring, hflow, hup, hwire⟩ := hgap { s with pass := some ⟨f.sent, s.conn, none⟩ }
  rw [pumpPass, hbegin]
  generalize hg : ({ s with pass := some ⟨f.sent, s.conn, none⟩ } : PushSys).reportGap f.sent = g at hring hflow hup hwire
  have hsend : ({ s with pass := some ⟨f.sent, s.conn, none⟩ } : PushSys).step cfg (.pumpSend env true) =
      g.pumpEntries cfg env true f.sent s.conn := by rw [← hg]; rfl
  rw [hsend, pumpEntries, hring]
  dsimp only
  have hflow' : g.flow = some f := hflow.trans h.flow
  split
  · rename_i hnone
    simp [step, w, hnone, walk, hflow', hwire]
  split
  · rename_i hops
    simp [step, w, hflow', hwire]
  · rename_i hops
    have hup' : g.up = true := hup.trans h.up
    simp [step, w, hup', hflow', hwire, onSend]

/-- The pass moves the cursor, and sends exactly the entries for the peer up to there, in the order of the ring. -/
def Exact (cfg : PushConfig) (env : RouteEnv) (s : PushSys) (f : PeerFlow) : Prop :=
  ∃ newCursor ops, (s.pumpPass cfg env).flow.map PeerFlow.sent = some newCursor ∧ f.sent < newCursor ∧
    (s.pumpPass cfg env).wire = s.wire ++ (if ops = [] then [] else [⟨ops, newCursor⟩]) ∧ ops.Sublist s.ring.buf ∧
    ∀ e, e ∈ ops ↔ e ∈ s.ring.buf ∧ f.sent < e.seq ∧ e.seq ≤ newCursor ∧ Wanted cfg env e

/-- A pass for a connected peer with a non-full window and a cursor below the ring's last number moves the cursor and sends
exactly what is for the peer up to there, if and only if the ring holds an entry after the cursor, the first one is not in a
partition that this node alone owns while the view has another member, and, where the view has no other member, none of the
entries read is for the peer. -/
theorem pump_pass_exact_iff (cfg : PushConfig) (hpeer : cfg.peer ≠ cfg.selfId) (env : RouteEnv)
    (hnodes : (env.view.members.map Member.node).Nodup) (s : PushSys) (f : PeerFlow) (h : Ready cfg s f) :
    Exact cfg env s f ↔ ∃ e rest, (s.ring.readAfter f.sent BATCH_MAX_OPS).1 = e :: rest ∧
      (Others cfg env → ¬ Alone cfg env e) ∧ (¬ Others cfg env → ∀ e' ∈ e :: rest, ¬ Wanted cfg env e') := by
  obtain ⟨hflow, hwire⟩ := @pumpPass_eq cfg env s f h
  have hsorted := h.ring.readAfter_sorted f.sent BATCH_MAX_OPS
  have hin : ∀ e ∈ (s.ring.readAfter f.sent BATCH_MAX_OPS).1, e ∈ s.ring.buf ∧ f.sent < e.seq := fun e he =>
    ⟨(mem_filter.1 (mem_of_mem_take he)).1, lt_of_mem_readAfter he⟩
  have hcovers := fun e => @walk_readAfter e (routeEntry cfg env) s.ring h.ring f.sent BATCH_MAX_OPS
  have hread := fun e => @mem_readAfter e f.sent BATCH_MAX_OPS (routeEntry cfg env) s.ring h.ring
  have hsub : (walk (routeEntry cfg env) (s.ring.readAfter f.sent BATCH_MAX_OPS).1 f.sent 0).1.Sublist s.ring.buf :=
    walk_sublist.trans ((take_sublist _ _).trans filter_sublist)
  have hskip := fun (hothers : ¬ Others cfg env) e => @routeEntry_eq_skip e cfg env hnodes hothers
  constructor
  · rintro ⟨newCursor, ops, hflow', hlt, hwire', -, hops⟩
    obtain rfl := Option.some.inj (hflow'.symm.trans hflow)
    cases hentries : (s.ring.readAfter f.sent BATCH_MAX_OPS).1 with
    | nil =>
      rw [hentries] at hlt
      exact absurd hlt (lt_irrefl _)
    | cons e rest =>
      rw [hentries] at hlt hsorted
      have hfirst := (lt_walk_end_iff hsorted (hin e (hentries ▸ mem_cons_self)).2).1 hlt
      refine ⟨e, rest, rfl, fun hothers halone => hfirst (routeEntry_eq_defer.2 ⟨halone, hothers⟩), ?_⟩
      intro hothers e' he' hwanted
      -- nothing is sent, and the walk goes to the last entry read
      have hle := @le_walk_end_of_skip _ _ f.sent 0 _ hsorted (fun e _ => hskip hothers e) he'
      rw [← hentries] at hle he'
      have hnone : (walk (routeEntry cfg env) (s.ring.readAfter f.sent BATCH_MAX_OPS).1 f.sent 0).1 = [] := by
        refine eq_nil_iff_forall_not_mem.2 fun x hx => ?_
        have hsend := (mem_of_mem_walk hx).2
        rw [hskip hothers x] at hsend
        cases hsend
      have hmem : e' ∈ ops := (hops e').2 ⟨(hin e' he').1, (hin e' he').2, hle, hwanted⟩
      rw [hwire, hnone, if_pos rfl, append_cancel_left_eq] at hwire'
      rw [if_neg (ne_nil_of_mem hmem)] at hwire'
      cases hwire'
  · rintro ⟨e, rest, hentries, hfirst, hwanted⟩
    refine ⟨_, _, hflow, ?_, hwire, hsub, fun e' => ⟨fun he' => ?_, ?_⟩⟩
    · rw [hentries] at hsorted ⊢
      refine (lt_walk_end_iff hsorted (hin e (hentries ▸ mem_cons_self)).2).2 fun hdefer => ?_
      obtain ⟨halone, hothers⟩ := routeEntry_eq_defer.1 hdefer
      exact hfirst hothers halone
    · obtain ⟨hmem, hsend⟩ := mem_of_mem_walk he'
      exact ⟨(hin e' hmem).1, (hin e' hmem).2, le_walk_end hsorted he', ((routeEntry_eq_send hpeer).1 hsend).1⟩
    · rintro ⟨hbuf, hlt, hle, hw⟩
      obtain ⟨hdefer, hsend⟩ := hcovers e' hbuf hlt hle
      refine hsend ((routeEntry_eq_send hpeer).2 ⟨hw, fun halone => ?_⟩)
      by_cases hothers : Others cfg env
      · exact hdefer (routeEntry_eq_defer.2 ⟨halone, hothers⟩)
      · exact hwanted hothers e' (hentries ▸ hread e' hbuf hlt hle) hw

/-- Node 2 sends to node 1; there is one replica. -/
def oneReplica : PushConfig := { pairConfig with selfId := 2, peer := 1, replicasN := 1 }

/-- The peer is connected, and the ring holds one entry of the sender. -/
def oneEntry (cfg : PushConfig) : PushSys :=
  (init 1 0).run cfg ([.connect] ++ resumption ++ [.push cfg.selfId [⟨Ikey.stringKey [97], [1]⟩]])

theorem ready_oneEntry (cfg : PushConfig) (hwindow : 0 < cfg.window) : Ready cfg (oneEntry cfg) (.startingAt 0) where
  ring := Ring.Ok.push ⟨1, rfl, rfl⟩ _ _
  idle := rfl
  up := rfl
  flow := rfl
  window := by simpa [windowFull, inflightBytes, startingAt] using hwindow.ne'
  behind := Nat.zero_lt_one

theorem pump_pass_exact_two_replicas : Exact pairConfig pairEnv (oneEntry pairConfig) (.startingAt 0) := by
  refine (pump_pass_exact_iff pairConfig (by decide) pairEnv (by decide) _ _ (ready_oneEntry _ (by decide))).2
    ⟨⟨1, 1, ⟨Ikey.stringKey [97], [1]⟩⟩, [], by decide, ?_, ?_⟩
  · rintro - ⟨p, hp, howners⟩
    obtain rfl := Option.some.inj (hp.symm.trans (by rfl))
    revert howners
    decide
  · intro h
    exact absurd ⟨⟨2, .active, none⟩, by decide, by decide⟩ h

/-- With one replica, the sender waits at its own entry in a partition of its own. -/
theorem pump_pass_waits : Ready oneReplica (oneEntry oneReplica) (.startingAt 0) ∧
    (∀ m ∈ pairEnv.view.members, m.phase = .active) ∧
    ((oneEntry oneReplica).pumpPass oneReplica pairEnv).flow.map PeerFlow.sent = some 0 := by
  exact ⟨ready_oneEntry _ (by decide), by decide, by decide⟩

end PushSys

end Marekvs
