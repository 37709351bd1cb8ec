import Marekvs.Cluster.Placement
import Marekvs.Lib.Ordered

/-!
# The membership view that gossip builds

A gossip snapshot may hold a node several times, once for each of its starts. The entries whose node id and mesh address parse are
sorted by node, which leaves those of one node in the order of the snapshot, and the first of each node stays. That order puts
the older generation first.
-/

namespace Marekvs

open List Ordered

def NodePhase.parse : String → Option NodePhase
  | "joining" => some .joining
  | "active" => some .active
  | "leaving" => some .leaving
  | _ => none

/-- A member as gossip reports it. -/
structure GossipMember (Addr : Type) extends Member where
  meshAddr : Addr
  gossipAddr : Addr
  respAddr : Option Addr
  generation : UInt64
  deriving DecidableEq

structure ChitchatId (Addr : Type) where
  nodeId : String
  generationId : UInt64
  gossipAdvertiseAddr : Addr

/-- Entries are ordered by node id, then generation, then address. -/
def ChitchatId.order {Addr : Type} (id : ChitchatId Addr) : String ×ₗ Nat ×ₗ Addr :=
  toLex (id.nodeId, toLex (id.generationId.toNat, id.gossipAdvertiseAddr))

/-- The state of each live node, by key. -/
structure Snapshot (Addr : Type) [LinearOrder Addr] where
  nodes : List (ChitchatId Addr × (String → Option String))
  ordered : nodes.Pairwise fun a b => a.1.order < b.1.order

section

variable {Addr : Type} [LinearOrder Addr] (parseNode : String → Option NodeId) (parseAddr : String → Option Addr)

/-- The member of an entry whose node id and mesh address parse. -/
def gossipMember (entry : ChitchatId Addr × (String → Option String)) : Option (GossipMember Addr) := do
  let node ← parseNode entry.1.nodeId
  let meshAddr ← (entry.2 "mesh_addr").bind parseAddr
  return {
    node
    phase := ((entry.2 "state").bind NodePhase.parse).getD .joining
    zone := (entry.2 "zone").filter (· ≠ "")
    meshAddr
    gossipAddr := entry.1.gossipAdvertiseAddr
    respAddr := (entry.2 "resp_addr").bind parseAddr
    generation := entry.1.generationId }

/-- The members before the sort. -/
def gossipMembers (s : Snapshot Addr) : List (GossipMember Addr) := s.nodes.filterMap (gossipMember parseNode parseAddr)

def rebuildView (s : Snapshot Addr) : List (GossipMember Addr) :=
  (sortAsc (·.node) (gossipMembers parseNode parseAddr s)).destutter fun a b => a.node ≠ b.node

end

section

variable {Addr : Type} {l : List (GossipMember Addr)} {a m : GossipMember Addr}

/-- The address, phase and zone of a member are those of the greatest generation of its node. -/
def GossipMember.Current (l : List (GossipMember Addr)) (m : GossipMember Addr) : Prop :=
  ∃ c ∈ l, c.node = m.node ∧ (∀ d ∈ l, d.node = m.node → d.generation ≤ c.generation) ∧
    c.meshAddr = m.meshAddr ∧ c.phase = m.phase ∧ c.zone = m.zone

theorem pairwise_destutter' (h : (a :: l).Pairwise (·.node ≤ ·.node)) :
    (l.destutter' (·.node ≠ ·.node) a).Pairwise (·.node < ·.node) := by
  induction l generalizing a with
  | nil => simp
  | cons b l ih =>
    obtain ⟨ha, hb⟩ := pairwise_cons.1 h
    rw [destutter'_cons]
    split
    case isTrue hne =>
      refine pairwise_cons.2 ⟨fun m hm => ?_, ih hb⟩
      have hlt : a.node < b.node := lt_of_le_of_ne (ha b mem_cons_self) hne
      rcases mem_cons.1 ((destutter'_sublist _ _ b).subset hm) with rfl | hm
      · exact hlt
      · exact lt_of_lt_of_le hlt (rel_of_pairwise_cons hb hm)
    case isFalse => exact ih (h.sublist (by simp))

/-- In a list by node, the first of each node stays. -/
theorem mem_destutter' (h : (a :: l).Pairwise (·.node ≤ ·.node)) :
    m ∈ l.destutter' (·.node ≠ ·.node) a ↔ (a :: l).find? (·.node = m.node) = some m := by
  induction l generalizing a with
  | nil =>
    constructor
    · intro hm
      simp [mem_singleton.1 hm]
    · intro hm
      exact mem_singleton.2 (mem_singleton.1 (mem_of_find?_eq_some hm))
  | cons b l ih =>
    obtain ⟨ha, hb⟩ := pairwise_cons.1 h
    rw [destutter'_cons]
    split
    case isTrue hne =>
      rw [mem_cons, ih hb]
      by_cases hm : a.node = m.node
      · have hlater : (b :: l).find? (·.node = m.node) ≠ some m := by
          intro hfind
          have hle : b.node ≤ m.node := by
            rcases mem_cons.1 (mem_of_find?_eq_some hfind) with rfl | hmem
            · exact le_rfl
            · exact rel_of_pairwise_cons hb hmem
          exact hne (le_antisymm (ha b mem_cons_self) (hm ▸ hle))
        rw [or_iff_left hlater, find?_cons_of_pos (by simpa using hm), Option.some_inj, eq_comm]
      · rw [or_iff_right (fun heq : m = a => hm (heq ▸ rfl)), find?_cons_of_neg (l := b :: l) (by simpa using hm)]
    case isFalse heq =>
      rw [ih (h.sublist (by simp))]
      by_cases hm : a.node = m.node
      · rw [find?_cons_of_pos (by simpa using hm), find?_cons_of_pos (by simpa using hm)]
      · rw [find?_cons_of_neg (by simpa using hm), find?_cons_of_neg (by simpa using hm),
          find?_cons_of_neg (by simpa [← not_not.1 heq] using hm)]

/-- The view by node holds the first member of each. -/
theorem destutter_sortAsc (l : List (GossipMember Addr)) :
    let view := (sortAsc (·.node) l).destutter fun a b => a.node ≠ b.node
    view.Pairwise (·.node < ·.node) ∧ ∀ m, m ∈ view ↔ l.find? (·.node = m.node) = some m := by
  -- sorting by node keeps the order of the members of a node
  have hfind (n : NodeId) : (sortAsc (·.node) l).find? (·.node = n) = l.find? (·.node = n) := by
    rw [← head?_filter, ← head?_filter, filter_sortAsc _ l _ n fun _ => decide_eq_true_iff]
  have hsorted : (sortAsc (·.node) l).Pairwise (·.node ≤ ·.node) := sortAsc_pairwise l
  simp only [← hfind]
  generalize sortAsc (·.node) l = sorted at hsorted
  cases sorted with
  | nil => simp
  | cons a sorted => exact ⟨pairwise_destutter' hsorted, fun m => mem_destutter' hsorted⟩

end

/-- Each node id that parses, with a mesh address that does, is in the view once, and the view is sorted by it; the address,
phase and zone are those of the greatest generation if and only if the first entry of each node in the snapshot has them. -/
theorem view_follows_newest_iff {Addr : Type} [LinearOrder Addr] (parseNode : String → Option NodeId)
    (parseAddr : String → Option Addr) (s : Snapshot Addr) :
    ((rebuildView parseNode parseAddr s).Pairwise (·.node < ·.node) ∧
      (∀ n, (∃ m ∈ rebuildView parseNode parseAddr s, m.node = n) ↔ ∃ m ∈ gossipMembers parseNode parseAddr s, m.node = n) ∧
      ∀ m ∈ rebuildView parseNode parseAddr s, m.Current (gossipMembers parseNode parseAddr s)) ↔
    ∀ m, (gossipMembers parseNode parseAddr s).find? (·.node = m.node) = some m →
      m.Current (gossipMembers parseNode parseAddr s) := by
  unfold rebuildView
  generalize gossipMembers parseNode parseAddr s = l
  obtain ⟨hsorted, hmem⟩ := destutter_sortAsc l
  constructor
  · rintro ⟨-, -, hnew⟩ m hm
    exact hnew m ((hmem m).2 hm)
  intro hnew
  refine ⟨hsorted, fun n => ⟨?_, ?_⟩, fun m hm => hnew m ((hmem m).1 hm)⟩
  · rintro ⟨m, hm, rfl⟩
    exact ⟨m, mem_of_find?_eq_some ((hmem m).1 hm), rfl⟩
  rintro ⟨m, hm, rfl⟩
  obtain ⟨m', hm'⟩ := Option.isSome_iff_exists.1 (find?_isSome.2 ⟨m, hm, decide_eq_true rfl⟩ :
    (l.find? (·.node = m.node)).isSome = true)
  have heq : m'.node = m.node := by simpa using find?_some hm'
  exact ⟨m', (hmem m').2 (by rwa [heq]), heq⟩

/-- A node that has started again is seen with the address that it had before. -/
theorem restarted_node_keeps_old_address :
    let parseNode (t : String) : Option NodeId := if t = "1" then some 1 else none
    ∃ s : Snapshot String, (gossipMembers parseNode some s).map (fun m => (m.generation, m.meshAddr)) =
        [(1, "10.0.0.1:7700"), (2, "10.0.0.2:7700")] ∧
      (rebuildView parseNode some s).map (fun m => (m.generation, m.meshAddr)) = [(1, "10.0.0.1:7700")] := by
  refine ⟨⟨[(⟨"1", 1, "10.0.0.1:7701"⟩, fun key => if key = "mesh_addr" then some "10.0.0.1:7700" else none),
    (⟨"1", 2, "10.0.0.2:7701"⟩, fun key => if key = "mesh_addr" then some "10.0.0.2:7700" else none)], ?_⟩, ?_, ?_⟩
  · simp [ChitchatId.order, Prod.Lex.toLex_lt_toLex]
  · simp [gossipMembers, gossipMember]
  · simp [rebuildView, gossipMembers, gossipMember, sortAsc]

end Marekvs
