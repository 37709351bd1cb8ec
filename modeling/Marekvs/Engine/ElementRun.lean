import Marekvs.Engine.Element
import Marekvs.Lemmas.ElementJoin

/-!
# Nodes that add, remove and exchange one element

Nodes add and remove one set member or hash field, and any record that was ever stored on some node can reach any node, any number
of times and in any order. Clock readings, delete clocks and wall clocks are arbitrary. For each node the run keeps a log of what
was merged into its record and on top of what.
-/

namespace Marekvs

open List Option Function ElementState ElementRecord

variable {i : NodeId} {k : ElementKind} {stored : Option Bytes} {b : Bytes} {s : ElementSys}

/-- A byte vector of the source: its length fits a machine word. -/
abbrev Value : Type := { v : Bytes // v.length < 2 ^ 64 }

/-- The two families of commands. -/
inductive ElementKind where
  | member
  | field
  deriving DecidableEq, Repr

namespace ElementKind

def rtype : ElementKind → RecordType
  | member => .setMember
  | field => .hashField

/-- The record of SADD or HSET. A set member has no value. -/
def addition (k : ElementKind) (hlc : UInt64) (node : NodeId) (value : Value) : Bytes :=
  match k with
  | member => elementAdd .setMember hlc node []
  | field => elementAdd .hashField hlc node value.val

/-- SREM or HDEL. -/
def remove (k : ElementKind) (stored : Option Bytes) (hlc : UInt64) (node : NodeId) (delHlc now : UInt64) : Option Bytes :=
  match k with
  | member => removeMember stored hlc node delHlc now
  | field => removeField stored hlc node delHlc now

theorem plain (k : ElementKind) : Plain k.rtype := by
  cases k
  · exact .inr (.inl rfl)
  · exact .inl rfl

theorem isOrElement (k : ElementKind) : k.rtype.isOrElement = true := by cases k <;> rfl

theorem remove_eq (k : ElementKind) (node : NodeId) (delHlc now : UInt64) :
    k.remove stored hlc node delHlc now = (removal k.rtype stored hlc node delHlc now).map (writeMerged stored) := by
  cases k <;> rfl

end ElementKind

/-- The dot sets of stored bytes; bytes that are no element record have none. -/
def dotsOf (bytes : Bytes) : OrSet Dot :=
  match (Envelope.decode bytes).bind fun p => ElementState.decode p.2 with
  | some st => st.toOrSet
  | none => ⟨∅, ∅⟩

def storedDots : Option Bytes → OrSet Dot
  | some bytes => dotsOf bytes
  | none => ⟨∅, ∅⟩

/-- The merge of `incoming` into `stored` has no more dots to keep than the caps allow. -/
def NoCut (stored : Option Bytes) (incoming : Bytes) : Prop :=
  (((storedDots stored).live ∪ (dotsOf incoming).live) \ ((storedDots stored).covered ∪ (dotsOf incoming).covered)).card ≤
      MAX_LIVE_DOTS ∧
    ((storedDots stored).covered ∪ (dotsOf incoming).covered).card ≤ MAX_TOMB_DOTS

instance (stored : Option Bytes) (incoming : Bytes) : Decidable (NoCut stored incoming) := inferInstanceAs (Decidable (_ ∧ _))

/-- One step of a run. -/
inductive ElementOp where
  | add (node : NodeId) (hlc : UInt64) (value : Value)
  | remove (node : NodeId) (hlc delHlc now : UInt64)
  | deliver (node : NodeId) (index : Nat)

/-- The records of one element on all nodes, every record stored so far, and each node's log of merges: what was stored and what
came in. -/
structure ElementSys where
  stored : NodeId → Option Bytes
  sent : List Bytes
  log : NodeId → List (Option Bytes × Bytes)

namespace ElementSys

def init : ElementSys := ⟨fun _ => none, [], fun _ => []⟩

/-- A record is merged into a node's record. -/
def merge (s : ElementSys) (i : NodeId) (incoming : Bytes) : ElementSys where
  stored := Function.update s.stored i (some (writeMerged (s.stored i) incoming))
  sent := writeMerged (s.stored i) incoming :: s.sent
  log := Function.update s.log i ((s.stored i, incoming) :: s.log i)

/-- One step: a command that writes nothing and a delivery of a record that does not exist change nothing. -/
def step (k : ElementKind) (s : ElementSys) : ElementOp → ElementSys
  | .add i hlc value => s.merge i (k.addition hlc i value)
  | .remove i hlc delHlc now =>
    match removal k.rtype (s.stored i) hlc i delHlc now with
    | none => s
    | some incoming => s.merge i incoming
  | .deliver i index =>
    match s.sent[index]? with
    | none => s
    | some incoming => s.merge i incoming

/-- The state after a sequence of steps. -/
def run (k : ElementKind) (ops : List ElementOp) : ElementSys := ops.foldl (step k) init

/-- The add `d` was merged into node `i`'s record at some time. -/
def Seen (s : ElementSys) (i : NodeId) (d : Dot) : Prop := ∃ p ∈ s.log i, d ∈ (dotsOf p.2).live

instance (s : ElementSys) (i : NodeId) (d : Dot) : Decidable (s.Seen i d) := inferInstanceAs (Decidable (∃ _ ∈ _, _))

/-- No merge into node `i`'s record had more dots to keep than the caps allow. -/
def Clean (s : ElementSys) (i : NodeId) : Prop := ∀ p ∈ s.log i, NoCut p.1 p.2

instance (s : ElementSys) (i : NodeId) : Decidable (s.Clean i) := inferInstanceAs (Decidable (∀ _ ∈ _, _))

@[simp] theorem merge_stored_self (s : ElementSys) :
    (s.merge i b).stored i = some (writeMerged (s.stored i) b) := update_self _ _ _

theorem merge_stored_of_ne (s : ElementSys) {j : NodeId} (b : Bytes) (h : j ≠ i) : (s.merge i b).stored j = s.stored j :=
  update_of_ne h _ _

@[simp] theorem merge_log_self (s : ElementSys) : (s.merge i b).log i = (s.stored i, b) :: s.log i := update_self _ _ _

theorem merge_log_of_ne (s : ElementSys) {j : NodeId} (b : Bytes) (h : j ≠ i) : (s.merge i b).log j = s.log j :=
  update_of_ne h _ _

/-! ## What the stored bytes are -/

/-- The bytes are those of a canonical record of the element's type. -/
def IsRecord (k : ElementKind) (b : Bytes) : Prop := ∃ r : ElementRecord, r.rtype = k.rtype ∧ r.encode = b

theorem dotsOf_encode (r : ElementRecord) : dotsOf r.encode = r.dots := by
  rw [dotsOf, ElementRecord.decode_encode, bind_some, decode_state_encode]
  rfl

theorem isRecord_encodeElement (k : ElementKind) (v : Version) (ttl : UInt64) (st : ElementState) (h : st.SmallValues) :
    IsRecord k (encodeElement k.rtype v ttl st) :=
  ⟨ofState k.rtype v ttl st k.isOrElement k.plain.ne_counterField h, rfl, encode_ofState _ _ _ _ _ _ _⟩

theorem isRecord_addition (k : ElementKind) (hlc : UInt64) (i : NodeId) (value : Value) :
    IsRecord k (k.addition hlc i value) := by
  cases k
  · exact isRecord_encodeElement .member _ _ _ (by simp [SmallValues])
  · exact isRecord_encodeElement .field _ _ _ (by simpa [SmallValues] using value.property)

theorem isRecord_removal (h : removal k.rtype stored hlc i delHlc now = some rm) : IsRecord k rm := by
  obtain ⟨payload, _, rfl⟩ := map_eq_some_iff.1 h
  exact isRecord_encodeElement k _ _ _ (by simp [SmallValues])

theorem isRecord_writeMerged (hs : ∀ l, stored = some l → IsRecord k l) (hb : IsRecord k b) :
    IsRecord k (writeMerged stored b) := by
  cases stored with
  | none => exact hb
  | some l =>
    obtain ⟨r, hr, rfl⟩ := hs l rfl
    obtain ⟨s, hs', rfl⟩ := hb
    exact ⟨r.join s, join_rtype hr hs', (mergeResolve_encode r s).symm⟩

/-- Where no cap binds, the dots of a merge are the plain join. -/
theorem dotsOf_writeMerged (hs : ∀ l, stored = some l → IsRecord k l) (hb : IsRecord k b) (hcut : NoCut stored b) :
    dotsOf (writeMerged stored b) = (storedDots stored).plainJoin (dotsOf b) := by
  cases stored with
  | none =>
    obtain ⟨r, _, rfl⟩ := hb
    rw [writeMerged, dotsOf_encode]
    refine OrSet.ext ?_ ?_
    · simp [OrSet.plainJoin, storedDots, Finset.sdiff_eq_self_of_disjoint r.dots_disjoint]
    · simp [OrSet.plainJoin, storedDots]
  | some l =>
    obtain ⟨r, hr, rfl⟩ := hs l rfl
    obtain ⟨s, hs', rfl⟩ := hb
    rw [NoCut, storedDots, dotsOf_encode, dotsOf_encode] at hcut
    rw [writeMerged, mergeResolve_encode, storedDots, dotsOf_encode, dotsOf_encode, dotsOf_encode, dots_join k.plain hr hs',
      OrSet.join_eq_plainJoin hcut.1 hcut.2]

/-! ## What holds in every run -/

/-- The step invariant: stored bytes are canonical records and can be exchanged, and a node whose merges were never cut still
holds, live or covered, every add it has merged. -/
structure Inv (k : ElementKind) (s : ElementSys) : Prop where
  sent : ∀ b ∈ s.sent, IsRecord k b
  stored : ∀ i b, s.stored i = some b → b ∈ s.sent
  seen : ∀ i, s.Clean i → ∀ d, s.Seen i d → d ∈ (storedDots (s.stored i)).live ∪ (storedDots (s.stored i)).covered

theorem inv_init (k : ElementKind) : Inv k init where
  sent _ hb := nomatch hb
  stored _ _ h := nomatch h
  seen _ _ _ h := by
    obtain ⟨p, hp, _⟩ := h
    cases hp

theorem Inv.isRecord (h : Inv k s) (i : NodeId) : ∀ l, s.stored i = some l → IsRecord k l :=
  fun l hl => h.sent l (h.stored i l hl)

theorem mem_plainJoin {x y : OrSet Dot} (h : d ∈ x.live ∪ x.covered ∨ d ∈ y.live) :
    d ∈ (x.plainJoin y).live ∪ (x.plainJoin y).covered := by
  simp only [OrSet.plainJoin, Finset.mem_union, Finset.mem_sdiff] at h ⊢
  tauto

theorem Inv.merge (h : Inv k s) (i : NodeId) (hb : IsRecord k b) : Inv k (s.merge i b) where
  sent c hc := by
    rcases mem_cons.1 hc with rfl | hc
    · exact isRecord_writeMerged (h.isRecord i) hb
    · exact h.sent c hc
  stored j c hj := by
    by_cases hji : j = i
    · subst hji
      rw [merge_stored_self] at hj
      cases hj
      exact mem_cons_self
    · rw [merge_stored_of_ne s b hji] at hj
      exact mem_cons_of_mem _ (h.stored j c hj)
  seen j hclean d hd := by
    obtain ⟨p, hp, hdp⟩ := hd
    by_cases hji : j = i
    · subst hji
      rw [Clean, merge_log_self] at hclean
      rw [merge_log_self] at hp
      have hcut := hclean _ mem_cons_self
      rw [merge_stored_self, storedDots, dotsOf_writeMerged (h.isRecord j) hb hcut]
      refine mem_plainJoin ?_
      rcases mem_cons.1 hp with rfl | hp
      · exact .inr hdp
      · exact .inl (h.seen j (fun q hq => hclean q (mem_cons_of_mem _ hq)) d ⟨p, hp, hdp⟩)
    · rw [Clean, merge_log_of_ne s b hji] at hclean
      rw [merge_log_of_ne s b hji] at hp
      rw [merge_stored_of_ne s b hji]
      exact h.seen j hclean d ⟨p, hp, hdp⟩

/-- Every step is a merge of a canonical record or changes nothing. -/
theorem Inv.step (h : Inv k s) (op : ElementOp) : Inv k (s.step k op) := by
  cases op with
  | add i hlc value => exact h.merge i (isRecord_addition k hlc i value)
  | remove i hlc delHlc now =>
    rw [ElementSys.step]
    split
    · exact h
    · exact h.merge i (isRecord_removal ‹_›)
  | deliver i index =>
    rw [ElementSys.step]
    split
    · exact h
    · exact h.merge i (h.sent _ (mem_of_getElem? ‹_›))

theorem inv_run (k : ElementKind) (ops : List ElementOp) : Inv k (run k ops) :=
  List.foldlRecOn ops (step k) (inv_init k) fun _ h op _ => h.step op

end ElementSys

end Marekvs
