import Marekvs.Lib.Ordered

/-!
# The order of a replicated growable array

Every element names the element it was inserted behind, or a sentinel in front of the array. The order is that of a walk from the
sentinel: each element is followed by what was inserted behind it, the largest id first. An element whose left neighbour is not
there is taken for one at the front; a cycle of left neighbours is never reached.

With distinct ids the order is a function of the set of elements (`order_eq_of_perm`), and a chain comes back as it is
(`order_chain`).
-/

namespace Rga

open List Ordered

variable {ι β : Type} [LinearOrder ι] (head : ι)

/-- What an element is attached to: its left neighbour, or the sentinel if that one is not there. -/
def anchor (elems : List (ι × ι × β)) (left : ι) : ι := if left ≠ head ∧ left ∉ elems.map Prod.fst then head else left

/-- The elements attached to an id, smallest id first. -/
def children (elems : List (ι × ι × β)) (a : ι) : List (ι × β) :=
  sortAsc Prod.fst ((elems.filter fun e => anchor head elems e.2.1 = a).map fun e => (e.1, e.2.2))

/-- Take the top of the stack, and put on it what is attached to it. -/
def walk : Nat → List (ι × β) → (ι → List (ι × β)) → List (ι × β)
  | 0, _, _ => []
  | _ + 1, [], _ => []
  | n + 1, x :: stack, table => x :: walk n ((table x.1).reverse ++ stack) (Function.update table x.1 [])

/-- All elements in array order. -/
def order (elems : List (ι × ι × β)) : List (ι × β) :=
  walk elems.length (children head elems head).reverse (Function.update (children head elems) head [])

variable {head}

theorem anchor_eq_of_perm (h : elems.Perm elems') : anchor head elems = anchor head elems' := by
  funext left
  simp only [anchor, (h.map Prod.fst).mem_iff]

theorem children_eq_of_perm (h : elems.Perm elems') (hd : (elems.map Prod.fst).Nodup) :
    children head elems = children head elems' := by
  funext a
  rw [children, children, ← anchor_eq_of_perm h]
  refine sortAsc_eq_of_perm ((h.filter _).map _) ?_
  rw [map_map]
  exact hd.sublist (filter_sublist.map _)

/-- Elements of distinct ids stand in one order, in whatever order they are read. -/
theorem order_eq_of_perm (h : elems.Perm elems') (hd : (elems.map Prod.fst).Nodup) : order head elems = order head elems' := by
  rw [order, order, children_eq_of_perm h hd, h.length_eq]

/-! ## Chains -/

/-- The elements of an array that was written from left to right. -/
def chain (a : ι) : List (ι × β) → List (ι × ι × β)
  | [] => []
  | x :: l => (x.1, a, x.2) :: chain x.1 l

/-- The table of a chain: behind each element stands the next one. -/
inductive Linked (table : ι → List (ι × β)) : ι → List (ι × β) → Prop
  | last {a : ι} : table a = [] → Linked table a []
  | next {a : ι} {x : ι × β} {l : List (ι × β)} : table a = [x] → Linked table x.1 l → Linked table a (x :: l)

variable {a : ι} {l : List (ι × β)} {e : ι × ι × β}

section

omit [LinearOrder ι]

@[simp] theorem map_fst_chain (a : ι) (l : List (ι × β)) : (chain a l).map Prod.fst = l.map Prod.fst := by
  induction l generalizing a with
  | nil => rfl
  | cons x l ih => simp [chain, ih]

@[simp] theorem length_chain (l : List (ι × β)) : (chain a l).length = l.length := by
  induction l generalizing a with
  | nil => rfl
  | cons x l ih => simp [chain, ih]

theorem map_chain (f : β → γ) (a : ι) (l : List (ι × β)) :
    (chain a l).map (fun x => (x.1, x.2.1, f x.2.2)) = chain a (l.map fun x => (x.1, f x.2)) := by
  induction l generalizing a with
  | nil => rfl
  | cons x l ih => exact congrArg (_ :: ·) (ih x.1)

theorem exists_mem_chain (a : ι) {x : ι × β} (h : x ∈ l) : ∃ left, (x.1, left, x.2) ∈ chain a l := by
  induction l generalizing a with
  | nil => cases h
  | cons y l ih =>
    rcases mem_cons.1 h with rfl | h
    · exact ⟨a, mem_cons_self⟩
    · obtain ⟨left, hleft⟩ := ih y.1 h
      exact ⟨left, mem_cons_of_mem _ hleft⟩

theorem of_mem_chain (h : e ∈ chain a l) : (e.1, e.2.2) ∈ l := by
  induction l generalizing a with
  | nil => cases h
  | cons x l ih =>
    rcases mem_cons.1 h with rfl | h
    · exact mem_cons_self
    · exact mem_cons_of_mem _ (ih h)

theorem left_of_mem_chain (h : e ∈ chain a l) : e.2.1 = a ∨ e.2.1 ∈ l.map Prod.fst := by
  induction l generalizing a with
  | nil => cases h
  | cons x l ih =>
    rcases mem_cons.1 h with rfl | h
    · exact .inl rfl
    right
    rcases ih h with h | h
    · exact mem_cons.2 (.inl h)
    · exact mem_cons_of_mem _ h

/-- Only what the table holds behind the ids of the chain matters. -/
theorem Linked.congr {table table' : ι → List (ι × β)} (h : Linked table a l)
    (heq : ∀ b ∈ a :: l.map Prod.fst, table' b = table b) : Linked table' a l := by
  induction h with
  | last h => exact .last ((heq _ mem_cons_self).trans h)
  | next h _ ih =>
    refine .next ((heq _ mem_cons_self).trans h) (ih ?_)
    intro b hb
    exact heq b (mem_cons_of_mem _ hb)

end

/-- Nothing in a chain is attached to an id that is neither its start nor in it. -/
theorem filter_chain_of_notMem (hab : a ≠ b) (hb : b ∉ l.map Prod.fst) :
    (chain a l).filter (fun e => e.2.1 = b) = [] := by
  rw [filter_eq_nil_iff]
  intro e he hc
  rcases left_of_mem_chain he with h | h
  · exact hab (h.symm.trans (of_decide_eq_true hc))
  · exact hb (of_decide_eq_true hc ▸ h)

theorem Linked.update (h : Linked table a l) (hb : b ∉ a :: l.map Prod.fst) :
    Linked (Function.update table b []) a l := by
  refine h.congr ?_
  intro c hc
  have hcb : c ≠ b := fun h => hb (h ▸ hc)
  exact Function.update_of_ne hcb _ _

theorem walk_linked (h : Linked table x.1 l)
    (hd : ((x :: l).map Prod.fst).Nodup) : walk (l.length + 1) [x] table = x :: l := by
  induction l generalizing table x with
  | nil =>
    cases h with
    | last h => simp [walk, h]
  | cons y l ih =>
    cases h with
    | next h hl =>
      rw [map_cons, nodup_cons] at hd
      rw [walk, h, length_cons]
      exact congrArg (x :: ·) (ih (hl.update hd.1) hd.2)

/-- Sorting a table that holds at most one element behind an id changes nothing. -/
theorem Linked.sortAsc (h : Linked table a l) :
    Linked (fun b => Ordered.sortAsc Prod.fst (table b)) a l := by
  induction h with
  | last h => exact .last (by rw [h, sortAsc_nil])
  | next h _ ih => exact .next (by rw [h, sortAsc_singleton]) ih

theorem linked_filter (hd : (a :: l.map Prod.fst).Nodup) :
    Linked (fun b => ((chain a l).filter fun e => e.2.1 = b).map fun e => (e.1, e.2.2)) a l := by
  induction l generalizing a with
  | nil => exact .last rfl
  | cons x l ih =>
    obtain ⟨ha, hd'⟩ := nodup_cons.1 hd
    rw [map_cons] at ha hd'
    have hx : x.1 ≠ a := fun h => ha (h ▸ mem_cons_self)
    have hal : a ∉ l.map Prod.fst := fun h => ha (mem_cons_of_mem _ h)
    refine .next ?_ ((ih hd').congr ?_)
    · simp only [chain, filter_cons, decide_true, if_true, filter_chain_of_notMem hx hal, map_cons, map_nil]
    -- the first element stands behind `a`, so the rest does not see it
    intro b hb
    have hne : a ≠ b := fun h => ha (h ▸ hb)
    simp only [chain, filter_cons, decide_eq_true_eq, if_neg hne]

theorem linked_children (hd : (head :: l.map Prod.fst).Nodup) :
    Linked (children head (chain head l)) head l := by
  refine (linked_filter hd).sortAsc.congr ?_
  intro b _
  rw [children]
  congr 2
  refine filter_congr ?_
  intro e he
  have hanchor : anchor head (chain head l) e.2.1 = e.2.1 := by
    rw [anchor, map_fst_chain, if_neg]
    rintro ⟨h1, h2⟩
    exact (left_of_mem_chain he).elim h1 h2
  rw [hanchor]

/-- An array that was written from left to right is read as it was written, whatever its ids are. -/
theorem order_chain (hd : (head :: l.map Prod.fst).Nodup) : order head (chain head l) = l := by
  have h := linked_children hd
  rw [order, length_chain]
  cases h with
  | last h => simp [h, walk]
  | next h hl =>
    obtain ⟨hh, hd'⟩ := nodup_cons.1 hd
    rw [h]
    exact walk_linked (hl.update (by rwa [map_cons] at hh)) hd'

/-- Elements that were written as a chain stand as they were written, in whatever order they are read, and each is found under its
id. -/
theorem order_of_perm_chain [BEq ι] [LawfulBEq ι] {key : P → ι} (left : α → ι) (make : ι → P → α) {parts : List P}
    {elems : List (ι × α × Bool)} (hleft : ∀ a e, left (make a e) = a) (hids : (head :: parts.map key).Nodup)
    (hperm : elems.Perm ((chain head (parts.map fun e => (key e, e))).map fun x => (x.1, make x.2.1 x.2.2, true))) :
    (order head (elems.map fun e => (e.1, left e.2.1, e.2.2))).filter Prod.snd = parts.map (fun e => (key e, true)) ∧
      ∀ e ∈ parts, ∃ a, elems.reverse.lookup (key e) = some (make a e, true) := by
  have hkeys : (elems.map Prod.fst).Nodup := by
    rw [(hperm.map Prod.fst).nodup_iff, map_map]
    have hfst := map_fst_chain head (parts.map fun e => (key e, e))
    rw [map_map] at hfst
    exact hfst ▸ (nodup_cons.1 hids).2
  constructor
  · have hread : (elems.map fun e => (e.1, left e.2.1, e.2.2)).Perm (chain head (parts.map fun e => (key e, true))) := by
      have hmap := map_chain (fun _ => true) head (parts.map fun e => (key e, e))
      rw [map_map] at hmap
      refine (hperm.map _).trans (List.Perm.of_eq (Eq.trans ?_ hmap))
      rw [map_map]
      simp only [Function.comp_def, hleft]
    rw [order_eq_of_perm hread (by rwa [map_map]), order_chain (by rwa [map_map]), filter_eq_self]
    intro x hx
    obtain ⟨e, -, rfl⟩ := mem_map.1 hx
    rfl
  · intro e he
    obtain ⟨a, ha⟩ := exists_mem_chain head (mem_map.2 ⟨e, he, rfl⟩ : (key e, e) ∈ parts.map fun e => (key e, e))
    refine ⟨a, (lookup_eq_some_of_nodup ?_).2 (mem_reverse.2 (hperm.mem_iff.2 (mem_map.2 ⟨_, ha, rfl⟩)))⟩
    rwa [map_reverse, nodup_reverse]

end Rga
