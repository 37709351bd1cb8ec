import Mathlib.Logic.Function.Iterate

/-!
# Routines made of jobs on keys

A routine is what an asynchronous handler still has to do, one await after the other: it fetches a key that may live elsewhere, or
has a job run on the state of one key and goes on with what the job saw. A job is atomic and has its own key in hand and no other.

A host keeps the state of every key. Polling a routine runs it up to the first await that does not come back at once; a job for
another worker stays in the queue and is run later, whether or not anyone still waits for it. `Within` bounds the keys of a
routine, `trace` are those visited where every await comes back, and `Writes` leaves reading out.
-/

/-- The rest of a handler. -/
inductive Routine (κ σ ρ : Type) where
  | done (r : ρ)
  | fetch (key : κ) (next : Routine κ σ ρ)
  /-- a job that writes the state of the key, and goes on with the state it saw -/
  | job (key : κ) (write : σ → σ) (next : σ → Routine κ σ ρ)

/-- The state of all keys, and the work that was asked for. -/
structure Host (κ σ : Type) where
  state : κ → σ
  /-- a fetch of the key has to wait for an answer from elsewhere -/
  remote : κ → Bool
  queue : List (κ × (σ → σ))
  /-- the keys whose state was read or written -/
  touched : List κ

namespace Host

open List

variable {κ σ : Type} (h : Host κ σ)

def touch (key : κ) : Host κ σ := { h with touched := key :: h.touched }

def enqueue (key : κ) (write : σ → σ) : Host κ σ := { h with queue := h.queue ++ [(key, write)] }

/-- Only keys in `K` were read, written or queued on the way from `h` to `h'`. -/
structure Stays (K : κ → Prop) (h h' : Host κ σ) : Prop where
  state : ∀ k, ¬ K k → h'.state k = h.state k
  touched : ∀ k, k ∈ h'.touched → k ∈ h.touched ∨ K k
  queue : ∀ j, j ∈ h'.queue → j ∈ h.queue ∨ K j.1

namespace Stays

variable {K : κ → Prop} {h h' h'' : Host κ σ}

theorem refl (K : κ → Prop) (h : Host κ σ) : Stays K h h := ⟨fun _ _ => rfl, fun _ hk => .inl hk, fun _ hj => .inl hj⟩

theorem trans (a : Stays K h h') (b : Stays K h' h'') : Stays K h h'' := by
  refine ⟨fun k hk => (b.state k hk).trans (a.state k hk), fun k hk => ?_, fun j hj => ?_⟩
  · rcases b.touched k hk with hk | hk
    · exact a.touched k hk
    · exact .inr hk
  · rcases b.queue j hj with hj | hj
    · exact a.queue j hj
    · exact .inr hj

theorem touch {key : κ} (hkey : K key) (h : Host κ σ) : Stays K h (h.touch key) := by
  refine ⟨fun _ _ => rfl, fun k hk => ?_, fun j hj => .inl hj⟩
  rcases mem_cons.mp hk with rfl | hk
  · exact .inr hkey
  · exact .inl hk

theorem enqueue (hkey : K key) (h : Host κ σ) (write : σ → σ) : Stays K h (h.enqueue key write) := by
  refine ⟨fun _ _ => rfl, fun k hk => .inl hk, fun j hj => ?_⟩
  rcases mem_append.mp hj with hj | hj
  · exact .inl hj
  · exact .inr (mem_singleton.mp hj ▸ hkey)

end Stays

variable [DecidableEq κ]

def run (key : κ) (write : σ → σ) : Host κ σ :=
  { h with state := Function.update h.state key (write (h.state key)), touched := key :: h.touched }

/-- Everything that is queued has run. -/
def drain : Host κ σ := h.queue.foldl (fun h j => h.run j.1 j.2) { h with queue := [] }

theorem Stays.run {K : κ → Prop} (hkey : K key) (h : Host κ σ) (write : σ → σ) : Stays K h (h.run key write) := by
  refine ⟨fun k hk => ?_, fun k hk => ?_, fun j hj => .inl hj⟩
  · have hne : k ≠ key := fun heq => hk (heq ▸ hkey)
    exact Function.update_of_ne hne _ _
  · rcases mem_cons.mp hk with rfl | hk
    · exact .inr hkey
    · exact .inl hk

/-- Running jobs on keys in `K` stays within `K`. -/
theorem stays_foldl_run (jobs : List (κ × (σ → σ))) (hjobs : ∀ j ∈ jobs, K j.1) (h : Host κ σ) :
    Stays K h (jobs.foldl (fun h j => h.run j.1 j.2) h) := by
  induction jobs generalizing h with
  | nil => exact Stays.refl K h
  | cons j jobs ih =>
    have hfirst := Stays.run (hjobs j mem_cons_self) h j.2
    exact hfirst.trans (ih (fun i hi => hjobs i (mem_cons_of_mem _ hi)) _)

theorem drain_stays (hq : ∀ j ∈ h.queue, K j.1) : Stays K h h.drain := by
  have hclear : Stays K h { h with queue := [] } := ⟨fun _ _ => rfl, fun _ hk => .inl hk, fun _ hj => absurd hj (not_mem_nil)⟩
  exact hclear.trans (stays_foldl_run h.queue hq _)

theorem touched_foldl_run (jobs : List (κ × (σ → σ))) (h : Host κ σ) :
    ∀ k, (k ∈ h.touched ∨ ∃ j ∈ jobs, j.1 = k) → k ∈ (jobs.foldl (fun h j => h.run j.1 j.2) h).touched := by
  induction jobs generalizing h with
  | nil =>
    intro k hk
    rcases hk with hk | ⟨j, hj, -⟩
    · exact hk
    · cases hj
  | cons j jobs ih =>
    intro k hk
    refine ih (h.run j.1 j.2) k ?_
    rcases hk with hk | ⟨i, hi, rfl⟩
    · exact .inl (mem_cons_of_mem _ hk)
    · rcases mem_cons.mp hi with rfl | hi
      · exact .inl mem_cons_self
      · exact .inr ⟨i, hi, rfl⟩

theorem touched_drain (hk : k ∈ h.touched ∨ ∃ j ∈ h.queue, j.1 = k) : k ∈ h.drain.touched :=
  touched_foldl_run h.queue _ k hk

end Host

namespace Routine

variable {κ σ ρ : Type}

/-- All keys of the routine are in `K`. -/
def Within (K : κ → Prop) : Routine κ σ ρ → Prop
  | done _ => True
  | fetch key next => K key ∧ next.Within K
  | job key _ next => K key ∧ ∀ s, (next s).Within K

/-- Go on with the result. -/
def bind {ρ' : Type} : Routine κ σ ρ → (ρ → Routine κ σ ρ') → Routine κ σ ρ'
  | done r, f => f r
  | fetch key next, f => .fetch key (next.bind f)
  | job key write next, f => .job key write fun s => (next s).bind f

/-- Only keys in `W` are written; the others are in `R`, and only read. -/
def Uses (W R : κ → Prop) : Routine κ σ ρ → Prop
  | done _ => True
  | fetch _ next => next.Uses W R
  | job key write next => (W key ∨ R key ∧ ∀ s, write s = s) ∧ ∀ s, (next s).Uses W R

/-- Every key that is fetched is in `F`, and every job in `P`. -/
def Visits (F : κ → Prop) (P : κ → (σ → σ) → Prop) : Routine κ σ ρ → Prop
  | done _ => True
  | fetch key next => F key ∧ next.Visits F P
  | job key write next => P key write ∧ ∀ s, (next s).Visits F P

theorem Visits.mono (hF : ∀ k, F k → F' k) (hP : ∀ k w, P k w → P' k w)
    (t : Routine κ σ ρ) (ht : t.Visits F P) : t.Visits F' P' := by
  induction t with
  | done r => trivial
  | fetch key next ih => exact ⟨hF key ht.1, ih ht.2⟩
  | job key write next ih => exact ⟨hP key write ht.1, fun s => ih s (ht.2 s)⟩

theorem Visits.bind {t : Routine κ σ ρ} {f : ρ → Routine κ σ ρ'}
    (ht : t.Visits F P) (hf : ∀ r, (f r).Visits F P) : (t.bind f).Visits F P := by
  induction t with
  | done r => exact hf r
  | fetch key next ih => exact ⟨ht.1, ih ht.2⟩
  | job key write next ih => exact ⟨ht.1, fun s => ih s (ht.2 s)⟩

theorem within_iff {t : Routine κ σ ρ} : t.Within K ↔ t.Visits K fun k _ => K k := by
  induction t with
  | done r => exact Iff.rfl
  | fetch key next ih => exact and_congr_right fun _ => ih
  | job key write next ih => exact and_congr_right fun _ => forall_congr' ih

theorem uses_iff {t : Routine κ σ ρ} : t.Uses W R ↔ t.Visits (fun _ => True) fun k w => W k ∨ R k ∧ ∀ s, w s = s := by
  induction t with
  | done r => exact Iff.rfl
  | fetch key next ih => exact ih.trans (iff_of_eq (true_and _)).symm
  | job key write next ih => exact and_congr_right fun _ => forall_congr' ih

theorem Within.mono (hKL : ∀ k, K k → L k) (t : Routine κ σ ρ) (ht : t.Within K) : t.Within L :=
  within_iff.2 ((within_iff.1 ht).mono hKL fun k _ => hKL k)

theorem Within.uses (R : κ → Prop) (t : Routine κ σ ρ) (ht : t.Within W) : t.Uses W R :=
  uses_iff.2 ((within_iff.1 ht).mono (fun _ _ => trivial) fun _ _ => .inl)

theorem Uses.bind {t : Routine κ σ ρ} {f : ρ → Routine κ σ ρ'} (ht : t.Uses W R)
    (hf : ∀ r, (f r).Uses W R) : (t.bind f).Uses W R := uses_iff.2 ((uses_iff.1 ht).bind fun r => uses_iff.1 (hf r))

/-! ## Keys that are not written -/

/-- The routine may come to a job that changes the state of the key. -/
def Writes (k : κ) : Routine κ σ ρ → Prop
  | done _ => False
  | fetch _ next => next.Writes k
  | job key write next => (key = k ∧ ∃ s, write s ≠ s) ∨ ∃ s, (next s).Writes k

theorem Uses.not_writes (hk : ¬ W k) (t : Routine κ σ ρ) (ht : t.Uses W R) : ¬ t.Writes k := by
  induction t with
  | done r => exact id
  | fetch key next ih => exact ih ht
  | job key write next ih =>
    rintro (⟨rfl, s, hs⟩ | ⟨s, hs⟩)
    · rcases ht.1 with hW | ⟨-, hread⟩
      · exact hk hW
      · exact hs (hread s)
    · exact ih s (ht.2 s) hs

section

variable (answer : κ → σ → σ)

/-- What fetches of the key alone make of its state. -/
def Fetched (k : κ) (s s' : σ) : Prop := ∃ n, s' = (answer k)^[n] s

theorem Fetched.refl (k : κ) (s : σ) : Fetched answer k s s := ⟨0, rfl⟩

theorem Fetched.once (k : κ) (s : σ) : Fetched answer k s (answer k s) := ⟨1, rfl⟩

theorem Fetched.trans {answer : κ → σ → σ} {s s' s'' : σ} (a : Fetched answer k s s') (b : Fetched answer k s' s'') :
    Fetched answer k s s'' := by
  obtain ⟨m, rfl⟩ := a
  obtain ⟨n, rfl⟩ := b
  exact ⟨n + m, (Function.iterate_add_apply _ _ _ _).symm⟩

/-- A job that does no more to the key than a fetch. -/
def Harmless (k : κ) (j : κ × (σ → σ)) : Prop := j.1 = k → j.2 = answer k ∨ ∀ s, j.2 s = s

/-- On the way from `h` to `h'` nothing happens to the key, and nothing is queued for it, but fetches. -/
structure Spares (k : κ) (h h' : Host κ σ) : Prop where
  state : Fetched answer k (h.state k) (h'.state k)
  queue : ∀ j ∈ h'.queue, j ∈ h.queue ∨ Harmless answer k j

namespace Spares

variable {answer} {k : κ} {h h' h'' : Host κ σ}

theorem refl (h : Host κ σ) : Spares answer k h h := ⟨Fetched.refl answer k _, fun _ hj => .inl hj⟩

theorem trans (a : Spares answer k h h') (b : Spares answer k h' h'') : Spares answer k h h'' := by
  refine ⟨a.state.trans b.state, fun j hj => ?_⟩
  rcases b.queue j hj with hj | hj
  · exact a.queue j hj
  · exact .inr hj

theorem enqueue {write : σ → σ} (hj : Harmless answer k (key, write)) (h : Host κ σ) :
    Spares answer k h (h.enqueue key write) := by
  refine ⟨Fetched.refl answer k _, fun j hmem => ?_⟩
  rcases List.mem_append.mp hmem with hmem | hmem
  · exact .inl hmem
  · exact .inr (List.mem_singleton.mp hmem ▸ hj)

end Spares

theorem harmless_of_not_writes {k key : κ} {write : σ → σ} {next : σ → Routine κ σ ρ} (ht : ¬ (job key write next).Writes k) :
    Harmless answer k (key, write) := by
  rintro rfl
  refine .inr fun s => ?_
  by_contra hne
  exact ht (.inl ⟨rfl, s, hne⟩)

end

variable [DecidableEq κ] (mine : κ → Bool) (answer : κ → σ → σ)

/-- Run a routine with everything at hand. -/
def run : Routine κ σ ρ → (κ → σ) → ρ × (κ → σ)
  | done r, s => (r, s)
  | fetch _ next, s => next.run s
  | job key write next, s => (next (s key)).run (Function.update s key (write (s key)))

/-- Poll a routine once on a worker that runs the jobs of the keys `mine` itself. A result, or nothing where the routine waits. -/
def poll : Routine κ σ ρ → Host κ σ → Option ρ × Host κ σ
  | done r, h => (some r, h)
  | fetch key next, h => if h.remote key then (none, h.enqueue key (answer key)) else next.poll (h.touch key)
  | job key write next, h =>
    if mine key then (next (h.state key)).poll (h.run key write) else (none, h.enqueue key write)

theorem poll_stays {K : κ → Prop} (t : Routine κ σ ρ) (ht : t.Within K) (h : Host κ σ) :
    Host.Stays K h (t.poll mine answer h).2 := by
  induction t generalizing h with
  | done r => exact Host.Stays.refl K h
  | fetch key next ih =>
    rw [poll]
    split
    · exact Host.Stays.enqueue ht.1 h _
    · exact (Host.Stays.touch ht.1 h).trans (ih ht.2 _)
  | job key write next ih =>
    rw [poll]
    split
    · exact (Host.Stays.run ht.1 h write).trans (ih _ (ht.2 _) _)
    · exact Host.Stays.enqueue ht.1 h write

/-- Nothing that was touched or queued is forgotten by a poll. -/
theorem poll_keeps (t : Routine κ σ ρ) (h : Host κ σ) :
    (∀ k ∈ h.touched, k ∈ (t.poll mine answer h).2.touched) ∧ ∀ j ∈ h.queue, j ∈ (t.poll mine answer h).2.queue := by
  induction t generalizing h with
  | done r => exact ⟨fun _ hk => hk, fun _ hj => hj⟩
  | fetch key next ih =>
    rw [poll]
    split
    · exact ⟨fun _ hk => hk, fun _ hj => List.mem_append_left _ hj⟩
    · obtain ⟨ht, hq⟩ := ih (h.touch key)
      exact ⟨fun k hk => ht k (List.mem_cons_of_mem _ hk), hq⟩
  | job key write next ih =>
    rw [poll]
    split
    · obtain ⟨ht, hq⟩ := ih (h.state key) (h.run key write)
      exact ⟨fun k hk => ht k (List.mem_cons_of_mem _ hk), hq⟩
    · exact ⟨fun _ hk => hk, fun _ hj => List.mem_append_left _ hj⟩

/-- The keys that a routine visits if every await comes back. -/
def trace : Routine κ σ ρ → (κ → σ) → List κ
  | done _, _ => []
  | fetch key next, s => key :: next.trace s
  | job key write next, s => key :: (next (s key)).trace (Function.update s key (write (s key)))

/-- If a routine would visit a key outside `K`, and the worker runs all jobs of keys in `K` itself, then one poll reaches a key
outside `K`: it is touched at once, or as soon as the queue has been worked off. -/
theorem exists_touched_outside {K : κ → Prop} (hmine : ∀ k, K k → mine k = true) (t : Routine κ σ ρ) (h : Host κ σ)
    (hremote : ∀ k, h.remote k = false) (hout : ∃ k ∈ t.trace h.state, ¬ K k) :
    ∃ k, ¬ K k ∧ (k ∈ (t.poll mine answer h).2.touched ∨ ∃ j ∈ (t.poll mine answer h).2.queue, j.1 = k) := by
  induction t generalizing h with
  | done r =>
    obtain ⟨k, hk, -⟩ := hout
    cases hk
  | fetch key next ih =>
    rw [poll, hremote key, if_neg Bool.false_ne_true]
    by_cases hkey : K key
    · refine ih (h.touch key) hremote ?_
      obtain ⟨k, hk, hKk⟩ := hout
      rcases List.mem_cons.mp hk with rfl | hk
      · exact absurd hkey hKk
      · exact ⟨k, hk, hKk⟩
    · exact ⟨key, hkey, .inl ((poll_keeps mine answer next (h.touch key)).1 key List.mem_cons_self)⟩
  | job key write next ih =>
    by_cases hkey : K key
    · rw [poll, if_pos (hmine key hkey)]
      refine ih _ (h.run key write) hremote ?_
      obtain ⟨k, hk, hKk⟩ := hout
      rcases List.mem_cons.mp hk with rfl | hk
      · exact absurd hkey hKk
      · exact ⟨k, hk, hKk⟩
    · refine ⟨key, hkey, ?_⟩
      rw [poll]
      split
      · exact .inl ((poll_keeps mine answer _ (h.run key write)).1 key List.mem_cons_self)
      · exact .inr ⟨(key, write), List.mem_append_right _ (List.mem_singleton.mpr rfl), rfl⟩

/-! ## Runs that spare a key -/

/-- Run a routine to its end, with whatever its fetches bring. -/
def complete : Routine κ σ ρ → (κ → σ) → ρ × (κ → σ)
  | done r, s => (r, s)
  | fetch key next, s => next.complete (Function.update s key (answer key (s key)))
  | job key write next, s => (next (s key)).complete (Function.update s key (write (s key)))

theorem fetched_complete {k : κ} (t : Routine κ σ ρ) (ht : ¬ t.Writes k) (s : κ → σ) :
    Fetched answer k (s k) ((t.complete answer s).2 k) := by
  induction t generalizing s with
  | done r => exact Fetched.refl answer k _
  | fetch key next ih =>
    refine Fetched.trans ?_ (ih ht _)
    by_cases hkey : k = key
    · subst hkey
      rw [Function.update_self]
      exact Fetched.once answer k _
    · rw [Function.update_of_ne hkey]
      exact Fetched.refl answer k _
  | job key write next ih =>
    refine Fetched.trans ?_ (ih (s key) (fun h => ht (.inr ⟨s key, h⟩)) _)
    have hsame : Function.update s key (write (s key)) k = s k := by
      by_cases hkey : k = key
      · subst hkey
        rw [Function.update_self]
        by_contra hne
        exact ht (.inl ⟨rfl, s k, hne⟩)
      · rw [Function.update_of_ne hkey]
    rw [hsame]
    exact Fetched.refl answer k _

theorem Spares.run {answer : κ → σ → σ} {write : σ → σ} (hj : Harmless answer k (key, write)) (h : Host κ σ) :
    Spares answer k h (h.run key write) := by
  refine ⟨?_, fun j hmem => .inl hmem⟩
  show Fetched answer k (h.state k) (Function.update h.state key (write (h.state key)) k)
  by_cases hkey : k = key
  · subst hkey
    rw [Function.update_self]
    rcases hj rfl with hw | hw
    · rw [show write = answer k from hw]
      exact Fetched.once answer k _
    · rw [show write (h.state k) = h.state k from hw _]
      exact Fetched.refl answer k _
  · rw [Function.update_of_ne hkey]
    exact Fetched.refl answer k _

/-- A poll spares a key that the routine does not write. -/
theorem poll_spares {k : κ} (t : Routine κ σ ρ) (ht : ¬ t.Writes k) (h : Host κ σ) :
    Spares answer k h (t.poll mine answer h).2 := by
  induction t generalizing h with
  | done r => exact Spares.refl h
  | fetch key next ih =>
    rw [poll]
    split
    · exact Spares.enqueue (by rintro rfl; exact .inl rfl) h
    · have htouch : Spares answer k h (h.touch key) := ⟨Fetched.refl answer k _, fun _ hj => .inl hj⟩
      exact htouch.trans (ih ht _)
  | job key write next ih =>
    have hj : Harmless answer k (key, write) := harmless_of_not_writes answer ht
    rw [poll]
    split
    · exact (Spares.run hj h).trans (ih _ (fun hw => ht (.inr ⟨_, hw⟩)) _)
    · exact Spares.enqueue hj h

/-- Working off a queue of harmless jobs. -/
theorem drain_spared {k : κ} (h : Host κ σ) (hq : ∀ j ∈ h.queue, Harmless answer k j) :
    Fetched answer k (h.state k) (h.drain.state k) := by
  have hrun : ∀ (jobs : List (κ × (σ → σ))) (g : Host κ σ), (∀ j ∈ jobs, Harmless answer k j) →
      Fetched answer k (g.state k) ((jobs.foldl (fun h j => h.run j.1 j.2) g).state k) := by
    intro jobs
    induction jobs with
    | nil => exact fun g _ => Fetched.refl answer k _
    | cons j jobs ih =>
      intro g hjobs
      have hfirst := (Spares.run (hjobs j List.mem_cons_self) g).state
      exact hfirst.trans (ih _ fun i hi => hjobs i (List.mem_cons_of_mem _ hi))
  exact hrun h.queue _ hq

end Routine
