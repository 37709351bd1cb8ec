import Marekvs.Engine.Command
import Marekvs.Lib.Run
import Marekvs.Theorems.RespParser

/-!
# The offsets that a replica acknowledges

Behind the snapshot the upstream master sends commands, and the replica acknowledges how far it has read: when it is asked to and
once a second. It counts the bytes that the parser took whenever the parser returns a command. An empty line or an empty array is
no command; if the unread bytes hold nothing else that is complete, the parser takes them and returns nothing, and they are not
counted then or later. In all other runs the offset counts every byte.
-/

namespace Marekvs.Upstream

open List Incremental Resp RespParser

/-- What `stream_loop` is about to do. -/
inductive Phase where
  | draining
  | waiting
  | over
  deriving DecidableEq, Repr

/-- An acknowledgement: the offset in it, and the bytes received until then without those still buffered. -/
structure Ack where
  offset : UInt64
  consumed : Nat
  deriving DecidableEq, Repr

/-- The state of `stream_loop`; what was received and what was acknowledged is kept for the statements. That REPLICAOF resets the
shared offset while an old loop still waits is no step here. -/
structure StreamLoop where
  parser : RespParser
  offset : UInt64
  phase : Phase
  received : Nat
  acks : List Ack
  deriving DecidableEq, Repr

/-- One turn of the inner loop, a read of the socket, a tick of the timer, or the end of the link. -/
inductive Event where
  | next
  | cancel
  | read (data : Bytes)
  | tick

/-- `REPLCONF GETACK`. -/
def isGetack : List Bytes → Bool
  | name :: word :: _ => eqIgnoreCase name "REPLCONF" && eqIgnoreCase word "GETACK"
  | _ => false

namespace StreamLoop

def start (offset : UInt64) (leftover : Bytes) : StreamLoop := ⟨new.feed leftover, offset, .draining, leftover.length, []⟩

def consumed (s : StreamLoop) : Nat := s.received - s.parser.buffered

def ack (s : StreamLoop) : StreamLoop := { s with acks := s.acks ++ [⟨s.offset, s.consumed⟩] }

/-- What the state after an event is; one that does not fit the phase changes nothing. -/
def step (s : StreamLoop) : Event → StreamLoop
  | .next =>
    if s.phase ≠ .draining then s
    else match s.parser.nextCommand with
      | (p, .ok (some args)) =>
        let s := { s with parser := p, offset := s.offset + UInt64.ofNat (s.parser.buffered - p.buffered) }
        if isGetack args then s.ack else s
      | (p, .ok none) => { s with parser := p, phase := .waiting }
      | (p, .error _) => { s with parser := p, phase := .over }
  | .cancel => if s.phase ≠ .draining then s else { s with phase := .over }
  | .read data =>
    if s.phase ≠ .waiting then s
    else if data = [] then { s with phase := .over }
    else { s with parser := s.parser.feed data, received := s.received + data.length, phase := .draining }
  | .tick => if s.phase ≠ .waiting then s else { s.ack with phase := .draining }

/-- All complete frames that are buffered, and there are some, are empty: the parser skips them without returning a command. -/
def SkipsOnly (s : StreamLoop) : Prop :=
  (parse parseCommand s.parser.unread).1 ≠ [] ∧ ∀ frame ∈ (parse parseCommand s.parser.unread).1, frame = []

instance (s : StreamLoop) : Decidable s.SkipsOnly := inferInstanceAs (Decidable (_ ∧ _))

/-- While the link is up, the offset counts what the parser has taken. -/
structure Current (offset : UInt64) (s : StreamLoop) : Prop where
  valid : s.parser.Valid
  buffered_le : s.parser.buffered ≤ s.received
  offset_eq : s.offset = offset + UInt64.ofNat s.consumed

/-- Every acknowledgement counted what the parser had taken, and the next one will. -/
structure Counts (offset : UInt64) (s : StreamLoop) : Prop where
  current : s.phase ≠ .over → Current offset s
  acks : ∀ a ∈ s.acks, a.offset = offset + UInt64.ofNat a.consumed

variable {offset : UInt64} {s : StreamLoop}

theorem Current.acks_ack (h : Current offset s) (hacks : ∀ a ∈ s.acks, a.offset = offset + UInt64.ofNat a.consumed) :
    ∀ a ∈ s.ack.acks, a.offset = offset + UInt64.ofNat a.consumed := by
  intro a ha
  rcases mem_append.1 ha with ha | ha
  · exact hacks a ha
  · rw [mem_singleton.1 ha]
    exact h.offset_eq

/-- Nothing is taken from a buffer without a complete frame. -/
theorem unread_of_none (h : Current offset s) (hskip : ¬ s.SkipsOnly) {p : RespParser}
    (hnext : s.parser.nextCommand = (p, .ok none)) :
    p.Valid ∧ p.unread = s.parser.unread := by
  have hspec := nextCommandFrom_spec (s.parser.buffered + 1) h.valid (by rw [length_unread]; omega)
  rw [← nextCommand, hnext] at hspec
  obtain ⟨hnone, hrest, hp⟩ := hspec
  have hempty : (parse parseCommand s.parser.unread).1 = [] := by
    by_contra hne
    refine hskip ⟨hne, fun frame hframe => ?_⟩
    simpa using filter_eq_nil_iff.1 hnone frame hframe
  refine ⟨hp, ?_⟩
  cases hs : parseCommand s.parser.unread with
  | error e =>
    rw [parseCommand_stable.parse_error hs] at hrest
    simp at hrest
  | ok r =>
    cases r with
    | none =>
      rw [parseCommand_stable.parse_none hs] at hrest
      exact (congrArg Prod.fst hrest).symm
    | some r =>
      rw [parseCommand_stable.parse_some hs] at hempty
      cases hempty

theorem counts_next (h : Counts offset s) (hskip : ¬ s.SkipsOnly) : Counts offset (s.step .next) := by
  by_cases hphase : s.phase = .draining
  · have hcur := h.current (by simp [hphase])
    rw [step, if_neg (not_not.2 hphase)]
    match hnext : s.parser.nextCommand with
    | (p, .error e) => exact ⟨fun hover => absurd rfl hover, h.acks⟩
    | (p, .ok none) =>
      obtain ⟨hp, hunread⟩ := unread_of_none hcur hskip hnext
      have hbuf : p.buffered = s.parser.buffered := by rw [← length_unread, hunread, length_unread]
      refine ⟨fun _ => ⟨hp, hbuf ▸ hcur.buffered_le, ?_⟩, h.acks⟩
      rw [consumed, hbuf]
      exact hcur.offset_eq
    | (p, .ok (some args)) =>
      have hspec := nextCommandFrom_spec (s.parser.buffered + 1) hcur.valid (by rw [length_unread]; omega)
      rw [← nextCommand, hnext] at hspec
      obtain ⟨-, -, hp, hlt⟩ := hspec
      rw [length_unread, length_unread] at hlt
      have hle := hcur.buffered_le
      have hcur' : Current offset { s with parser := p, offset := s.offset + UInt64.ofNat (s.parser.buffered - p.buffered) } := by
        refine ⟨hp, by dsimp only; omega, ?_⟩
        have hsum : s.received - p.buffered = s.received - s.parser.buffered + (s.parser.buffered - p.buffered) := by omega
        rw [consumed, hsum, UInt64.ofNat_add, ← add_assoc, hcur.offset_eq, consumed]
      dsimp only
      split
      · exact ⟨fun _ => ⟨hcur'.valid, hcur'.buffered_le, hcur'.offset_eq⟩, hcur'.acks_ack h.acks⟩
      · exact ⟨fun _ => hcur', h.acks⟩
  · rwa [step, if_pos hphase]

theorem counts_step (h : Counts offset s) (hskip : ¬ s.SkipsOnly) (e : Upstream.Event) : Counts offset (s.step e) := by
  cases e with
  | next => exact counts_next h hskip
  | cancel =>
    rw [step]
    split
    · exact h
    · exact ⟨fun hover => absurd rfl hover, h.acks⟩
  | read data =>
    by_cases hphase : s.phase = .waiting
    · have hcur := h.current (by simp [hphase])
      rw [step, if_neg (not_not.2 hphase)]
      split
      · exact ⟨fun hover => absurd rfl hover, h.acks⟩
      · have hbuf : (s.parser.feed data).buffered = s.parser.buffered + data.length := by
          rw [← length_unread, unread_feed hcur.valid, length_append, length_unread]
        refine ⟨fun _ => ⟨valid_feed hcur.valid data, ?_, ?_⟩, h.acks⟩
        · show (s.parser.feed data).buffered ≤ s.received + data.length
          exact hbuf ▸ Nat.add_le_add_right hcur.buffered_le _
        · rw [consumed]
          dsimp only
          rw [hbuf, Nat.add_sub_add_right]
          exact hcur.offset_eq
    · rwa [step, if_pos hphase]
  | tick =>
    by_cases hphase : s.phase = .waiting
    · have hcur := h.current (by simp [hphase])
      rw [step, if_neg (not_not.2 hphase)]
      exact ⟨fun _ => ⟨hcur.valid, hcur.buffered_le, hcur.offset_eq⟩, hcur.acks_ack h.acks⟩
    · rwa [step, if_pos hphase]

theorem counts_start (offset : UInt64) (leftover : Bytes) : Counts offset (start offset leftover) := by
  refine ⟨fun _ => ⟨Nat.zero_le _, ?_, ?_⟩, nofun⟩
  · simp [start, feed, new, buffered]
  · simp [start, feed, new, buffered, consumed]

/-- In a run in which the parser never takes empty frames alone, every acknowledged offset is the one the master gave and the
bytes taken since. -/
theorem acks_count_every_byte (offset : UInt64) (leftover : Bytes) (events : List Event)
    (h : Run.Always step (fun s _ => ¬ s.SkipsOnly) (start offset leftover) events) :
    ∀ a ∈ (events.foldl step (start offset leftover)).acks, a.offset = offset + UInt64.ofNat a.consumed :=
  (h.invariant (fun _ e hs hskip => counts_step hs hskip e) (counts_start offset leftover)).acks

/-- An empty line in front of a command is counted with it. -/
theorem ping_counted : ⟨13, 6⟩ ∈ ([.next, .read (ascii "\nPING\n"), .next, .next, .tick].foldl step (start 7 [])).acks ∧
    (13 : UInt64) = 7 + UInt64.ofNat 6 :=
  ⟨by decide, acks_count_every_byte 7 [] [.next, .read (ascii "\nPING\n"), .next, .next, .tick]
    ⟨by decide, by decide, by decide, by decide, by decide, trivial⟩ ⟨13, 6⟩ (by decide)⟩

/-- An empty line that is read alone is never counted. -/
theorem empty_line_not_counted :
    ∃ a ∈ ([.next, .read [13, 10], .next, .tick].foldl step (start 0 [])).acks, a.offset ≠ 0 + UInt64.ofNat a.consumed := by
  decide

end StreamLoop

end Marekvs.Upstream
