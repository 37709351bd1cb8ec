import Marekvs.Engine.Keyspace
import Marekvs.Repl.AntiEntropy

/-!
# Streaming a partition to a joining node

The donor reads the partition in key order, 256 records at a time, each chunk from the store as it then is, and queues it on the
bulk connection, and after an empty chunk the message that the partition is complete. The connection's writer drops a message
whose body is larger than a frame. A connection can be lost, with everything queued or in flight on it, and a new one takes its
place. The codec of the messages is a parameter.
-/

namespace Marekvs

def MAX_FRAME : Nat := 8 * 1024 * 1024

def BOOTSTRAP_CHUNK : Nat := 256

/-- The messages of a partition's stream. -/
inductive BootMsg where
  | bootstrapChunk (pid : Pid) (ops : List ReplOp)
  | bootstrapDone (pid : Pid) (asOfSeq : UInt64)
  deriving DecidableEq, Repr

namespace BootMsg

/-- The records a message carries. -/
def ops : BootMsg → List ReplOp
  | bootstrapChunk _ ops => ops
  | bootstrapDone _ _ => []

def isDone : BootMsg → Bool
  | bootstrapChunk _ _ => false
  | bootstrapDone _ _ => true

end BootMsg

/-- The frame of a message: its length in four bytes, low byte first, and its body; nothing where the body is too large. -/
def encodeFrame (postcard : BootMsg → Bytes) (msg : BootMsg) : Option Bytes :=
  let body := postcard msg
  if MAX_FRAME < body.length then none else some ((Bytes.beBytes 4 body.length).reverse ++ body)

/-- What the keys of a partition start with. -/
def partitionPrefix (pid : Pid) : Bytes := Bytes.ofU16 pid

/-- Where the next chunk begins: right after the last key sent. -/
def chunkStart (pid : Pid) (cursor : Option Bytes) : Bytes :=
  match cursor with
  | none => partitionPrefix pid
  | some last => last ++ [0]

/-- The records of a partition from a key on that are streamed: all but the score index. -/
def streamable (pid : Pid) (start : Bytes) (db : Db) : List (Bytes × Bytes) :=
  (db.scanPrefix (partitionPrefix pid)).filter fun e => compare start e.1 ≠ .gt ∧ !isIndex e.1

def readChunk (pid : Pid) (start : Bytes) (db : Db) : List ReplOp :=
  ((streamable pid start db).take BOOTSTRAP_CHUNK).map fun e => ⟨e.1, e.2⟩

/-- One chunk read: where it began, the store it saw and what it took. -/
structure ChunkRead where
  start : Bytes
  db : Db
  ops : List ReplOp

/-- The scan of this chunk went past the key: to its last record if the chunk is full, and to the end of the partition
otherwise. -/
def ChunkRead.passes (r : ChunkRead) (k : Bytes) : Prop :=
  compare r.start k ≠ .gt ∧ (r.ops.length < BOOTSTRAP_CHUNK ∨ ∃ last, r.ops.getLast? = some last ∧ compare k last.ikey ≠ .gt)

/-- A stream and its connection. -/
structure BootStream where
  cursor : Option Bytes
  /-- the donor's task has returned -/
  stopped : Bool
  connected : Bool
  /-- the writer's queue -/
  queue : List BootMsg
  /-- on the connection -/
  wire : List BootMsg
  /-- received by the joiner and not yet handled -/
  lane : List BootMsg
  /-- the records handed to the joiner's apply -/
  delivered : List ReplOp
  /-- the joiner has handled the end of the stream -/
  done : Bool
  /-- the chunks read so far -/
  reads : List ChunkRead

inductive BootOp where
  /-- the donor reads the next chunk from its store, `seq` being the last number of its ring -/
  | read (db : Db) (seq : UInt64)
  /-- the scan fails -/
  | fail
  /-- the writer takes a message from its queue -/
  | write
  /-- a message reaches the joiner -/
  | receive
  /-- the joiner handles a message -/
  | handle
  /-- the connection is lost -/
  | drop
  /-- a new connection is there -/
  | connect

namespace BootStream

def init : BootStream := ⟨none, false, true, [], [], [], [], false, []⟩

/-- The messages the joiner has not handled, the oldest first. -/
def pending (s : BootStream) : List BootMsg := s.lane ++ s.wire ++ s.queue

variable (postcard : BootMsg → Bytes) (pid : Pid)

def step (s : BootStream) : BootOp → BootStream
  | .read db seq =>
    if s.stopped then s
    else
      let ops := readChunk pid (chunkStart pid s.cursor) db
      let s := { s with reads := ⟨chunkStart pid s.cursor, db, ops⟩ :: s.reads }
      if ops = [] then
        -- the stream is at its end, whether or not the last message finds a connection
        { s with stopped := true, queue := if s.connected then s.queue ++ [.bootstrapDone pid seq] else s.queue }
      else if s.connected then
        { s with cursor := ops.getLast?.map ReplOp.ikey, queue := s.queue ++ [.bootstrapChunk pid ops] }
      else { s with stopped := true }
  | .fail => { s with stopped := true }
  | .write =>
    match s.queue with
    | [] => s
    | msg :: queue =>
      match encodeFrame postcard msg with
      | none => { s with queue := queue }
      | some _ => { s with queue := queue, wire := s.wire ++ [msg] }
  | .receive =>
    match s.wire with
    | [] => s
    | msg :: wire => { s with wire := wire, lane := s.lane ++ [msg] }
  | .handle =>
    match s.lane with
    | [] => s
    | .bootstrapChunk _ ops :: lane => { s with lane := lane, delivered := s.delivered ++ ops }
    | .bootstrapDone _ _ :: lane => { s with lane := lane, done := true }
  | .drop => { s with connected := false, queue := [], wire := [] }
  | .connect => { s with connected := true }

def run (ops : List BootOp) : BootStream := ops.foldl (step postcard pid) init

/-- What the next step may assume: a message that is written fits in a frame, and the connection is not replaced while the
stream is running. -/
def Sound (s : BootStream) : BootOp → Prop
  | .write => ∀ msg ∈ s.queue.head?, (postcard msg).length ≤ MAX_FRAME
  | .connect => s.stopped = true ∨ s.reads = []
  | _ => True

end BootStream

end Marekvs
