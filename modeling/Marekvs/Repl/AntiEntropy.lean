import Marekvs.Engine.Store

/-!
# Merkle anti-entropy between two owners of a partition

The records of a partition fall into 256 buckets by the hash of their key. An owner sends the root over its bucket digests; a
peer with another root answers with its digests; for each bucket that differs the owner sends hashes and clock readings; the
peer pushes what is newer on its side and requests what is newer on the other.
-/

namespace Marekvs

def BUCKETS : Nat := 256

/-- The records a node holds in one partition, by internal key. -/
abbrev Records : Type := Bytes → Option Bytes

/-- What is sent about one record: the hash of its key, its clock reading and the hash of its bytes. -/
structure BucketEntry where
  hash : UInt64
  hlc : UInt64
  vhash : UInt64
  deriving DecidableEq, Repr

/-- A record with its key. -/
structure ReplOp where
  ikey : Bytes
  value : Bytes
  deriving DecidableEq, Repr

/-- The messages of an exchange about one partition. -/
inductive PeerMsg where
  | merkleRoot (root : UInt64)
  | merkleRootMatch
  | merkleBuckets (digests : List UInt64)
  | bucketKeys (bucket : Nat) (entries : List BucketEntry) (noBackfill : Bool)
  | requestKeys (bucket : Nat) (hashes : List UInt64)
  | repairOps (ops : List ReplOp)
  deriving DecidableEq, Repr

/-- The clock reading of a stored value, 0 where it does not decode. -/
def recordHlc (value : Bytes) : UInt64 :=
  match Envelope.decode value with
  | some (env, _) => env.hlc
  | none => 0

/-- The score index is local to a node. -/
def isIndex (ikey : Bytes) : Bool :=
  match Ikey.parse ikey with
  | some p => p.tag = .zsetScore
  | none => false

namespace Ae

variable (xxh3 : Bytes → UInt64) (pid : Pid) (keys : List Bytes) (s : Records)

/-- The records that are exchanged, in key order. -/
def scan : List ReplOp :=
  keys.filterMap fun k => if isIndex k then none else (s k).map (ReplOp.mk k)

def bucketOf (ikey : Bytes) : Nat := (xxh3 ikey &&& 0xFF).toNat

def recordVhash (value : Bytes) : UInt64 := xxh3 value

def entryHash (ikey : Bytes) (hlc vhash : UInt64) : UInt64 := xxh3 (ikey ++ Bytes.ofU64 hlc ++ Bytes.ofU64 vhash)

/-- The digests of all buckets: each record's entry hash, xored into its bucket. -/
def bucketDigests : List UInt64 :=
  (scan keys s).foldl
    (fun digests op => digests.modify (bucketOf xxh3 op.ikey)
      (· ^^^ entryHash xxh3 op.ikey (recordHlc op.value) (recordVhash xxh3 op.value)))
    (List.replicate BUCKETS 0)

/-- The root over the digests; 0 stands for a partition without records. -/
def partitionRoot : UInt64 :=
  if (bucketDigests xxh3 keys s).all (· = 0) then 0 else xxh3 ((bucketDigests xxh3 keys s).flatMap Bytes.ofU64)

def bucketRecords (bucket : Nat) : List ReplOp := (scan keys s).filter fun op => bucketOf xxh3 op.ikey = bucket

def entryOf (op : ReplOp) : BucketEntry := ⟨xxh3 op.ikey, recordHlc op.value, recordVhash xxh3 op.value⟩

def bucketEntries (bucket : Nat) : List BucketEntry := (bucketRecords xxh3 keys s bucket).map (entryOf xxh3)

/-- The entry under a hash; of several the last one counts. -/
def lookupEntry (entries : List BucketEntry) (hash : UInt64) : Option BucketEntry :=
  entries.reverse.find? fun e => e.hash = hash

/-- Whether an entry beats the other side's: it is newer, or as new with other bytes, or the other side has none. -/
def beats (e : BucketEntry) (other : Option BucketEntry) : Bool :=
  match other with
  | none => true
  | some o => o.hlc < e.hlc ∨ (e.hlc = o.hlc ∧ e.vhash ≠ o.vhash)

/-- The records to push to the peer, and the key hashes wanted from it. -/
def diffBucket (bucket : Nat) (theirs : List BucketEntry) : List ReplOp × List UInt64 :=
  ((bucketRecords xxh3 keys s bucket).filter fun op => beats (entryOf xxh3 op) (lookupEntry theirs (xxh3 op.ikey)),
    (theirs.map BucketEntry.hash).filter fun h =>
      match lookupEntry theirs h with
      | none => false
      | some e => beats e (lookupEntry (bucketEntries xxh3 keys s bucket) h))

/-- The records of a bucket whose key hashes are asked for. -/
def recordsByHash (bucket : Nat) (hashes : List UInt64) : List ReplOp :=
  (bucketRecords xxh3 keys s bucket).filter fun op => xxh3 op.ikey ∈ hashes

/-- Merge a batch of records; a record whose key does not parse or belongs to another partition is skipped. -/
def applyOps (ops : List ReplOp) : Records :=
  ops.foldl
    (fun s op =>
      match Ikey.parse op.ikey with
      | none => s
      | some p =>
        if p.pid ≠ pid then s else Function.update s op.ikey (some (writeMergedAt op.ikey (s op.ikey) op.value)))
    s

/-- The buckets whose digests differ. -/
def differing (ours theirs : List UInt64) : List Nat :=
  (List.range BUCKETS).filter fun i =>
    match ours[i]?, theirs[i]? with
    | some a, some b => a ≠ b
    | _, _ => false

/-- What a node does on a message: its records afterwards and the messages it sends back. `owns` tells whether it owns the
partition. -/
def handle (owns : Bool) (s : Records) : PeerMsg → Records × List PeerMsg
  | .merkleRoot root =>
    if partitionRoot xxh3 keys s ≠ root then (s, [.merkleBuckets (bucketDigests xxh3 keys s)]) else (s, [.merkleRootMatch])
  | .merkleRootMatch => (s, [])
  | .merkleBuckets digests =>
    (s, (differing (bucketDigests xxh3 keys s) digests).map fun i => .bucketKeys i (bucketEntries xxh3 keys s i) (!owns))
  | .bucketKeys bucket entries noBackfill =>
    let (push, want) := diffBucket xxh3 keys s bucket entries
    -- an exchange with a node that does not own the partition refreshes what it holds and gives it nothing else
    let push := if noBackfill then push.filter fun op => xxh3 op.ikey ∈ entries.map BucketEntry.hash else push
    (s, (if push = [] then [] else [.repairOps push]) ++ (if want = [] then [] else [.requestKeys bucket want]))
  | .requestKeys bucket hashes =>
    let ops := recordsByHash xxh3 keys s bucket hashes
    (s, if ops = [] then [] else [.repairOps ops])
  | .repairOps ops => (applyOps pid s ops, [])

/-- A message arrives at one of two owners; it is handled, and so is every message sent back, in order, at the other owner.
The chain of answers has at most `depth` links. -/
def converse : Nat → Records → Records → PeerMsg → Records × Records
  | 0, me, other, _ => (me, other)
  | depth + 1, me, other, msg =>
    let (me', replies) := handle xxh3 pid keys true me msg
    replies.foldl (fun (st : Records × Records) reply => (converse depth st.2 st.1 reply).swap) (me', other)

/-- A whole exchange, begun by the owner of `a`: root, buckets, keys, repairs and requested repairs. -/
def exchange (a b : Records) : Records × Records :=
  (converse xxh3 pid keys 5 b a (.merkleRoot (partitionRoot xxh3 keys a))).swap

/-- The two owners after `n` exchanges; `who` says which of them begins each. -/
def exchanges (who : Nat → Bool) (a b : Records) : Nat → Records × Records
  | 0 => (a, b)
  | n + 1 =>
    let (a', b') := exchanges who a b n
    if who n then exchange xxh3 pid keys a' b' else (exchange xxh3 pid keys b' a').swap

end Ae

end Marekvs
