import Marekvs.Core.Counter
import Marekvs.Lib.Desc

/-!
# Element records

The record of a hash field, a set member or a sorted-set member is an observed-remove element: the live add identities, each with
the value it wrote, and the identities that removes have covered, both newest first and capped. Entry 0 of the live list is the
value a reader sees; a record with no live entry is a tombstone. A counter-valued hash field has counter states for values, and a
reader folds those of all live dots.

The source's decoder computes positions in machine words: a length field close to `2 ^ 64` makes it panic where `decodeLive` finds
that the bytes are not there.
-/

namespace Marekvs

open Desc

def MAX_LIVE_DOTS : Nat := 4

def MAX_TOMB_DOTS : Nat := 255

/-- The payload of an element record. -/
structure ElementState where
  live : List (Dot × Bytes)
  covered : List Dot
  deriving DecidableEq, Repr

namespace ElementState

variable (st : ElementState)

def isDead : Bool := st.live.isEmpty

/-- The visible value: that of the newest live add. -/
def value : Option Bytes := st.live.head?.map Prod.snd

def dots : List Dot := st.live.map Prod.fst

/-- Sort, drop repeats and cut the covered list; sort and drop repeated dots of the live list, take the covered ones out, cut
it. -/
def normalize : ElementState :=
  let covered := (dedupKey id (sortDesc id st.covered)).take MAX_TOMB_DOTS
  let live := (dedupKey Prod.fst (sortDesc Prod.fst st.live)).filter fun e => e.1 ∉ covered
  ⟨live.take MAX_LIVE_DOTS, covered⟩

def encodeDot (d : Dot) : Bytes := Bytes.ofU16 d.origin ++ Bytes.ofU64 d.hlc

/-- A live entry: dot, length, value. -/
def encodeLive (e : Dot × Bytes) : Bytes := encodeDot e.1 ++ (Bytes.putVarint e.2.length ++ e.2)

def encode : Bytes :=
  UInt8.ofNat st.live.length :: (st.live.flatMap encodeLive ++
    UInt8.ofNat st.covered.length :: st.covered.flatMap encodeDot)

/-- The dot in the first ten bytes. -/
def decodeDot (bs : Bytes) : Dot := ⟨Bytes.toU64 ((bs.drop 2).take 8), Bytes.toU16 (bs.take 2)⟩

/-- Read `n` live entries, and return what follows them. -/
def decodeLive : Nat → Bytes → Option (List (Dot × Bytes) × Bytes)
  | 0, rest => some ([], rest)
  | n + 1, rest =>
    if rest.length < 10 then none
    else
      match Bytes.getVarint (rest.drop 10) with
      | none => none
      | some (vlen, adv) =>
        let body := (rest.drop 10).drop adv
        if body.length < vlen then none
        else
          match decodeLive n (body.drop vlen) with
          | none => none
          | some (live, tail) => some ((decodeDot rest, body.take vlen) :: live, tail)

/-- Read `n` dots; the caller has checked that the bytes are there. -/
def decodeCovered : Nat → Bytes → List Dot
  | 0, _ => []
  | n + 1, rest => decodeDot rest :: decodeCovered n (rest.drop 10)

/-- Read a payload. -/
def decode : Bytes → Option ElementState
  | [] => none
  | nlive :: rest =>
    match decodeLive nlive.toNat rest with
    | none => none
    | some (_, []) => none
    | some (live, ncov :: tail) =>
      if tail.length < ncov.toNat * 10 then none else some ⟨live, decodeCovered ncov.toNat tail⟩

/-- The newest live entry of each origin: `seen` holds the origins already met. -/
def collapseFrom (seen : List NodeId) : List (Dot × Bytes) → List (Dot × Bytes)
  | [] => []
  | e :: live => if e.1.origin ∈ seen then collapseFrom seen live else e :: collapseFrom (e.1.origin :: seen) live

def collapsePerOrigin : ElementState := { st with live := collapseFrom [] st.live }

end ElementState

open ElementState

variable (t : RecordType)

/-- The canonical record of an element state: the state is normalised first, and the tombstone flag says that nothing is live. -/
def encodeElement (version : Version) (ttl : UInt64) (state : ElementState) : Bytes :=
  let st := state.normalize
  Envelope.encodeWith ⟨Envelope.flagsOf t st.isDead, version.hlc, version.origin, ttl⟩ st.encode

/-- A fresh add with a dot of the caller's choice. -/
def elementAddWithDot (hlc : UInt64) (origin : NodeId) (dot : Dot) (value : Bytes) : Bytes :=
  encodeElement t ⟨hlc, origin⟩ 0 ⟨[(dot, value)], []⟩

def elementAdd (hlc : UInt64) (origin : NodeId) (value : Bytes) : Bytes :=
  elementAddWithDot t hlc origin ⟨hlc, origin⟩ value

/-- A fresh add with a TTL deadline. -/
def elementAddTtl (hlc : UInt64) (origin : NodeId) (value : Bytes) (ttl : UInt64) : Bytes :=
  encodeElement t ⟨hlc, origin⟩ ttl ⟨[(⟨hlc, origin⟩, value)], []⟩

def elementRemove (hlc : UInt64) (origin : NodeId) (observed : List Dot) : Bytes :=
  encodeElement t ⟨hlc, origin⟩ 0 ⟨[], observed⟩

def elementValue (payload : Bytes) : Option Bytes := (decode payload).bind ElementState.value

/-- The live dots in a payload: what a remove observes. -/
def elementDots (payload : Bytes) : List Dot := ((decode payload).map ElementState.dots).getD []

/-- A live value read as a counter: it must be a counter's canonical bytes, with a slot. -/
def asCounter (value : Bytes) : Option CounterState :=
  match CounterState.decode value with
  | none => none
  | some c => if c.slots ≠ [] ∧ c.encode = value then some c else none

/-- The merge of the counter states among the live values, newest first. -/
def foldCounters (live : List (Dot × Bytes)) : Option CounterState :=
  live.foldl (fun folded e =>
    match asCounter e.2 with
    | none => folded
    | some c =>
      match folded with
      | none => some c
      | some acc => some (CounterState.merge acc c)) none

def counterFieldState (payload : Bytes) : Option CounterState := (decode payload).bind fun st => foldCounters st.live

/-- The number a counter field shows. -/
def counterFieldValue (payload : Bytes) : Option Int64 := (counterFieldState payload).bind CounterState.value

/-- The record of an increment: a fresh dot of this node on top of the prior state, one entry for each node. -/
def counterFieldSet (hlc : UInt64) (origin : NodeId) (prior : Option Bytes) (mine : Bytes) : Bytes :=
  let st := (prior.bind decode).getD ⟨[], []⟩
  let st := ElementState.normalize ⟨st.live ++ [(⟨hlc, origin⟩, mine)], st.covered⟩
  encodeElement .counterField ⟨hlc, origin⟩ 0 st.collapsePerOrigin

end Marekvs
