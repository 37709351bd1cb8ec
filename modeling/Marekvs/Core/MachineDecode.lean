import Marekvs.Engine.Store
import Marekvs.Lib.Machine

/-!
# The decoders as the machine runs them

The decoders of internal keys, element records and document paths compute positions as 64-bit words and slice at them: a sum that
does not fit wraps, and a slice out of bounds is a panic. `parseMachine` and `decodeMachine` are `Ikey.parse` and
`ElementState.decode` in this form. JSON and protobuf paths share the outer loop: a JSON field slices its name out, a protobuf
field asks for it with `get`.
-/

namespace Marekvs

open Machine

/-! ## Internal keys -/

variable (ikey : Bytes)

/-- `ikey::parse`. -/
def Ikey.parseMachine : Except Panic (Option ParsedKey) :=
  if ikey.length < 3 then .ok none
  else do
    let pid ← slice ikey 0 2
    let tagByte ← index ikey 2
    let rest ← slice ikey 3 ikey.length
    match Tag.ofByte tagByte with
    | none => .ok none
    | some tag =>
      if tag.isSimple then .ok (some ⟨Bytes.toU16 pid, tag, rest, []⟩)
      else
        match Bytes.getVarint rest with
        | none => .ok none
        | some (klen, n) =>
          if rest.length < add n klen then .ok none
          else do
            let userkey ← slice rest n (add n klen)
            let suffix ← slice rest (add n klen) rest.length
            .ok (some ⟨Bytes.toU16 pid, tag, userkey, suffix⟩)

/-- The key length, where the decoder reads one, and the bytes in front of it add up to a 64-bit number. -/
def Ikey.lengthFits : Bool :=
  match ikey.drop 2 with
  | [] => true
  | tagByte :: rest =>
    match Tag.ofByte tagByte with
    | none => true
    | some tag => tag.isSimple || (Bytes.getVarint rest).all fun (klen, n) => n + klen < 2 ^ 64

/-! ## Element records -/

namespace ElementState

def dotAt (payload : Bytes) (pos : Nat) : Except Panic Dot := do
  let origin ← slice payload pos (add pos 2)
  let hlc ← slice payload (add pos 2) (add pos 10)
  .ok ⟨Bytes.toU64 hlc, Bytes.toU16 origin⟩

/-- `n` live entries from a position on, and the position behind them. -/
def decodeLiveMachine (payload : Bytes) : Nat → Nat → Except Panic (Option (List (Dot × Bytes) × Nat))
  | 0, pos => .ok (some ([], pos))
  | n + 1, pos =>
    if payload.length < add pos 10 then .ok none
    else do
      let dot ← dotAt payload pos
      let tail ← slice payload (add pos 10) payload.length
      match Bytes.getVarint tail with
      | none => .ok none
      | some (vlen, adv) =>
        let pos := add (add pos 10) adv
        if payload.length < add pos vlen then .ok none
        else do
          let value ← slice payload pos (add pos vlen)
          let more ← decodeLiveMachine payload n (add pos vlen)
          .ok (more.map fun (live, pos) => ((dot, value) :: live, pos))

/-- `ElementState::decode`. -/
def decodeMachine (payload : Bytes) : Except Panic (Option ElementState) :=
  match payload with
  | [] => .ok none
  | nlive :: _ => do
    match ← decodeLiveMachine payload nlive.toNat 1 with
    | none => .ok none
    | some (live, pos) =>
      match payload[pos]? with
      | none => .ok none
      | some ncov =>
        let pos := add pos 1
        if payload.length < add pos (ncov.toNat * 10) then .ok none
        else do
          let covered ← (List.range ncov.toNat).mapM fun i => dotAt payload (add pos (i * 10))
          .ok (some ⟨live, covered⟩)

/-- Every value length that the decoder reaches adds up with its position to a 64-bit number; `rest` are the bytes from `pos`
on. -/
def liveFits : Nat → Nat → Bytes → Bool
  | 0, _, _ => true
  | n + 1, pos, rest =>
    rest.length < 10 ||
      match Bytes.getVarint (rest.drop 10) with
      | none => true
      | some (vlen, adv) =>
        let body := (rest.drop 10).drop adv
        pos + 10 + adv + vlen < 2 ^ 64 && (body.length < vlen || liveFits n (pos + 10 + adv + vlen) (body.drop vlen))

/-- The same of a whole payload. -/
def lengthsFit : Bytes → Bool
  | [] => true
  | nlive :: rest => liveFits nlive.toNat 1 rest

end ElementState

/-! ## Paths -/

/-- The id of an array element. -/
structure Eid where
  hlc : UInt64
  origin : NodeId
  deriving DecidableEq, Repr

/-- `Eid::decode`. -/
def Eid.decode (b : Bytes) : Option Eid :=
  if b.length < 10 then none else some ⟨Bytes.toU64 (b.take 8), Bytes.toU16 ((b.drop 8).take 2)⟩

namespace DocPath

def SEG_FIELD : UInt8 := 1

def SEG_ELEM : UInt8 := 2

def SEG_MAPKEY : UInt8 := 3

section Walk

variable {S : Type} (decodeSeg : Bytes → Except Panic (Option (S × Nat))) (path : Bytes)

/-- The segments of a path from a position on, each with the position it starts at. A segment takes at least a byte, so the
length of the path is enough `fuel`; without fuel a path with something left would be a panic. -/
def walk : Nat → Nat → Except Panic (Option (List (Nat × S)))
  | 0, pos => if pos < path.length then .error .bounds else .ok (some [])
  | fuel + 1, pos =>
    if pos < path.length then do
      let rest ← slice path pos path.length
      match ← decodeSeg rest with
      | none => .ok none
      | some (seg, n) => do
        let more ← walk fuel (add pos n)
        .ok (more.map ((pos, seg) :: ·))
    else .ok (some [])

/-- `decode_path`. -/
def decodePath : Except Panic (Option (List S)) := do
  let segs ← walk decodeSeg path path.length 0
  .ok (segs.map (List.map Prod.snd))

/-- `split_last`: the bytes before the last segment, and that segment. -/
def splitLast : Except Panic (Option (Bytes × S)) := do
  let segs ← walk decodeSeg path path.length 0
  match segs.bind List.getLast? with
  | none => .ok none
  | some (start, seg) => do
    let parent ← slice path 0 start
    .ok (some (parent, seg))

end Walk

end DocPath

/-- A segment of a JSON path. -/
inductive JsonSeg where
  | field (name : Bytes)
  | elem (e : Eid)
  deriving DecidableEq, Repr

namespace JsonSeg

open DocPath

/-- `json::decode_seg`. -/
def decodeSeg (buf : Bytes) : Except Panic (Option (JsonSeg × Nat)) :=
  match buf with
  | [] => .ok none
  | tag :: body =>
    if tag = SEG_FIELD then
      match Bytes.getVarint body with
      | none => .ok none
      | some (len, n) =>
        if buf.length < add (add 1 n) len then .ok none
        else do
          let name ← slice buf (add 1 n) (add (add 1 n) len)
          .ok (some (.field name, add (add 1 n) len))
    else if tag = SEG_ELEM then .ok ((Eid.decode body).map fun e => (.elem e, 11))
    else .ok none

/-- Every field length that the walk over a path reaches adds up with the bytes in front of it to a 64-bit number. -/
def lengthsFit : Nat → Bytes → Bool
  | 0, _ => true
  | _, [] => true
  | fuel + 1, tag :: body =>
    if tag = SEG_FIELD then
      match Bytes.getVarint body with
      | none => true
      | some (len, n) => 1 + n + len < 2 ^ 64 && (body.length < n + len || lengthsFit fuel (body.drop (n + len)))
    else if tag = SEG_ELEM then body.length < 10 || lengthsFit fuel (body.drop 10)
    else true

/-- The same of a whole path. -/
def pathFits (path : Bytes) : Bool := lengthsFit path.length path

end JsonSeg

/-- The key of a protobuf map entry. -/
inductive MKey where
  | bool (b : Bool)
  | i32 (n : Int32)
  | i64 (n : Int64)
  | u32 (n : UInt32)
  | u64 (n : UInt64)
  | str (s : Bytes)
  deriving DecidableEq, Repr

/-- `MKey::decode_body`. -/
def MKey.decodeBody : Bytes → Option MKey
  | [] => none
  | kind :: rest =>
    if kind = 1 then if rest = [0] then some (.bool false) else if rest = [1] then some (.bool true) else none
    else if kind = 2 then if rest.length = 4 then some (.i32 (UInt32.ofNat (Bytes.beNat rest)).toInt32) else none
    else if kind = 3 then if rest.length = 8 then some (.i64 (Bytes.toU64 rest).toInt64) else none
    else if kind = 4 then if rest.length = 4 then some (.u32 (UInt32.ofNat (Bytes.beNat rest))) else none
    else if kind = 5 then if rest.length = 8 then some (.u64 (Bytes.toU64 rest)) else none
    else if kind = 6 then some (.str rest)
    else none

/-- A segment of a protobuf path. -/
inductive ProtoSeg where
  | field (number : UInt32)
  | mapKey (key : MKey)
  | elem (e : Eid)
  deriving DecidableEq, Repr

namespace ProtoSeg

open DocPath

/-- `pdoc::decode_seg`. -/
def decodeSeg (buf : Bytes) : Except Panic (Option (ProtoSeg × Nat)) :=
  match buf with
  | [] => .ok none
  | tag :: body =>
    if tag = SEG_FIELD ∨ tag = SEG_MAPKEY then
      match Bytes.getVarint body with
      | none => .ok none
      | some (len, n) =>
        match range? buf (add 1 n) (add (add 1 n) len) with
        | none => .ok none
        | some window =>
          if tag = SEG_FIELD then
            match Bytes.getVarint window with
            | none => .ok none
            | some (num, used) =>
              if used ≠ len ∨ 2 ^ 32 ≤ num then .ok none else .ok (some (.field (UInt32.ofNat num), add (add 1 n) len))
          else .ok ((MKey.decodeBody window).map fun key => (.mapKey key, add (add 1 n) len))
    else if tag = SEG_ELEM then .ok ((Eid.decode body).map fun e => (.elem e, 11))
    else .ok none

end ProtoSeg

/-! ## Merging and writing what arrives -/

/-- `merge_values`. -/
def mergeValuesMachine (localRec incoming : Bytes) : Except Panic MergeOutcome :=
  match Envelope.decode localRec, Envelope.decode incoming with
  | none, _ => .ok .takeIncoming
  | some _, none => .ok .keepLocal
  | some (lenv, lpay), some (ienv, ipay) =>
    if lenv.rtype = .counter ∧ ienv.rtype = .counter ∧ !lenv.isTombstone ∧ !ienv.isTombstone then
      .ok (mergeCounters lenv lpay ienv ipay localRec incoming)
    else if lenv.rtype = .hllRegister ∧ ienv.rtype = .hllRegister ∧ !lenv.isTombstone ∧ !ienv.isTombstone then
      .ok (mergeHllRegisters lenv lpay ienv ipay)
    else if ienv.isHead ∨ lenv.isHead ∨ !ienv.rtype.isOrElement then .ok (mergeLww lenv ienv)
    else do
      let l ← ElementState.decodeMachine lpay
      let i ← ElementState.decodeMachine ipay
      match l, i with
      | some l, some i => .ok (mergeElements lenv l ienv i localRec incoming)
      | _, _ => .ok (mergeLww lenv ienv)

/-- The payloads that a merge decodes as elements have lengths that fit. -/
def mergeFits (localRec incoming : Bytes) : Bool :=
  match Envelope.decode localRec, Envelope.decode incoming with
  | some (lenv, lpay), some (ienv, ipay) =>
    if lenv.rtype = .counter ∧ ienv.rtype = .counter ∧ !lenv.isTombstone ∧ !ienv.isTombstone then true
    else if lenv.rtype = .hllRegister ∧ ienv.rtype = .hllRegister ∧ !lenv.isTombstone ∧ !ienv.isTombstone then true
    else if ienv.isHead ∨ lenv.isHead ∨ !ienv.rtype.isOrElement then true
    else ElementState.lengthsFit lpay && ElementState.lengthsFit ipay
  | _, _ => true

/-- Whether a value is a tombstone without a deadline. -/
def isBareTombstone (value : Bytes) : Bool :=
  (Envelope.decode value).any fun (env, _) => env.isTombstone && env.ttlDeadlineMs == 0

/-- `onda_ttl_for_keyed`, as far as it depends on the key: whether the value is a tombstone that anchors array elements, which
is kept for good. -/
def anchorsElements (ikey value : Bytes) : Except Panic Bool :=
  if isBareTombstone value then do
    match ← Ikey.parseMachine ikey with
    | none => .ok false
    | some p =>
      if p.tag = .json then do
        let last ← DocPath.splitLast JsonSeg.decodeSeg p.suffix
        .ok (last.any fun (_, seg) => match seg with | .elem _ => true | _ => false)
      else if p.tag = .protoField then do
        let last ← DocPath.splitLast ProtoSeg.decodeSeg p.suffix
        .ok (last.any fun (_, seg) => match seg with | .elem _ => true | _ => false)
      else .ok false
  else .ok false

/-- The merge of a key's records. -/
def mergeAtMachine (ikey localRec incoming : Bytes) : Except Panic MergeOutcome := do
  match ← Ikey.parseMachine ikey with
  | some p =>
    match p.tag, p.suffix with
    | .budget, kind :: _ => .ok (mergeBudget kind localRec incoming)
    | _, _ => mergeValuesMachine localRec incoming
  | none => mergeValuesMachine localRec incoming

/-- Store a value; the key is taken apart again afterwards, for the cursor of a set. -/
def storeMachine (ikey value : Bytes) : Except Panic Bytes := do
  let _ ← anchorsElements ikey value
  let _ ← Ikey.parseMachine ikey
  .ok value

/-- `write_merged`: the value that is stored afterwards. -/
def writeMergedMachine (stored : Option Bytes) (incoming : Bytes) : Except Panic Bytes :=
  match stored with
  | none => storeMachine ikey incoming
  | some localRec => do
    match ← mergeAtMachine ikey localRec incoming with
    | .keepLocal => .ok localRec
    | outcome => storeMachine ikey (resolve localRec incoming outcome)

/-- The path of a JSON node's key, where the key has one, has lengths that fit. -/
def jsonPathFits : Bool := (Ikey.parse ikey).all fun p => p.tag ≠ .json || JsonSeg.pathFits p.suffix

/-- What arrives for a key, and what the key holds, have lengths that fit: the key's own length, the payloads that are merged as
elements, and the path of a JSON node under which a tombstone without a deadline is stored. -/
def writeFits (stored : Option Bytes) (incoming : Bytes) : Bool :=
  Ikey.lengthFits ikey &&
    match stored with
    | none => !isBareTombstone incoming || jsonPathFits ikey
    | some localRec =>
      ((budgetKind ikey).isSome || mergeFits localRec incoming) &&
        (mergeAt ikey localRec incoming = .keepLocal || !isBareTombstone (writeMergedAt ikey stored incoming) ||
          jsonPathFits ikey)

end Marekvs
