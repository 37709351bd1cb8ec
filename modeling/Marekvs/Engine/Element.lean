import Marekvs.Engine.Store

/-!
# Set members and hash fields

The commands that write one element: SADD and HSET add a fresh dot, SREM and HDEL cover the dots they see, and HINCRBY keeps a
counter in the field. Each is modelled on the value stored under the element's key, with the clock readings it takes as
arguments.
-/

namespace Marekvs

variable (stored : Option Bytes)

/-- A visible element payload with a live value. -/
def readElement (delHlc now : UInt64) : Option Bytes :=
  match readLww stored delHlc now with
  | none => none
  | some (_, payload) => if (elementValue payload).isSome then some payload else none

/-- The value that a client sees: a counter field shows its counter, anything else its newest value. -/
def elementDisplayValue (t : RecordType) (payload : Bytes) : Option Bytes :=
  if t = .counterField then ((counterFieldValue payload).map formatI64).or (elementValue payload) else elementValue payload

/-- HGET of one field. -/
def readField (delHlc now : UInt64) : Option Bytes :=
  (readLww stored delHlc now).bind fun e => elementDisplayValue e.1.rtype e.2

/-- Whether the element is there for a reader. -/
def memberExists (delHlc now : UInt64) : Bool := (readElement stored delHlc now).isSome

/-- A fresh add written through the merge. -/
def addElement (t : RecordType) (stored : Option Bytes) (hlc : UInt64) (node : NodeId) (value : Bytes) : Bytes :=
  writeMerged stored (elementAdd t hlc node value)

/-- The record of a remove of what is visible: it covers the live dots. There is none where nothing is visible. -/
def removal (t : RecordType) (stored : Option Bytes) (hlc : UInt64) (node : NodeId) (delHlc now : UInt64) : Option Bytes :=
  (readElement stored delHlc now).map fun payload => elementRemove t hlc node (elementDots payload)

/-- A remove written through the merge; nothing is written where nothing is visible. -/
def removeElement (t : RecordType) (stored : Option Bytes) (hlc : UInt64) (node : NodeId) (delHlc now : UInt64) :
    Option Bytes :=
  (removal t stored hlc node delHlc now).map (writeMerged stored)

/-- SADD of one member. -/
def addMember (hlc : UInt64) (node : NodeId) : Bytes := addElement .setMember stored hlc node []

/-- SREM of one member; nothing where it is not there. -/
def removeMember (hlc : UInt64) (node : NodeId) (delHlc now : UInt64) : Option Bytes :=
  removeElement .setMember stored hlc node delHlc now

/-- HSET of one field. -/
def writeField (hlc : UInt64) (node : NodeId) (value : Bytes) : Bytes :=
  addElement .hashField stored hlc node value

/-- HDEL of one field; nothing where it is not there. -/
def removeField (hlc : UInt64) (node : NodeId) (delHlc now : UInt64) : Option Bytes :=
  removeElement .hashField stored hlc node delHlc now

/-- Why an increment was refused. -/
inductive IncrError where
  | notInteger
  | wouldOverflow
  deriving DecidableEq, Repr

/-- The text of the reply. -/
def IncrError.message : IncrError → String
  | notInteger => "ERR hash value is not an integer"
  | wouldOverflow => "ERR increment or decrement would overflow"

/-- The counter an increment starts from, and the clock after it: the fold of the visible live dots, a plain value as a fresh
base stamped with a reading of its own, or the empty counter. -/
def counterBase (prior : Option Bytes) (clock wall : UInt64) (node : NodeId) : UInt64 × Except IncrError CounterState :=
  match prior with
  | none => (clock, .ok (CounterState.onBase 0 0 0))
  | some payload =>
    match counterFieldState payload with
    | some c => (clock, .ok c)
    | none =>
      match (elementValue payload).bind fun v => parseI64 (trim v) with
      | some cur => (Hlc.now clock wall, .ok (CounterState.onBase (Hlc.now clock wall) node cur))
      | none => (clock, .error .notInteger)

/-- The node's own slot on a counter, with an increment added: what it publishes on its own dot. -/
def ownEntry (folded : CounterState) (node : NodeId) (delta : Int64) : CounterState :=
  let own := (folded.slots.find? fun s => s.node = node).getD ⟨node, 0, 0⟩
  CounterState.bump ⟨folded.baseHlc, folded.baseOrigin, folded.base, [⟨node, own.pos, own.neg⟩]⟩ node delta

/-- HINCRBY of one field: the clock after it, and the new value with what is stored. The record is stamped with the clock's
reading; a refused increment writes nothing. -/
def incrCounterField (clock wall : UInt64) (node : NodeId) (delta : Int64) (delHlc now : UInt64) :
    UInt64 × Except IncrError (Int64 × Bytes) :=
  let prior := (readLww stored delHlc now).map Prod.snd
  match counterBase prior clock wall node with
  | (clock, .error e) => (clock, .error e)
  | (clock, .ok folded) =>
    match folded.value with
    | none => (clock, .error .notInteger)
    | some cur =>
      if -2 ^ 63 ≤ cur.toInt + delta.toInt ∧ cur.toInt + delta.toInt < 2 ^ 63 then
        let hlc := Hlc.now clock wall
        let incoming := counterFieldSet hlc node prior (ownEntry folded node delta).encode
        (hlc, .ok (Int64.ofInt (cur.toInt + delta.toInt), writeMerged stored incoming))
      else (clock, .error .wouldOverflow)

end Marekvs
