import Marekvs.Engine.Store

/-!
# String keys

The commands on one string key, on the value stored under it: SET writes blindly, DEL and EXPIRE write through the merge what they
find visible, and INCR and its relatives fold the visible record into a counter, bump the node's slot and write the result through
the merge. The key holds no collection.
-/

namespace Marekvs

/-- A fresh last-writer-wins record. -/
def newLww (t : RecordType) (hlc : UInt64) (node : NodeId) (payload : Bytes) (ttl : UInt64) : Bytes :=
  ((Envelope.new t hlc node).withTtl ttl).encodeWith payload

/-- SET: what is stored, whatever was there. -/
def writeString (hlc : UInt64) (node : NodeId) (value : Bytes) (ttl : UInt64) : Bytes := newLww .string hlc node value ttl

variable (stored : Option Bytes)

/-- DEL: the tombstone written through the merge; nothing is written where nothing is visible. -/
def delString (hlc : UInt64) (node : NodeId) (now : UInt64) : Option Bytes :=
  (readLww stored 0 now).map fun _ => writeMerged stored ((Envelope.tombstone .string hlc node).encodeWith [])

/-- EXPIRE: the visible record again, with a fresh version and the new deadline. A counter stays a counter. -/
def setDeadline (hlc : UInt64) (node : NodeId) (deadline now : UInt64) : Option Bytes :=
  (readLww stored 0 now).map fun p =>
    writeMerged stored (newLww (if p.1.rtype = .counter then .counter else .string) hlc node p.2 deadline)

/-- Why INCR was refused. -/
inductive IncrByError where
  | notInt
  | wouldOverflow
  deriving DecidableEq, Repr

/-- The text of the reply. -/
def IncrByError.message : IncrByError → String
  | notInt => "ERR value is not an integer or out of range"
  | wouldOverflow => "ERR increment or decrement would overflow"

/-- The increment of INCR, DECR, INCRBY and DECRBY: the argument, or 1, times the sign, in 64-bit arithmetic. -/
def incrDelta (arg : Option Bytes) (sign : Int64) : Option Int64 :=
  match arg with
  | none => some (1 * sign)
  | some text => (parseI64 text).map (· * sign)

/-- The counter an increment starts from: the visible counter, the visible text as a base under its own version, or the empty
counter. -/
def stringBase (existing : Option (Envelope × Bytes)) : Except IncrByError CounterState :=
  match existing with
  | none => .ok (CounterState.onBase 0 0 0)
  | some (env, payload) =>
    if env.rtype = .counter then
      match CounterState.decode payload with
      | some c => .ok c
      | none => .error .notInt
    else
      match parseI64 (trim payload) with
      | some n => .ok (CounterState.onBase env.hlc env.origin n)
      | none => .error .notInt

/-- INCR and its relatives: the new value and what is stored. -/
def incrBy (hlc : UInt64) (node : NodeId) (delta : Int64) (now : UInt64) :
    Except IncrByError (Int64 × Bytes) :=
  let existing := readLww stored 0 now
  match stringBase existing with
  | .error e => .error e
  | .ok base =>
    let state := base.bump node delta
    match state.value with
    | none => .error .wouldOverflow
    | some new =>
      let keepTtl := (existing.map fun p => p.1.ttlDeadlineMs).getD 0
      .ok (new, writeMerged stored (newLww .counter hlc node state.encode keepTtl))

/-- GET: the visible text, or a counter's value in decimal. -/
def getString (now : UInt64) : Option Bytes :=
  match readLww stored 0 now with
  | none => none
  | some (env, payload) =>
    if env.rtype = .counter then ((CounterState.decode payload).bind CounterState.value).map formatI64 else some payload

end Marekvs
