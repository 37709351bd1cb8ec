import Marekvs.Core.Budget
import Marekvs.Core.Hlc
import Marekvs.Core.Decimal

/-!
# Reading and writing one internal key

`writeMerged` is how every element write and every replicated record gets into the store: an absent value is stored as it comes, a
present one is merged with it. What a reader may see of a stored value is decided by `visible`.
-/

namespace Marekvs

/-- The value stored after `incoming` is written through the merge. -/
def writeMerged (stored : Option Bytes) (incoming : Bytes) : Bytes :=
  match stored with
  | none => incoming
  | some localRec => mergeResolve localRec incoming

/-- The value stored under a key after `incoming` is written through the key's merge. -/
def writeMergedAt (ikey : Bytes) (stored : Option Bytes) (incoming : Bytes) : Bytes :=
  match stored with
  | none => incoming
  | some localRec => resolve localRec incoming (mergeAt ikey localRec incoming)

/-- Whether a record may be seen: not a tombstone, not expired, newer than the collection's delete clock. -/
def visible (env : Envelope) (delHlc now : UInt64) : Bool := !(env.isTombstone ∨ env.isExpired now ∨ env.hlc ≤ delHlc)

/-- The visible record under a key, with its envelope. -/
def readLww (stored : Option Bytes) (delHlc now : UInt64) : Option (Envelope × Bytes) :=
  match stored.bind Envelope.decode with
  | none => none
  | some (env, payload) => if visible env delHlc now then some (env, payload) else none

end Marekvs
