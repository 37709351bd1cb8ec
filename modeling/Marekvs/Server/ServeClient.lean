import Marekvs.Resp.Parser
import Marekvs.Server.Pipeline

/-!
# A client's connection

What the socket gives is fed to the parser, and all complete commands are taken out before the first of them is run. If the parser
fails in the course of it, the client is told so and the connection is over: the commands taken out in the same read are not run.
-/

namespace Marekvs

open Resp (ascii RespParser RespError ReplyBuf)

/-- What a connection runs its commands on; `S` is the session and the engine behind it. -/
structure ClientOps (S : Type) where
  /-- one command: its reply, and whether the session is to be closed -/
  dispatch : List Bytes → S → S × Bytes × Bool
  /-- authenticated, without transaction and without subscriptions -/
  batching : S → Bool
  /-- commands side by side: their replies in the order of the commands -/
  dispatchData : List (List Bytes) → S → S × List Bytes

/-- A connection: the commands it has run, what it has written, and whether it is over. -/
structure Client (S : Type) where
  state : S
  ran : List (List Bytes)
  out : Bytes
  closed : Bool

/-- How an error of the parser prints. -/
def debugError : RespError → Bytes
  | .protocol why => ascii "Protocol(" ++ [34] ++ ascii why ++ [34] ++ ascii ")"
  | .tooLarge => ascii "TooLarge"

namespace Client

variable {S : Type} (ops : ClientOps S)

def dispatch (args : List Bytes) (c : Client S) : Client S :=
  let (state, reply, closed) := ops.dispatch args c.state
  ⟨state, c.ran ++ [args], c.out ++ reply, closed⟩

def batch (cmds : List (List Bytes)) (c : Client S) : Client S :=
  let (state, replies) := ops.dispatchData cmds c.state
  ⟨state, c.ran ++ cmds, c.out ++ replies.flatten, false⟩

/-- The commands of one read; each turn takes at least one of them, so `fuel` may be their number. -/
def runPending : Nat → List (List Bytes) → Client S → Client S
  | 0, _, c => c
  | _, [], c => c
  | fuel + 1, args :: pending, c =>
    if ops.batching c.state ∧ pending ≠ [] ∧ isBatchable args then
      match takeBatch args.tail pending with
      | ([], rest) => runPending fuel rest { dispatch ops args c with closed := false }
      | (cmds, rest) => runPending fuel rest (batch ops (args :: cmds) c)
    else
      let c := dispatch ops args c
      if c.closed then c else runPending fuel pending c

/-- The parser has failed: the client is told, and the connection is over. -/
def fail (e : RespError) (c : Client S) : Client S :=
  { c with out := c.out ++ ((ReplyBuf.new false).error (ascii "ERR Protocol error: " ++ debugError e)).buf, closed := true }

def serveRead (s : RespParser × Client S) (chunk : Bytes) : RespParser × Client S :=
  if s.2.closed then s
  else
    match (s.1.feed chunk).drain with
    | (p, _, some e) => (p, s.2.fail e)
    | (p, pending, none) => (p, runPending ops pending.length pending s.2)

/-- A connection whose input comes in these reads. -/
def serve (chunks : List Bytes) (state : S) : Client S :=
  (chunks.foldl (serveRead ops) (RespParser.new, ⟨state, [], [], false⟩)).2

/-- One command after the other, until one closes the session. -/
def each : List (List Bytes) → Client S → Client S
  | [], c => c
  | args :: cmds, c =>
    let c := dispatch ops args c
    if c.closed then c else each cmds c

/-- What a client that sends these bytes is owed: all complete commands are run and answered, then the error is reported. -/
def owed (stream : Bytes) (state : S) : Client S :=
  let (cmds, e) := (RespParser.run [stream]).2
  let c := each ops cmds ⟨state, [], [], false⟩
  if c.closed then c else e.elim c c.fail

end Client

end Marekvs
