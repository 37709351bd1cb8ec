import Marekvs.Lib.Run
import Marekvs.Server.ServeClient
import Marekvs.Theorems.RespParser

/-!
# Reads of a socket

How a client's bytes are cut into reads makes a difference in two ways. Where the parser fails, the commands that were completed
in the same read are lost: they are neither run nor answered. And what is completed in one read may be served side by side,
which need not be what the commands do one after the other.
-/

namespace Marekvs

open List

open Resp (ascii RespParser RespError parseCommand parseCommand_stable)

open Resp.RespParser (commands)

open Incremental (parse)

/-- The commands of the reads before the one in which the parser fails, those of that read, and the failure. -/
def Resp.RespParser.cut (p : RespParser) : List Bytes → List (List Bytes) × List (List Bytes) × Option RespError
  | [] => ([], [], none)
  | chunk :: chunks =>
    match (p.feed chunk).drain with
    | (_, cmds, some e) => ([], cmds, some e)
    | (p, cmds, none) =>
      let r := cut p chunks
      (cmds ++ r.1, r.2)

/-- The two parts are the commands of the whole input, however it was cut. -/
theorem cut_spec (chunks : List Bytes) : ∀ {p : RespParser}, p.Valid → parseCommand p.unread = .ok none →
    (p.cut chunks).1 ++ (p.cut chunks).2.1 = commands (parse parseCommand (p.unread ++ chunks.flatten)).1 ∧
      (p.cut chunks).2.2 = (parse parseCommand (p.unread ++ chunks.flatten)).2.2 := by
  induction chunks with
  | nil =>
    intro p _ hidle
    rw [flatten_nil, append_nil, parseCommand_stable.parse_none hidle]
    exact ⟨rfl, rfl⟩
  | cons chunk chunks ih =>
    intro p hp _
    obtain ⟨hcmds, hrest, hvalid⟩ := RespParser.drain_spec (RespParser.valid_feed hp chunk)
    rw [RespParser.unread_feed hp] at hcmds hrest
    have hstep := parseCommand_stable.step_rest (p.unread ++ chunk)
    rw [flatten_cons, ← append_assoc, parseCommand_stable.parse_append, commands, filter_append]
    rw [← hrest] at hstep ⊢
    unfold RespParser.cut
    generalize (p.feed chunk).drain = d at hcmds hrest hvalid hstep
    obtain ⟨p', cmds, e⟩ := d
    dsimp only at hcmds hvalid hstep ⊢
    rw [hcmds]
    cases e with
    | some e =>
      dsimp only at hstep ⊢
      rw [parseCommand_stable.parse_error (parseCommand_stable.extend_error hstep _)]
      exact ⟨(append_nil _).symm, rfl⟩
    | none =>
      obtain ⟨hc, he⟩ := ih hvalid hstep
      dsimp only
      rw [append_assoc, hc]
      exact ⟨rfl, he⟩

namespace Client

variable {S : Type} {ops : ClientOps S}

theorem each_append (as bs : List (List Bytes)) (c : Client S) (hc : c.closed = false) :
    each ops (as ++ bs) c = if (each ops as c).closed then each ops as c else each ops bs (each ops as c) := by
  induction as generalizing c with
  | nil => simp [each, hc]
  | cons args as ih =>
    rw [cons_append, each, each]
    split
    · rfl
    · rename_i h
      exact ih _ (Bool.eq_false_iff.2 h)

/-- Running commands is never without a trace. -/
theorem length_ran_lt (hne : cmds ≠ []) (c : Client S) : c.ran.length < (each ops cmds c).ran.length := by
  induction cmds generalizing c with
  | nil => exact absurd rfl hne
  | cons args cmds ih =>
    have hone : (dispatch ops args c).ran.length = c.ran.length + 1 := by simp [dispatch]
    rw [each]
    split
    · omega
    cases cmds with
    | nil => exact Nat.lt_of_lt_of_eq (Nat.lt_succ_self _) hone.symm
    | cons b cmds =>
      have := ih (cons_ne_nil _ _) (dispatch ops args c)
      omega

/-- What is done with a batch: a command that nothing joins is dispatched, and more are served side by side. -/
def turn (ops : ClientOps S) (args : List Bytes) (cmds : List (List Bytes)) (c : Client S) : Client S :=
  if cmds = [] then { dispatch ops args c with closed := false } else batch ops (args :: cmds) c

/-- The batches that the commands of one read form do what their commands do one after the other, in the states they are met in.
-/
def InOrder (ops : ClientOps S) : Nat → List (List Bytes) → Client S → Prop
  | 0, _, _ => True
  | _, [], _ => True
  | fuel + 1, args :: pending, c =>
    if ops.batching c.state ∧ pending ≠ [] ∧ isBatchable args then
      turn ops args (takeBatch args.tail pending).1 c = each ops (args :: (takeBatch args.tail pending).1) c ∧
        InOrder ops fuel (takeBatch args.tail pending).2 (turn ops args (takeBatch args.tail pending).1 c)
    else InOrder ops fuel pending (dispatch ops args c)

/-- The same of a read, if the parser does not fail in it. -/
def ReadInOrder (ops : ClientOps S) (s : RespParser × Client S) (chunk : Bytes) : Prop :=
  ((s.1.feed chunk).drain).2.2 = none → InOrder ops ((s.1.feed chunk).drain).2.1.length ((s.1.feed chunk).drain).2.1 s.2

theorem runPending_eq {fuel : Nat} {pending : List (List Bytes)} {c : Client S} (hin : InOrder ops fuel pending c)
    (hlen : pending.length ≤ fuel) (hc : c.closed = false) : runPending ops fuel pending c = each ops pending c := by
  induction fuel generalizing pending c with
  | zero =>
    rw [eq_nil_of_length_eq_zero (Nat.le_zero.1 hlen)]
    rfl
  | succ fuel ih =>
    cases pending with
    | nil => rfl
    | cons args pending =>
      rw [length_cons] at hlen
      rw [runPending]
      rw [InOrder] at hin
      split at hin
      · rename_i hbatch
        rw [if_pos hbatch]
        have happ := takeBatch_append args.tail pending
        generalize takeBatch args.tail pending = tb at happ hin
        obtain ⟨cmds, rest⟩ := tb
        dsimp only at happ hin
        obtain ⟨heach, hin⟩ := hin
        have hopen : (turn ops args cmds c).closed = false := by
          unfold turn
          split <;> rfl
        have hrest := ih hin (by rw [← happ, length_append] at hlen; omega) hopen
        rw [← happ, ← cons_append, each_append _ _ _ hc, ← heach, if_neg (by simp [hopen]), ← hrest]
        cases cmds <;> rfl
      · rename_i hsingle
        rw [if_neg hsingle, each]
        dsimp only
        split
        · rfl
        · rename_i h
          exact ih hin (by omega) (Bool.eq_false_iff.2 h)

/-- What the reads of a socket do. -/
theorem foldl_serveRead (chunks : List Bytes) {p : RespParser} {c : Client S}
    (hin : Run.Always (serveRead ops) (ReadInOrder ops) (p, c) chunks) (hc : c.closed = false) :
    (chunks.foldl (serveRead ops) (p, c)).2 = if (each ops (p.cut chunks).1 c).closed then each ops (p.cut chunks).1 c
      else (p.cut chunks).2.2.elim (each ops (p.cut chunks).1 c) (each ops (p.cut chunks).1 c).fail := by
  have hclosed : ∀ (chunks : List Bytes) (s : RespParser × Client S), s.2.closed = true → chunks.foldl (serveRead ops) s = s := by
    intro chunks s hs
    induction chunks with
    | nil => rfl
    | cons chunk chunks ih => rw [foldl_cons, serveRead, if_pos hs, ih]
  induction chunks generalizing p c with
  | nil => simp [RespParser.cut, each, hc]
  | cons chunk chunks ih =>
    obtain ⟨hread, hin⟩ := hin
    rw [ReadInOrder] at hread
    rw [serveRead, if_neg (by simp [hc])] at hin
    rw [foldl_cons, serveRead, if_neg (by simp [hc]), RespParser.cut]
    generalize (p.feed chunk).drain = d at hread hin
    obtain ⟨p', cmds, e⟩ := d
    cases e with
    | some e =>
      dsimp only
      rw [hclosed _ _ rfl]
      simp [each, hc]
    | none =>
      dsimp only
      dsimp only at hin
      rw [runPending_eq (hread rfl) le_rfl hc] at hin ⊢
      rw [each_append _ _ _ hc]
      cases hrun : (each ops cmds c).closed with
      | true =>
        rw [hclosed _ _ hrun]
        simp [hrun]
      | false =>
        rw [ih hin hrun]
        simp

end Client

/-- An engine that answers every command with the same text, and serves side by side what it can. -/
def echoOps : ClientOps Unit :=
  ⟨fun _ s => (s, ascii "+OK", false), fun _ => true, fun cmds s => (s, cmds.map fun _ => ascii "+OK")⟩

end Marekvs
