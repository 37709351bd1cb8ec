import Marekvs.Engine.Connection
import Marekvs.Lemmas.ReplyFrame

/-!
# One frame for each command

Every command that is run appends one frame, as long as the texts it was given and puts into an error or a status line hold no
line break: `Conn.quoted` lists them. The command's name alone is enough to bring a second frame into the reply.
-/

namespace Marekvs

open List Resp Services

variable {text : Bytes} {c : Command} {args : List Bytes}

/-! ## Replies and the texts they quote -/

/-- A sound reply whose lines are fit to be written exactly where the quoted texts are. -/
structure Quotes (texts : List Bytes) (r : Reply) : Prop where
  sound : r.Sound
  clean : (∀ t ∈ r.lines, Clean t) ↔ ∀ t ∈ texts, Clean t

theorem clean_mem_singleton : (∀ t ∈ [text], Clean t) ↔ Clean text := by
  rw [forall_mem_singleton]

theorem clean_mem_nil : ∀ t ∈ ([] : List Bytes), Clean t := nofun

theorem PlainReply.quotes (r : PlainReply) : Quotes [] r.reply :=
  ⟨r.sound, fun _ => clean_mem_nil, fun _ => r.clean⟩

theorem quotes_fixed (h : Clean text) : Quotes [] (.err text) :=
  ⟨trivial, fun _ => clean_mem_nil, fun _ => clean_mem_singleton.2 h⟩

theorem quotes_status (h : Clean text) : Quotes [] (.simple text) :=
  ⟨trivial, fun _ => clean_mem_nil, fun _ => clean_mem_singleton.2 h⟩

theorem quotes_err {before after shown : Bytes} (hbefore : Clean before) (hafter : Clean after)
    (hshown : Clean shown ↔ Clean text) : Quotes [text] (.err (before ++ shown ++ after)) := by
  refine ⟨trivial, ?_⟩
  show (∀ t ∈ [before ++ shown ++ after], Clean t) ↔ _
  rw [clean_mem_singleton, clean_mem_singleton, clean_append, clean_append, hshown]
  exact ⟨fun h => h.1.2, fun h => ⟨⟨hbefore, h⟩, hafter⟩⟩

theorem quotes_err_end {before : Bytes} (hbefore : Clean before) : Quotes [text] (.err (before ++ text)) := by
  have h := quotes_err hbefore clean_nil (Iff.refl (Clean text))
  rwa [append_nil] at h

theorem ProtoErr.quotes (e : ProtoErr) : Quotes e.what.toList e.reply := by
  cases e with
  | noSchema what => exact quotes_err_end (clean_ascii _ rfl)
  | schema what => exact quotes_err_end (clean_ascii _ rfl)
  | validate what => exact quotes_err_end (clean_ascii _ rfl)
  | noBinding => exact quotes_fixed (clean_ascii _ rfl)
  | path what => exact quotes_err_end (clean_ascii _ rfl)
  | wrongType => exact quotes_fixed (clean_ascii _ rfl)
  | other msg => exact ⟨trivial, Iff.rfl⟩

theorem JsonPathErr.quotes (e : JsonPathErr) : Quotes e.what.toList e.reply := by
  cases e with
  | notUtf8 => exact quotes_fixed (clean_ascii _ rfl)
  | query e => exact quotes_err_end (clean_ascii _ rfl)
  | syntaxError s => exact quotes_err (clean_ascii _ rfl) (clean_ascii _ rfl) Iff.rfl

namespace LuaValue

mutual

theorem lines_toReply : ∀ v : LuaValue, v.toReply.lines = v.statusTexts
  | nil | boolean true | boolean false | integer _ | number _ | string _ | other => rfl
  | table err ok items => by
    rw [toReply, statusTexts]
    split
    · rfl
    · split
      · rfl
      · exact lines_toReplies items

theorem lines_toReplies : ∀ items : List LuaValue, Reply.linesOf (toReplies items) = statusTextsOf items
  | [] => rfl
  | item :: items => by rw [toReplies, Reply.linesOf, statusTextsOf, lines_toReply item, lines_toReplies items]

end

theorem length_toReplies (items : List LuaValue) : (toReplies items).length = items.length := by
  induction items with
  | nil => rfl
  | cons item items ih => rw [toReplies, length_cons, length_cons, ih]

mutual

theorem sound_toReply : ∀ v : LuaValue, v.Fits → v.toReply.Sound
  | nil, _ | boolean true, _ | boolean false, _ | integer _, _ | number _, _ | other, _ => trivial
  | string _, h => h
  | table err ok items, h => by
    rw [toReply]
    split
    · trivial
    · split
      · trivial
      · exact ⟨(length_toReplies items).symm ▸ h.1, sound_toReplies items h.2⟩

theorem sound_toReplies : ∀ items : List LuaValue, FitsAll items → Reply.SoundItems (toReplies items)
  | [], _ => trivial
  | item :: items, h => ⟨sound_toReply item h.1, sound_toReplies items h.2⟩

end

end LuaValue

theorem ScriptEnd.quotes (e : ScriptEnd) : Quotes e.texts e.reply := by
  cases e with
  | refused r => exact r.quotes
  | returned v fits => exact ⟨v.sound_toReply fits, by rw [reply, texts, v.lines_toReply]⟩
  | failed msg => exact quotes_err_end (clean_ascii _ rfl)

/-! ## What a command quotes -/

variable {S : Type}

namespace Services

variable (sys : Services S)

/-- The texts that a command's handler puts into a line. -/
def quotedBy (c : Command) (args : List Bytes) (s : S) : List Bytes :=
  match sys.unknownSub c args s with
  | some sub => [sub]
  | none =>
    if c = .config then
      match (sys.settings args).bind fun params => (sys.configSet params s).1 with
      | some (.loglevel e) => [e]
      | _ => []
    else if c = .eval ∨ c = .evalsha then (sys.script c args s).1.texts
    else if c.isProto then
      match (sys.proto c args s).1 with
      | .ok _ => []
      | .error e => e.what.toList
    else if c.isJson then
      match (sys.json c args s).1 with
      | .ok _ => []
      | .error e => e.what.toList
    else []

/-- Whether a command is turned away, or its reply replaced, with a text of the source. -/
def replaced (c : Command) (args : List Bytes) (s : S) : Bool :=
  (c.guardCommand args).isSome || (c.isWriteCommand && (sys.writeStopped s || sys.compactionStopped s)) || sys.scanFailed args s

/-- The texts that a command is given and puts into a line of its reply. -/
def quoted (args : List Bytes) (s : S) : List Bytes :=
  match Command.find (sys.commandName args) with
  | none => if sys.scanFailed args s then [] else [args.headD []]
  | some c => if sys.replaced c args s then [] else sys.quotedBy c args s

variable {sys}

theorem SettingError.quotes (e : SettingError) : Quotes (match e with | .loglevel e => [e] | _ => []) e.reply := by
  cases e with
  | plain r => exact r.quotes
  | noHook => exact quotes_fixed (clean_ascii _ rfl)
  | loglevel e => exact quotes_err_end (clean_ascii _ rfl)

theorem quotes_subError (h : sys.unknownSub c args s = some sub) : Quotes [sub] (sys.subError c sub) := by
  have hlossy : Clean (sys.lossy sub) ↔ Clean sub := sys.clean_lossy sub
  have hupper : Clean (sys.toUppercase (sys.lossy sub)) ↔ Clean sub := (sys.clean_toUppercase _).trans hlossy
  cases hknown : subcommands c with
  | none =>
    rw [unknownSub, hknown] at h
    cases h
  | some known =>
    cases c
    case client => exact quotes_err (clean_ascii _ rfl) (clean_ascii _ rfl) hupper
    case command => exact quotes_err (clean_ascii _ rfl) (clean_ascii _ rfl) hupper
    case config => exact quotes_err (clean_ascii _ rfl) (clean_ascii _ rfl) hupper
    case cluster => exact quotes_err (clean_ascii _ rfl) (clean_ascii _ rfl) hlossy
    case script => exact quotes_err (clean_ascii _ rfl) (clean_ascii _ rfl) hupper
    case protoSchema => exact quotes_err (clean_ascii _ rfl) (clean_ascii _ rfl) hupper
    all_goals cases hknown

theorem quotes_unknownCommand (args : List Bytes) : Quotes [args.headD []] (sys.unknownCommand args) :=
  quotes_err (clean_ascii _ rfl) (clean_ascii _ rfl) (sys.clean_lossy _)

theorem commandName_of_find (h : Command.find (sys.commandName args) = some c) : sys.commandName args = ascii c.name := by
  have := find?_some h
  exact (of_decide_eq_true this).symm

theorem ne_subscription (hsub : sys.isSubscription args = false) (h : Command.find (sys.commandName args) = some c) :
    c ≠ .subscribe ∧ c ≠ .unsubscribe ∧ c ≠ .psubscribe ∧ c ≠ .punsubscribe := by
  rw [isSubscription, commandName_of_find h, decide_eq_false_iff_not] at hsub
  refine ⟨?_, ?_, ?_, ?_⟩
  · rintro rfl
    exact hsub (.head _)
  · rintro rfl
    exact hsub (.tail _ (.head _))
  · rintro rfl
    exact hsub (.tail _ (.tail _ (.head _)))
  · rintro rfl
    exact hsub (.tail _ (.tail _ (.tail _ (.head _))))

theorem clean_commandName_of_isSubscription (h : sys.isSubscription args = true) : Clean (sys.commandName args) := by
  obtain ⟨word, hword, hname⟩ := mem_map.1 (of_decide_eq_true h)
  rw [← hname]
  simp only [mem_cons, not_mem_nil, or_false] at hword
  rcases hword with rfl | rfl | rfl | rfl
  all_goals exact clean_ascii _ rfl

end Services

namespace Conn

variable {sys : Services S} {args : List Bytes} {conn : Conn sys}

/-! ## What a handler answers -/

/-- The reply quotes `texts`, and nothing was written yet. -/
def Answers (conn : Conn sys) (texts : List Bytes) (x : Reply × Conn sys) : Prop :=
  Quotes texts x.1 ∧ x.2.out.buf = conn.out.buf

theorem sound_bulk_ascii (chars : List Char) (h : chars.length < 2 ^ 63) : (Reply.bulk (ascii (String.ofList chars))).Sound := by
  show (ascii _).length < 2 ^ 63
  rwa [ascii, String.toList_ofList, length_map]

theorem quotes_helloReply (resp3 : Bool) (id : Int64) : Quotes [] (helloReply resp3 id) := by
  refine ⟨?_, fun _ => clean_mem_nil, nofun⟩
  refine ⟨show 7 * 2 < 2 ^ 63 by decide,
    ⟨?_, ?_, ?_, ?_, ?_, trivial, ?_, trivial, ?_, ?_, ?_, ?_, ?_, ⟨by decide, trivial⟩, trivial⟩⟩
  all_goals exact sound_bulk_ascii _ (by decide)

/-- The reply is a fixed one, and of the connection only what was negotiated has changed. -/
structure Greets (conn : Conn sys) (x : Reply × Conn sys) : Prop where
  quotes : Quotes [] x.1
  out : x.2.out.buf = conn.out.buf
  engine : x.2.engine = conn.engine
  multi : x.2.multi = conn.multi

theorem Greets.of_err (h : Clean text) : Greets conn (.err text, conn) := ⟨quotes_fixed h, rfl, rfl, rfl⟩

theorem greets_helloOptions (words : List Bytes) (conn : Conn sys) :
    Greets conn ((helloOptions words conn).1.getD .null, (helloOptions words conn).2) := by
  have hnone : Quotes [] .null := ⟨trivial, fun _ => clean_mem_nil, nofun⟩
  fun_induction helloOptions words conn with
  | case1 | case6 => exact ⟨hnone, rfl, rfl, rfl⟩
  | case2 | case4 | case7 => exact .of_err (clean_ascii _ rfl)
  | case3 _ _ _ _ _ _ _ ih => exact ⟨ih.quotes, ih.out, ih.engine, ih.multi⟩
  | case5 _ _ _ _ _ _ ih => exact ih

theorem greets_helloFrom (options : List Bytes) (conn : Conn sys) : Greets conn (helloFrom options conn) := by
  have h := greets_helloOptions options conn
  unfold helloFrom
  split
  · next r conn' heq =>
    rw [heq] at h
    exact h
  · next conn' heq =>
    rw [heq] at h
    split
    · exact ⟨quotes_fixed (clean_ascii _ rfl), h.out, h.engine, h.multi⟩
    · exact ⟨quotes_helloReply _ _, h.out, h.engine, h.multi⟩

theorem greets_hello (args : List Bytes) (conn : Conn sys) : Greets conn (hello args conn) := by
  have hfrom (options : List Bytes) (resp3 : Bool) : Greets conn (helloFrom options { conn with resp3 := resp3 }) := by
    have h := greets_helloFrom options { conn with resp3 := resp3 }
    exact ⟨h.quotes, h.out, h.engine, h.multi⟩
  unfold hello
  split
  · exact greets_helloFrom _ _
  split
  · exact hfrom _ _
  split
  · exact hfrom _ _
  · exact .of_err (clean_ascii _ rfl)

theorem greets_authWith (pass : Bytes) (conn : Conn sys) : Greets conn (authWith pass conn) := by
  unfold authWith
  split
  · exact .of_err (clean_ascii _ rfl)
  split
  · exact ⟨quotes_status (clean_ascii _ rfl), rfl, rfl, rfl⟩
  · exact .of_err (clean_ascii _ rfl)

theorem greets_auth (args : List Bytes) (conn : Conn sys) : Greets conn (auth args conn) := by
  unfold auth
  split
  · exact greets_authWith _ conn
  · exact greets_authWith _ conn
  · exact .of_err (clean_ascii_append (clean_ascii_append (clean_ascii _ rfl) (clean_ascii _ rfl)) (clean_ascii _ rfl))

/-- What a command's handler answers; nothing is written before its reply. -/
theorem answers_serve (hc : c ≠ .subscribe ∧ c ≠ .unsubscribe ∧ c ≠ .psubscribe ∧ c ≠ .punsubscribe)
    (h : serve c args conn = some x) :
    Answers conn (sys.quotedBy c args conn.engine) x := by
  unfold serve at h
  unfold quotedBy
  cases hsub : sys.unknownSub c args conn.engine with
  | some sub =>
    rw [hsub] at h
    cases h
    exact ⟨quotes_subError hsub, rfl⟩
  | none =>
    rw [hsub] at h
    dsimp only at h ⊢
    split at h
    · cases h
      exact ⟨(greets_hello args conn).quotes, (greets_hello args conn).out⟩
    · cases h
      exact ⟨(greets_auth args conn).quotes, (greets_auth args conn).out⟩
    · cases h
      exact ⟨quotes_status (clean_ascii _ rfl), rfl⟩
    · cases h
    · exact absurd rfl hc.1
    · exact absurd rfl hc.2.1
    · exact absurd rfl hc.2.2.1
    · exact absurd rfl hc.2.2.2
    · rw [if_pos rfl]
      split at h
      · next params hset =>
        cases h
        rw [hset, Option.bind_some]
        cases hstop : (sys.configSet params conn.engine).1 with
        | none => exact ⟨quotes_status (clean_ascii _ rfl), rfl⟩
        | some e =>
          have hquotes := Services.SettingError.quotes e
          cases e with
          | plain r => exact ⟨hquotes, rfl⟩
          | noHook => exact ⟨hquotes, rfl⟩
          | loglevel e => exact ⟨hquotes, rfl⟩
      · next hset =>
        cases h
        rw [hset]
        exact ⟨(sys.handler _ args conn.engine).1.quotes, rfl⟩
    · cases h
      exact ⟨(sys.script _ args conn.engine).1.quotes, rfl⟩
    · cases h
      exact ⟨(sys.script _ args conn.engine).1.quotes, rfl⟩
    · next hconfig heval hevalsha =>
      rw [if_neg hconfig, if_neg (not_or.2 ⟨heval, hevalsha⟩)]
      split at h
      · next hproto =>
        rw [if_pos hproto]
        split at h
        · next r s heq =>
          cases h
          rw [heq]
          exact ⟨r.quotes, rfl⟩
        · next e s heq =>
          cases h
          rw [heq]
          exact ⟨e.quotes, rfl⟩
      · next hproto =>
        rw [if_neg hproto]
        split at h
        · next hjson =>
          rw [if_pos hjson]
          split at h
          · next r s heq =>
            cases h
            rw [heq]
            exact ⟨r.quotes, rfl⟩
          · next e s heq =>
            cases h
            rw [heq]
            exact ⟨e.quotes, rfl⟩
        · next hjson =>
          rw [if_neg hjson]
          cases h
          exact ⟨(sys.handler _ args conn.engine).1.quotes, rfl⟩

theorem eq_diffImmutable_of_guard (h : c.guardCommand args = some r) : r = diffImmutable := by
  have hguard : ∀ {keys : List Bytes}, (if keys.any isImmutableKey then some diffImmutable else none) = some r →
      r = diffImmutable := by
    intro keys h
    split at h
    · exact (Option.some.inj h).symm
    · cases h
  unfold Command.guardCommand at h
  split at h
  · cases h
  · split at h
    all_goals exact hguard h

/-- What a command answers; nothing is written before its reply. -/
theorem answers_command {x : Reply × Conn sys} (hsub : sys.isSubscription args = false) (h : command args conn = some x) :
    Answers conn (sys.quoted args conn.engine) x := by
  have hscan : Quotes [] scanMisconf := quotes_fixed (clean_ascii_append (clean_ascii _ rfl) (clean_ascii _ rfl))
  have hdisk : Quotes [] diskMisconf := quotes_fixed (clean_ascii_append (clean_ascii _ rfl) (clean_ascii _ rfl))
  have hcompaction : Quotes [] compactionMisconf := quotes_fixed (clean_ascii_append (clean_ascii _ rfl) (clean_ascii _ rfl))
  unfold command at h
  unfold quoted
  cases hfind : Command.find (sys.commandName args) with
  | none =>
    rw [hfind] at h
    cases h
    cases hfailed : sys.scanFailed args conn.engine with
    | true => exact ⟨hscan, rfl⟩
    | false => exact ⟨quotes_unknownCommand args, rfl⟩
  | some c =>
    rw [hfind] at h
    dsimp only at h ⊢
    cases hguard : c.guardCommand args with
    | some r =>
      rw [hguard] at h
      cases h
      rw [eq_diffImmutable_of_guard hguard, if_pos (by simp [replaced, hguard])]
      exact ⟨quotes_fixed (clean_ascii _ rfl), rfl⟩
    | none =>
      rw [hguard] at h
      dsimp only at h
      split at h
      · next hstop =>
        cases h
        rw [if_pos (by simp [replaced, hstop])]
        exact ⟨hdisk, rfl⟩
      · next hwrite =>
        split at h
        · next hstop =>
          cases h
          rw [if_pos (by simp [replaced, hstop])]
          exact ⟨hcompaction, rfl⟩
        · next hcompact =>
          obtain ⟨⟨r, conn'⟩, hserve, rfl⟩ := Option.map_eq_some_iff.1 h
          obtain ⟨hquotes, hout⟩ := answers_serve (ne_subscription hsub hfind) hserve
          cases hfailed : sys.scanFailed args conn.engine with
          | true =>
            rw [if_pos (by simp [replaced, hfailed])]
            exact ⟨hscan, hout⟩
          | false =>
            have hreplaced : sys.replaced c args conn.engine = false := by
              rw [replaced, hguard, hfailed]
              cases hw : c.isWriteCommand with
              | false => rfl
              | true =>
                rw [hw] at hwrite hcompact
                simp only [true_and, Bool.not_eq_true] at hwrite hcompact
                rw [hwrite, hcompact]
                rfl
            rw [hreplaced]
            exact ⟨hquotes, hout⟩

/-- The process ends with `SHUTDOWN` only. -/
theorem serve_eq_none (h : serve c args conn = none) : c = .shutdown ∧ sys.unknownSub c args conn.engine = none := by
  unfold serve at h
  split at h
  · cases h
  next hsub =>
  refine ⟨?_, hsub⟩
  split at h
  case h_4 => rfl
  case h_9 =>
    split at h
    · cases h
    · cases h
  case h_12 =>
    repeat' split at h
    all_goals cases h
  all_goals cases h

/-- A command after which the process ends quotes nothing. -/
theorem quoted_of_command_eq_none (h : command args conn = none) : sys.quoted args conn.engine = [] := by
  unfold command at h
  unfold quoted
  cases hfind : Command.find (sys.commandName args) with
  | none =>
    rw [hfind] at h
    cases h
  | some c =>
    rw [hfind] at h
    dsimp only at h ⊢
    split
    · rfl
    split at h
    · cases h
    split at h
    · cases h
    split at h
    · cases h
    obtain ⟨rfl, hsub⟩ := serve_eq_none (Option.map_eq_none_iff.1 h)
    rw [quotedBy, hsub]
    rfl

/-! ## One command, and the commands of a transaction -/

/-- What the command appends is the frame of its reply. -/
def RunFramed (args : List Bytes) (conn : Conn sys) : Prop :=
  ∀ r after, command args conn = some (r, after) →
    OneFrame conn.out (r.write sys.fmt after.out) (r.frame sys.fmt after.out.resp3)

theorem oneFrame_iff_of_buf {before before' after : ReplyBuf} (h : before'.buf = before.buf) :
    OneFrame before' after f ↔ OneFrame before after f := by
  rw [OneFrame, OneFrame, h]

theorem runFramed_iff (hsub : sys.isSubscription args = false) :
    RunFramed args conn ↔ ∀ t ∈ sys.quoted args conn.engine, Clean t := by
  cases hcmd : command args conn with
  | none =>
    rw [quoted_of_command_eq_none hcmd]
    exact ⟨fun _ => clean_mem_nil, fun _ r after h => nomatch hcmd.symm.trans h⟩
  | some x =>
    obtain ⟨hquotes, hout⟩ := answers_command hsub hcmd
    have hone := Reply.oneFrame_write_iff sys.fmt hquotes.sound x.2.out
    rw [oneFrame_iff_of_buf hout, hquotes.clean] at hone
    constructor
    · intro h
      exact hone.1 (h x.1 x.2 hcmd)
    · intro h r after heq
      cases hcmd.symm.trans heq
      exact hone.2 h

/-- What a command whose texts are clean appends can be read with anything behind it. -/
theorem exists_reads {x : Reply × Conn sys} (hsub : sys.isSubscription args = false)
    (hclean : ∀ t ∈ sys.quoted args conn.engine, Clean t) (h : command args conn = some x) :
    ∃ bytes f, (x.1.write sys.fmt x.2.out).buf = conn.out.buf ++ bytes ∧ Reads false (·.extend bytes) f := by
  obtain ⟨hquotes, hout⟩ := answers_command hsub h
  have hreads : Reads x.2.out.resp3 (x.1.write sys.fmt) (x.1.frame sys.fmt x.2.out.resp3) :=
    Reply.reads_write x.1 hquotes.sound (hquotes.clean.2 hclean)
  obtain ⟨bytes, hbuf, hread⟩ := hreads
  refine ⟨bytes, _, ?_, bytes, fun _ => rfl, hread⟩
  rw [show x.2.out = ⟨x.2.out.resp3, x.2.out.buf⟩ from rfl, hbuf, hout]

/-- The texts of every queued command, at the state it meets, are clean. -/
def QueueClean (cmds : List (List Bytes)) (conn : Conn sys) : Prop :=
  ∀ done args rest before, cmds = done ++ args :: rest → done.foldlM written conn = some before →
    ∀ t ∈ sys.quoted args before.engine, Clean t

theorem QueueClean.head {cmds : List (List Bytes)} (h : QueueClean (args :: cmds) conn) :
    ∀ t ∈ sys.quoted args conn.engine, Clean t := h [] args cmds conn rfl rfl

theorem QueueClean.tail {next : Conn sys} (h : QueueClean (args :: cmds) conn)
    (hnext : conn.written args = some next) : QueueClean cmds next := by
  intro done args' rest before heq hrun
  refine h (args :: done) args' rest before (by rw [heq, cons_append]) ?_
  rw [foldlM_cons, hnext]
  exact hrun

/-- The replies of a queue are read one after the other. -/
theorem exists_readsAll (cmds : List (List Bytes)) : ∀ {conn after : Conn sys},
    (∀ args ∈ cmds, sys.isSubscription args = false) → QueueClean cmds conn → cmds.foldlM written conn = some after →
    ∃ bytes fs, after.out.buf = conn.out.buf ++ bytes ∧ fs.length = cmds.length ∧ ReadsAll false (·.extend bytes) fs := by
  induction cmds with
  | nil =>
    intro conn after _ _ h
    cases h
    exact ⟨[], [], (append_nil _).symm, rfl, [], fun _ => rfl, fun _ _ _ => rfl⟩
  | cons args cmds ih =>
    intro conn after hsub hclean h
    rw [foldlM_cons] at h
    obtain ⟨next, hnext, hrun⟩ := Option.bind_eq_some_iff.1 h
    obtain ⟨x, hx, rfl⟩ := Option.map_eq_some_iff.1 hnext
    obtain ⟨bytes, f, hbuf, hf⟩ := exists_reads (hsub args mem_cons_self) hclean.head hx
    obtain ⟨bytes', fs, hbuf', hlen, hfs⟩ := ih (fun a ha => hsub a (mem_cons_of_mem _ ha)) (hclean.tail hnext) hrun
    refine ⟨bytes ++ bytes', f :: fs, ?_, by rw [length_cons, length_cons, hlen], ?_⟩
    · rw [hbuf', ← append_assoc, ← hbuf]
    have hextend : (fun out : ReplyBuf => (out.extend bytes).extend bytes') = (·.extend (bytes ++ bytes')) := by
      funext out
      simp [ReplyBuf.extend]
    exact hextend ▸ hf.then hfs

/-! ## Every command of a client -/

theorem route_fixed {after : Conn sys} (h : route args conn = .fixed r after) : Quotes [] r ∧ after.out = conn.out := by
  have herr : ∀ {text : Bytes} {c : Conn sys}, Clean text → c.out = conn.out →
      Quotes [] (Reply.err text) ∧ c.out = conn.out := fun h hout => ⟨quotes_fixed h, hout⟩
  have hok : ∀ {text : Bytes} {c : Conn sys}, Clean text → c.out = conn.out →
      Quotes [] (Reply.simple text) ∧ c.out = conn.out := fun h hout => ⟨quotes_status h, hout⟩
  unfold route at h
  dsimp only at h
  split at h
  · cases h; exact herr (clean_ascii _ rfl) rfl
  split at h
  · split at h
    · cases h; exact herr (clean_ascii _ rfl) rfl
    · cases h; exact hok (clean_ascii _ rfl) rfl
  split at h
  · split at h
    · cases h; exact hok (clean_ascii _ rfl) rfl
    · cases h; exact herr (clean_ascii _ rfl) rfl
  split at h
  · cases h; exact herr (clean_ascii _ rfl) rfl
  split at h
  · split at h
    · cases h; exact herr (clean_ascii _ rfl) rfl
    · cases h; exact herr (clean_ascii _ rfl) rfl
    · cases h
  split at h
  · cases h
  split at h
  · cases h; exact hok (clean_ascii _ rfl) rfl
  next hrefused =>
  cases h
  refine herr (clean_append.2 ⟨clean_append.2 ⟨clean_ascii _ rfl, ?_⟩, clean_ascii _ rfl⟩) rfl
  by_cases hreset : sys.commandName args = ascii "RESET"
  · rw [hreset]
    exact clean_ascii _ rfl
  · exact clean_commandName_of_isSubscription (Bool.eq_true_of_not_eq_false fun hf => hrefused ⟨hf, hreset⟩)

theorem route_exec {next : Conn sys} (h : route args conn = .exec q next) :
    next.out = conn.out ∧ conn.multi = some (q, false) := by
  unfold route at h
  dsimp only at h
  repeat' split at h
  all_goals cases h
  exact ⟨rfl, by assumption⟩

/-- What the command appends is one frame. A fixed answer and the answer of a command that runs are the frames of their replies;
`EXEC` appends an array with as many frames as there were commands, and each of those commands appends its own. -/
def Framed (args : List Bytes) (conn : Conn sys) : Prop :=
  match route args conn with
  | .fixed r after => OneFrame conn.out (r.write sys.fmt after.out) (r.frame sys.fmt after.out.resp3)
  | .run next => RunFramed args next
  | .exec q next =>
    (∀ done cmd rest before, q.cmds = done ++ cmd :: rest → done.foldlM written (next.headed q) = some before →
      RunFramed cmd before) ∧
    ∀ after, dispatch args conn = some after → ∃ items, items.length = q.cmds.length ∧ OneFrame conn.out after.out (.array items)

/-- No text that the command, or a queued command that it runs, puts into a line holds a line break. -/
def QuotesClean (args : List Bytes) (conn : Conn sys) : Prop :=
  match route args conn with
  | .fixed _ _ => True
  | .run next => ∀ t ∈ sys.quoted args next.engine, Clean t
  | .exec q next => QueueClean q.cmds (next.headed q)

/-- Every command of a client that is not a subscription appends one frame, the frame of its reply, exactly where no text that
it was given and puts into an error or a status line holds a line break. -/
theorem command_appends_one_frame_iff (sys : Services S) (args : List Bytes) (conn : Conn sys) (hargs : args ≠ [])
    (hsub : sys.isSubscription args = false) (hqueue : ∀ q aborted, conn.multi = some (q, aborted) → q.cmds.length < 2 ^ 63) :
    Framed args conn ↔ QuotesClean args conn := by
  unfold Framed QuotesClean
  cases hroute : route args conn with
  | fixed r after =>
    obtain ⟨hquotes, hout⟩ := route_fixed hroute
    rw [← hout]
    exact iff_true_intro ((Reply.oneFrame_write_iff sys.fmt hquotes.sound after.out).2 (hquotes.clean.2 clean_mem_nil))
  | run next => exact runFramed_iff hsub
  | exec q next =>
    obtain ⟨hout, hmulti⟩ := route_exec hroute
    have hqsub : ∀ {done rest : List (List Bytes)} {cmd : List Bytes}, q.cmds = done ++ cmd :: rest →
        sys.isSubscription cmd = false := by
      intro done rest cmd heq
      exact q.plain cmd (heq ▸ mem_append_right _ mem_cons_self)
    constructor
    · intro h done cmd rest before heq hrun
      exact (runFramed_iff (hqsub heq)).1 (h.1 done cmd rest before heq hrun)
    intro hclean
    refine ⟨fun done cmd rest before heq hrun => (runFramed_iff (hqsub heq)).2 (hclean done cmd rest before heq hrun), ?_⟩
    intro after hafter
    rw [dispatch, if_neg hargs, hroute] at hafter
    obtain ⟨bytes, items, hbuf, hlen, hitems⟩ := exists_readsAll q.cmds q.plain hclean hafter
    obtain ⟨all, hall, hread⟩ := (hitems.array hlen (hqueue q false hmulti)).oneFrame conn.out.buf
    refine ⟨items, hlen, all, ?_, hread⟩
    rw [hbuf, ← hall, ← hout]
    rfl

/-! ## A name with a line break -/

theorem clean_map_asciiUpper (t : Bytes) : Clean (t.map asciiUpper) ↔ Clean t := by
  have hbyte : ∀ b : UInt8, (asciiUpper b ≠ 13 ∧ asciiUpper b ≠ 10) ↔ (b ≠ 13 ∧ b ≠ 10) := by
    intro b
    unfold asciiUpper
    split
    · next hlower =>
      have h97 := UInt8.le_iff_toNat_le.1 hlower.1
      have h122 := UInt8.le_iff_toNat_le.1 hlower.2
      constructor
      · intro _
        exact ⟨by rintro rfl; exact absurd h97 (by decide), by rintro rfl; exact absurd h97 (by decide)⟩
      intro _
      have hsub : (b - 32).toNat = b.toNat - 32 := UInt8.toNat_sub_of_le _ _ (UInt8.le_iff_toNat_le.2 (by simp at h97 ⊢; omega))
      constructor
      · intro h
        rw [h] at hsub
        simp at hsub h97
        omega
      · intro h
        rw [h] at hsub
        simp at hsub h97
        omega
    · exact Iff.rfl
  unfold Clean
  rw [forall_mem_map]
  exact forall₂_congr fun b _ => hbyte b

/-- Services for ASCII texts, with a pong for everything that has a handler. -/
def bareServices : Services Unit where
  fmt := ⟨fun _ => ascii "0", fun _ => clean_ascii _ rfl, fun _ => by decide⟩
  lossy := fun t => t
  toUppercase := List.map asciiUpper
  toLowercase := List.map asciiLower
  clean_lossy := fun t => Iff.refl (Clean t)
  clean_toUppercase := clean_map_asciiUpper
  requirepass := fun _ => []
  writeStopped := fun _ => false
  compactionStopped := fun _ => false
  scanFailed := fun _ _ => false
  topology := fun _ => false
  handler := fun _ _ s => (⟨.simple (ascii "PONG"), trivial, clean_mem_singleton.2 (clean_ascii _ rfl)⟩, s)
  proto := fun _ _ s => (.error .noBinding, s)
  json := fun _ _ s => (.error .notUtf8, s)
  script := fun _ _ s => (.returned .nil trivial, s)
  setting := fun _ _ s => .ok s
  logReload := none
  subscribe := fun _ _ s => ([], s)

/-- A connection at its start. -/
def bareConn : Conn bareServices := ⟨1, true, false, none, (), .new false⟩

/-- A command without anything to quote, outside a transaction. -/
theorem ping_appends_one_frame : Framed [ascii "PING"] bareConn :=
  (command_appends_one_frame_iff bareServices [ascii "PING"] bareConn (by simp) rfl nofun).2
    (show ∀ t ∈ bareServices.quoted [ascii "PING"] (), Clean t from clean_mem_nil)

/-- No name of a command holds a line break. -/
theorem clean_name (c : Command) : Clean (ascii c.name) := by
  cases c <;> exact clean_ascii _ rfl

theorem find_of_not_clean (h : ¬ Clean name) : Command.find name = none := by
  refine find?_eq_none.2 fun c _ hc => h ?_
  rw [← of_decide_eq_true hc]
  exact clean_name c

def brokenName : Bytes := ascii "GET\r\n+OK"

/-- The name of an unknown command is given back in the error as it is, and ends the error's line: what follows is read as a
second reply. -/
theorem unknown_command_appends_two_frames :
    ¬ Framed [brokenName] bareConn ∧ ∃ after, dispatch [brokenName] bareConn = some after ∧
      Frame.read after.out.buf = some (.error (ascii "ERR unknown command 'GET"), ascii "+OK'\r\n") ∧
      Frame.read (ascii "+OK'\r\n") = some (.simple (ascii "OK'"), []) := by
  have hbroken : ¬ Clean brokenName := fun h => (h 13 (by decide)).1 rfl
  have hfind : Command.find (bareServices.commandName [brokenName]) = none :=
    find_of_not_clean fun h => hbroken ((clean_map_asciiUpper _).1 h)
  have hroute : route [brokenName] bareConn = .run bareConn := rfl
  have hcommand : command [brokenName] bareConn = some (bareServices.unknownCommand [brokenName], bareConn) := by
    rw [command, hfind]
    rfl
  refine ⟨?_, ?_⟩
  · rw [Framed, hroute]
    intro h
    refine hbroken ((runFramed_iff rfl).1 h brokenName ?_)
    rw [Services.quoted, hfind]
    exact mem_cons_self
  · have hdispatch : dispatch [brokenName] bareConn =
        some { bareConn with out := (bareServices.unknownCommand [brokenName]).write bareServices.fmt bareConn.out } := by
      rw [dispatch, if_neg (by simp), hroute]
      show (command [brokenName] bareConn).map _ = _
      rw [hcommand]
      rfl
    exact ⟨_, hdispatch, rfl, rfl⟩

end Conn

end Marekvs
