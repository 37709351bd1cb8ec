import Marekvs.Resp.Parser
import Marekvs.Resp.ReplyBuf
import Marekvs.Lib.Fallible
import Marekvs.Lemmas.Decimal

/-!
# Requests do not depend on how they are cut into chunks

An attempt of the parser that returns a command or fails does so whatever bytes follow (`parseCommand_stable`), so commands,
failures and the number of unread bytes are those of the whole input.
-/

namespace Marekvs.Resp

open List Incremental Fallible Nat ReplyBuf

variable {data : Bytes} {n : Nat} {args : Command} {p : RespParser}

/-! ## What follows does not matter -/

/-- A line that was found lies within the data. -/
theorem readCrlfLine_bounds {start stop next : Nat} (h : readCrlfLine data start = .ok (some (stop, next))) :
    start ≤ stop ∧ next = stop + 2 ∧ next ≤ data.length := by
  unfold readCrlfLine at h
  split at h
  · cases h
  next rel hrel =>
  simp only at h
  split at h
  · cases h
  next hcr =>
  cases h
  have hlt := (findIdx?_eq_some_iff_findIdx_eq.1 hrel).1
  rw [length_drop] at hlt
  have hne : start + rel ≠ start := fun h => hcr (.inl h)
  exact ⟨by omega, by omega, by omega⟩

/-- An answer about a line stays under extension. -/
theorem readCrlfLine_append (data : Bytes) (start : Nat) (ext : Bytes) :
    Grows (readCrlfLine data start) (readCrlfLine (data ++ ext) start) := by
  unfold readCrlfLine
  cases hf : (data.drop start).findIdx? (· = 10) with
  | none => exact .inl rfl
  | some rel =>
    have hlt := (findIdx?_eq_some_iff_findIdx_eq.1 hf).1
    rw [length_drop] at hlt
    rw [drop_append_of_le_length (by omega), findIdx?_append, hf]
    simp only [Option.some_or]
    rw [getElem?_append_left (by omega)]
    exact .inr rfl

theorem parseBulks_bounds (count : Nat) : ∀ {pos stop : Nat} {args : Command},
    parseBulks data count pos = .ok (some (stop, args)) → pos ≤ data.length → pos ≤ stop ∧ stop ≤ data.length := by
  induction count with
  | zero =>
    intro pos stop args h hpos
    cases h
    exact ⟨le_rfl, hpos⟩
  | succ count ih =>
    intro pos stop args h hpos
    rw [parseBulks] at h
    split at h
    · cases h
    split at h
    · cases h
    obtain ⟨r, hr, h⟩ := bind_eq_ok.1 h
    cases r with
    | none => cases h
    | some r =>
      obtain ⟨lenEnd, lenNext⟩ := r
      obtain ⟨h1, h2, h3⟩ := readCrlfLine_bounds hr
      obtain ⟨blen, -, h⟩ := bind_eq_ok.1 h
      split at h
      · cases h
      split at h
      · cases h
      simp only at h
      split at h
      · cases h
      next hlen =>
      split at h
      · cases h
      obtain ⟨r, hr, h⟩ := bind_eq_ok.1 h
      cases r with
      | none => cases h
      | some r =>
        cases h
        have := ih hr (by omega)
        exact ⟨by omega, this.2⟩

theorem parseBulks_append (ext : Bytes) (count : Nat) :
    ∀ pos, Grows (parseBulks data count pos) (parseBulks (data ++ ext) count pos) := by
  induction count with
  | zero => exact fun _ => .inr rfl
  | succ count ih =>
    intro pos
    rw [parseBulks, parseBulks]
    cases hb : data[pos]? with
    | none => exact .inl rfl
    | some b =>
      rw [getElem?_append_left (List.getElem?_eq_some_iff.1 hb).1, hb]
      refine .ite (.inr rfl) ((readCrlfLine_append data _ ext).bind rfl fun ⟨lenEnd, lenNext⟩ hl => ?_)
      obtain ⟨h1, h2, h3⟩ := readCrlfLine_bounds hl
      dsimp only
      rw [take_append_of_le_length (by omega)]
      refine .bind_left _ fun blen => .ite (.inr rfl) (.ite (.inr rfl) ?_)
      by_cases hshort : lenNext + blen.toNat + 2 > data.length
      · rw [if_pos hshort]
        exact .inl rfl
      have hfits : ¬lenNext + blen.toNat + 2 > (data ++ ext).length := by
        rw [length_append]
        omega
      rw [if_neg hshort, if_neg hfits, getElem?_append_left (by omega), getElem?_append_left (by omega),
        take_append_of_le_length (by omega)]
      exact .ite (.inr rfl) ((ih _).bind rfl fun _ _ => .inr rfl)

theorem parseMultibulk_append (data ext : Bytes) : Grows (parseMultibulk data) (parseMultibulk (data ++ ext)) := by
  refine (readCrlfLine_append data 1 ext).bind rfl fun ⟨numEnd, pos⟩ hl => ?_
  obtain ⟨h1, h2, h3⟩ := readCrlfLine_bounds hl
  dsimp only
  rw [take_append_of_le_length (by omega)]
  exact .bind_left _ fun count => .ite (.inr rfl) (.ite (.inr rfl) (parseBulks_append ext _ pos))

theorem parseInline_append (data ext : Bytes) : Grows (parseInline data) (parseInline (data ++ ext)) := by
  unfold parseInline
  cases hf : data.findIdx? (· = 10) with
  | none => exact .inl rfl
  | some nl =>
    have hlt := (findIdx?_eq_some_iff_findIdx_eq.1 hf).1
    rw [findIdx?_append, hf]
    simp only [Option.some_or]
    rw [getElem?_append_left (by omega), take_append_of_le_length (by split <;> omega)]
    exact .inr rfl

theorem parseCommand_append (data ext : Bytes) : Grows (parseCommand data) (parseCommand (data ++ ext)) := by
  cases data with
  | nil => exact .inl rfl
  | cons b data => exact .ite (parseMultibulk_append _ ext) (parseInline_append _ ext)

theorem parseCommand_progress (h : parseCommand data = .ok (some (n, args))) : 0 < n ∧ n ≤ data.length := by
  cases data with
  | nil => cases h
  | cons b data =>
    rw [parseCommand] at h
    split at h
    · rw [parseMultibulk] at h
      obtain ⟨r, hr, h⟩ := bind_eq_ok.1 h
      cases r with
      | none => cases h
      | some r =>
        obtain ⟨numEnd, pos⟩ := r
        obtain ⟨h1, h2, h3⟩ := readCrlfLine_bounds hr
        obtain ⟨count, -, h⟩ := bind_eq_ok.1 h
        split at h
        · cases h
        split at h
        · cases h
        have := parseBulks_bounds _ h h3
        exact ⟨by omega, this.2⟩
    · unfold parseInline at h
      split at h
      · cases h
      next nl hf =>
      cases h
      have hlt := (findIdx?_eq_some_iff_findIdx_eq.1 hf).1
      exact ⟨by omega, by omega⟩

theorem parseCommand_stable : Stable parseCommand where
  progress := parseCommand_progress
  extend_some h ys := ((parseCommand_append _ ys).resolve_left (h ▸ nofun)).trans h
  extend_error h ys := ((parseCommand_append _ ys).resolve_left (h ▸ nofun)).trans h

/-! ## The parser's buffer -/

namespace RespParser

def unread (p : RespParser) : Bytes := p.buf.drop p.head

/-- No more is read than there is. -/
def Valid (p : RespParser) : Prop := p.head ≤ p.buf.length

theorem length_unread (p : RespParser) : p.unread.length = p.buffered := length_drop

theorem unread_feed (hp : p.Valid) (data : Bytes) : (p.feed data).unread = p.unread ++ data :=
  drop_append_of_le_length hp

theorem valid_feed (hp : p.Valid) (data : Bytes) : (p.feed data).Valid := by
  have : p.head ≤ p.buf.length := hp
  show p.head ≤ (p.buf ++ data).length
  rw [length_append]
  omega

theorem unread_maybeCompact (p : RespParser) : p.maybeCompact.unread = p.unread := by
  unfold maybeCompact unread
  split
  · next h => simp [h]
  split
  · simp
  · rfl

theorem valid_maybeCompact (hp : p.Valid) : p.maybeCompact.Valid := by
  unfold maybeCompact
  split
  · exact le_rfl
  split
  · exact zero_le _
  · exact hp

theorem unread_advance (hp : p.Valid) (hn : n ≤ p.unread.length) :
    (maybeCompact { p with head := p.head + n }).unread = p.unread.drop n ∧
      (maybeCompact { p with head := p.head + n }).Valid := by
  rw [unread, length_drop] at hn
  have hp : p.head ≤ p.buf.length := hp
  refine ⟨?_, valid_maybeCompact (by show p.head + n ≤ p.buf.length; omega)⟩
  rw [unread_maybeCompact, unread, unread, drop_drop]

def commands (cs : List Command) : List Command := cs.filter (· ≠ [])

/-- What `nextCommand` returns and leaves, in terms of the whole parse of the unread bytes. -/
theorem nextCommandFrom_spec (fuel : Nat) : ∀ {p : RespParser}, p.Valid → p.unread.length < fuel →
    match nextCommandFrom fuel p with
    | (q, .error e) => commands (parse parseCommand p.unread).1 = [] ∧
      (parse parseCommand p.unread).2 = (q.unread, some e) ∧ q.Valid
    | (q, .ok none) => commands (parse parseCommand p.unread).1 = [] ∧
      (parse parseCommand p.unread).2 = (q.unread, none) ∧ q.Valid
    | (q, .ok (some args)) =>
      commands (parse parseCommand p.unread).1 = args :: commands (parse parseCommand q.unread).1 ∧
        (parse parseCommand p.unread).2 = (parse parseCommand q.unread).2 ∧ q.Valid ∧ q.unread.length < p.unread.length := by
  induction fuel with
  | zero => exact fun _ h => absurd h (not_lt_zero _)
  | succ fuel ih =>
    intro p hp hfuel
    rw [nextCommandFrom]
    cases hs : parseCommand p.unread with
    | error e =>
      rw [unread] at hs
      rw [hs, unread, parseCommand_stable.parse_error hs]
      exact ⟨rfl, rfl, hp⟩
    | ok r =>
      cases r with
      | none =>
        rw [unread] at hs
        rw [hs, unread, parseCommand_stable.parse_none hs]
        exact ⟨rfl, rfl, hp⟩
      | some r =>
        obtain ⟨n, args⟩ := r
        obtain ⟨h0, hn⟩ := parseCommand_stable.progress hs
        have hparse := parseCommand_stable.parse_some hs
        obtain ⟨hq, hqv⟩ := unread_advance hp hn
        rw [show parseCommand (p.buf.drop p.head) = _ from hs, hparse, ← hq]
        have hlen : (maybeCompact { p with head := p.head + n }).unread.length < p.unread.length := by
          rw [hq, length_drop]
          omega
        simp only
        cases args with
        | nil =>
          have := ih hqv (by omega)
          simp only [isEmpty_nil, if_true]
          split at this
          · exact this
          · exact this
          · exact ⟨this.1, this.2.1, this.2.2.1, by omega⟩
        | cons a args => exact ⟨by simp [commands], rfl, hqv, hlen⟩

/-- Draining the parser gives the commands of the whole parse of the unread bytes, what it leaves, and its failure. -/
theorem drainFrom_spec (fuel : Nat) : ∀ {p : RespParser}, p.Valid → p.unread.length < fuel →
    (drainFrom fuel p).2.1 = commands (parse parseCommand p.unread).1 ∧
      ((drainFrom fuel p).1.unread, (drainFrom fuel p).2.2) = (parse parseCommand p.unread).2 ∧ (drainFrom fuel p).1.Valid := by
  induction fuel with
  | zero => exact fun _ h => absurd h (not_lt_zero _)
  | succ fuel ih =>
    intro p hp hfuel
    have hnext := nextCommandFrom_spec (p.buffered + 1) hp (by rw [length_unread]; omega)
    rw [drainFrom, nextCommand]
    rcases hres : nextCommandFrom (p.buffered + 1) p with ⟨q, result⟩
    rw [hres] at hnext
    cases result with
    | error e => exact ⟨hnext.1.symm, hnext.2.1.symm, hnext.2.2⟩
    | ok command =>
      cases command with
      | none => exact ⟨hnext.1.symm, hnext.2.1.symm, hnext.2.2⟩
      | some args =>
        obtain ⟨h1, h2, hq, hlen⟩ := hnext
        obtain ⟨h3, h4, h5⟩ := ih hq (by omega)
        exact ⟨by rw [h1, ← h3], by rw [h2, ← h4], h5⟩

theorem drain_spec (hp : p.Valid) :
    p.drain.2.1 = commands (parse parseCommand p.unread).1 ∧
      (p.drain.1.unread, p.drain.2.2) = (parse parseCommand p.unread).2 ∧ p.drain.1.Valid :=
  drainFrom_spec _ hp (by rw [length_unread]; omega)

/-- What a run over chunks has done, in terms of the parse in pieces. -/
theorem foldl_serve (chunks : List Bytes) : ∀ {s : RespParser × List Command × Option RespError}
    {r : List Command × Bytes × Option RespError}, s.1.Valid → s.2.1 = commands r.1 → (s.1.unread, s.2.2) = r.2 →
    (chunks.foldl serve s).1.Valid ∧ (chunks.foldl serve s).2.1 = commands (chunks.foldl (Stable.feed parseCommand) r).1 ∧
      ((chunks.foldl serve s).1.unread, (chunks.foldl serve s).2.2) = (chunks.foldl (Stable.feed parseCommand) r).2 := by
  induction chunks with
  | nil => exact fun h1 h2 h3 => ⟨h1, h2, h3⟩
  | cons c chunks ih =>
    intro s r h1 h2 h3
    obtain ⟨hd1, hd2, hd3⟩ := drain_spec (valid_feed h1 c)
    rw [unread_feed h1, show s.1.unread = r.2.1 from congrArg Prod.fst h3] at hd1 hd2
    refine ih hd3 ?_ hd2
    show s.2.1 ++ (s.1.feed c).drain.2.1 = commands (r.1 ++ (parse parseCommand (r.2.1 ++ c)).1)
    rw [h2, hd1, commands, commands, commands, filter_append]

/-- A run over chunks, in terms of the parse of the whole input. -/
theorem run_spec (chunks : List Bytes) :
    (run chunks).2.1 = commands (parse parseCommand chunks.flatten).1 ∧
      ((run chunks).1.unread, (run chunks).2.2) = (parse parseCommand chunks.flatten).2 := by
  have hstart : parse parseCommand [] = ([], [], none) := rfl
  have hnew : new.Valid := le_rfl
  obtain ⟨-, h2, h3⟩ := foldl_serve chunks (s := (new, [], none)) (r := parse parseCommand []) hnew
    (by rw [hstart]; rfl) (by rw [hstart]; rfl)
  rw [parseCommand_stable.feed_pieces, nil_append] at h2 h3
  exact ⟨h2, h3⟩

end RespParser

/-! ## Reading back -/

theorem parseDigits_append : ∀ val, parseDigits (ds ++ es) val = parseDigits ds val >>= parseDigits es := by
  induction ds with
  | nil => exact fun _ => rfl
  | cons d ds ih =>
    intro val
    rw [cons_append, parseDigits, parseDigits]
    split
    · rfl
    split
    · rfl
    · exact ih _

theorem parseDigits_decDigits (fuel : Nat) : ∀ {n : Nat}, n < 10 ^ fuel → n < 2 ^ 63 → 0 < fuel →
    parseDigits (decDigits fuel n) 0 = .ok n := by
  induction fuel with
  | zero => exact fun _ _ h => absurd h (lt_irrefl _)
  | succ fuel ih =>
    intro n hn h63 _
    have digit : ∀ val d : Nat, d < 10 → val * 10 + d < 2 ^ 63 →
        parseDigits [UInt8.ofNat (48 + d)] val = .ok (val * 10 + d) := by
      intro val d hd hval
      have hb : (UInt8.ofNat (48 + d)).toNat = 48 + d := by
        rw [UInt8.toNat_ofNat']
        omega
      have h48 : (48 : UInt8) ≤ UInt8.ofNat (48 + d) := UInt8.le_iff_toNat_le.2 (by rw [hb]; simp)
      have h57 : UInt8.ofNat (48 + d) ≤ 57 := UInt8.le_iff_toNat_le.2 (by rw [hb]; simp; omega)
      rw [parseDigits, if_neg (not_not.2 ⟨h48, h57⟩), hb, if_neg (by omega), parseDigits, Nat.add_sub_cancel_left]
    rw [decDigits]
    split
    · next hlt =>
      have := digit 0 n hlt (by omega)
      rwa [zero_mul, zero_add] at this
    · next hge =>
      have hfuel : 0 < fuel := by
        rcases Nat.eq_zero_or_pos fuel with rfl | h
        · simp at hn
          omega
        · exact h
      rw [pow_succ] at hn
      rw [parseDigits_append, ih (by omega) (by omega) hfuel, ok_bind, digit _ _ (mod_lt _ (by norm_num)) (by omega)]
      congr 1
      omega

theorem parseInt_decDigits (hn : n < 2 ^ 63) : parseInt (decDigits 20 n) = .ok n := by
  have hparse := parseDigits_decDigits 20 (n := n) (by omega) hn (by omega)
  cases hd : decDigits 20 n with
  | nil => exact absurd hd (decDigits_ne_nil (by omega) n)
  | cons d digits =>
    have hd45 : d ≠ 45 := by
      rintro rfl
      exact absurd (mem_decDigits 20 (hd ▸ mem_cons_self : (45 : UInt8) ∈ decDigits 20 n)).1 (by decide)
    rw [hd] at hparse
    unfold parseInt
    split
    next neg digits' heq =>
    split at heq
    · next h => exact absurd (List.cons.inj h).1 hd45
    · cases heq
      simp only [isEmpty_cons, Bool.false_eq_true, if_false, hparse, ok_bind]

/-- A header line, with anything before it and after it, is read as its number. -/
theorem readCrlfLine_decDigits (pre rest : Bytes) (n : Nat) :
    readCrlfLine (pre ++ decDigits 20 n ++ [13, 10] ++ rest) pre.length =
      .ok (some (pre.length + (decDigits 20 n).length, pre.length + (decDigits 20 n).length + 2)) := by
  have hfind : ((pre ++ decDigits 20 n ++ [13, 10] ++ rest).drop pre.length).findIdx? (· = 10) =
      some ((decDigits 20 n).length + 1) := by
    rw [append_assoc, append_assoc, drop_left, findIdx?_append,
      findIdx?_eq_none_iff.2, Option.none_or]
    · simp [findIdx?_cons, add_comm]
    intro b hb
    have := mem_decDigits 20 hb
    rw [decide_eq_false_iff_not]
    rintro rfl
    exact absurd this.1 (by decide)
  unfold readCrlfLine
  rw [hfind]
  simp only
  rw [show pre.length + ((decDigits 20 n).length + 1) - 1 = (pre ++ decDigits 20 n).length by
    rw [length_append]; omega, append_assoc _ [13, 10], getElem?_append_right le_rfl, Nat.sub_self,
    if_neg (by simp), length_append]
  rfl

theorem drop_take_middle (x y z : Bytes) : ((x ++ y ++ z).take (x.length + y.length)).drop x.length = y := by
  rw [← length_append, take_left, drop_left]

theorem getElem?_after (x : List UInt8) (b : UInt8) (z : Bytes) : (x ++ b :: z)[x.length]? = some b := by
  rw [getElem?_append_right le_rfl, Nat.sub_self, getElem?_cons_zero]

/-- A bulk string as it is written. -/
def bulkBytes (b : Bytes) : Bytes := [36] ++ decDigits 20 b.length ++ [13, 10] ++ b ++ [13, 10]

theorem MAX_BULK_lt : MAX_BULK < 2 ^ 63 := by decide

theorem MAX_ARGS_lt : MAX_ARGS < 2 ^ 63 := by decide

/-- One bulk string reads back, with anything before it and after it. -/
theorem parseBulks_bulkBytes (pre tail : Bytes) (hb : b.length ≤ MAX_BULK) (count : Nat) :
    parseBulks (pre ++ bulkBytes b ++ tail) (count + 1) pre.length =
      (parseBulks (pre ++ bulkBytes b ++ tail) count (pre ++ bulkBytes b).length).map
        (Option.map fun r => (r.1, b :: r.2)) := by
  -- the data cut at each place the parser looks at
  have hline : pre ++ bulkBytes b ++ tail =
      pre ++ [36] ++ decDigits 20 b.length ++ [13, 10] ++ (b ++ [13, 10] ++ tail) := by simp [bulkBytes]
  have hkind : pre ++ bulkBytes b ++ tail = pre ++ 36 :: (decDigits 20 b.length ++ [13, 10] ++ (b ++ [13, 10] ++ tail)) := by
    simp [bulkBytes]
  have hlen : pre ++ bulkBytes b ++ tail =
      pre ++ [36] ++ decDigits 20 b.length ++ ([13, 10] ++ (b ++ [13, 10] ++ tail)) := by simp [bulkBytes]
  have hbody : pre ++ bulkBytes b ++ tail =
      pre ++ [36] ++ decDigits 20 b.length ++ [13, 10] ++ b ++ ([13, 10] ++ tail) := by simp [bulkBytes]
  have hcr : pre ++ bulkBytes b ++ tail =
      pre ++ [36] ++ decDigits 20 b.length ++ [13, 10] ++ b ++ 13 :: 10 :: tail := by simp [bulkBytes]
  have hlf : pre ++ bulkBytes b ++ tail =
      pre ++ [36] ++ decDigits 20 b.length ++ [13, 10] ++ b ++ [13] ++ 10 :: tail := by simp [bulkBytes]
  have hread := readCrlfLine_decDigits (pre ++ [36]) (b ++ [13, 10] ++ tail) b.length
  have htext := drop_take_middle (pre ++ [36]) (decDigits 20 b.length) ([13, 10] ++ (b ++ [13, 10] ++ tail))
  have hbytes := drop_take_middle (pre ++ [36] ++ decDigits 20 b.length ++ [13, 10]) b ([13, 10] ++ tail)
  have h13 := getElem?_after (pre ++ [36] ++ decDigits 20 b.length ++ [13, 10] ++ b) 13 (10 :: tail)
  have h10 := getElem?_after (pre ++ [36] ++ decDigits 20 b.length ++ [13, 10] ++ b ++ [13]) 10 tail
  rw [← hline] at hread
  rw [← hlen] at htext
  rw [← hbody] at hbytes
  rw [← hcr] at h13
  rw [← hlf] at h10
  have h36 : (pre ++ bulkBytes b ++ tail)[pre.length]? = some 36 := by rw [hkind, getElem?_after]
  have hsize : (pre ++ bulkBytes b ++ tail).length =
      pre.length + 1 + (decDigits 20 b.length).length + 2 + b.length + 2 + tail.length := by
    rw [hcr]
    simp only [length_append, length_cons, length_nil]
    omega
  generalize pre ++ bulkBytes b ++ tail = data at *
  simp only [length_append, length_cons, length_nil, zero_add, reduceAdd] at hread htext hbytes h13 h10
  rw [parseBulks, h36]
  simp only [ne_eq, not_true_eq_false, if_false, hread, ok_bind, htext,
    parseInt_decDigits (lt_of_le_of_lt hb MAX_BULK_lt)]
  rw [if_neg (by omega), Int.toNat_natCast, if_neg (by omega), if_neg (by omega), h13, h10, hbytes]
  simp only [not_true_eq_false, or_self, if_false]
  rw [show (pre ++ bulkBytes b).length = pre.length + 1 + (decDigits 20 b.length).length + 2 + b.length + 2 by
    simp [bulkBytes]; omega]
  cases parseBulks data count (pre.length + 1 + (decDigits 20 b.length).length + 2 + b.length + 2) with
  | error e => rfl
  | ok r => cases r <;> rfl

/-- Bulk strings read back, with anything before them and after them. -/
theorem parseBulks_flatMap (args : Resp.Command) : ∀ pre rest : Bytes, (∀ b ∈ args, b.length ≤ MAX_BULK) →
    parseBulks (pre ++ args.flatMap bulkBytes ++ rest) args.length pre.length =
      .ok (some ((pre ++ args.flatMap bulkBytes).length, args)) := by
  induction args with
  | nil =>
    intro pre rest _
    rw [flatMap_nil, append_nil]
    rfl
  | cons b args ih =>
    intro pre rest hargs
    have hrest := ih (pre ++ bulkBytes b) rest fun x hx => hargs x (mem_cons_of_mem _ hx)
    rw [flatMap_cons, length_cons, ← append_assoc, append_assoc _ _ rest,
      parseBulks_bulkBytes pre _ (hargs b mem_cons_self), ← append_assoc, hrest]
    rfl

/-! ### Writing -/

theorem buf_header (out : ReplyBuf) (kind : UInt8) (hn : n < 2 ^ 63) :
    (out.header kind n).buf = out.buf ++ ([kind] ++ decDigits 20 n ++ [13, 10]) := by
  simp [header, writeUsize, writeI64, crlf, extend, formatI64_ofNat hn]

theorem buf_bulk (out : ReplyBuf) (hb : b.length < 2 ^ 63) : (out.bulk b).buf = out.buf ++ bulkBytes b := by
  show (out.header 36 b.length).buf ++ b ++ [13, 10] = _
  rw [buf_header _ _ hb]
  simp [bulkBytes]

theorem buf_foldl_bulk (args : Command) : ∀ out : ReplyBuf, (∀ b ∈ args, b.length ≤ MAX_BULK) →
    (args.foldl ReplyBuf.bulk out).buf = out.buf ++ args.flatMap bulkBytes := by
  induction args with
  | nil => exact fun out _ => (append_nil _).symm
  | cons b args ih =>
    intro out hargs
    have hb := lt_of_le_of_lt (hargs b mem_cons_self) MAX_BULK_lt
    rw [foldl_cons, ih _ fun x hx => hargs x (mem_cons_of_mem _ hx), buf_bulk out hb, flatMap_cons,
      append_assoc]

/-- A command that the parser's limits allow. -/
def Fits (args : Command) : Prop := args ≠ [] ∧ args.length ≤ MAX_ARGS ∧ ∀ b ∈ args, b.length ≤ MAX_BULK

theorem encodeCommand_eq (h : Fits args) :
    encodeCommand args = [42] ++ decDigits 20 args.length ++ [13, 10] ++ args.flatMap bulkBytes := by
  rw [encodeCommand, buf_foldl_bulk _ _ h.2.2, array, buf_header _ _ (lt_of_le_of_lt h.2.1 MAX_ARGS_lt)]
  rfl

/-- A command in multi-bulk form is read back, whatever follows it. -/
theorem parseCommand_encodeCommand (h : Fits args) (rest : Bytes) :
    parseCommand (encodeCommand args ++ rest) = .ok (some ((encodeCommand args).length, args)) := by
  have hread := readCrlfLine_decDigits [42] (args.flatMap bulkBytes ++ rest) args.length
  have htext := drop_take_middle [42] (decDigits 20 args.length) ([13, 10] ++ (args.flatMap bulkBytes ++ rest))
  have hbulks := parseBulks_flatMap args ([42] ++ decDigits 20 args.length ++ [13, 10]) rest h.2.2
  rw [encodeCommand_eq h]
  generalize hdata : [42] ++ decDigits 20 args.length ++ [13, 10] ++ args.flatMap bulkBytes ++ rest = data at hbulks ⊢
  rw [← append_assoc, hdata] at hread
  rw [← append_assoc, ← append_assoc, hdata] at htext
  have hstar : parseCommand data = parseMultibulk data := by
    rw [← hdata]
    rfl
  have hpos : ([42] ++ decDigits 20 args.length ++ [13, 10] : Bytes).length = 1 + (decDigits 20 args.length).length + 2 := by
    simp
    omega
  rw [hpos] at hbulks
  rw [hstar, parseMultibulk, show 1 = ([42] : Bytes).length from rfl, hread]
  simp only [ok_bind]
  rw [htext, parseInt_decDigits (lt_of_le_of_lt h.2.1 MAX_ARGS_lt)]
  simp only [ok_bind]
  rw [if_neg (by omega), Int.toNat_natCast, if_neg (by have := h.2.1; omega)]
  exact hbulks

/-- Commands in multi-bulk form are all that is read. -/
theorem parse_encodeCommands (cmds : List Command) (h : ∀ args ∈ cmds, Fits args) :
    parse parseCommand (cmds.map encodeCommand).flatten = (cmds, [], none) := by
  induction cmds with
  | nil => rfl
  | cons args cmds ih =>
    have hstep := parseCommand_encodeCommand (h args mem_cons_self) (cmds.map encodeCommand).flatten
    rw [map_cons, flatten_cons, parseCommand_stable.parse_some hstep, drop_left,
      ih fun x hx => h x (mem_cons_of_mem _ hx)]

/-- The commands, the failure and the number of unread bytes do not depend on how the input is cut into chunks; and commands in
multi-bulk form are read back, with nothing left over. -/
theorem run_chunks_and_encoded :
    (∀ chunks : List Bytes,
      (RespParser.run chunks).2 = (RespParser.run [chunks.flatten]).2 ∧
        (RespParser.run chunks).1.buffered = (RespParser.run [chunks.flatten]).1.buffered) ∧
    ∀ cmds : List Command, (∀ args ∈ cmds, args ≠ [] ∧ args.length ≤ MAX_ARGS ∧ ∀ b ∈ args, b.length ≤ MAX_BULK) →
      (RespParser.run [(cmds.map encodeCommand).flatten]).2 = (cmds, none) ∧
        (RespParser.run [(cmds.map encodeCommand).flatten]).1.buffered = 0 := by
  refine ⟨fun chunks => ?_, fun cmds h => ?_⟩
  · obtain ⟨h1, h2⟩ := RespParser.run_spec chunks
    obtain ⟨h3, h4⟩ := RespParser.run_spec [chunks.flatten]
    rw [flatten_singleton] at h3 h4
    obtain ⟨hunread, herror⟩ := Prod.mk.inj (h2.trans h4.symm)
    refine ⟨Prod.ext (h1.trans h3.symm) herror, ?_⟩
    rw [← RespParser.length_unread, ← RespParser.length_unread, hunread]
  · obtain ⟨h1, h2⟩ := RespParser.run_spec [(cmds.map encodeCommand).flatten]
    rw [flatten_singleton, parse_encodeCommands cmds h] at h1 h2
    obtain ⟨hunread, herror⟩ := Prod.mk.inj h2
    refine ⟨Prod.ext (h1.trans ?_) herror, ?_⟩
    · exact filter_eq_self.2 fun args hargs => decide_eq_true (h args hargs).1
    · rw [← RespParser.length_unread, hunread]
      rfl

/-- `GET k` and `PING`, one after the other. -/
theorem get_ping_read_back :
    (RespParser.run [([[ascii "GET", ascii "k"], [ascii "PING"]].map encodeCommand).flatten]).2 =
      ([[ascii "GET", ascii "k"], [ascii "PING"]], none) :=
  (run_chunks_and_encoded.2 [[ascii "GET", ascii "k"], [ascii "PING"]] (by decide)).1

end Marekvs.Resp
