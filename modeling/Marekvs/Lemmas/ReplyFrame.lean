import Marekvs.Engine.ReplyWrite
import Marekvs.Lemmas.Decimal

/-!
# Written replies read back

A reply whose lines hold no line break is read back as its frame, with nothing missing and nothing left over. The reader never
yields a text with a line break, so no other reply is.
-/

namespace Marekvs

open List Option Resp ReplyBuf

variable {text : Bytes} {n : Nat} {f : Frame} {fs : List Frame}

/-! ## Lines -/

namespace Resp

theorem Clean.tail (h : Clean (b :: text)) : Clean text :=
  fun c hc => h c (mem_cons_of_mem _ hc)

theorem clean_nil : Clean [] := nofun

theorem clean_append : Clean (s ++ t) ↔ Clean s ∧ Clean t := by
  constructor
  · intro h
    exact ⟨fun b hb => h b (mem_append_left _ hb), fun b hb => h b (mem_append_right _ hb)⟩
  rintro ⟨hs, ht⟩ b hb
  rcases mem_append.1 hb with hb | hb
  · exact hs b hb
  · exact ht b hb

/-- A text of the source, by its characters. -/
theorem clean_ascii (chars : List Char) (h : (chars.all fun c => UInt8.ofNat c.toNat != 13 && UInt8.ofNat c.toNat != 10) = true) :
    Clean (ascii (String.ofList chars)) := by
  rw [ascii, String.toList_ofList]
  intro b hb
  obtain ⟨c, hc, rfl⟩ := mem_map.1 hb
  simpa using all_eq_true.1 h c hc

theorem clean_ascii_append (hs : Clean (ascii s)) (ht : Clean (ascii t)) : Clean (ascii (s ++ t)) := by
  rw [ascii, String.toList_append, map_append]
  exact clean_append.2 ⟨hs, ht⟩

theorem readLine_append (h : Clean text) (rest : List UInt8) : readLine (text ++ 13 :: 10 :: rest) = some (text, rest) := by
  induction text with
  | nil => rfl
  | cons b text ih =>
    have hb := h b mem_cons_self
    rw [cons_append, readLine, if_neg hb.1, if_neg hb.2, ih h.tail]
    rfl

theorem clean_of_readLine {data : Bytes} : ∀ {text rest : Bytes}, readLine data = some (text, rest) → Clean text := by
  induction data with
  | nil => exact nofun
  | cons b data ih =>
    intro text rest h
    rw [readLine] at h
    split at h
    · split at h
      · cases h
        exact nofun
      · cases h
    · next h13 =>
      split at h
      · cases h
      next h10 =>
      obtain ⟨⟨text', rest'⟩, hread, heq⟩ := map_eq_some_iff.1 h
      cases heq
      intro c hc
      rcases mem_cons.1 hc with rfl | hc
      · exact ⟨h13, h10⟩
      · exact ih hread c hc

theorem clean_decDigits (n : Nat) : Clean (decDigits 20 n) := by
  intro b hb
  have hlow := (mem_decDigits 20 hb).1
  constructor
  · rintro rfl
    exact absurd hlow (by decide)
  · rintro rfl
    exact absurd hlow (by decide)

theorem clean_formatI64 (i : Int64) : Clean (formatI64 i) := by
  unfold formatI64
  split
  · intro b hb
    rcases mem_cons.1 hb with rfl | hb
    · decide
    · exact clean_decDigits _ b hb
  · exact clean_decDigits _

theorem readCount_decDigits (hn : n < 2 ^ 63) : readCount (decDigits 20 n) = some n := by
  rw [readCount, if_neg (by simp [decDigits_ne_nil (show 0 < 20 by decide), all_isDigit_decDigits]),
    digitsValue_decDigits 20 (by omega)]

/-- The text of a length is not the text of a missing value. -/
theorem decDigits_ne_minus_one (n : Nat) : decDigits 20 n ≠ ascii "-1" := by
  intro h
  have hmem : (45 : UInt8) ∈ decDigits 20 n := by
    rw [h]
    decide
  exact absurd (mem_decDigits 20 hmem).1 (by decide)

theorem readBytes_append : readBytes b.length (b ++ 13 :: 10 :: rest) = some (b, rest) := by
  have hrest : (b ++ 13 :: 10 :: rest).drop (b.length + 2) = rest := by
    rw [← drop_drop, drop_left]
    rfl
  rw [readBytes, drop_left, if_pos (show (13 :: 10 :: rest).take 2 = [13, 10] from rfl), take_left, hrest]

/-! ## What the reader yields -/

namespace Frame

mutual

/-- The texts that were read from lines. -/
def lines : Frame → List Bytes
  | simple t | error t => [t]
  | array items | map items | set items | push items => linesOf items
  | _ => []

def linesOf : List Frame → List Bytes
  | [] => []
  | item :: items => item.lines ++ linesOf items

end

theorem mem_linesOf : t ∈ linesOf items ↔ ∃ item ∈ items, t ∈ item.lines := by
  induction items with
  | nil => simp [linesOf]
  | cons item items ih => rw [linesOf, mem_append, ih, exists_mem_cons_iff]

theorem forall_of_readMany {p : α → Prop}
    (hone : ∀ {data x rest}, one data = some (x, rest) → p x) (n : Nat) : ∀ {data : Bytes} {xs : List α} {rest : Bytes},
    readMany one n data = some (xs, rest) → ∀ x ∈ xs, p x := by
  induction n with
  | zero =>
    intro data xs rest h
    cases h
    exact nofun
  | succ n ih =>
    intro data xs rest h
    obtain ⟨⟨x, data'⟩, hx, h⟩ := bind_eq_some_iff.1 h
    obtain ⟨⟨xs', rest'⟩, hxs, h⟩ := bind_eq_some_iff.1 h
    cases h
    intro y hy
    rcases mem_cons.1 hy with rfl | hy
    · exact hone hx
    · exact ih hxs y hy

/-- The frames of an array, a map, a set or a push come from the same reader. -/
theorem clean_of_parts
    (ih : ∀ {data : Bytes} {f : Frame} {rest : Bytes}, readFrom fuel data = some (f, rest) → ∀ t ∈ f.lines, Clean t)
    {make : List Frame → Frame} (hmake : ∀ items, (make items).lines = linesOf items) {times : Nat → Nat} {text data : Bytes}
    (h : (do
      let (items, rest) ← readMany (readFrom fuel) (times (← readCount text)) data
      some (make items, rest)) = some (f, rest)) : ∀ t ∈ f.lines, Clean t := by
  intro t ht
  obtain ⟨n, -, h⟩ := bind_eq_some_iff.1 h
  obtain ⟨⟨items, rest'⟩, hread, h⟩ := bind_eq_some_iff.1 h
  cases h
  rw [hmake] at ht
  obtain ⟨item, hitem, ht⟩ := mem_linesOf.1 ht
  exact forall_of_readMany (p := fun item => ∀ t ∈ item.lines, Clean t) (fun h => ih h) (times n) hread item hitem t ht

/-- No text of a frame that is read holds a line break. -/
theorem clean_of_readFrom (fuel : Nat) : ∀ {data : Bytes} {f : Frame} {rest : Bytes}, readFrom fuel data = some (f, rest) →
    ∀ t ∈ f.lines, Clean t := by
  induction fuel with
  | zero =>
    intro data f rest h
    rw [readFrom] at h
    cases h
  | succ fuel ih =>
    intro data f rest h
    cases data with
    | nil => cases (readFrom_nil _).symm.trans h
    | cons kind data =>
      rw [readFrom] at h
      obtain ⟨⟨text, rest'⟩, hline, h⟩ := bind_eq_some_iff.1 h
      have htext := clean_of_readLine hline
      dsimp only at h
      split at h
      · cases h
        exact fun t ht => mem_singleton.1 ht ▸ htext
      · cases h
        exact fun t ht => mem_singleton.1 ht ▸ htext
      · obtain ⟨i, -, h⟩ := map_eq_some_iff.1 h
        cases h
        exact forall_mem_nil _
      · split at h
        · cases h
          exact forall_mem_nil _
        obtain ⟨n, -, h⟩ := bind_eq_some_iff.1 h
        obtain ⟨b, -, h⟩ := bind_eq_some_iff.1 h
        cases h
        exact forall_mem_nil _
      · split at h
        · cases h
          exact forall_mem_nil _
        · exact clean_of_parts ih (fun _ => rfl) h
      · split at h
        · cases h
          exact forall_mem_nil _
        · cases h
      · exact clean_of_parts ih (fun _ => rfl) h
      · exact clean_of_parts ih (fun _ => rfl) h
      · exact clean_of_parts ih (fun _ => rfl) h
      · cases h
        exact forall_mem_nil _
      · split at h
        · cases h
          exact forall_mem_nil _
        split at h
        · cases h
          exact forall_mem_nil _
        · cases h
      · obtain ⟨n, -, h⟩ := bind_eq_some_iff.1 h
        obtain ⟨b, -, h⟩ := bind_eq_some_iff.1 h
        cases h
        exact forall_mem_nil _
      · cases h

end Frame

/-! ## What a writer appends -/

/-- The writer appends bytes that are read as `f`, whatever follows them. -/
def Reads (resp3 : Bool) (w : ReplyBuf → ReplyBuf) (f : Frame) : Prop :=
  ∃ bytes, (∀ buf, w ⟨resp3, buf⟩ = ⟨resp3, buf ++ bytes⟩) ∧
    ∀ fuel rest, bytes.length < fuel → Frame.readFrom fuel (bytes ++ rest) = some (f, rest)

/-- The writer appends bytes that are read as the frames `fs` one after the other. -/
def ReadsAll (resp3 : Bool) (w : ReplyBuf → ReplyBuf) (fs : List Frame) : Prop :=
  ∃ bytes, (∀ buf, w ⟨resp3, buf⟩ = ⟨resp3, buf ++ bytes⟩) ∧
    ∀ fuel rest, bytes.length < fuel → readMany (Frame.readFrom fuel) fs.length (bytes ++ rest) = some (fs, rest)

variable {resp3 : Bool} {w : ReplyBuf → ReplyBuf}

theorem readsAll_nil : ReadsAll resp3 (fun out => out) [] :=
  ⟨[], fun buf => by rw [append_nil], fun _ _ _ => rfl⟩

theorem Reads.then (h : Reads resp3 w f) (h' : ReadsAll resp3 w' fs) : ReadsAll resp3 (fun out => w' (w out)) (f :: fs) := by
  obtain ⟨bytes, hbuf, hread⟩ := h
  obtain ⟨bytes', hbuf', hread'⟩ := h'
  refine ⟨bytes ++ bytes', fun buf => ?_, fun fuel rest hfuel => ?_⟩
  · show w' (w _) = _
    rw [hbuf, hbuf', append_assoc]
  rw [length_append] at hfuel
  rw [length_cons, readMany, append_assoc, hread fuel _ (by omega)]
  simp only [bind_eq_bind, bind_some]
  rw [hread' fuel _ (by omega)]
  rfl

theorem reads_line (kind : UInt8) (text : List UInt8) (hw : ∀ buf, w ⟨resp3, buf⟩ = ⟨resp3, buf ++ kind :: (text ++ [13, 10])⟩)
    (hread : ∀ fuel rest, Frame.readFrom (fuel + 1) (kind :: (text ++ 13 :: 10 :: rest)) = some (f, rest)) :
    Reads resp3 w f := by
  refine ⟨kind :: (text ++ [13, 10]), hw, fun fuel rest hfuel => ?_⟩
  obtain ⟨fuel, rfl⟩ : ∃ n, fuel = n + 1 := ⟨fuel - 1, by omega⟩
  rw [cons_append, append_assoc]
  exact hread fuel rest

theorem reads_bytes (kind : UInt8) (b : List UInt8)
    (hw : ∀ buf, w ⟨resp3, buf⟩ = ⟨resp3, buf ++ kind :: (decDigits 20 b.length ++ 13 :: 10 :: (b ++ [13, 10]))⟩)
    (hread : ∀ fuel rest, Frame.readFrom (fuel + 1) (kind :: (decDigits 20 b.length ++ 13 :: 10 :: (b ++ 13 :: 10 :: rest))) =
      some (f, rest)) :
    Reads resp3 w f := by
  refine ⟨_, hw, fun fuel rest hfuel => ?_⟩
  obtain ⟨fuel, rfl⟩ : ∃ n, fuel = n + 1 := ⟨fuel - 1, by omega⟩
  rw [cons_append, append_assoc, cons_append, cons_append, append_assoc]
  exact hread fuel rest

/-- A frame with a number of parts, and its parts. -/
theorem ReadsAll.under
    (hw : ∀ buf, w ⟨resp3, buf⟩ = ⟨resp3, buf ++ kind :: (decDigits 20 n ++ [13, 10])⟩) (h : ReadsAll resp3 w' fs)
    (hread : ∀ fuel data rest, readMany (Frame.readFrom fuel) fs.length data = some (fs, rest) →
      Frame.readFrom (fuel + 1) (kind :: (decDigits 20 n ++ 13 :: 10 :: data)) = some (f, rest)) :
    Reads resp3 (fun out => w' (w out)) f := by
  obtain ⟨bytes, hbuf, hmany⟩ := h
  refine ⟨kind :: (decDigits 20 n ++ [13, 10]) ++ bytes, fun buf => ?_, fun fuel rest hfuel => ?_⟩
  · show w' (w _) = _
    rw [hw, hbuf, append_assoc]
  obtain ⟨fuel, rfl⟩ : ∃ n, fuel = n + 1 := ⟨fuel - 1, by omega⟩
  rw [length_append, length_cons] at hfuel
  rw [cons_append, cons_append, append_assoc, append_assoc]
  exact hread fuel (bytes ++ rest) rest (hmany fuel rest (by omega))

/-- What was appended is the frame `f`, and nothing else. -/
def OneFrame (before after : ReplyBuf) (f : Frame) : Prop :=
  ∃ bytes, after.buf = before.buf ++ bytes ∧ Frame.read bytes = some (f, [])

theorem Reads.oneFrame (h : Reads resp3 w f) (buf : Bytes) : OneFrame ⟨resp3, buf⟩ (w ⟨resp3, buf⟩) f := by
  obtain ⟨bytes, hbuf, hread⟩ := h
  refine ⟨bytes, by rw [hbuf], ?_⟩
  have := hread (bytes.length + 1) [] (Nat.lt_succ_self _)
  rwa [append_nil] at this

/-! ## The methods of the buffer -/

theorem header_eq (buf : Bytes) (kind : UInt8) (hn : n < 2 ^ 63) :
    ReplyBuf.header ⟨resp3, buf⟩ kind n = ⟨resp3, buf ++ kind :: (decDigits 20 n ++ [13, 10])⟩ := by
  simp [header, writeUsize, writeI64, crlf, extend, formatI64_ofNat hn]

theorem line_eq (buf : Bytes) (kind : UInt8) (text : Bytes) :
    ReplyBuf.line ⟨resp3, buf⟩ kind text = ⟨resp3, buf ++ kind :: (text ++ [13, 10])⟩ := by
  simp [line, crlf, extend]

theorem bulk_eq (buf : Bytes) (hb : b.length < 2 ^ 63) :
    ReplyBuf.bulk ⟨resp3, buf⟩ b = ⟨resp3, buf ++ 36 :: (decDigits 20 b.length ++ 13 :: 10 :: (b ++ [13, 10]))⟩ := by
  rw [bulk, header_eq buf 36 hb]
  simp [crlf, extend]

theorem reads_simple (h : Clean text) : Reads resp3 (·.simple text) (.simple text) := by
  refine reads_line 43 text (fun buf => line_eq buf 43 text) fun fuel rest => ?_
  rw [Frame.readFrom, readLine_append h]
  rfl

theorem reads_error (h : Clean text) : Reads resp3 (·.error text) (.error text) := by
  refine reads_line 45 text (fun buf => line_eq buf 45 text) fun fuel rest => ?_
  rw [Frame.readFrom, readLine_append h]
  rfl

theorem reads_int (i : Int64) : Reads resp3 (·.int i) (.int i) := by
  refine reads_line 58 (formatI64 i) (fun buf => ?_) fun fuel rest => ?_
  · simp [int, writeI64, crlf, extend]
  rw [Frame.readFrom, readLine_append (clean_formatI64 i)]
  simp only [bind_eq_bind, bind_some]
  rw [parseI64_formatI64]
  rfl

theorem reads_bulk (hb : b.length < 2 ^ 63) : Reads resp3 (·.bulk b) (.bulk b) := by
  refine reads_bytes 36 b (fun buf => bulk_eq buf hb) fun fuel rest => ?_
  rw [Frame.readFrom, readLine_append (clean_decDigits _)]
  simp only [bind_eq_bind, bind_some]
  rw [if_neg (decDigits_ne_minus_one _), readCount_decDigits hb]
  simp only [bind_some]
  rw [readBytes_append]
  rfl

theorem reads_fixed (bytes : Bytes) (hread : ∀ fuel rest, Frame.readFrom (fuel + 1) (bytes ++ rest) = some (f, rest)) :
    Reads resp3 (·.extend bytes) f := by
  refine ⟨bytes, fun buf => rfl, fun fuel rest hfuel => ?_⟩
  obtain ⟨fuel, rfl⟩ : ∃ n, fuel = n + 1 := ⟨fuel - 1, by omega⟩
  exact hread fuel rest

theorem reads_null : Reads resp3 (·.null) .null := by
  cases resp3 with
  | false => exact reads_fixed (ascii "$-1\r\n") fun _ _ => rfl
  | true => exact reads_fixed (ascii "_\r\n") fun _ _ => rfl

theorem reads_nullArray : Reads resp3 (·.nullArray) .null := by
  cases resp3 with
  | false => exact reads_fixed (ascii "*-1\r\n") fun _ _ => rfl
  | true => exact reads_fixed (ascii "_\r\n") fun _ _ => rfl

theorem reads_boolean (b : Bool) : Reads resp3 (·.boolean b) (if resp3 then .bool b else .int (if b then 1 else 0)) := by
  cases resp3 with
  | false =>
    cases b with
    | false => exact reads_fixed (ascii ":0\r\n") fun _ _ => rfl
    | true => exact reads_fixed (ascii ":1\r\n") fun _ _ => rfl
  | true =>
    cases b with
    | false => exact reads_fixed (ascii "#f\r\n") fun _ _ => rfl
    | true => exact reads_fixed (ascii "#t\r\n") fun _ _ => rfl

theorem reads_double (h : Clean text) (hlen : text.length < 2 ^ 63) :
    Reads resp3 (·.double text) (if resp3 then .double text else .bulk text) := by
  cases resp3 with
  | false => exact reads_bulk hlen
  | true =>
    refine reads_line 44 text (fun buf => line_eq buf 44 text) fun fuel rest => ?_
    rw [Frame.readFrom, readLine_append h]
    rfl

theorem reads_verbatim (hs : s.length + 4 < 2 ^ 63) :
    Reads resp3 (·.verbatim s) (if resp3 then .verbatim (ascii "txt:" ++ s) else .bulk s) := by
  cases resp3 with
  | false => exact reads_bulk (by omega)
  | true =>
    have hlen : (ascii "txt:" ++ s).length = s.length + 4 := by
      rw [length_append, Nat.add_comm]
      rfl
    refine reads_bytes 61 (ascii "txt:" ++ s) (fun buf => ?_) fun fuel rest => ?_
    · show crlf (((header ⟨true, buf⟩ 61 (s.length + 4)).extend (ascii "txt:")).extend s) = _
      rw [header_eq buf 61 hs, hlen]
      simp [crlf, extend]
    · rw [Frame.readFrom, readLine_append (clean_decDigits _)]
      simp only [bind_eq_bind, bind_some]
      rw [readCount_decDigits (by omega)]
      simp only [bind_some]
      rw [readBytes_append]
      rfl

/-- The parts of an array, behind its header. -/
theorem ReadsAll.array (h : ReadsAll resp3 w fs) (hn : fs.length = n) (hlen : n < 2 ^ 63) :
    Reads resp3 (fun out => w (out.header 42 n)) (.array fs) := by
  refine h.under (fun buf => header_eq buf 42 hlen) fun fuel data rest hmany => ?_
  rw [Frame.readFrom, readLine_append (clean_decDigits _)]
  simp only [bind_eq_bind, bind_some]
  rw [if_neg (decDigits_ne_minus_one _), readCount_decDigits hlen]
  simp only [bind_some]
  rw [← hn, hmany]
  rfl

theorem ReadsAll.set (h : ReadsAll resp3 w fs) (hn : fs.length = n) (hlen : n < 2 ^ 63) :
    Reads resp3 (fun out => w (out.set n)) (if resp3 then .set fs else .array fs) := by
  cases resp3 with
  | false => exact h.array hn hlen
  | true =>
    refine h.under (fun buf => header_eq buf 126 hlen) fun fuel data rest hmany => ?_
    rw [Frame.readFrom, readLine_append (clean_decDigits _)]
    simp only [bind_eq_bind, bind_some]
    rw [readCount_decDigits hlen]
    simp only [bind_some]
    rw [← hn, hmany]
    rfl

theorem ReadsAll.map (h : ReadsAll resp3 w fs) (hn : fs.length = n * 2) (hlen : n * 2 < 2 ^ 63) :
    Reads resp3 (fun out => w (out.map n)) (if resp3 then .map fs else .array fs) := by
  cases resp3 with
  | false => exact h.array hn hlen
  | true =>
    have hpairs : n < 2 ^ 63 := by omega
    refine h.under (fun buf => header_eq buf 37 hpairs) fun fuel data rest hmany => ?_
    rw [Frame.readFrom, readLine_append (clean_decDigits _)]
    simp only [bind_eq_bind, bind_some]
    rw [readCount_decDigits hpairs]
    simp only [bind_some]
    rw [Nat.mul_comm, ← hn, hmany]
    rfl

end Resp

/-! ## Replies -/

namespace Reply

variable {fmt : DoubleText} {resp3 : Bool}

theorem length_frames (items : List Reply) : (frames fmt resp3 items).length = items.length := by
  induction items with
  | nil => rfl
  | cons item items ih => rw [frames, length_cons, length_cons, ih]

theorem length_pairFrames (pairs : List (Reply × Reply)) : (pairFrames fmt resp3 pairs).length = pairs.length * 2 := by
  induction pairs with
  | nil => rfl
  | cons p pairs ih =>
    rw [pairFrames, length_cons, length_cons, length_cons, ih]
    omega

mutual

theorem reads_write : ∀ r : Reply, r.Sound → (∀ t ∈ r.lines, Clean t) → Reads resp3 (r.write fmt) (r.frame fmt resp3)
  | simple s, _, hc => reads_simple (hc s mem_cons_self)
  | err e, _, hc => reads_error (hc e mem_cons_self)
  | int i, _, _ => reads_int i
  | bulk _, hs, _ => reads_bulk hs
  | null, _, _ => reads_null
  | nullArray, _, _ => reads_nullArray
  | array items, hs, hc => (reads_writeItems items hs.2 hc).array (length_frames items) hs.1
  | map pairs, hs, hc => (reads_writePairs pairs hs.2 hc).map (length_pairFrames pairs) hs.1
  | set items, hs, hc => (reads_writeItems items hs.2 hc).set (length_frames items) hs.1
  | double f, _, _ => reads_double (fmt.clean f) (fmt.short f)
  | bool b, _, _ => reads_boolean b
  | verbatim _, hs, _ => reads_verbatim hs

theorem reads_writeItems : ∀ items : List Reply, SoundItems items → (∀ t ∈ linesOf items, Clean t) →
    ReadsAll resp3 (writeItems fmt items) (frames fmt resp3 items)
  | [], _, _ => readsAll_nil
  | item :: items, hs, hc =>
    (reads_write item hs.1 fun t ht => hc t (mem_append_left _ ht)).then
      (reads_writeItems items hs.2 fun t ht => hc t (mem_append_right _ ht))

theorem reads_writePairs : ∀ pairs : List (Reply × Reply), SoundPairs pairs → (∀ t ∈ linesOfPairs pairs, Clean t) →
    ReadsAll resp3 (writePairs fmt pairs) (pairFrames fmt resp3 pairs)
  | [], _, _ => readsAll_nil
  | (k, v) :: pairs, hs, hc =>
    (reads_write k hs.1 fun t ht => hc t (mem_append_left _ (mem_append_left _ ht))).then
      ((reads_write v hs.2.1 fun t ht => hc t (mem_append_left _ (mem_append_right _ ht))).then
        (reads_writePairs pairs hs.2.2 fun t ht => hc t (mem_append_right _ ht)))

end

mutual

theorem lines_frame : ∀ r : Reply, (r.frame fmt resp3).lines = r.lines
  | simple _ | err _ | int _ | bulk _ | null | nullArray | none => rfl
  | array items => lines_frames items
  | map pairs => by
    rw [frame, lines]
    split
    · exact lines_pairFrames pairs
    · exact lines_pairFrames pairs
  | set items => by
    rw [frame, lines]
    split
    · exact lines_frames items
    · exact lines_frames items
  | double _ | bool _ | verbatim _ => by
    rw [frame]
    split
    · rfl
    · rfl

theorem lines_frames : ∀ items : List Reply, Frame.linesOf (frames fmt resp3 items) = linesOf items
  | [] => rfl
  | item :: items => by rw [frames, Frame.linesOf, linesOf, lines_frame item, lines_frames items]

theorem lines_pairFrames : ∀ pairs : List (Reply × Reply), Frame.linesOf (pairFrames fmt resp3 pairs) = linesOfPairs pairs
  | [] => rfl
  | (k, v) :: pairs => by
    rw [pairFrames, Frame.linesOf, Frame.linesOf, linesOfPairs, lines_frame k, lines_frame v, lines_pairFrames pairs,
      append_assoc]

end

/-- A reply is written as one frame exactly where none of its lines holds a line break. -/
theorem oneFrame_write_iff (fmt : DoubleText) {r : Reply} (hs : r.Sound) (out : Resp.ReplyBuf) :
    OneFrame out (r.write fmt out) (r.frame fmt out.resp3) ↔ ∀ t ∈ r.lines, Clean t := by
  constructor
  · rintro ⟨bytes, -, hread⟩ t ht
    have hframe : t ∈ (r.frame fmt out.resp3).lines := by rwa [lines_frame]
    exact Frame.clean_of_readFrom _ hread t hframe
  · intro hc
    exact (reads_write r hs hc).oneFrame out.buf

end Reply

end Marekvs
