import Marekvs.Lib.Paging
import Marekvs.Engine.Scan

/-!
# SCAN reaches its end and lists the keys, where the store is small and has no dead collection

The walk counts the records it passes over, so a call never looks further than 64 records for each key asked for: in a larger
store the cursor comes to the first record beyond that and stays there. And the walk judges each record by itself, so it reports
a key whose collection is empty or deleted. Both conditions together are exactly what SCAN needs.
-/

namespace Marekvs

open List Paging Ikey Prod

namespace Db

/-- What every store that the node writes satisfies: no record has an empty internal key, strings and list records are not
elements, and a user key's length is a machine word. -/
structure WellKeyed (db : Db) : Prop where
  nonempty : db.getRaw [] = none
  plain : ∀ u b, db.getRaw (stringKey u) = some b ∨ db.getRaw (listKey u) = some b →
    ∀ env payload, Envelope.decode b = some (env, payload) → env.rtype.isOrElement = false
  short : ∀ u, (db.getRaw (headKey u)).isSome → u.length < 2 ^ 64

/-- The keys SCAN is to list: those that match, are no system keys and have a type. -/
def Listed (db : Db) (pattern : Option Bytes) (now : UInt64) (u : Bytes) : Prop :=
  pattern.all (globMatch · u) = true ∧ u.head? ≠ some 0 ∧ db.keyType u now ≠ none

/-- SCAN, repeated from cursor 0, comes back to cursor 0, and has then returned exactly the keys it is to list. -/
def ScanComplete (db : Db) (count : UInt64) (pattern : Option Bytes) (now : UInt64) : Prop :=
  ∃ n keys, db.scanAll count pattern now n startCursor = some keys ∧ ∀ u, u ∈ keys ↔ db.Listed pattern now u

/-- A record that looks visible by itself, of a key that has no type: its collection is empty, deleted or expired. -/
def Ghost (db : Db) (now : UInt64) (u : Bytes) : Prop :=
  (∃ e ∈ db.toList, scanShows now none e = some u) ∧ db.keyType u now = none

/-! ## Cursors -/

theorem hexPair_hexDigit (x : UInt8) : hexPair (hexDigit (x >>> 4)) (hexDigit (x &&& 15)) = some x := by
  revert x
  decide +kernel

theorem hexDecode_hexEncode : hexDecode (hexEncode b) = some b := by
  induction b with
  | nil => rfl
  | cons x b ih =>
    simp only [hexEncode, flatMap_cons, cons_append, nil_append] at ih ⊢
    rw [hexDecode, hexPair_hexDigit, ih]

theorem hexEncode_ne_startCursor {b : Bytes} (h : b ≠ []) : hexEncode b ≠ startCursor := by
  cases b with
  | nil => exact absurd rfl h
  | cons x b => simp [hexEncode, startCursor]

def cursorText (cursor : Option Bytes) : Bytes :=
  match cursor with
  | none => startCursor
  | some k => hexEncode k

theorem scan_cursorText {db : Db} {count : UInt64} {pattern : Option Bytes} {now : UInt64} {cursor : Option Bytes}
    (hc : cursor ≠ some []) : db.scan (cursorText cursor) count pattern now =
      .ok (let (keys, next) := db.scanUserkeys (cursor.getD []) (max count 1) now pattern
           (if next = [] then startCursor else hexEncode next, keys)) := by
  cases cursor with
  | none => simp [scan, cursorText]
  | some k =>
    have hk : k ≠ [] := fun h => hc (by rw [h])
    simp [scan, cursorText, hexEncode_ne_startCursor hk, hexDecode_hexEncode]

/-! ## One walk -/

section

variable (start : Bytes) (limit now : UInt64) (pattern : Option Bytes)

/-- Within the budget a walk reads one page of the records after the cursor. -/
theorem scanLoop_eq_page {cursor : Option Bytes} (hc : cursor ≠ some []) {es : List (Bytes × Bytes)} {count : Nat}
    {out : List Bytes} (hbudget : count + es.length ≤ (limit * 64).toNat) :
    scanLoop (cursor.getD []) limit now pattern es count out =
      let (out', last) := page limit.toNat (scanShows now pattern) (after compare fst es cursor) out
      (out', (last.map fst).getD []) := by
  induction es generalizing count out with
  | nil => cases cursor <;> rfl
  | cons e es ih =>
    obtain ⟨k, v⟩ := e
    have hin : ¬ (limit * 64).toNat < count + 1 := by
      simp only [length_cons] at hbudget
      omega
    have hrest : count + 1 + es.length ≤ (limit * 64).toNat := by
      simp only [length_cons] at hbudget
      omega
    have hskip : (cursor.getD [] ≠ [] ∧ compare k (cursor.getD []) ≠ .gt) ↔ ∃ c, cursor = some c ∧ compare c k ≠ .lt := by
      cases cursor with
      | none => simp
      | some c =>
        have hne : c ≠ [] := fun h => hc (by rw [h])
        simp [hne, Std.OrientedCmp.gt_iff_lt]
    rw [scanLoop, if_neg hin]
    by_cases hs : cursor.getD [] ≠ [] ∧ compare k (cursor.getD []) ≠ .gt
    · obtain ⟨c, rfl, hlt⟩ := hskip.1 hs
      have hafter : Paging.after compare fst ((k, v) :: es) (some c) = Paging.after compare fst es (some c) := by
        simp [Paging.after, hlt]
      rw [if_pos hs, ih hrest, hafter]
    · have hafter : after compare fst ((k, v) :: es) cursor = (k, v) :: after compare fst es cursor := by
        cases cursor with
        | none => rfl
        | some c =>
          have hlt : compare c k = .lt := by
            by_contra hlt
            exact hs (hskip.2 ⟨c, rfl, hlt⟩)
          simp [Paging.after, hlt]
      rw [if_neg hs, hafter, Paging.page]
      cases hshow : scanShows now pattern (k, v) with
      | none => exact ih hrest
      | some u =>
        dsimp only
        split
        · exact ih hrest
        · split
          · rfl
          · exact ih hrest

/-- Beyond the budget a walk stops before the end. -/
theorem scanLoop_next_ne_nil (hkeys : ∀ e ∈ es, e.1 ≠ []) {count : Nat}
    (hcount : count ≤ (limit * 64).toNat) (hbudget : (limit * 64).toNat < count + es.length) :
    (scanLoop start limit now pattern es count out).2 ≠ [] := by
  induction es generalizing count out with
  | nil => exact absurd hbudget (by simpa using hcount)
  | cons e es ih =>
    obtain ⟨k, v⟩ := e
    have hk : k ≠ [] := hkeys (k, v) mem_cons_self
    rw [scanLoop]
    split
    · exact hk
    rename_i hin
    have hgo : ∀ out, (scanLoop start limit now pattern es (count + 1) out).2 ≠ [] := fun out =>
      ih (fun e he => hkeys e (mem_cons_of_mem _ he)) (by omega) (by simp only [length_cons] at hbudget; omega)
    (repeat' split) <;> first
      | exact hk
      | exact hgo _

end

/-! ## Whole scans -/

section

variable {db : Db} {count now : UInt64} {pattern : Option Bytes}

theorem keys_ne_nil (hne : db.getRaw [] = none) : ∀ e ∈ db.toList, e.1 ≠ [] := by
  rintro ⟨k, v⟩ he rfl
  have := mem_toList.1 he
  rw [hne] at this
  cases this

/-- A walk that leaves records unseen never lets a scan come to its end. -/
theorem scanAll_eq_none (hne : db.getRaw [] = none) (hbig : (max count 1 * 64).toNat < db.toList.length) (n : Nat)
    (cursor : Bytes) : db.scanAll count pattern now n cursor = none := by
  induction n generalizing cursor with
  | zero => rfl
  | succ n ih =>
    rw [scanAll]
    split
    · rfl
    rename_i next keys hscan
    have hnext : next ≠ startCursor := by
      unfold scan at hscan
      split at hscan
      · cases hscan
      rename_i start _
      have hstop : (db.scanUserkeys start (max count 1) now pattern).2 ≠ [] :=
        scanLoop_next_ne_nil start (max count 1) now pattern (keys_ne_nil hne) (Nat.zero_le _) (by simpa using hbig)
      simp only [Except.ok.injEq, mk.injEq] at hscan
      rw [← hscan.1, if_neg hstop]
      exact hexEncode_ne_startCursor hstop
    rw [if_neg hnext, ih]
    rfl

/-- A scan of a store within the budget reads it page by page. -/
theorem scanAll_eq_pages (hne : db.getRaw [] = none) (hsmall : db.toList.length ≤ (max count 1 * 64).toNat) (n : Nat)
    {cursor : Option Bytes} (hc : cursor ≠ some []) : db.scanAll count pattern now n (cursorText cursor) =
      Paging.pages (max count 1).toNat (scanShows now pattern) compare Prod.fst db.toList n cursor := by
  induction n generalizing cursor with
  | zero => rfl
  | succ n ih =>
    have hbudget : 0 + db.toList.length ≤ (max count 1 * 64).toNat := by simpa using hsmall
    rw [scanAll, scan_cursorText hc, pages]
    simp only [scanUserkeys, scanLoop_eq_page (max count 1) now pattern hc hbudget]
    rcases h : page (max count 1).toNat (scanShows now pattern) (after compare fst db.toList cursor) []
      with ⟨out, _ | last⟩
    · simp
    have hlast : last.1 ≠ [] := by
      obtain ⟨before, rest, hsplit, _⟩ := mem_page_some h
      have hmem : last ∈ after compare fst db.toList cursor := by rw [hsplit]; simp
      refine keys_ne_nil hne last ?_
      cases cursor with
      | none => exact hmem
      | some c => exact (mem_filter.1 hmem).1
    simp only [Option.map_some, Option.getD_some, hlast, if_false, hexEncode_ne_startCursor hlast]
    have hnext : some last.1 ≠ some [] := by simpa using hlast
    rw [← ih hnext, cursorText]

/-- A record that matches reports its key whatever the pattern. -/
theorem scanShows_iff :
    scanShows now pattern e = some u ↔ scanShows now none e = some u ∧ pattern.all (globMatch · u) = true := by
  unfold scanShows
  split
  · simp
  split
  · simp
  split
  · simp
  simp only [Option.all_none, and_true, Option.ite_none_right_eq_some, Option.some.injEq]
  constructor
  · rintro ⟨⟨hv, hp⟩, rfl⟩
    exact ⟨⟨hv, rfl⟩, hp⟩
  · rintro ⟨⟨hv, rfl⟩, hp⟩
    exact ⟨⟨hv, hp⟩, rfl⟩

/-- What a record reports is no system key. -/
theorem head?_of_scanShows (h : scanShows now pattern e = some u) : u.head? ≠ some 0 := by
  unfold scanShows at h
  split at h
  · cases h
  split at h
  · cases h
  rename_i hsys
  split at h
  · cases h
  split at h
  · exact Option.some.inj h ▸ fun hz => hsys (.inr hz)
  · cases h

/-- A string or list record that is read is reported. -/
theorem scanShows_simple
    (hparse : parse p.1 = some ⟨pidOf u, tag, u, []⟩) (hp : p.2 = b) (htag : tag ≠ .zsetScore ∧ tag ≠ .head)
    (hplain : ∀ env payload, Envelope.decode b = some (env, payload) → env.rtype.isOrElement = false)
    (hread : (readLww (some b) 0 now).isSome) (hsys : u.head? ≠ some 0) : scanShows now none p = some u := by
  subst hp
  unfold scanShows
  simp only [hparse, htag.1, hsys, or_self, if_false]
  rw [readLww, Option.bind_some] at hread
  cases hdec : Envelope.decode p.2 with
  | none => simp [hdec] at hread
  | some r =>
    obtain ⟨env, payload⟩ := r
    simp only [hdec] at hread
    split at hread
    · rename_i hvis
      simp [scanVisible, htag.2, hvis, hplain env payload hdec]
    · cases hread

theorem shown_of_keyType (hw : db.WellKeyed) (hsys : u.head? ≠ some 0) (htype : db.keyType u now ≠ none) :
    ∃ e ∈ db.toList, scanShows now none e = some u := by
  unfold keyType at htype
  split at htype
  · rename_i hread
    cases hb : db.getRaw (stringKey u) with
    | none => rw [hb] at hread; cases hread
    | some b =>
      rw [hb] at hread
      exact ⟨(_, b), mem_toList.2 hb, scanShows_simple (parse_stringKey u) rfl (by decide)
        (hw.plain u b (.inl hb)) hread hsys⟩
  · split at htype
    · rename_i t hhead
      unfold headType at hhead
      split at hhead
      · cases hhead
      rename_i env ctype del hget
      have hlive : env.isLive now = true := by
        by_contra hdead
        simp [hdead] at hhead
      unfold getHead at hget
      split at hget
      · cases hget
      rename_i hdec
      obtain ⟨b, hb, hdec⟩ := Option.bind_eq_some_iff.1 hdec
      obtain ⟨_, -, heq⟩ := Option.map_eq_some_iff.1 hget
      cases heq
      have hparse : parse (headKey u) = some ⟨pidOf u, .head, u, []⟩ :=
        parse_elemKey rfl u [] (hw.short u (by rw [hb]; rfl))
      refine ⟨(_, b), mem_toList.2 hb, ?_⟩
      unfold scanShows
      simp [hparse, hsys, hdec, scanVisible, hlive]
    · split at htype
      · rename_i hread
        cases hb : db.getRaw (listKey u) with
        | none => rw [hb] at hread; cases hread
        | some b =>
          rw [hb] at hread
          exact ⟨(_, b), mem_toList.2 hb, scanShows_simple (parse_listKey u) rfl (by decide)
            (hw.plain u b (.inr hb)) hread hsys⟩
      · exact absurd rfl htype

end

/-- For every store, every COUNT and every pattern: SCAN comes back to cursor 0 with exactly the keys it is to list if and only
if the store has at most 64 records for each key asked for, and no key without a type that matches has a record which looks
visible by itself. -/
theorem scan_complete_iff (db : Db) (hw : db.WellKeyed) (count : UInt64) (pattern : Option Bytes) (now : UInt64) :
    db.ScanComplete count pattern now ↔
      db.toList.length ≤ (max count 1 * 64).toNat ∧ ∀ u, pattern.all (globMatch · u) = true → ¬ db.Ghost now u := by
  by_cases hsmall : db.toList.length ≤ (max count 1 * 64).toNat
  · have hpages : ∀ n, db.scanAll count pattern now n startCursor =
        Paging.pages (max count 1).toNat (scanShows now pattern) compare Prod.fst db.toList n none :=
      fun n => scanAll_eq_pages hw.nonempty hsmall n (Option.some_ne_none []).symm
    have hshown : ∀ n keys, db.scanAll count pattern now n startCursor = some keys →
        ∀ u, u ∈ keys ↔ pattern.all (globMatch · u) = true ∧ ∃ e ∈ db.toList, scanShows now none e = some u := by
      intro n keys hall u
      rw [hpages] at hall
      rw [Paging.mem_pages (toList_sorted db) hall u]
      constructor
      · rintro ⟨e, he, hs⟩
        obtain ⟨hs', hmatch⟩ := scanShows_iff.1 hs
        exact ⟨hmatch, e, he, hs'⟩
      · rintro ⟨hmatch, e, he, hs⟩
        exact ⟨e, he, scanShows_iff.2 ⟨hs, hmatch⟩⟩
    constructor
    · rintro ⟨n, keys, hall, hkeys⟩
      refine ⟨hsmall, fun u hmatch hghost => ?_⟩
      exact ((hkeys u).1 ((hshown n keys hall u).2 ⟨hmatch, hghost.1⟩)).2.2 hghost.2
    · rintro ⟨_, hghost⟩
      have hend : (Paging.pages (max count 1).toNat (scanShows now pattern) compare Prod.fst db.toList
          (db.toList.length + 1) none).isSome := Paging.pages_isSome _ _ (toList_sorted db) (Nat.lt_succ_self _)
      rw [← hpages] at hend
      obtain ⟨keys, hall⟩ := Option.isSome_iff_exists.1 hend
      refine ⟨_, keys, hall, fun u => ?_⟩
      rw [hshown _ keys hall u]
      constructor
      · rintro ⟨hmatch, hshow⟩
        refine ⟨hmatch, ?_, fun hnone => hghost u hmatch ⟨hshow, hnone⟩⟩
        obtain ⟨e, _, he⟩ := hshow
        exact head?_of_scanShows he
      · rintro ⟨hmatch, hsys, htype⟩
        exact ⟨hmatch, shown_of_keyType hw hsys htype⟩
  · have hbig : (max count 1 * 64).toNat < db.toList.length := not_le.1 hsmall
    constructor
    · rintro ⟨n, keys, hall, _⟩
      rw [scanAll_eq_none hw.nonempty hbig] at hall
      exact nomatch hall
    · rintro ⟨hle, _⟩
      exact absurd hle hsmall

/-- A store of plain records under short keys is well keyed. -/
theorem wellKeyed_of_plain {db : Db}
    (h : ∀ e ∈ db.toList, e.1 ≠ [] ∧ e.1.length < 2 ^ 64 ∧ (Envelope.decode e.2).all (fun p => !p.1.rtype.isOrElement)) :
    db.WellKeyed := by
  have hget : ∀ {k v}, db.getRaw k = some v →
      k ≠ [] ∧ k.length < 2 ^ 64 ∧ (Envelope.decode v).all (fun p => !p.1.rtype.isOrElement) = true :=
    fun hk => h _ (mem_toList.2 hk)
  refine ⟨?_, fun u b hb env payload hdec => ?_, fun u hu => ?_⟩
  · cases hb : db.getRaw [] with
    | none => rfl
    | some v => exact absurd rfl (hget hb).1
  · have hall := hb.elim (fun h => (hget h).2.2) fun h => (hget h).2.2
    simpa [hdec] using hall
  · obtain ⟨v, hv⟩ := Option.isSome_iff_exists.1 hu
    have hlen := (hget hv).2.1
    simp only [headKey, elemKey, prefixed, length_append, length_cons] at hlen
    omega

def twoStrings : Db :=
  ((∅ : Db).putRaw (stringKey [97]) (newLww .string 1 1 [120] 0)).putRaw (stringKey [98]) (newLww .string 2 1 [121] 0)

theorem scan_complete_on_two_strings : twoStrings.ScanComplete 1 none 0 := by
  refine (scan_complete_iff twoStrings (wellKeyed_of_plain (by decide)) 1 none 0).2 ⟨by decide, ?_⟩
  rintro u _ ⟨⟨e, he, hshow⟩, hnone⟩
  have hlist : twoStrings.toList = [(stringKey [98], newLww .string 2 1 [121] 0),
      (stringKey [97], newLww .string 1 1 [120] 0)] := by decide
  rw [hlist] at he
  simp only [mem_cons, not_mem_nil, or_false] at he
  rcases he with rfl | rfl
  · have hu : scanShows 0 none (stringKey [98], newLww .string 2 1 [121] 0) = some [98] := by decide
    obtain rfl := Option.some.inj (hu.symm.trans hshow)
    revert hnone
    decide
  · have hu : scanShows 0 none (stringKey [97], newLww .string 1 1 [120] 0) = some [97] := by decide
    obtain rfl := Option.some.inj (hu.symm.trans hshow)
    revert hnone
    decide

/-- Sixty-five strings. -/
def manyStrings : Db :=
  (List.range 65).foldl (fun db i => db.putRaw (stringKey [UInt8.ofNat (i + 1)]) (newLww .string 1 1 [] 0)) ∅

def deletedSet : Option Db := (sadd ∅ [107] 10 1 [([109], 11)] 0).bind fun db => db.delKey [107] 20 1 0

/-- SCAN with COUNT 1 never comes to the end of sixty-five strings, and reports a deleted set as a key although it has no
type. -/
theorem scan_not_complete : (∀ n, manyStrings.scanAll 1 none 0 n startCursor = none) ∧
    deletedSet.map (fun db => (db.scanAll 10 none 0 1 startCursor, db.keyType [107] 0)) = some (some [[107]], none) :=
  ⟨fun n => scanAll_eq_none (by decide +kernel) (by decide +kernel) n startCursor, by decide +kernel⟩

end Db

end Marekvs
