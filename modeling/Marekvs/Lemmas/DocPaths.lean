import Marekvs.Core.JsonDoc

/-!
# Document paths

A path that was written as a chain of segments is read back as that chain (`splitLast_chain`), and `splitLast_eq_some` says what
`splitLast` finds in any path. Two paths with one parent and one last element are one path (`splitLast_elem_inj`). Field names are
different: a length may be written in more bytes than it needs.
-/

namespace Marekvs

open List Machine Bytes Fallible Eid Option

theorem runs_bind {α β : Type} {x : Except Panic α} {f : α → Except Panic β} : Runs (x >>= f) ↔ ∃ a, x = .ok a ∧ Runs (f a) := by
  constructor
  · rintro ⟨r, h⟩
    obtain ⟨a, ha, hf⟩ := bind_eq_ok.1 h
    exact ⟨a, ha, r, hf⟩
  · rintro ⟨a, rfl, h⟩
    exact h

namespace DocPath

section

variable {S : Type} {decodeSeg : Bytes → Except Panic (Option (S × Nat))} {path : Bytes}

/-- Where a walk has something left to read it finds a segment. -/
theorem walk_eq_nil (h : walk decodeSeg path fuel pos = .ok (some [])) : path.length ≤ pos := by
  by_contra hlt
  rw [not_le] at hlt
  cases fuel with
  | zero =>
    rw [walk, if_pos hlt] at h
    cases h
  | succ fuel =>
    rw [walk, if_pos hlt] at h
    obtain ⟨rest, -, h⟩ := bind_eq_ok.1 h
    obtain ⟨r, -, h⟩ := bind_eq_ok.1 h
    split at h
    · cases h
    obtain ⟨more, -, h⟩ := bind_eq_ok.1 h
    cases more <;> cases h

/-- Every segment that a walk finds is what the path decodes to at its place; the last one reaches to the end. -/
theorem walk_segments (fuel : Nat) : ∀ {pos : Nat} {segs : List (Nat × S)}, walk decodeSeg path fuel pos = .ok (some segs) →
    (∀ s ∈ segs, s.1 < path.length) ∧
      ∀ s, segs.getLast? = some s → ∃ n, decodeSeg (path.drop s.1) = .ok (some (s.2, n)) ∧ path.length ≤ add s.1 n := by
  induction fuel with
  | zero =>
    intro pos segs h
    rw [walk] at h
    split at h
    · cases h
    · cases h
      exact ⟨nofun, nofun⟩
  | succ fuel ih =>
    intro pos segs h
    rw [walk] at h
    split at h
    · next hpos =>
      rw [slice_length hpos.le, ok_bind] at h
      obtain ⟨r, hr, h⟩ := bind_eq_ok.1 h
      split at h
      · cases h
      next seg n =>
      obtain ⟨more, hmore, h⟩ := bind_eq_ok.1 h
      cases more with
      | none => cases h
      | some more =>
        cases h
        obtain ⟨hall, hlast⟩ := ih hmore
        constructor
        · intro s hs
          rcases mem_cons.1 hs with rfl | hs
          · exact hpos
          · exact hall s hs
        · intro s hs
          cases more with
          | nil =>
            cases hs
            exact ⟨n, hr, walk_eq_nil hmore⟩
          | cons m more => exact hlast s (by rwa [getLast?_cons_cons] at hs)
    · cases h
      exact ⟨nofun, nofun⟩

theorem walk_positions (h : walk decodeSeg path fuel pos = .ok (some segs)) :
    ∀ s ∈ segs, s.1 < path.length := (walk_segments fuel h).1

theorem splitLast_eq_some (h : splitLast decodeSeg path = .ok (some (parent, seg))) :
    ∃ start n, start < path.length ∧ parent = path.take start ∧ decodeSeg (path.drop start) = .ok (some (seg, n)) ∧
      path.length ≤ add start n := by
  rw [splitLast] at h
  obtain ⟨segs, hsegs, h⟩ := bind_eq_ok.1 h
  cases hl : segs.bind List.getLast? with
  | none =>
    rw [hl] at h
    cases h
  | some s =>
    obtain ⟨l, rfl, hlast⟩ := bind_eq_some_iff.1 hl
    obtain ⟨hall, hend⟩ := walk_segments _ hsegs
    have hlt := hall s (mem_of_getLast? hlast)
    obtain ⟨n, hdec, hn⟩ := hend s hlast
    rw [hl] at h
    simp only [slice_eq (Nat.zero_le _) hlt.le, ok_bind, drop_zero] at h
    cases h
    exact ⟨s.1, n, hlt, rfl, hdec, hn⟩

end

/-! ## Paths that were written -/

section Written

variable {S : Type} {decodeSeg : Bytes → Except Panic (Option (S × Nat))} (encode : S → Bytes)

/-- The places at which the segments of a chain start. -/
def places : Nat → List S → List (Nat × S)
  | _, [] => []
  | pos, s :: segs => (pos, s) :: places (pos + (encode s).length) segs

theorem getLast?_places : (places encode pos (segs ++ [s])).getLast? = some (pos + (segs.flatMap encode).length, s) := by
  induction segs generalizing pos with
  | nil => simp [places]
  | cons t segs ih =>
    rw [cons_append, places, getLast?_cons, ih]
    simp only [flatMap_cons, length_append, getD_some]
    rw [Nat.add_assoc]

theorem map_snd_places : (places encode pos segs).map Prod.snd = segs := by
  induction segs generalizing pos with
  | nil => rfl
  | cons s segs ih => simp [places, ih]

variable {encode} (hdec : ∀ seg rest, (encode seg ++ rest).length < 2 ^ 64 →
    decodeSeg (encode seg ++ rest) = .ok (some (seg, (encode seg).length)))
  (hpos : ∀ seg, 0 < (encode seg).length)

include hdec hpos

theorem walk_chain (segs : List S) : ∀ (fuel : Nat) (front : Bytes),
    (front ++ segs.flatMap encode).length < 2 ^ 64 → (segs.flatMap encode).length ≤ fuel →
    walk decodeSeg (front ++ segs.flatMap encode) fuel front.length = .ok (some (places encode front.length segs)) := by
  induction segs with
  | nil =>
    intro fuel front _ _
    cases fuel <;> simp [walk, places]
  | cons s segs ih =>
    intro fuel front hlen hfuel
    rw [flatMap_cons] at hlen hfuel ⊢
    have hs := hpos s
    simp only [length_append] at hlen hfuel
    cases fuel with
    | zero => omega
    | succ fuel =>
      have hrest : (front ++ (encode s ++ segs.flatMap encode)).drop front.length = encode s ++ segs.flatMap encode := by simp
      have hmore := ih fuel (front ++ encode s) (by simp only [length_append]; omega) (by omega)
      rw [append_assoc, length_append] at hmore
      rw [walk, if_pos (by simp only [length_append]; omega), slice_length (by simp), hrest, ok_bind,
        hdec s _ (by simp only [length_append]; omega), ok_bind]
      simp only
      rw [add_eq (by omega), hmore]
      rfl

/-- A path that ends in a written segment, behind a written path. -/
theorem splitLast_chain (hlen : ((segs ++ [s]).flatMap encode).length < 2 ^ 64) :
    splitLast decodeSeg ((segs ++ [s]).flatMap encode) = .ok (some (segs.flatMap encode, s)) := by
  have hw := walk_chain hdec hpos (segs ++ [s]) ((segs ++ [s]).flatMap encode).length []
    (by simpa using hlen) le_rfl
  rw [nil_append, length_nil] at hw
  rw [splitLast, hw, ok_bind]
  have hlast : (some (places encode 0 (segs ++ [s]))).bind List.getLast? = some ((segs.flatMap encode).length, s) := by
    rw [bind_some, getLast?_places, Nat.zero_add]
  rw [hlast]
  simp [slice_eq]

theorem decodePath_chain (hlen : (segs.flatMap encode).length < 2 ^ 64) :
    decodePath decodeSeg (segs.flatMap encode) = .ok (some segs) := by
  have hw := walk_chain hdec hpos segs (segs.flatMap encode).length [] (by simpa using hlen) le_rfl
  rw [nil_append, length_nil] at hw
  rw [decodePath, hw, ok_bind, map_some, map_snd_places]

theorem chain_inj {segs segs' : List S} (hlen : (segs.flatMap encode).length < 2 ^ 64)
    (heq : segs.flatMap encode = segs'.flatMap encode) : segs = segs' := by
  have h := decodePath_chain hdec hpos hlen
  rw [heq, decodePath_chain hdec hpos (heq ▸ hlen)] at h
  simpa using h.symm

theorem chain_isPrefix_iff (hlen : (b.flatMap encode).length < 2 ^ 64) :
    a.flatMap encode <+: b.flatMap encode ↔ a <+: b := by
  constructor
  · intro h
    induction a generalizing b with
    | nil => exact nil_prefix
    | cons s a ih =>
      obtain ⟨rest, hrest⟩ := h
      rw [flatMap_cons, append_assoc] at hrest
      cases b with
      | nil =>
        have := hpos s
        simp [← length_eq_zero_iff] at hrest
        omega
      | cons t b =>
        rw [flatMap_cons] at hlen hrest
        -- both chains are read from the front
        have hread := hdec s _ (hrest ▸ hlen)
        rw [hrest, hdec t _ hlen] at hread
        obtain rfl : t = s := congrArg Prod.fst (some.inj (Except.ok.inj hread))
        rw [length_append] at hlen
        have hbelow := ih (by omega) ⟨rest, append_cancel_left hrest⟩
        exact cons_prefix_cons.2 ⟨rfl, hbelow⟩
  · rintro ⟨c, rfl⟩
    exact ⟨c.flatMap encode, flatMap_append.symm⟩

end Written

end DocPath

theorem Eid.decode_encode (e : Eid) (rest : Bytes) : Eid.decode (e.encode ++ rest) = some e := by
  have hlen10 : (e.encode ++ rest).length = 10 + rest.length := by
    simp only [encode, length_append, length_ofU64, length_ofU16]
  rw [decode, if_neg (by omega), encode]
  have h8 : (ofU64 e.hlc ++ ofU16 e.origin ++ rest).take 8 = ofU64 e.hlc := by
    rw [append_assoc, take_left' (length_ofU64 _)]
  have h2 : ((ofU64 e.hlc ++ ofU16 e.origin ++ rest).drop 8).take 2 = ofU16 e.origin := by
    rw [append_assoc, drop_left' (length_ofU64 _), take_left' (length_ofU16 _)]
  rw [h8, h2, toU64_ofU64, toU16_ofU16]

/-! ## JSON paths -/

namespace JsonSeg

open DocPath

theorem encodePath_eq (segs : List JsonSeg) : encodePath segs = segs.flatMap encode := by
  have h : ∀ (path : Bytes), segs.foldl pushSeg path = path ++ segs.flatMap encode := by
    induction segs with
    | nil => simp
    | cons s segs ih =>
      intro path
      rw [foldl_cons, ih, flatMap_cons, pushSeg, append_assoc]
  exact (h []).trans (nil_append _)

theorem encodePath_concat (segs : List JsonSeg) (s : JsonSeg) : encodePath (segs ++ [s]) = pushSeg (encodePath segs) s := by
  simp [encodePath_eq, pushSeg]

theorem encode_pos (seg : JsonSeg) : 0 < seg.encode.length := by cases seg <;> simp [encode]

theorem decodeSeg_encode (seg : JsonSeg) (rest : Bytes) (hlen : (seg.encode ++ rest).length < 2 ^ 64) :
    decodeSeg (seg.encode ++ rest) = .ok (some (seg, seg.encode.length)) := by
  cases seg with
  | field name =>
    have hget : getVarint (putVarint name.length ++ (name ++ rest)) =
        some (name.length, (putVarint name.length).length) := by
      refine getVarint_putVarint ?_ _
      simp only [encode, cons_append, length_cons, length_append] at hlen
      omega
    simp only [encode, cons_append, length_cons, length_append] at hlen
    simp only [encode, cons_append, append_assoc, decodeSeg, if_true, hget, length_cons, length_append]
    rw [add_eq (by omega : 1 + (putVarint name.length).length < 2 ^ 64), add_eq (by omega), if_neg (by omega),
      slice_add (by simp only [length_cons, length_append]; omega), ok_bind]
    have hname : (List.drop (1 + (putVarint name.length).length)
        (SEG_FIELD :: (putVarint name.length ++ (name ++ rest)))).take name.length = name := by
      rw [Nat.add_comm, drop_succ_cons, drop_left, take_left]
    rw [hname, Nat.add_assoc, Nat.add_comm 1]
  | elem e =>
    simp only [encode, cons_append, decodeSeg]
    rw [if_neg (by decide), if_pos trivial, Eid.decode_encode]
    simp [Eid.encode]

theorem splitLast_encodePath (hlen : (encodePath (segs ++ [s])).length < 2 ^ 64) :
    splitLast decodeSeg (encodePath (segs ++ [s])) = .ok (some (encodePath segs, s)) := by
  rw [encodePath_eq] at hlen ⊢
  rw [encodePath_eq]
  exact splitLast_chain decodeSeg_encode encode_pos hlen

theorem encodePath_inj {segs segs' : List JsonSeg} (hlen : (encodePath segs).length < 2 ^ 64)
    (heq : encodePath segs = encodePath segs') : segs = segs' := by
  rw [encodePath_eq] at hlen
  rw [encodePath_eq, encodePath_eq] at heq
  exact chain_inj decodeSeg_encode encode_pos hlen heq

theorem length_pushSeg (path : Bytes) (seg : JsonSeg) : path.length < (pushSeg path seg).length := by
  have h := encode_pos seg
  rw [pushSeg, length_append]
  omega

/-- The ten bytes of an id leave no choice. -/
theorem Eid.encode_of_decode (h : Eid.decode b = some e) (hlen : b.length = 10) : e.encode = b := by
  rw [decode, if_neg (by omega)] at h
  cases h
  have h8 : (b.take 8).length = 8 := by simp [hlen]
  have h2 : ((b.drop 8).take 2).length = 2 := by simp [hlen]
  have htake : (b.drop 8).take 2 = b.drop 8 := take_of_length_le (by simp [hlen])
  rw [Eid.encode, ofU64_toU64 h8, ofU16_toU16 h2, htake, take_append_drop]

theorem decodeSeg_eq_elem (h : decodeSeg buf = .ok (some (elem e, n))) :
    n = 11 ∧ ∃ body, buf = SEG_ELEM :: body ∧ Eid.decode body = some e := by
  cases buf with
  | nil => cases h
  | cons tag body =>
    rw [decodeSeg] at h
    split at h
    · exfalso
      cases hv : getVarint body with
      | none =>
        rw [hv] at h
        cases h
      | some v =>
        rw [hv] at h
        dsimp only at h
        split at h
        · cases h
        · obtain ⟨name, -, h⟩ := bind_eq_ok.1 h
          cases h
    · split at h
      · next htag =>
        subst htag
        cases hd : decode body with
        | none =>
          rw [hd] at h
          cases h
        | some e' =>
          rw [hd] at h
          cases h
          exact ⟨rfl, body, rfl, hd⟩
      · cases h

theorem length_le_of_decodeSeg_field (h : decodeSeg buf = .ok (some (field name, n))) : name.length ≤ buf.length := by
  cases buf with
  | nil => cases h
  | cons tag body =>
    rw [decodeSeg] at h
    split at h
    · cases hv : getVarint body with
      | none =>
        rw [hv] at h
        cases h
      | some v =>
        rw [hv] at h
        dsimp only at h
        split at h
        · cases h
        obtain ⟨name', hslice, h⟩ := bind_eq_ok.1 h
        cases h
        rw [slice] at hslice
        split at hslice
        · cases hslice
          simp only [length_drop, length_take]
          omega
        · cases hslice
    · split at h
      · cases hd : decode body <;> rw [hd] at h <;> cases h
      · cases h

theorem length_le_encodePath (segs : List JsonSeg) : segs.length ≤ (encodePath segs).length := by
  rw [encodePath_eq]
  induction segs with
  | nil => exact le_rfl
  | cons s segs ih =>
    have := encode_pos s
    rw [flatMap_cons, length_append, length_cons]
    omega

/-- The path of a field that some record is for fits in a word. -/
theorem length_pushSeg_of_splitLast_field (hlen : path.length < 2 ^ 63)
    (h : splitLast decodeSeg path = .ok (some (parent, field name))) : (pushSeg parent (field name)).length < 2 ^ 64 := by
  obtain ⟨start, n, hstart, rfl, hdec, -⟩ := splitLast_eq_some h
  have hname := length_le_of_decodeSeg_field hdec
  have hvar := length_putVarint_le name.length
  simp only [length_drop] at hname
  simp only [pushSeg, encode, length_append, length_take, length_cons]
  omega

/-- A path that ends in an element is its parent with that element behind it. -/
theorem eq_pushSeg_of_splitLast_elem (hlen : path.length < 2 ^ 63)
    (h : splitLast decodeSeg path = .ok (some (parent, elem e))) : path = pushSeg parent (elem e) := by
  obtain ⟨start, n, hstart, rfl, hdec, hend⟩ := splitLast_eq_some h
  obtain ⟨rfl, body, hbuf, he⟩ := decodeSeg_eq_elem hdec
  have hbody : body.length + 1 = path.length - start := by
    have := congrArg List.length hbuf
    simpa using this.symm
  have h10 : 10 ≤ body.length := by
    by_contra hlt
    rw [decode, if_pos (by omega)] at he
    cases he
  rw [add_eq (by omega)] at hend
  have hb : e.encode = body := Eid.encode_of_decode he (by omega)
  rw [pushSeg, encode, hb, ← hbuf, take_append_drop]

end JsonSeg

end Marekvs
