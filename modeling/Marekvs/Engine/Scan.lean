import Marekvs.Engine.Keyspace

/-!
# SCAN

SCAN walks all records of the node from the beginning, counts every record it looks at against a budget of 64 for each key asked
for, passes over those up to the cursor, and reports the user keys of the records it finds visible. The cursor is the internal
key at which the call stopped, in hexadecimal, and `0` where the walk came to its end.
-/

namespace Marekvs

/-! ## Glob patterns -/

/-- A bracket expression after its `[` and `!`: whether the byte is in it, and the rest of the pattern. An expression without an
end matches nothing. -/
def classLoop (c : UInt8) (p : Bytes) (matched first : Bool) : Option (Bool × Bytes) :=
  match p with
  | [] => none
  | b :: rest =>
    if b = 93 ∧ !first then some (matched, rest)
    else if b = 92 ∧ rest ≠ [] then classLoop c rest.tail (matched || rest.head? = some c) false
    else
      match rest.head?, rest.tail.head? with
      | some 45, some hi =>
        if hi ≠ 93 then classLoop c rest.tail.tail (matched || (b ≤ c ∧ c ≤ hi)) false
        else classLoop c rest (matched || b = c) false
      | _, _ => classLoop c rest (matched || b = c) false
termination_by p.length
decreasing_by all_goals simp only [List.length_tail, List.length_cons]; omega

/-- A bracket expression after its `[`. -/
def classMatch (p : Bytes) (c : UInt8) : Option (Bool × Bytes) :=
  match p with
  | 33 :: p' => (classLoop c p' false true).map fun r => (!r.1, r.2)
  | _ => classLoop c p false true

/-- How one byte of text is matched by the head of a pattern other than `*`: the rest of the pattern, or a mismatch. -/
def globByte (p : Bytes) (c : UInt8) : Option Bytes :=
  match p with
  | [] => none
  | b :: p' =>
    if b = 63 then some p'
    else if b = 92 ∧ p'.head? = some c then some p'.tail
    else if b = 91 then
      match classMatch p' c with
      | some (true, rest) => some rest
      | _ => none
    else if b = c then some p' else none

/-- The loop of the matcher: what is left of pattern and text, and where to go back to, the pattern behind the last `*` and the
text at it. -/
def globLoop (p t : Bytes) (star : Option (Bytes × Bytes)) : Bool :=
  match t with
  | [] => p.all (· = 42)
  | c :: t' =>
    if p.head? = some 42 then globLoop p.tail (c :: t') (some (p.tail, c :: t'))
    else
      match globByte p c with
      | some p' => globLoop p' t' star
      | none =>
        match star with
        | none => false
        | some (sp, st) => globLoop sp st.tail (some (sp, st.tail))
termination_by (match star with | none => t.length + 1 | some (_, st) => max st.length t.length, t.length, p.length)
decreasing_by
  · rename_i hstar
    have hp : p ≠ [] := by rintro rfl; simp at hstar
    cases star with
    | none => exact Prod.Lex.left _ _ (by simp)
    | some s =>
      by_cases h : (c :: t').length < max s.2.length (c :: t').length
      · exact Prod.Lex.left _ _ (by simpa using h)
      have heq : max s.2.length (c :: t').length = (c :: t').length := le_antisymm (not_lt.1 h) (le_max_right _ _)
      have := List.length_pos_iff.2 hp
      simp only [heq, max_self]
      exact Prod.Lex.right _ (Prod.Lex.right _ (by simp; omega))
  · cases star with
    | none => exact Prod.Lex.left _ _ (by simp)
    | some s =>
      by_cases h : max s.2.length t'.length < max s.2.length (c :: t').length
      · exact Prod.Lex.left _ _ h
      have heq : max s.2.length t'.length = max s.2.length (c :: t').length := by
        simp only [List.length_cons] at h ⊢
        omega
      simp only [heq]
      exact Prod.Lex.right _ (Prod.Lex.left _ _ (by simp))
  · refine Prod.Lex.left _ _ ?_
    simp only [List.length_tail, max_self, List.length_cons]
    omega

/-- Redis-style glob matching. -/
def globMatch (pattern text : Bytes) : Bool := globLoop pattern text none

/-! ## Cursors -/

/-- A hexadecimal digit in ASCII. -/
def hexDigit (n : UInt8) : UInt8 := if n < 10 then n + 48 else n + 87

def hexEncode (b : Bytes) : Bytes := b.flatMap fun (x : UInt8) => [hexDigit (x >>> 4), hexDigit (x &&& 15)]

def hexValue (c : UInt8) : Option UInt8 :=
  if 48 ≤ c ∧ c ≤ 57 then some (c - 48)
  else if 97 ≤ c ∧ c ≤ 102 then some (c - 87)
  else if 65 ≤ c ∧ c ≤ 70 then some (c - 55)
  else none

/-- Two characters as a byte, as `u8::from_str_radix` reads them: a sign may stand for the first digit. -/
def hexPair (a b : UInt8) : Option UInt8 :=
  if a = 43 then hexValue b
  else
    match hexValue a, hexValue b with
    | some x, some y => some (x * 16 + y)
    | _, _ => none

/-- The bytes of a cursor. The source panics on a cursor that splits a multi-byte character, which is refused here. -/
def hexDecode : Bytes → Option Bytes
  | [] => some []
  | [_] => none
  | a :: b :: rest =>
    match hexPair a b, hexDecode rest with
    | some x, some xs => some (x :: xs)
    | _, _ => none

/-! ## The walk -/

namespace Db

/-- Whether the walk takes a record for a sign that its user key exists: a live head, or a record that would be visible in a
collection that was never deleted. -/
def scanVisible (tag : Tag) (env : Envelope) (payload : Bytes) (now : UInt64) : Bool :=
  if tag = .head then env.isLive now
  else visible env 0 now && (!env.rtype.isOrElement || (elementValue payload).isSome)

/-- The user key that a record reports, if any: index records and system keys report nothing, nor do keys that do not match. -/
def scanShows (now : UInt64) (pattern : Option Bytes) (e : Bytes × Bytes) : Option Bytes :=
  match Ikey.parse e.1 with
  | none => none
  | some p =>
    if p.tag = .zsetScore ∨ p.userkey.head? = some 0 then none
    else
      match Envelope.decode e.2 with
      | none => none
      | some (env, payload) =>
        if scanVisible p.tag env payload now ∧ pattern.all (globMatch · p.userkey) then some p.userkey else none

/-- The walk over the records that are left: `count` of them have been looked at and `out` has been found. It returns the keys
and the internal key at which it stopped, empty at the end. -/
def scanLoop (startAfter : Bytes) (limit : UInt64) (now : UInt64) (pattern : Option Bytes) :
    List (Bytes × Bytes) → Nat → List Bytes → List Bytes × Bytes
  | [], _, out => (out, [])
  | (k, v) :: rest, count, out =>
    -- the budget is a machine word: `limit * 64` wraps
    if (limit * 64).toNat < count + 1 then (out, k)
    else if startAfter ≠ [] ∧ compare k startAfter ≠ .gt then scanLoop startAfter limit now pattern rest (count + 1) out
    else
      match scanShows now pattern (k, v) with
      | none => scanLoop startAfter limit now pattern rest (count + 1) out
      | some userkey =>
        if userkey ∈ out then scanLoop startAfter limit now pattern rest (count + 1) out
        else if limit.toNat ≤ out.length + 1 then (out ++ [userkey], k)
        else scanLoop startAfter limit now pattern rest (count + 1) (out ++ [userkey])

def scanUserkeys (db : Db) (startAfter : Bytes) (limit : UInt64) (now : UInt64) (pattern : Option Bytes) : List Bytes × Bytes :=
  scanLoop startAfter limit now pattern db.toList 0 []

/-- Why SCAN was refused. -/
inductive ScanError where
  | invalidCursor
  deriving DecidableEq, Repr

def ScanError.message : ScanError → String
  | invalidCursor => "ERR invalid cursor"

/-- The cursor `0`. -/
def startCursor : Bytes := [48]

/-- One SCAN call: the next cursor and the keys. -/
def scan (db : Db) (cursor : Bytes) (count : UInt64) (pattern : Option Bytes) (now : UInt64) :
    Except ScanError (Bytes × List Bytes) :=
  match (if cursor = startCursor then some [] else hexDecode cursor) with
  | none => .error .invalidCursor
  | some startAfter =>
    let (keys, next) := db.scanUserkeys startAfter (max count 1) now pattern
    .ok (if next = [] then startCursor else hexEncode next, keys)

/-- SCAN again and again with the cursor it returns, at most `n` times, until the cursor is `0`: all keys returned. -/
def scanAll (db : Db) (count : UInt64) (pattern : Option Bytes) (now : UInt64) : Nat → Bytes → Option (List Bytes)
  | 0, _ => none
  | n + 1, cursor =>
    match db.scan cursor count pattern now with
    | .error _ => none
    | .ok (next, keys) =>
      if next = startCursor then some keys else (db.scanAll count pattern now n next).map (keys ++ ·)

end Db

end Marekvs
