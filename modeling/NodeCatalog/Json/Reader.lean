import NodeCatalog.Json.Literal
import NodeCatalog.Json.Number

/-!
# Readers

A reader takes a value from the start of a text and answers with what follows it, or with the first
failure.  It always takes something: the proof is part of the reader, and ends every loop that uses
one.  The readers here are those of the fields of records: texts, flags, optional texts.

Where a value of another type stands, that value is what the failure names; it must itself be
readable for that.
-/

namespace NodeCatalog.Json

/-! ### Spacing and words -/

/-- Whether a character may stand between the marks of a text. -/
def isSpacing (c : Char) : Bool :=
  c == ' ' || c == '\n' || c == '\t' || c == '\r'

/-- A text without the spacing at its start. -/
def skipSpacing (s : List Char) : List Char :=
  s.dropWhile isSpacing

theorem length_skipSpacing_le (s : List Char) : (skipSpacing s).length ≤ s.length :=
  length_dropWhile_le isSpacing s

/-- Expects the characters of a word. -/
def expect (word s : List Char) : Except Failure (List Char) :=
  match word, s with
  | [], s => .ok s
  | _ :: _, [] => .error .unfinished
  | c :: word, d :: s => if c = d then expect word s else .error .malformed

theorem length_le_of_expect {word s r : List Char} (h : expect word s = .ok r) :
    r.length ≤ s.length := by
  fun_induction expect word s with
  | case1 =>
    simp only [Except.ok.injEq] at h
    simp [← h]
  | case2 => cases h
  | case3 word c rest ih =>
    have := ih h
    simp only [List.length_cons]
    omega
  | case4 => cases h

/-- Expects a colon, after spacing. -/
def expectColon (s : List Char) : Except Failure (List Char) :=
  match skipSpacing s with
  | [] => .error .unfinished
  | ':' :: rest => .ok rest
  | _ => .error .malformed

theorem shorter_of_expectColon {s r : List Char} (h : expectColon s = .ok r) :
    r.length < s.length := by
  have hs := length_skipSpacing_le s
  unfold expectColon at h
  split at h
  · cases h
  · rename_i hc
    simp only [Except.ok.injEq] at h
    rw [hc, List.length_cons, h] at hs
    omega
  · cases h

/-! ### Values of another type -/

/-- What a value that starts with a letter of `null`, `true` or `false` is found to be. -/
def readWord (word : List Char) (found : Found) (s : List Char) : Except Failure Found :=
  (expect word s).map fun _ => found

/-- What the value at the start of a text is found to be. -/
def readFound (s : List Char) : Except Failure Found :=
  match s with
  | [] => .error .unfinished
  | c :: rest =>
    if c = 'n' then readWord ['u', 'l', 'l'] .null rest
    else if c = 't' then readWord ['r', 'u', 'e'] (.flag true) rest
    else if c = 'f' then readWord ['a', 'l', 's', 'e'] (.flag false) rest
    else if c = '-' ∨ c.isDigit then readNumber s
    else if c = '"' then (readLiteral rest).map fun p => .text (String.ofList p.1)
    else if c = '[' then .ok .sequence
    else if c = '{' then .ok .map
    else .error .malformed

/-- The failure where `wanted` is wanted and something else starts the text. -/
def wrongType (wanted : String) (s : List Char) : Failure :=
  match readFound s with
  | .error e => e
  | .ok found => .mismatch (.wrongType found wanted)

/-! ### Readers -/

/-- A way to read a value from the start of a text. -/
structure Reader (α : Type) where
  /-- The value and what follows it. -/
  read : List Char → Except Failure (α × List Char)
  /-- Something is taken from the text. -/
  shorter : ∀ {s r : List Char} {a : α}, read s = .ok (a, r) → r.length < s.length

namespace Reader

variable {α β : Type}

/-- Reads a value and gives another one for it. -/
def map (f : α → β) (p : Reader α) : Reader β where
  read s := (p.read s).map fun q => (f q.1, q.2)
  shorter := by
    intro s r b h
    cases hp : p.read s with
    | error e => rw [hp] at h; cases h
    | ok q =>
      rw [hp] at h
      simp only [Except.map, Except.ok.injEq, Prod.mk.injEq] at h
      exact p.shorter (a := q.1) (by rw [hp, ← h.2])

/-- Reads a text. -/
def text : Reader String where
  read s :=
    match skipSpacing s with
    | [] => .error .unfinished
    | '"' :: rest => (readLiteral rest).map fun p => (String.ofList p.1, p.2)
    | t => .error (wrongType "a string" t)
  shorter := by
    intro s r a h
    have hs := length_skipSpacing_le s
    split at h
    · cases h
    · rename_i rest hq
      cases hl : readLiteral rest with
      | error e => rw [hl] at h; cases h
      | ok p =>
        rw [hl] at h
        simp only [Except.map, Except.ok.injEq, Prod.mk.injEq] at h
        have := shorter_of_readLiteral (t := p.1) (r := p.2) hl
        rw [hq, List.length_cons] at hs
        rw [← h.2]
        omega
    · cases h

/-- Reads a flag. -/
def flag : Reader Bool where
  read s :=
    match skipSpacing s with
    | [] => .error .unfinished
    | 't' :: rest => (expect ['r', 'u', 'e'] rest).map fun r => (true, r)
    | 'f' :: rest => (expect ['a', 'l', 's', 'e'] rest).map fun r => (false, r)
    | t => .error (wrongType "a boolean" t)
  shorter := by
    intro s r a h
    have hs := length_skipSpacing_le s
    have key : ∀ (word rest : List Char) (b : Bool),
        ((expect word rest).map fun r => (b, r)) = .ok (a, r) → r.length ≤ rest.length := by
      intro word rest b hb
      cases he : expect word rest with
      | error e => rw [he] at hb; cases hb
      | ok q =>
        rw [he] at hb
        simp only [Except.map, Except.ok.injEq, Prod.mk.injEq] at hb
        rw [← hb.2]
        exact length_le_of_expect he
    split at h
    · cases h
    · rename_i hq
      have := key _ _ _ h
      rw [hq, List.length_cons] at hs
      omega
    · rename_i hq
      have := key _ _ _ h
      rw [hq, List.length_cons] at hs
      omega
    · cases h

/-- Reads a value that may be absent, which `null` says. -/
def optional (p : Reader α) : Reader (Option α) where
  read s :=
    match skipSpacing s with
    | 'n' :: rest => (expect ['u', 'l', 'l'] rest).map fun r => (none, r)
    | _ => (p.read s).map fun q => (some q.1, q.2)
  shorter := by
    intro s r a h
    have hs := length_skipSpacing_le s
    split at h
    · rename_i rest hq
      cases he : expect ['u', 'l', 'l'] rest with
      | error e => rw [he] at h; cases h
      | ok q =>
        rw [he] at h
        simp only [Except.map, Except.ok.injEq, Prod.mk.injEq] at h
        have := length_le_of_expect he
        rw [hq, List.length_cons] at hs
        rw [← h.2]
        omega
    · cases hp : p.read s with
      | error e => rw [hp] at h; cases h
      | ok q =>
        rw [hp] at h
        simp only [Except.map, Except.ok.injEq, Prod.mk.injEq] at h
        exact p.shorter (a := q.1) (by rw [hp, ← h.2])

end Reader

end NodeCatalog.Json
