import NodeCatalog.Json.Failure

/-!
# Reading string literals

A literal is read to its closing quote.  Where its text is wanted, every escape must denote a
character: a code from the surrogate range counts only as the first half of a pair.  Where the
literal is skipped, codes need not denote anything.

Each reading step takes something from the text (`shorter_of_readCode`, `shorter_of_readEscape`,
`shorter_of_readLiteral`, …), which is what ends the loops.
-/

namespace NodeCatalog.Json

/-! ### Codes -/

/-- The value of a hexadecimal digit. -/
def hexValue (c : Char) : Option Nat :=
  if '0' ≤ c ∧ c ≤ '9' then some (c.toNat - '0'.toNat)
  else if 'a' ≤ c ∧ c ≤ 'f' then some (c.toNat - 'a'.toNat + 10)
  else if 'A' ≤ c ∧ c ≤ 'F' then some (c.toNat - 'A'.toNat + 10)
  else none

/-- The number of bytes of a text. -/
def byteCount (s : List Char) : Nat :=
  s.foldl (fun n c => n + c.utf8Size) 0

/-- Reads a code of four hexadecimal digits.  Where fewer than four bytes are left the text is
unfinished, whatever they hold. -/
def readCode (s : List Char) : Except Failure (Nat × List Char) :=
  match s with
  | a :: b :: c :: d :: rest =>
    match hexValue a, hexValue b, hexValue c, hexValue d with
    | some a, some b, some c, some d => .ok (((a * 16 + b) * 16 + c) * 16 + d, rest)
    | _, _, _, _ => .error .malformed
  | _ => if byteCount s < 4 then .error .unfinished else .error .malformed

theorem shorter_of_readCode {s r : List Char} {n : Nat} (h : readCode s = .ok (n, r)) :
    r.length < s.length := by
  unfold readCode at h
  split at h
  · split at h
    · simp only [Except.ok.injEq, Prod.mk.injEq] at h
      simp only [List.length_cons, ← h.2]
      omega
    · cases h
  · split at h <;> cases h

/-- Whether a code is the first half of a surrogate pair. -/
def isLeading (n : Nat) : Bool :=
  decide (0xD800 ≤ n) && decide (n ≤ 0xDBFF)

/-- Whether a code is the second half of a surrogate pair. -/
def isTrailing (n : Nat) : Bool :=
  decide (0xDC00 ≤ n) && decide (n ≤ 0xDFFF)

/-- The character of a surrogate pair. -/
def pairChar (lead trail : Nat) : Char :=
  Char.ofNat (0x10000 + (lead - 0xD800) * 0x400 + (trail - 0xDC00))

/-! ### Escapes -/

/-- The character that a letter denotes after a backslash. -/
def shortEscape (c : Char) : Option Char :=
  match c with
  | '"' => some '"'
  | '\\' => some '\\'
  | '/' => some '/'
  | 'b' => some '\x08'
  | 'f' => some '\x0c'
  | 'n' => some '\n'
  | 'r' => some '\r'
  | 't' => some '\t'
  | _ => none

/-- Reads the second half of a surrogate pair. -/
def readTrailing (lead : Nat) (s : List Char) : Except Failure (Char × List Char) :=
  match s with
  | [] => .error .unfinished
  | ['\\'] => .error .unfinished
  | '\\' :: 'u' :: rest =>
    match readCode rest with
    | .error e => .error e
    | .ok (trail, rest) =>
      if isTrailing trail then .ok (pairChar lead trail, rest) else .error .malformed
  | _ => .error .malformed

/-- Reads an escape after its backslash. -/
def readEscape (s : List Char) : Except Failure (Char × List Char) :=
  match s with
  | [] => .error .unfinished
  | 'u' :: rest =>
    match readCode rest with
    | .error e => .error e
    | .ok (code, rest) =>
      -- a second half must not come first
      if isTrailing code then .error .malformed
      else if isLeading code then readTrailing code rest
      else .ok (Char.ofNat code, rest)
  | c :: rest =>
    match shortEscape c with
    | some d => .ok (d, rest)
    | none => .error .malformed

theorem shorter_of_readTrailing {lead : Nat} {s r : List Char} {c : Char}
    (h : readTrailing lead s = .ok (c, r)) : r.length < s.length := by
  unfold readTrailing at h
  split at h
  · cases h
  · cases h
  · split at h
    · cases h
    · rename_i hc
      have := shorter_of_readCode hc
      split at h
      · simp only [Except.ok.injEq, Prod.mk.injEq] at h
        simp only [List.length_cons, ← h.2]
        omega
      · cases h
  · cases h

theorem shorter_of_readEscape {s r : List Char} {c : Char} (h : readEscape s = .ok (c, r)) :
    r.length < s.length := by
  unfold readEscape at h
  split at h
  · cases h
  · split at h
    · cases h
    · rename_i hc
      have := shorter_of_readCode hc
      split at h
      · cases h
      · split at h
        · have := shorter_of_readTrailing h
          simp only [List.length_cons]
          omega
        · simp only [Except.ok.injEq, Prod.mk.injEq] at h
          simp only [List.length_cons, ← h.2]
          omega
  · split at h
    · simp only [Except.ok.injEq, Prod.mk.injEq] at h
      simp [← h.2]
    · cases h

/-- Skips an escape after its backslash; a code need not denote a character. -/
def skipEscape (s : List Char) : Except Failure (List Char) :=
  match s with
  | [] => .error .unfinished
  | 'u' :: rest => (readCode rest).map Prod.snd
  | c :: rest => if (shortEscape c).isSome then .ok rest else .error .malformed

theorem shorter_of_skipEscape {s r : List Char} (h : skipEscape s = .ok r) :
    r.length < s.length := by
  unfold skipEscape at h
  split at h
  · cases h
  · rename_i rest
    cases hc : readCode rest with
    | error e => rw [hc] at h; cases h
    | ok p =>
      rw [hc] at h
      simp only [Except.map, Except.ok.injEq] at h
      have := shorter_of_readCode (n := p.1) (r := p.2) hc
      simp only [List.length_cons, ← h]
      omega
  · split at h
    · simp only [Except.ok.injEq] at h
      simp [← h]
    · cases h

/-! ### Literals -/

/-- Puts a character before the text that was read. -/
def consChar (c : Char) (p : List Char × List Char) : List Char × List Char :=
  (c :: p.1, p.2)

/-- Reads a literal after its opening quote: its text, and what follows its closing quote. -/
def readLiteral (s : List Char) : Except Failure (List Char × List Char) :=
  match s with
  | [] => .error .unfinished
  | '"' :: rest => .ok ([], rest)
  | '\\' :: rest =>
    match _h : readEscape rest with
    | .error e => .error e
    | .ok (c, rest') => (readLiteral rest').map (consChar c)
  | c :: rest => if c < ' ' then .error .malformed else (readLiteral rest).map (consChar c)
termination_by s.length
decreasing_by
  · have := shorter_of_readEscape _h
    simp only [List.length_cons]
    omega
  · simp

/-- Skips a literal after its opening quote: what follows its closing quote. -/
def skipLiteral (s : List Char) : Except Failure (List Char) :=
  match s with
  | [] => .error .unfinished
  | '"' :: rest => .ok rest
  | '\\' :: rest =>
    match _h : skipEscape rest with
    | .error e => .error e
    | .ok rest' => skipLiteral rest'
  | c :: rest => if c < ' ' then .error .malformed else skipLiteral rest
termination_by s.length
decreasing_by
  · have := shorter_of_skipEscape _h
    simp only [List.length_cons]
    omega
  · simp

theorem shorter_of_readLiteral {s r t : List Char} (h : readLiteral s = .ok (t, r)) :
    r.length < s.length := by
  fun_induction readLiteral s generalizing t with
  | case1 => cases h
  | case2 =>
    simp only [Except.ok.injEq, Prod.mk.injEq] at h
    simp [← h.2]
  | case3 => cases h
  | case4 rest c rest' hc ih =>
    have := shorter_of_readEscape hc
    cases hl : readLiteral rest' with
    | error e => rw [hl] at h; cases h
    | ok p =>
      rw [hl] at h
      simp only [Except.map, consChar, Except.ok.injEq, Prod.mk.injEq] at h
      have := ih (t := p.1) (by rw [hl, ← h.2])
      simp only [List.length_cons]
      omega
  | case5 => cases h
  | case6 c rest _ _ _ ih =>
    cases hl : readLiteral rest with
    | error e => rw [hl] at h; cases h
    | ok p =>
      rw [hl] at h
      simp only [Except.map, consChar, Except.ok.injEq, Prod.mk.injEq] at h
      have := ih (t := p.1) (by rw [hl, ← h.2])
      simp only [List.length_cons]
      omega

theorem shorter_of_skipLiteral {s r : List Char} (h : skipLiteral s = .ok r) :
    r.length < s.length := by
  fun_induction skipLiteral s with
  | case1 => cases h
  | case2 =>
    simp only [Except.ok.injEq] at h
    simp [← h]
  | case3 => cases h
  | case4 rest rest' hc ih =>
    have := shorter_of_skipEscape hc
    have := ih h
    simp only [List.length_cons]
    omega
  | case5 => cases h
  | case6 c rest _ _ _ ih =>
    have := ih h
    simp only [List.length_cons]
    omega

end NodeCatalog.Json
