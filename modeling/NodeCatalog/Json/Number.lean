import NodeCatalog.Json.Failure

/-!
# Numbers

No record holds a number, so that a number is read only to be named in a message, `readNumber`, or
to be skipped, `skipNumber`.  A number that fits 64 bits and has neither point nor power is an
integer; any other is a decimal, and one too large for the floating-point format is malformed.

The digits of a decimal are taken into a significand of 64 bits as long as they fit.  Further digits
before the point count as a power of ten each, further ones after it as nothing.
-/

namespace NodeCatalog.Json

/-- The value of a decimal digit. -/
def digitValue (c : Char) : Nat :=
  c.toNat - '0'.toNat

/-- Takes digits into a significand as long as it stays below `2 ^ 64`; the answer holds the digits
that are left. -/
def absorb (significand : Nat) : List Char → Nat × List Char
  | [] => (significand, [])
  | c :: digits =>
    if significand * 10 + digitValue c < Nat.pow 2 64 then
      absorb (significand * 10 + digitValue c) digits
    else (significand, c :: digits)

/-- The digits at the start of a text, and what follows them. -/
def spanDigits (s : List Char) : List Char × List Char :=
  (s.takeWhile Char.isDigit, s.dropWhile Char.isDigit)

/-- The digits before the point; a zero stands there alone. -/
def readWhole (s : List Char) : Except Failure (List Char × List Char) :=
  match s with
  | [] => .error .unfinished
  | '0' :: rest =>
    match rest with
    | c :: _ => if c.isDigit then .error .malformed else .ok (['0'], rest)
    | [] => .ok (['0'], rest)
  | c :: _ => if c.isDigit then .ok (spanDigits s) else .error .malformed

/-- The power of ten after its mark. -/
def readPower (s : List Char) : Except Failure Int :=
  let (negative, s) :=
    match s with
    | '+' :: rest => (false, rest)
    | '-' :: rest => (true, rest)
    | _ => (false, s)
  match s with
  | [] => .error .unfinished
  | c :: _ =>
    if c.isDigit then
      let power : Int := Int.ofNat ((spanDigits s).1.foldl (fun n c => n * 10 + digitValue c) 0)
      .ok (if negative then -power else power)
    else .error .malformed

/-- The decimal `significand * 10 ^ power`, with its sign. -/
def decimalOf (negative : Bool) (significand : Nat) (power : Int) : Except Failure Found :=
  match Decimal.Magnitude.ofDecimal significand power with
  | some x => .ok (.decimal ⟨negative, x⟩)
  | none => .error .malformed

/-- The decimal whose power of ten may still follow. -/
def readScaled (negative : Bool) (significand : Nat) (power : Int) (s : List Char) :
    Except Failure Found :=
  match s with
  | c :: rest =>
    if c = 'e' ∨ c = 'E' then
      match readPower rest with
      | .error e => .error e
      | .ok further => decimalOf negative significand (power + further)
    else decimalOf negative significand power
  | [] => decimalOf negative significand power

/-- The decimal whose digits after the point follow. -/
def readFraction (negative : Bool) (significand : Nat) (power : Int) (s : List Char) :
    Except Failure Found :=
  let (digits, rest) := spanDigits s
  if digits.isEmpty then
    if rest.isEmpty then .error .unfinished else .error .malformed
  else
    let (significand, left) := absorb significand digits
    -- a digit that is left after the point does not count, not even as a power of ten
    readScaled negative significand (power - Int.ofNat (digits.length - left.length)) rest

/-- The number that starts a text, after its sign. -/
def readUnsigned (negative : Bool) (s : List Char) : Except Failure Found :=
  match readWhole s with
  | .error e => .error e
  | .ok (digits, rest) =>
    let (significand, left) := absorb 0 digits
    match rest with
    | '.' :: rest => readFraction negative significand left.length rest
    | _ =>
      if ¬left.isEmpty ∨ rest.head? = some 'e' ∨ rest.head? = some 'E' then
        readScaled negative significand left.length rest
      else if ¬negative then .ok (.integer significand)
      -- the integers of 64 bits hold neither a negative zero nor a number below `-2 ^ 63`
      else if significand = 0 ∨ Nat.pow 2 63 < significand then
        .ok (.decimal ⟨true, .nearest significand 1⟩)
      else .ok (.integer (-significand))

/-- The number that starts a text. -/
def readNumber (s : List Char) : Except Failure Found :=
  match s with
  | '-' :: rest => readUnsigned true rest
  | _ => readUnsigned false s

/-! ### Skipping -/

/-- Skips the digits of a power of ten after its mark. -/
def skipPower (s : List Char) : Except Failure (List Char) :=
  let s :=
    match s with
    | '+' :: rest => rest
    | '-' :: rest => rest
    | _ => s
  match s with
  | [] => .error .malformed
  | c :: rest => if c.isDigit then .ok (rest.dropWhile Char.isDigit) else .error .malformed

/-- Skips a power of ten, if one follows. -/
def skipScale (s : List Char) : Except Failure (List Char) :=
  match s with
  | c :: rest => if c = 'e' ∨ c = 'E' then skipPower rest else .ok s
  | [] => .ok s

/-- Skips a number after its sign.  A number that is cut off is malformed. -/
def skipUnsigned (s : List Char) : Except Failure (List Char) :=
  match readWhole s with
  | .error _ => .error .malformed
  | .ok (_, '.' :: rest) =>
    match rest with
    | c :: _ => if c.isDigit then skipScale (rest.dropWhile Char.isDigit) else .error .malformed
    | [] => .error .malformed
  | .ok (_, rest) => skipScale rest

/-- Skips the number that starts a text. -/
def skipNumber (s : List Char) : Except Failure (List Char) :=
  match s with
  | '-' :: rest => skipUnsigned rest
  | _ => skipUnsigned s

/-! ### Progress -/

theorem length_dropWhile_le (p : Char → Bool) (s : List Char) :
    (s.dropWhile p).length ≤ s.length :=
  (List.dropWhile_sublist p).length_le

theorem shorter_of_readWhole {s r d : List Char} (h : readWhole s = .ok (d, r)) :
    r.length < s.length := by
  unfold readWhole at h
  split at h
  · cases h
  · split at h
    · split at h
      · cases h
      · simp only [Except.ok.injEq, Prod.mk.injEq] at h
        simp [← h.2]
    · simp only [Except.ok.injEq, Prod.mk.injEq] at h
      simp [← h.2]
  · rename_i c rest _
    split at h
    · rename_i hc
      simp only [spanDigits, Except.ok.injEq, Prod.mk.injEq, List.dropWhile_cons, hc, if_true] at h
      have := length_dropWhile_le Char.isDigit rest
      simp only [List.length_cons, ← h.2]
      omega
    · cases h

theorem shorter_of_skipPower {s r : List Char} (h : skipPower s = .ok r) :
    r.length < s.length := by
  have key : ∀ t : List Char, (match t with
      | [] => Except.error Failure.malformed
      | c :: rest => if c.isDigit then .ok (rest.dropWhile Char.isDigit) else .error .malformed)
        = Except.ok r → r.length < t.length := by
    intro t ht
    split at ht
    · cases ht
    · rename_i rest
      split at ht
      · simp only [Except.ok.injEq] at ht
        have := length_dropWhile_le Char.isDigit rest
        simp only [List.length_cons, ← ht]
        omega
      · cases ht
  unfold skipPower at h
  have := key _ h
  split at this
  · simp only [List.length_cons]; omega
  · simp only [List.length_cons]; omega
  · exact this

theorem length_le_of_skipScale {s r : List Char} (h : skipScale s = .ok r) :
    r.length ≤ s.length := by
  unfold skipScale at h
  split at h
  · split at h
    · have := shorter_of_skipPower h
      simp only [List.length_cons]
      omega
    · simp only [Except.ok.injEq] at h
      simp [← h]
  · simp only [Except.ok.injEq] at h
    simp [← h]

theorem shorter_of_skipUnsigned {s r : List Char} (h : skipUnsigned s = .ok r) :
    r.length < s.length := by
  unfold skipUnsigned at h
  split at h
  · cases h
  · rename_i rest hw
    have hw := shorter_of_readWhole hw
    split at h
    · rename_i c rest _
      split at h
      · have := length_le_of_skipScale h
        have := length_dropWhile_le Char.isDigit (c :: rest)
        simp only [List.length_cons] at hw this ⊢
        omega
      · cases h
    · cases h
  · rename_i hw
    have := shorter_of_readWhole hw
    have := length_le_of_skipScale h
    omega

theorem shorter_of_skipNumber {s r : List Char} (h : skipNumber s = .ok r) :
    r.length < s.length := by
  unfold skipNumber at h
  split at h
  · have := shorter_of_skipUnsigned h
    simp only [List.length_cons]
    omega
  · exact shorter_of_skipUnsigned h

end NodeCatalog.Json
