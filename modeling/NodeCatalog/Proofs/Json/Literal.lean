import NodeCatalog.Json.Literal
import NodeCatalog.Json.Value

/-!
# Literals that are written can be read

A text is written as a literal character by character, and is read back in the same way: what a
character is written as is read as this character (`readLiteral_escape`).  A character is written
as itself, as a letter behind a backslash, or, if it is a control character without a letter, as a
code of four digits.  So a literal is read as the text that it is the literal of, whatever
characters this holds (`readLiteral_literal`).
-/

namespace NodeCatalog.Json

/-! ### Codes -/

theorem hexValue_hexDigit : ∀ n < 16, hexValue (hexDigit n) = some n := by
  decide

/-- The code of a control character is read as this character. -/
theorem readEscape_code {c : Char} (hc : c.toNat < 32) (rest : List Char) :
    readEscape ('u' :: '0' :: '0' :: hexDigit (c.toNat / 16) :: hexDigit (c.toNat % 16) :: rest) =
      .ok (c, rest) := by
  have hzero : hexValue '0' = some 0 := rfl
  have hhigh := hexValue_hexDigit (c.toNat / 16) (by omega)
  have hlow := hexValue_hexDigit (c.toNat % 16) (by omega)
  have hcode : ((0 * 16 + 0) * 16 + c.toNat / 16) * 16 + c.toNat % 16 = c.toNat := by omega
  -- such a code is no half of a surrogate pair
  have htrailing : isTrailing c.toNat = false := by
    rw [isTrailing, decide_eq_false (by omega), Bool.false_and]
  have hleading : isLeading c.toNat = false := by
    rw [isLeading, decide_eq_false (by omega), Bool.false_and]
  simp only [readEscape, readCode, hzero, hhigh, hlow, hcode, htrailing, hleading,
    Bool.false_eq_true, if_false, Char.ofNat_toNat]

/-! ### Characters -/

/-- Control characters are those below the blank. -/
theorem lt_blank_iff {c : Char} : c < ' ' ↔ c.toNat < 32 :=
  Iff.rfl

theorem readLiteral_cons {c : Char} (hquote : c ≠ '"') (hbackslash : c ≠ '\\')
    (hcontrol : ¬ c < ' ') (rest : List Char) :
    readLiteral (c :: rest) = (readLiteral rest).map (consChar c) := by
  rw [readLiteral.eq_def]
  split
  · rename_i h
    cases h
  · rename_i h
    exact absurd (List.cons.inj h).1 hquote
  · rename_i h
    exact absurd (List.cons.inj h).1 hbackslash
  · rename_i h
    obtain ⟨rfl, rfl⟩ := List.cons.inj h
    rw [if_neg hcontrol]

theorem readLiteral_backslash {c : Char} {s rest : List Char} (h : readEscape s = .ok (c, rest)) :
    readLiteral ('\\' :: s) = (readLiteral rest).map (consChar c) := by
  rw [readLiteral]
  split
  · rename_i hfailure
    rw [h] at hfailure
    cases hfailure
  · rename_i hread
    rw [h] at hread
    obtain ⟨rfl, rfl⟩ := Prod.mk.inj (Except.ok.inj hread)
    rfl

/-- What a character is written as is read as this character. -/
theorem readLiteral_escape (c : Char) (rest : List Char) :
    readLiteral (escape c ++ rest) = (readLiteral rest).map (consChar c) := by
  unfold escape
  split
  -- seven characters have a letter
  iterate 7 exact readLiteral_backslash rfl
  rename_i hquote hbackslash _ _ _ _ _
  split
  · rename_i hcontrol
    exact readLiteral_backslash (readEscape_code (lt_blank_iff.mp hcontrol) rest)
  · rename_i hcontrol
    exact readLiteral_cons hquote hbackslash hcontrol rest

/-! ### Literals -/

theorem readLiteral_flatMap_escape (s rest : List Char) :
    readLiteral (s.flatMap escape ++ '"' :: rest) = .ok (s, rest) := by
  induction s with
  | nil => rw [List.flatMap_nil, List.nil_append, readLiteral]
  | cons c s ih =>
    rw [List.flatMap_cons, List.append_assoc, readLiteral_escape, ih]
    rfl

/-- A literal starts with a quote, and behind it its text is read. -/
theorem readLiteral_literal (s : String) (rest : List Char) :
    ∃ r, literal s ++ rest = '"' :: r ∧ readLiteral r = .ok (s.toList, rest) := by
  refine ⟨s.toList.flatMap escape ++ '"' :: rest, ?_, readLiteral_flatMap_escape s.toList rest⟩
  rw [literal, List.cons_append, List.cons_append, List.append_assoc, List.singleton_append]

end NodeCatalog.Json
