/-!
# Blank characters

White space is the Unicode property of that name: 25 characters in ten ranges, more than the four
that core counts as white space.  `isBlank_of_isWhitespace` says that nothing of core is lost, and
`blankRanges_count` that the table has the size of the property.
-/

namespace NodeCatalog.Text

/-- Whether `n` lies in one of the closed ranges. -/
def inRanges (ranges : List (Nat × Nat)) (n : Nat) : Bool :=
  ranges.any fun r => decide (r.1 ≤ n) && decide (n ≤ r.2)

/-- The code points of white space, as closed ranges, ascending and apart. -/
def blankRanges : List (Nat × Nat) :=
  [(0x09, 0x0D), (0x20, 0x20), (0x85, 0x85), (0xA0, 0xA0), (0x1680, 0x1680), (0x2000, 0x200A),
   (0x2028, 0x2029), (0x202F, 0x202F), (0x205F, 0x205F), (0x3000, 0x3000)]

/-- Whether a character is white space. -/
def isBlank (c : Char) : Bool :=
  inRanges blankRanges c.toNat

/-- A text without the white space at its start. -/
def trimStart (s : List Char) : List Char :=
  s.dropWhile isBlank

/-- A text without the white space at its end. -/
def trimEnd (s : List Char) : List Char :=
  (s.reverse.dropWhile isBlank).reverse

/-- A text without the white space at both its ends. -/
def trim (s : List Char) : List Char :=
  trimEnd (trimStart s)

/-! ### The table -/

/-- The table holds 25 characters. -/
theorem blankRanges_count : blankRanges.foldl (fun n r => n + (r.2 + 1 - r.1)) 0 = 25 := by
  decide

/-- What core counts as white space is blank. -/
theorem isBlank_of_isWhitespace (c : Char) (h : c.isWhitespace = true) : isBlank c = true := by
  simp only [Char.isWhitespace, Bool.or_eq_true, decide_eq_true_eq] at h
  rcases h with ((h | h) | h) | h <;> subst h <;> decide

end NodeCatalog.Text
