import NodeCatalog.Decimal.Binary64

/-!
# Shortest decimals

The text of a floating-point number has the fewest digits that read back as the number.  Of the two
decimals with that many digits beside it the nearer is written, and of two equally near ones the one
whose last digit is even.  Numbers of up to sixteen digits before the point are written
positionally, down to four zeros after the point; all others have one digit before the point and a
power of ten with its sign.
-/

namespace NodeCatalog.Decimal

/-- The decimal `digits * 10 ^ exponent`. -/
structure Scientific where
  digits : Nat
  exponent : Int
deriving DecidableEq, Repr

/-- The digits of a natural number, the first one first. -/
def digitsOf (n : Nat) : List Char :=
  Nat.toDigits 10 n

/-- The text of an integer. -/
def integerText (n : Int) : List Char :=
  if n < 0 then '-' :: digitsOf n.natAbs else digitsOf n.natAbs

/-- The text of a power of ten, which always carries its sign. -/
def powerText (n : Int) : List Char :=
  (if n < 0 then '-' else '+') :: digitsOf n.natAbs

namespace Scientific

/-- The magnitude nearest to a decimal. -/
def magnitude (d : Scientific) : Magnitude :=
  Magnitude.nearest (d.digits * Nat.pow 10 d.exponent.toNat) (Nat.pow 10 (-d.exponent).toNat)

/-- The same decimal without zeros at the end of its digits. -/
def strip (d : Scientific) : Scientific :=
  if d.digits = 0 ∨ d.digits % 10 ≠ 0 then d
  else strip ⟨d.digits / 10, d.exponent + 1⟩
termination_by d.digits
decreasing_by
  rename_i h
  simp only [not_or, Decidable.not_not] at h
  exact Nat.div_lt_self (by omega) (by decide)

/-- The text of a decimal whose digits are not zero. -/
def text (d : Scientific) : List Char :=
  let ds := digitsOf d.digits
  let point : Int := ds.length + d.exponent
  if 0 ≤ d.exponent ∧ point ≤ 16 then
    ds ++ List.replicate d.exponent.toNat '0' ++ ['.', '0']
  else if 0 < point ∧ point ≤ 16 then
    ds.take point.toNat ++ '.' :: ds.drop point.toNat
  else if -5 < point ∧ point ≤ 0 then
    '0' :: '.' :: List.replicate (-point).toNat '0' ++ ds
  else if ds.length = 1 then
    ds ++ 'e' :: powerText (point - 1)
  else
    ds.take 1 ++ '.' :: ds.drop 1 ++ 'e' :: powerText (point - 1)

end Scientific

namespace Magnitude

/-- The number of digits before the point, counted down below zero by zeros after the point: the
least `k` with `x < 10 ^ k`. -/
def scale (x : Magnitude) : Int :=
  ((digitsOf (x.fraction.1 * Nat.pow 10 324 / x.fraction.2)).length : Int) - 324

/-- The two decimals of `n` digits beside a magnitude, the nearer one first. -/
def beside (x : Magnitude) (n : Nat) : List Scientific :=
  let e := x.scale - n
  let num := x.fraction.1 * Nat.pow 10 (-e).toNat
  let den := x.fraction.2 * Nat.pow 10 e.toNat
  let below := num / den
  let near := divNearest num den
  [⟨near, e⟩, ⟨if near = below then below + 1 else below, e⟩]

/-- The decimal that equals a magnitude. -/
def exact (x : Magnitude) : Scientific :=
  if x.exponent < 0 then ⟨x.mantissa * Nat.pow 5 (-x.exponent).toNat, x.exponent⟩
  else ⟨x.mantissa * Nat.pow 2 x.exponent.toNat, 0⟩

/-- The shortest decimal that reads back as the magnitude.  Seventeen digits are enough; if they
were not, the equal decimal would stand in. -/
def shortest (x : Magnitude) : Scientific :=
  let found := (List.range' 1 17).findSome? fun n =>
    (x.beside n).find? fun d => d.magnitude = x
  (found.getD x.exact).strip

end Magnitude

/-- The text of a number. -/
def Binary64.text (x : Binary64) : String :=
  let sign := if x.negative then ['-'] else []
  let magnitude :=
    if x.magnitude.mantissa = 0 then ['0', '.', '0'] else x.magnitude.shortest.text
  String.ofList (sign ++ magnitude)

end NodeCatalog.Decimal
