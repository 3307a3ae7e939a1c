/-!
# Binary floating point

A finite number of the 64-bit format is a sign and a magnitude `mantissa * 2 ^ exponent`, whose
mantissa is below `2 ^ 53` and whose exponent lies between `-1074` and `971`.  All arithmetic is
exact arithmetic on natural numbers followed by one rounding, `Magnitude.nearest`: to the nearest
magnitude, and from the middle to the even mantissa.

`Magnitude.ofDecimal` reads a significand and a power of ten.  It rounds the significand first and
scales it after that, by one rounded power of ten where the format holds that power, so that its
last digit may differ from that of the magnitude nearest to the decimal.
-/

namespace NodeCatalog.Decimal

/-- A quotient to the nearest natural number, from the middle to the even one. -/
def divNearest (num den : Nat) : Nat :=
  let q := num / den
  let r := num % den
  if 2 * r < den ∨ (2 * r = den ∧ q % 2 = 0) then q else q + 1

/-- A magnitude of the format, or one that is too large for it. -/
structure Magnitude where
  /-- A natural number below `2 ^ 53`. -/
  mantissa : Nat
  /-- The power of two that scales it. -/
  exponent : Int
deriving DecidableEq, Repr

namespace Magnitude

/-- The magnitude zero. -/
def zero : Magnitude := ⟨0, -1074⟩

/-- Numerator and denominator of `num / den` in units of `2 ^ e`. -/
def inUnits (num den : Nat) (e : Int) : Nat × Nat :=
  (num * Nat.pow 2 (-e).toNat, den * Nat.pow 2 e.toNat)

/-- The magnitude nearest to `num / den`; the exponent is the least for which the mantissa fits. -/
def nearest (num den : Nat) : Magnitude :=
  if num = 0 then zero
  else
    -- the quotient lies between `2 ^ 52` and `2 ^ 54` of these units, or the units are the least ones
    let low := max ((num.log2 : Int) - (den.log2 : Int) - 53) (-1074)
    let wide := inUnits num den low
    let e := if Nat.pow 2 53 * wide.2 ≤ wide.1 then low + 1 else low
    let fit := inUnits num den e
    let m := divNearest fit.1 fit.2
    -- rounding up may give one bit too many
    if m = Nat.pow 2 53 then ⟨Nat.pow 2 52, e + 1⟩ else ⟨m, e⟩

/-- Whether the format holds the magnitude. -/
def isFinite (x : Magnitude) : Bool :=
  decide (x.exponent ≤ 971)

/-- The magnitude as numerator and denominator. -/
def fraction (x : Magnitude) : Nat × Nat :=
  (x.mantissa * Nat.pow 2 x.exponent.toNat, Nat.pow 2 (-x.exponent).toNat)

/-- The rounded product. -/
def mul (x y : Magnitude) : Magnitude :=
  nearest (x.fraction.1 * y.fraction.1) (x.fraction.2 * y.fraction.2)

/-- The rounded quotient. -/
def div (x y : Magnitude) : Magnitude :=
  nearest (x.fraction.1 * y.fraction.2) (x.fraction.2 * y.fraction.1)

/-- The rounded power of ten. -/
def powerOfTen (k : Nat) : Magnitude :=
  nearest (Nat.pow 10 k) 1

/-- The greatest power of ten that the format holds. -/
def maxPowerOfTen : Nat := 308

/-- Divides by a power of ten, in steps of powers that the format holds. -/
def divPowerOfTen (x : Magnitude) (k : Nat) : Magnitude :=
  if x.mantissa = 0 then zero
  else if k ≤ maxPowerOfTen then x.div (powerOfTen k)
  else (x.div (powerOfTen maxPowerOfTen)).divPowerOfTen (k - maxPowerOfTen)
termination_by k
decreasing_by
  rename_i h
  simp only [maxPowerOfTen] at h ⊢
  omega

/-- The magnitude of `significand * 10 ^ e`, unless it is too large for the format. -/
def ofDecimal (significand : Nat) (e : Int) : Option Magnitude :=
  let x := nearest significand 1
  if e < 0 then some (x.divPowerOfTen (-e).toNat)
  else if e.toNat ≤ maxPowerOfTen then
    let y := x.mul (powerOfTen e.toNat)
    if y.isFinite then some y else none
  else if significand = 0 then some zero
  else none

end Magnitude

/-- A finite number of the format. -/
structure Binary64 where
  /-- Whether it carries a minus sign; zero may carry one. -/
  negative : Bool
  magnitude : Magnitude
deriving DecidableEq, Repr

/-! ### Rounding -/

/-- The rounded quotient is within half a unit of the exact one. -/
theorem divNearest_near (num den : Nat) (h : 0 < den) :
    2 * (divNearest num den * den) ≤ 2 * num + den ∧
      2 * num ≤ 2 * (divNearest num den * den) + den := by
  have hdiv : num / den * den + num % den = num := by
    rw [Nat.mul_comm]; exact Nat.div_add_mod num den
  have hlt : num % den < den := Nat.mod_lt _ h
  simp only [divNearest]
  split
  · omega
  · rw [Nat.add_mul]
    omega

end NodeCatalog.Decimal
