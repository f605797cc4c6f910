/-!
# Numbers of double precision

A number with a fraction or an exponent is kept in double precision: as the nearest number with a
mantissa of 53 bits, and of two that are equally near the one with the even mantissa.  All of it is
arithmetic on whole numbers.

`roundQuotient_le` and `le_roundQuotient` say that rounding goes to a nearest whole number.
-/

namespace ModuleSurface.Config

/-- The whole number nearest to a quotient; of two the even one. -/
def roundQuotient (num den : Nat) : Nat :=
  let q := num / den
  let r := num % den
  if den < 2 * r ∨ (den = 2 * r ∧ q % 2 = 1) then q + 1 else q

/-- The rounded quotient is at most half a unit too large. -/
theorem roundQuotient_le (num den : Nat) :
    2 * (den * roundQuotient num den) ≤ 2 * num + den := by
  have h := Nat.div_add_mod num den
  simp only [roundQuotient]
  split
  · rw [Nat.mul_add]
    omega
  · omega

/-- The rounded quotient is at most half a unit too small. -/
theorem le_roundQuotient (num : Nat) {den : Nat} (hden : 0 < den) :
    2 * num ≤ 2 * (den * roundQuotient num den) + den := by
  have h := Nat.div_add_mod num den
  have hr := Nat.mod_lt num hden
  simp only [roundQuotient]
  split
  · rw [Nat.mul_add]
    omega
  · omega

/-- A number of double precision. -/
inductive Double where
  /-- The number `mantissa * 2 ^ exponent`. -/
  | finite (mantissa : Int) (exponent : Int)
  /-- A number that is infinite or undefined. -/
  | notFinite
  deriving DecidableEq, Repr

namespace Double

/-- The largest exponent. -/
def maxExponent : Int := 971

/-- The smallest exponent. -/
def minExponent : Int := -1074

/-- The number of binary digits in front of the point of a quotient, which is not positive if the
quotient is less than one. -/
def binarySize (num den : Nat) : Int :=
  let size := Int.ofNat num.log2 - Int.ofNat den.log2
  let isReached :=
    if size < 0 then den ≤ num * Nat.pow 2 size.natAbs else den * Nat.pow 2 size.toNat ≤ num
  if isReached then size + 1 else size

/-- The quotient of two positive numbers in double precision, made negative if `negative`. -/
def ofQuotient (negative : Bool) (num den : Nat) : Double :=
  let exponent := max (binarySize num den - 53) minExponent
  let m :=
    if exponent < 0 then roundQuotient (num * Nat.pow 2 exponent.natAbs) den
    else roundQuotient num (den * Nat.pow 2 exponent.toNat)
  if maxExponent < exponent ∨ (maxExponent = exponent ∧ m = Nat.pow 2 53) then notFinite
  else finite (if negative then -Int.ofNat m else Int.ofNat m) exponent

/-- Numbers with more decimal digits in front of the point are infinite, and numbers with so many
zeros behind the point are zero. -/
def decimalLimit : Int := 330

/-- The number `digits * 10 ^ exponent` in double precision, made negative if `negative`. -/
def ofDecimal (negative : Bool) (digits : Nat) (exponent : Int) : Double :=
  let size := Int.ofNat (Nat.toDigits 10 digits).length + exponent
  if digits = 0 ∨ size < -decimalLimit then finite 0 0
  else if decimalLimit < size then notFinite
  else if exponent < 0 then ofQuotient negative digits (Nat.pow 10 exponent.natAbs)
  else ofQuotient negative (digits * Nat.pow 10 exponent.toNat) 1

/-- The whole number that a number is, if it is one. -/
def whole? : Double → Option Int
  | finite m e =>
    if e < 0 then
      if m % Int.pow 2 e.natAbs = 0 then some (m / Int.pow 2 e.natAbs) else none
    else some (m * Int.pow 2 e.toNat)
  | notFinite => none

/-- Numbers from here on, in both directions, are not taken for whole numbers. -/
def wordLimit : Int := Int.pow 2 63

/-- Is the whole number small enough to be taken? -/
def isWord (n : Int) : Bool :=
  decide (-wordLimit < n) && decide (n < wordLimit)

end Double

example : (Double.ofDecimal false 10000000000000000001 (-19)).whole? = some 1 := by decide +kernel
example : (Double.ofDecimal false 1 309) = .notFinite := by decide +kernel
example : (Double.ofDecimal true 20 (-1)).whole? = some (-2) := by decide +kernel
example : (Double.ofDecimal false 15 (-1)).whole? = none := by decide +kernel

end ModuleSurface.Config
