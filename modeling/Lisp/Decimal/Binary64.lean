/-!
# Binary floating-point numbers of 64 bits

The exact value of a number of the format *binary64*, and the number nearest to a given ratio.

- `Binary64.Parts`: sign, mantissa and exponent, decoded from the 64 bits.
- `Binary64.ofRatio`: the bits of the number nearest to a ratio of naturals; of two equally near
  numbers it is the one with the even mantissa, and beyond the largest number it is infinity.
-/

namespace Lisp.Binary64

/-- What the 64 bits of a number mean. A finite number is `± mantissa * 2 ^ exponent`. -/
inductive Parts where
  | nan
  | infinite (negative : Bool)
  | finite (negative : Bool) (mantissa : Nat) (exponent : Int)
  deriving DecidableEq, Repr

/-- The exponent of the smallest numbers. -/
def leastExponent : Int := -1074

/-- The least mantissa of 53 bits, which is the unit of the exponent in the bits of a number. -/
def leastMantissa : Nat := 0x10000000000000

/-- The bits of infinity, which follow those of the largest number. -/
def infinityBits : Nat := 0x7ff0000000000000

/-- A power of two. -/
def twoTo (n : Nat) : Nat := Nat.pow 2 n

/-- Takes the bits of a number apart. -/
def decode (bits : UInt64) : Parts :=
  let negative := bits >>> 63 == 1
  let biased := ((bits >>> 52) &&& 0x7ff).toNat
  let fraction := (bits &&& 0xfffffffffffff).toNat
  if biased = 0 then .finite negative fraction leastExponent
  else if biased = 0x7ff then
    if fraction = 0 then .infinite negative else .nan
  else .finite negative (fraction + leastMantissa) (biased - 1075)

/-- The quotient rounded to the nearest natural, a half going to the even one. -/
def divToEven (num den : Nat) : Nat :=
  let q := num / den
  let twice := 2 * (num % den)
  if twice < den ∨ (twice = den ∧ q % 2 = 0) then q else q + 1

/-- The ratio `num / den / 2 ^ e`. -/
def scaleDown (num den : Nat) (e : Int) : Nat × Nat :=
  if 0 ≤ e then (num, den * twoTo e.toNat) else (num * twoTo (-e).toNat, den)

/-- The exponent for which the integral part of `num / den / 2 ^ e` has 53 bits. -/
def exponentFor (num den : Nat) : Int :=
  -- The ratio lies between `2 ^ (guess + 52)` and `2 ^ (guess + 54)`.
  let guess : Int := (num.log2 : Int) - den.log2 - 53
  let (n, d) := scaleDown num den guess
  if n / d < 2 * leastMantissa then guess else guess + 1

/-- The bits of the number nearest to `num / den`. -/
def ofRatio (num den : Nat) : UInt64 :=
  if num = 0 then 0
  else
    let e := max (exponentFor num den) leastExponent
    let (n, d) := scaleDown num den e
    -- A mantissa that rounds up to `2 ^ 53` carries into the exponent.
    let bits := (e - leastExponent).toNat * leastMantissa + divToEven n d
    (min bits infinityBits).toUInt64

end Lisp.Binary64
