import Lisp.Decimal.Shortest

/-!
# How floats are written

- `Decimal.text`: the text of a decimal. Numbers from 0.0001 up to, but not including, 10 ^ 16 are
  written without a power of ten.
- `floatText`: the text of a float.
-/

namespace Lisp

namespace Decimal

/-- The least exponent of the leading digit that is written without a power of ten. -/
def leastPositional : Int := -4

/-- The greatest exponent of the leading digit that is written without a power of ten. -/
def greatestPositional : Int := 15

/-- The decimal digits of a natural, without the zeros that end them. -/
def significantDigits (n : Nat) : List Char :=
  ((Nat.toDigits 10 n).reverse.dropWhile (· == '0')).reverse

/-- Digits around a point, with at least one digit on either side. -/
def positional (digits : List Char) (point : Int) : List Char :=
  if point ≤ 0 then '0' :: '.' :: (List.replicate (-point).toNat '0' ++ digits)
  else
    let p := point.toNat
    if digits.length ≤ p then
      digits ++ List.replicate (p - digits.length) '0' ++ ['.', '0']
    else digits.take p ++ '.' :: digits.drop p

/-- One digit, a point if more follow, and a power of ten. -/
def scientific (digits : List Char) (exponent : Int) : List Char :=
  let power := 'e' :: (toString exponent).toList
  match digits with
  | d :: e :: ds => d :: '.' :: e :: (ds ++ power)
  | ds => ds ++ power

/-- The text of a decimal that is not zero. -/
def text (d : Decimal) : List Char :=
  let all := Nat.toDigits 10 d.coefficient
  let point := d.exponent + all.length
  let digits := significantDigits d.coefficient
  if leastPositional ≤ point - 1 ∧ point - 1 ≤ greatestPositional then positional digits point
  else scientific digits (point - 1)

end Decimal

/-- The text of a number of the format binary64, from its bits. -/
def Binary64.text (bits : UInt64) : String :=
  let sign (negative : Bool) (cs : List Char) := String.ofList (if negative then '-' :: cs else cs)
  match Binary64.decode bits with
  | .nan => "NaN"
  | .infinite negative => sign negative ['i', 'n', 'f']
  | .finite negative 0 _ => sign negative ['0', '.', '0']
  | .finite negative m q => sign negative (Decimal.shortest m q).text

/-- The text of a float. -/
def floatText (x : Float) : String := Binary64.text x.toBits

end Lisp
