import Lisp.Decimal.Shortest
import Lisp.Integer

/-!
# Reading numbers

- `Numeral.int?`: an optional sign and digits, if the number fits a machine integer.
- `Numeral.float?`: a decimal with an optional point and power of ten, rounded to the nearest
  float, or one of the names of infinity and of the undefined number.
-/

namespace Lisp.Numeral

/-- The natural that a run of digits stands for. -/
def ofDigits (ds : List Char) : Nat :=
  ds.foldl (fun n d => 10 * n + (d.toNat - '0'.toNat)) 0

/-- The natural that a text stands for, if it is a run of digits. -/
def nat? (cs : List Char) : Option Nat :=
  if cs ≠ [] ∧ cs.all Char.isDigit then some (ofDigits cs) else none

/-- Splits off a sign; the flag says whether it is a minus. -/
def splitSign : List Char → Bool × List Char
  | '-' :: cs => (true, cs)
  | '+' :: cs => (false, cs)
  | cs => (false, cs)

/-- The integer with a given sign and absolute value. -/
def withSign (negative : Bool) (n : Nat) : Int := if negative then -n else n

/-- The machine integer that a text stands for. -/
def int? (cs : List Char) : Option Int64 :=
  let (negative, ds) := splitSign cs
  (nat? ds).bind fun n => Integer.ofInt? (withSign negative n)

/-- The power of ten that ends a decimal: nothing, or a mark, an optional sign and digits. -/
def power? : List Char → Option Int
  | [] => some 0
  | c :: cs =>
    if c = 'e' ∨ c = 'E' then
      let (negative, ds) := splitSign cs
      (nat? ds).map (withSign negative)
    else none

/-- Digits after a point, if there is one, and the text after them. -/
def splitFraction : List Char → List Char × List Char
  | '.' :: cs => (cs.takeWhile Char.isDigit, cs.dropWhile Char.isDigit)
  | cs => ([], cs)

/-- The bits of the number nearest to `digits * 10 ^ e`. Powers of ten that are out of range for
every coefficient of that many digits are not computed. -/
def nearest (digits : List Char) (e : Int) : UInt64 :=
  let n := ofDigits digits
  if n = 0 then 0
  else if 400 < e then Binary64.infinityBits.toUInt64
  else if e + digits.length < -400 then 0
  else if 0 ≤ e then Binary64.ofRatio (n * Decimal.tenTo e.toNat) 1
  else Binary64.ofRatio n (Decimal.tenTo (-e).toNat)

/-- The bits that an unsigned decimal stands for. There is at least one digit on one side of the
point. -/
def decimal? (cs : List Char) : Option UInt64 :=
  let whole := cs.takeWhile Char.isDigit
  let (fraction, rest) := splitFraction (cs.dropWhile Char.isDigit)
  if whole = [] ∧ fraction = [] then none
  else (power? rest).map fun e => nearest (whole ++ fraction) (e - fraction.length)

/-- The bits of the numbers that have a name. Letters may be in either case. -/
def named? (cs : List Char) : Option UInt64 :=
  let name := String.ofList (cs.map Char.toLower)
  if name = "inf" ∨ name = "infinity" then some 0x7ff0000000000000
  else if name = "nan" then some 0x7ff8000000000000
  else none

/-- The float that a text stands for. -/
def float? (cs : List Char) : Option Float :=
  let (negative, rest) := splitSign cs
  let bits := (decimal? rest).or (named? rest)
  bits.map fun b => Float.ofBits (if negative then b ||| 0x8000000000000000 else b)

end Lisp.Numeral
