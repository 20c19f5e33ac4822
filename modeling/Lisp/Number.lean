import Lisp.Integer

/-!
# Numbers

Two integers give an integer; as soon as a float takes part, both are taken as floats.

- `Number.add`, `Number.sub`, `Number.mul`, `Number.div`: arithmetic. Integer results are exact or
  refused, and a zero divisor is refused for floats as well.
- `Number.compare?`: the order of two numbers, which an undefined float has none with.
-/

namespace Lisp

/-- A number: a machine integer or a float. -/
inductive Number where
  | int (n : Int64)
  | float (x : Float)

/-- Why an operation has no result. -/
inductive ArithmeticError where
  | divisionByZero
  | overflow
  deriving DecidableEq, Repr

/-- The wording of the reason. -/
def ArithmeticError.message : ArithmeticError → String
  | divisionByZero => "division by zero"
  | overflow => "integer overflow"

namespace Number

/-- A number as a float; integers are rounded to the nearest one. -/
def toFloat : Number → Float
  | int n => n.toFloat
  | float x => x

/-- Whether a number is zero, of either sign. -/
def isZero : Number → Bool
  | int n => n == 0
  | float x => x == 0

/-- An exact integer as a number, if it is in range. -/
def ofInt (i : Int) : Except ArithmeticError Number :=
  match Integer.ofInt? i with
  | some n => .ok (.int n)
  | none => .error .overflow

/-- An operation on integers and its counterpart on floats. -/
def combine (onInts : Int → Int → Int) (onFloats : Float → Float → Float) :
    Number → Number → Except ArithmeticError Number
  | int a, int b => ofInt (onInts a.toInt b.toInt)
  | a, b => .ok (.float (onFloats a.toFloat b.toFloat))

/-- The sum of two numbers. -/
def add : Number → Number → Except ArithmeticError Number := combine (· + ·) (· + ·)

/-- The difference of two numbers. -/
def sub : Number → Number → Except ArithmeticError Number := combine (· - ·) (· - ·)

/-- The product of two numbers. -/
def mul : Number → Number → Except ArithmeticError Number := combine (· * ·) (· * ·)

/-- The quotient of two numbers. That of two integers is truncated toward zero. -/
def div (a b : Number) : Except ArithmeticError Number :=
  if b.isZero then .error .divisionByZero else combine Int.tdiv (· / ·) a b

/-- The order of two floats; an undefined float has none. -/
def compareFloats? (x y : Float) : Option Ordering :=
  if x < y then some .lt else if x == y then some .eq else if y < x then some .gt else none

/-- The order of two numbers. Two integers are compared exactly. -/
def compare? : Number → Number → Option Ordering
  | int a, int b => some (Ord.compare a.toInt b.toInt)
  | a, b => compareFloats? a.toFloat b.toFloat

end Number

end Lisp
