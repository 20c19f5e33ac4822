import Lisp.Decimal.Binary64

/-!
# The shortest decimal for a binary number

Of all decimals that are read back as a given number, the ones with the fewest digits are the
natural way to write it, and of these the nearest one.

- `Decimal`: a coefficient and a power of ten.
- `Decimal.shortest`: the fewest digits that read back, from the exact value of the number. A
  decimal half-way between two candidates goes up.
-/

namespace Lisp

/-- The number `coefficient * 10 ^ exponent`. -/
structure Decimal where
  coefficient : Nat
  exponent : Int
  deriving DecidableEq, Repr

namespace Decimal

/-- A power of ten. -/
def tenTo (n : Nat) : Nat := Nat.pow 10 n

/-- The number `mantissa * 2 ^ exponent` in units of `10 ^ unit`, together with the bounds between
which a decimal is read back as it. All three are numerators over one denominator. -/
structure Window where
  low : Nat
  value : Nat
  high : Nat
  den : Nat
  /-- Whether the bounds themselves are read back as the number. -/
  closed : Bool

/-- The numbers between the half-way points to the two neighbours of `m * 2 ^ q`. The neighbour
below a power of two is nearer than the one above. -/
def window (m : Nat) (q unit : Int) : Window :=
  let up := Binary64.twoTo (q - 2).toNat * tenTo (-unit).toNat
  let below := if m = Binary64.leastMantissa ∧ Binary64.leastExponent < q then 1 else 2
  { low := (4 * m - below) * up
    value := 4 * m * up
    high := (4 * m + 2) * up
    den := Binary64.twoTo (2 - q).toNat * tenTo unit.toNat
    closed := m % 2 = 0 }

/-- Whether a decimal coefficient is read back as the number. -/
def Window.holds (w : Window) (d : Nat) : Bool :=
  if w.closed then w.low ≤ d * w.den && d * w.den ≤ w.high
  else w.low < d * w.den && d * w.den < w.high

/-- The nearest coefficient that is read back as the number: one of the two around it. -/
def Window.nearest? (w : Window) : Option Nat :=
  let d := w.value / w.den
  match w.holds d, w.holds (d + 1) with
  | true, true => some (if 2 * (w.value % w.den) < w.den then d else d + 1)
  | true, false => some d
  | false, true => some (d + 1)
  | false, false => none

/-- The least power of ten above `m * 2 ^ q`. -/
def magnitude (m : Nat) (q : Int) : Int :=
  -- `30103 / 100000` is the logarithm of 2, near enough for every binary64 exponent.
  let guess := (m.log2 + q) * 30103 / 100000 + 1
  let w := window m q guess
  if w.value < w.den then guess else guess + 1

/-- The shortest decimal that is read back as `m * 2 ^ q`; seventeen digits are always enough. -/
def shortest (m : Nat) (q : Int) : Decimal :=
  let top := magnitude m q
  let found := (List.range 17).findSome? fun (n : Nat) =>
    let unit := top - (n + 1)
    (window m q unit).nearest?.map fun d => (⟨d, unit⟩ : Decimal)
  found.getD ⟨0, 0⟩

end Decimal

end Lisp
