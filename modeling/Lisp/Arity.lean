/-!
# How many arguments a function takes

- `Arity.ofParams`: read off a parameter list, in which `&` comes before the name for all further
  arguments.
-/

namespace Lisp

/-- The parameter that marks the next one as the name for all further arguments. -/
def restMarker : String := "&"

/-- A number of arguments. -/
inductive Arity where
  | exactly (n : Nat)
  | atLeast (n : Nat)
  deriving DecidableEq, Repr

namespace Arity

/-- The arity of a parameter list. -/
def ofParams (params : List String) : Arity :=
  if restMarker ∈ params then atLeast (params.idxOf restMarker) else exactly params.length

/-- Whether a function can be called with so many arguments. -/
def accepts : Arity → Nat → Bool
  | exactly n, count => count == n
  | atLeast n, count => n ≤ count

/-- The wording by which messages name an arity. -/
def text : Arity → String
  | exactly n => toString n
  | atLeast n => s!"at least {n}"

end Arity

end Lisp
