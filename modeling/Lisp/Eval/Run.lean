import Lisp.Eval.Step

/-!
# Evaluation

A form is evaluated step by step. A form in tail position takes the place of the one before it, so
that a loop of tail calls needs no more room the longer it runs.

- `Eval.run`: evaluates a form in the innermost scope under way. A safe point follows each step
  that leaves a form to evaluate.
- `Eval.eval`: evaluates a form in a scope.
- `Eval.evalProgram`: evaluates top-level forms.

All of them take the number of steps that may be nested or follow each other, and the condition on
which a safe point collects.
-/

namespace Lisp.Eval

/-- Evaluates a form in the innermost scope under way. -/
def run (due : Session → Bool) : Nat → Evaluator
  | 0, _, _ => throw .outOfFuel
  | fuel + 1, f, scope => do
    let nested : Evaluator := fun f inner => entering inner (run due fuel f inner)
    match ← step nested f scope with
    | .done v => return v
    | .tail inner next =>
      moveTo inner
      safePoint due
      run due fuel next inner

/-- Evaluates a form in a scope. -/
def eval (due : Session → Bool) (fuel : Nat) : Evaluator := fun f scope =>
  entering scope (run due fuel f scope)

/-- The values of the top-level forms of a program in the global scope, in order. Comments have
none. A safe point comes first. -/
def evalProgram (due : Session → Bool) (fuel : Nat) (p : Program) : Eval (List Value) := do
  safePoint due
  evalAll (eval due fuel) (← get).global (Form.significant p.forms)

end Lisp.Eval
