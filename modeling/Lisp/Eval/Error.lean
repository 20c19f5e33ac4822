import Lisp.Arity
import Lisp.Eval.SpecialForm
import Lisp.Form.ReadError
import Lisp.Number

/-!
# What can go wrong in an evaluation

- `EvalError`: the faults, each with the span to blame.
- `EvalError.message`: their wording.
- `Failure`: a fault of the source text or of its evaluation.
-/

namespace Lisp

/-- What an operation expects of an operand. -/
inductive Expectation where
  | number
  | key
  deriving DecidableEq, Repr

/-- The wording by which messages name an expectation. -/
def Expectation.text : Expectation → String
  | number => "a number"
  | key => "a string or keyword key"

/-- A fault of an evaluation. -/
inductive EvalError where
  | undefinedSymbol (name : String) (span : Span)
  | unpairedKey (span : Span)
  | typeMismatch (operation : String) (expected : Expectation) (found : String) (span : Span)
  | arity (name : String) (expected : Arity) (found : Nat) (span : Span)
  | specialForm (fault : SpecialForm.Fault) (span : Span)
  | invalidLiteral (text : String) (span : Span)
  | arithmetic (operation : String) (cause : ArithmeticError) (span : Span)
  | output (cause : String) (span : Span)
  deriving DecidableEq, Repr

namespace EvalError

/-- The stretch of text to blame. -/
def span : EvalError → Span
  | undefinedSymbol _ s | unpairedKey s | typeMismatch _ _ _ s | arity _ _ _ s | specialForm _ s
  | invalidLiteral _ s | arithmetic _ _ s | output _ s => s

/-- The wording of a fault. -/
def message (e : EvalError) : String :=
  let place := s!"[{e.span.text}] "
  match e with
  | undefinedSymbol name _ => place ++ s!"symbol({name}) not found"
  | unpairedKey _ => place ++ "map literal has a key without a value"
  | typeMismatch operation expected found _ =>
    place ++ s!"'{operation}' expects {expected.text}, got {found}"
  | arity name expected found _ =>
    place ++ s!"'{name}' expects {expected.text} arguments, got {found}"
  | specialForm fault _ => place ++ s!"invalid special form: {fault.message}"
  | invalidLiteral text _ => place ++ s!"invalid literal: {text}"
  | arithmetic operation cause _ => place ++ s!"{cause.message} in '{operation}'"
  | output cause _ => place ++ s!"could not write output: {cause}"

end EvalError

/-- Why a source text gives no values. -/
inductive Failure where
  | read (error : ReadError)
  | eval (error : EvalError)
  deriving DecidableEq, Repr

namespace Failure

/-- The stretch of text to blame. -/
def span : Failure → Span
  | read e => e.span
  | eval e => e.span

/-- The wording of a failure. -/
def message : Failure → String
  | read e => e.message
  | eval e => e.message

end Failure

end Lisp
