/-!
# Special forms

The lists whose head says how their operands are evaluated.

- `SpecialForm`: their names.
- `SpecialForm.Fault`: how their operands can be malformed, and the wording.
-/

namespace Lisp

/-- A special form. -/
inductive SpecialForm where
  /-- Binds a name in the current scope. -/
  | define
  /-- Evaluates a form in a new scope. -/
  | bindings
  /-- Evaluates forms one after the other. -/
  | sequence
  /-- Evaluates one of two forms. -/
  | branch
  /-- Makes a function. -/
  | function
  deriving DecidableEq, Repr

namespace SpecialForm

/-- The name at the head of a special form. -/
def name : SpecialForm → String
  | define => "def!"
  | bindings => "let*"
  | sequence => "do"
  | branch => "if"
  | function => "fn*"

/-- All special forms. -/
def all : List SpecialForm := [define, bindings, sequence, branch, function]

/-- The special form with a given name. -/
def ofName? (n : String) : Option SpecialForm := all.find? (·.name == n)

/-- What can be wrong with the operands of a special form. -/
inductive Fault where
  /-- Not a name and a value. -/
  | defineOperands
  /-- Not bindings and a body. -/
  | bindingsOperands
  /-- Not a condition and one or two alternatives. -/
  | branchOperands
  /-- Not parameters and a body. -/
  | functionOperands
  /-- Names and values do not pair up. -/
  | unpaired
  /-- The operand that holds names is no list or vector. -/
  | notASequence (form : SpecialForm)
  /-- A form, given by its text, stands where a name should. -/
  | notASymbol (form : SpecialForm) (found : String)
  /-- The marker of further arguments is not the last parameter but one. -/
  | misplacedMarker
  deriving DecidableEq, Repr

/-- The wording of a fault. -/
def Fault.message : Fault → String
  | defineOperands => "def! expects a symbol and a value"
  | bindingsOperands => "let* expects bindings and a single body form"
  | branchOperands => "if expects a condition, a consequent and an optional alternate"
  | functionOperands => "fn* expects parameters and a single body form"
  | unpaired => "let* bindings must come in name/value pairs"
  | notASequence form => s!"{form.name} expects a list or vector of bindings"
  | notASymbol form found => s!"{form.name} expects a symbol, got {found}"
  | misplacedMarker => "& must be followed by exactly one parameter name"

end SpecialForm

end Lisp
