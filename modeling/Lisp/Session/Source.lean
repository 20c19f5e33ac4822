import Lisp.Eval.Run
import Lisp.Form.Reader

/-!
# Evaluating source texts

A session evaluates one source text after the other; the definitions of one are there for the
next, also when it failed half-way.

- `Session.evalSource`: reads and evaluates a source text. `Session.evalSourceWith` is told when a
  safe point collects, and how many steps an evaluation may take.
- `Session.new`: a new session, in which the built-in functions and the startup text are defined.
- `Session.identifiers`: the names that a form can begin with.
-/

namespace Lisp

/-- How an evaluation ended. -/
inductive Outcome (α : Type) where
  | ok (result : α)
  | failed (cause : Failure)
  | outOfFuel

/-- The steps that a session allows an evaluation, more than any machine can take. -/
def ampleFuel : Nat := 1000000000000000000

/-- What every session evaluates before anything else. -/
def startupSource : String := "(def! not (fn* (a) (if a false true)))"

namespace Session

/-- Runs an action to its end. -/
def perform {α : Type} (s : Session) (act : Eval α) : Outcome α × Session :=
  match act s with
  | (.ok a, s) => (.ok a, s)
  | (.error (.error e), s) => (.failed (.eval e), s)
  | (.error .outOfFuel, s) => (.outOfFuel, s)

/-- Reads a source text. -/
def read (s : Session) (source : String) : Except ReadError Program × Session :=
  (Program.parse source s.readings, { s with readings := s.readings + 1 })

/-- Evaluates a program, for the value of each form. -/
def evalProgramWith (due : Session → Bool) (fuel : Nat) (s : Session) (p : Program) :
    Outcome (List Value) × Session :=
  s.perform (Eval.evalProgram due fuel p)

/-- Evaluates a program, for the value of each form. -/
def evalProgram (s : Session) (p : Program) : Outcome (List Value) × Session :=
  s.evalProgramWith isCrowded ampleFuel p

/-- Evaluates one form in the global scope. A comment has no value. -/
def evalForm (s : Session) (f : Form) : Outcome (Option Value) × Session :=
  if f.isComment then (.ok none, s)
  else s.perform (some <$> Eval.eval isCrowded ampleFuel f s.global)

/-- Reads and evaluates a source text, for the value of each form. -/
def evalSourceWith (due : Session → Bool) (fuel : Nat) (s : Session) (source : String) :
    Outcome (List Value) × Session :=
  match s.read source with
  | (.error e, s) => (.failed (.read e), s)
  | (.ok p, s) => s.evalProgramWith due fuel p

/-- Reads and evaluates a source text, for the value of each form. -/
def evalSource (s : Session) (source : String) : Outcome (List Value) × Session :=
  s.evalSourceWith isCrowded ampleFuel source

/-- A new session. -/
def new (sink : Sink := {}) : Session :=
  let s := Builtin.all.foldl (fun s b => s.define b.name (.function b)) (empty sink)
  (s.evalSource startupSource).2

/-- The names of the special forms, in order. -/
def specialForms : List String := Arena.sortNames (SpecialForm.all.map SpecialForm.name)

/-- The names that a form can begin with: those bound in the global scope and the special
forms. -/
def identifiers (s : Session) : List String :=
  Arena.sortNames (s.arena.identifiers s.global ++ specialForms)

end Session

end Lisp
