import Lisp.Builtin.Call
import Lisp.Session.Basic

/-!
# Actions of an evaluation

- `Eval`: actions that change a session and may stop early. The session outlives a stop.
- `Eval.entering`, `Eval.holding`: an action during which a scope or a value is kept in use. It is
  let go again however the action ends.
- `Eval.lookup`, `Eval.assign`, `Eval.newScope`, `Eval.newFrame`: variables.
-/

namespace Lisp

/-- Why an evaluation stops early. -/
inductive Stop where
  | error (e : EvalError)
  | outOfFuel
  deriving DecidableEq, Repr

/-- An action on a session, which may stop early. -/
abbrev Eval := ExceptT Stop (StateM Session)

namespace Eval

variable {α : Type}

/-- Stops with an error. -/
def fail (e : EvalError) : Eval α := throw (.error e)

/-- Passes a safe point. -/
def safePoint (due : Session → Bool) : Eval Unit := modify (·.passSafePoint due)

/-- An action during which a scope is kept in use. -/
def entering (scope : Scope) (act : Eval α) : Eval α := fun s =>
  let (r, s) := act (s.enter scope)
  (r, s.leave)

/-- An action during which a value is kept in use. -/
def holding (v : Value) (act : Eval α) : Eval α := fun s =>
  let (r, s) := act (s.hold v)
  (r, s.letGo)

/-- Goes on in another scope, which is kept in use instead of the innermost one. -/
def moveTo (scope : Scope) : Eval Unit := modify (·.moveTo scope)

/-- The value of a name. -/
def lookup (scope : Scope) (name : String) (span : Span) : Eval Value := fun s =>
  match s.arena.find? scope name with
  | some v => (.ok v, s)
  | none => (.error (.error (.undefinedSymbol name span)), s)

/-- Binds a name in a scope. -/
def assign (scope : Scope) (name : String) (v : Value) : Eval Unit :=
  modify fun s => { s with arena := s.arena.set scope name v }

/-- Makes an empty scope within another. -/
def newScope (outer : Scope) : Eval Scope := fun s =>
  let (scope, arena) := s.arena.create (some outer)
  (.ok scope, { s with arena })

/-- Makes a scope that binds parameters to arguments. -/
def newFrame (outer : Scope) (params : List String) (args : List Value) : Eval Scope := fun s =>
  let (scope, arena) := s.arena.bind outer params args
  (.ok scope, { s with arena })

/-- Calls a built-in function. -/
def callBuiltin (b : Builtin) (span : Span) (args : List Value) : Eval Value := fun s =>
  match b.call span args s.sink with
  | (.ok v, sink) => (.ok v, { s with sink })
  | (.error e, sink) => (.error (.error e), { s with sink })

end Eval

end Lisp
