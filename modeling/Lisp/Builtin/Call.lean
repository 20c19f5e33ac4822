import Lisp.Builtin.Basic
import Lisp.Eval.Error
import Lisp.Sink
import Lisp.Value.Equality
import Lisp.Value.Printer

/-!
# What the built-in functions do

- `Builtin.answer`: the result of a call, which is a value or a line to print.
- `Builtin.call`: the result of a call on a sink.
-/

namespace Lisp.Builtin

/-- The result of a call. Printing a line gives `nil`. -/
inductive Answer where
  | value (v : Value)
  | line (text : String)

/-- Refuses a call with the wrong number of arguments. -/
def wrongCount {α : Type} (b : Builtin) (expected : Nat) (args : List Value) (span : Span) :
    Except EvalError α :=
  .error (.arity b.name (.exactly expected) args.length span)

/-- An argument as a number. -/
def expectNumber (b : Builtin) (span : Span) (v : Value) : Except EvalError Number :=
  match v.number? with
  | some n => .ok n
  | none => .error (.typeMismatch b.name .number v.typeName span)

/-- Two arguments as numbers. -/
def expectNumbers (b : Builtin) (span : Span) (args : List Value) :
    Except EvalError (Number × Number) :=
  match args with
  | [v, w] => do
    let m ← expectNumber b span v
    let n ← expectNumber b span w
    return (m, n)
  | _ => wrongCount b 2 args span

/-- An operation on two numbers. -/
def arithmetic (b : Builtin) (op : Number → Number → Except ArithmeticError Number) (span : Span)
    (args : List Value) : Except EvalError Answer := do
  let (m, n) ← expectNumbers b span args
  match op m n with
  | .ok r => return .value (.ofNumber r)
  | .error cause => throw (.arithmetic b.name cause span)

/-- A comparison of two numbers, false when they have no order. -/
def comparison (b : Builtin) (test : Ordering → Bool) (span : Span) (args : List Value) :
    Except EvalError Answer := do
  let (m, n) ← expectNumbers b span args
  return .value (.bool ((m.compare? n).any test))

/-- A function of one argument. -/
def unary (b : Builtin) (f : Value → Value) (span : Span) (args : List Value) :
    Except EvalError Answer :=
  match args with
  | [v] => .ok (.value (f v))
  | _ => wrongCount b 1 args span

/-- Whether two arguments are equal. -/
def equality (span : Span) (args : List Value) : Except EvalError Answer :=
  match args with
  | [v, w] => .ok (.value (.bool (v.equal w)))
  | _ => wrongCount .equal 2 args span

/-- Whether a value is a list. -/
def isListValue : Value → Bool
  | .list _ => true
  | _ => false

/-- The number of items of a list or vector; anything else has none. -/
def countItems (v : Value) : Nat := (v.items?.map List.length).getD 0

/-- The texts of values in a row. -/
def joined (separator : String) (style : Style) (args : List Value) : String :=
  separator.intercalate (Value.texts style args)

/-- The result of calling a built-in function. -/
def answer (b : Builtin) (span : Span) (args : List Value) : Except EvalError Answer :=
  match b with
  | add => arithmetic b Number.add span args
  | sub => arithmetic b Number.sub span args
  | mul => arithmetic b Number.mul span args
  | div => arithmetic b Number.div span args
  | less => comparison b (·.isLT) span args
  | lessOrEqual => comparison b (·.isLE) span args
  | greater => comparison b (·.isGT) span args
  | greaterOrEqual => comparison b (·.isGE) span args
  | equal => equality span args
  | list => .ok (.value (.list args))
  | isList => unary b (.bool ∘ isListValue) span args
  | isEmpty => unary b (fun v => .bool (v.items?.any List.isEmpty)) span args
  | count => unary b (fun v => .int (Int64.ofNat (countItems v))) span args
  | prn => .ok (.line (joined " " .readable args))
  | prStr => .ok (.value (.string (joined " " .readable args)))
  | str => .ok (.value (.string (joined "" .plain args)))
  | println => .ok (.line (joined " " .plain args))

/-- Calls a built-in function, which may print a line. -/
def call (b : Builtin) (span : Span) (args : List Value) (sink : Sink) :
    Except EvalError Value × Sink :=
  match b.answer span args with
  | .error e => (.error e, sink)
  | .ok (.value v) => (.ok v, sink)
  | .ok (.line text) =>
    match sink.writeLine text with
    | (.ok _, sink) => (.ok .nil, sink)
    | (.error cause, sink) => (.error (.output cause span), sink)

end Lisp.Builtin
