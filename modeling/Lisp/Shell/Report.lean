import Lisp.Eval.Error

/-!
# Reports

What a user is told about a failure: a headline, the place in the text that is shown, and a label
for that place.

- `Failure.headline`, `Failure.label`: the wording.
- `lineColumn`: the line and column of a character, both from 1.
- `Covers`: a text has all the characters of a range.
- `Failure.report`: the lines of a report.
-/

namespace Lisp

namespace ReadError

/-- What a report says first. -/
def headline : ReadError → String
  | illegalToken text _ => s!"Illegal syntax `{text}`"
  | unexpectedEnd _ _ => "Unexpected end of input"
  | unexpectedToken found _ => s!"Unexpected token: {found.text}"
  | invalidNumber text _ => s!"Invalid number `{text}`"
  | missingOperand mark _ => s!"Dangling `{mark.name}`"

/-- What a report says about the place. -/
def label : ReadError → String
  | illegalToken _ _ => "This text is not a valid token"
  | unexpectedEnd _ bracket =>
    let closer := (Token.Kind.closing bracket).text
    s!"This form is never closed, expected {closer}"
  | unexpectedToken _ _ => s!"Expected {expectedForm}"
  | invalidNumber _ _ => "This literal does not fit a 64-bit number"
  | missingOperand _ _ => "A form must follow this reader macro"

end ReadError

namespace EvalError

/-- What a report says first. -/
def headline : EvalError → String
  | undefinedSymbol name _ => s!"Undefined symbol `{name}`"
  | unpairedKey _ => "Map literal has an odd number of forms"
  | typeMismatch operation _ _ _ => s!"Type mismatch in `{operation}`"
  | arity name _ _ _ => s!"Wrong number of arguments to `{name}`"
  | specialForm fault _ => s!"Invalid special form: {fault.message}"
  | invalidLiteral text _ => s!"Invalid literal `{text}`"
  | arithmetic operation _ _ => s!"Arithmetic error in `{operation}`"
  | output _ _ => "Could not write output"

/-- What a report says about the place. -/
def label : EvalError → String
  | undefinedSymbol _ _ => "This symbol is not defined in the current scope"
  | unpairedKey _ => "The last key has no value"
  | typeMismatch _ expected found _ => s!"Expected {expected.text}, found {found}"
  | arity _ expected found _ => s!"Expected {expected.text}, got {found}"
  | specialForm _ _ => "This special form is malformed or incomplete"
  | invalidLiteral _ _ => "This literal cannot be evaluated"
  | arithmetic _ cause _ => cause.message
  | output cause _ => cause

end EvalError

namespace Failure

/-- What a report says first. -/
def headline : Failure → String
  | read e => e.headline
  | eval e => e.headline

/-- What a report says about the place. -/
def label : Failure → String
  | read e => e.label
  | eval e => e.label

end Failure

/-- The characters that end a line in a report. -/
def endsLine (c : Char) : Bool :=
  c == '\n' || c == '\r' || c == '\x0b' || c == '\x0c' || c == '\u0085' || c == '\u2028' ||
    c == '\u2029'

/-- The line and column, counted on from given ones, of the character with a given index. A
carriage return and a line feed end a line together, and no line begins after the last
character. -/
def lineColumnFrom (line column : Nat) : List Char → Nat → Nat × Nat
  | '\r' :: '\n' :: cs, n =>
    if n < 2 ∨ cs = [] then (line, column + n) else lineColumnFrom (line + 1) 1 cs (n - 2)
  | c :: cs, n =>
    if n = 0 then (line, column)
    else if endsLine c ∧ cs ≠ [] then lineColumnFrom (line + 1) 1 cs (n - 1)
    else lineColumnFrom line (column + 1) cs (n - 1)
  | [], n => (line, column + n)

/-- The line and column of the character with a given index. -/
def lineColumn (shown : List Char) (index : Nat) : Nat × Nat := lineColumnFrom 1 1 shown index

/-- A text with this many characters has all those of a range. An empty range only has to begin no
later than the text ends. -/
def Covers (length start stop : Nat) : Prop := start ≤ length ∧ stop ≤ max start length

instance (length start stop : Nat) : Decidable (Covers length start stop) :=
  inferInstanceAs (Decidable (_ ∧ _))

/-- The lines of a report about a failure. A text that was read before may have been longer than the
text that is shown: the label is told only if the shown text covers the range, and the place also if
the range reaches one character past it. -/
def Failure.report (f : Failure) (shown : String) : List String :=
  let first := s!"Error: {f.headline}"
  let (start, stop) := f.span.range
  let cs := shown.toList
  let (line, column) := lineColumn cs start
  let place := s!"at REPL:{line}:{column}"
  if Covers cs.length start stop then [first, place, s!"label {f.label}"]
  else if Covers cs.length start (stop - 1) then [first, place]
  else [first]

end Lisp
