import Lisp.Token.Basic

/-!
# What can be wrong with a source text

- `ReadError`: the faults, each with the span to blame.
- `ReadError.message`: their wording.
-/

namespace Lisp

/-- A fault of a source text. -/
inductive ReadError where
  /-- A character that begins no token. -/
  | illegalToken (text : String) (span : Span)
  /-- A bracket that is never closed. -/
  | unexpectedEnd (opener : Span) (expected : Bracket)
  /-- A token where a form should begin. -/
  | unexpectedToken (found : Token.Kind) (span : Span)
  /-- An integer that is out of range, or a float that is no number. -/
  | invalidNumber (text : String) (span : Span)
  /-- A shorthand without the form that it applies to. -/
  | missingOperand (mark : Shorthand) (span : Span)
  deriving DecidableEq, Repr

namespace ReadError

/-- The stretch of text to blame. -/
def span : ReadError → Span
  | illegalToken _ s | unexpectedEnd s _ | unexpectedToken _ s | invalidNumber _ s
  | missingOperand _ s => s

/-- Shows a character that cannot be seen by its code. -/
def showChar (c : Char) : String :=
  if c = '\x00' then "\\0"
  else if c.val < 0x20 ∨ c = '\x7f' then
    "\\u\x7b" ++ String.ofList (Nat.toDigits 16 c.toNat) ++ "\x7d"
  else c.toString

/-- Shows a text between double quotes, character by character. -/
def showText (text : String) : String :=
  "\"" ++ String.join (text.toList.map showChar) ++ "\""

/-- What was expected where a token begins no form. -/
def expectedForm : String := "a form"

/-- The wording of a fault. -/
def message (e : ReadError) : String :=
  let place := s!"[{e.span.text}] "
  match e with
  | illegalToken text _ => place ++ s!"illegal syntax: {showText text}"
  | unexpectedEnd _ bracket =>
    let closer := (Token.Kind.closing bracket).text
    place ++ s!"unexpected end of input, expected {closer} to close this form"
  | unexpectedToken found _ => place ++ s!"unexpected {found.text}, expected {expectedForm}"
  | invalidNumber text _ => place ++ s!"invalid number literal: {text}"
  | missingOperand mark _ =>
    place ++ s!"reader macro '{mark.name}' is missing the form it applies to"

end ReadError

end Lisp
