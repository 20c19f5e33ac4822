import Lisp.Form.Basic
import Lisp.Form.ReadError
import Lisp.Token.Scan
import Lisp.Decimal.Numeral

/-!
# From tokens to forms

Forms are read by recursive descent, with one token of lookahead.

- `Reading`: the outcome of a step and the tokens that it left. A step never leaves more tokens
  than it found, and this is part of its type.
- `Form.read`, `Form.readSequence`, `Form.readOperand`: the steps for a form, for the elements up
  to a closing bracket, and for an operand of a shorthand.
- `Form.next`: one top-level form. After a fault it can be called again on the tokens left.
- `Program.parse`: all forms of a text, or the first fault.
-/

namespace Lisp

/-- The outcome of a reading step, and the tokens that it left of those given. -/
structure Reading (α : Type) (tokens : List Token) where
  outcome : Except ReadError α
  rest : List Token
  length_le : rest.length ≤ tokens.length

namespace Reading

variable {α : Type} {tokens : List Token}

/-- A step that leaves all tokens. -/
def stay (outcome : Except ReadError α) : Reading α tokens := ⟨outcome, tokens, Nat.le_refl _⟩

/-- Does something with what a step has read. -/
def map {β : Type} (f : α → β) (r : Reading α tokens) : Reading β tokens :=
  ⟨r.outcome.map f, r.rest, r.length_le⟩

/-- A step on what an earlier step left is a step on what that step was given. -/
def weaken {earlier : List Token} (h : tokens.length ≤ earlier.length) (r : Reading α tokens) :
    Reading α earlier :=
  ⟨r.outcome, r.rest, Nat.le_trans r.length_le h⟩

end Reading

/-- Whether a text can stand for a literal of some kind. The text of a number has to be one that can
be kept, and other texts are not looked at. -/
def Literal.admits (kind : Literal) (text : String) : Bool :=
  match kind with
  | .int => (Numeral.int? text.toList).isSome
  | .float => (Numeral.float? text.toList).isSome
  | .nil | .bool | .string | .keyword => true

namespace Form

/-- The form that a literal token stands for. -/
def ofLiteral (reading : Nat) (kind : Literal) (t : Token) : Except ReadError Form :=
  if kind.admits t.text then .ok (.literal (.ofSpan reading t.span) kind t.text)
  else .error (.invalidNumber t.text t.span)

/-- The form between two brackets. -/
def ofBracket (site : Site) (elements : List Form) : Bracket → Form
  | .paren => .list site none elements
  | .square => .vector site elements
  | .brace => .map site elements

/-- The list that a shorthand and its operands stand for. -/
def ofShorthand (reading : Nat) (t : Token) (mark : Shorthand) (operands : List Form) : Form :=
  let span := operands.foldl (fun s f => s.merge f.span) t.span
  .list (.ofSpan reading span) (some mark) operands

mutual

/-- Reads the form that begins with a given token. -/
def read (reading : Nat) (t : Token) (ts : List Token) : Reading Form ts :=
  match t.kind with
  | .illegal => .stay (.error (.illegalToken t.text t.span))
  | .comment => .stay (.ok (.comment (.ofSpan reading t.span) t.text))
  | .symbol => .stay (.ok (.symbol (.ofSpan reading t.span) t.text))
  | .literal kind => .stay (ofLiteral reading kind t)
  | .closing _ | .eof => .stay (.error (.unexpectedToken t.kind t.span))
  | .opening bracket =>
    (readSequence reading t bracket ts).map fun (es, stop) =>
      ofBracket (.ofSpan reading ⟨t.span.start, stop⟩) es bracket
  | .shorthand .withMeta =>
    -- The annotation is read first and passed last.
    match readOperand reading t .withMeta ts with
    | ⟨.error e, rest, h⟩ => ⟨.error e, rest, h⟩
    | ⟨.ok annotation, rest, h⟩ =>
      ((readOperand reading t .withMeta rest).map fun target =>
        ofShorthand reading t .withMeta [target, annotation]).weaken h
  | .shorthand mark =>
    (readOperand reading t mark ts).map fun operand => ofShorthand reading t mark [operand]
termination_by 2 * ts.length + 1

/-- Reads forms up to the closing bracket, and gives them with the place after that bracket. -/
def readSequence (reading : Nat) (opener : Token) (bracket : Bracket) :
    (ts : List Token) → Reading (List Form × Position) ts
  | [] => .stay (.error (.unexpectedEnd opener.span bracket))
  | t :: ts =>
    if t.kind = .closing bracket then ⟨.ok ([], t.span.stop), ts, by simp⟩
    else
      match read reading t ts with
      | ⟨.error e, rest, h⟩ => ⟨.error e, rest, Nat.le_succ_of_le h⟩
      | ⟨.ok f, rest, h⟩ =>
        ((readSequence reading opener bracket rest).map fun (fs, stop) =>
          (f :: fs, stop)).weaken (Nat.le_succ_of_le h)
termination_by ts => 2 * ts.length

/-- Reads the form that a shorthand applies to. Comments before it are dropped. -/
def readOperand (reading : Nat) (t : Token) (mark : Shorthand) :
    (ts : List Token) → Reading Form ts
  | [] => .stay (.error (.missingOperand mark t.span))
  | u :: us =>
    if u.kind = .comment then (readOperand reading t mark us).weaken (by simp)
    else (read reading u us).weaken (by simp)
termination_by ts => 2 * ts.length

end

/-- Reads one top-level form, or nothing at the end of the tokens. -/
def next (reading : Nat) : (ts : List Token) → Reading (Option Form) ts
  | [] => .stay (.ok none)
  | t :: ts =>
    ((read reading t ts).map some).weaken (by simp)

/-- Reads all top-level forms, up to the first fault. -/
def readAll (reading : Nat) : List Token → Except ReadError (List Form)
  | [] => .ok []
  | t :: ts =>
    match read reading t ts with
    | ⟨.error e, _, _⟩ => .error e
    | ⟨.ok f, rest, _⟩ => (readAll reading rest).map (f :: ·)
termination_by ts => ts.length

end Form

/-- Reads a source text. The forms of different readings are different forms. -/
def Program.parse (source : String) (reading : Nat := 0) : Except ReadError Program :=
  (Form.readAll reading (tokenize source)).map Program.mk

end Lisp
