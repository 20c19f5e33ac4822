import Lisp.Token.Scan

/-!
# One token of lookahead

- `Lookahead`: a scanner, and the token that was looked at but is not yet taken.
- `Lookahead.peek`, `Lookahead.next`: look at the next token, or take it. A token that was looked
  at is not scanned again.
- `Lookahead.answers`: the tokens that some calls give one after the other.
-/

namespace Lisp

/-- A scanner with one token of lookahead. -/
structure Lookahead where
  scanner : Scanner
  /-- The token that was looked at and is not yet taken. -/
  peeked : Option Token
  deriving Repr

namespace Lookahead

/-- The whole of a text, at which nobody has looked yet. -/
def ofString (source : String) : Lookahead := ⟨.ofString source, none⟩

/-- Takes the next token. At the end of the text every call gives the end mark. -/
def next (l : Lookahead) : Token × Lookahead :=
  match l.peeked with
  | some t => (t, { l with peeked := none })
  | none =>
    let (t, scanner) := l.scanner.next
    (t, ⟨scanner, none⟩)

/-- Looks at the next token, which stays there to be taken. -/
def peek (l : Lookahead) : Token × Lookahead :=
  match l.peeked with
  | some t => (t, l)
  | none => (l.scanner.peek, ⟨l.scanner.next.2, some l.scanner.peek⟩)

/-- What can be asked for. -/
inductive Call where
  | peek
  | next
  deriving DecidableEq, Repr

/-- The token that a call gives. -/
def answer (l : Lookahead) : Call → Token × Lookahead
  | .peek => l.peek
  | .next => l.next

/-- The tokens that some calls give one after the other. -/
def answers : Lookahead → List Call → List Token
  | _, [] => []
  | l, call :: calls =>
    let (t, l) := l.answer call
    t :: l.answers calls

end Lookahead

end Lisp
