import Lisp.Form.Reader
import Lisp.Token.Lookahead

/-!
# From a text to forms, token by token

Forms are read from a scanner with one token of lookahead. A fault leaves the scanner where it was
found, so that reading can go on behind it.

- `Lookahead.size`: a bound on what a scanner has to give.
- `Parsed`: what a step comes to. A step that has a result leaves less than it found, and this is
  part of its type.
- `Parser.form`, `Parser.sequence`, `Parser.shorthand`, `Parser.operand`: the steps for a form, for
  the elements up to a closing bracket, for a shorthand, and for an operand of one.
-/

namespace Lisp

namespace Lookahead

variable {l : Lookahead}

/-- The characters that are not scanned yet, with one more for a token that was looked at. -/
def size (l : Lookahead) : Nat :=
  match l.peeked with
  | none => l.scanner.rest.length
  | some t => l.scanner.rest.length + if t.kind = .eof then 0 else 1

/-- Taking a token leaves less. -/
theorem size_next_lt (h : l.next.1.kind ≠ .eof) : l.next.2.size < l.size := by
  obtain ⟨scanner, _ | t⟩ := l
  · exact Scanner.length_next_lt h
  · have hk : t.kind ≠ .eof := h
    show scanner.rest.length < scanner.rest.length + if t.kind = .eof then 0 else 1
    rw [if_neg hk]
    exact Nat.lt_succ_self _

/-- Looking at a token does not leave more. -/
theorem size_peek_le (l : Lookahead) : l.peek.2.size ≤ l.size := by
  obtain ⟨scanner, _ | t⟩ := l
  · show scanner.next.2.rest.length + (if scanner.next.1.kind = .eof then 0 else 1) ≤
      scanner.rest.length
    split
    next h =>
      unfold Scanner.next at h ⊢
      split at h
      · simp
      · exact absurd h (Lexeme.scan_kind_ne_eof _ _)
    next h => exact Scanner.length_next_lt h
  · exact Nat.le_refl _

/-- The token that was looked at is the one that is taken. -/
theorem next_peek (l : Lookahead) : l.peek.2.next.1 = l.peek.1 := by
  obtain ⟨scanner, _ | t⟩ := l
  · rfl
  · rfl

end Lookahead

/-- What a step of reading comes to, and what it leaves. -/
inductive Parsed (α : Type) (l : Lookahead) where
  | fault (e : ReadError) (rest : Lookahead)
  /-- There is nothing more to read. -/
  | ended (rest : Lookahead)
  | done (a : α) (rest : Lookahead) (less : rest.size < l.size)

namespace Parsed

variable {α β : Type} {l l' : Lookahead}

/-- The fault, or what was read, if anything. -/
def outcome : Parsed α l → Except ReadError (Option α)
  | fault e _ => .error e
  | ended _ => .ok none
  | done a _ _ => .ok (some a)

/-- What is left to be read. -/
def rest : Parsed α l → Lookahead
  | fault _ rest | ended rest | done _ rest _ => rest

/-- Goes on with what was read. -/
def andThen (p : Parsed α l) (g : α → (rest : Lookahead) → rest.size < l.size → Parsed β l) :
    Parsed β l :=
  match p with
  | fault e rest => fault e rest
  | ended rest => ended rest
  | done a rest less => g a rest less

/-- Does something with what was read. -/
def map (f : α → β) (p : Parsed α l) : Parsed β l :=
  p.andThen fun a rest less => done (f a) rest less

/-- What a step comes to that begins with less. -/
def weaken (h : l'.size ≤ l.size) : Parsed α l' → Parsed α l
  | fault e rest => fault e rest
  | ended rest => ended rest
  | done a rest less => done a rest (Nat.lt_of_lt_of_le less h)

/-- It is a fault that there is nothing more to read. -/
def orFault (e : ReadError) : Parsed α l → Parsed α l
  | fault e' rest => fault e' rest
  | ended rest => fault e rest
  | done a rest less => done a rest less

end Parsed

namespace Parser

open Lookahead

mutual

/-- Reads one form. -/
def form (reading : Nat) (l : Lookahead) : Parsed Form l :=
  let t := l.next.1
  if hend : l.next.1.kind = .eof then .ended l.next.2
  else
    have hlt := size_next_lt hend
    match t.kind with
    | .illegal => .fault (.illegalToken t.text t.span) l.next.2
    | .comment => .done (.comment (.ofSpan reading t.span) t.text) l.next.2 hlt
    | .symbol => .done (.symbol (.ofSpan reading t.span) t.text) l.next.2 hlt
    | .literal kind =>
      match Form.ofLiteral reading kind t with
      | .error e => .fault e l.next.2
      | .ok f => .done f l.next.2 hlt
    | .closing _ | .eof => .fault (.unexpectedToken t.kind t.span) l.next.2
    | .opening bracket =>
      ((sequence reading t bracket l.next.2).map fun (es, stop) =>
        Form.ofBracket (.ofSpan reading ⟨t.span.start, stop⟩) es bracket).weaken (Nat.le_of_lt hlt)
    | .shorthand mark => (shorthand reading t mark l.next.2).weaken (Nat.le_of_lt hlt)
termination_by 3 * l.size

/-- Reads forms until a closing bracket is next, and takes it. Gives the forms with the place after
the bracket. -/
def sequence (reading : Nat) (opener : Token) (bracket : Bracket) (l : Lookahead) :
    Parsed (List Form × Position) l :=
  have hle := l.size_peek_le
  if hclose : l.peek.1.kind = .closing bracket then
    have hlt := size_next_lt (l := l.peek.2) (by rw [next_peek, hclose]; exact nofun)
    let closer := l.peek.2.next.1
    .done ([], closer.span.stop) l.peek.2.next.2 (Nat.lt_of_lt_of_le hlt hle)
  else if l.peek.1.kind = .eof then .fault (.unexpectedEnd opener.span bracket) l.peek.2
  else
    (((form reading l.peek.2).orFault (.unexpectedEnd opener.span bracket)).andThen
      fun f rest less =>
        ((sequence reading opener bracket rest).map fun (fs, stop) =>
          (f :: fs, stop)).weaken (Nat.le_of_lt less)).weaken hle
termination_by 3 * l.size + 1

/-- Reads what a shorthand applies to. An annotation is read first and passed last. -/
def shorthand (reading : Nat) (t : Token) (mark : Shorthand) (l : Lookahead) : Parsed Form l :=
  if mark = .withMeta then
    (operand reading t mark l).andThen fun annotation rest less =>
      ((operand reading t mark rest).map fun target =>
        Form.ofShorthand reading t mark [target, annotation]).weaken (Nat.le_of_lt less)
  else (operand reading t mark l).map fun f => Form.ofShorthand reading t mark [f]
termination_by 3 * l.size + 2

/-- Reads an operand of a shorthand. Comments before it are dropped. -/
def operand (reading : Nat) (t : Token) (mark : Shorthand) (l : Lookahead) : Parsed Form l :=
  ((form reading l).orFault (.missingOperand mark t.span)).andThen fun f rest less =>
    if f.isComment then (operand reading t mark rest).weaken (Nat.le_of_lt less)
    else .done f rest less
termination_by 3 * l.size + 1

end

end Parser

end Lisp
