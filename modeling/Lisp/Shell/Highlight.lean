import Lisp.Token.Scan

/-!
# Highlighting a line

Strings, comments and keywords are coloured, the pair of brackets that the cursor touches is shown,
and so are brackets that do not match.

- `Paint`: what is coloured, and its terminal code.
- `Piece`: a part of the line, with the paints that were put on it.
- `slice?`: the text between two offsets of a line.
- `highlight`: the line with terminal codes, whose pieces make up the line.
-/

namespace Lisp

/-- What is coloured. -/
inductive Paint where
  | string
  | comment
  | keyword
  | touchedOpener
  | touchedCloser
  | badOpener
  | badCloser
  deriving DecidableEq, Repr

namespace Paint

/-- The terminal code of a paint. -/
def code : Paint → String
  | string => "32"
  | comment => "90"
  | keyword => "35"
  | touchedOpener => "1;34"
  | touchedCloser => "34"
  | badOpener => "1;31"
  | badCloser => "31"

/-- A text with the terminal codes of a paint around it. -/
def wrap (paint : Paint) (text : String) : String := s!"\x1b[{paint.code}m{text}\x1b[0m"

end Paint

/-- A part of a line, and the paints that were put on it, the latest first. -/
structure Piece where
  text : String
  paints : List Paint
  deriving DecidableEq, Repr

namespace Piece

/-- Puts one more paint on a part of a line. -/
def paint (p : Piece) (paint : Paint) : Piece := { p with paints := paint :: p.paints }

/-- A part of a line with terminal codes around it, those of the latest paint outermost. -/
def render (p : Piece) : String := p.paints.foldr Paint.wrap p.text

end Piece

/-! ## Slices -/

/-- The text before an offset and the text behind it. There is none if the offset is inside of a
character or behind the end. -/
def splitAt? : Nat → List Char → Option (List Char × List Char)
  | 0, cs => some ([], cs)
  | _ + 1, [] => none
  | n + 1, c :: cs =>
    if c.utf8Size ≤ n + 1 then
      (splitAt? (n + 1 - c.utf8Size) cs).map fun (before, behind) => (c :: before, behind)
    else none

/-- The text between two offsets. There is none if one of them is inside of a character or behind
the end, or if they are in the wrong order. -/
def slice? (line : String) (start stop : Nat) : Option String :=
  if stop < start then none
  else do
    let (_, behind) ← splitAt? start line.toList
    let (slice, _) ← splitAt? (stop - start) behind
    return String.ofList slice

/-! ## Pieces -/

/-- An opening bracket that is not closed yet. -/
structure OpenBracket where
  kind : Token.Kind
  /-- The piece that holds the bracket. -/
  piece : Nat
  /-- The offset of the bracket in the line. -/
  offset : Nat
  deriving DecidableEq, Repr

/-- The pieces so far, the brackets that are open, the innermost first, and the offset up to which
the line is in the pieces. -/
structure Highlighting where
  pieces : Array Piece := #[]
  openings : List OpenBracket := []
  reached : Nat := 0

namespace Highlighting

/-- Adds a piece. -/
def push (h : Highlighting) (text : String) (paints : List Paint) : Highlighting :=
  { h with pieces := h.pieces.push ⟨text, paints⟩ }

/-- Paints an earlier piece, which has to be there. -/
def repaint? (h : Highlighting) (piece : Nat) (paint : Paint) : Option Highlighting :=
  (h.pieces[piece]?).map fun p =>
    { h with pieces := h.pieces.setIfInBounds piece (p.paint paint) }

/-- Adds the text before an offset. -/
def skipTo? (line : String) (h : Highlighting) (offset : Nat) : Option Highlighting :=
  if h.reached < offset then
    (slice? line h.reached offset).map fun gap => { h.push gap [] with reached := offset }
  else some h

/-- Adds a closing bracket, which may change how its opening bracket is shown. -/
def close? (cursor : Nat) (h : Highlighting) (t : Token) : Option Highlighting :=
  match h.openings with
  | [] => some (h.push t.text [.badCloser])
  | o :: outer =>
    let h := { h with openings := outer }
    if o.kind.closing? = some t.kind then
      if cursor = t.span.stop.offset ∨ cursor = o.offset + 1 then
        (h.repaint? o.piece .touchedOpener).map (·.push t.text [.touchedCloser])
      else some (h.push t.text [])
    else (h.repaint? o.piece .badOpener).map (·.push t.text [.badCloser])

/-- Adds a token. -/
def place? (cursor : Nat) (h : Highlighting) (t : Token) : Option Highlighting :=
  match t.kind with
  | .literal .string => some (h.push t.text [.string])
  | .comment => some (h.push t.text [.comment])
  | .literal .keyword => some (h.push t.text [.keyword])
  | kind =>
    if kind.closing?.isSome then
      let opening := ⟨kind, h.pieces.size, t.span.start.offset⟩
      some { h.push t.text [] with openings := opening :: h.openings }
    else if kind.isClosing then h.close? cursor t
    else some (h.push t.text [])

/-- Adds a token and the text before it. -/
def add? (line : String) (cursor : Nat) (h : Highlighting) (t : Token) : Option Highlighting := do
  let h ← h.skipTo? line t.span.start.offset
  { h with reached := t.span.stop.offset }.place? cursor t

end Highlighting

/-- The pieces of a line, with the cursor at a given offset. -/
def highlightPieces? (line : String) (cursor : Nat) : Option (Array Piece) := do
  let h ← (tokenize line).foldlM (Highlighting.add? line cursor) {}
  return (← h.skipTo? line line.utf8ByteSize).pieces

/-- The line with terminal codes. A line without pieces would be shown as it is, but there is no
such line. -/
def highlight (line : String) (cursor : Nat) : String :=
  match highlightPieces? line cursor with
  | some pieces => String.join (pieces.toList.map Piece.render)
  | none => line

end Lisp
