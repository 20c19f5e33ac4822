/-!
# Places in a source text

A reader points at its input by *positions* and *spans*.

- `Position`: a byte offset together with the line and column it falls on.
- `Position.advanceOver`: the position after a run of characters; every position
  of the library is `Position.start` advanced over what was read so far.
- `Span`: a half-open stretch between two positions, with its hull (`Span.merge`).
-/

namespace Lisp

/-- A place in a source text. Lines count from 1, columns count bytes from 0. -/
structure Position where
  /-- Bytes before this place. -/
  offset : Nat
  /-- One more than the number of line feeds before this place. -/
  line : Nat
  /-- Bytes since the last line feed. -/
  column : Nat
  deriving DecidableEq, Repr

namespace Position

/-- The place before the first character. -/
def start : Position := ⟨0, 1, 0⟩

instance : Inhabited Position := ⟨start⟩

/-- The place after one more character: only a line feed begins a new line. -/
def advance (p : Position) (c : Char) : Position :=
  if c = '\n' then ⟨p.offset + 1, p.line + 1, 0⟩
  else ⟨p.offset + c.utf8Size, p.line, p.column + c.utf8Size⟩

/-- The place after a run of characters. -/
def advanceOver (p : Position) (cs : List Char) : Position :=
  cs.foldl advance p

@[simp] theorem advanceOver_nil (p : Position) : p.advanceOver [] = p := rfl

@[simp] theorem advanceOver_cons (p : Position) (c : Char) (cs : List Char) :
    p.advanceOver (c :: cs) = (p.advance c).advanceOver cs := rfl

/-- Reading two runs one after the other is reading their concatenation. -/
theorem advanceOver_append (p : Position) (as bs : List Char) :
    p.advanceOver (as ++ bs) = (p.advanceOver as).advanceOver bs :=
  List.foldl_append

/-- Positions are ordered by offset, then by line, then by column. -/
def compare (p q : Position) : Ordering :=
  (Ord.compare p.offset q.offset).then
    ((Ord.compare p.line q.line).then (Ord.compare p.column q.column))

/-- The earlier of two positions. -/
def earlier (p q : Position) : Position :=
  if p.compare q = .gt then q else p

/-- The later of two positions. -/
def later (p q : Position) : Position :=
  if p.compare q = .gt then p else q

/-- The wording by which messages name a position. -/
def text (p : Position) : String :=
  s!"line:{p.line}, column:{p.column}"

end Position

/-- A stretch of source text: from `start` up to, but not including, `stop`. -/
structure Span where
  start : Position
  stop : Position
  deriving DecidableEq, Repr

namespace Span

/-- The empty span before the first character. -/
def origin : Span := ⟨.start, .start⟩

instance : Inhabited Span := ⟨origin⟩

/-- The least span that covers both. -/
def merge (a b : Span) : Span :=
  ⟨a.start.earlier b.start, a.stop.later b.stop⟩

/-- The byte offsets that a span covers, never ending before they begin. -/
def range (s : Span) : Nat × Nat :=
  (s.start.offset, max s.stop.offset s.start.offset)

/-- A span is named by where it starts. -/
def text (s : Span) : String := s.start.text

end Span

end Lisp
