import Lisp.Session.Source

/-!
# Line by line

A session in which every line of the input is a source text of its own.

- `linesWithEnds`, `splitEnd`: the lines of a text, and the end of a line split off.
- `Lines.feed`: one line, for what is written to the two outputs.
- `Lines.transcript`: all lines of an input.
-/

namespace Lisp

/-- Lines with the line feeds that end them. The last one may have none. -/
def linesWithEnds : List Char → List (List Char)
  | [] => []
  | c :: cs =>
    if c = '\n' then [c] :: linesWithEnds cs
    else
      match linesWithEnds cs with
      | [] => [[c]]
      | l :: ls => (c :: l) :: ls

/-- Splits the end off a line: a line feed, and a carriage return before it. -/
def splitEnd (line : List Char) : List Char × List Char :=
  match line.reverse with
  | '\n' :: '\r' :: cs => (cs.reverse, ['\r', '\n'])
  | '\n' :: cs => (cs.reverse, ['\n'])
  | _ => (line, [])

/-- What a program has written. -/
structure Transcript where
  output : String := ""
  errors : String := ""
  deriving DecidableEq, Repr

/-- The texts of some values, each on a line. -/
def valueLines (vs : List Value) : String :=
  String.join (vs.map fun v => v.text .readable ++ "\n")

namespace Lines

/-- Evaluates a line. What it prints comes before its values. -/
def feed (s : Session) (line : List Char) : Transcript × Session :=
  let (outcome, s) := s.evalSource (String.ofList (splitEnd line).1)
  let (printed, s) := s.drain
  match outcome with
  | .ok vs => (⟨printed ++ valueLines vs, ""⟩, s)
  | .failed e => (⟨printed, s!"ERR: {e.message}\n"⟩, s)
  | .outOfFuel => (⟨printed, ""⟩, s)

/-- What is written for some lines. -/
def feedAll (s : Session) : List (List Char) → Transcript
  | [] => {}
  | l :: ls =>
    let (t, s) := feed s l
    let u := feedAll s ls
    ⟨t.output ++ u.output, t.errors ++ u.errors⟩

/-- What is written for an input. -/
def transcript (input : String) : Transcript := feedAll .new (linesWithEnds input.toList)

end Lines

end Lisp
