import Lisp.Shell.Lines
import Lisp.Shell.Report
import Lisp.Text.Blank

/-!
# Entry by entry

A session whose entries may span lines: a line that leaves a form open asks for another.

- `Verdict`: whether a text is an entry, the beginning of one, or neither.
- `Repl`: the session and the entry that is being read; `Repl.feed` takes one more line.
- `Repl.transcript`: all lines of an input.
-/

namespace Lisp

/-- What to do with the lines read so far. -/
inductive Verdict where
  /-- They are an entry. -/
  | complete
  /-- More lines are needed. -/
  | incomplete
  /-- No line can make an entry of them. -/
  | invalid (message : String)
  deriving DecidableEq, Repr

/-- Judges a text. An open form can still be closed, a stray closing bracket cannot be mended, and
anything else is left for evaluation to report. -/
def judge (text : String) : Verdict :=
  match Program.parse text with
  | .error (.unexpectedEnd _ _) => .incomplete
  | .error e@(.unexpectedToken _ _) => .invalid s!"  - {e.message}"
  | _ => .complete

/-- A session and the lines of the entry that is being read. -/
structure Repl where
  session : Session
  pending : List Char := []
  /-- Whether the user has asked to leave. -/
  finished : Bool := false

/-- What a session tells its user. -/
structure Repl.Reply where
  output : String := ""
  /-- The lines of reports. -/
  reports : List String := []
  /-- The complaints about lines that cannot be mended. -/
  complaints : String := ""
  deriving DecidableEq, Repr

namespace Repl

/-- The name and version that a session begins with. -/
def banner : String :=
  "malrs REPL v0.1.0\nType 'exit' or press Ctrl-D to quit.\nNo previous history.\n"

/-- What is written at the end of the input. -/
def farewell : String := "\nExiting.\n"

/-- Joins what is told at two moments. -/
def Reply.append (a b : Reply) : Reply :=
  ⟨a.output ++ b.output, a.reports ++ b.reports, a.complaints ++ b.complaints⟩

/-- Evaluates an entry. Entries without a form are passed over. -/
def enter (r : Repl) (entry : List Char) : Reply × Repl :=
  let cs := Text.trim entry
  let text := String.ofList cs
  if cs = [] then ({}, r)
  else if Text.lowerAscii cs = "exit".toList then ({}, { r with finished := true })
  else
    let (outcome, s) := r.session.evalSource text
    let (printed, s) := s.drain
    let r := { r with session := s }
    match outcome with
    | .ok vs => ({ output := printed ++ valueLines vs }, r)
    | .failed e => ({ output := printed, reports := e.report text }, r)
    | .outOfFuel => ({ output := printed }, r)

/-- Takes one more line. -/
def feed (r : Repl) (line : List Char) : Reply × Repl :=
  let (text, lineEnd) := splitEnd (r.pending ++ line)
  match judge (String.ofList text) with
  | .incomplete => ({}, { r with pending := text ++ lineEnd })
  | .invalid message => ({ complaints := message }, { r with pending := text })
  | .complete => { r with pending := [] }.enter text

/-- Takes lines until they end or the user leaves. -/
def feedAll (r : Repl) : List (List Char) → Reply
  | [] => { output := farewell }
  | l :: ls =>
    let (reply, r) := r.feed l
    if r.finished then reply else reply.append (r.feedAll ls)

/-- What a session tells its user about an input. -/
def transcript (input : String) : Reply :=
  Reply.append { output := banner } (feedAll { session := .new } (linesWithEnds input.toList))

end Repl

end Lisp
