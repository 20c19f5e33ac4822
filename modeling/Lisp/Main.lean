import Lisp.Shell.Repl

/-!
# The command line

Without arguments every line of the standard input is evaluated on its own. With the argument
`repl` the standard input is a dialogue of entries that may span lines.
-/

namespace Lisp

/-- Evaluates the lines of a stream one by one. -/
partial def lineLoop (stdin : IO.FS.Stream) (s : Session) : IO Unit := do
  let line ← stdin.getLine
  if line.isEmpty then return
  let (t, s) := Lines.feed s line.toList
  IO.print t.output
  IO.eprint t.errors
  lineLoop stdin s

/-- Takes part in a dialogue. -/
partial def replLoop (stdin : IO.FS.Stream) (r : Repl) : IO Unit := do
  let line ← stdin.getLine
  if line.isEmpty then
    IO.print Repl.farewell
  else
    let (reply, r) := r.feed line.toList
    IO.print reply.output
    IO.eprint reply.complaints
    for l in reply.reports do IO.eprintln l
    unless r.finished do replLoop stdin r

end Lisp

/-- Runs the command line. -/
def main (args : List String) : IO Unit := do
  let stdin ← IO.getStdin
  if args = ["repl"] then
    IO.print Lisp.Repl.banner
    Lisp.replLoop stdin { session := .new }
  else
    Lisp.lineLoop stdin .new
