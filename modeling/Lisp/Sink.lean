/-!
# Where printed lines go

- `Sink`: the text written so far, and what is wrong with the sink, if anything is.
- `Sink.writeLine`: writes a line and flushes it.
-/

namespace Lisp

/-- What can be wrong with a sink. -/
inductive Sink.Fault where
  /-- Nothing can be written. -/
  | write (cause : String)
  /-- What is written cannot be flushed. -/
  | flush (cause : String)
  deriving DecidableEq, Repr

/-- A sink for text. -/
structure Sink where
  written : String := ""
  fault : Option Sink.Fault := none
  deriving DecidableEq, Repr

/-- Writes a line and flushes it, or tells what went wrong. -/
def Sink.writeLine (s : Sink) (line : String) : Except String Unit × Sink :=
  match s.fault with
  | none => (.ok (), { s with written := s.written ++ line ++ "\n" })
  | some (.write cause) => (.error cause, s)
  | some (.flush cause) => (.error cause, { s with written := s.written ++ line ++ "\n" })

end Lisp
