import Lisp.Scope.Collect
import Lisp.Sink

/-!
# The state of a session

- `Session`: frames, output, and what must survive a collection besides the global scope: the
  scopes in which evaluations are under way (`active`) and the values that were computed but are
  not yet stored anywhere (`held`).
- `Session.enter`, `Session.leave`, `Session.moveTo`: the scopes under way, as a stack.
- `Session.hold`, `Session.letGo`: the values that wait, as a stack.
- `Session.collect`: releases the frames that are no longer in use.
- `Session.passSafePoint`: passes a moment at which a collection may take place.
-/

namespace Lisp

/-- The state of a session. -/
structure Session where
  arena : Arena
  /-- The scope of top-level definitions. -/
  global : Scope
  sink : Sink
  /-- The number of frames at which a collection is due. -/
  threshold : Nat
  /-- The scopes in which evaluations are under way, the innermost first. -/
  active : List Scope
  /-- The values that wait to be stored, the latest first. -/
  held : List Value
  /-- The number of source texts read so far. -/
  readings : Nat
  /-- The number of safe points passed so far. -/
  safePoints : Nat

namespace Session

/-- The least threshold. -/
def leastThreshold : Nat := 1024

/-- A session without any definitions. -/
def empty (sink : Sink) : Session :=
  let (global, arena) := ({} : Arena).create none
  { arena, global, sink, threshold := leastThreshold, active := [], held := [], readings := 0,
    safePoints := 0 }

/-- Begins an evaluation in a scope. -/
def enter (scope : Scope) (s : Session) : Session := { s with active := scope :: s.active }

/-- Ends the innermost evaluation. -/
def leave (s : Session) : Session := { s with active := s.active.tail }

/-- Goes on with the innermost evaluation in another scope. -/
def moveTo (scope : Scope) (s : Session) : Session := s.leave.enter scope

/-- Lets a value wait to be stored. -/
def hold (v : Value) (s : Session) : Session := { s with held := v :: s.held }

/-- Lets go of the latest value that waits. -/
def letGo (s : Session) : Session := { s with held := s.held.tail }

/-- The scopes that must survive a collection. -/
def roots (s : Session) : List Scope := s.global :: (s.active ++ Value.capturedByAll s.held)

/-- Releases the frames that are no longer in use, and counts them. -/
def collect (s : Session) : Nat × Session :=
  let (released, arena) := s.arena.collect s.roots
  (released, { s with arena })

/-- Whether there are as many frames as the threshold allows. -/
def isCrowded (s : Session) : Bool := s.threshold ≤ s.arena.live

/-- Collects, and lets the threshold follow the number of frames that are left. -/
def relieve (s : Session) : Session :=
  let s := s.collect.2
  { s with threshold := max (2 * s.arena.live) leastThreshold }

/-- Passes a safe point, with a collection if one is due. -/
def passSafePoint (due : Session → Bool) (s : Session) : Session :=
  let s := if due s then s.relieve else s
  { s with safePoints := s.safePoints + 1 }

/-- Binds a name in the global scope. -/
def define (s : Session) (name : String) (v : Value) : Session :=
  { s with arena := s.arena.set s.global name v }

/-- The value of a name in the global scope. -/
def lookup (s : Session) (name : String) : Option Value := s.arena.find? s.global name

/-- Takes what was printed out of the sink. -/
def drain (s : Session) : String × Session :=
  (s.sink.written, { s with sink := { s.sink with written := "" } })

end Session

end Lisp
