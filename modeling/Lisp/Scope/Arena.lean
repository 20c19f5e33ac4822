import Lisp.Arity
import Lisp.Value.Basic

/-!
# Frames of variables

Variables live in *frames*, which are kept in an arena and referred to by handles. A handle whose
frame has been released stays without a frame, even when its place is used again.

- `Frame`: bindings, and the scope around them.
- `Arena`: places for frames. A place that was released is used again before a new one is made,
  and its generation tells the frames kept there one after the other apart. There are assumed to be
  fewer than 2^32 places (`Scope`).
- `Arena.create`, `Arena.bind`, `Arena.set`: new frames and new bindings.
- `Arena.find?`, `Arena.identifiers`: what a scope sees, through the scopes around it.
-/

namespace Lisp

/-- The bindings of one scope, each name once. -/
abbrev Bindings := List (String × Value)

/-- Binds a name, in place of an earlier binding of it. -/
def Bindings.set (name : String) (v : Value) : Bindings → Bindings
  | [] => [(name, v)]
  | (n, w) :: bs => if n = name then (name, v) :: bs else (n, w) :: Bindings.set name v bs

/-- The variables of one scope. -/
structure Frame where
  /-- The scope around this one. -/
  outer : Option Scope
  bindings : Bindings
  deriving Inhabited

/-- Binds a name in a frame. -/
def Frame.set (f : Frame) (name : String) (v : Value) : Frame :=
  { f with bindings := f.bindings.set name v }

/-- The scopes that a frame keeps in use. -/
def Frame.links (f : Frame) : List Scope :=
  f.outer.toList ++ f.bindings.flatMap fun b => b.2.captured

/-- A place for frames. -/
structure Slot where
  /-- How often a frame was released here. -/
  releases : Nat
  frame : Option Frame
  deriving Inhabited

/-- The generation of the frame at a place: a word of 32 bits, which comes round again after 2^32
releases. -/
def Slot.generation (slot : Slot) : UInt32 := UInt32.ofNat slot.releases

/-- A place after its frame has been released. -/
def Slot.release (slot : Slot) : Slot := ⟨slot.releases + 1, none⟩

/-- A release takes the generation one further. -/
theorem Slot.generation_release (slot : Slot) : slot.release.generation = slot.generation + 1 :=
  UInt32.ofNat_add slot.releases 1

/-- The places for frames, and the ones that are free, the last one to be used first. -/
structure Arena where
  slots : Array Slot := #[]
  free : Array Nat := #[]
  /-- The bindings that were lost because their scope had been released, the latest first. Each of
  them is worth a warning. -/
  lost : List (String × Scope) := []

namespace Arena

/-- The frame of a scope, if it has not been released. -/
def frame? (a : Arena) (s : Scope) : Option Frame :=
  match a.slots[s.index]? with
  | some slot => if slot.generation = s.generation then slot.frame else none
  | none => none

/-- Whether the frame of a scope has not been released. -/
def contains (a : Arena) (s : Scope) : Bool := (a.frame? s).isSome

/-- The number of frames. -/
def live (a : Arena) : Nat := a.slots.size - a.free.size

/-- The generation of a place. -/
def generationAt (a : Arena) (i : Nat) : UInt32 := ((a.slots[i]?).map Slot.generation).getD 0

/-- Makes an empty frame, within another scope or within none. -/
def create (a : Arena) (outer : Option Scope) : Scope × Arena :=
  match a.free.back? with
  | some i =>
    let scope := ⟨i, a.generationAt i⟩
    (scope,
      { a with
        slots := a.slots.modify i fun slot => { slot with frame := some ⟨outer, []⟩ }
        free := a.free.pop })
  | none => (⟨a.slots.size, 0⟩, { a with slots := a.slots.push ⟨0, some ⟨outer, []⟩⟩ })

/-- Binds a name in the frame of a scope. Without a frame the binding is lost. -/
def set (a : Arena) (s : Scope) (name : String) (v : Value) : Arena :=
  if a.contains s then
    { a with slots := a.slots.modify s.index fun slot =>
        { slot with frame := slot.frame.map (·.set name v) } }
  else { a with lost := (name, s) :: a.lost }

/-- Pairs parameters with arguments. The name after the marker gets the list of all further
arguments; a parameter without an argument gets `nil`. -/
def pairUp : List String → List Value → List (String × Value)
  | [], _ => []
  | p :: ps, args =>
    if p = restMarker then (ps.head?.map fun rest => (rest, Value.list args)).toList
    else (p, args.headD .nil) :: pairUp ps args.tail

/-- Makes a frame that binds parameters to arguments. -/
def bind (a : Arena) (outer : Scope) (params : List String) (args : List Value) : Scope × Arena :=
  let (s, a) := a.create (some outer)
  (s, (pairUp params args).foldl (fun a p => a.set s p.1 p.2) a)

/-- Looks a name up in a scope and in at most so many scopes in all around it. -/
def findWithin (a : Arena) (name : String) : Nat → Scope → Option Value
  | 0, _ => none
  | n + 1, s =>
    match a.frame? s with
    | none => none
    | some f =>
      match f.bindings.lookup name with
      | some v => some v
      | none =>
        match f.outer with
        | some outer => findWithin a name n outer
        | none => none

/-- The value of a name in the nearest scope that binds it. A released scope on the way outward
ends the search; no way outward has more scopes than there are frames. -/
def find? (a : Arena) (s : Scope) (name : String) : Option Value :=
  a.findWithin name a.slots.size s

/-- The names bound in a scope and in at most so many scopes in all around it. -/
def namesWithin (a : Arena) : Nat → Scope → List String
  | 0, _ => []
  | n + 1, s =>
    match a.frame? s with
    | none => []
    | some f =>
      f.bindings.map Prod.fst ++
        match f.outer with
        | some outer => namesWithin a n outer
        | none => []

/-- Names in order, each once. -/
def sortNames (names : List String) : List String :=
  (names.mergeSort fun a b => decide (a ≤ b)).eraseDups

/-- The names that a scope sees, in order. -/
def identifiers (a : Arena) (s : Scope) : List String := sortNames (a.namesWithin a.slots.size s)

end Arena

end Lisp
