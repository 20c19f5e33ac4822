import Lisp.Scope.Arena

/-!
# Releasing frames

- `Arena.mark`: the places of the frames that some scopes keep in use, directly or through other
  frames.
- `Arena.collect`: releases all other frames.
-/

namespace Lisp.Arena

/-- Marks the places of the frames in use: those of the pending scopes, and those that a frame in
use links to. Each place is marked once, which bounds the work. -/
def mark (a : Arena) (marked : Array Bool) (pending : List Scope) : Array Bool :=
  match pending with
  | [] => marked
  | s :: rest =>
    match a.frame? s with
    | none => a.mark marked rest
    | some f =>
      if h : ∃ hi : s.index < marked.size, marked[s.index] = false then
        a.mark (marked.set s.index true h.1) (f.links ++ rest)
      else a.mark marked rest
termination_by (marked.count false, pending.length)
decreasing_by
  · exact .right _ (by simp)
  · obtain ⟨hi, hm⟩ := h
    have hmem : false ∈ marked := by rw [← hm]; exact Array.getElem_mem hi
    have := Array.count_pos_iff.2 hmem
    refine .left _ _ ?_
    rw [Array.count_set hi]
    simp [hm]
    omega
  · exact .right _ (by simp)

/-- Whether a place holds a frame that is not in use. -/
def isGarbage (marked : Array Bool) (i : Nat) (slot : Slot) : Bool :=
  slot.frame.isSome && marked[i]? != some true

/-- The places whose frames are not in use, in increasing order. -/
def garbage (a : Arena) (marked : Array Bool) : Array Nat :=
  (Array.range a.slots.size).filter fun i => (a.slots[i]?).any (isGarbage marked i)

/-- Releases the frames that are not in use. -/
def sweep (a : Arena) (marked : Array Bool) : Arena :=
  { a with
    slots := a.slots.mapIdx fun i slot => if isGarbage marked i slot then slot.release else slot
    free := a.free ++ a.garbage marked }

/-- Releases all frames but those that the given scopes keep in use, and counts them. -/
def collect (a : Arena) (roots : List Scope) : Nat × Arena :=
  let marked := a.mark (Array.replicate a.slots.size false) roots
  ((a.garbage marked).size, a.sweep marked)

end Lisp.Arena
