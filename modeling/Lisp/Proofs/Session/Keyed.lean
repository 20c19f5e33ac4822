import Lisp.Proofs.Eval.Outcomes
import Lisp.Proofs.Session.Sites
import Lisp.Proofs.Value.Equality

/-!
# The maps of a session have each key once

- `Session.bound_of_reached`: the values of a session have each property that passes from the values
  of which others are made to these (`Value.Hereditary`).
- `Session.keyed_of_reached`: so they have each key once, for this is such a property.
-/

namespace Lisp

theorem Value.hereditary_keyed : Hereditary Keyed :=
  ⟨fun _ => .of_atom, fun _ => .list, fun _ => .vector, fun _ => .ofList⟩

namespace Session

variable {P : Value → Prop} {s : Session} {sink : Sink}

theorem yields_evalSourceWith (hP : Value.Hereditary P) (hs : ∀ v ∈ s.arena.bound, P v)
    (due : Session → Bool) (fuel : Nat) (source : String) :
    (∀ v ∈ (s.evalSourceWith due fuel source).2.arena.bound, P v) ∧
      ∀ vs, (s.evalSourceWith due fuel source).1 = .ok vs → ∀ v ∈ vs, P v := by
  cases hp : Program.parse source s.readings with
  | error e =>
    rw [evalSourceWith, read, hp]
    exact ⟨hs, fun vs heq => by cases heq⟩
  | ok p =>
    obtain ⟨hbound, hresult⟩ :=
      Eval.yields_evalProgram hP due fuel p { s with readings := s.readings + 1 } hs
    rw [evalSourceWith_eq due fuel hp, perform]
    generalize Eval.evalProgram due fuel p { s with readings := s.readings + 1 } = r
      at hbound hresult
    rcases r with ⟨(e | _) | vs, s'⟩
    · exact ⟨hbound, fun vs heq => by cases heq⟩
    · exact ⟨hbound, fun vs heq => by cases heq⟩
    · refine ⟨hbound, fun ws heq => ?_⟩
      cases heq
      exact hresult vs rfl

/-- All values of a session have each hereditary property. -/
theorem bound_of_reached (hP : Value.Hereditary P) (hs : Reached sink s) :
    ∀ v ∈ s.arena.bound, P v := by
  induction hs with
  | new =>
    have hempty : ∀ v ∈ (empty sink).arena.bound, P v := by
      intro v hv
      have hnone : v ∈ Arena.bound {} := Arena.bound_create {} none hv
      rw [Arena.bound_empty] at hnone
      cases hnone
    have hdefines : ∀ (bs : List Builtin) (s : Session), (∀ v ∈ s.arena.bound, P v) →
        ∀ v ∈ (bs.foldl (fun s b => s.define b.name (.function b)) s).arena.bound, P v := by
      intro bs
      induction bs with
      | nil => exact fun s hs => hs
      | cons b bs ih =>
        exact fun s hs => ih _ (Arena.forall_bound_set hs s.global b.name (hP.atom _ rfl))
    exact (yields_evalSourceWith hP (hdefines Builtin.all (empty sink) hempty) _ _ _).1
  | evalSource due fuel source _ ih => exact (yields_evalSourceWith hP ih due fuel source).1
  | @collect s _ ih => exact fun v hv => ih v (Arena.bound_collect s.arena s.roots hv)

/-- **Maps have each key once**, in the values that a session has bound and in those that a source
text evaluates to in it. So equality is a partial equivalence of all of these. -/
theorem keyed_of_reached (hs : Reached sink s) (due : Session → Bool) (fuel : Nat)
    (source : String) :
    (∀ v ∈ s.arena.bound, v.Keyed) ∧
      ∀ vs, (s.evalSourceWith due fuel source).1 = .ok vs → ∀ v ∈ vs, v.Keyed :=
  ⟨bound_of_reached Value.hereditary_keyed hs,
    (yields_evalSourceWith Value.hereditary_keyed
      (bound_of_reached Value.hereditary_keyed hs) due fuel source).2⟩

end Session

end Lisp
