import Lisp.Session.Source
import Lisp.Proofs.Eval.Likeness

/-!
# Sessions that evaluate alike programs

- `Likeness.OnOutcome`: outcomes of programs that are alike.
- `Likeness.Relates.evalProgramWith`: sessions that differ only in their forms evaluate programs
  that are alike to such outcomes, and differ only in their forms afterwards.
- `Likeness.relates_new`: a new session has no forms but those of the startup text.
-/

namespace Lisp.Likeness

variable {c : Likeness} {s t : Session}

/-- Programs of which each form is in the place of the other's. -/
def OnProgram (c : Likeness) (p q : Program) : Prop :=
  c.OnForms (Form.significant p.forms) (Form.significant q.forms)

/-- Outcomes of programs that are alike. -/
inductive OnOutcome (c : Likeness) : Outcome (List Value) → Outcome (List Value) → Prop
  | ok {vs ws : List Value} : c.OnValues vs ws → OnOutcome c (.ok vs) (.ok ws)
  | failed {e e' : EvalError} : c.OnFault e e' →
      OnOutcome c (.failed (.eval e)) (.failed (.eval e'))
  | outOfFuel : OnOutcome c .outOfFuel .outOfFuel

/-- Programs that are alike have outcomes that are alike, in sessions that collect at the same
moments. -/
theorem Relates.evalProgramWith (h : c.Relates s t) {due due' : Session → Bool}
    (hdue : ∀ s t, c.Relates s t → due' t = due s) (fuel : Nat) {p q : Program}
    (hpq : c.OnProgram p q) :
    c.Relates (s.evalProgramWith due fuel p).2 (t.evalProgramWith due' fuel q).2 ∧
      c.OnOutcome (s.evalProgramWith due fuel p).1 (t.evalProgramWith due' fuel q).1 := by
  have hprogram := Eval.parallels_evalProgram hdue fuel hpq s t h
  unfold Session.evalProgramWith Session.perform
  generalize Eval.evalProgram due fuel p s = x at hprogram
  generalize Eval.evalProgram due' fuel q t = y at hprogram
  obtain ⟨r, s'⟩ := x
  obtain ⟨r', t'⟩ := y
  obtain ⟨h', -, hend⟩ := hprogram
  cases hend with
  | ok hvs => exact ⟨h', .ok hvs⟩
  | error hstop =>
    cases hstop with
    | error he => exact ⟨h', .failed he⟩
    | outOfFuel => exact ⟨h', .outOfFuel⟩

/-- Whether a session is crowded does not depend on its forms. -/
theorem Relates.isCrowded_eq (h : c.Relates s t) : t.isCrowded = s.isCrowded := by
  rw [h.eq, Session.isCrowded, Session.isCrowded, Session.mapForms, Arena.live_mapForms]

/-- A source text that is in its own place keeps the sessions alike. -/
theorem Relates.evalSourceWith (h : c.Relates s t) {due due' : Session → Bool}
    (hdue : ∀ s t, c.Relates s t → due' t = due s) (fuel : Nat) {source : String}
    (hsource : ∀ p, Program.parse source s.readings = .ok p → c.OnProgram p p) :
    c.Relates (s.evalSourceWith due fuel source).2 (t.evalSourceWith due' fuel source).2 := by
  obtain ⟨rfl, hmentioned⟩ := h
  have hread : c.Relates (s.read source).2 ((s.mapForms c.map).read source).2 := ⟨rfl, hmentioned⟩
  have hparse : ((s.mapForms c.map).read source).1 = (s.read source).1 := rfl
  have hsource : ∀ p, (s.read source).1 = .ok p → c.OnProgram p p := hsource
  unfold Session.evalSourceWith
  generalize s.read source = x at hread hparse hsource
  generalize (s.mapForms c.map).read source = y at hread hparse
  obtain ⟨r, s'⟩ := x
  obtain ⟨r', t'⟩ := y
  subst hparse
  cases r' with
  | error e => exact hread
  | ok p => exact (hread.evalProgramWith hdue fuel (hsource p rfl)).1

/-! ## New sessions -/

theorem relates_empty (c : Likeness) (sink : Sink) :
    c.Relates (Session.empty sink) (Session.empty sink) := by
  constructor
  case eq =>
    simp [Session.empty, Session.mapForms, Arena.create, Arena.mapForms, Slot.mapForms,
      Frame.mapForms, Bindings.mapForms]
  case mentioned =>
    rintro f (hf | ⟨v, hv, -⟩)
    · obtain ⟨_, frame, hframe, -⟩ := Arena.mentioned_create {} none hf
      cases hframe
    · cases hv

/-- The built-in functions have no forms. -/
theorem relates_defines (bs : List Builtin) (h : c.Relates s t) :
    c.Relates (bs.foldl (fun s b => s.define b.name (.function b)) s)
      (bs.foldl (fun s b => s.define b.name (.function b)) t) := by
  induction bs generalizing s t with
  | nil => exact h
  | cons b bs ih =>
    obtain ⟨rfl, hmentioned⟩ := h
    exact ih (Eval.parallels_assign (c := c) s.global b.name (v := .function b)
      (.of_forms_eq_nil rfl) s _ ⟨rfl, hmentioned⟩).1

/-- A new session is in its own place if the startup text is. -/
theorem relates_new (c : Likeness) (sink : Sink)
    (hstartup : ∀ p, Program.parse startupSource 0 = .ok p → c.OnProgram p p) :
    c.Relates (Session.new sink) (Session.new sink) := by
  have hdefines := relates_defines Builtin.all (relates_empty c sink)
  exact hdefines.evalSourceWith (fun _ _ h => h.isCrowded_eq) ampleFuel hstartup

end Lisp.Likeness
