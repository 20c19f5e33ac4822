import Mathlib
import Lisp.Proofs.Session.Likeness

/-!
# Comments do not show

- `Form.uncommented`: a form without the comments in it, and `Program.uncommented`, a program
  without any.
- `Likeness.uncommented`: evaluation treats both alike, and blames the same spans.
- `Session.showings`: what shows of the programs that a session evaluates one after the other.
- `Session.showings_uncommented`: in a new session the same shows of programs without their
  comments.
-/

namespace Lisp

/-! ## Forms without comments -/

namespace Form

mutual

/-- A form without the comments in it, at any depth. -/
def uncommented : Form → Form
  | comment s text => comment s text
  | symbol s name => symbol s name
  | literal s kind raw => literal s kind raw
  | vector s es => vector s (uncommentedAll es)
  | map s es => map s (uncommentedAll es)
  | list s mark es => list s mark (uncommentedAll es)

/-- Some forms without the comments among them and in them. -/
def uncommentedAll : List Form → List Form
  | [] => []
  | f :: fs => if f.isComment then uncommentedAll fs else f.uncommented :: uncommentedAll fs

end

@[simp] theorem site_uncommented (f : Form) : f.uncommented.site = f.site := by
  cases f <;> rfl

@[simp] theorem shorthand?_uncommented (f : Form) : f.uncommented.shorthand? = f.shorthand? := by
  cases f <;> rfl

@[simp] theorem isComment_uncommented (f : Form) : f.uncommented.isComment = f.isComment := by
  cases f <;> rfl

theorem uncommentedAll_eq_map (fs : List Form) :
    uncommentedAll fs = (significant fs).map uncommented := by
  induction fs with
  | nil => rfl
  | cons f fs ih =>
    rw [uncommentedAll, ih, significant, significant, List.filter_cons]
    cases f.isComment <;> rfl

/-- Without its comments, a sequence has the same forms that count. -/
theorem significant_uncommentedAll (fs : List Form) :
    significant (uncommentedAll fs) = (significant fs).map uncommented := by
  rw [uncommentedAll_eq_map]
  exact significant_map_significant isComment_uncommented fs

end Form

/-- A program without comments. -/
def Program.uncommented (p : Program) : Program := ⟨Form.uncommentedAll p.forms⟩

namespace Likeness

/-- In the place of each form, the form without the comments in it. -/
def uncommented : Likeness where
  map := Form.uncommented
  dom := Set.univ
  elements _ _ _ _ := trivial
  alike f _ := by
    cases f with
    | comment s text => exact .comment s s text
    | symbol s name => exact .symbol s s name
    | literal s kind raw => exact .literal s s kind raw
    | vector s es => exact .vector s s (Form.significant_uncommentedAll es)
    | map s es => exact .map s s (Form.significant_uncommentedAll es)
    | list s mark es => exact .list s s mark (Form.significant_uncommentedAll es)
  same f _ g _ := by rw [Form.site_uncommented, Form.site_uncommented]
  names _ _ g _ := Form.shorthand?_uncommented g

theorem onProgram_uncommented (p : Program) : uncommented.OnProgram p p.uncommented :=
  ⟨Form.significant_uncommentedAll p.forms, fun _ _ => trivial⟩

/-- Without its comments a form has the same span, so that the same fault is found. -/
theorem eq_of_onFault_uncommented {e e' : EvalError} (h : uncommented.OnFault e e') : e' = e := by
  obtain ⟨span, ⟨f, -, hspan, hspan'⟩, rfl⟩ := h
  obtain rfl := hspan' (Form.shorthand?_uncommented f)
  have hsame : (uncommented.map f).span = e.span := by
    rw [hspan, Form.span, Form.span]
    exact congrArg Site.span (Form.site_uncommented f)
  rw [hsame, EvalError.blaming_span]

end Likeness

/-! ## What shows -/

/-- An outcome with another result. -/
def Outcome.map {α β : Type} (g : α → β) : Outcome α → Outcome β
  | ok a => ok (g a)
  | failed cause => failed cause
  | outOfFuel => outOfFuel

namespace Session

/-- What shows of the evaluation of a program. -/
structure Showing where
  /-- The texts of the values, or the failure with the span that it blames. -/
  outcome : Outcome (List String)
  /-- The output, with everything that has been written to it so far. -/
  sink : Sink
  /-- The number of frames that are left. -/
  live : Nat

/-- What shows of the evaluation of programs one after the other, also after one that failed. -/
def showings (style : Style) (fuel : Nat) : Session → List Program → List Showing
  | _, [] => []
  | s, p :: ps =>
    let (outcome, s') := s.evalProgramWith isCrowded fuel p
    ⟨outcome.map (List.map (Value.text style)), s'.sink, s'.arena.live⟩ ::
      showings style fuel s' ps

end Session

namespace Likeness

variable {s t : Session}

/-- Of a session, the same shows with other forms in the place of its own, if those have the same
spans. -/
theorem Relates.showings_eq {c : Likeness} (h : c.Relates s t) {remake : Program → Program}
    (hprogram : ∀ p, c.OnProgram p (remake p)) (hfault : ∀ e e', c.OnFault e e' → e' = e)
    (style : Style) (fuel : Nat) (ps : List Program) :
    t.showings style fuel (ps.map remake) = s.showings style fuel ps := by
  induction ps generalizing s t with
  | nil => rfl
  | cons p ps ih =>
    have hcrowded : ∀ s t, c.Relates s t → t.isCrowded = s.isCrowded := fun _ _ h => h.isCrowded_eq
    obtain ⟨h', hout⟩ := h.evalProgramWith hcrowded fuel (hprogram p)
    have houtcome : (t.evalProgramWith Session.isCrowded fuel (remake p)).1.map
          (List.map (Value.text style)) =
        (s.evalProgramWith Session.isCrowded fuel p).1.map (List.map (Value.text style)) := by
      generalize (s.evalProgramWith Session.isCrowded fuel p).1 = x at hout
      generalize (t.evalProgramWith Session.isCrowded fuel (remake p)).1 = y at hout
      cases hout with
      | ok hvs =>
        obtain ⟨rfl, hin⟩ := hvs
        simp only [Outcome.map, List.map_map]
        exact congrArg Outcome.ok (List.map_congr_left fun v hv => text_eq ⟨rfl, hin v hv⟩ style)
      | failed he => rw [hfault _ _ he]
      | outOfFuel => rfl
    rw [List.map_cons, Session.showings, Session.showings]
    dsimp only
    rw [houtcome, h'.sink_eq, h'.arena_eq, Arena.live_mapForms, ih h']

end Likeness

namespace Session

/-- **Comments do not show.** In a new session, programs without their comments, at any depth, show
the same one after the other: the same texts of values, the same failures that blame the same spans,
the same output, and as many frames that are left. It does not matter whether the programs were
read, or how many steps they may take. -/
theorem showings_uncommented (sink : Sink) (style : Style) (fuel : Nat) (ps : List Program) :
    (new sink).showings style fuel (ps.map Program.uncommented) =
      (new sink).showings style fuel ps := by
  -- A new session has evaluated the startup text, which has no comments.
  have hstartup : ∀ p, Program.parse startupSource 0 = .ok p →
      Likeness.uncommented.OnProgram p p := by
    intro p hp
    have hplain : (Program.parse startupSource 0).map Program.uncommented =
        Program.parse startupSource 0 := by cbv
    rw [hp] at hplain
    have hsame : p.uncommented = p := Except.ok.inj hplain
    have hon := Likeness.onProgram_uncommented p
    rwa [hsame] at hon
  refine (Likeness.relates_new Likeness.uncommented sink hstartup).showings_eq
    Likeness.onProgram_uncommented ?_ style fuel ps
  exact fun _ _ => Likeness.eq_of_onFault_uncommented

end Session

end Lisp
