import Lisp.Proofs.Form.Relocation
import Lisp.Proofs.Session.Composition
import Lisp.Proofs.Session.Intact
import Lisp.Proofs.Session.Likeness

/-!
# Where the forms of a session come from

- `Session.SitesIn`: all forms in the values of a session, at any depth, come from certain sites.
- `Session.SitesIn.evalProgram`: evaluation makes no forms. Those of a session come from where they
  came from before, or from the program.
- `Session.readings_evalSourceWith`: a source text is counted once.
- `Session.Reached.sitesIn`: the forms of a session come from the texts that it has read.
-/

namespace Lisp.Session

variable {P Q : Site → Prop} {s : Session} {sink : Sink}

/-- All forms in the values of a session come from certain sites. -/
def SitesIn (P : Site → Prop) (s : Session) : Prop := ∀ f ∈ s.mentioned, f.SitesIn P

theorem SitesIn.mono (h : s.SitesIn P) (hPQ : ∀ x, P x → Q x) : s.SitesIn Q :=
  fun f hf g hg => hPQ _ (h f hf g hg)

/-- Such a session is in its own place. -/
theorem relates_unchanged_iff {t : Session} :
    (Likeness.unchanged P).Relates s t ↔ t = s ∧ s.SitesIn P := by
  have hsame : s.mapForms (Likeness.unchanged P).map = s := mapForms_eq_self fun _ _ => rfl
  constructor
  · rintro ⟨heq, hmentioned⟩
    exact ⟨heq.trans hsame, hmentioned⟩
  · rintro ⟨rfl, h⟩
    exact ⟨hsame.symm, h⟩

/-- Evaluation makes no forms, and reads no source text. -/
theorem SitesIn.evalProgram (h : s.SitesIn P) {p : Program} (hp : ∀ f ∈ p.forms, f.SitesIn P)
    (due : Session → Bool) (fuel : Nat) :
    (Eval.evalProgram due fuel p s).2.SitesIn P ∧
      (Eval.evalProgram due fuel p s).2.readings = s.readings := by
  have hforms : (Likeness.unchanged P).OnForms (Form.significant p.forms)
      (Form.significant p.forms) :=
    ⟨(List.map_id _).symm, fun f hf => hp f (List.mem_filter.1 hf).1⟩
  have hdue : ∀ s t, (Likeness.unchanged P).Relates s t → due t = due s :=
    fun _ _ hr => congrArg due (relates_unchanged_iff.1 hr).1
  obtain ⟨hr, hreadings, -⟩ := Eval.parallels_evalProgram hdue fuel hforms s s
    (relates_unchanged_iff.2 ⟨rfl, h⟩)
  exact ⟨hr.mentioned, hreadings⟩

theorem perform_snd {α : Type} (s : Session) (act : Eval α) : (s.perform act).2 = (act s).2 := by
  unfold perform
  rcases act s with ⟨(e | _) | a, s'⟩ <;> rfl

theorem evalSourceWith_eq {source : String} {p : Program} (due : Session → Bool) (fuel : Nat)
    (h : Program.parse source s.readings = .ok p) :
    s.evalSourceWith due fuel source =
      ({ s with readings := s.readings + 1 } : Session).perform
        (Eval.evalProgram due fuel p) := by
  rw [evalSourceWith, read, h]
  rfl

/-- The forms of a session come from the source texts that were read. -/
theorem SitesIn.evalSourceWith {source : String} (h : s.SitesIn P)
    (hp : ∀ p, Program.parse source s.readings = .ok p → ∀ f ∈ p.forms, f.SitesIn P)
    (due : Session → Bool) (fuel : Nat) :
    (s.evalSourceWith due fuel source).2.SitesIn P ∧
      (s.evalSourceWith due fuel source).2.readings = s.readings + 1 := by
  have hread : (s.read source).2.SitesIn P := h
  unfold Session.evalSourceWith
  rw [read] at hread ⊢
  cases hparse : Program.parse source s.readings with
  | error e => exact ⟨hread, rfl⟩
  | ok p =>
    dsimp only
    rw [evalProgramWith, perform_snd]
    exact hread.evalProgram (hp p hparse) due fuel

/-- Each source text is counted once. -/
theorem readings_evalSourceWith (due : Session → Bool) (fuel : Nat) (s : Session)
    (source : String) : (s.evalSourceWith due fuel source).2.readings = s.readings + 1 :=
  (SitesIn.evalSourceWith (P := fun _ => True) (fun _ _ _ _ => trivial)
    (fun _ _ _ _ _ _ => trivial) due fuel).2

/-- The forms of a session come from the texts that it has read. -/
theorem Reached.sitesIn (hs : Reached sink s) : s.SitesIn (·.reading < s.readings) := by
  have hlater : ∀ {s : Session} {source : String} {due : Session → Bool} {fuel : Nat},
      s.SitesIn (·.reading < s.readings) →
      (s.evalSourceWith due fuel source).2.SitesIn
        (·.reading < (s.evalSourceWith due fuel source).2.readings) := by
    intro s source due fuel h
    rw [readings_evalSourceWith]
    refine (SitesIn.evalSourceWith (h.mono fun x hx => ?_) (fun p hp f hf g hg => ?_) due fuel).1
    · exact Nat.lt_succ_of_lt hx
    · exact Nat.lt_succ_of_le (Program.site_of_part hp hf hg).1.le
  induction hs with
  | new =>
    -- Before the startup text is read there are no forms at all.
    have hempty := (Likeness.unchanged fun _ => False).relates_empty sink
    have hdefines := Likeness.relates_defines Builtin.all hempty
    have hnone : ∀ {s : Session}, (Likeness.unchanged fun _ => False).Relates s s →
        s.SitesIn (·.reading < s.readings) :=
      fun hr => (relates_unchanged_iff.1 hr).2.mono fun _ => False.elim
    exact hlater (hnone hdefines)
  | evalSource due fuel source _ ih => exact hlater ih
  | @collect s _ ih =>
    rintro f (hf | hf)
    · exact ih f (.inl (Arena.mentioned_collect s.arena s.roots hf))
    · exact ih f (.inr hf)

end Lisp.Session
