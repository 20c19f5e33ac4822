import Lisp.Proofs.Eval.Outcomes
import Lisp.Proofs.Session.Intact

/-!
# Requests of an action

An action that is given an evaluator of parts asks for the parts one after the other. All that
happens to the safe points of a session during the action happens while a part is evaluated.

- `Session.Quiet`: nothing happened that concerns safe points.
- `Session.Course`: some events in order, with quiet in between.
- `Eval.Request`: a form that is asked for at a moment.
- `Eval.Makes`: these are the requests of an action, all of them and no others.
- `Composed.exists_makes`: every composed action makes such requests.
- `Makes.asks_iff`: what it asks for are exactly its requests.
-/

namespace Lisp

/-- Between two moments nothing happened that concerns safe points. -/
structure Session.Quiet (s t : Session) : Prop where
  threshold : t.threshold = s.threshold
  safePoints : t.safePoints = s.safePoints
  wellFormed : s.arena.WellFormed → t.arena.WellFormed

namespace Session.Quiet

variable {s t u : Session}

theorem refl (s : Session) : s.Quiet s := ⟨rfl, rfl, id⟩

theorem trans (hst : s.Quiet t) (htu : t.Quiet u) : s.Quiet u :=
  ⟨htu.threshold.trans hst.threshold, htu.safePoints.trans hst.safePoints,
    fun hw => htu.wellFormed (hst.wellFormed hw)⟩

theorem enter (s : Session) (scope : Scope) : s.Quiet (s.enter scope) := ⟨rfl, rfl, id⟩

theorem leave (s : Session) : s.Quiet s.leave := ⟨rfl, rfl, id⟩

theorem moveTo (s : Session) (scope : Scope) : s.Quiet (s.moveTo scope) := ⟨rfl, rfl, id⟩

theorem hold (s : Session) (v : Value) : s.Quiet (s.hold v) := ⟨rfl, rfl, id⟩

theorem letGo (s : Session) : s.Quiet s.letGo := ⟨rfl, rfl, id⟩

/-- A collection that is asked for leaves the threshold alone. -/
theorem collect (s : Session) : s.Quiet s.collect.2 := ⟨rfl, rfl, fun hw => hw.collect s.roots⟩

end Session.Quiet

/-- A course of events from one session to another: each begins with one session and ends with
another, and it is quiet in between. -/
inductive Session.Course {ε : Type} (before after : ε → Session) :
    Session → List ε → Session → Prop
  | nil {s t : Session} : s.Quiet t → Course before after s [] t
  | cons {s t : Session} {e : ε} {es : List ε} : s.Quiet (before e) →
      Course before after (after e) es t → Course before after s (e :: es) t

namespace Session.Course

variable {ε : Type} {before after : ε → Session} {s t u : Session} {es es' : List ε}

theorem quiet_left (h : Course before after t es u) (hst : s.Quiet t) :
    Course before after s es u := by
  cases h with
  | nil htu => exact .nil (hst.trans htu)
  | cons hquiet hrest => exact .cons (hst.trans hquiet) hrest

theorem append (h : Course before after s es t) (h' : Course before after t es' u) :
    Course before after s (es ++ es') u := by
  induction h with
  | nil hquiet => exact h'.quiet_left hquiet
  | cons hquiet _ ih => exact .cons hquiet (ih h')

theorem quiet_right (h : Course before after s es t) (htu : t.Quiet u) :
    Course before after s es u := by
  have hlonger := h.append (.nil htu)
  rwa [List.append_nil] at hlonger

end Session.Course

namespace Eval

variable {α : Type} {s t u : Session} {ev : Evaluator} {act : Evaluator → Eval α}
  {r : Request} {rs qs : List Request} {f : Form} {m : Moment}

theorem Local.quiet {x : Eval α} (hx : Local x) (s : Session) : s.Quiet (x s).2 :=
  ⟨by rw [hx.rest s], by rw [hx.rest s], hx.wellFormed s⟩

/-- A form that is asked for at a moment. -/
structure Request where
  form : Form
  moment : Moment

/-- What an evaluator answers to a request. -/
def Request.answer (ev : Evaluator) (r : Request) : Except Stop Value × Session :=
  ev r.form r.moment.scope r.moment.session

/-- An action makes some requests: it fails when any of them does, nothing else about the evaluator
matters to it, and it is quiet before, between and after them. -/
structure Makes (act : Evaluator → Eval α) (ev : Evaluator) (s : Session) (rs : List Request) :
    Prop where
  answered : Session.Course (·.moment.session) (fun r => (r.answer ev).2) s rs (act ev s).2
  fails : ∀ r ∈ rs, ∀ e, (act (failingAt ev r.form r.moment e) s).1 = .error (.error e)
  only : ∀ ev', (∀ r ∈ rs, r.answer ev' = r.answer ev) → act ev' s = act ev s

/-- An evaluator that fails for one request answers all others as before. -/
theorem answer_failingAt {q : Request} (hne : q ≠ r) (e : EvalError) :
    q.answer (failingAt ev r.form r.moment e) = q.answer ev := by
  refine if_neg ?_
  rintro ⟨hform, hscope, hsession⟩
  obtain ⟨f, ⟨scope, s⟩⟩ := q
  obtain ⟨g, ⟨inner, t⟩⟩ := r
  cases hform
  cases hscope
  cases hsession
  exact hne rfl

theorem fst_bind_of_error {α β : Type} {x : Eval α} {y : α → Eval β} {e : Stop}
    (h : (x s).1 = .error e) : ((x >>= y) s).1 = .error e := by
  rw [bind_apply]
  generalize x s = ended at h
  obtain ⟨result, s'⟩ := ended
  cases h
  rfl

namespace Makes

variable {β : Type} {a : α} {e : Stop} {x : Evaluator → Eval α} {y : α → Evaluator → Eval β}

/-- After a failure nothing more is asked for. -/
theorem bind_error (hx : Makes x ev s rs) (hxs : x ev s = (.error e, t)) :
    Makes (fun ev => x ev >>= fun a => y a ev) ev s rs := by
  have hresult : (x ev >>= fun a => y a ev) s = (.error e, t) := by
    rw [bind_apply, hxs]
  refine ⟨?_, fun r hr e' => fst_bind_of_error (hx.fails r hr e'), fun ev' hev' => ?_⟩
  · have hanswered := hx.answered
    rw [hxs] at hanswered
    rw [hresult]
    exact hanswered
  · show (x ev' >>= fun a => y a ev') s = _
    rw [bind_apply, hx.only ev' hev', hxs, hresult]

/-- Of two actions, the second one goes on asking where the first one has ended. -/
theorem bind_ok (hx : Makes x ev s rs) (hxs : x ev s = (.ok a, t)) (hy : Makes (y a) ev t qs) :
    Makes (fun ev => x ev >>= fun a => y a ev) ev s (rs ++ qs) := by
  have hbind : ∀ ev', x ev' s = x ev s → (x ev' >>= fun a => y a ev') s = y a ev' t := by
    intro ev' hsame
    rw [bind_apply, hsame, hxs]
  refine ⟨?_, fun r hr e => ?_, fun ev' hev' => ?_⟩
  · have hanswered := hx.answered
    rw [hxs] at hanswered
    rw [hbind ev rfl]
    exact hanswered.append hy.answered
  · by_cases hin : r ∈ rs
    · exact fst_bind_of_error (hx.fails r hin e)
    · -- The first action does not notice the failure.
      have hsame : x (failingAt ev r.form r.moment e) s = x ev s :=
        hx.only _ fun q hq => answer_failingAt (ne_of_mem_of_not_mem hq hin) e
      show ((x (failingAt ev r.form r.moment e) >>= fun a =>
        y a (failingAt ev r.form r.moment e)) s).1 = _
      rw [hbind _ hsame]
      exact hy.fails r ((List.mem_append.1 hr).resolve_left hin) e
  · have hsame : x ev' s = x ev s := hx.only ev' fun r hr => hev' r (List.mem_append_left _ hr)
    show (x ev' >>= fun a => y a ev') s = (x ev >>= fun a => y a ev) s
    rw [hbind ev' hsame, hbind ev rfl]
    exact hy.only ev' fun r hr => hev' r (List.mem_append_right _ hr)

end Makes

/-- Every composed action makes requests. -/
theorem Composed.exists_makes {i : Region} {Q : Region → α → Prop}
    (hact : Composed (fun _ => True) i Q act) (ev : Evaluator) (s : Session) :
    ∃ rs, Makes act ev s rs := by
  induction hact generalizing s with
  | basic h => exact ⟨[], .nil (h.local.quiet s), nofun, fun _ _ => rfl⟩
  | @ask i f _ =>
    refine ⟨[⟨f, ⟨i.scope, s⟩⟩], .cons (.refl s) (.nil (.refl _)), ?_, ?_⟩
    · intro r hr e
      obtain rfl := List.mem_singleton.1 hr
      exact congrArg Prod.fst (failingAt_self ev f i.scope s e)
    · exact fun ev' hev' => hev' _ List.mem_cons_self
  | @bind α β i Q R x y hcomposed _ ihx ihy =>
    obtain ⟨rs, hx⟩ := ihx s
    rcases hxs : x ev s with ⟨e | a, t⟩
    · exact ⟨rs, hx.bind_error hxs⟩
    · obtain ⟨i', ha⟩ := hcomposed.exists_region (congrArg Prod.fst hxs)
      obtain ⟨qs, hy⟩ := ihy i' a ha t
      exact ⟨rs ++ qs, hx.bind_ok hxs hy⟩
  | @entering α i Q scope x _ ih =>
    obtain ⟨rs, hx⟩ := ih (s.enter scope)
    refine ⟨rs, (hx.answered.quiet_left (.enter s scope)).quiet_right (.leave _), hx.fails, ?_⟩
    intro ev' hev'
    show Eval.entering scope (x ev') s = Eval.entering scope (x ev) s
    rw [entering_apply, entering_apply, hx.only ev' hev']
  | @holding α i Q v x _ ih =>
    obtain ⟨rs, hx⟩ := ih (s.hold v)
    refine ⟨rs, (hx.answered.quiet_left (.hold s v)).quiet_right (.letGo _), hx.fails, ?_⟩
    intro ev' hev'
    show Eval.holding v (x ev') s = Eval.holding v (x ev) s
    rw [holding_apply, holding_apply, hx.only ev' hev']

/-- An action asks for its requests and for nothing else. -/
theorem Makes.asks_iff (h : Makes act ev s rs) : Asks act ev s f m ↔ ⟨f, m⟩ ∈ rs := by
  constructor
  · rintro ⟨e, hfails, hne⟩
    by_contra hnot
    have hsame : act (failingAt ev f m e) s = act ev s :=
      h.only _ fun q hq => answer_failingAt (r := ⟨f, m⟩) (ne_of_mem_of_not_mem hq hnot) e
    rw [hsame] at hfails
    exact hne hfails
  · intro hr
    exact asks_of_fails (h.fails _ hr)

end Eval

end Lisp
