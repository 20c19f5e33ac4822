import Mathlib
import Lisp.Proofs.Session.Conversation

/-!
# No scope that is needed has been released

- `Session.Intact`: every scope that a session needs has its frame, and so has every scope on the
  way outward from it; no binding was ever lost for want of a frame.
- `Eval.Asks`: an action asks an evaluator for the value of a form at some moment.
- `Eval.Visits`: the moments before and after each step of an evaluation, and of all evaluations
  that it asks for, at every depth.
- `Session.Reached`: the sessions that source texts and collections lead to from a new one.
- `intact_of_reached`: all of these sessions are intact, and so are all moments on the way.
-/

namespace Lisp

/-! ## Intact sessions -/

/-- Nothing that a session needs has been released. -/
structure Session.Intact (s : Session) : Prop where
  global : s.arena.contains s.global = true
  active : ∀ h ∈ s.active, s.arena.contains h = true
  held : ∀ v ∈ s.held, ∀ h ∈ v.captured, s.arena.contains h = true
  /-- The scope around a frame that is in use. -/
  outer : ∀ h f, s.arena.Reachable s.roots h → s.arena.frame? h = some f →
    ∀ o, f.outer = some o → s.arena.contains o = true
  /-- The scopes of functions that are bound in a frame in use, at any depth of a value. -/
  bound : ∀ h f, s.arena.Reachable s.roots h → s.arena.frame? h = some f →
    ∀ b ∈ f.bindings, ∀ c ∈ b.2.captured, s.arena.contains c = true
  /-- No search that begins in a scope in use comes to a released one. -/
  wayOut : ∀ h, s.arena.Reachable s.roots h → ∃ n, s.arena.Depth h n
  wellFormed : s.arena.WellFormed
  lost : s.arena.lost = []

namespace Renaming.Relates

variable {ρ : Renaming} {s t : Session}

theorem contains (hr : ρ.Relates s t) {h : Scope} (hdom : h ∈ ρ.dom) :
    s.arena.contains h = true := by
  obtain ⟨f, hf, -⟩ := hr.frame h hdom
  exact Arena.contains_iff.2 ⟨f, hf⟩

/-- Related sessions are intact. -/
theorem intact (hr : ρ.Relates s t) : s.Intact := by
  have hlinks : ∀ h f, s.arena.Reachable s.roots h → s.arena.frame? h = some f →
      ∀ l ∈ f.links, s.arena.contains l = true :=
    fun h f hh hf l hl => hr.contains (hr.reachable (.link hh hf hl)).1
  constructor
  case global => exact hr.contains (hr.roots _ (Session.mem_roots.2 (.inl rfl)))
  case active =>
    intro h hh
    exact hr.contains (hr.roots h (Session.mem_roots.2 (.inr (.inl hh))))
  case held =>
    intro v hv h hh
    exact hr.contains (hr.roots h (Session.mem_roots.2 (.inr (.inr ⟨v, hv, hh⟩))))
  case outer =>
    intro h f hh hf o ho
    exact hlinks h f hh hf o (Frame.mem_links.2 (.inl ho))
  case bound =>
    intro h f hh hf b hb c hc
    exact hlinks h f hh hf c (Frame.mem_links.2 (.inr ⟨b, hb, hc⟩))
  case wayOut =>
    intro h hh
    exact hr.depth h (hr.reachable hh).1
  case wellFormed => exact hr.wellFormed_left
  case lost => exact hr.lost_left

/-- A session that is related to another is related to itself. -/
theorem right (hr : ρ.Relates s t) : ∃ ρ' : Renaming, ρ'.Relates t t := by
  refine ⟨⟨id, ρ.map '' ρ.dom, Function.injective_id.injOn⟩, ?_⟩
  exact {
    wellFormed_left := hr.wellFormed_right
    wellFormed_right := hr.wellFormed_right
    frame := by
      rintro _ ⟨h, hh, rfl⟩
      obtain ⟨f, -, hlinks, hg⟩ := hr.frame h hh
      refine ⟨f.rename ρ.map, hg, fun l hl => ?_, ?_⟩
      · rw [Frame.links_rename] at hl
        obtain ⟨l, hmem, rfl⟩ := List.mem_map.1 hl
        exact ⟨l, hlinks l hmem, rfl⟩
      · rw [Frame.rename_id]
        exact hg
    depth := by
      rintro _ ⟨h, hh, rfl⟩
      obtain ⟨n, hn⟩ := hr.depth h hh
      exact ⟨n, hr.depth_map hh hn⟩
    roots := by
      intro k hk
      rw [hr.roots_map] at hk
      obtain ⟨h, hh, rfl⟩ := List.mem_map.1 hk
      exact ⟨h, hr.roots h hh, rfl⟩
    global := rfl
    active := (List.map_id _).symm
    held := by
      show t.held = t.held.map (Value.rename id)
      rw [← Value.renameAll_eq_map, Value.renameAll_id]
    sink := rfl
    readings := rfl
    lost_left := hr.lost_right
    lost_right := hr.lost_right }

end Renaming.Relates

/-! ## Moments of an evaluation -/

namespace Eval

variable {α : Type}

/-- A moment of an evaluation: the scope in which it goes on, and the session. -/
structure Moment where
  scope : Scope
  session : Session

open Classical in
/-- An evaluator that fails when it is asked for one form at one moment. -/
noncomputable def failingAt (ev : Evaluator) (f : Form) (m : Moment) (e : EvalError) : Evaluator :=
  fun g scope s => if g = f ∧ scope = m.scope ∧ s = m.session then fail e s else ev g scope s

/-- An action asks for a form at a moment: if it failed then and there, the action would fail with
it. -/
def Asks (act : Evaluator → Eval α) (ev : Evaluator) (s : Session) (f : Form) (m : Moment) : Prop :=
  ∃ e, (act (failingAt ev f m e) s).1 = .error (.error e) ∧ (act ev s).1 ≠ .error (.error e)

/-- The moments before and after each step of an evaluation, and of the evaluations that the steps
ask for. It does not matter how a step or an evaluation ends. After a step that leaves a form to
evaluate, the evaluation moves to the scope of that form before it passes a safe point. -/
inductive Visits (due : Session → Bool) : Nat → Form → Scope → Session → Moment → Prop
  | begins {n : Nat} {f : Form} {scope : Scope} {s : Session} :
      Visits due (n + 1) f scope s ⟨scope, s.enter scope⟩
  | part {n : Nat} {f g : Form} {scope inner : Scope} {s s' : Session} {m : Moment} :
      Asks (step · f scope) (eval due n) (s.enter scope) g ⟨inner, s'⟩ →
      Visits due n g inner s' m → Visits due (n + 1) f scope s m
  | ends {n : Nat} {f : Form} {scope : Scope} {s : Session} :
      Visits due (n + 1) f scope s ⟨scope, (step (eval due n) f scope (s.enter scope)).2⟩
  | moves {n : Nat} {f next : Form} {scope inner : Scope} {s s' : Session} :
      step (eval due n) f scope (s.enter scope) = (.ok (.tail inner next), s') →
      Visits due (n + 1) f scope s ⟨inner, s'.moveTo inner⟩
  | tail {n : Nat} {f next : Form} {scope inner : Scope} {s s' : Session} {m : Moment} :
      step (eval due n) f scope (s.enter scope) = (.ok (.tail inner next), s') →
      Visits due n next inner ((s'.moveTo inner).passSafePoint due).leave m →
      Visits due (n + 1) f scope s m

variable {ρ : Renaming} {s s' t : Session} {ev : Evaluator} {f : Form} {scope : Scope} {m : Moment}
  {Q : Renaming → α → α → Prop} {act : Evaluator → Eval α} {due : Session → Bool} {n : Nat}

theorem failingAt_self (ev : Evaluator) (f : Form) (scope : Scope) (s : Session) (e : EvalError) :
    failingAt ev f ⟨scope, s⟩ e f scope s = fail e s := if_pos ⟨rfl, rfl, rfl⟩

/-- An action that passes every failure on has asked for the form. -/
theorem asks_of_fails (hfails : ∀ e, (act (failingAt ev f m e) s).1 = .error (.error e)) :
    Asks act ev s f m := by
  by_cases h : (act ev s).1 = .error (.error (.unpairedKey default))
  · refine ⟨.invalidLiteral "" default, hfails _, ?_⟩
    rw [h]
    simp
  · exact ⟨_, hfails _, h⟩

/-- The first of some forms is asked for at once. -/
theorem asks_evalAll (ev : Evaluator) (scope : Scope) (f : Form) (fs : List Form) (s : Session) :
    Asks (evalAll · scope (f :: fs)) ev s f ⟨scope, s⟩ := by
  refine asks_of_fails fun e => ?_
  simp only [evalAll, bind_apply, failingAt_self]
  rfl

/-- The second element of a vector is asked for while the value of the first one waits. -/
theorem asks_vector (site : Site) {f g : Form} {fs es : List Form}
    {v : Value} (hes : Form.significant es = f :: g :: fs) (hne : f ≠ g)
    (hf : ev f scope s = (.ok v, s')) :
    Asks (step · (.vector site es) scope) ev s g ⟨scope, s'.hold v⟩ := by
  refine asks_of_fails fun e => ?_
  have hfirst : failingAt ev g ⟨scope, s'.hold v⟩ e f scope s = (.ok v, s') :=
    (if_neg fun h => hne h.1).trans hf
  simp only [step, evalLeaf, hes, evalAll, bind_apply, holding_apply, hfirst, failingAt_self]
  rfl

/-- Nobody asks for a form at a moment at which a scope is missing: an evaluator that fails there
agrees with one that does not, so that no action can tell them apart. -/
theorem relates_of_asks (hev : EvaluatorsAgree ev ev)
    (hact : ∀ ev', EvaluatorsAgree ev ev' → Agrees Q s s (act ev s) (act ev' s))
    (hasks : Asks act ev s f m) :
    ∃ ρ : Renaming, ρ.Relates (m.session.enter m.scope) (m.session.enter m.scope) := by
  obtain ⟨e, hfails, hne⟩ := hasks
  by_contra hmissing
  -- Related sessions have all scopes that they need, so that neither is the one in question.
  have hagree : EvaluatorsAgree ev (failingAt ev f m e) := by
    intro g h k s t ρ hr hp
    have hother : ¬(g = f ∧ k = m.scope ∧ t = m.session) := by
      rintro ⟨-, rfl, rfl⟩
      exact hmissing (hr.enter (hr.onScope hp)).right
    have hsame : failingAt ev f m e g k t = ev g k t := if_neg hother
    rw [hsame]
    exact hev g hr hp
  obtain ⟨_, -, -, -, hend⟩ := hact _ hagree
  rw [hfails] at hend
  generalize (act ev s).1 = result at hend hne
  cases hend
  exact hne rfl

/-- The scope that a step leaves the session to move to is there. -/
theorem relates_moveTo {next : Form} {inner : Scope}
    (hr : ρ.Relates (s.enter scope) (s.enter scope))
    (hstep : step (eval due n) f scope (s.enter scope) = (.ok (.tail inner next), s')) :
    ∃ ρ' : Renaming, ρ'.Relates (s'.moveTo inner) (s'.moveTo inner) := by
  have hagrees := agrees_step (evaluatorsAgree_eval due due n) f hr
    (Session.paired_enter s s scope scope)
  rw [hstep] at hagrees
  obtain ⟨ρ', hr', -, -, hend⟩ := hagrees
  cases hend with
  | ok hon =>
    cases hon with
    | tail _ hscope => exact ⟨ρ', hr'.leave.enter hscope⟩

/-- All moments of an evaluation are intact, if the first one is. -/
theorem Visits.intact (hm : Visits due n f scope s m)
    (hs : ∃ ρ : Renaming, ρ.Relates (s.enter scope) (s.enter scope)) :
    m.session.Intact ∧ m.session.active.head? = some m.scope := by
  induction hm with
  | begins =>
    obtain ⟨ρ, hr⟩ := hs
    exact ⟨hr.intact, rfl⟩
  | @part n f g scope inner s s' m hasks _ ih =>
    obtain ⟨ρ, hr⟩ := hs
    exact ih (relates_of_asks (Q := Renaming.OnStep) (evaluatorsAgree_eval due due n)
      (fun ev' hev => agrees_step hev f hr (Session.paired_enter s s scope scope)) hasks)
  | @ends n f scope s =>
    obtain ⟨ρ, hr⟩ := hs
    obtain ⟨ρ', hr', hroots, -, -⟩ := agrees_step (evaluatorsAgree_eval due due n) f hr
      (Session.paired_enter s s scope scope)
    exact ⟨hr'.intact, by rw [hroots.active]; rfl⟩
  | @moves n f next scope inner s s' hstep =>
    obtain ⟨ρ, hr⟩ := hs
    obtain ⟨ρ₁, hr₁⟩ := relates_moveTo hr hstep
    exact ⟨hr₁.intact, rfl⟩
  | @tail n f next scope inner s s' m hstep _ ih =>
    obtain ⟨ρ, hr⟩ := hs
    obtain ⟨ρ₁, hr₁⟩ := relates_moveTo hr hstep
    have htrim := (s'.moveTo inner).trimmed_passSafePoint due
    have hmoved := hr₁.trim htrim htrim
    rw [← Session.enter_leave_passSafePoint] at hmoved
    exact ih hmoved

end Eval

/-! ## Reached sessions -/

namespace Session

/-- The moments of the evaluation of a source text. -/
def Visits (due : Session → Bool) (fuel : Nat) (s : Session) (source : String)
    (m : Eval.Moment) : Prop :=
  ∃ p f scope s', (s.read source).1 = .ok p ∧
    Eval.Asks (Eval.evalAll · s.global (Form.significant p.forms)) (Eval.eval due fuel)
      ((s.read source).2.passSafePoint due) f ⟨scope, s'⟩ ∧
    Eval.Visits due fuel f scope s' m

/-- The sessions that source texts and collections lead to from a new one. An evaluation may
collect whenever it likes, end in any way, and be cut off after any number of steps. -/
inductive Reached (sink : Sink) : Session → Prop
  | new : Reached sink (new sink)
  | evalSource {s : Session} (due : Session → Bool) (fuel : Nat) (source : String) :
      Reached sink s → Reached sink (s.evalSourceWith due fuel source).2
  | collect {s : Session} : Reached sink s → Reached sink s.collect.2

variable {sink : Sink} {s : Session}

theorem Reached.relates (hs : Reached sink s) : ∃ ρ : Renaming, ρ.Relates s s := by
  induction hs with
  | new => exact relates_new sink
  | evalSource due fuel source _ ih =>
    obtain ⟨ρ, hr⟩ := ih
    exact (hr.evalSourceWith due due fuel source).1
  | @collect s _ ih =>
    obtain ⟨ρ, hr⟩ := ih
    exact hr.trim s.trimmed_collect s.trimmed_collect

/-- **No released scope is ever touched.** Source texts and collections leave a session intact, and
it is intact before and after each step of each evaluation on the way, at any depth; the scope in
which the step takes place is the innermost one in use. -/
theorem intact_of_reached (hs : Reached sink s) :
    s.Intact ∧ ∀ due fuel source m, s.Visits due fuel source m →
      m.session.Intact ∧ m.session.active.head? = some m.scope := by
  obtain ⟨ρ, hr⟩ := hs.relates
  refine ⟨hr.intact, ?_⟩
  rintro due fuel source m ⟨p, f, scope, s', -, hasks, hvisits⟩
  have hread : ρ.Relates (s.read source).2 (s.read source).2 := { hr with readings := rfl }
  have htrim := (s.read source).2.trimmed_passSafePoint due
  obtain ⟨ρ₁, hr₁⟩ := hread.trim htrim htrim
  have hglobal : ((s.read source).2.passSafePoint due).global = s.global := htrim.sameRoots.global
  refine hvisits.intact (Eval.relates_of_asks (Q := Renaming.OnValues)
    (Eval.evaluatorsAgree_eval due due fuel) (fun ev' hev => ?_) hasks)
  exact Eval.agrees_evalAll hev _ hr₁ (.inl ⟨hglobal.symm, hglobal.symm⟩)

/-- Where a form on the first line of the first text after the startup text comes from. -/
def siteOnLine (start stop : Nat) : Site := .ofSpan 1 ⟨⟨start, 1, start⟩, ⟨stop, 1, stop⟩⟩

/-- Inside the second element of a vector, in a scope of its own, while the first one waits: a
function that alone keeps the scope that it was made in. -/
theorem intact_of_reached_body :
    ∃ m, (new {}).Visits isCrowded 4 "[(let* (y 1) (fn* () y)) (let* (x 2) x)]" m ∧
      m.session.held.map Value.captured = [[⟨1, 0⟩]] ∧ m.scope = ⟨2, 0⟩ ∧
      m.session.Intact := by
  have hparse : Program.parse "[(let* (y 1) (fn* () y)) (let* (x 2) x)]" 1 =
      .ok ⟨[.vector (siteOnLine 0 40)
        [.list (siteOnLine 1 24) none
          [.symbol (siteOnLine 2 6) "let*",
            .list (siteOnLine 7 12) none
              [.symbol (siteOnLine 8 9) "y", .literal (siteOnLine 10 11) .int "1"],
            .list (siteOnLine 13 23) none
              [.symbol (siteOnLine 14 17) "fn*", .list (siteOnLine 18 20) none [],
                .symbol (siteOnLine 21 22) "y"]],
          .list (siteOnLine 25 39) none
            [.symbol (siteOnLine 26 30) "let*",
              .list (siteOnLine 31 36) none
                [.symbol (siteOnLine 32 33) "x", .literal (siteOnLine 34 35) .int "2"],
              .symbol (siteOnLine 37 38) "x"]]]⟩ := by cbv
  have hreadings : (new {}).readings = 1 := by decide +kernel
  rw [← hreadings] at hparse
  have hvisits : (new {}).Visits isCrowded 4 "[(let* (y 1) (fn* () y)) (let* (x 2) x)]" _ :=
    ⟨_, _, _, _, hparse, Eval.asks_evalAll _ _ _ [] _,
      .part (Eval.asks_vector _ rfl (by simp [siteOnLine, Site.ofSpan]) rfl) (.moves rfl)⟩
  exact ⟨_, hvisits, by decide +kernel, by decide +kernel,
    ((intact_of_reached .new).2 _ _ _ _ hvisits).1⟩

end Session

end Lisp
