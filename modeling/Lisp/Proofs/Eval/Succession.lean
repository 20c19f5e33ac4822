import Lisp.Proofs.Eval.PlainAgreement
import Lisp.Proofs.Session.Composition
import Lisp.Proofs.Session.Conversation

/-!
# One program after another

The forms of two programs can be evaluated at once, or those of the second program after the first
one has ended. At once, the values of the first program wait while the second one is evaluated, and
no safe point comes before it.

- `Eval.evalProgram_append_of_error`: when the first program stops early, the second one does not
  matter.
- `Eval.seen_evalProgram_append`: when it ends, and nothing is collected, both ways come to the
  same.
- `Eval.agrees_evalProgram_append`: up to the names of scopes they come to the same whenever either
  of them collects.
-/

namespace Lisp

theorem Form.significant_append (fs gs : List Form) :
    significant (fs ++ gs) = significant fs ++ significant gs :=
  List.filter_append ..

namespace Eval

variable {due due' : Session → Bool} {n : Nat} {p : Program} {s s' : Session} {scope : Scope}
  {ev : Evaluator} {fs : List Form} {e : Stop} {vs : List Value}

/-! ## Programs that stop early -/

/-- Forms after one that stops the evaluation are not evaluated. -/
theorem evalAll_append_of_error (h : evalAll ev scope fs s = (.error e, s')) (gs : List Form) :
    evalAll ev scope (fs ++ gs) s = (.error e, s') := by
  induction fs generalizing s s' e with
  | nil => cases h
  | cons f fs ih =>
    simp only [List.cons_append, evalAll, bind_apply] at h ⊢
    generalize ev f scope s = first at h ⊢
    obtain ⟨_ | v, s₁⟩ := first
    · exact h
    · simp only [holding_apply] at h ⊢
      cases hrest : evalAll ev scope fs (s₁.hold v) with
      | mk r s₂ =>
        rw [hrest] at h
        cases r with
        | ok vs => cases h
        | error e' =>
          rw [ih hrest]
          exact h

theorem evalProgram_eq (due : Session → Bool) (n : Nat) (p : Program) (s : Session) :
    evalProgram due n p s = evalAll (eval due n) (s.passSafePoint due).global
      (Form.significant p.forms) (s.passSafePoint due) := rfl

/-- A program that stops early does so whatever forms come after it. -/
theorem evalProgram_append_of_error (h : evalProgram due n p s = (.error e, s'))
    (gs : List Form) : evalProgram due n ⟨p.forms ++ gs⟩ s = (.error e, s') := by
  rw [evalProgram_eq] at h ⊢
  rw [Form.significant_append]
  exact evalAll_append_of_error h _

/-! ## Programs that never collect -/

/-- Programs one after the other come to what their forms come to at once: the values that wait do
not matter to a program that never collects. -/
theorem seen_evalProgram_append {s₂ : Session}
    (h : evalProgram (fun _ => false) n p s = (.ok vs, s')) (hworld : s₂.world = s'.world)
    (hglobal : s₂.global = s.global) (q : Program) :
    seen (evalProgram (fun _ => false) n ⟨p.forms ++ q.forms⟩ s) =
      (seen (evalProgram (fun _ => false) n q s₂)).map fun o => (o.1.map (vs ++ ·), o.2) := by
  have hmirrors : ∀ scope fs, Mirrors (fs.mapM fun f => Plain.evalWithin n f scope)
      (evalAll (eval (fun _ => false) n) scope fs) :=
    fun scope fs => mirrors_evalAll (mirrors_eval n) scope fs
  have hsafe : ∀ s : Session, (s.passSafePoint fun _ => false).world = s.world := fun _ => rfl
  have hscope : (s₂.passSafePoint fun _ => false).global =
      (s.passSafePoint fun _ => false).global := hglobal
  rw [evalProgram_eq] at h ⊢
  rw [evalProgram_eq, hscope, Form.significant_append, ← hmirrors, List.mapM_append,
    Plain.bind_apply, hmirrors, h]
  dsimp only [seen]
  rw [Plain.bind_apply, ← hworld, ← hsafe s₂, hmirrors]
  rcases evalAll (eval (fun _ => false) n) _ (Form.significant q.forms) _ with
    ⟨(e | _) | ws, s₃⟩ <;> rfl

/-- How an action ended can be told from what is seen of it. -/
theorem eq_of_seen_eq_some {α : Type} {x : Except Stop α × Session} {r : Except EvalError α}
    {w : World} (h : seen x = some (r, w)) : x.1 = r.mapError .error ∧ x.2.world = w := by
  rcases x with ⟨(e | _) | a, s⟩ <;> cases h <;> exact ⟨rfl, rfl⟩

theorem eq_of_seen_eq_none {α : Type} {x : Except Stop α × Session} (h : seen x = none) :
    x.1 = .error .outOfFuel := by
  rcases x with ⟨(e | _) | a, s⟩
  · cases h
  · rfl
  · cases h

end Eval

/-! ## Programs that collect -/

/-- A related session stays so when its counters and stacks are changed for those of a session with
the same frames and roots. -/
theorem Renaming.Relates.congr_right {ρ : Renaming} {s t u : Session} (h : ρ.Relates s t)
    (hworld : u.world = t.world) (hroots : t.SameRoots u) :
    ρ.Relates { s with readings := u.readings } u := by
  have harena : u.arena = t.arena := congrArg World.arena hworld
  exact { h with
    wellFormed_right := harena ▸ h.wellFormed_right
    frame := harena ▸ h.frame
    global := hroots.global.trans h.global
    active := hroots.active.trans h.active
    held := hroots.held.trans h.held
    sink := (congrArg World.sink hworld).trans h.sink
    readings := rfl
    lost_right := harena ▸ h.lost_right }

namespace Eval

variable {due due' : Session → Bool} {n : Nat} {p : Program} {s s₁ : Session} {ρ : Renaming}
  {vs : List Value}

/-- The same values up to the names of scopes, after some that are the same up to other names. Those
came first, and their scopes may have been released in the meantime. -/
def Continues (vs : List Value) (ρ : Renaming) (ws us : List Value) : Prop :=
  ∃ vs' ws', us = vs' ++ ws' ∧ SameValues vs vs' ∧ ρ.OnValues ws ws'

/-- A run and another one that comes to the same after some values. -/
def EndsAfter (vs : List Value) (x y : Except Stop (List Value) × Session) : Prop :=
  (x.1 = .error .outOfFuel ∧ y.1 = .error .outOfFuel) ∨
    ∃ ρ : Renaming, ρ.Relates { x.2 with readings := y.2.readings } y.2 ∧
      SameEnd (Continues vs ρ) x.1 y.1

/-- Whenever either of them collects, two programs at once come to what the second one comes to
after the first one, with the values of the first one before its own. -/
theorem agrees_evalProgram_append (hr : ρ.Relates s s)
    (h : evalProgram due n p s = (.ok vs, s₁)) (q : Program) (readings : Nat)
    (due' : Session → Bool) :
    EndsAfter vs (evalProgram (fun _ => false) n q { s₁ with readings })
      (evalProgram due' n ⟨p.forms ++ q.forms⟩ s) := by
  have hfirst := agrees_evalProgram due (fun _ => false) n p hr
  rw [h] at hfirst
  cases hplain : evalProgram (fun _ => false) n p s with
  | mk r s₁' =>
    rw [hplain] at hfirst
    obtain ⟨ρ₁, hr₁, -, hroots₁, hend₁⟩ := hfirst
    cases hend₁ with
    | @ok _ vs₁ hvs₁ =>
      have hr₁ : ρ₁.Relates { s₁ with readings } { s₁' with readings } :=
        { hr₁ with readings := rfl }
      have hsecond := agrees_evalProgram (fun _ => false) (fun _ => false) n q hr₁
      have hworld : ({ s₁' with readings } : Session).world = s₁'.world := rfl
      have hseen := seen_evalProgram_append hplain hworld hroots₁.global q
      have hboth := agrees_evalProgram (fun _ => false) due' n ⟨p.forms ++ q.forms⟩ hr
      generalize evalProgram (fun _ => false) n q { s₁ with readings } = x at hsecond ⊢
      generalize evalProgram (fun _ => false) n q { s₁' with readings } = x' at hsecond hseen
      generalize evalProgram (fun _ => false) n ⟨p.forms ++ q.forms⟩ s = y' at hseen hboth
      generalize evalProgram due' n ⟨p.forms ++ q.forms⟩ s = y at hboth ⊢
      obtain ⟨rx, sx⟩ := x
      obtain ⟨rx', sx'⟩ := x'
      obtain ⟨ry', sy'⟩ := y'
      obtain ⟨ry, sy⟩ := y
      obtain ⟨ρ₂, hr₂, -, hroots₂, hend₂⟩ := hsecond
      obtain ⟨ρ₃, hr₃, hroots₃, -, hend₃⟩ := hboth
      -- Nothing was collected on the way, so that the frames are the very same.
      have hrelates : sy'.world = sx'.world →
          (ρ₂.trans ρ₃).Relates { sx with readings := sy.readings } sy := by
        intro hworld
        have hroots : sx'.SameRoots sy' :=
          ⟨hroots₃.global.trans (hroots₁.global.symm.trans hroots₂.global.symm),
            hroots₃.active.trans (hroots₁.active.symm.trans hroots₂.active.symm),
            hroots₃.held.trans (hroots₁.held.symm.trans hroots₂.held.symm)⟩
        have hsame := (hr₂.congr_right hworld hroots).trans hr₃
        rwa [← show sy.readings = sy'.readings from hr₃.readings] at hsame
      cases hend₂ with
      | stop e =>
        cases e with
        | error e =>
          obtain ⟨hry, hworld⟩ := eq_of_seen_eq_some hseen
          cases hry
          cases hend₃
          exact .inr ⟨_, hrelates hworld, .stop _⟩
        | outOfFuel =>
          have hry := eq_of_seen_eq_none hseen
          cases hry
          cases hend₃
          exact .inl ⟨rfl, rfl⟩
      | @ok ws ws₁ hws₁ =>
        -- The values of the first program are compared as they were when it ended.
        obtain ⟨hry, hworld⟩ := eq_of_seen_eq_some hseen
        cases hry
        cases hend₃ with
        | ok hall =>
          obtain ⟨vs', ws', rfl, hvs', hws'⟩ := Renaming.OnValues.of_append hall
          have hvs := hvs₁.trans hvs'
          exact .inr ⟨_, hrelates hworld, .ok ⟨vs', ws', rfl,
            ⟨_, (ρ₁.trans ρ₃).injOn.mono hvs.2, hvs.1⟩, hws₁.trans hws'⟩⟩

end Eval

end Lisp
