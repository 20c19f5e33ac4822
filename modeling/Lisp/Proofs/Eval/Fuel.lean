import Lisp.Proofs.Eval.Outcomes

/-!
# More steps change nothing

An evaluation that ends before it has taken the steps that it is allowed ends in the same way when
it is allowed more of them.

- `Eval.Approximates`: an action that runs out of steps, or else runs as another does.
- `Composed.approximates`: composed actions, for evaluators of the parts that approximate each
  other.
- `eval_of_le`: an evaluation that ends, ends so with any larger number of steps.
-/

namespace Lisp.Eval

variable {α β : Type}

/-- An action that does what another does, unless it runs out of steps. -/
def Approximates (x y : Eval α) : Prop := ∀ s, (x s).1 = .error .outOfFuel ∨ x s = y s

theorem Approximates.refl (x : Eval α) : Approximates x x := fun _ => .inr rfl

theorem Approximates.trans {x y z : Eval α} (hxy : Approximates x y) (hyz : Approximates y z) :
    Approximates x z := by
  intro s
  rcases hxy s with hout | heq
  · exact .inl hout
  · rw [heq]
    exact hyz s

/-- One action after another. The second ones have to approximate each other after results that the
first one has. -/
theorem Approximates.bind {x y : Eval α} {g k : α → Eval β} (hx : Approximates x y)
    (hg : ∀ s a, (x s).1 = .ok a → Approximates (g a) (k a)) :
    Approximates (x >>= g) (y >>= k) := by
  intro s
  rw [bind_apply, bind_apply]
  have hxs := hx s
  have hgs := hg s
  generalize x s = result at hxs hgs
  obtain ⟨r, s'⟩ := result
  rcases hxs with hout | heq
  · -- Without further steps there is no second action.
    left
    cases hout
    rfl
  · rw [← heq]
    cases r with
    | error e => exact .inr rfl
    | ok a => exact hgs a rfl s'

/-- The same action before, and then actions that approximate each other. -/
theorem Approximates.after (x : Eval α) {g k : α → Eval β} (hg : ∀ a, Approximates (g a) (k a)) :
    Approximates (x >>= g) (x >>= k) :=
  (Approximates.refl x).bind fun _ a _ => hg a

theorem Approximates.entering {x y : Eval α} (hx : Approximates x y) (scope : Scope) :
    Approximates (entering scope x) (entering scope y) := by
  intro s
  rw [entering_apply, entering_apply]
  rcases hx (s.enter scope) with hout | heq
  · exact .inl hout
  · exact .inr (by rw [heq])

theorem Approximates.holding {x y : Eval α} (hx : Approximates x y) (v : Value) :
    Approximates (holding v x) (holding v y) := by
  intro s
  rw [holding_apply, holding_apply]
  rcases hx (s.hold v) with hout | heq
  · exact .inl hout
  · exact .inr (by rw [heq])

/-- A composed action approximates itself with another evaluator, if the evaluator of its parts
approximates that one. -/
theorem Composed.approximates {r : Region} {Q : Region → α → Prop} {act : Evaluator → Eval α}
    (hact : Composed (fun _ => True) r Q act) {ev ev' : Evaluator}
    (hev : ∀ f scope, Approximates (ev f scope) (ev' f scope)) :
    Approximates (act ev) (act ev') := by
  induction hact with
  | basic _ => exact .refl _
  | ask _ => exact hev _ _
  | bind hx _ ihx ihy =>
    refine ihx.bind fun s a ha => ?_
    obtain ⟨r', hresult⟩ := hx.exists_region ha
    exact ihy r' a hresult
  | entering scope _ ih => exact ih.entering scope
  | holding v _ ih => exact ih.holding v

/-! ## Whole evaluations -/

/-- One more step allowed. -/
theorem approximates_run (due : Session → Bool) (n : Nat) (f : Form) (scope : Scope) :
    Approximates (run due n f scope) (run due (n + 1) f scope) := by
  induction n generalizing f scope with
  | zero => exact fun s => .inl rfl
  | succ n ih =>
    -- The nested evaluations have one step more as well.
    have hstep := (composed_step .trivial f scope).approximates fun f inner =>
      (ih f inner).entering inner
    refine hstep.bind fun _ left _ => ?_
    cases left with
    | done v => exact .refl _
    | tail inner next =>
      exact .after (moveTo inner) fun _ => .after (safePoint due) fun _ => ih next inner

theorem approximates_eval (due : Session → Bool) {n m : Nat} (hle : n ≤ m) (f : Form)
    (scope : Scope) : Approximates (eval due n f scope) (eval due m f scope) := by
  induction hle with
  | refl => exact .refl _
  | step _ ih => exact ih.trans ((approximates_run due _ f scope).entering scope)

theorem approximates_evalProgram (due : Session → Bool) {n m : Nat} (hle : n ≤ m) (p : Program) :
    Approximates (evalProgram due n p) (evalProgram due m p) :=
  .after (safePoint due) fun _ => .after get fun s =>
    (Composed.evalAll_whole s.global _).approximates (approximates_eval due hle)

/-- An evaluation that ends, ends so whatever more steps it is allowed. -/
theorem eval_of_le (due : Session → Bool) {n m : Nat} (hle : n ≤ m) {f : Form} {scope : Scope}
    {s : Session} (hends : (eval due n f scope s).1 ≠ .error .outOfFuel) :
    eval due m f scope s = eval due n f scope s :=
  ((approximates_eval due hle f scope s).resolve_left hends).symm

end Lisp.Eval
