import Lisp.Eval.Run

/-!
# How actions and evaluations run

- `Eval.bind_apply`, `Eval.entering_apply`, `Eval.holding_apply`: the result of an action and the
  session that it leaves behind.
- `Eval.snd_lookup`, `Eval.arena_callBuiltin`: what looking up a name and calling a built-in
  function leave alone.
- `Eval.eval_succ`: an evaluation takes a step, and then evaluates what the step leaves.
-/

namespace Lisp

/-- A scope that was moved to is the innermost one after a safe point. -/
theorem Session.enter_leave_passSafePoint (s : Session) (scope : Scope) (due : Session → Bool) :
    ((s.moveTo scope).passSafePoint due).leave.enter scope =
      (s.moveTo scope).passSafePoint due := by
  unfold Session.passSafePoint
  cases due (s.moveTo scope) <;> rfl

namespace Eval

variable {α β : Type}

/-- One action after the other. -/
theorem bind_apply (x : Eval α) (g : α → Eval β) (s : Session) :
    (x >>= g) s = match x s with
      | (.ok a, s') => g a s'
      | (.error e, s') => (.error e, s') := by
  show ExceptT.bindCont g (x s).1 (x s).2 = _
  obtain ⟨r, s'⟩ := x s
  cases r <;> rfl

theorem entering_apply (scope : Scope) (act : Eval α) (s : Session) :
    entering scope act s = ((act (s.enter scope)).1, (act (s.enter scope)).2.leave) := rfl

theorem holding_apply (v : Value) (act : Eval α) (s : Session) :
    holding v act s = ((act (s.hold v)).1, (act (s.hold v)).2.letGo) := rfl

theorem snd_lookup (scope : Scope) (name : String) (span : Span) (s : Session) :
    (lookup scope name span s).2 = s := by
  unfold lookup
  split <;> rfl

theorem arena_callBuiltin (b : Builtin) (span : Span) (args : List Value) (s : Session) :
    (callBuiltin b span args s).2.arena = s.arena := by
  unfold callBuiltin
  split <;> rfl

/-- A step of an evaluation, and then the evaluation of the form that it leaves. -/
theorem eval_succ (due : Session → Bool) (n : Nat) (f : Form) (scope : Scope) (s : Session) :
    eval due (n + 1) f scope s = match step (eval due n) f scope (s.enter scope) with
      | (.ok (.done v), s') => (.ok v, s'.leave)
      | (.ok (.tail inner next), s') =>
        eval due n next inner ((s'.moveTo inner).passSafePoint due).leave
      | (.error e, s') => (.error e, s'.leave) := by
  show ((run due (n + 1) f scope (s.enter scope)).1,
    (run due (n + 1) f scope (s.enter scope)).2.leave) = _
  have hnested : (fun f inner => entering inner (run due n f inner)) = eval due n := rfl
  rw [run, bind_apply, hnested]
  generalize step (eval due n) f scope (s.enter scope) = result
  rcases result with ⟨e | v | ⟨inner, next⟩, s'⟩
  · rfl
  · rfl
  · show _ = ((run due n next inner (((s'.moveTo inner).passSafePoint due).leave.enter inner)).1,
      (run due n next inner (((s'.moveTo inner).passSafePoint due).leave.enter inner)).2.leave)
    rw [Session.enter_leave_passSafePoint]
    rfl

end Eval

end Lisp
