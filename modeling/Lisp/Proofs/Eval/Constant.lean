import Mathlib.Data.List.Forall2
import Lisp.Proofs.Eval.Equations

/-!
# Forms that are constants

- `Form.Constant`: a form that evaluates to one value in every scope and every session, and leaves
  the session as it is.
- `Form.constant_literal`, `constant_vector`, `constant_map`: literals are constants, and so are
  vectors and maps of constants.
- `Eval.evalProgram_constant`: a program of constants does no more to a session than to pass
  a safe point.
-/

namespace Lisp

/-- An evaluator finds a value of a form in a scope, and leaves every session as it is. -/
def Evaluator.Finds (ev : Evaluator) (scope : Scope) (f : Form) (v : Value) : Prop :=
  ∀ s : Session, ev f scope s = (.ok v, s)

namespace Eval

variable {ev : Evaluator} {scope : Scope} {fs : List Form} {vs : List Value}

/-- Values that are found one by one are found in a row. -/
theorem evalAll_finds (h : List.Forall₂ (ev.Finds scope) fs vs) (s : Session) :
    evalAll ev scope fs s = (.ok vs, s) := by
  induction h generalizing s with
  | nil => rfl
  | @cons f v fs vs hf hfs ih =>
    rw [evalAll, bind_apply, hf s]
    show (holding v (evalAll ev scope fs) >>= fun vs => pure (v :: vs)) s = _
    rw [bind_apply, holding_apply, ih]
    rfl

theorem evalKey_finds {f : Form} {k : Key} (h : ev.Finds scope f (.ofKey k)) (s : Session) :
    evalKey ev scope f s = (.ok k, s) := by
  rw [evalKey, bind_apply, h s]
  cases k <;> rfl

/-- Keys and values that are found in turn are found as entries. -/
theorem evalEntries_finds (span : Span) {es : List (Key × Value)}
    (h : List.Forall₂ (ev.Finds scope) fs (es.flatMap fun e => [.ofKey e.1, e.2])) (s : Session) :
    evalEntries ev scope span fs s = (.ok es, s) := by
  induction es generalizing fs s with
  | nil =>
    rw [List.flatMap_nil, List.forall₂_nil_right_iff] at h
    rw [h]
    rfl
  | cons e es ih =>
    rw [List.flatMap_cons, List.cons_append, List.singleton_append] at h
    obtain ⟨key, rest, hkey, hrest, rfl⟩ := List.forall₂_cons_right_iff.1 h
    obtain ⟨value, others, hvalue, hothers, rfl⟩ := List.forall₂_cons_right_iff.1 hrest
    rw [evalEntries, bind_apply, evalKey_finds hkey]
    show (ev value scope >>= fun v => do
      let es ← holding v (evalEntries ev scope span others)
      pure ((e.1, v) :: es)) s = _
    rw [bind_apply, hvalue s]
    show (holding e.2 (evalEntries ev scope span others) >>= fun es =>
      pure ((e.1, e.2) :: es)) s = _
    rw [bind_apply, holding_apply, ih hothers]
    rfl

end Eval

namespace Form

/-- A form that evaluates to one value in every scope, given fuel enough, and leaves every session
as it is. -/
def Constant (f : Form) (v : Value) : Prop :=
  ∃ n, ∀ fuel, n ≤ fuel → ∀ due scope, (Eval.eval due fuel).Finds scope f v

variable {s : Site} {es : List Form} {vs : List Value}

/-- For some constants there is fuel that is enough for all of them. -/
theorem exists_fuel (h : List.Forall₂ Constant es vs) :
    ∃ n, ∀ fuel, n ≤ fuel → ∀ due scope, List.Forall₂ ((Eval.eval due fuel).Finds scope) es vs := by
  induction h with
  | nil => exact ⟨0, fun fuel _ due scope => .nil⟩
  | cons hf _ ih =>
    obtain ⟨n, hn⟩ := hf
    obtain ⟨m, hm⟩ := ih
    refine ⟨max n m, fun fuel hfuel due scope => .cons ?_ ?_⟩
    · exact hn fuel (by omega) due scope
    · exact hm fuel (by omega) due scope

/-- A form is a constant if a step finds its value by way of evaluators that find it. -/
theorem constant_of_leaf {f : Form} {v : Value} (hlist : ∀ s mark es, f ≠ .list s mark es) (n : Nat)
    (h : ∀ fuel, n ≤ fuel → ∀ due scope s,
      Eval.evalLeaf (Eval.eval due fuel) scope f s = (.ok v, s)) : f.Constant v := by
  refine ⟨n + 1, fun fuel hfuel due scope s => ?_⟩
  obtain ⟨fuel, rfl⟩ := Nat.exists_eq_add_of_le' (Nat.le_trans (Nat.le_add_left 1 n) hfuel)
  have hstep : Eval.step (Eval.eval due fuel) f scope =
      (do return .done (← Eval.evalLeaf (Eval.eval due fuel) scope f)) := by
    cases f with
    | list s mark es => exact absurd rfl (hlist s mark es)
    | comment | symbol | literal | vector | map => rfl
  rw [Eval.eval_succ, hstep, Eval.bind_apply, h fuel (by omega)]
  rfl

theorem constant_literal {kind : Literal} {raw : String} {v : Value}
    (h : kind.value? raw = some v) : (literal s kind raw).Constant v := by
  refine constant_of_leaf nofun 0 fun fuel _ due scope s => ?_
  simp only [Eval.evalLeaf, h]
  rfl

theorem constant_vector (h : List.Forall₂ Constant (significant es) vs) :
    (vector s es).Constant (.vector vs) := by
  obtain ⟨n, hn⟩ := exists_fuel h
  refine constant_of_leaf nofun n fun fuel hfuel due scope s => ?_
  rw [Eval.evalLeaf, Eval.bind_apply, Eval.evalAll_finds (hn fuel hfuel due scope)]
  rfl

theorem constant_map {entries : List (Key × Value)}
    (h : List.Forall₂ Constant (significant es)
      (entries.flatMap fun e => [.ofKey e.1, e.2])) :
    (map s es).Constant (.map (Entries.ofList entries)) := by
  obtain ⟨n, hn⟩ := exists_fuel h
  refine constant_of_leaf nofun n fun fuel hfuel due scope s => ?_
  rw [Eval.evalLeaf, Eval.bind_apply, Eval.evalEntries_finds _ (hn fuel hfuel due scope)]
  rfl

end Form

/-- A program of constants does no more to a session than to pass a safe point. -/
theorem Eval.evalProgram_constant {p : Program} {vs : List Value}
    (h : List.Forall₂ Form.Constant (Form.significant p.forms) vs) :
    ∃ n, ∀ fuel, n ≤ fuel → ∀ (due : Session → Bool) (s : Session),
      evalProgram due fuel p s = (.ok vs, s.passSafePoint due) := by
  obtain ⟨n, hn⟩ := Form.exists_fuel h
  refine ⟨n, fun fuel hfuel due s => ?_⟩
  exact evalAll_finds (hn fuel hfuel due (s.passSafePoint due).global) (s.passSafePoint due)

end Lisp
