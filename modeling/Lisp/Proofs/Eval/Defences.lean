import Mathlib.Data.List.Basic
import Lisp.Proofs.Eval.Equations
import Lisp.Session.Source

/-!
# Evaluation with other answers where no text leads

An evaluation provides for forms that no reader makes, and for calls that pass no check. Here these
cases get answers of any kind. Whoever shows that all evaluations come out the same, whatever the
answers are, has shown that none of these cases ever arises.

- `Defences`: an answer for each of the cases. `Defences.standard` has the usual answers.
- `Defences.eval`, `Defences.evalSource`: evaluation with given answers. With the usual ones it is
  the usual evaluation (`eval_standard`).
- `Defences.pairUp_eq`: parameters that have their marker in place and arguments that were counted
  never ask for an answer.
-/

namespace Lisp

/-- Answers for the cases that an evaluation provides for although no text leads there. -/
structure Defences where
  /-- A comment is to be evaluated. -/
  comment : Eval Value
  /-- A list is taken for a form of another kind. -/
  list : Evaluator → Scope → Form → Eval Value
  /-- A literal stands for nothing. -/
  literal : String → Span → Eval Value
  /-- A parameter has no argument. -/
  missing : String → Value
  /-- The marker of further arguments is followed by no name, or by several. -/
  marker : List String → List Value → List (String × Value)

namespace Defences

/-- The usual answers. -/
def standard : Defences where
  comment := pure .nil
  list ev scope f := ev f scope
  literal raw span := Eval.fail (.invalidLiteral raw span)
  missing _ := .nil
  marker names args := (names.head?.map fun rest => (rest, Value.list args)).toList

variable (d : Defences)

/-! ## Forms and calls -/

/-- The value of a form that is no list. -/
def evalLeaf (ev : Evaluator) (scope : Scope) : Form → Eval Value
  | .comment _ _ => d.comment
  | .literal site kind raw =>
    match kind.value? raw with
    | some v => pure v
    | none => d.literal raw site.span
  | f@(.list _ _ _) => d.list ev scope f
  | f => Eval.evalLeaf ev scope f

/-- The binding of the name after the marker to all further arguments. -/
def pairRest : List String → List Value → List (String × Value)
  | [rest], args => [(rest, Value.list args)]
  | names, args => d.marker names args

/-- Pairs parameters with arguments. -/
def pairUp : List String → List Value → List (String × Value)
  | [], _ => []
  | p :: ps, args =>
    if p = restMarker then d.pairRest ps args
    else (p, args.headD (d.missing p)) :: pairUp ps args.tail

/-- Makes a frame that binds parameters to arguments. -/
def bind (a : Arena) (outer : Scope) (params : List String) (args : List Value) : Scope × Arena :=
  let (s, a) := a.create (some outer)
  (s, (d.pairUp params args).foldl (fun a p => a.set s p.1 p.2) a)

/-- Makes a scope that binds parameters to arguments. -/
def newFrame (outer : Scope) (params : List String) (args : List Value) : Eval Scope := fun s =>
  let (scope, arena) := d.bind s.arena outer params args
  (.ok scope, { s with arena })

/-- Applies a function of the program, known by a name, to the values of some forms. -/
def applyLambda (ev : Evaluator) (name : String) (params : List String) (body : Form)
    (captured : Scope) (args : List Form) (span : Span) (scope : Scope) : Eval Step := do
  let vs ← Eval.holding (.lambda params body captured) (Eval.evalAll ev scope args)
  let arity := Arity.ofParams params
  if arity.accepts vs.length then
    let frame ← d.newFrame captured params vs
    return .tail frame body
  else Eval.fail (.arity name arity vs.length span)

/-- Applies what a name is bound to. -/
def applyNamed (ev : Evaluator) (name : String) (nameSpan : Span) (args : List Form) (span : Span)
    (scope : Scope) : Eval Step := do
  match ← Eval.lookup scope name nameSpan with
  | .function b => do
    let vs ← Eval.evalAll ev scope args
    return .done (← Eval.callBuiltin b span vs)
  | .lambda params body captured => d.applyLambda ev name params body captured args span scope
  | v => return .done v

/-- A step for a list. -/
def stepList (ev : Evaluator) (site : Site) (shorthand : Option Shorthand) (elements : List Form)
    (scope : Scope) : Eval Step :=
  match shorthand, Form.significant elements with
  | some mark, args => d.applyNamed ev mark.name site.span args site.span scope
  | none, [] => return .done (.raw (.list site none elements))
  | none, head :: args =>
    match head.symbol? with
    | some name =>
      match SpecialForm.ofName? name with
      | some form => Eval.stepSpecial ev form args site.span scope
      | none => d.applyNamed ev name head.span args site.span scope
    | none => do
      match ← ev head scope with
      | .lambda params body captured =>
        d.applyLambda ev Eval.anonymous params body captured args site.span scope
      | _ => return .done (.raw (.list site none elements))

/-- A step for a form. -/
def step (ev : Evaluator) (f : Form) (scope : Scope) : Eval Step :=
  match f with
  | .list site shorthand elements => d.stepList ev site shorthand elements scope
  | f => return .done (← d.evalLeaf ev scope f)

/-! ## Evaluation -/

/-- Evaluates a form in the innermost scope under way. -/
def run (due : Session → Bool) : Nat → Evaluator
  | 0, _, _ => throw .outOfFuel
  | fuel + 1, f, scope => do
    let nested : Evaluator := fun f inner => Eval.entering inner (run due fuel f inner)
    match ← d.step nested f scope with
    | .done v => return v
    | .tail inner next =>
      Eval.moveTo inner
      Eval.safePoint due
      run due fuel next inner

/-- Evaluates a form in a scope. -/
def eval (due : Session → Bool) (fuel : Nat) : Evaluator := fun f scope =>
  Eval.entering scope (d.run due fuel f scope)

/-- The values of the top-level forms of a program. -/
def evalProgram (due : Session → Bool) (fuel : Nat) (p : Program) : Eval (List Value) := do
  Eval.safePoint due
  Eval.evalAll (d.eval due fuel) (← get).global (Form.significant p.forms)

/-- Reads and evaluates a source text, for the value of each form. -/
def evalSource (due : Session → Bool) (fuel : Nat) (s : Session) (source : String) :
    Outcome (List Value) × Session :=
  match s.read source with
  | (.error e, s) => (.failed (.read e), s)
  | (.ok p, s) => s.perform (d.evalProgram due fuel p)

/-- A step of an evaluation, and then the evaluation of the form that it leaves. -/
theorem eval_succ (due : Session → Bool) (n : Nat) (f : Form) (scope : Scope) (s : Session) :
    d.eval due (n + 1) f scope s = match d.step (d.eval due n) f scope (s.enter scope) with
      | (.ok (.done v), s') => (.ok v, s'.leave)
      | (.ok (.tail inner next), s') =>
        d.eval due n next inner ((s'.moveTo inner).passSafePoint due).leave
      | (.error e, s') => (.error e, s'.leave) := by
  have hrun : d.run due (n + 1) f scope = (do
      match ← d.step (d.eval due n) f scope with
      | .done v => return v
      | .tail inner next =>
        Eval.moveTo inner
        Eval.safePoint due
        d.run due n next inner) := rfl
  show ((d.run due (n + 1) f scope (s.enter scope)).1,
    (d.run due (n + 1) f scope (s.enter scope)).2.leave) = _
  rw [hrun, Eval.bind_apply]
  generalize d.step (d.eval due n) f scope (s.enter scope) = result
  rcases result with ⟨e | v | ⟨inner, next⟩, s'⟩
  · rfl
  · rfl
  · show _ = ((d.run due n next inner (((s'.moveTo inner).passSafePoint due).leave.enter inner)).1,
      (d.run due n next inner (((s'.moveTo inner).passSafePoint due).leave.enter inner)).2.leave)
    rw [Session.enter_leave_passSafePoint]
    rfl

/-! ## The usual answers -/

theorem evalLeaf_standard : standard.evalLeaf = Eval.evalLeaf := by
  funext ev scope f
  cases f <;> rfl

theorem pairUp_standard (params : List String) (args : List Value) :
    standard.pairUp params args = Arena.pairUp params args := by
  induction params generalizing args with
  | nil => rfl
  | cons p ps ih =>
    rw [pairUp, Arena.pairUp, ih]
    by_cases hp : p = restMarker
    · rw [if_pos hp, if_pos hp]
      rcases ps with _ | ⟨rest, _ | ⟨other, ps⟩⟩ <;> rfl
    · rw [if_neg hp, if_neg hp]
      rfl

theorem newFrame_standard : standard.newFrame = Eval.newFrame := by
  funext outer params args s
  unfold newFrame Eval.newFrame bind Arena.bind
  rw [pairUp_standard]

theorem step_standard : standard.step = Eval.step := by
  have hlambda : standard.applyLambda = Eval.applyLambda := by
    unfold applyLambda Eval.applyLambda
    rw [newFrame_standard]
  have hnamed : standard.applyNamed = Eval.applyNamed := by
    unfold applyNamed Eval.applyNamed
    rewrite [hlambda]
    rfl
  have hlist : standard.stepList = Eval.stepList := by
    unfold stepList Eval.stepList
    rewrite [hlambda, hnamed]
    rfl
  unfold step Eval.step
  rewrite [hlist, evalLeaf_standard]
  rfl

/-- With the usual answers, evaluation is the usual one. -/
theorem eval_standard (due : Session → Bool) (fuel : Nat) :
    standard.eval due fuel = Eval.eval due fuel := by
  have hrun : ∀ n, standard.run due n = Eval.run due n := by
    intro n
    induction n with
    | zero => rfl
    | succ n ih =>
      funext f scope
      rewrite [run, Eval.run, ih, step_standard]
      rfl
  funext f scope
  rw [eval, Eval.eval, hrun]

theorem evalSource_standard (due : Session → Bool) (fuel : Nat) (s : Session) (source : String) :
    standard.evalSource due fuel s source = s.evalSourceWith due fuel source := by
  have hprogram : standard.evalProgram due fuel = Eval.evalProgram due fuel := by
    unfold evalProgram Eval.evalProgram
    rw [eval_standard]
  rw [evalSource, hprogram]
  rfl

/-! ## Parameters -/

variable {d} {p : String} {ps params : List String} {args : List Value}

theorem markerInPlace_cons (hp : p ≠ restMarker) :
    Eval.markerInPlace (p :: ps) = Eval.markerInPlace ps := by
  have hcontains : (p :: ps).contains restMarker = ps.contains restMarker := by
    rw [List.contains_cons, beq_eq_false_iff_ne.2 hp.symm, Bool.false_or]
  rw [Eval.markerInPlace, Eval.markerInPlace, hcontains, List.idxOf_cons_ne _ hp]
  simp only [List.length_cons]
  congr 1
  rw [Bool.eq_iff_iff, beq_iff_eq, beq_iff_eq]
  omega

/-- A function takes an argument for each parameter before the marker. -/
theorem accepts_cons (hp : p ≠ restMarker) (n : Nat) :
    (Arity.ofParams (p :: ps)).accepts (n + 1) = (Arity.ofParams ps).accepts n ∧
      (Arity.ofParams (p :: ps)).accepts 0 = false := by
  have hmem : restMarker ∈ p :: ps ↔ restMarker ∈ ps := by simp [hp.symm]
  unfold Arity.ofParams
  by_cases hps : restMarker ∈ ps
  · rw [if_pos (hmem.2 hps), if_pos hps, List.idxOf_cons_ne _ hp]
    simp [Arity.accepts]
  · rw [if_neg (mt hmem.1 hps), if_neg hps]
    simp [Arity.accepts]

/-- Parameters with their marker in place and arguments that were counted give the same bindings
whatever the answers are. -/
theorem pairUp_eq (d : Defences) (hmarker : Eval.markerInPlace params = true)
    (hcount : (Arity.ofParams params).accepts args.length = true) :
    d.pairUp params args = Arena.pairUp params args := by
  induction params generalizing args with
  | nil => rfl
  | cons p ps ih =>
    rw [pairUp, Arena.pairUp]
    by_cases hp : p = restMarker
    · -- Exactly one name follows.
      have hlength : ps.length = 1 := by
        subst hp
        simpa [Eval.markerInPlace] using hmarker
      obtain ⟨rest, rfl⟩ := List.length_eq_one_iff.1 hlength
      rw [if_pos hp, if_pos hp]
      rfl
    · rw [if_neg hp, if_neg hp]
      cases args with
      | nil =>
        rw [List.length_nil, (accepts_cons hp 0).2] at hcount
        cases hcount
      | cons v vs =>
        rw [List.length_cons, (accepts_cons hp vs.length).1] at hcount
        rw [markerInPlace_cons hp] at hmarker
        rw [List.tail_cons, ih hmarker hcount]
        rfl

theorem newFrame_eq (d : Defences) (outer : Scope) (hmarker : Eval.markerInPlace params = true)
    (hcount : (Arity.ofParams params).accepts args.length = true) :
    d.newFrame outer params args = Eval.newFrame outer params args := by
  funext s
  unfold newFrame Eval.newFrame bind Arena.bind
  rw [pairUp_eq d hmarker hcount]

end Defences

end Lisp
