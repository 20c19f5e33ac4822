import Lisp.Eval.Basic
import Lisp.Eval.Literal

/-!
# One step of an evaluation

The rules for each kind of form. A rule evaluates the parts of a form by a given evaluator, and
leaves a part in tail position to whoever asked for the step.

- `Step`: a value, or a form that is left to evaluate.
- `evalAll`, `evalEntries`: elements, from left to right, each kept in use until all are done.
- `SpecialForm.step`, `applyLambda`, `applyNamed`: the lists.
- `stepList`, `evalLeaf`: a step for a list, and the value of any other form.
- `step`: a step for any form.
-/

namespace Lisp

/-- What a step leaves to do. -/
inductive Step where
  /-- Nothing: the value is there. -/
  | done (v : Value)
  /-- To evaluate a form in a scope. -/
  | tail (scope : Scope) (form : Form)

/-- What evaluates the parts of a form. -/
abbrev Evaluator := Form → Scope → Eval Value

namespace Eval

/-- The values of forms, from left to right. -/
def evalAll (ev : Evaluator) (scope : Scope) : List Form → Eval (List Value)
  | [] => pure []
  | f :: fs => do
    let v ← ev f scope
    let vs ← holding v (evalAll ev scope fs)
    return v :: vs

/-- The key that a form evaluates to. -/
def evalKey (ev : Evaluator) (scope : Scope) (f : Form) : Eval Key := do
  let v ← ev f scope
  match v.key? with
  | some k => return k
  | none => fail (.typeMismatch "map literal" .key v.typeName f.span)

/-- The entries that alternating keys and values evaluate to, from left to right. A last key
without a value is evaluated before it is refused. -/
def evalEntries (ev : Evaluator) (scope : Scope) (span : Span) :
    List Form → Eval (List (Key × Value))
  | [] => pure []
  | [key] => do
    let _ ← evalKey ev scope key
    fail (.unpairedKey span)
  | key :: value :: fs => do
    let k ← evalKey ev scope key
    let v ← ev value scope
    let es ← holding v (evalEntries ev scope span fs)
    return (k, v) :: es

/-- The value of a form that is no list. -/
def evalLeaf (ev : Evaluator) (scope : Scope) : Form → Eval Value
  | .comment _ _ => pure .nil
  | .symbol site name => lookup scope name site.span
  | .literal site kind raw =>
    match kind.value? raw with
    | some v => pure v
    | none => fail (.invalidLiteral raw site.span)
  | .vector _ es => do return .vector (← evalAll ev scope (Form.significant es))
  | .map site es => do
    return .map (Entries.ofList (← evalEntries ev scope site.span (Form.significant es)))
  | f@(.list _ _ _) => ev f scope

/-! ## Special forms -/

/-- A form as a name. -/
def expectSymbol (form : SpecialForm) (f : Form) : Eval String :=
  match f.symbol? with
  | some name => pure name
  | none => fail (.specialForm (.notASymbol form f.text) f.span)

/-- The elements of a list or vector that holds names. -/
def expectSequence (form : SpecialForm) : Form → Eval (List Form)
  | .list _ none es => pure (Form.significant es)
  | .vector _ es => pure (Form.significant es)
  | f => fail (.specialForm (.notASequence form) f.span)

/-- Binds alternating names and values in a scope. Each value sees the bindings before it. -/
def bindPairs (ev : Evaluator) (scope : Scope) : List Form → Eval Unit
  | target :: value :: fs => do
    let name ← expectSymbol .bindings target
    let v ← ev value scope
    assign scope name v
    bindPairs ev scope fs
  | _ => pure ()

/-- Evaluates forms for their effects, all but the last. -/
def stepSequence (ev : Evaluator) (scope : Scope) : List Form → Eval Step
  | [] => pure (.done .nil)
  | [f] => pure (.tail scope f)
  | f :: fs => do
    let _ ← ev f scope
    stepSequence ev scope fs

/-- Whether the marker of further arguments, if there is one, is followed by exactly one name. -/
def markerInPlace (params : List String) : Bool :=
  !params.contains restMarker || params.idxOf restMarker + 2 == params.length

/-- A step for a special form with the given operands. -/
def stepSpecial (ev : Evaluator) (form : SpecialForm) (args : List Form) (span : Span)
    (scope : Scope) : Eval Step :=
  match form with
  | .define =>
    match args with
    | [target, value] => do
      let name ← expectSymbol .define target
      let v ← ev value scope
      assign scope name v
      return .done v
    | _ => fail (.specialForm .defineOperands span)
  | .bindings =>
    match args with
    | [pairs, body] => do
      let fs ← expectSequence .bindings pairs
      if fs.length % 2 ≠ 0 then fail (.specialForm .unpaired pairs.span)
      else
        let inner ← newScope scope
        -- Evaluating a value may move away from the scope that is being filled.
        entering inner (bindPairs ev inner fs)
        return .tail inner body
    | _ => fail (.specialForm .bindingsOperands span)
  | .sequence => stepSequence ev scope args
  | .branch =>
    match args with
    | [condition, consequent] => do
      let v ← ev condition scope
      return if v.isTruthy then .tail scope consequent else .done .nil
    | [condition, consequent, alternate] => do
      let v ← ev condition scope
      return .tail scope (if v.isTruthy then consequent else alternate)
    | _ => fail (.specialForm .branchOperands span)
  | .function =>
    match args with
    | [params, body] => do
      let fs ← expectSequence .function params
      let names ← fs.mapM (expectSymbol .function)
      if markerInPlace names then return .done (.lambda names body scope)
      else fail (.specialForm .misplacedMarker span)
    | _ => fail (.specialForm .functionOperands span)

/-! ## Applications -/

/-- Applies a function of the program, known by a name, to the values of some forms. -/
def applyLambda (ev : Evaluator) (name : String) (params : List String) (body : Form)
    (captured : Scope) (args : List Form) (span : Span) (scope : Scope) : Eval Step := do
  let vs ← holding (.lambda params body captured) (evalAll ev scope args)
  let arity := Arity.ofParams params
  if arity.accepts vs.length then
    let frame ← newFrame captured params vs
    return .tail frame body
  else fail (.arity name arity vs.length span)

/-- Applies what a name is bound to. A value that is no function is the result, and the arguments
are not evaluated. -/
def applyNamed (ev : Evaluator) (name : String) (nameSpan : Span) (args : List Form) (span : Span)
    (scope : Scope) : Eval Step := do
  match ← lookup scope name nameSpan with
  | .function b => do
    let vs ← evalAll ev scope args
    return .done (← callBuiltin b span vs)
  | .lambda params body captured => applyLambda ev name params body captured args span scope
  | v => return .done v

/-- The name by which messages know a function that was written in place. -/
def anonymous : String := SpecialForm.function.name

/-- A step for a list. A list that is empty, or headed by no function, is its own value. -/
def stepList (ev : Evaluator) (site : Site) (shorthand : Option Shorthand) (elements : List Form)
    (scope : Scope) : Eval Step :=
  match shorthand, Form.significant elements with
  | some mark, args => applyNamed ev mark.name site.span args site.span scope
  | none, [] => return .done (.raw (.list site none elements))
  | none, head :: args =>
    match head.symbol? with
    | some name =>
      match SpecialForm.ofName? name with
      | some form => stepSpecial ev form args site.span scope
      | none => applyNamed ev name head.span args site.span scope
    | none => do
      match ← ev head scope with
      | .lambda params body captured =>
        applyLambda ev anonymous params body captured args site.span scope
      | _ => return .done (.raw (.list site none elements))

/-- A step for a form. Only a list leaves something to do. -/
def step (ev : Evaluator) (f : Form) (scope : Scope) : Eval Step :=
  match f with
  | .list site shorthand elements => stepList ev site shorthand elements scope
  | f => return .done (← evalLeaf ev scope f)

end Eval

end Lisp
