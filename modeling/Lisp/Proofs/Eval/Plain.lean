import Lisp.Eval.Step

/-!
# Evaluation by plain recursion

What evaluation means, without a loop and without anything that a collection needs: the form in
tail position is evaluated by a recursive call like any other, and no scope or value is kept in use.

- `World`: what evaluation reads and changes.
- `Plain`: actions on the world that may fail, and may never end.
- `Plain.special`, `Plain.call`, `Plain.callNamed`, `Plain.rule`: the rules, for a given evaluator
  of the parts.
- `Plain.eval`: the evaluator that follows the rules (`Plain.eval_eq`). It ends only where the
  rules make it end: where any evaluator that follows them does (`Plain.eval_least`).
-/

namespace Lisp

/-- What evaluation reads and changes: the frames, and what was printed. -/
structure World where
  arena : Arena
  sink : Sink

/-- An action on the world. It may fail, after which the world is as the action left it; `none`
stands for an action that never ends. -/
abbrev Plain := ExceptT EvalError (StateT World Option)

namespace Plain

variable {α : Type}

/-- Stops with an error. -/
def fail (e : EvalError) : Plain α := throw e

/-- One action after the other. -/
theorem bind_apply {β : Type} (x : Plain α) (g : α → Plain β) (w : World) :
    (x >>= g) w = match x w with
      | some (.ok a, w') => g a w'
      | some (.error e, w') => some (.error e, w')
      | none => none := by
  show (x w).bind (fun p => ExceptT.bindCont g p.1 p.2) = _
  rcases x w with _ | ⟨r, w'⟩
  · rfl
  · cases r <;> rfl

/-! ## Variables and built-in functions -/

/-- The value of a name. -/
def lookup (scope : Scope) (name : String) (span : Span) : Plain Value := fun w =>
  match w.arena.find? scope name with
  | some v => some (.ok v, w)
  | none => some (.error (.undefinedSymbol name span), w)

/-- Binds a name in a scope. -/
def assign (scope : Scope) (name : String) (v : Value) : Plain Unit :=
  modify fun w => { w with arena := w.arena.set scope name v }

/-- Makes an empty scope within another. -/
def newScope (outer : Scope) : Plain Scope := fun w =>
  let (scope, arena) := w.arena.create (some outer)
  some (.ok scope, { w with arena })

/-- Makes a scope that binds parameters to arguments. -/
def newFrame (outer : Scope) (params : List String) (args : List Value) : Plain Scope := fun w =>
  let (scope, arena) := w.arena.bind outer params args
  some (.ok scope, { w with arena })

/-- Calls a built-in function. -/
def callBuiltin (b : Builtin) (span : Span) (args : List Value) : Plain Value := fun w =>
  let (r, sink) := b.call span args w.sink
  some (r, { w with sink })

/-! ## Parts of forms -/

/-- What evaluates the parts of a form. -/
abbrev Evaluator := Form → Scope → Plain Value

/-- A form as a name. -/
def expectSymbol (form : SpecialForm) (f : Form) : Plain String :=
  match f.symbol? with
  | some name => pure name
  | none => fail (.specialForm (.notASymbol form f.text) f.span)

/-- The elements of a list or vector that holds names. -/
def expectSequence (form : SpecialForm) : Form → Plain (List Form)
  | .list _ none es => pure (Form.significant es)
  | .vector _ es => pure (Form.significant es)
  | f => fail (.specialForm (.notASequence form) f.span)

/-- An element of a map, with its index: a key at an even index, a value at an odd one. -/
def evalItem (ev : Evaluator) (scope : Scope) (item : Form × Nat) : Plain (Key ⊕ Value) := do
  let v ← ev item.1 scope
  if item.2 % 2 = 1 then return .inr v
  else
    match v.key? with
    | some k => return .inl k
    | none => fail (.typeMismatch "map literal" .key v.typeName item.1.span)

/-- The entries that the elements of a map make up. -/
def entries (span : Span) (items : List (Key ⊕ Value)) : Plain (List (Key × Value)) :=
  let keys := items.filterMap Sum.getLeft?
  let values := items.filterMap Sum.getRight?
  if keys.length = values.length then pure (keys.zip values) else fail (.unpairedKey span)

/-- A key and a value make up the first entry, and the other elements the others. -/
theorem entries_cons (span : Span) (k : Key) (v : Value) (items : List (Key ⊕ Value)) :
    entries span (.inl k :: .inr v :: items) = (do return (k, v) :: (← entries span items)) := by
  simp only [entries, List.filterMap_cons, Sum.getLeft?, Sum.getRight?, List.length_cons,
    Nat.add_right_cancel_iff]
  split <;> rfl

/-- Forms two by two. -/
def inPairs : List Form → List (Form × Form)
  | target :: value :: fs => (target, value) :: inPairs fs
  | _ => []

/-! ## The rules -/

/-- Binds a name to the value of a form. -/
def bindPair (ev : Evaluator) (scope : Scope) (pair : Form × Form) : Plain Unit := do
  let name ← expectSymbol .bindings pair.1
  let v ← ev pair.2 scope
  assign scope name v

/-- The value of the last of some forms, after the others. -/
def sequence (ev : Evaluator) (scope : Scope) (fs : List Form) : Plain Value :=
  match fs.getLast? with
  | some last => do
    fs.dropLast.forM fun f => do
      let _ ← ev f scope
    ev last scope
  | none => pure .nil

theorem sequence_cons_cons (ev : Evaluator) (scope : Scope) (f g : Form) (fs : List Form) :
    sequence ev scope (f :: g :: fs) = (do
      let _ ← ev f scope
      sequence ev scope (g :: fs)) := by
  have hlast : (f :: g :: fs).getLast? = (g :: fs).getLast? := List.getLast?_cons_cons
  unfold sequence
  rw [hlast]
  cases hg : (g :: fs).getLast? with
  | none => simp at hg
  | some last =>
    have hinit : (f :: g :: fs).dropLast = f :: (g :: fs).dropLast := rfl
    rw [hinit]
    show (((ev f scope >>= fun _ => pure ()) >>= fun _ => _) >>= fun _ => _) = _
    rw [bind_assoc, bind_assoc]
    rfl

/-- The value of a special form with the given operands. -/
def special (ev : Evaluator) (form : SpecialForm) (args : List Form) (span : Span)
    (scope : Scope) : Plain Value :=
  match form with
  | .define =>
    match args with
    | [target, value] => do
      let name ← expectSymbol .define target
      let v ← ev value scope
      assign scope name v
      return v
    | _ => fail (.specialForm .defineOperands span)
  | .bindings =>
    match args with
    | [pairs, body] => do
      let fs ← expectSequence .bindings pairs
      if fs.length % 2 ≠ 0 then fail (.specialForm .unpaired pairs.span)
      else
        let inner ← newScope scope
        (inPairs fs).forM (bindPair ev inner)
        ev body inner
    | _ => fail (.specialForm .bindingsOperands span)
  | .sequence => sequence ev scope args
  | .branch =>
    match args with
    | [condition, consequent] => do
      let v ← ev condition scope
      if v.isTruthy then ev consequent scope else pure .nil
    | [condition, consequent, alternate] => do
      let v ← ev condition scope
      if v.isTruthy then ev consequent scope else ev alternate scope
    | _ => fail (.specialForm .branchOperands span)
  | .function =>
    match args with
    | [params, body] => do
      let fs ← expectSequence .function params
      let names ← fs.mapM (expectSymbol .function)
      if Eval.markerInPlace names then return .lambda names body scope
      else fail (.specialForm .misplacedMarker span)
    | _ => fail (.specialForm .functionOperands span)

/-- Calls a function of the program, known by a name, with the values of some forms. -/
def call (ev : Evaluator) (name : String) (params : List String) (body : Form) (captured : Scope)
    (args : List Form) (span : Span) (scope : Scope) : Plain Value := do
  let vs ← args.mapM fun f => ev f scope
  let arity := Arity.ofParams params
  if arity.accepts vs.length then
    let frame ← newFrame captured params vs
    ev body frame
  else fail (.arity name arity vs.length span)

/-- Calls what a name is bound to. A value that is no function is the result. -/
def callNamed (ev : Evaluator) (name : String) (nameSpan : Span) (args : List Form) (span : Span)
    (scope : Scope) : Plain Value := do
  match ← lookup scope name nameSpan with
  | .function b => do
    let vs ← args.mapM fun f => ev f scope
    callBuiltin b span vs
  | .lambda params body captured => call ev name params body captured args span scope
  | v => return v

/-- The value of a form. -/
def rule (ev : Evaluator) (f : Form) (scope : Scope) : Plain Value :=
  match f with
  | .comment _ _ => pure .nil
  | .symbol site name => lookup scope name site.span
  | .literal site kind raw =>
    match kind.value? raw with
    | some v => pure v
    | none => fail (.invalidLiteral raw site.span)
  | .vector _ es => do
    let vs ← (Form.significant es).mapM fun f => ev f scope
    return .vector vs
  | .map site es => do
    let items ← (Form.significant es).zipIdx.mapM (evalItem ev scope)
    let entries ← entries site.span items
    return .map (Entries.ofList entries)
  | .list site (some mark) es =>
    callNamed ev mark.name site.span (Form.significant es) site.span scope
  | .list site none es =>
    match Form.significant es with
    | [] => return .raw f
    | head :: args =>
      match head.symbol? with
      | some name =>
        match SpecialForm.ofName? name with
        | some form => special ev form args site.span scope
        | none => callNamed ev name head.span args site.span scope
      | none => do
        match ← ev head scope with
        | .lambda params body captured =>
          call ev Eval.anonymous params body captured args site.span scope
        | _ => return .raw f

/-! ## The evaluator -/

/-- Evaluation with at most so many evaluations nested in each other. -/
def evalWithin : Nat → Evaluator
  | 0 => fun _ _ _ => none
  | depth + 1 => rule (evalWithin depth)

open Classical in
/-- The value of a form: what an evaluation gives that may nest deeply enough. -/
noncomputable def eval : Evaluator := fun f scope w =>
  if h : ∃ depth, (evalWithin depth f scope w).isSome then evalWithin h.choose f scope w else none

/-- Sooner or later in a row, the actions all end as a given one does, where that one ends. -/
def Reaches (x : Plain α) (y : Nat → Plain α) : Prop :=
  ∀ w o, x w = some o → ∃ n, ∀ m, n ≤ m → y m w = some o

namespace Reaches

variable {β : Type}

theorem refl (x : Plain α) : Reaches x fun _ => x := fun _ _ h => ⟨0, fun _ _ => h⟩

theorem bind {x : Plain α} {y : Nat → Plain α} {g : α → Plain β} {k : Nat → α → Plain β}
    (hx : Reaches x y) (hg : ∀ a, Reaches (g a) fun n => k n a) :
    Reaches (x >>= g) fun n => y n >>= k n := by
  intro w o h
  rw [bind_apply] at h
  cases hxw : x w with
  | none =>
    rw [hxw] at h
    cases h
  | some p =>
    rw [hxw] at h
    obtain ⟨n, hn⟩ := hx w p hxw
    obtain ⟨r, w'⟩ := p
    cases r with
    | error e =>
      refine ⟨n, fun m hm => ?_⟩
      show (y m >>= k m) w = some o
      rw [bind_apply, hn m hm]
      exact h
    | ok a =>
      obtain ⟨n', hn'⟩ := hg a w' o h
      refine ⟨max n n', fun m hm => ?_⟩
      show (y m >>= k m) w = some o
      rw [bind_apply, hn m (by omega)]
      exact hn' m (by omega)

theorem after (x : Plain α) {g : α → Plain β} {k : Nat → α → Plain β}
    (hg : ∀ a, Reaches (g a) fun n => k n a) : Reaches (x >>= g) fun n => x >>= k n :=
  (refl x).bind hg

theorem mapM {ι : Type} {g : ι → Plain α} {k : Nat → ι → Plain α}
    (hg : ∀ i, Reaches (g i) fun n => k n i) (is : List ι) :
    Reaches (is.mapM g) fun n => is.mapM (k n) := by
  induction is with
  | nil => exact refl _
  | cons i is ih =>
    simp only [List.mapM_cons]
    exact (hg i).bind fun a => ih.bind fun as => refl _

theorem forM {ι : Type} {g : ι → Plain Unit} {k : Nat → ι → Plain Unit}
    (hg : ∀ i, Reaches (g i) fun n => k n i) (is : List ι) :
    Reaches (is.forM g) fun n => is.forM (k n) := by
  induction is with
  | nil => exact refl _
  | cons i is ih => exact (hg i).bind fun _ => ih

end Reaches

section rules

variable {ev : Evaluator} {evs : Nat → Evaluator}
  (hev : ∀ f scope, Reaches (ev f scope) fun n => evs n f scope)
include hev

theorem reaches_sequence (scope : Scope) (fs : List Form) :
    Reaches (sequence ev scope fs) fun n => sequence (evs n) scope fs := by
  unfold sequence
  cases fs.getLast? with
  | none => exact .refl _
  | some last =>
    refine .bind (.forM (fun f => ?_) _) fun _ => hev last scope
    exact (hev f scope).bind fun _ => .refl _

theorem reaches_special (form : SpecialForm) (args : List Form) (span : Span) (scope : Scope) :
    Reaches (special ev form args span scope) fun n => special (evs n) form args span scope := by
  cases form with
  | define =>
    rcases args with _ | ⟨target, _ | ⟨value, _ | ⟨_, _⟩⟩⟩
    · exact .refl _
    · exact .refl _
    · exact .after _ fun name => (hev value scope).bind fun _ => .refl _
    · exact .refl _
  | bindings =>
    rcases args with _ | ⟨pairs, _ | ⟨body, _ | ⟨_, _⟩⟩⟩
    · exact .refl _
    · exact .refl _
    · refine .after _ fun fs => ?_
      split
      · exact .refl _
      · refine .after _ fun inner => .bind (.forM (fun pair => ?_) _) fun _ => hev body inner
        exact .after _ fun name => (hev pair.2 inner).bind fun _ => .refl _
    · exact .refl _
  | sequence => exact reaches_sequence hev scope args
  | branch =>
    rcases args with _ | ⟨condition, _ | ⟨consequent, _ | ⟨alternate, _ | ⟨_, _⟩⟩⟩⟩
    · exact .refl _
    · exact .refl _
    · refine (hev condition scope).bind fun v => ?_
      cases v.isTruthy with
      | true => exact hev consequent scope
      | false => exact .refl _
    · refine (hev condition scope).bind fun v => ?_
      cases v.isTruthy with
      | true => exact hev consequent scope
      | false => exact hev alternate scope
    · exact .refl _
  | function => exact .refl _

theorem reaches_call (name : String) (params : List String) (body : Form) (captured : Scope)
    (args : List Form) (span : Span) (scope : Scope) :
    Reaches (call ev name params body captured args span scope)
      fun n => call (evs n) name params body captured args span scope := by
  refine .bind (.mapM (fun f => hev f scope) args) fun vs => ?_
  dsimp only
  split
  · exact .after _ fun frame => hev body frame
  · exact .refl _

theorem reaches_callNamed (name : String) (nameSpan : Span) (args : List Form) (span : Span)
    (scope : Scope) :
    Reaches (callNamed ev name nameSpan args span scope)
      fun n => callNamed (evs n) name nameSpan args span scope := by
  refine .after _ fun v => ?_
  cases v with
  | function b => exact .bind (.mapM (fun f => hev f scope) args) fun _ => .refl _
  | lambda params body captured =>
    exact reaches_call hev name params body captured args span scope
  | _ => exact .refl _

/-- The rules need no more of the parts than some finite depth gives. -/
theorem reaches_rule (f : Form) (scope : Scope) :
    Reaches (rule ev f scope) fun n => rule (evs n) f scope := by
  cases f with
  | comment site text => exact .refl _
  | symbol site name => exact .refl _
  | literal site kind raw => exact .refl _
  | vector site es => exact .bind (.mapM (fun f => hev f scope) _) fun _ => .refl _
  | map site es =>
    refine .bind (.mapM (fun item => ?_) _) fun _ => .refl _
    exact (hev item.1 scope).bind fun _ => .refl _
  | list site shorthand es =>
    unfold rule
    cases shorthand with
    | some mark => exact reaches_callNamed hev mark.name site.span _ site.span scope
    | none =>
      dsimp only
      cases Form.significant es with
      | nil => exact .refl _
      | cons head args =>
        dsimp only
        cases head.symbol? with
        | some name =>
          dsimp only
          cases SpecialForm.ofName? name with
          | some form => exact reaches_special hev form args site.span scope
          | none => exact reaches_callNamed hev name head.span args site.span scope
        | none =>
          refine (hev head scope).bind fun v => ?_
          cases v with
          | lambda params body captured =>
            exact reaches_call hev Eval.anonymous params body captured args site.span scope
          | _ => exact .refl _

end rules

/-- Where some depth is enough, one more is too. -/
theorem evalWithin_succ {depth : Nat} {f : Form} {scope : Scope} {w : World}
    {o : Except EvalError Value × World} (h : evalWithin depth f scope w = some o) :
    evalWithin (depth + 1) f scope w = some o := by
  induction depth generalizing f scope w o with
  | zero => cases h
  | succ depth ih =>
    have hstep : ∀ f scope,
        Reaches (evalWithin depth f scope) fun _ => evalWithin (depth + 1) f scope :=
      fun f scope w o h => ⟨0, fun _ _ => ih h⟩
    obtain ⟨n, hn⟩ := reaches_rule hstep f scope w o h
    exact hn n (Nat.le_refl n)

theorem evalWithin_of_le {n m : Nat} (hle : n ≤ m) {f : Form} {scope : Scope} {w : World}
    {o : Except EvalError Value × World} (h : evalWithin n f scope w = some o) :
    evalWithin m f scope w = some o := by
  induction hle with
  | refl => exact h
  | step _ ih => exact evalWithin_succ ih

/-- An evaluation ends exactly if some depth is enough for it. -/
theorem eval_eq_some_iff {f : Form} {scope : Scope} {w : World}
    {o : Except EvalError Value × World} :
    eval f scope w = some o ↔ ∃ depth, evalWithin depth f scope w = some o := by
  unfold eval
  constructor
  · intro h
    split at h
    · exact ⟨_, h⟩
    · cases h
  · rintro ⟨depth, h⟩
    have hex : ∃ depth, (evalWithin depth f scope w).isSome := ⟨depth, by rw [h]; rfl⟩
    -- Whichever depth was chosen, it gives the same as the one at hand.
    rw [dif_pos hex]
    obtain ⟨o', ho'⟩ := Option.isSome_iff_exists.1 hex.choose_spec
    have hmax := evalWithin_of_le (Nat.le_max_left hex.choose depth) ho'
    rw [evalWithin_of_le (Nat.le_max_right hex.choose depth) h] at hmax
    rw [ho', hmax]

/-- The evaluator follows the rules, with itself for the parts. -/
theorem eval_eq (f : Form) (scope : Scope) : eval f scope = rule eval f scope := by
  funext w
  apply Option.ext
  intro o
  rw [eval_eq_some_iff]
  constructor
  · rintro ⟨_ | depth, h⟩
    · cases h
    · have hbelow : ∀ f scope, Reaches (evalWithin depth f scope) fun _ => eval f scope :=
        fun f scope w o h => ⟨0, fun _ _ => eval_eq_some_iff.2 ⟨depth, h⟩⟩
      obtain ⟨n, hn⟩ := reaches_rule hbelow f scope w o h
      exact hn n (Nat.le_refl n)
  · intro h
    have hlimit : ∀ f scope, Reaches (eval f scope) fun n => evalWithin n f scope := by
      intro f scope w o h
      obtain ⟨depth, h⟩ := eval_eq_some_iff.1 h
      exact ⟨depth, fun m hm => evalWithin_of_le hm h⟩
    -- The rules use finitely many evaluations of parts, and one depth is enough for all of them.
    obtain ⟨n, hn⟩ := reaches_rule hlimit f scope w o h
    exact ⟨n + 1, hn n (Nat.le_refl n)⟩

/-- Every evaluator that follows the rules ends as this one does, where this one ends. -/
theorem eval_least {ev : Evaluator} (hev : ∀ f scope, ev f scope = rule ev f scope) {f : Form}
    {scope : Scope} {w : World} {o : Except EvalError Value × World}
    (h : eval f scope w = some o) : ev f scope w = some o := by
  obtain ⟨depth, h⟩ := eval_eq_some_iff.1 h
  induction depth generalizing f scope w o with
  | zero => cases h
  | succ depth ih =>
    have hbelow : ∀ f scope, Reaches (evalWithin depth f scope) fun _ => ev f scope :=
      fun f scope w o h => ⟨0, fun _ _ => ih (eval_eq_some_iff.2 ⟨depth, h⟩) h⟩
    obtain ⟨n, hn⟩ := reaches_rule hbelow f scope w o h
    rw [hev]
    exact hn n (Nat.le_refl n)

end Plain

end Lisp
