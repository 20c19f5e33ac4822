import Lisp.Proofs.Eval.Equations
import Lisp.Proofs.Form.Definitions
import Lisp.Proofs.Scope.History
import Lisp.Proofs.Value.Hereditary

/-!
# What steps are made of

A step evaluates the parts of a form by an evaluator that it is given. Everything else that it does
concerns frames and output, or keeps scopes and values in use while something is evaluated. The
rules are gone through here, once for all properties of steps.

- `Eval.Local`: an action that concerns frames and output only, and releases no frame.
- `Eval.Region`: a scope, and the names that may be bound in it.
- `Eval.Basic`: the local actions that steps are made of. They bind values with a property, and only
  in the region.
- `Eval.Composed`: an action that is put together from these and from requests to an evaluator, one
  after the other, and within `entering` and `holding`. It asks for forms that define only names of
  the region.
- `composed_step`: every step is composed, and ends as `Eval.Leaves` says. So what all steps do is
  an induction over five cases, and none of the rules has to be looked at again.
-/

namespace Lisp.Eval

variable {α β : Type}

/-! ## Local actions -/

/-- An action that concerns frames and output only. What it does to the frames are operations, and
no collections. -/
structure Local (x : Eval α) : Prop where
  rest : ∀ s : Session, (x s).2 = { s with arena := (x s).2.arena, sink := (x s).2.sink }
  operations : ∀ s : Session, ∃ ops : List Operation, (∀ roots, .collect roots ∉ ops) ∧
    (x s).2.arena = s.arena.applyAll ops

namespace Local

theorem wellFormed {x : Eval α} (hx : Local x) (s : Session) (hw : s.arena.WellFormed) :
    (x s).2.arena.WellFormed := by
  obtain ⟨ops, -, hops⟩ := hx.operations s
  rw [hops]
  exact hw.applyAll ops

/-- An action that does nothing to the frames. -/
theorem of_arena_eq {x : Eval α}
    (hrest : ∀ s, (x s).2 = { s with arena := (x s).2.arena, sink := (x s).2.sink })
    (hx : ∀ s, (x s).2.arena = s.arena) : Local x :=
  ⟨hrest, fun s => ⟨[], fun _ => List.not_mem_nil, hx s⟩⟩

/-- An action that changes nothing. -/
theorem of_unchanged {x : Eval α} (hx : ∀ s, (x s).2 = s) : Local x :=
  of_arena_eq (fun s => by rw [hx s]) fun s => by rw [hx s]

theorem pure (a : α) : Local (Pure.pure a) := of_unchanged fun _ => rfl

theorem fail (e : EvalError) : Local (Eval.fail e : Eval α) := of_unchanged fun _ => rfl

theorem lookup (scope : Scope) (name : String) (span : Span) :
    Local (Eval.lookup scope name span) := of_unchanged (snd_lookup scope name span)

theorem assign (scope : Scope) (name : String) (v : Value) : Local (Eval.assign scope name v) :=
  ⟨fun _ => rfl, fun _ => ⟨[.set scope name v], by simp, rfl⟩⟩

theorem newScope (outer : Scope) : Local (Eval.newScope outer) :=
  ⟨fun _ => rfl, fun _ => ⟨[.create (some outer)], by simp, rfl⟩⟩

theorem newFrame (outer : Scope) (params : List String) (args : List Value) :
    Local (Eval.newFrame outer params args) :=
  ⟨fun _ => rfl, fun _ => ⟨[.bind outer params args], by simp, rfl⟩⟩

theorem callBuiltin (b : Builtin) (span : Span) (args : List Value) :
    Local (Eval.callBuiltin b span args) := by
  refine of_arena_eq (fun s => ?_) (arena_callBuiltin b span args)
  unfold Eval.callBuiltin
  split <;> rfl

end Local

/-! ## Regions -/

/-- A scope, and the names that may be bound in it. -/
structure Region where
  scope : Scope
  names : String → Prop

/-- A scope in which all names may be bound. -/
def Region.whole (scope : Scope) : Region := ⟨scope, fun _ => True⟩

/-- A form defines only names that may be bound. -/
def Region.Allows (r : Region) (f : Form) : Prop := ∀ n, f.Defines n → r.names n

/-- An action that begins in a region ends in it, and its result has a property. -/
def Stays (r : Region) (Q : α → Prop) (r' : Region) (a : α) : Prop := r' = r ∧ Q a

/-- What a step leaves to do in a region: nothing if it gives a value, which has a property, or a
form that is allowed there. -/
def Leaves (P : Value → Prop) (r : Region) : Step → Prop
  | .done v => P v
  | .tail scope f => scope = r.scope ∧ r.Allows f

/-! ## Composed actions -/

/-- The local actions that steps are made of, in a region. Where all bound values have the property
`P`, the region in which such an action ends and its result are related by `Q`. -/
inductive Basic (P : Value → Prop) (r : Region) :
    {α : Type} → (Region → α → Prop) → Eval α → Prop
  | pure {α : Type} {Q : Region → α → Prop} {a : α} : Q r a → Basic P r Q (Pure.pure a)
  | fail {α : Type} {Q : Region → α → Prop} (e : EvalError) : Basic P r Q (Eval.fail e)
  | lookup (scope : Scope) (name : String) (span : Span) :
      Basic P r (Stays r P) (Eval.lookup scope name span)
  | assign {name : String} {v : Value} : r.names name → P v →
      Basic P r (Stays r fun _ => True) (Eval.assign r.scope name v)
  | newScope (outer : Scope) :
      Basic P r (fun r' inner => r' = .whole inner) (Eval.newScope outer)
  | newFrame (outer : Scope) (params : List String) {args : List Value} : (∀ v ∈ args, P v) →
      Basic P r (fun r' inner => r' = .whole inner) (Eval.newFrame outer params args)
  | callBuiltin (b : Builtin) (span : Span) {args : List Value} : (∀ v ∈ args, P v) →
      Basic P r (Stays r P) (Eval.callBuiltin b span args)

/-- An action for which an evaluator of parts is given, and which uses it for nothing but requests.
What follows a first action has to be composed only after results that the first one may have. -/
inductive Composed (P : Value → Prop) :
    {α : Type} → Region → (Region → α → Prop) → (Evaluator → Eval α) → Prop
  | basic {α : Type} {r : Region} {Q : Region → α → Prop} {x : Eval α} : Basic P r Q x →
      Composed P r Q fun _ => x
  | ask {r : Region} {f : Form} : r.Allows f → Composed P r (Stays r P) fun ev => ev f r.scope
  | bind {α β : Type} {r : Region} {Q : Region → α → Prop} {R : Region → β → Prop}
      {x : Evaluator → Eval α} {y : α → Evaluator → Eval β} : Composed P r Q x →
      (∀ r' a, Q r' a → Composed P r' R (y a)) → Composed P r R fun ev => x ev >>= fun a => y a ev
  | entering {α : Type} {r : Region} {Q : Region → α → Prop} (scope : Scope)
      {x : Evaluator → Eval α} : Composed P r Q x → Composed P r Q fun ev => entering scope (x ev)
  | holding {α : Type} {r : Region} {Q : Region → α → Prop} (v : Value) {x : Evaluator → Eval α} :
      Composed P r Q x → Composed P r Q fun ev => holding v (x ev)

variable {P : Value → Prop} {r : Region}

theorem Basic.local {Q : Region → α → Prop} {x : Eval α} (h : Basic P r Q x) : Local x := by
  cases h with
  | pure _ => exact .pure _
  | fail e => exact .fail e
  | lookup scope name span => exact .lookup scope name span
  | assign _ _ => exact .assign r.scope _ _
  | newScope outer => exact .newScope outer
  | newFrame outer params _ => exact .newFrame outer params _
  | callBuiltin b span _ => exact .callBuiltin b span _

namespace Composed

theorem pure {Q : Region → α → Prop} {a : α} (h : Q r a) : Composed P r Q fun _ => Pure.pure a :=
  basic (.pure h)

theorem fail {Q : Region → α → Prop} (e : EvalError) :
    Composed P r Q fun _ => (Eval.fail e : Eval α) := basic (.fail e)

/-- One action after another in the same region. -/
theorem andThen {Q : α → Prop} {R : Region → β → Prop} {x : Evaluator → Eval α}
    {y : α → Evaluator → Eval β} (hx : Composed P r (Stays r Q) x)
    (hy : ∀ a, Q a → Composed P r R (y a)) :
    Composed P r R fun ev => x ev >>= fun a => y a ev := by
  refine bind hx ?_
  rintro _ a ⟨rfl, ha⟩
  exact hy a ha

/-! ## Elements and entries -/

theorem evalAll {fs : List Form} (hfs : ∀ f ∈ fs, r.Allows f) :
    Composed P r (Stays r fun vs => ∀ v ∈ vs, P v) fun ev => evalAll ev r.scope fs := by
  induction fs with
  | nil => exact pure ⟨rfl, fun _ hv => absurd hv List.not_mem_nil⟩
  | cons f fs ih =>
    obtain ⟨hf, hothers⟩ := List.forall_mem_cons.1 hfs
    refine andThen (ask hf) fun v hv => andThen (holding v (ih hothers)) fun vs hvs => ?_
    exact pure ⟨rfl, List.forall_mem_cons.2 ⟨hv, hvs⟩⟩

theorem evalKey {f : Form} (hf : r.Allows f) :
    Composed P r (Stays r fun _ => True) fun ev => evalKey ev r.scope f := by
  refine andThen (ask hf) fun v _ => ?_
  cases v.key? with
  | some key => exact pure ⟨rfl, trivial⟩
  | none => exact fail _

theorem evalEntries (span : Span) :
    ∀ {fs : List Form}, (∀ f ∈ fs, r.Allows f) →
      Composed P r (Stays r fun es => ∀ e ∈ es, P e.2) fun ev => evalEntries ev r.scope span fs
  | [], _ => pure ⟨rfl, fun _ he => absurd he List.not_mem_nil⟩
  | [_], hfs => andThen (evalKey (hfs _ (by simp))) fun _ _ => fail _
  | key :: value :: fs, hfs => by
    have hrest : ∀ f ∈ fs, r.Allows f := fun f hf => hfs f (by simp [hf])
    refine andThen (evalKey (hfs key (by simp))) fun k _ => ?_
    refine andThen (ask (hfs value (by simp))) fun v hv => ?_
    refine andThen (holding v (evalEntries span hrest)) fun es hes => ?_
    exact pure ⟨rfl, List.forall_mem_cons.2 ⟨hv, hes⟩⟩

/-! Where all names may be bound, any elements and entries may be evaluated. -/

theorem evalAll_whole (scope : Scope) (fs : List Form) :
    Composed P (.whole scope) (Stays (.whole scope) fun vs => ∀ v ∈ vs, P v) fun ev =>
      Eval.evalAll ev scope fs :=
  evalAll fun _ _ _ _ => trivial

theorem evalKey_whole (scope : Scope) (f : Form) :
    Composed P (.whole scope) (Stays (.whole scope) fun _ => True) fun ev =>
      Eval.evalKey ev scope f :=
  evalKey fun _ _ => trivial

theorem evalEntries_whole (scope : Scope) (span : Span) (fs : List Form) :
    Composed P (.whole scope) (Stays (.whole scope) fun es => ∀ e ∈ es, P e.2) fun ev =>
      Eval.evalEntries ev scope span fs :=
  evalEntries span fun _ _ _ _ => trivial

/-! ## Names -/

theorem expectSymbol (form : SpecialForm) (f : Form) :
    Composed P r (Stays r fun name => f.symbol? = some name) fun _ => expectSymbol form f := by
  unfold Eval.expectSymbol
  cases f.symbol? with
  | some name => exact pure ⟨rfl, rfl⟩
  | none => exact fail _

theorem expectSymbols (form : SpecialForm) (fs : List Form) :
    Composed P r (Stays r fun _ => True) fun _ => fs.mapM (Eval.expectSymbol form) := by
  induction fs with
  | nil => exact pure ⟨rfl, trivial⟩
  | cons f fs ih =>
    simp only [List.mapM_cons]
    exact andThen (expectSymbol form f) fun _ _ => andThen ih fun _ _ => pure ⟨rfl, trivial⟩

theorem expectSequence (form : SpecialForm) (f : Form) :
    Composed P r (Stays r fun _ => True) fun _ => expectSequence form f := by
  unfold Eval.expectSequence
  split
  · exact pure ⟨rfl, trivial⟩
  · exact pure ⟨rfl, trivial⟩
  · exact fail _

/-- The values of a scope that is being filled may define any names in it. -/
theorem bindPairs (scope : Scope) :
    ∀ fs : List Form, Composed P (.whole scope) (Stays (.whole scope) fun _ => True) fun ev =>
      bindPairs ev scope fs
  | [] => pure ⟨rfl, trivial⟩
  | [_] => pure ⟨rfl, trivial⟩
  | target :: value :: fs => by
    refine andThen (expectSymbol _ target) fun name _ => ?_
    refine andThen (ask fun _ _ => trivial) fun v hv => ?_
    exact andThen (basic (.assign trivial hv)) fun _ _ => bindPairs scope fs

/-! ## Steps -/

variable (hP : Value.Hereditary P)
include hP

theorem evalLeaf {f : Form} (hf : r.Allows f) :
    Composed P r (Stays r P) fun ev => evalLeaf ev r.scope f := by
  cases f with
  | comment site text => exact pure ⟨rfl, hP.atom _ rfl⟩
  | symbol site name => exact basic (.lookup r.scope name site.span)
  | literal site kind raw =>
    unfold Eval.evalLeaf
    dsimp only
    cases hv : kind.value? raw with
    | some v => exact pure ⟨rfl, hP.atom v (Literal.components_of_value? hv)⟩
    | none => exact fail _
  | vector site es =>
    have hes : ∀ g ∈ Form.significant es, r.Allows g := fun g hg n hn =>
      hf n (.of_element rfl hg hn)
    exact andThen (evalAll hes) fun vs hvs => pure ⟨rfl, hP.vector vs hvs⟩
  | map site es =>
    have hes : ∀ g ∈ Form.significant es, r.Allows g := fun g hg n hn =>
      hf n (.of_element rfl hg hn)
    exact andThen (evalEntries site.span hes) fun es hes => pure ⟨rfl, hP.map es hes⟩
  | list site mark es => exact ask hf

theorem stepSequence :
    ∀ {fs : List Form}, (∀ f ∈ fs, r.Allows f) →
      Composed P r (Leaves P) fun ev => stepSequence ev r.scope fs
  | [], _ => pure (hP.atom _ rfl)
  | [f], hfs => pure ⟨rfl, hfs f List.mem_cons_self⟩
  | f :: g :: fs, hfs => by
    refine andThen (ask (hfs f List.mem_cons_self)) fun _ _ => ?_
    exact stepSequence fun h hh => hfs h (List.mem_cons_of_mem _ hh)

/-- A special form binds a name by a definition, and evaluates its operands in the region, unless it
opens a scope. -/
theorem stepSpecial (form : SpecialForm) {args : List Form} (span : Span)
    (hargs : form ≠ .bindings → form ≠ .function → ∀ f ∈ args, r.Allows f)
    (hname : form = .define → ∀ n, (args[0]?).bind Form.symbol? = some n → r.names n) :
    Composed P r (Leaves P) fun ev => stepSpecial ev form args span r.scope := by
  cases form with
  | define =>
    rcases args with _ | ⟨target, _ | ⟨value, _ | ⟨_, _⟩⟩⟩
    · exact fail _
    · exact fail _
    · have hvalue := hargs (by simp) (by simp) value (by simp)
      refine andThen (expectSymbol _ target) fun name hsymbol => ?_
      refine andThen (ask hvalue) fun v hv => ?_
      exact andThen (basic (.assign (hname rfl name hsymbol) hv)) fun _ _ => pure hv
    · exact fail _
  | bindings =>
    -- Everything is evaluated in the new scope, and nothing in the current one.
    rcases args with _ | ⟨pairs, _ | ⟨body, _ | ⟨_, _⟩⟩⟩
    · exact fail _
    · exact fail _
    · refine andThen (expectSequence _ pairs) fun fs _ => ?_
      split
      · exact fail _
      · refine bind (basic (.newScope r.scope)) ?_
        rintro _ inner rfl
        refine andThen (entering inner (bindPairs inner fs)) fun _ _ => ?_
        exact pure ⟨rfl, fun _ _ => trivial⟩
    · exact fail _
  | sequence => exact stepSequence hP (hargs (by simp) (by simp))
  | branch =>
    have hforms := hargs (by simp) (by simp)
    rcases args with _ | ⟨condition, _ | ⟨consequent, _ | ⟨alternate, _ | ⟨_, _⟩⟩⟩⟩
    · exact fail _
    · exact fail _
    · refine andThen (ask (hforms condition (by simp))) fun v _ => ?_
      cases v.isTruthy with
      | true => exact pure ⟨rfl, hforms consequent (by simp)⟩
      | false => exact pure (hP.atom _ rfl)
    · refine andThen (ask (hforms condition (by simp))) fun v _ => ?_
      cases v.isTruthy with
      | true => exact pure ⟨rfl, hforms consequent (by simp)⟩
      | false => exact pure ⟨rfl, hforms alternate (by simp)⟩
    · exact fail _
  | function =>
    rcases args with _ | ⟨params, _ | ⟨body, _ | ⟨_, _⟩⟩⟩
    · exact fail _
    · exact fail _
    · refine andThen (expectSequence _ params) fun fs _ => ?_
      refine andThen (expectSymbols _ fs) fun names _ => ?_
      split
      · exact pure (hP.atom _ rfl)
      · exact fail _
    · exact fail _

omit hP in
theorem applyLambda (name : String) (params : List String) (body : Form) (captured : Scope)
    {args : List Form} (span : Span) (hargs : ∀ f ∈ args, r.Allows f) :
    Composed P r (Leaves P) fun ev =>
      applyLambda ev name params body captured args span r.scope := by
  refine andThen (holding _ (evalAll hargs)) fun vs hvs => ?_
  dsimp only
  split
  · refine bind (basic (.newFrame captured params hvs)) ?_
    rintro _ frame rfl
    exact pure ⟨rfl, fun _ _ => trivial⟩
  · exact fail _

omit hP in
theorem applyNamed (name : String) (nameSpan : Span) {args : List Form} (span : Span)
    (hargs : ∀ f ∈ args, r.Allows f) :
    Composed P r (Leaves P) fun ev => applyNamed ev name nameSpan args span r.scope := by
  refine andThen (basic (.lookup r.scope name nameSpan)) fun v hv => ?_
  cases v with
  | function b =>
    refine andThen (evalAll hargs) fun vs hvs => ?_
    exact andThen (basic (.callBuiltin b span hvs)) fun _ hw => pure hw
  | lambda params body captured => exact applyLambda name params body captured span hargs
  | _ => exact pure hv

/-- What the elements of a plain list define, the list defines, unless it opens a scope. -/
theorem stepList (site : Site) (shorthand : Option Shorthand) (es : List Form)
    (hlist : r.Allows (.list site shorthand es)) :
    Composed P r (Leaves P) fun ev => stepList ev site shorthand es r.scope := by
  unfold Eval.stepList
  cases shorthand with
  | some mark =>
    exact applyNamed mark.name site.span site.span fun g hg n hn =>
      hlist n (.of_element rfl hg hn)
  | none =>
    cases hes : Form.significant es with
    | nil => exact pure (hP.atom _ rfl)
    | cons head args =>
      have hhead : (Form.list site none es).headName? = head.symbol? := by
        simp [Form.headName?, hes]
      have hinside : head.symbol? ≠ some SpecialForm.bindings.name →
          head.symbol? ≠ some SpecialForm.function.name → ∀ g ∈ head :: args, r.Allows g := by
        intro hbindings hfunction g hg n hn
        rw [← hes] at hg
        exact hlist n (.inside (hhead ▸ hbindings) (hhead ▸ hfunction)
          (Form.mem_of_mem_significant hg) hn)
      dsimp only
      cases hsymbol : head.symbol? with
      | some name =>
        rw [hsymbol] at hinside hhead
        dsimp only
        cases hform : SpecialForm.ofName? name with
        | some form =>
          obtain rfl := SpecialForm.ofName?_eq_some_iff.1 hform
          refine stepSpecial hP form site.span (fun hbindings hfunction g hg => ?_) ?_
          · exact hinside (fun h => hbindings (SpecialForm.name_injective (Option.some.inj h)))
              (fun h => hfunction (SpecialForm.name_injective (Option.some.inj h))) g
              (List.mem_cons_of_mem _ hg)
          · rintro rfl n hn
            refine hlist n (.here hhead ?_)
            show ((Form.significant es)[1]?).bind Form.symbol? = some n
            rw [hes]
            simpa using hn
        | none =>
          have hother : ∀ form : SpecialForm, some name ≠ some form.name := by
            rintro form ⟨⟩
            rw [SpecialForm.ofName?_eq_some_iff.2 rfl] at hform
            cases hform
          exact applyNamed name head.span site.span fun g hg =>
            hinside (hother _) (hother _) g (List.mem_cons_of_mem _ hg)
      | none =>
        rw [hsymbol] at hinside
        have hparts := hinside (by simp) (by simp)
        refine andThen (ask (hparts head List.mem_cons_self)) fun v _ => ?_
        cases v with
        | lambda params body captured =>
          exact applyLambda anonymous params body captured site.span fun g hg =>
            hparts g (List.mem_cons_of_mem _ hg)
        | _ => exact pure (hP.atom _ rfl)

end Composed

/-- Every step is composed, in the scope in which it is taken and with the names that its form
defines. -/
theorem composed_step (hP : Value.Hereditary P) (f : Form) (scope : Scope) :
    Composed P ⟨scope, fun n => f.Defines n⟩ (Leaves P) fun ev => step ev f scope := by
  cases f with
  | list site shorthand es => exact .stepList hP site shorthand es fun _ => id
  | _ => exact .andThen (.evalLeaf hP fun _ => id) fun _ hv => .pure hv

end Lisp.Eval
