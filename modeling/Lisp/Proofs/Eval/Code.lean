import Mathlib
import Lisp.Proofs.Eval.Defences
import Lisp.Proofs.Eval.Equations
import Lisp.Proofs.Scope.Likeness

/-!
# Evaluation of code that was read

What is evaluated is a form of some text, or the body of a function that a session has from the
beginning. This is an invariant of sessions: it says something of every function in every value that
is bound.

- `Code`: the forms that are evaluated. Comments are none of them, and literals have values.
- `Code.Function`: a function whose body is one of these forms, or the startup function.
- `Code.Knows`, `Code.Holds`: values and frames that have only such functions.
- `Code.Sound`: an action that keeps to this. It comes out the same whatever answers there are for
  cases that should not arise, and blames only forms of the code.
- `sound_step`, `sound_eval`: the rules, and whole evaluations.
-/

namespace Lisp

/-! ## The startup function -/

/-- Where a form of the startup text comes from. -/
def startupSite (start stop : Nat) : Site := .ofSpan 0 ⟨⟨start, 1, start⟩, ⟨stop, 1, stop⟩⟩

/-- The body of the function that the startup text defines, `(if a false true)`. -/
def startupBody : Form :=
  .list (startupSite 19 36) none
    [.symbol (startupSite 20 22) "if", .symbol (startupSite 23 24) "a",
      .literal (startupSite 25 30) .bool "false", .literal (startupSite 31 35) .bool "true"]

/-- The parameters of this function. -/
def startupParams : List String := ["a"]

/-- The definition of this function. -/
def startupForm : Form :=
  .list (startupSite 0 38) none
    [.symbol (startupSite 1 5) "def!", .symbol (startupSite 6 9) "not",
      .list (startupSite 10 37) none
        [.symbol (startupSite 11 14) "fn*",
          .list (startupSite 15 18) none [.symbol (startupSite 16 17) "a"], startupBody]]

theorem parse_startupSource : Program.parse startupSource 0 = .ok ⟨[startupForm]⟩ := by cbv

/-! ## Code -/

/-- A fault that blames a span, and is not that of a literal without a value. -/
def EvalError.RaisedAt (span : Span) (e : EvalError) : Prop :=
  e.span = span ∧ ∀ raw s, e ≠ .invalidLiteral raw s

/-- Forms that are evaluated. -/
structure Code where
  forms : Set Form
  /-- With a form, the elements that count are evaluated. -/
  elements : ∀ f ∈ forms, ∀ g ∈ Form.significant f.elements, g ∈ forms
  isComment : ∀ f ∈ forms, f.isComment = false
  literal : ∀ site kind raw, .literal site kind raw ∈ forms → (kind.value? raw).isSome = true

namespace Code

variable {c c' : Code} {s : Session} {v w : Value} {vs : List Value} {span : Span}

/-- A function of some code, or the startup function. -/
structure Function (c : Code) (params : List String) (body : Form) : Prop where
  marker : Eval.markerInPlace params = true
  body : body ∈ c.forms ∨ params = startupParams ∧ body = startupBody

/-- A value has only functions of some code. -/
def Knows (c : Code) (v : Value) : Prop :=
  ∀ params body scope, Value.PartOf (.lambda params body scope) v → c.Function params body

/-- All values that are bound have only functions of some code. -/
structure Holds (c : Code) (a : Arena) : Prop where
  wellFormed : a.WellFormed
  bound : ∀ v ∈ a.bound, c.Knows v

/-- A fault that blames a form of some code. -/
def Blames (c : Code) (e : EvalError) : Prop := ∃ f ∈ c.forms, e.RaisedAt f.span

/-- A form can be evaluated in a scope: it is one of the code, or it is the body of the startup
function, and there is an argument. -/
def Ready (c : Code) (s : Session) (scope : Scope) (f : Form) : Prop :=
  f ∈ c.forms ∨ f = startupBody ∧ ∃ v, s.arena.find? scope "a" = some v

/-- What a step leaves to do can be done. -/
inductive OnStep (c : Code) (s : Session) : Step → Prop
  | done {v : Value} : c.Knows v → OnStep c s (.done v)
  | tail {scope : Scope} {f : Form} : c.Ready s scope f → OnStep c s (.tail scope f)

/-! ## Values -/

theorem Knows.of_components (hitems : ∀ w ∈ v.components, c.Knows w)
    (hself : ∀ params body scope, v = .lambda params body scope → c.Function params body) :
    c.Knows v := by
  intro params body scope h
  generalize hw : Value.lambda params body scope = w at h
  cases h with
  | self => exact hself params body scope hw.symm
  | item hu hpart => exact hitems _ hu params body scope (hw ▸ hpart)

/-- A value that is made of no others and is no function. -/
theorem Knows.of_atom (hitems : v.components = [])
    (hself : ∀ params body scope, v ≠ .lambda params body scope) : c.Knows v :=
  .of_components (by simp [hitems]) fun _ _ _ h => absurd h (hself _ _ _)

theorem Knows.list (hvs : ∀ v ∈ vs, c.Knows v) : c.Knows (.list vs) := .of_components hvs nofun

theorem Knows.vector (hvs : ∀ v ∈ vs, c.Knows v) : c.Knows (.vector vs) := .of_components hvs nofun

theorem Knows.map {es : List (Key × Value)} (hes : ∀ e ∈ es, c.Knows e.2) :
    c.Knows (.map (Entries.ofList es)) := by
  refine .of_components (fun w hw => ?_) nofun
  obtain ⟨e, he, rfl⟩ := List.mem_map.1 hw
  exact hes e (Entries.mem_of_mem_ofList he)

theorem Knows.lambda {params : List String} {body : Form} (h : c.Function params body)
    (scope : Scope) : c.Knows (.lambda params body scope) := by
  refine .of_components nofun fun params' body' scope' heq => ?_
  cases heq
  exact h

theorem Knows.function {params : List String} {body : Form} {scope : Scope}
    (h : c.Knows (.lambda params body scope)) : c.Function params body :=
  h params body scope (.self _)

theorem Knows.mono (h : c.Knows v) (hforms : c.forms ⊆ c'.forms) : c'.Knows v := by
  intro params body scope hpart
  obtain ⟨hmarker, hbody⟩ := h params body scope hpart
  exact ⟨hmarker, hbody.imp (fun hb => hforms hb) id⟩

theorem knows_literal {kind : Literal} {raw : String} (hv : kind.value? raw = some v) :
    c.Knows v := by
  cases kind with
  | nil | bool | string | keyword =>
    cases hv
    exact .of_atom rfl nofun
  | int | float =>
    obtain ⟨n, -, rfl⟩ := Option.map_eq_some_iff.1 hv
    exact .of_atom rfl nofun

/-! ## Frames -/

namespace Holds

variable {a : Arena}

theorem mono (h : c.Holds a) (hforms : c.forms ⊆ c'.forms) : c'.Holds a :=
  ⟨h.wellFormed, fun v hv => (h.bound v hv).mono hforms⟩

theorem create (h : c.Holds a) (outer : Option Scope) : c.Holds (a.create outer).2 :=
  ⟨h.wellFormed.create outer, fun v hv => h.bound v (Arena.bound_create a outer hv)⟩

theorem set (h : c.Holds a) (scope : Scope) (name : String) (hv : c.Knows v) :
    c.Holds (a.set scope name v) :=
  ⟨h.wellFormed.set scope name v, Arena.forall_bound_set h.bound scope name hv⟩

theorem bind (h : c.Holds a) (outer : Scope) (params : List String) (hvs : ∀ v ∈ vs, c.Knows v) :
    c.Holds (a.bind outer params vs).2 := by
  refine ⟨h.wellFormed.bind outer params vs, ?_⟩
  exact Arena.forall_bound_bind h.bound outer params (.of_atom rfl nofun) hvs fun rest hrest =>
    .list fun v hv => hvs v (hrest hv)

theorem collect (h : c.Holds a) (roots : List Scope) : c.Holds (a.collect roots).2 :=
  ⟨h.wellFormed.collect roots, fun v hv => h.bound v (Arena.bound_collect a roots hv)⟩

theorem passSafePoint (h : c.Holds s.arena) (due : Session → Bool) :
    c.Holds (s.passSafePoint due).arena := by
  unfold Session.passSafePoint
  cases due s with
  | true => exact h.collect s.roots
  | false => exact h

end Holds

/-- A form that can be evaluated in a scope can be after a collection, if the scope is in use. -/
theorem Ready.passSafePoint {f : Form} {scope : Scope} (h : c.Ready s scope f)
    (due : Session → Bool) : c.Ready ((s.moveTo scope).passSafePoint due) scope f := by
  refine h.imp id ?_
  rintro ⟨rfl, v, hv⟩
  refine ⟨rfl, v, ?_⟩
  unfold Session.passSafePoint
  cases due (s.moveTo scope) with
  | true =>
    have hroot : scope ∈ (s.moveTo scope).roots := by
      simp [Session.roots, Session.moveTo, Session.enter]
    exact (Arena.find?_collect (.root hroot) "a").trans hv
  | false => exact hv

end Code

end Lisp
