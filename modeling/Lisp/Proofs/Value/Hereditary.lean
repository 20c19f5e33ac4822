import Lisp.Eval.Literal
import Lisp.Proofs.Value.Likeness

/-!
# Properties that pass from values to those made of them

- `Value.Hereditary`: such a property.
- `Builtin.of_answer`: a built-in function gives a value with it, if its arguments have it.
-/

namespace Lisp

/-- A property that values have if the values of which they are made have it. -/
structure Value.Hereditary (P : Value → Prop) : Prop where
  atom : ∀ v : Value, v.components = [] → P v
  list : ∀ vs, (∀ v ∈ vs, P v) → P (.list vs)
  vector : ∀ vs, (∀ v ∈ vs, P v) → P (.vector vs)
  map : ∀ es, (∀ e ∈ es, P e.2) → P (.map (Entries.ofList es))

/-- To be a value is such a property. -/
theorem Value.Hereditary.trivial : Hereditary fun _ => True :=
  ⟨fun _ _ => True.intro, fun _ _ => True.intro, fun _ _ => True.intro, fun _ _ => True.intro⟩

variable {P : Value → Prop} {v : Value} {vs : List Value} {span : Span}

/-- The value of a literal is made of no others. -/
theorem Literal.components_of_value? {kind : Literal} {raw : String}
    (hv : kind.value? raw = some v) : v.components = [] := by
  cases kind with
  | nil | bool | string | keyword =>
    cases hv
    rfl
  | int | float =>
    obtain ⟨n, -, rfl⟩ := Option.map_eq_some_iff.1 hv
    rfl

/-! ## Built-in functions -/

namespace Builtin

theorem components_of_arithmetic {b : Builtin}
    {op : Number → Number → Except ArithmeticError Number}
    (h : b.arithmetic op span vs = .ok (.value v)) : v.components = [] := by
  unfold arithmetic at h
  cases hn : b.expectNumbers span vs with
  | error e =>
    rw [hn] at h
    cases h
  | ok p =>
    rw [hn] at h
    dsimp only [bind, Except.bind] at h
    cases hr : op p.1 p.2 with
    | ok r =>
      rw [hr] at h
      cases h
      cases r <;> rfl
    | error cause =>
      rw [hr] at h
      cases h

theorem components_of_comparison {b : Builtin} {test : Ordering → Bool}
    (h : b.comparison test span vs = .ok (.value v)) : v.components = [] := by
  unfold comparison at h
  cases hn : b.expectNumbers span vs with
  | error e =>
    rw [hn] at h
    cases h
  | ok p =>
    rw [hn] at h
    cases h
    rfl

theorem components_of_unary {b : Builtin} {g : Value → Value} (hg : ∀ v, (g v).components = [])
    (h : b.unary g span vs = .ok (.value v)) : v.components = [] := by
  match vs with
  | [] | _ :: _ :: _ => cases h
  | [w] =>
    cases h
    exact hg w

/-- A built-in function makes a list of its arguments, or a value that is made of no others. -/
theorem of_answer (hP : Value.Hereditary P) {b : Builtin} (hvs : ∀ v ∈ vs, P v)
    (h : b.answer span vs = .ok (.value v)) : P v := by
  cases b with
  | add | sub | mul | div => exact hP.atom v (components_of_arithmetic h)
  | less | lessOrEqual | greater | greaterOrEqual => exact hP.atom v (components_of_comparison h)
  | equal =>
    match vs with
    | [] | [_] | _ :: _ :: _ :: _ => cases h
    | [_, _] =>
      cases h
      exact hP.atom _ rfl
  | list =>
    cases h
    exact hP.list vs hvs
  | isList | isEmpty | count => exact hP.atom v (components_of_unary (fun _ => rfl) h)
  | prn | println => cases h
  | prStr | str =>
    cases h
    exact hP.atom _ rfl

end Builtin

end Lisp
