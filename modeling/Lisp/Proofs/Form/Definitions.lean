import Lisp.Eval.SpecialForm
import Lisp.Form.Basic

/-!
# Definitions in a form

- `SpecialForm.ofName?_eq_some_iff`, `SpecialForm.name_injective`: special forms and their names.
- `Form.Defines`: the names that a form may define in the scope in which it is evaluated. What
  stands inside a form that opens a scope of its own does not count.
-/

namespace Lisp

namespace SpecialForm

theorem ofName?_eq_some_iff {n : String} {form : SpecialForm} :
    ofName? n = some form ↔ n = form.name := by
  constructor
  · intro h
    have hname := List.find?_some h
    exact (beq_iff_eq.1 hname).symm
  · rintro rfl
    cases form <;> decide

/-- Special forms differ in their names. -/
theorem name_injective {a b : SpecialForm} (h : a.name = b.name) : a = b := by
  have ha : ofName? b.name = some a := ofName?_eq_some_iff.2 h.symm
  rw [ofName?_eq_some_iff.2 rfl] at ha
  exact (Option.some.inj ha).symm

end SpecialForm

namespace Form

/-- The symbol that heads a plain list. -/
def headName? : Form → Option String
  | list _ none es => (significant es).head?.bind symbol?
  | _ => none

/-- The form has a plain list that defines the name, outside of all plain lists that open a
scope. -/
inductive Defines (name : String) : Form → Prop
  | here {f : Form} : f.headName? = some SpecialForm.define.name →
      ((significant f.elements)[1]?).bind symbol? = some name → Defines name f
  | inside {f g : Form} : f.headName? ≠ some SpecialForm.bindings.name →
      f.headName? ≠ some SpecialForm.function.name → g ∈ f.elements → Defines name g →
      Defines name f

theorem mem_of_mem_significant {f : Form} {fs : List Form} (hf : f ∈ significant fs) : f ∈ fs :=
  (List.mem_filter.1 hf).1

/-- What an element defines, the form defines, if no symbol heads it. -/
theorem Defines.of_element {name : String} {f g : Form} (hf : f.headName? = none)
    (hg : g ∈ significant f.elements) (hdef : g.Defines name) : f.Defines name :=
  .inside (by simp [hf]) (by simp [hf]) (mem_of_mem_significant hg) hdef

end Form

end Lisp
