import Mathlib.Data.Set.Basic
import Lisp.Eval.SpecialForm
import Lisp.Form.Printer

/-!
# Forms that are treated alike

Evaluation reads of a form what it is, its texts and the elements that count. It does not look at
comments, and of a site it only uses the span, for faults, and the identity. A shorthand is treated
as the list that it stands for, unless it stands where a list of names should.

- `Form.elementwise`: what holds of a form if it holds of its elements, holds of every form.
- `Form.nameOperand?`: the operand of a form that holds names.
- `Form.Alike`: a form like another, with other forms for its elements.
- `Likeness`: a form for each of some forms, which can take its place in an evaluation.
- `Likeness.text_map`: it has the same text.
-/

namespace Lisp

/-- Whether the first operand of a special form holds the names that it binds. -/
def SpecialForm.takesNames : SpecialForm → Bool
  | bindings | function => true
  | define | sequence | branch => false

namespace Form

mutual

/-- What holds of a form if it holds of its elements, holds of every form. -/
theorem elementwise {P : Form → Prop} (h : ∀ f, (∀ g ∈ f.elements, P g) → P f) : ∀ f, P f
  | comment _ _ | symbol _ _ | literal _ _ _ => h _ nofun
  | vector _ es => h _ (elementwiseAll h es)
  | map _ es => h _ (elementwiseAll h es)
  | list _ _ es => h _ (elementwiseAll h es)

theorem elementwiseAll {P : Form → Prop} (h : ∀ f, (∀ g ∈ f.elements, P g) → P f) :
    ∀ fs : List Form, ∀ g ∈ fs, P g
  | [] => nofun
  | f :: fs => List.forall_mem_cons.2 ⟨elementwise h f, elementwiseAll h fs⟩

end

/-- What is made of forms that count, counts if it is made of each without regard to that. -/
theorem significant_map_significant {m : Form → Form} (hm : ∀ f, (m f).isComment = f.isComment)
    (fs : List Form) : significant ((significant fs).map m) = (significant fs).map m := by
  refine List.filter_eq_self.2 fun f hf => ?_
  obtain ⟨g, hg, rfl⟩ := List.mem_map.1 hf
  rw [hm]
  exact (List.mem_filter.1 hg).2

/-- The shorthand that a form is. -/
def shorthand? : Form → Option Shorthand
  | list _ mark _ => mark
  | _ => none

/-- The operand of a special form that holds the names it binds, if there are the two operands that
there should be. -/
def nameOperand? : Form → Option Form
  | list _ none es =>
    match significant es with
    | [head, operand, _] =>
      if (head.symbol?.bind SpecialForm.ofName?).any SpecialForm.takesNames then some operand
      else none
    | _ => none
  | _ => none

theorem nameOperand?_list {s : Site} {es : List Form} {head operand body : Form} {name : String}
    {form : SpecialForm} (hes : significant es = [head, operand, body])
    (hname : head.symbol? = some name) (hform : SpecialForm.ofName? name = some form)
    (htakes : form.takesNames = true) : (list s none es).nameOperand? = some operand := by
  simp [nameOperand?, hes, hname, hform, htakes]

/-- A form of the same kind, with the same texts, and with other forms for the elements that count.
A string literal may be written otherwise, and a shorthand may be written out as the list that is
headed by its name. -/
inductive Alike (m : Form → Form) : Form → Form → Prop
  | comment (s s' : Site) (text : String) : Alike m (.comment s text) (.comment s' text)
  | symbol (s s' : Site) (name : String) : Alike m (.symbol s name) (.symbol s' name)
  | literal (s s' : Site) (kind : Literal) (raw : String) :
      Alike m (.literal s kind raw) (.literal s' kind raw)
  | string (s s' : Site) {raw raw' : String} :
      Quoted.meaning raw'.toList = Quoted.meaning raw.toList →
      Alike m (.literal s .string raw) (.literal s' .string raw')
  | vector (s s' : Site) {es es' : List Form} :
      significant es' = (significant es).map m → Alike m (.vector s es) (.vector s' es')
  | map (s s' : Site) {es es' : List Form} :
      significant es' = (significant es).map m → Alike m (.map s es) (.map s' es')
  | list (s s' : Site) (mark : Option Shorthand) {es es' : List Form} :
      significant es' = (significant es).map m → Alike m (.list s mark es) (.list s' mark es')
  | writtenOut (s s' head : Site) (mark : Shorthand) {es es' : List Form} :
      significant es' = symbol head mark.name :: (significant es).map m →
      Alike m (.list s (some mark) es) (.list s' none es')

variable {m : Form → Form} {f g : Form}

theorem Alike.symbol?_eq (h : Alike m f g) : g.symbol? = f.symbol? := by
  cases h <;> rfl

/-- A form has the same text as another if the elements that count have the same texts. -/
theorem Alike.text_eq (h : Alike m f g)
    (htext : ∀ e ∈ significant f.elements, (m e).text = e.text) : g.text = f.text := by
  have hmap : ∀ es, (∀ e ∈ significant es, (m e).text = e.text) →
      ((significant es).map m).map text = texts es := by
    intro es htext
    rw [texts_eq_map, List.map_map]
    exact List.map_congr_left htext
  have htexts : ∀ {es es' : List Form}, significant es' = (significant es).map m →
      (∀ e ∈ significant es, (m e).text = e.text) → texts es' = texts es := by
    intro es es' hes htext
    rw [texts_eq_map es', hes, hmap es htext]
  cases h with
  | comment | symbol | literal => rfl
  | string _ _ hmeaning => rw [text, text, Literal.canonical, Literal.canonical, hmeaning]
  | vector _ _ hes => rw [text, text, htexts hes htext]
  | map _ _ hes => rw [text, text, htexts hes htext]
  | list _ _ mark hes => cases mark <;> rw [text, text, htexts hes htext]
  | @writtenOut _ _ head mark es es' hes =>
    rw [text, text, texts_eq_map es', hes, List.map_cons, hmap es htext, text]

end Form

/-- A form for each of some forms, which can take its place in an evaluation. -/
structure Likeness where
  /-- The form in the place of another. -/
  map : Form → Form
  /-- The forms that have another in their place. -/
  dom : Set Form
  /-- With a form, the elements that count have others in their place. -/
  elements : ∀ f ∈ dom, ∀ g ∈ Form.significant f.elements, g ∈ dom
  alike : ∀ f ∈ dom, Form.Alike map f (map f)
  /-- Forms that are not the same form do not become the same. -/
  same : ∀ f ∈ dom, ∀ g ∈ dom, (map f).site.same (map g).site = f.site.same g.site
  /-- No shorthand is written out that stands where names should. -/
  names : ∀ f ∈ dom, ∀ g, f.nameOperand? = some g → (map g).shorthand? = g.shorthand?

/-- The form in the place of another has the same text. -/
theorem Likeness.text_map (c : Likeness) {f : Form} (hf : f ∈ c.dom) :
    (c.map f).text = f.text := by
  induction f using Form.elementwise with
  | h f ih =>
    refine (c.alike f hf).text_eq fun e he => ?_
    exact ih e (List.mem_filter.1 he).1 (c.elements f hf e he)

end Lisp
