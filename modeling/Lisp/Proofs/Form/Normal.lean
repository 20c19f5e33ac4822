import Lisp.Form.Printer
import Lisp.Proofs.Token.Quoted

/-!
# Normal forms

- `Form.bare`: what a form is apart from where it comes from.
- `Form.normal`: a form without comments in it, with its string literals written anew and its
  shorthands written out as lists.
- `Form.text_bare`, `Form.text_normal`: neither of them changes the canonical text of a form.
-/

namespace Lisp

namespace Form

mutual

/-- A form without its sites. -/
def bare : Form → Form
  | comment _ text => comment default text
  | symbol _ name => symbol default name
  | literal _ kind raw => literal default kind raw
  | vector _ es => vector default (bareAll es)
  | map _ es => map default (bareAll es)
  | list _ mark es => list default mark (bareAll es)

/-- Some forms without their sites. -/
def bareAll : List Form → List Form
  | [] => []
  | f :: fs => f.bare :: bareAll fs

end

mutual

/-- A form with what its canonical text leaves out left out, and what that writes out written out.
Only in a sequence are comments left out. -/
def normal : Form → Form
  | comment s text => comment s text
  | symbol s name => symbol s name
  | literal s .string raw =>
    literal s .string (String.ofList (Quoted.quote (Quoted.meaning raw.toList)))
  | literal s kind raw => literal s kind raw
  | vector s es => vector s (normals es)
  | map s es => map s (normals es)
  | list s none es => list s none (normals es)
  | list s (some mark) es => list s none (symbol s mark.name :: normals es)

/-- The forms of a sequence that are not comments, each in its normal form. -/
def normals : List Form → List Form
  | [] => []
  | f :: fs => if f.isComment then normals fs else f.normal :: normals fs

end

theorem bareAll_eq_map (fs : List Form) : bareAll fs = fs.map bare := by
  induction fs with
  | nil => rfl
  | cons f fs ih => rw [bareAll, ih, List.map_cons]

@[simp] theorem isComment_bare (f : Form) : f.bare.isComment = f.isComment := by
  cases f <;> rfl

@[simp] theorem isComment_normal (f : Form) : f.normal.isComment = f.isComment := by
  fun_cases normal f <;> rfl

/-! ## Canonical texts -/

mutual

/-- The canonical text of a form does not depend on where the form comes from. -/
theorem text_bare : ∀ f : Form, f.bare.text = f.text
  | comment _ _ | symbol _ _ | literal _ _ _ => rfl
  | vector _ es => by rw [bare, text, text, texts_bareAll es]
  | map _ es => by rw [bare, text, text, texts_bareAll es]
  | list _ none es => by rw [bare, text, text, texts_bareAll es]
  | list _ (some mark) es => by rw [bare, text, text, texts_bareAll es]

theorem texts_bareAll : ∀ fs : List Form, texts (bareAll fs) = texts fs
  | [] => rfl
  | f :: fs => by rw [bareAll, texts, texts, isComment_bare, text_bare f, texts_bareAll fs]

end

mutual

/-- The canonical text of a form is that of its normal form. -/
theorem text_normal : ∀ f : Form, f.normal.text = f.text
  | comment _ _ | symbol _ _ => rfl
  | literal _ kind raw => by
    cases kind with
    | string =>
      show String.ofList (Quoted.quote (Quoted.meaning (String.ofList _).toList)) = _
      rw [String.toList_ofList, Quoted.meaning_quote]
      rfl
    | nil | bool | int | float | keyword => rfl
  | vector _ es => by rw [normal, text, text, texts_normals es]
  | map _ es => by rw [normal, text, text, texts_normals es]
  | list _ none es => by rw [normal, text, text, texts_normals es]
  | list s (some mark) es => by
    have hname : texts (symbol s mark.name :: normals es) = mark.name :: texts (normals es) := rfl
    rw [normal, text, text, hname, texts_normals es]

theorem texts_normals : ∀ fs : List Form, texts (normals fs) = texts fs
  | [] => rfl
  | f :: fs => by
    rw [normals, texts]
    split
    · exact texts_normals fs
    next hcomment =>
      have hnormal : f.normal.isComment = false := by simpa using hcomment
      rw [texts, hnormal, text_normal f, texts_normals fs]
      rfl

end

/-- The texts of a sequence do not depend on where its forms come from. -/
theorem texts_eq_of_bare_eq {fs gs : List Form} (h : fs.map bare = gs.map bare) :
    texts fs = texts gs := by
  rw [← texts_bareAll fs, ← texts_bareAll gs, bareAll_eq_map, bareAll_eq_map, h]

end Form

end Lisp
