import Lisp.Form.Basic
import Lisp.Text.Quoted

/-!
# The canonical text of a form

- `Form.text`: one space between elements and none inside delimiters; comments inside a form are
  left out, string literals are written anew and a shorthand is written out as a list.
- `Program.text`: one form on a line.
-/

namespace Lisp

/-- The canonical text of a literal. -/
def Literal.canonical : Literal → String → String
  | .string, raw => String.ofList (Quoted.quote (Quoted.meaning raw.toList))
  | _, raw => raw

mutual

/-- The canonical text of a form. -/
def Form.text : Form → String
  | .comment _ text => text
  | .symbol _ name => name
  | .literal _ kind raw => kind.canonical raw
  | .vector _ es => "[" ++ " ".intercalate (Form.texts es) ++ "]"
  | .map _ es => "\x7b" ++ " ".intercalate (Form.texts es) ++ "\x7d"
  | .list _ none es => "(" ++ " ".intercalate (Form.texts es) ++ ")"
  | .list _ (some mark) es => "(" ++ " ".intercalate (mark.name :: Form.texts es) ++ ")"

/-- The canonical texts of the forms of a sequence that count. -/
def Form.texts : List Form → List String
  | [] => []
  | f :: fs => if f.isComment then Form.texts fs else f.text :: Form.texts fs

end

/-- The canonical text of a program. -/
def Program.text (p : Program) : String := "\n".intercalate (Form.texts p.forms)

/-- Comments aside, the texts of a sequence are those of its forms. -/
theorem Form.texts_eq_map (fs : List Form) :
    Form.texts fs = (Form.significant fs).map Form.text := by
  induction fs with
  | nil => simp [Form.texts, Form.significant]
  | cons f fs ih =>
    by_cases h : f.isComment <;> simp_all [Form.texts, Form.significant]

end Lisp
