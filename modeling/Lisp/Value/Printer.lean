import Lisp.Decimal.FloatText
import Lisp.Form.Printer
import Lisp.Value.Basic

/-!
# The text of a value

- `Value.text`: readable text, from which data can be read back, or plain text, in which strings
  stand for themselves at every depth.
-/

namespace Lisp

/-- Whether strings are quoted. -/
inductive Style where
  | readable
  | plain
  deriving DecidableEq, Repr

/-- The text of a string. -/
def Style.string : Style → String → String
  | .readable, s => String.ofList (Quoted.quote s.toList)
  | .plain, s => s

/-- The text of a key. -/
def Key.text (style : Style) : Key → String
  | .string s => style.string s
  | .keyword k => ":" ++ k

namespace Value

mutual

/-- The text of a value. -/
def text (style : Style) : Value → String
  | nil => "nil"
  | bool b => if b then "true" else "false"
  | int n => toString n.toInt
  | float x => floatText x
  | string s => style.string s
  | keyword k => ":" ++ k
  | list vs => "(" ++ " ".intercalate (texts style vs) ++ ")"
  | vector vs => "[" ++ " ".intercalate (texts style vs) ++ "]"
  | map es => "\x7b" ++ " ".intercalate (entryTexts style es) ++ "\x7d"
  | function b => "#<function " ++ b.name ++ ">"
  | lambda _ _ _ => "#<function>"
  | raw f => f.text

/-- The texts of some values. -/
def texts (style : Style) : List Value → List String
  | [] => []
  | v :: vs => v.text style :: texts style vs

/-- The texts of keys and values in turn. -/
def entryTexts (style : Style) : List (Key × Value) → List String
  | [] => []
  | (k, v) :: es => k.text style :: v.text style :: entryTexts style es

end

/-- The texts of some values are those of each. -/
theorem texts_eq_map (style : Style) (vs : List Value) : texts style vs = vs.map (text style) := by
  induction vs with
  | nil => simp [texts]
  | cons v vs ih => simp [texts, ih]

end Value

end Lisp
