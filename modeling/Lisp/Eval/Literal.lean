import Lisp.Decimal.Numeral
import Lisp.Text.Quoted
import Lisp.Value.Basic

/-!
# The values of literals

- `Literal.value?`: what the text of a literal stands for, if it stands for anything.
-/

namespace Lisp

/-- The name of a keyword, which is its text without the colon. -/
def keywordName (raw : String) : String :=
  match raw.toList with
  | ':' :: cs => String.ofList cs
  | _ => raw

/-- The value of a literal. Texts that no reader takes for a number have none. -/
def Literal.value? : Literal → String → Option Value
  | .nil, _ => some .nil
  | .bool, raw => some (.bool (raw == "true"))
  | .int, raw => (Numeral.int? raw.toList).map .int
  | .float, raw => (Numeral.float? raw.toList).map .float
  | .string, raw => some (.string (String.ofList (Quoted.meaning raw.toList)))
  | .keyword, raw => some (.keyword (keywordName raw))

end Lisp
