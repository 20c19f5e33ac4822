import Lisp.Value.Basic

/-!
# When two values are equal

- `Value.equal`: by content. Integers never equal floats, a list equals a vector with equal items,
  functions equal nothing, not even themselves, and a raw form equals only the very same form.
-/

namespace Lisp.Value

mutual

/-- Whether two values are equal. -/
def equal : Value → Value → Bool
  | nil, nil => true
  | bool a, bool b => a == b
  | int a, int b => a == b
  | float a, float b => a == b
  | string a, string b => a == b
  | keyword a, keyword b => a == b
  | list as, list bs => equalItems as bs
  | list as, vector bs => equalItems as bs
  | vector as, list bs => equalItems as bs
  | vector as, vector bs => equalItems as bs
  | map as, map bs => as.length == bs.length && matchEntries as bs
  | raw f, raw g => f.site.same g.site
  | _, _ => false

/-- Whether two sequences have equal items in order. -/
def equalItems : List Value → List Value → Bool
  | [], [] => true
  | a :: as, b :: bs => equal a b && equalItems as bs
  | _, _ => false

/-- Whether every entry has an equal one among some other entries. -/
def matchEntries : List (Key × Value) → List (Key × Value) → Bool
  | [], _ => true
  | (k, v) :: es, bs =>
    (match bs.lookup k with
    | some w => equal v w
    | none => false) && matchEntries es bs

end

end Lisp.Value
