/-!
# The built-in functions

- `Builtin`: their names, in the order in which a new session binds them.
-/

namespace Lisp

/-- A built-in function. -/
inductive Builtin where
  | add
  | sub
  | mul
  | div
  | less
  | lessOrEqual
  | greater
  | greaterOrEqual
  | equal
  | list
  | isList
  | isEmpty
  | count
  | prn
  | prStr
  | str
  | println
  deriving DecidableEq, Repr

namespace Builtin

/-- The name that a built-in function is bound to. -/
def name : Builtin → String
  | add => "+"
  | sub => "-"
  | mul => "*"
  | div => "/"
  | less => "<"
  | lessOrEqual => "<="
  | greater => ">"
  | greaterOrEqual => ">="
  | equal => "="
  | list => "list"
  | isList => "list?"
  | isEmpty => "empty?"
  | count => "count"
  | prn => "prn"
  | prStr => "pr-str"
  | str => "str"
  | println => "println"

/-- All built-in functions. -/
def all : List Builtin :=
  [add, sub, mul, div, less, lessOrEqual, greater, greaterOrEqual, equal, list, isList, isEmpty,
    count, prn, prStr, str, println]

/-- The built-in function with a given name. -/
def ofName? (n : String) : Option Builtin := all.find? (·.name == n)

end Builtin

end Lisp
