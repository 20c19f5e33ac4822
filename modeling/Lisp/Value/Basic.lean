import Lisp.Builtin.Basic
import Lisp.Form.Basic
import Lisp.Number

/-!
# Values

What evaluation works on and results in.

- `Scope`: a handle to a frame of variables, which functions carry along.
- `Key`: the values that a map is indexed by, and their order.
- `Value`: the values, with `Entries.insert` to build maps.
- `Value.captured`: the scopes that a value keeps in use.
-/

namespace Lisp

/-- A handle to a frame of variables: a place for frames, and which of the frames that were kept
there one after the other is meant. Places are numbered by naturals where a word of 32 bits would
do: it is assumed throughout that there are fewer than 2^32 places. -/
@[ext] structure Scope where
  index : Nat
  generation : UInt32
  deriving DecidableEq, Repr, Inhabited

/-- What a map is indexed by. -/
inductive Key where
  | string (text : String)
  | keyword (name : String)
  deriving DecidableEq, Repr

namespace Key

/-- Strings come before keywords; within each group the texts decide, character by character. -/
def compare : Key → Key → Ordering
  | string a, string b => Ord.compare a b
  | string _, keyword _ => .lt
  | keyword _, string _ => .gt
  | keyword a, keyword b => Ord.compare a b

end Key

/-- The entries of a map, in the order of their keys. -/
abbrev Entries (α : Type) := List (Key × α)

namespace Entries

variable {α : Type}

/-- Adds an entry, in place of the one with the same key. -/
def insert (k : Key) (v : α) : Entries α → Entries α
  | [] => [(k, v)]
  | (l, w) :: es =>
    match k.compare l with
    | .lt => (k, v) :: (l, w) :: es
    | .eq => (k, v) :: es
    | .gt => (l, w) :: insert k v es

/-- The entries with the given keys; of two entries with one key the later counts. -/
def ofList (es : List (Key × α)) : Entries α :=
  es.foldl (fun acc e => insert e.1 e.2 acc) []

end Entries

/-- A value. -/
inductive Value where
  | nil
  | bool (b : Bool)
  | int (n : Int64)
  | float (x : Float)
  | string (text : String)
  /-- A keyword, without its colon. -/
  | keyword (name : String)
  | list (items : List Value)
  | vector (items : List Value)
  | map (entries : List (Key × Value))
  | function (builtin : Builtin)
  /-- A function of the program: its parameters, its body and the scope it was made in. -/
  | lambda (params : List String) (body : Form) (scope : Scope)
  /-- A form that is its own value. -/
  | raw (form : Form)
  deriving Inhabited

namespace Value

/-- The wording by which messages name the type of a value. -/
def typeName : Value → String
  | nil => "nil"
  | bool _ => "boolean"
  | int _ => "integer"
  | float _ => "float"
  | string _ => "string"
  | keyword _ => "keyword"
  | list _ => "list"
  | vector _ => "vector"
  | map _ => "map"
  | function _ => "function"
  | lambda _ _ _ => "lambda"
  | raw _ => "raw form"

/-- A value as a number. -/
def number? : Value → Option Number
  | int n => some (.int n)
  | float x => some (.float x)
  | _ => none

/-- A number as a value. -/
def ofNumber : Number → Value
  | .int n => int n
  | .float x => float x

/-- A value as a key. -/
def key? : Value → Option Key
  | string s => some (.string s)
  | keyword k => some (.keyword k)
  | _ => none

/-- A key as a value. -/
def ofKey : Key → Value
  | .string s => string s
  | .keyword k => keyword k

/-- Everything counts as true except `nil` and `false`. -/
def isTruthy : Value → Bool
  | nil | bool false => false
  | _ => true

/-- The items of a list or of a vector. -/
def items? : Value → Option (List Value)
  | list vs | vector vs => some vs
  | _ => none

mutual

/-- The scopes of the functions in a value, at any depth of lists, vectors and maps. -/
def captured : Value → List Scope
  | lambda _ _ scope => [scope]
  | list vs => capturedByAll vs
  | vector vs => capturedByAll vs
  | map es => capturedByEntries es
  | _ => []

/-- The scopes of the functions in some values. -/
def capturedByAll : List Value → List Scope
  | [] => []
  | v :: vs => v.captured ++ capturedByAll vs

/-- The scopes of the functions in the values of some entries. -/
def capturedByEntries : List (Key × Value) → List Scope
  | [] => []
  | (_, v) :: es => v.captured ++ capturedByEntries es

end

end Value

end Lisp
