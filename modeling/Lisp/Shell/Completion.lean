import Lisp.Session.Source

/-!
# Completing a name

- `completions`: the rests of the names that the symbol before the cursor begins.
-/

namespace Lisp

/-- The longest beginning of a text that has at most so many bytes. -/
def takeBytes : Nat → List Char → List Char
  | _, [] => []
  | n, c :: cs => if c.utf8Size ≤ n then c :: takeBytes (n - c.utf8Size) cs else []

/-- What follows one text in another that begins with it. -/
def afterBeginning? : List Char → List Char → Option (List Char)
  | [], cs => some cs
  | _ :: _, [] => none
  | a :: as, c :: cs => if a = c then afterBeginning? as cs else none

/-- The symbol that ends at the cursor. -/
def symbolBefore? (line : String) (cursor : Nat) : Option String :=
  match (tokenize (String.ofList (takeBytes cursor line.toList))).getLast? with
  | some t => if t.kind = .symbol ∧ t.span.stop.offset = cursor then some t.text else none
  | none => none

/-- What can be added to a beginning to give one of some names, in order. -/
def extensions (names : List String) (beginning : String) : List String :=
  let rests := names.filterMap fun name => afterBeginning? beginning.toList name.toList
  Arena.sortNames ((rests.filter (· ≠ [])).map String.ofList)

/-- What can be added at the cursor to complete the symbol before it. -/
def completions (s : Session) (line : String) (cursor : Nat) : List String :=
  match symbolBefore? line cursor with
  | some beginning => extensions s.identifiers beginning
  | none => []

end Lisp
