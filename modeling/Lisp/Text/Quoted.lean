/-!
# String literals

The text between the quotes of a string literal stands for another text, in which a
backslash introduces an escape.

- `escape` and `unescape`: from the text meant to the text written, and back.
- `body`: what stands between the quotes of a literal, whose closing quote may be missing.
- `quote`: the one literal that printing writes for a text.
-/

namespace Lisp.Quoted

/-- The escape that writes a character, which for most characters is the character itself. -/
def escapeChar (c : Char) : List Char :=
  if c = '\\' then ['\\', '\\']
  else if c = '\x22' then ['\\', '\x22']
  else if c = '\n' then ['\\', 'n']
  else if c = '\r' then ['\\', 'r']
  else if c = '\t' then ['\\', 't']
  else [c]

/-- Writes a text so that it can stand between quotes. -/
def escape (cs : List Char) : List Char := cs.flatMap escapeChar

/-- The text meant by a backslash and the character after it. An unknown escape means itself. -/
def unescapeChar (c : Char) : List Char :=
  if c = 'n' then ['\n']
  else if c = 't' then ['\t']
  else if c = 'r' then ['\r']
  else if c = '\\' then ['\\']
  else if c = '\x22' then ['\x22']
  else ['\\', c]

/-- Reads the escapes of a literal's body. A backslash at the very end means itself. -/
def unescape : List Char → List Char
  | [] => []
  | [c] => [c]
  | c :: d :: cs => if c = '\\' then unescapeChar d ++ unescape cs else c :: unescape (d :: cs)

/-- Whether the backslashes that end a text pair up, so that a quote after it is not escaped. -/
def endsUnescaped (cs : List Char) : Bool :=
  (cs.reverse.takeWhile (· == '\\')).length % 2 == 0

/-- Drops the opening quote of a literal. -/
def dropOpening : List Char → List Char
  | [] => []
  | c :: cs => if c = '\x22' then cs else c :: cs

/-- Drops a closing quote, which is a last quote that no backslash escapes. -/
def dropClosing (cs : List Char) : List Char :=
  if cs.getLast? = some '\x22' ∧ endsUnescaped cs.dropLast then cs.dropLast else cs

/-- What stands between the quotes of a literal. A literal cut short by the end of its line
has no closing quote to drop. -/
def body (raw : List Char) : List Char := dropClosing (dropOpening raw)

/-- The text that a literal stands for. -/
def meaning (raw : List Char) : List Char := unescape (body raw)

/-- The literal that stands for a text. -/
def quote (cs : List Char) : List Char := '\x22' :: (escape cs ++ ['\x22'])

/-! ## Escaping and reading back -/

@[simp] theorem escape_nil : escape [] = [] := rfl

@[simp] theorem escape_cons (c : Char) (cs : List Char) :
    escape (c :: cs) = escapeChar c ++ escape cs := rfl

/-- Reading one written character and going on. -/
theorem unescape_escapeChar_append (c : Char) (cs : List Char) :
    unescape (escapeChar c ++ cs) = c :: unescape cs := by
  unfold escapeChar
  split
  · subst_vars; simp [unescape, unescapeChar]
  split
  · subst_vars; simp [unescape, unescapeChar]
  split
  · subst_vars; simp [unescape, unescapeChar]
  split
  · subst_vars; simp [unescape, unescapeChar]
  split
  · subst_vars; simp [unescape, unescapeChar]
  · cases cs <;> simp_all [unescape]

/-- Every text is read back from its written form. -/
@[simp] theorem unescape_escape (cs : List Char) : unescape (escape cs) = cs := by
  induction cs with
  | nil => rfl
  | cons c cs ih => rw [escape_cons, unescape_escapeChar_append, ih]

end Lisp.Quoted
