import Lisp.Token.Basic

/-!
# From text to tokens

A text is cut into tokens by taking, after any skipped characters, the longest text that is a
token.

- `isSkipped`, `isControl`, `isWord`: the character classes that the tokens are made of.
- `Lexeme.scan`: the longest token at the front of a text, and what is left of the text.
  `Lexeme.scan_split` says that nothing is lost and that the token is not empty.
- `Scanner`: the rest of a text and the place where it begins; `Scanner.next` takes one token
  off, `Scanner.peek` only looks at it.
- `tokenize`: all tokens of a text.
-/

namespace Lisp

/-! ## Character classes -/

/-- The characters between tokens. The comma counts as a blank. -/
def isSkipped (c : Char) : Bool :=
  c == ' ' || c == '\t' || c == '\n' || c == '\r' || c == '\x08' || c == '\x0c' || c == ','

/-- The control characters of ASCII. -/
def isControl (c : Char) : Bool := c.val < 0x20 || c == '\x7f'

/-- The characters that are brackets. -/
def isBracket (c : Char) : Bool :=
  c == '(' || c == ')' || c == '[' || c == ']' || c == '\x7b' || c == '\x7d'

/-- The characters that a symbol or a keyword goes on with. -/
def isWord (c : Char) : Bool := !(c == ' ' || c == ',' || isBracket c || isControl c)

/-! ## One token -/

/-- A token at the front of a text: its class, its characters and the text after it. -/
structure Lexeme where
  kind : Token.Kind
  text : List Char
  rest : List Char
  deriving Repr

namespace Lexeme

/-- The tokens of one character. -/
def singles : List (Char × Token.Kind) :=
  [('(', .opening .paren), (')', .closing .paren), ('[', .opening .square),
    (']', .closing .square), ('\x7b', .opening .brace), ('\x7d', .closing .brace),
    ('\x27', .shorthand .quote), ('\x60', .shorthand .quasiquote), ('^', .shorthand .withMeta),
    ('@', .shorthand .deref)]

/-- The token that a character is on its own. -/
def single? (c : Char) : Option Token.Kind := singles.lookup c

/-- A token that goes on as long as its characters are in a class. -/
def run (kind : Token.Kind) (p : Char → Bool) (c : Char) (cs : List Char) : Lexeme :=
  ⟨kind, c :: cs.takeWhile p, cs.dropWhile p⟩

/-- The class of a word: three words are literals. -/
def wordKind (text : List Char) : Token.Kind :=
  if text = ['n', 'i', 'l'] then .literal .nil
  else if text = ['t', 'r', 'u', 'e'] then .literal .bool
  else if text = ['f', 'a', 'l', 's', 'e'] then .literal .bool
  else .symbol

/-- A symbol, or one of the words that are literals. -/
def word (c : Char) (cs : List Char) : Lexeme :=
  ⟨wordKind (c :: cs.takeWhile isWord), c :: cs.takeWhile isWord, cs.dropWhile isWord⟩

/-- A number, given its first character: digits make an integer, and a point after them, with or
without further digits, a float. -/
def number (c : Char) (cs : List Char) : Lexeme :=
  match cs.dropWhile Char.isDigit with
  | '.' :: rest =>
    ⟨.literal .float, c :: (cs.takeWhile Char.isDigit ++ '.' :: rest.takeWhile Char.isDigit),
      rest.dropWhile Char.isDigit⟩
  | rest => ⟨.literal .int, c :: cs.takeWhile Char.isDigit, rest⟩

/-- The rest of a string after its opening quote, and the text after the string. The flag says
whether the next character is escaped. A quote that is not escaped ends the string; so does the
end of the line, which stays in the text. -/
def string (escaped : Bool) : List Char → List Char × List Char
  | [] => ([], [])
  | c :: cs =>
    if c = '\n' then ([], c :: cs)
    else if c = '\x22' ∧ escaped = false then ([c], cs)
    else
      let (text, rest) := string (c == '\\' && !escaped) cs
      (c :: text, rest)

/-- The longest token at the front of a text that begins with a given character. -/
def scan (c : Char) (cs : List Char) : Lexeme :=
  match single? c with
  | some kind => ⟨kind, [c], cs⟩
  | none =>
    if c = '~' then
      match cs with
      | '@' :: rest => ⟨.shorthand .spliceUnquote, ['~', '@'], rest⟩
      | _ => ⟨.shorthand .unquote, [c], cs⟩
    else if c = ';' then run .comment (· != '\n') c cs
    else if c = '\x22' then ⟨.literal .string, c :: (string false cs).1, (string false cs).2⟩
    else if c = ':' then run (.literal .keyword) isWord c cs
    else if c.isDigit || (c = '-' && (cs.head?.any Char.isDigit)) then number c cs
    else if isControl c then ⟨.illegal, [c], cs⟩
    else word c cs

/-- A string and the text after it make up the text that was scanned. -/
theorem string_split (escaped : Bool) (cs : List Char) :
    (string escaped cs).1 ++ (string escaped cs).2 = cs := by
  fun_induction string escaped cs <;> simp_all

/-- A number and the text after it make up the text that was scanned. -/
theorem number_split (c : Char) (cs : List Char) :
    ∃ t, (number c cs).text = c :: t ∧ t ++ (number c cs).rest = cs := by
  unfold number
  split
  next rest h =>
    refine ⟨_, rfl, ?_⟩
    have hcs := List.takeWhile_append_dropWhile (p := Char.isDigit) (l := cs)
    rw [h] at hcs
    simpa using hcs
  next => exact ⟨_, rfl, List.takeWhile_append_dropWhile⟩

/-- The token begins with the first character, and the token and the text after it make up the
text that was scanned. -/
theorem scan_split (c : Char) (cs : List Char) :
    ∃ t, (scan c cs).text = c :: t ∧ t ++ (scan c cs).rest = cs := by
  unfold scan
  split
  · exact ⟨[], rfl, rfl⟩
  split
  · subst_vars
    split
    · exact ⟨['@'], rfl, rfl⟩
    · exact ⟨[], rfl, rfl⟩
  split
  · exact ⟨_, rfl, List.takeWhile_append_dropWhile⟩
  split
  · exact ⟨_, rfl, string_split _ _⟩
  split
  · exact ⟨_, rfl, List.takeWhile_append_dropWhile⟩
  split
  · exact number_split c cs
  split
  · exact ⟨[], rfl, rfl⟩
  · exact ⟨_, rfl, List.takeWhile_append_dropWhile⟩

/-- What is left after a token is shorter than the text before it. -/
theorem length_rest_le (c : Char) (cs : List Char) : (scan c cs).rest.length ≤ cs.length := by
  obtain ⟨t, -, h⟩ := scan_split c cs
  have := congrArg List.length h
  simp at this
  omega

theorem single?_ne_eof (c : Char) : single? c ≠ some .eof := by
  intro h
  obtain ⟨before, after, hs, -⟩ := List.lookup_eq_some_iff.1 h
  have hmem : (c, Token.Kind.eof) ∈ singles := by simp [hs]
  have hall : ∀ p ∈ singles, p.2 ≠ Token.Kind.eof := by decide
  exact hall _ hmem rfl

theorem wordKind_ne_eof (text : List Char) : wordKind text ≠ .eof := by
  grind [wordKind]

/-- No text in the source is the mark of its end. -/
theorem scan_kind_ne_eof (c : Char) (cs : List Char) : (scan c cs).kind ≠ .eof := by
  unfold scan
  split
  next kind h => exact fun hk => single?_ne_eof c (hk ▸ h)
  split
  · split <;> exact nofun
  split
  · exact nofun
  split
  · exact nofun
  split
  · exact nofun
  split
  · unfold number; split <;> exact nofun
  split
  · exact nofun
  · exact wordKind_ne_eof _

end Lexeme

/-! ## The tokens of a text -/

/-- The rest of a text, and the place where it begins. -/
structure Scanner where
  rest : List Char
  position : Position
  deriving Repr

namespace Scanner

/-- The whole of a text. -/
def ofString (source : String) : Scanner := ⟨source.toList, .start⟩

/-- Takes the next token off the text. At the end of the text every call gives the end mark. -/
def next (s : Scanner) : Token × Scanner :=
  let start := s.position.advanceOver (s.rest.takeWhile isSkipped)
  match s.rest.dropWhile isSkipped with
  | [] => (.endMark start, ⟨[], start⟩)
  | c :: cs =>
    let lexeme := Lexeme.scan c cs
    let stop := start.advanceOver lexeme.text
    (⟨lexeme.kind, String.ofList lexeme.text, ⟨start, stop⟩⟩, ⟨lexeme.rest, stop⟩)

/-- The next token, which stays in the text. -/
def peek (s : Scanner) : Token := s.next.1

/-- Taking a token that is not the end mark leaves less to scan. -/
theorem length_next_lt {s : Scanner} (h : s.next.1.kind ≠ .eof) :
    s.next.2.rest.length < s.rest.length := by
  have hdrop := (List.dropWhile_sublist isSkipped (l := s.rest)).length_le
  unfold next at h ⊢
  revert h
  match hr : s.rest.dropWhile isSkipped with
  | [] => simp [Token.endMark]
  | c :: cs =>
    intro _
    have := Lexeme.length_rest_le c cs
    rw [hr] at hdrop
    simp at hdrop ⊢
    omega

/-- The tokens that are left in a text, without the end mark. -/
def tokens (s : Scanner) : List Token :=
  if _ : s.next.1.kind = .eof then []
  else s.next.1 :: s.next.2.tokens
termination_by s.rest.length
decreasing_by exact length_next_lt (by assumption)

end Scanner

/-- The tokens of a text. -/
def tokenize (source : String) : List Token := (Scanner.ofString source).tokens

/-- The place after the last character of a text. -/
def endOf (source : String) : Position := Position.start.advanceOver source.toList

end Lisp
