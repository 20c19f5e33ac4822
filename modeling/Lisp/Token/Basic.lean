import Lisp.Position

/-!
# Tokens

The words of the language, with the stretch of source text that each one covers.

- `Bracket`, `Shorthand`, `Literal`: what the grammar distinguishes among tokens.
- `Token.Kind`: the classes of tokens, and the wording by which messages name them.
- `Token`: a class, a raw text and a span.
-/

namespace Lisp

/-- The three pairs of delimiters. -/
inductive Bracket where
  | paren
  | square
  | brace
  deriving DecidableEq, Repr

namespace Bracket

/-- The character that opens a bracketed sequence. -/
def opener : Bracket → Char
  | paren => '('
  | square => '['
  | brace => '\x7b'

/-- The character that closes a bracketed sequence. -/
def closer : Bracket → Char
  | paren => ')'
  | square => ']'
  | brace => '\x7d'

end Bracket

/-- The marks that abbreviate a list: such a mark and its operands read as a list headed by the
mark's name. -/
inductive Shorthand where
  | quote
  | quasiquote
  | unquote
  | spliceUnquote
  | deref
  | withMeta
  deriving DecidableEq, Repr

namespace Shorthand

/-- The name that a mark stands for. -/
def name : Shorthand → String
  | quote => "quote"
  | quasiquote => "quasiquote"
  | unquote => "unquote"
  | spliceUnquote => "splice-unquote"
  | deref => "deref"
  | withMeta => "with-meta"

/-- The characters of the mark. -/
def mark : Shorthand → String
  | quote => "'"
  | quasiquote => "`"
  | unquote => "~"
  | spliceUnquote => "~@"
  | deref => "@"
  | withMeta => "^"

/-- All marks. -/
def all : List Shorthand := [quote, quasiquote, unquote, spliceUnquote, deref, withMeta]

/-- The mark with a given name. -/
def ofName? (n : String) : Option Shorthand := all.find? (·.name == n)

end Shorthand

/-- The kinds of literal data. -/
inductive Literal where
  | nil
  | bool
  | int
  | float
  | string
  | keyword
  deriving DecidableEq, Repr

/-- The wording by which messages name a kind of literal. -/
def Literal.text : Literal → String
  | nil => "nil"
  | bool => "boolean"
  | int => "integer"
  | float => "float"
  | string => "string"
  | keyword => "keyword"

namespace Token

/-- The classes of tokens. `illegal` is a character that begins no token, `eof` stands for the
end of the text and is never the class of a text in it. -/
inductive Kind where
  | illegal
  | eof
  | comment
  | literal (kind : Literal)
  | opening (bracket : Bracket)
  | closing (bracket : Bracket)
  | shorthand (mark : Shorthand)
  | symbol
  deriving DecidableEq, Repr

namespace Kind

/-- Every class once. -/
def all : List Kind :=
  [illegal, eof, comment, literal .nil, literal .bool, literal .int, literal .float,
    literal .string, literal .keyword, opening .paren, closing .paren, opening .square,
    closing .square, opening .brace, closing .brace, shorthand .spliceUnquote, shorthand .quote,
    shorthand .quasiquote, shorthand .unquote, shorthand .withMeta, shorthand .deref, symbol]

/-- The wording by which messages name a class. Marks are shown between single quotes. -/
def text : Kind → String
  | illegal => "illegal token"
  | eof => "end of input"
  | comment => "comment"
  | literal k => k.text
  | opening b => s!"'{b.opener}'"
  | closing b => s!"'{b.closer}'"
  | shorthand m => s!"'{m.mark}'"
  | symbol => "symbol"

/-- The class that closes what a class opens. -/
def closing? : Kind → Option Kind
  | opening b => some (closing b)
  | _ => none

/-- Whether a class closes a bracketed sequence. -/
def isClosing : Kind → Bool
  | closing _ => true
  | _ => false

theorem closing?_eq_some_iff {k l : Kind} :
    k.closing? = some l ↔ ∃ b, k = opening b ∧ l = closing b := by
  cases k <;> simp [closing?, eq_comm]

theorem isClosing_iff {k : Kind} : k.isClosing = true ↔ ∃ b, k = closing b := by
  cases k <;> simp [isClosing]

end Kind

end Token

/-- A word of the source text. -/
structure Token where
  kind : Token.Kind
  /-- The characters of the token as they stand in the source. -/
  text : String
  span : Span
  deriving DecidableEq, Repr

/-- The mark of the end of a text, at a position. -/
def Token.endMark (p : Position) : Token := ⟨.eof, "", ⟨p, p⟩⟩

end Lisp
