import Lisp.Token.Basic

/-!
# Forms

What a reader makes of a source text: a tree of forms, in which comments keep their places.

- `Site`: the span of a form, and the identity that tells it from every other form.
- `Form`: the forms themselves.
- `Form.significant`: the forms that count, which is all but the comments.
- `Program`: the top-level forms of a text.
-/

namespace Lisp

/-- Where a form comes from. Two forms are the same form exactly when they come from the same
reading and begin at the same place in it; equal contents or spans do not make forms the same. -/
structure Site where
  /-- The source text that the form covers. -/
  span : Span
  /-- The number of the reading that made the form. -/
  reading : Nat
  /-- What tells the form from the others of its reading: the offset of its first token. -/
  place : Nat
  deriving DecidableEq, Repr, Inhabited

namespace Site

/-- The site of a form of a reading that covers a span. -/
def ofSpan (reading : Nat) (span : Span) : Site := ⟨span, reading, span.start.offset⟩

/-- Whether two sites are the site of one form. -/
def same (a b : Site) : Bool := a.reading == b.reading && a.place == b.place

end Site

/-- A form of the language. The elements of a sequence are in reading order, comments included,
except that a shorthand list has its operands in the order in which they are passed. -/
inductive Form where
  | comment (site : Site) (text : String)
  | symbol (site : Site) (name : String)
  | literal (site : Site) (kind : Literal) (raw : String)
  | vector (site : Site) (elements : List Form)
  | map (site : Site) (elements : List Form)
  | list (site : Site) (shorthand : Option Shorthand) (elements : List Form)
  deriving Repr, Inhabited

namespace Form

/-- Where a form comes from. -/
def site : Form → Site
  | comment s _ | symbol s _ | literal s _ _ | vector s _ | map s _ | list s _ _ => s

/-- The source text that a form covers. -/
def span (f : Form) : Span := f.site.span

/-- Whether a form is a comment. -/
def isComment : Form → Bool
  | comment _ _ => true
  | _ => false

/-- The name of a symbol. -/
def symbol? : Form → Option String
  | symbol _ name => some name
  | _ => none

/-- The elements of a form; only sequences have some. -/
def elements : Form → List Form
  | vector _ es | map _ es | list _ _ es => es
  | _ => []

/-- The forms of a sequence that count: all but its comments. -/
def significant (fs : List Form) : List Form := fs.filter (!·.isComment)

end Form

/-- The top-level forms of a source text, in order. -/
structure Program where
  forms : List Form
  deriving Repr, Inhabited

/-- Visits the top-level forms in order until a visit gives an answer. -/
def Program.walk {σ β : Type} (p : Program) (visit : σ → Form → Except β σ) (init : σ) :
    Except β σ :=
  p.forms.foldlM visit init

end Lisp
