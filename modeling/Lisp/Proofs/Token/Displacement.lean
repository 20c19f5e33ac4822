import Lisp.Proofs.Token.Sequence

/-!
# Texts that are moved further on

The tokens of a text do not depend on what stands before it, but for the place where they stand.

- `Span.relocate`, `Token.relocate`: the same span or token between other places.
  `Scanner.tokens_relocate` are the tokens of a text that begins elsewhere.
- `Displacement`: how far something is moved on. Columns stay, so that only whole lines are moved.
- `Position.shift`, `Span.shift`, `Token.shift`: the same place, span or token, moved on.
- `Scanner.tokens_shift`: the tokens of a text that is moved on are its tokens, moved on.
- `tokenize_lines`: the tokens of a text are those of its first lines, followed by those of the
  others, moved on past the first ones.
-/

namespace Lisp

/-! ## Other places -/

/-- A span between other places. -/
def Span.relocate (starts stops : Position → Position) (s : Span) : Span :=
  ⟨starts s.start, stops s.stop⟩

/-- A token between other places. -/
def Token.relocate (starts stops : Position → Position) (t : Token) : Token :=
  { t with span := t.span.relocate starts stops }

/-- The tokens of a text that begins elsewhere are the same tokens there. -/
theorem Scanner.tokens_relocate {p q : Position} (place : Position → Position)
    (hplace : ∀ cs, place (p.advanceOver cs) = q.advanceOver cs) (cs : List Char) :
    tokens ⟨cs, q⟩ = (tokens ⟨cs, p⟩).map (Token.relocate place place) := by
  induction cs using text_induction generalizing p q with
  | nil =>
    rw [tokens_nil, tokens_nil]
    rfl
  | skipped c cs hc ih =>
    rw [tokens_skipped hc, tokens_skipped hc]
    exact ih fun ds => hplace (c :: ds)
  | token c cs hc ih =>
    have hstart : place p = q := hplace []
    have htoken : (Lexeme.scan c cs).token q =
        ((Lexeme.scan c cs).token p).relocate place place := by
      unfold Lexeme.token Token.relocate Span.relocate
      rw [hstart, hplace]
    have hrest : ∀ ds, place ((p.advanceOver (Lexeme.scan c cs).text).advanceOver ds) =
        (q.advanceOver (Lexeme.scan c cs).text).advanceOver ds := by
      intro ds
      rw [← Position.advanceOver_append, ← Position.advanceOver_append, hplace]
    rw [tokens_cons hc, tokens_cons hc, htoken, ih hrest, List.map_cons]

/-! ## How far -/

/-- How far something is moved on in a source text. -/
structure Displacement where
  bytes : Nat
  lines : Nat
  deriving DecidableEq, Repr

/-- How far the lines after a text are moved on by it. -/
def Displacement.past (source : String) : Displacement :=
  ⟨source.utf8ByteSize + 1, source.toList.count '\n' + 1⟩

/-! ## Places -/

namespace Position

variable (d : Displacement)

/-- A place in a text that is moved on by whole lines. -/
def shift (p : Position) : Position := ⟨p.offset + d.bytes, p.line + d.lines, p.column⟩

theorem shift_advance (p : Position) (c : Char) :
    (p.shift d).advance c = (p.advance c).shift d := by
  unfold advance shift
  split
  · simp only [Position.mk.injEq, and_true]
    omega
  · simp only [Position.mk.injEq, and_true]
    omega

theorem shift_advanceOver (p : Position) (cs : List Char) :
    (p.shift d).advanceOver cs = (p.advanceOver cs).shift d := by
  induction cs generalizing p with
  | nil => rfl
  | cons c cs ih => rw [advanceOver_cons, advanceOver_cons, shift_advance, ih]

/-- Moving on keeps the order of places. -/
theorem compare_shift (p q : Position) : (p.shift d).compare (q.shift d) = p.compare q := by
  have hadd : ∀ a b k : Nat, Ord.compare (a + k) (b + k) = Ord.compare a b := by
    intro a b k
    simp only [Nat.compare_eq_ite_lt, Nat.add_lt_add_iff_right]
  simp only [compare, shift, hadd]

/-- Each character counts its bytes, and each line feed one line. -/
theorem advanceOver_eq (p : Position) (cs : List Char) :
    (p.advanceOver cs).offset = p.offset + (String.ofList cs).utf8ByteSize ∧
      (p.advanceOver cs).line = p.line + cs.count '\n' := by
  induction cs generalizing p with
  | nil => simp
  | cons c cs ih =>
    obtain ⟨hoffset, hline⟩ := ih (p.advance c)
    have hsize : (String.ofList (c :: cs)).utf8ByteSize =
        c.utf8Size + (String.ofList cs).utf8ByteSize := by
      have hsplit : String.ofList (c :: cs) = String.singleton c ++ String.ofList cs := by
        rw [String.singleton_eq_ofList, ← String.ofList_append]
        rfl
      rw [hsplit, String.utf8ByteSize_append, String.utf8ByteSize_singleton]
    rw [advanceOver_cons, hoffset, hline, hsize, List.count_cons]
    unfold advance
    by_cases hc : c = '\n'
    · subst hc
      have hfeed : ('\n' : Char).utf8Size = 1 := by decide
      simp only [if_true, hfeed, beq_self_eq_true]
      omega
    · simp only [hc, if_false, beq_iff_eq]
      omega

end Position

/-- The line after a text begins where the text is moved on to. -/
theorem advance_endOf (source : String) :
    (endOf source).advance '\n' = Position.start.shift (.past source) := by
  obtain ⟨hoffset, hline⟩ := Position.start.advanceOver_eq source.toList
  have hend : (endOf source).advance '\n' =
      ⟨(endOf source).offset + 1, (endOf source).line + 1, 0⟩ := rfl
  rw [hend, endOf, hoffset, hline, String.ofList_toList]
  rfl

namespace Span

/-- A span in a text that is moved on. -/
def shift (d : Displacement) (s : Span) : Span := ⟨s.start.shift d, s.stop.shift d⟩

/-- Moving on keeps what two spans cover. -/
theorem merge_shift (d : Displacement) (a b : Span) :
    (a.shift d).merge (b.shift d) = (a.merge b).shift d := by
  have hearlier : ∀ p q : Position, (p.shift d).earlier (q.shift d) = (p.earlier q).shift d := by
    intro p q
    unfold Position.earlier
    rw [Position.compare_shift]
    split <;> rfl
  have hlater : ∀ p q : Position, (p.shift d).later (q.shift d) = (p.later q).shift d := by
    intro p q
    unfold Position.later
    rw [Position.compare_shift]
    split <;> rfl
  unfold merge shift
  rw [hearlier, hlater]

end Span

/-! ## Tokens -/

/-- A token in a text that is moved on. -/
def Token.shift (d : Displacement) (t : Token) : Token := { t with span := t.span.shift d }

namespace Token

variable (d : Displacement) (t : Token)

@[simp] theorem kind_shift : (t.shift d).kind = t.kind := rfl

@[simp] theorem text_shift : (t.shift d).text = t.text := rfl

@[simp] theorem span_shift : (t.shift d).span = t.span.shift d := rfl

end Token

/-- The tokens of a text that is moved on are its tokens, moved on. -/
theorem Scanner.tokens_shift (d : Displacement) (cs : List Char) (p : Position) :
    tokens ⟨cs, p.shift d⟩ = (tokens ⟨cs, p⟩).map (Token.shift d) :=
  tokens_relocate (Position.shift d) (fun ds => (p.shift_advanceOver d ds).symm) cs

/-- The tokens of a text are those of its first lines, and those of the others moved on past the
first ones. -/
theorem tokenize_lines (a b : String) :
    tokenize (a ++ "\n" ++ b) = tokenize a ++ (tokenize b).map (Token.shift (.past a)) := by
  rw [tokenize_append_line, advance_endOf, Scanner.tokens_shift]
  rfl

end Lisp
