import Lisp.Proofs.Token.Ends

/-!
# The tokens of a text, one after the other

- `Scanner.text_induction`: a text is empty, or begins with a character between tokens, or with a
  token. `Scanner.tokens_nil`, `tokens_skipped` and `tokens_cons` give its tokens in each case.
- `tokenize_append_line`: the end of a line ends the token before it, so that the tokens of a text
  are those of its first lines and those of the others.
- `Token.Ordered`: tokens that follow each other and are not empty, as those of every text are
  (`tokenize_ordered`).
- `Token.Scanned`: tokens that stand in some text.
-/

namespace Lisp

namespace Position

theorem offset_lt_advance (p : Position) (c : Char) : p.offset < (p.advance c).offset := by
  unfold advance
  split
  · show p.offset < p.offset + 1
    omega
  · have := Char.utf8Size_pos c
    show p.offset < p.offset + c.utf8Size
    omega

theorem offset_le_advanceOver (p : Position) (cs : List Char) :
    p.offset ≤ (p.advanceOver cs).offset := by
  induction cs generalizing p with
  | nil => exact Nat.le_refl _
  | cons c cs ih =>
    have hfirst := p.offset_lt_advance c
    have hrest := ih (p.advance c)
    rw [advanceOver_cons]
    omega

end Position

/-- A token at a place. -/
def Lexeme.token (l : Lexeme) (p : Position) : Token :=
  ⟨l.kind, String.ofList l.text, ⟨p, p.advanceOver l.text⟩⟩

namespace Scanner

variable {c : Char} {cs : List Char} {p : Position}

/-! ## The cases of a text -/

theorem next_nil (p : Position) : next ⟨[], p⟩ = (.endMark p, ⟨[], p⟩) := rfl

theorem next_skipped (hc : isSkipped c = true) (cs : List Char) (p : Position) :
    next ⟨c :: cs, p⟩ = next ⟨cs, p.advance c⟩ := by
  unfold next
  simp only [List.takeWhile_cons, List.dropWhile_cons, hc, if_true, Position.advanceOver_cons]

theorem next_cons (hc : isSkipped c = false) (cs : List Char) (p : Position) :
    next ⟨c :: cs, p⟩ =
      ((Lexeme.scan c cs).token p,
        ⟨(Lexeme.scan c cs).rest, p.advanceOver (Lexeme.scan c cs).text⟩) := by
  unfold next
  simp only [List.takeWhile_cons, List.dropWhile_cons, hc, Bool.false_eq_true, if_false,
    Position.advanceOver_nil]
  rfl

theorem tokens_nil (p : Position) : tokens ⟨[], p⟩ = [] := by
  rw [tokens, next_nil]
  rfl

theorem tokens_skipped (hc : isSkipped c = true) (cs : List Char) (p : Position) :
    tokens ⟨c :: cs, p⟩ = tokens ⟨cs, p.advance c⟩ := by
  rw [tokens, next_skipped hc, ← tokens]

theorem tokens_cons (hc : isSkipped c = false) (cs : List Char) (p : Position) :
    tokens ⟨c :: cs, p⟩ =
      (Lexeme.scan c cs).token p ::
        tokens ⟨(Lexeme.scan c cs).rest, p.advanceOver (Lexeme.scan c cs).text⟩ := by
  rw [tokens, next_cons hc]
  exact dif_neg (Lexeme.scan_kind_ne_eof c cs)

theorem tokens_single {kind : Token.Kind} (hsingle : Lexeme.single? c = some kind)
    (hc : isSkipped c = false) (cs : List Char) (p : Position) :
    tokens ⟨c :: cs, p⟩ =
      (Lexeme.mk kind [c] cs).token p :: tokens ⟨cs, p.advance c⟩ := by
  have hscan : Lexeme.scan c cs = ⟨kind, [c], cs⟩ := by
    simp only [Lexeme.scan, hsingle]
  rw [tokens_cons hc, hscan]
  rfl

/-- A text is empty, or begins with a character between tokens, or with a token. -/
@[elab_as_elim]
theorem text_induction {motive : List Char → Prop} (nil : motive [])
    (skipped : ∀ c cs, isSkipped c = true → motive cs → motive (c :: cs))
    (token : ∀ c cs, isSkipped c = false → motive (Lexeme.scan c cs).rest → motive (c :: cs))
    (cs : List Char) : motive cs := by
  induction hn : cs.length using Nat.strongRecOn generalizing cs with
  | _ n ih =>
    cases cs with
    | nil => exact nil
    | cons c cs =>
      rw [List.length_cons] at hn
      by_cases hc : isSkipped c = true
      · exact skipped c cs hc (ih _ (by omega) cs rfl)
      · have hrest := Lexeme.length_rest_le c cs
        exact token c cs (by simpa using hc) (ih _ (by omega) _ rfl)

/-! ## Lines -/

/-- The end of a line ends the token before it. -/
theorem tokens_append_line (cs rest : List Char) (p : Position) :
    tokens ⟨cs ++ '\n' :: rest, p⟩ =
      tokens ⟨cs, p⟩ ++ tokens ⟨rest, (p.advanceOver cs).advance '\n'⟩ := by
  induction cs using text_induction generalizing p with
  | nil =>
    rw [List.nil_append, tokens_skipped (by decide), tokens_nil, List.nil_append]
    rfl
  | skipped c cs hc ih =>
    rw [List.cons_append, tokens_skipped hc, tokens_skipped hc, ih]
    rfl
  | token c cs hc ih =>
    obtain ⟨t, htext, hsplit⟩ := Lexeme.scan_split c cs
    have hends : EndsAlike (Lexeme.scan c cs).kind (Lexeme.scan c cs).rest
        ((Lexeme.scan c cs).rest ++ '\n' :: rest) := by
      cases (Lexeme.scan c cs).rest with
      | nil => exact .line (.cons (by decide) _)
      | cons d after => exact .head rfl
    have hscan : Lexeme.scan c (cs ++ '\n' :: rest) =
        ⟨(Lexeme.scan c cs).kind, c :: t, (Lexeme.scan c cs).rest ++ '\n' :: rest⟩ := by
      have := Lexeme.scan_endsAlike (t := t) (by rw [← htext]) hends
      rwa [← List.append_assoc, hsplit] at this
    have hplace : p.advanceOver (c :: cs) =
        (p.advanceOver (c :: t)).advanceOver (Lexeme.scan c cs).rest := by
      rw [← Position.advanceOver_append, List.cons_append, hsplit]
    rw [List.cons_append, tokens_cons hc, tokens_cons hc, hscan, ih, hplace]
    unfold Lexeme.token
    rw [htext]
    rfl

end Scanner

/-- The tokens of a text are those of its first lines and those of the others. -/
theorem tokenize_append_line (a b : String) :
    tokenize (a ++ "\n" ++ b) =
      tokenize a ++ Scanner.tokens ⟨b.toList, (endOf a).advance '\n'⟩ := by
  unfold tokenize Scanner.ofString endOf
  rw [← Scanner.tokens_append_line, String.toList_append, String.toList_append, List.append_assoc]
  rfl

/-! ## Order -/

/-- Tokens that are not empty and follow each other. -/
structure Token.Ordered (ts : List Token) : Prop where
  nonempty : ∀ t ∈ ts, t.span.start.offset < t.span.stop.offset
  apart : ts.Pairwise fun t u => t.span.stop.offset ≤ u.span.start.offset

theorem Token.Ordered.sublist {ts us : List Token} (hus : Token.Ordered us) (h : ts.Sublist us) :
    Token.Ordered ts :=
  ⟨fun t ht => hus.nonempty t (h.subset ht), hus.apart.sublist h⟩

/-- The tokens of a text are in order, and come after the place where the text begins. -/
theorem Scanner.tokens_ordered (cs : List Char) (p : Position) :
    Token.Ordered (tokens ⟨cs, p⟩) ∧ ∀ t ∈ tokens ⟨cs, p⟩, p.offset ≤ t.span.start.offset := by
  induction cs using text_induction generalizing p with
  | nil =>
    rw [tokens_nil]
    exact ⟨⟨nofun, .nil⟩, nofun⟩
  | skipped c cs hc ih =>
    obtain ⟨hordered, hafter⟩ := ih (p.advance c)
    rw [tokens_skipped hc]
    refine ⟨hordered, fun t ht => ?_⟩
    have hstep := p.offset_lt_advance c
    have hplace := hafter t ht
    omega
  | token c cs hc ih =>
    obtain ⟨t, htext, -⟩ := Lexeme.scan_split c cs
    obtain ⟨hordered, hafter⟩ := ih (p.advanceOver (Lexeme.scan c cs).text)
    have hfirst : p.offset < (p.advanceOver (Lexeme.scan c cs).text).offset := by
      have hchar := p.offset_lt_advance c
      have hmore := (p.advance c).offset_le_advanceOver t
      rw [htext, Position.advanceOver_cons]
      omega
    rw [tokens_cons hc]
    refine ⟨⟨?_, ?_⟩, ?_⟩
    · intro u hu
      rcases List.mem_cons.1 hu with rfl | hu
      · exact hfirst
      · exact hordered.nonempty u hu
    · exact List.pairwise_cons.2 ⟨hafter, hordered.apart⟩
    · intro u hu
      rcases List.mem_cons.1 hu with rfl | hu
      · exact Nat.le_refl _
      · have hplace := hafter u hu
        omega

theorem tokenize_ordered (source : String) : Token.Ordered (tokenize source) :=
  (Scanner.tokens_ordered _ _).1

/-! ## Origin -/

/-- A token is scanned at its place, where a text before it has ended. -/
theorem Scanner.exists_scan_of_mem_tokens {cs : List Char} {p : Position} {t : Token}
    (ht : t ∈ tokens ⟨cs, p⟩) :
    ∃ before c rest, cs = before ++ c :: rest ∧ isSkipped c = false ∧
      t = (Lexeme.scan c rest).token (p.advanceOver before) := by
  induction cs using text_induction generalizing p with
  | nil =>
    rw [tokens_nil] at ht
    cases ht
  | skipped c cs hc ih =>
    rw [tokens_skipped hc] at ht
    obtain ⟨before, d, rest, rfl, hd, htoken⟩ := ih ht
    exact ⟨c :: before, d, rest, rfl, hd, htoken⟩
  | token c cs hc ih =>
    rw [tokens_cons hc] at ht
    rcases List.mem_cons.1 ht with rfl | ht
    · exact ⟨[], c, cs, rfl, hc, rfl⟩
    · obtain ⟨u, htext, hsplit⟩ := Lexeme.scan_split c cs
      obtain ⟨before, d, rest, hrest, hd, htoken⟩ := ih ht
      refine ⟨(Lexeme.scan c cs).text ++ before, d, rest, ?_, hd, ?_⟩
      · rw [List.append_assoc, ← hrest, htext, List.cons_append, hsplit]
      · rw [htoken, Position.advanceOver_append]

/-- A token that stands in some text. -/
def Token.Scanned (t : Token) : Prop :=
  ∃ c cs, isSkipped c = false ∧ t.kind = (Lexeme.scan c cs).kind ∧
    t.text = String.ofList (Lexeme.scan c cs).text

theorem Scanner.scanned_of_mem_tokens {cs : List Char} {p : Position} {t : Token}
    (ht : t ∈ tokens ⟨cs, p⟩) : t.Scanned := by
  obtain ⟨before, c, rest, -, hc, rfl⟩ := exists_scan_of_mem_tokens ht
  exact ⟨c, rest, hc, rfl, rfl⟩

end Lisp
