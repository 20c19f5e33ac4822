import Mathlib.Data.List.Infix
import Lisp.Proofs.Form.Grammar
import Lisp.Proofs.Token.Tiling

/-!
# Slices of a source text

Tokens that follow each other in a source text are all tokens of the text that they cover.

- `Scanner.tokens_drop`, `Scanner.tokens_take`: the text from a token on, and the text up to the end
  of a token.
- `tokenize_slice`: the text that some tokens cover has these tokens.
- `Position.since`: a place as it is counted from another place.
-/

namespace Lisp

/-! ## The text that tokens cover -/

namespace Scanner

variable {cs : List Char} {p : Position} {t : Token} {ts us : List Token}

/-- From a token on, a text has that token and those behind it. -/
theorem tokens_drop (h : tokens ⟨cs, p⟩ = ts ++ t :: us) :
    ∃ before rest, cs = before ++ rest ∧ t.span.start = p.advanceOver before ∧
      tokens ⟨rest, p.advanceOver before⟩ = t :: us := by
  induction cs using text_induction generalizing p ts with
  | nil =>
    rw [tokens_nil] at h
    simp at h
  | skipped c cs hc ih =>
    rw [tokens_skipped hc] at h
    obtain ⟨before, rest, rfl, hstart, htokens⟩ := ih h
    exact ⟨c :: before, rest, rfl, hstart, htokens⟩
  | token c cs hc ih =>
    obtain ⟨u, htext, hsplit⟩ := Lexeme.scan_split c cs
    cases ts with
    | nil =>
      have hfirst := h
      rw [tokens_cons hc] at hfirst
      obtain ⟨rfl, -⟩ := List.cons.inj hfirst
      exact ⟨[], c :: cs, rfl, rfl, h⟩
    | cons v ts =>
      rw [tokens_cons hc] at h
      obtain ⟨before, rest, hrest, hstart, htokens⟩ := ih (List.cons.inj h).2
      refine ⟨(Lexeme.scan c cs).text ++ before, rest, ?_, ?_, ?_⟩
      · rw [List.append_assoc, ← hrest, htext, List.cons_append, hsplit]
      · rw [Position.advanceOver_append, hstart]
      · rw [Position.advanceOver_append, htokens]

/-- Up to the end of a token, a text has the tokens up to that one. The end of the text ends a token
as well as what follows it did. -/
theorem tokens_take (h : tokens ⟨cs, p⟩ = ts ++ us) (hne : ts ≠ []) :
    ∃ front behind, cs = front ++ behind ∧ (Token.cover ts).stop = p.advanceOver front ∧
      tokens ⟨front, p⟩ = ts := by
  induction cs using text_induction generalizing p ts with
  | nil =>
    rw [tokens_nil] at h
    exact absurd (List.append_eq_nil_iff.1 h.symm).1 hne
  | skipped c cs hc ih =>
    rw [tokens_skipped hc] at h
    obtain ⟨front, behind, rfl, hstop, htokens⟩ := ih h hne
    exact ⟨c :: front, behind, rfl, hstop, by rw [tokens_skipped hc, htokens]⟩
  | token c cs hc ih =>
    obtain ⟨u, htext, hsplit⟩ := Lexeme.scan_split c cs
    obtain ⟨t, ts, rfl⟩ := List.exists_cons_of_ne_nil hne
    rw [tokens_cons hc] at h
    obtain ⟨rfl, hothers⟩ := List.cons.inj h
    -- The first token is the same before any text that begins as the rest of the text does.
    have hfirst : ∀ rest, EndsAlike (Lexeme.scan c cs).kind (Lexeme.scan c cs).rest rest →
        tokens ⟨(Lexeme.scan c cs).text ++ rest, p⟩ = (Lexeme.scan c cs).token p ::
          tokens ⟨rest, p.advanceOver (Lexeme.scan c cs).text⟩ := by
      intro rest hends
      have hscan := Lexeme.scan_endsAlike (t := u) (by rw [← htext]) hends
      rw [htext, List.cons_append, tokens_cons hc, hscan]
      unfold Lexeme.token
      rw [htext]
    cases ts with
    | nil =>
      refine ⟨(Lexeme.scan c cs).text, (Lexeme.scan c cs).rest, ?_, rfl, ?_⟩
      · rw [htext, List.cons_append, hsplit]
      · have := hfirst [] (.line (.nil _))
        rwa [List.append_nil, tokens_nil] at this
    | cons t' ts =>
      obtain ⟨front, behind, hrest, hstop, htokens⟩ := ih hothers (List.cons_ne_nil t' ts)
      refine ⟨(Lexeme.scan c cs).text ++ front, behind, ?_, ?_, ?_⟩
      · rw [List.append_assoc, ← hrest, htext, List.cons_append, hsplit]
      · rw [Position.advanceOver_append, ← hstop]
        exact Token.stop_cover_append (List.cons_ne_nil t' ts) _ []
      · rw [hfirst front, htokens]
        refine .head ?_
        cases front with
        | nil =>
          rw [tokens_nil] at htokens
          cases htokens
        | cons d front => rw [hrest, List.cons_append, List.head?_cons, List.head?_cons]

/-- The text that some tokens cover has these tokens. -/
theorem tokens_slice (h : us <:+: tokens ⟨cs, p⟩) (hne : us ≠ []) :
    ∃ before slice behind, cs = before ++ (slice ++ behind) ∧
      Token.cover us = ⟨p.advanceOver before, p.advanceOver (before ++ slice)⟩ ∧
      tokens ⟨slice, p.advanceOver before⟩ = us := by
  obtain ⟨front, back, htokens⟩ := h
  obtain ⟨u, us, rfl⟩ := List.exists_cons_of_ne_nil hne
  rw [List.append_assoc] at htokens
  obtain ⟨before, rest, rfl, hstart, hrest⟩ := tokens_drop htokens.symm
  obtain ⟨slice, behind, rfl, hstop, hslice⟩ := tokens_take hrest hne
  refine ⟨before, slice, behind, rfl, ?_, hslice⟩
  rw [Position.advanceOver_append, ← hstop, ← hstart]
  rfl

end Scanner

/-! ## Places in a slice -/

namespace Position

/-- A place as it is counted from another place, where the counting begins anew. -/
def since (origin p : Position) : Position :=
  ⟨p.offset - origin.offset, p.line - origin.line + 1,
    if p.line = origin.line then p.column - origin.column else p.column⟩

/-- A place that is not before another one. -/
structure IsBehind (origin p : Position) : Prop where
  offset : origin.offset ≤ p.offset
  line : origin.line ≤ p.line
  column : p.line = origin.line → origin.column ≤ p.column

variable {origin p : Position}

theorem IsBehind.advance (h : IsBehind origin p) (c : Char) : IsBehind origin (p.advance c) := by
  obtain ⟨hoffset, hline, hcolumn⟩ := h
  unfold Position.advance
  split
  · refine ⟨?_, ?_, ?_⟩
    · show origin.offset ≤ p.offset + 1
      omega
    · show origin.line ≤ p.line + 1
      omega
    · intro heq
      change p.line + 1 = origin.line at heq
      omega
  · refine ⟨?_, hline, fun heq => ?_⟩
    · show origin.offset ≤ p.offset + c.utf8Size
      omega
    · have := hcolumn heq
      show origin.column ≤ p.column + c.utf8Size
      omega

theorem since_advance (h : IsBehind origin p) (c : Char) :
    origin.since (p.advance c) = (origin.since p).advance c := by
  obtain ⟨hoffset, hline, hcolumn⟩ := h
  unfold advance since
  by_cases hc : c = '\n'
  · have hlater : p.line + 1 ≠ origin.line := by omega
    simp only [hc, if_true, hlater, if_false, Position.mk.injEq, and_true]
    omega
  · by_cases hsame : p.line = origin.line
    · have hcolumn := hcolumn hsame
      simp only [hc, if_false, hsame, if_true, Position.mk.injEq, true_and]
      omega
    · simp only [hc, if_false, hsame, Position.mk.injEq, and_true]
      omega

/-- Counted from where a run of characters begins, its places are those of a text of its own. -/
theorem since_advanceOver (origin : Position) (cs : List Char) :
    origin.since (origin.advanceOver cs) = start.advanceOver cs := by
  have hrun : ∀ p, IsBehind origin p →
      origin.since (p.advanceOver cs) = (origin.since p).advanceOver cs := by
    induction cs with
    | nil => exact fun _ _ => rfl
    | cons c cs ih =>
      intro p hp
      rw [advanceOver_cons, advanceOver_cons, ih _ (hp.advance c), since_advance hp]
  have hstart : origin.since origin = start := by simp [since, start]
  rw [hrun origin ⟨Nat.le_refl _, Nat.le_refl _, fun _ => Nat.le_refl _⟩, hstart]

end Position

/-- **The text that some tokens cover has these tokens**, at the places that they have in it. -/
theorem tokenize_slice {source : String} {us : List Token} (h : us <:+: tokenize source)
    (hne : us ≠ []) :
    ∃ slice : String, slice.toByteArray = source.toByteArray.extract
        (Token.cover us).start.offset (Token.cover us).stop.offset ∧
      tokenize slice = us.map (Token.relocate (Token.cover us).start.since
        (Token.cover us).start.since) := by
  obtain ⟨before, slice, behind, hsource, hcover, hslice⟩ := Scanner.tokens_slice h hne
  refine ⟨String.ofList slice, ?_, ?_⟩
  · rw [hcover]
    exact toByteArray_middle hsource
  · have hplace := Position.since_advanceOver (Position.start.advanceOver before)
    rw [hcover, ← hslice, ← Scanner.tokens_relocate _ hplace, tokenize, Scanner.ofString,
      String.toList_ofList]

end Lisp
