import Mathlib.Logic.Function.Basic
import Lisp.Proofs.Token.Displacement
import Lisp.Proofs.Token.Pattern

/-!
# Blanks only separate tokens

- `Token.RunsOn`: the tokens that a blank does not end, which are comments and strings without a
  closing quote.
- `Token.Spaced`: the texts of some tokens in order, with blanks of any kind and number behind each
  of them.
- `Token.Spaced.words`: such a text has these tokens.
- `tokenize_respaced`: so the tokens of a text stay as they are when the blanks between them change,
  and only their places are others.
-/

namespace Lisp

namespace Token

/-! ## Words and blanks -/

/-- What a token is apart from its place. -/
def word (t : Token) : Kind × String := (t.kind, t.text)

/-- A string that is closed: its last character is a quote, and the only one that no backslash
escapes. -/
def IsClosed (t : Token) : Prop :=
  ∃ body, t.text.toList = '\x22' :: (body ++ ['\x22']) ∧ GoesOn [] body ∧
    Quoted.endsUnescaped body = true

/-- A token that goes on up to the end of its line: a comment, or a string that is not closed. -/
def RunsOn (t : Token) : Prop :=
  t.kind = .comment ∨ t.kind = .literal .string ∧ ¬t.IsClosed

/-- The texts of some tokens in order, each with blanks behind it. Between two tokens there is at
least one blank, and a token that runs on is followed by the end of its line or of the text. -/
inductive Spaced : List Token → List Char → Prop
  | nil : Spaced [] []
  | cons {t : Token} {ts : List Token} {gap cs : List Char} :
      (∀ c ∈ gap, isSkipped c = true) → (ts ≠ [] → gap ≠ []) →
      (t.RunsOn → Stops (· != '\n') gap) → Spaced ts cs →
      Spaced (t :: ts) (t.text.toList ++ (gap ++ cs))

variable {t : Token} {ts us : List Token} {gap cs rest : List Char}

/-- A token that was scanned once is scanned again before any blank, but one that runs on only
before the end of a line. -/
theorem Scanned.scan_before (h : t.Scanned) (hword : Stops isWord rest)
    (hline : t.RunsOn → Stops (· != '\n') rest) :
    ∃ c u, t.text.toList = c :: u ∧ isSkipped c = false ∧
      Lexeme.scan c (u ++ rest) = ⟨t.kind, c :: u, rest⟩ := by
  obtain ⟨c, cs, hc, hkind, htext⟩ := h
  obtain ⟨u, hu, -⟩ := Lexeme.scan_split c cs
  have htext : t.text.toList = c :: u := by rw [htext, String.toList_ofList, hu]
  have hscan : Lexeme.scan c cs = ⟨t.kind, c :: u, (Lexeme.scan c cs).rest⟩ := by
    rw [hkind, ← hu]
  refine ⟨c, u, htext, hc, ?_⟩
  by_cases hruns : t.RunsOn
  · exact Lexeme.scan_endsAlike hscan (.line (hline hruns))
  by_cases hstring : t.kind = .literal .string
  · -- The string is closed, so that it ends with its quote whatever follows.
    have hclosed : t.IsClosed := by
      by_contra hopen
      exact hruns (.inr ⟨hstring, hopen⟩)
    obtain ⟨body, hbody, hgoes, hend⟩ := hclosed
    obtain ⟨rfl, rfl⟩ := List.cons.inj (htext.symm.trans hbody)
    have hagain := Lexeme.string_of_goesOn hgoes ('\x22' :: rest)
    rw [List.nil_append, hend] at hagain
    have hstep : Lexeme.string false (body ++ '\x22' :: rest) = (body ++ ['\x22'], rest) := hagain
    show Lexeme.scan '\x22' (body ++ ['\x22'] ++ rest) = _
    rw [List.append_assoc, List.singleton_append, hstring]
    show Lexeme.mk _ _ _ = _
    rw [hstep]
  · exact Lexeme.scan_endsAlike hscan (.word (fun hk => hruns (.inl hk)) hstring hword)

end Token

/-- Blanks before a text are skipped. -/
theorem Scanner.tokens_blanks {gap : List Char} (hgap : ∀ c ∈ gap, isSkipped c = true)
    (cs : List Char) (p : Position) :
    tokens ⟨gap ++ cs, p⟩ = tokens ⟨cs, p.advanceOver gap⟩ := by
  induction gap generalizing p with
  | nil => rfl
  | cons c gap ih =>
    obtain ⟨hc, hgap⟩ := List.forall_mem_cons.1 hgap
    rw [List.cons_append, tokens_skipped hc, ih hgap]
    rfl

namespace Token

variable {t : Token} {ts us : List Token} {gap cs rest : List Char}

/-- The texts of tokens with blanks between them have these tokens. -/
theorem Spaced.words (h : Spaced ts cs) (hts : ∀ t ∈ ts, t.Scanned) (p : Position) :
    (Scanner.tokens ⟨cs, p⟩).map word = ts.map word := by
  induction h generalizing p with
  | nil => rw [Scanner.tokens_nil]
  | @cons t ts gap cs hgap hbetween hruns hrest ih =>
    obtain ⟨ht, hts⟩ := List.forall_mem_cons.1 hts
    -- Without a blank there is nothing behind the token, so that the blanks decide what ends it.
    have hfollows : ∀ {q : Char → Bool}, Stops q gap → Stops q (gap ++ cs) := by
      intro q hstops
      cases gap with
      | nil =>
        cases hrest with
        | nil => exact hstops
        | cons => exact absurd rfl (hbetween (List.cons_ne_nil _ _))
      | cons d gap => exact hstops
    have hword : Stops isWord gap := by
      intro d hd
      exact isWord_of_isSkipped (hgap d (List.mem_of_mem_head? hd))
    obtain ⟨c, u, htext, hc, hscan⟩ :=
      ht.scan_before (hfollows hword) fun hr => hfollows (hruns hr)
    rw [htext, List.cons_append, Scanner.tokens_cons hc, hscan, Scanner.tokens_blanks hgap,
      List.map_cons, List.map_cons, ih hts]
    refine congrArg (· :: _) ?_
    rw [word, word, Lexeme.token, ← htext, String.ofList_toList]

/-! ## Places -/

/-- Tokens in order that are the same words as others are these, put elsewhere. -/
theorem Ordered.exists_relocate (ho : Ordered ts) (h : us.map word = ts.map word) :
    ∃ starts stops, us = ts.map (relocate starts stops) := by
  induction ts generalizing us with
  | nil =>
    rw [List.map_nil, List.map_eq_nil_iff] at h
    exact ⟨id, id, h⟩
  | cons t ts ih =>
    obtain ⟨u, us, rfl, hu, hus⟩ := List.map_eq_cons_iff.1 h
    obtain ⟨starts, stops, rfl⟩ := ih (ho.sublist (List.sublist_cons_self t ts)) hus
    refine ⟨Function.update starts t.span.start u.span.start,
      Function.update stops t.span.stop u.span.stop, ?_⟩
    obtain ⟨hkind, htext⟩ := Prod.mk.inj hu
    have hhead : u = t.relocate (Function.update starts t.span.start u.span.start)
        (Function.update stops t.span.stop u.span.stop) := by
      rw [relocate, Span.relocate, Function.update_self, Function.update_self, ← hkind, ← htext]
    rw [List.map_cons, ← hhead]
    refine congrArg (u :: ·) (List.map_congr_left fun v hv => ?_)
    -- The other tokens begin and end elsewhere.
    have hbehind := (List.pairwise_cons.1 ho.apart).1 v hv
    have hfirst := ho.nonempty t List.mem_cons_self
    have hother := ho.nonempty v (List.mem_cons_of_mem t hv)
    have hstart : v.span.start ≠ t.span.start := by
      intro heq
      rw [heq] at hbehind
      omega
    have hstop : v.span.stop ≠ t.span.stop := by
      intro heq
      rw [heq] at hother
      omega
    rw [relocate, relocate, Span.relocate, Span.relocate, Function.update_of_ne hstart,
      Function.update_of_ne hstop]

end Token

/-- A text with the tokens of a source text and with other blanks before, between and behind
them. -/
def Respaced (source text : String) : Prop :=
  ∃ lead body, (∀ c ∈ lead, isSkipped c = true) ∧ Token.Spaced (tokenize source) body ∧
    text.toList = lead ++ body

variable {source text : String}

/-- With other blanks between them, the tokens of a text are the same words. -/
theorem Respaced.words (h : Respaced source text) :
    (tokenize text).map Token.word = (tokenize source).map Token.word := by
  obtain ⟨lead, body, hlead, hbody, htext⟩ := h
  rw [tokenize, Scanner.ofString, htext, Scanner.tokens_blanks hlead]
  exact hbody.words (fun _ => Scanner.scanned_of_mem_tokens) _

/-- With other blanks between them, the tokens of a text are the same ones in other places. -/
theorem tokenize_respaced (h : Respaced source text) :
    ∃ starts stops, tokenize text = (tokenize source).map (Token.relocate starts stops) :=
  (tokenize_ordered source).exists_relocate h.words

end Lisp
