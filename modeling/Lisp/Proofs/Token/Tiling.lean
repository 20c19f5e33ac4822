import Lisp.Token.Lookahead
import Lisp.Proofs.Token.Place

/-!
# Tokens tile their source text

- `Token.Tiles`: tokens that stand one after the other in a source text, each with its own bytes,
  such that only blanks are left between them.
- `Scanner.split_of_mem_tokens`: a token has its text before it and behind it.
- `Scanner.skipped_or_covered`: what is not in a token was skipped.
- `Lookahead.Awaits`: where a scanner with lookahead stands in a text. Looking at a token does not
  move it, and taking one moves it to the next.
- `tokenize_tiles`: the tokens of a text tile it, and any calls of a scanner with lookahead give
  these tokens and then the end mark.
-/

namespace Lisp

/-- The bytes that may stand between tokens: space, tab, line feed, carriage return, backspace,
form feed and comma. -/
def skippedBytes : List UInt8 := [0x20, 0x09, 0x0a, 0x0d, 0x08, 0x0c, 0x2c]

/-- Tokens that tile a source text. -/
structure Token.Tiles (source : String) (ts : List Token) : Prop where
  /-- No token is empty, and each ends before the next one begins. -/
  ordered : Token.Ordered ts
  place : ∀ t ∈ ts, t.span.IsIn source
  /-- A token has the text between its offsets. -/
  text : ∀ t ∈ ts, t.text.toByteArray =
    source.toByteArray.extract t.span.start.offset t.span.stop.offset
  /-- A byte that is in no token is a blank. -/
  gaps : ∀ i b, (sourceBytes source)[i]? = some b →
    (∀ t ∈ ts, ¬(t.span.start.offset ≤ i ∧ i < t.span.stop.offset)) → b ∈ skippedBytes

/-! ## The text around a token -/

namespace Scanner

variable {cs : List Char} {p : Position} {t : Token}

/-- The text before a token, the token, and the text behind it. -/
theorem split_of_mem_tokens (ht : t ∈ tokens ⟨cs, p⟩) :
    ∃ before behind, cs = before ++ (t.text.toList ++ behind) ∧
      t.span = ⟨p.advanceOver before, p.advanceOver (before ++ t.text.toList)⟩ := by
  obtain ⟨before, c, rest, rfl, hc, rfl⟩ := exists_scan_of_mem_tokens ht
  obtain ⟨u, htext, hsplit⟩ := Lexeme.scan_split c rest
  refine ⟨before, (Lexeme.scan c rest).rest, ?_, ?_⟩
  · simp [Lexeme.token, htext, hsplit]
  · simp [Lexeme.token, Position.advanceOver_append]

/-- A character of a text was skipped, or there is a token that covers it. -/
theorem skipped_or_covered {before behind : List Char} {c : Char}
    (h : cs = before ++ c :: behind) :
    isSkipped c = true ∨ ∃ t ∈ tokens ⟨cs, p⟩,
      t.span.start.offset ≤ (p.advanceOver before).offset ∧
        (p.advanceOver (before ++ [c])).offset ≤ t.span.stop.offset := by
  induction cs using text_induction generalizing p before with
  | nil => simp at h
  | skipped d cs hd ih =>
    rw [tokens_skipped hd]
    cases before with
    | nil =>
      obtain ⟨rfl, -⟩ := List.cons.inj h
      exact .inl hd
    | cons e before =>
      obtain ⟨rfl, hrest⟩ := List.cons.inj h
      exact ih hrest
  | token d cs hd ih =>
    obtain ⟨u, htext, hsplit⟩ := Lexeme.scan_split d cs
    have hwhole : (Lexeme.scan d cs).text ++ (Lexeme.scan d cs).rest = before ++ c :: behind := by
      rw [← h, htext, List.cons_append, hsplit]
    rw [tokens_cons hd]
    -- The character comes after the first token, or it is in it.
    have hafter : ∀ gap, before = (Lexeme.scan d cs).text ++ gap →
        (Lexeme.scan d cs).rest = gap ++ c :: behind →
        isSkipped c = true ∨ ∃ t ∈ (Lexeme.scan d cs).token p ::
            tokens ⟨(Lexeme.scan d cs).rest, p.advanceOver (Lexeme.scan d cs).text⟩,
          t.span.start.offset ≤ (p.advanceOver before).offset ∧
            (p.advanceOver (before ++ [c])).offset ≤ t.span.stop.offset := by
      rintro gap rfl hrest
      rw [List.append_assoc, Position.advanceOver_append, Position.advanceOver_append]
      refine (ih (p := p.advanceOver (Lexeme.scan d cs).text) hrest).imp id ?_
      rintro ⟨t, ht, hcovers⟩
      exact ⟨t, List.mem_cons_of_mem _ ht, hcovers⟩
    rcases List.append_eq_append_iff.1 hwhole with ⟨gap, hbefore, hrest⟩ | ⟨more, hmore, hrest⟩
    · exact hafter gap hbefore hrest
    · cases more with
      | nil =>
        rw [List.append_nil] at hmore
        exact hafter [] (by rw [hmore, List.append_nil]) hrest.symm
      | cons e more =>
        obtain ⟨rfl, -⟩ := List.cons.inj hrest
        refine .inr ⟨_, List.mem_cons_self, p.offset_le_advanceOver before, ?_⟩
        have hend : p.advanceOver (Lexeme.scan d cs).text =
            (p.advanceOver (before ++ [c])).advanceOver more := by
          rw [← Position.advanceOver_append, hmore, List.append_assoc]
          rfl
        show _ ≤ (p.advanceOver (Lexeme.scan d cs).text).offset
        rw [hend]
        exact Position.offset_le_advanceOver _ more

end Scanner

/-! ## Bytes and characters -/

/-- Each byte of a text belongs to a character. -/
theorem exists_char_of_lt {cs : List Char} {i : Nat} (hi : i < (bytesOf cs).length) :
    ∃ before c behind, cs = before ++ c :: behind ∧ (bytesOf before).length ≤ i ∧
      i < (bytesOf (before ++ [c])).length := by
  induction cs using List.reverseRecOn with
  | nil => exact absurd hi (Nat.not_lt_zero i)
  | append_singleton cs d ih =>
    by_cases hlt : i < (bytesOf cs).length
    · obtain ⟨before, c, behind, rfl, hle, hend⟩ := ih hlt
      exact ⟨before, c, behind ++ [d], by simp, hle, hend⟩
    · exact ⟨cs, d, [], rfl, Nat.le_of_not_lt hlt, hi⟩

/-- What is skipped is written with one byte. -/
theorem utf8EncodeChar_of_isSkipped {c : Char} (hc : isSkipped c = true) :
    ∃ b ∈ skippedBytes, String.utf8EncodeChar c = [b] := by
  have hcases : c = ' ' ∨ c = '\t' ∨ c = '\n' ∨ c = '\r' ∨ c = '\x08' ∨ c = '\x0c' ∨ c = ',' := by
    simpa [isSkipped, or_assoc] using hc
  rcases hcases with rfl | rfl | rfl | rfl | rfl | rfl | rfl
  all_goals exact ⟨_, by decide, rfl⟩

theorem tiles_tokenize (source : String) : Token.Tiles source (tokenize source) := by
  constructor
  case ordered => exact tokenize_ordered source
  case place =>
    intro t ht
    obtain ⟨before, behind, hsplit, hspan⟩ := Scanner.split_of_mem_tokens ht
    rw [hspan]
    have hsplit' : source.toList = (before ++ t.text.toList) ++ behind := by
      rw [hsplit, List.append_assoc]
    refine ⟨Position.isIn_advanceOver hsplit, Position.isIn_advanceOver hsplit', ?_⟩
    rw [Position.advanceOver_append]
    exact Position.offset_le_advanceOver _ _
  case text =>
    intro t ht
    obtain ⟨before, behind, hsplit, hspan⟩ := Scanner.split_of_mem_tokens ht
    rw [hspan, ← toByteArray_middle hsplit, String.ofList_toList]
  case gaps =>
    intro i b hb hgap
    rw [sourceBytes_eq] at hb
    obtain ⟨hi, -⟩ := List.getElem?_eq_some_iff.1 hb
    obtain ⟨before, c, behind, hsplit, hle, hlt⟩ := exists_char_of_lt hi
    rcases Scanner.skipped_or_covered (p := .start) hsplit with hc | ⟨t, ht, hstart, hstop⟩
    · obtain ⟨b', hb', hbytes⟩ := utf8EncodeChar_of_isSkipped hc
      have hindex : i = (bytesOf before).length := by
        rw [bytesOf_append, bytesOf_singleton, hbytes, List.length_append] at hlt
        have hone : [b'].length = 1 := rfl
        omega
      have hat : (bytesOf source.toList)[i]? = some b' := by
        rw [hsplit, ← List.singleton_append, bytesOf_append, bytesOf_append, bytesOf_singleton,
          hbytes, hindex]
        simp
      rw [hat] at hb
      cases hb
      exact hb'
    · rw [Position.offset_advanceOver_start] at hstart hstop
      exact absurd ⟨hstart.trans hle, hlt.trans_le hstop⟩ (hgap t ht)

/-! ## Lookahead -/

namespace Scanner

/-- The place where a text ends. -/
def ending (s : Scanner) : Position := s.position.advanceOver s.rest

/-- A token with a given number, counted from the next one. Behind the last one there is only the
end mark. -/
def nth (s : Scanner) (n : Nat) : Token := (s.tokens[n]?).getD (.endMark s.ending)

/-- Taking a token does not move the end. -/
theorem ending_next (s : Scanner) : s.next.2.ending = s.ending := by
  obtain ⟨cs, p⟩ := s
  induction cs using text_induction generalizing p with
  | nil => rfl
  | skipped c cs hc ih =>
    rw [next_skipped hc]
    exact ih (p.advance c)
  | token c cs hc _ =>
    obtain ⟨u, htext, hsplit⟩ := Lexeme.scan_split c cs
    rw [next_cons hc, ending, ending, ← Position.advanceOver_append, htext, List.cons_append,
      hsplit]

/-- At the end of a text there is the end mark, now and ever after. -/
theorem next_of_tokens_eq_nil {s : Scanner} (h : s.tokens = []) :
    s.next = (.endMark s.ending, ⟨[], s.ending⟩) := by
  obtain ⟨cs, p⟩ := s
  induction cs using text_induction generalizing p with
  | nil => rfl
  | skipped c cs hc ih =>
    rw [tokens_skipped hc] at h
    rw [next_skipped hc]
    exact ih (p.advance c) h
  | token c cs hc _ =>
    rw [tokens_cons hc] at h
    cases h

/-- Taking a token leaves the tokens behind it. -/
theorem nth_eq (s : Scanner) : s.nth 0 = s.next.1 ∧ ∀ n, s.nth (n + 1) = s.next.2.nth n := by
  cases h : s.tokens with
  | nil =>
    have hnext := next_of_tokens_eq_nil h
    constructor
    · rw [hnext, nth, h]
      rfl
    · intro n
      rw [nth, nth, h, ending_next, hnext, tokens_nil]
      rfl
  | cons t ts =>
    have htokens := h
    rw [tokens] at htokens
    split at htokens
    · cases htokens
    · obtain ⟨rfl, rfl⟩ := List.cons.inj htokens
      constructor
      · rw [nth, h]
        rfl
      · intro n
        rw [nth, nth, h, ending_next]
        rfl

end Scanner

namespace Lookahead

variable {l : Lookahead} {token : Nat → Token}

/-- A scanner with lookahead has given so many of some tokens, and is to give the others. -/
def Awaits (token : Nat → Token) (n : Nat) (l : Lookahead) : Prop :=
  match l.peeked with
  | none => ∀ k, l.scanner.nth k = token (n + k)
  | some t => t = token n ∧ ∀ k, l.scanner.nth k = token (n + 1 + k)

/-- What is left in the text after its next token. -/
theorem nth_next_of_nth {s : Scanner} {n : Nat} (h : ∀ k, s.nth k = token (n + k)) :
    s.next.1 = token n ∧ ∀ k, s.next.2.nth k = token (n + 1 + k) := by
  obtain ⟨hfirst, hothers⟩ := s.nth_eq
  refine ⟨hfirst.symm.trans (h 0), fun k => ?_⟩
  rw [← hothers, h, Nat.add_assoc, Nat.add_comm 1 k]

/-- Taking a token moves on to the next one. -/
theorem Awaits.next {n : Nat} (h : Awaits token n l) :
    l.next.1 = token n ∧ Awaits token (n + 1) l.next.2 := by
  obtain ⟨scanner, _ | t⟩ := l
  · exact nth_next_of_nth h
  · exact h

/-- Looking at a token does not move on, and gives what taking it gives. -/
theorem Awaits.peek {n : Nat} (h : Awaits token n l) :
    l.peek.1 = token n ∧ Awaits token n l.peek.2 := by
  obtain ⟨scanner, _ | t⟩ := l
  · obtain ⟨hfirst, hothers⟩ := nth_next_of_nth h
    exact ⟨hfirst, hfirst, hothers⟩
  · exact ⟨h.1, h⟩

/-- Each call gives the token after those that were taken before it. -/
theorem Awaits.answers {n : Nat} (h : Awaits token n l) (calls : List Call) {i : Nat}
    (hi : i < calls.length) :
    (l.answers calls)[i]? = some (token (n + (calls.take i).count .next)) := by
  induction calls generalizing l n i with
  | nil => cases hi
  | cons call calls ih =>
    have hstep : (l.answer call).1 = token n ∧
        Awaits token (n + [call].count .next) (l.answer call).2 := by
      cases call with
      | peek => exact h.peek
      | next => exact h.next
    cases i with
    | zero => exact congrArg some hstep.1
    | succ i =>
      have hcount : ((call :: calls).take (i + 1)).count .next =
          [call].count .next + (calls.take i).count .next := by
        rw [List.take_succ_cons, ← List.singleton_append, List.count_append]
      rw [hcount, ← Nat.add_assoc]
      exact ih hstep.2 (Nat.lt_of_succ_lt_succ hi)

end Lookahead

/-- **Tokens tile their source text.** The tokens of a text are not empty, in order and apart from
each other; each has the bytes between its offsets, which lie between characters, and lines and
columns are those of the offsets; all bytes between tokens are blanks, and the end mark stands at
the end. A scanner with lookahead gives these tokens and then end marks for ever, however it is
called: each call gives the token after those that were taken before it. -/
theorem tokenize_tiles (source : String) :
    Token.Tiles source (tokenize source) ∧
      (endOf source).IsIn source ∧ (endOf source).offset = source.utf8ByteSize ∧
      ∀ (calls : List Lookahead.Call) (i : Nat), i < calls.length →
        ((Lookahead.ofString source).answers calls)[i]? =
          some (((tokenize source)[(calls.take i).count .next]?).getD
            (.endMark (endOf source))) := by
  refine ⟨tiles_tokenize source, ?_, ?_, ?_⟩
  · exact Position.isIn_advanceOver (List.append_nil _).symm
  · rw [endOf, Position.offset_advanceOver_start, length_bytesOf, String.ofList_toList]
  · intro calls i hi
    have hawaits : Lookahead.Awaits (Scanner.ofString source).nth 0 (.ofString source) :=
      fun k => congrArg _ (Nat.zero_add k).symm
    rw [hawaits.answers calls hi, Nat.zero_add]
    rfl

end Lisp
