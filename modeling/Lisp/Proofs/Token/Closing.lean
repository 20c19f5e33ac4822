import Lisp.Proofs.Token.Pattern

/-!
# Where a string literal ends

The scan of a literal sees whether it is closed, but the token does not record it. Who reads the
token finds it again from the other end, by the backslashes before a last quote.

- `Ending`, `Lexeme.stringEnding`: the scan of a string, together with the way in which it ends. It
  takes what `Lexeme.string` takes (`fst_stringEnding`).
- `Lexeme.stringEnding_cases`: a scan ends closed when the quote behind its body is not escaped, and
  cut short when there is no such quote.
- `Quoted.body_of_closed`, `Quoted.body_of_goesOn`: what is read off the text in each case.
- `body_of_ending`: so what is read off the text of a token is what its scan took.
-/

namespace Lisp

/-- How the scan of a string ends: at a closing quote, or at the end of its line or of the text. -/
inductive Ending where
  | closed
  | cut
  deriving DecidableEq, Repr

/-! ## Reading the text -/

namespace Quoted

variable {body : List Char}

/-- A quote that is not escaped is taken off the end. -/
theorem body_of_closed (h : endsUnescaped body = true) :
    Quoted.body ('\x22' :: (body ++ ['\x22'])) = body := by
  have hdrop : dropOpening ('\x22' :: (body ++ ['\x22'])) = body ++ ['\x22'] := rfl
  rw [Quoted.body, hdrop, dropClosing, List.dropLast_concat, h, List.getLast?_concat,
    if_pos ⟨rfl, rfl⟩]

/-- If every quote in it is escaped, nothing is taken off the end. -/
theorem body_of_goesOn (h : GoesOn [] body) : Quoted.body ('\x22' :: body) = body := by
  have hdrop : dropOpening ('\x22' :: body) = body := rfl
  rw [Quoted.body, hdrop, dropClosing, if_neg]
  rintro ⟨hlast, hunescaped⟩
  obtain ⟨front, rfl⟩ := List.getLast?_eq_some_iff.1 hlast
  have hescaped := h.escaped front [] rfl
  rw [List.dropLast_concat] at hunescaped
  rw [List.nil_append, hunescaped] at hescaped
  cases hescaped

end Quoted

/-! ## The way in which a scan ends -/

namespace Lexeme

open Quoted (endsUnescaped)

variable {cs rest : List Char}

/-- The scan of a string after its opening quote, with the way in which it ends. -/
def stringEnding (escaped : Bool) : List Char → (List Char × List Char) × Ending
  | [] => (([], []), .cut)
  | c :: cs =>
    if c = '\n' then (([], c :: cs), .cut)
    else if c = '\x22' ∧ escaped = false then (([c], cs), .closed)
    else
      let ((text, rest), ending) := stringEnding (c == '\\' && !escaped) cs
      ((c :: text, rest), ending)

/-- The way in which it ends is all that `string` leaves out. -/
theorem fst_stringEnding (escaped : Bool) (cs : List Char) :
    (stringEnding escaped cs).1 = string escaped cs := by
  fun_induction stringEnding escaped cs with
  | case1 => rfl
  | case2 => simp [string]
  | case3 _ _ _ hline hquote => rw [string, if_neg hline, if_pos hquote]
  | case4 _ _ _ hline hquote _ _ _ heq ih =>
    rw [heq] at ih
    rw [string, if_neg hline, if_neg hquote, ← ih]

/-- The way in which a scan ends does not depend on what it goes on through. -/
theorem snd_stringEnding_of_goesOn {before body : List Char} (h : GoesOn before body)
    (rest : List Char) :
    (stringEnding (!endsUnescaped before) (body ++ rest)).2 =
      (stringEnding (!endsUnescaped (before ++ body)) rest).2 := by
  induction body generalizing before with
  | nil => simp
  | cons c body ih =>
    rw [List.cons_append, stringEnding, if_neg h.head_ne_line, if_neg h.head_ne_closing,
      escaped_next, ih h.tail, List.append_assoc]
    rfl

/-- A scan ends at the quote behind its body if that is not escaped, and is cut short otherwise. -/
theorem stringEnding_cases (cs : List Char) :
    (∃ body, (stringEnding false cs).1.1 = body ++ ['\x22'] ∧ endsUnescaped body = true ∧
      (stringEnding false cs).2 = .closed) ∨
    (GoesOn [] (stringEnding false cs).1.1 ∧ Stops (· != '\n') (stringEnding false cs).1.2 ∧
      (stringEnding false cs).2 = .cut) := by
  have hsplit := string_split false cs
  obtain ⟨body, rest, hbody, hends⟩ := exists_goesOn_string [] cs
  have hending := snd_stringEnding_of_goesOn hbody
  rw [fst_stringEnding]
  rcases hends with ⟨hscan, hclosed⟩ | ⟨hscan, hcut⟩
  · have hscan : string false cs = (body ++ ['\x22'], rest) := hscan
    rw [hscan, List.append_assoc] at hsplit
    have hquote := hending ('\x22' :: rest)
    rw [hclosed] at hquote
    refine .inl ⟨body, by rw [hscan], hclosed, ?_⟩
    rw [← hsplit]
    exact hquote
  · have hscan : string false cs = (body, rest) := hscan
    rw [hscan] at hsplit ⊢
    refine .inr ⟨hbody, hcut, ?_⟩
    rw [← hsplit]
    refine (hending rest).trans ?_
    cases rest with
    | nil => rfl
    | cons c rest =>
      obtain rfl : c = '\n' := by simpa using hcut c rfl
      rfl

end Lexeme

/-! ## The text of a token -/

/-- **The text of a string shows where its scan ended.** If the scan of a string token ended at a
closing quote, what is read off its text is the text without its first and its last character. If
the scan was cut short by the end of the line or of the source text, it is the text without its
first character, even where a quote stands last. -/
theorem body_of_ending (source : String) (t : Token) (ht : t ∈ tokenize source)
    (hkind : t.kind = .literal .string) :
    ∃ before cs, source.toList = before ++ '\x22' :: cs ∧
      t.span.start = Position.start.advanceOver before ∧
      t.text.toList = '\x22' :: (Lexeme.stringEnding false cs).1.1 ∧
      ((Lexeme.stringEnding false cs).2 = .closed →
        t.text.toList = '\x22' :: (Quoted.body t.text.toList ++ ['\x22'])) ∧
      ((Lexeme.stringEnding false cs).2 = .cut →
        t.text.toList = '\x22' :: Quoted.body t.text.toList ∧
          Stops (· != '\n') (Lexeme.stringEnding false cs).1.2) := by
  obtain ⟨before, c, cs, hsource, hc, rfl⟩ := Scanner.exists_scan_of_mem_tokens ht
  -- Only a string has this class.
  obtain ⟨tail, htext, -⟩ := (Pattern.munch_scan hc).string hkind
  obtain ⟨u, hu, -⟩ := Lexeme.scan_split c cs
  obtain ⟨rfl, -⟩ := List.cons.inj (htext.symm.trans hu)
  have hscan : (Lexeme.scan '\x22' cs).text = '\x22' :: (Lexeme.stringEnding false cs).1.1 := by
    rw [Lexeme.fst_stringEnding]
    rfl
  have htoken : ((Lexeme.scan '\x22' cs).token (Position.start.advanceOver before)).text.toList =
      '\x22' :: (Lexeme.stringEnding false cs).1.1 :=
    (String.toList_ofList ..).trans hscan
  refine ⟨before, cs, hsource, rfl, htoken, ?_, ?_⟩
  · intro hending
    rw [htoken]
    rcases Lexeme.stringEnding_cases cs with ⟨body, htext, hclosed, -⟩ | ⟨-, -, hcut⟩
    · rw [htext, Quoted.body_of_closed hclosed]
    · rw [hending] at hcut
      cases hcut
  · intro hending
    rw [htoken]
    rcases Lexeme.stringEnding_cases cs with ⟨-, -, -, hclosed⟩ | ⟨hgoes, hstops, -⟩
    · rw [hending] at hclosed
      cases hclosed
    · exact ⟨by rw [Quoted.body_of_goesOn hgoes], hstops⟩

/-- A string that ends in a quote and is cut short, after one that ends in backslashes and is
closed. -/
theorem body_of_ending_escaped :
    (⟨.literal .string, "\x22b\\\x22", ⟨⟨6, 1, 6⟩, ⟨10, 1, 10⟩⟩⟩ : Token) ∈
        tokenize "\x22a\\\\\x22 \x22b\\\x22" ∧
      ∃ before cs, "\x22a\\\\\x22 \x22b\\\x22".toList = before ++ '\x22' :: cs ∧
        (⟨6, 1, 6⟩ : Position) = Position.start.advanceOver before ∧
        "\x22b\\\x22".toList = '\x22' :: (Lexeme.stringEnding false cs).1.1 ∧
        ((Lexeme.stringEnding false cs).2 = .closed →
          "\x22b\\\x22".toList = '\x22' :: (Quoted.body "\x22b\\\x22".toList ++ ['\x22'])) ∧
        ((Lexeme.stringEnding false cs).2 = .cut →
          "\x22b\\\x22".toList = '\x22' :: Quoted.body "\x22b\\\x22".toList ∧
            Stops (· != '\n') (Lexeme.stringEnding false cs).1.2) ∧
        Quoted.body "\x22b\\\x22".toList = ['b', '\\', '\x22'] := by
  have hmem : (⟨.literal .string, "\x22b\\\x22", ⟨⟨6, 1, 6⟩, ⟨10, 1, 10⟩⟩⟩ : Token) ∈
      tokenize "\x22a\\\\\x22 \x22b\\\x22" := by
    have htokens : tokenize "\x22a\\\\\x22 \x22b\\\x22" =
        [⟨.literal .string, "\x22a\\\\\x22", ⟨⟨0, 1, 0⟩, ⟨5, 1, 5⟩⟩⟩,
          ⟨.literal .string, "\x22b\\\x22", ⟨⟨6, 1, 6⟩, ⟨10, 1, 10⟩⟩⟩] := by cbv
    rw [htokens]
    simp
  obtain ⟨before, cs, hsource, hplace, htext, hclosed, hcut⟩ := body_of_ending _ _ hmem rfl
  exact ⟨hmem, before, cs, hsource, hplace, htext, hclosed, hcut, by cbv⟩

end Lisp
