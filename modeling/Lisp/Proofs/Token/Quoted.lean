import Mathlib.Data.List.Induction
import Lisp.Text.Quoted
import Lisp.Token.Scan

/-!
# Written strings as tokens

The literal that printing writes for a text is one token, whatever follows it, and stands for that
text.

- `Lexeme.scan_quote`: the scan of a written literal ends at its closing quote.
- `Quoted.meaning_quote`: the literal is read back as the text that it was written for. The closing
  quote is found because the backslashes that end an escaped text pair up (`endsUnescaped_escape`).
-/

namespace Lisp

/-! ## Scanning -/

namespace Lexeme

/-- Scanning one written character and going on. -/
theorem string_escapeChar_append (c : Char) (cs : List Char) :
    string false (Quoted.escapeChar c ++ cs) =
      (Quoted.escapeChar c ++ (string false cs).1, (string false cs).2) := by
  unfold Quoted.escapeChar
  split
  · subst_vars
    simp [string]
  split
  · subst_vars
    simp [string]
  split
  · subst_vars
    simp [string]
  split
  · subst_vars
    simp [string]
  split
  · subst_vars
    simp [string]
  · next hslash hquote hline _ _ =>
    have hgoes : (c == '\\' && !false) = false := by simp [hslash]
    rw [List.singleton_append, string, if_neg hline, if_neg (by simp [hquote]), hgoes]
    rfl

/-- The scan of a written text ends at the quote after it. -/
theorem string_escape_append (cs rest : List Char) :
    string false (Quoted.escape cs ++ '\x22' :: rest) = (Quoted.escape cs ++ ['\x22'], rest) := by
  induction cs with
  | nil => simp [string]
  | cons c cs ih =>
    rw [Quoted.escape_cons, List.append_assoc, string_escapeChar_append, ih, List.append_assoc]

/-- A written literal is one token, whatever follows. -/
theorem scan_quote (cs rest : List Char) :
    scan '\x22' (Quoted.escape cs ++ '\x22' :: rest) =
      ⟨.literal .string, Quoted.quote cs, rest⟩ := by
  show Lexeme.mk _ _ _ = _
  rw [string_escape_append]
  rfl

end Lexeme

/-! ## Reading back -/

namespace Quoted

theorem endsUnescaped_concat (cs : List Char) {c : Char} (hc : c ≠ '\\') :
    endsUnescaped (cs ++ [c]) = true := by
  simp [endsUnescaped, hc]

/-- A pair of backslashes does not change whether the backslashes before it pair up. -/
theorem endsUnescaped_pair (cs : List Char) :
    endsUnescaped (cs ++ ['\\', '\\']) = endsUnescaped cs := by
  simp [endsUnescaped, Nat.add_assoc]

/-- The backslashes that end an escaped text pair up. -/
theorem endsUnescaped_escape (cs : List Char) : endsUnescaped (escape cs) = true := by
  induction cs using List.reverseRecOn with
  | nil => rfl
  | append_singleton cs c ih =>
    have happend : escape (cs ++ [c]) = escape cs ++ escapeChar c := by simp [escape]
    have hescaped : ∀ d ≠ '\\', endsUnescaped (escape cs ++ ['\\', d]) = true := by
      intro d hd
      rw [List.append_cons]
      exact endsUnescaped_concat _ hd
    rw [happend]
    unfold escapeChar
    split
    · rw [endsUnescaped_pair, ih]
    split
    · exact hescaped _ (by decide)
    split
    · exact hescaped _ (by decide)
    split
    · exact hescaped _ (by decide)
    split
    · exact hescaped _ (by decide)
    · exact endsUnescaped_concat _ (by assumption)

theorem body_quote (cs : List Char) : body (quote cs) = escape cs := by
  have hdrop : dropOpening (quote cs) = escape cs ++ ['\x22'] := rfl
  rw [body, hdrop, dropClosing, List.dropLast_concat, endsUnescaped_escape]
  simp

/-- The literal that is written for a text stands for that text. -/
@[simp] theorem meaning_quote (cs : List Char) : meaning (quote cs) = cs := by
  rw [meaning, body_quote, unescape_escape]

end Quoted

end Lisp
