import Mathlib.Data.List.TakeWhile
import Mathlib.Tactic.IntervalCases
import Lisp.Token.Scan

/-!
# Where a token ends

A token is the longest one at the front of a text, so that its end depends on what follows. It
depends on no more than the next character, and for most classes only on whether that character is
one of a word.

- `Stops`: a text that a run of characters of a class does not go on into.
- `EndsAlike`: two texts before which a token of a class ends alike.
- `Lexeme.scan_endsAlike`: what follows a token may be changed for a text before which it ends
  alike.
-/

namespace Lisp

/-! ## Runs of characters -/

/-- A text that does not begin with a character of a class. -/
def Stops (p : Char → Bool) (rest : List Char) : Prop := ∀ d, rest.head? = some d → p d = false

namespace Stops

variable {p q : Char → Bool} {t rest : List Char} {d : Char}

theorem nil (p : Char → Bool) : Stops p [] := nofun

theorem cons (hd : p d = false) (rest : List Char) : Stops p (d :: rest) := by
  intro e he
  cases he
  exact hd

/-- A text that a larger class does not go on into. -/
theorem mono (hq : Stops q rest) (hpq : ∀ d, p d = true → q d = true) : Stops p rest := by
  intro d hd
  have hqd := hq d hd
  by_cases hpd : p d = true
  · rw [hpq d hpd] at hqd
    cases hqd
  · simpa using hpd

theorem dropWhile (p : Char → Bool) (cs : List Char) : Stops p (cs.dropWhile p) := by
  intro d hd
  have := List.head?_dropWhile_not p cs
  rw [hd] at this
  exact this

theorem takeWhile_append (ht : ∀ d ∈ t, p d = true) (hr : Stops p rest) :
    (t ++ rest).takeWhile p = t := by
  rw [List.takeWhile_append_of_pos ht]
  cases rest with
  | nil => simp
  | cons d rest => simp [hr d rfl]

theorem dropWhile_append (ht : ∀ d ∈ t, p d = true) (hr : Stops p rest) :
    (t ++ rest).dropWhile p = rest := by
  rw [List.dropWhile_append_of_pos ht]
  cases rest with
  | nil => rfl
  | cons d rest => simp [hr d rfl]

/-- What two texts begin with is the same, if neither of them goes on with a class after a common
front. -/
theorem any_head?_append {rest' : List Char} (hr : Stops p rest) (hr' : Stops p rest')
    (t : List Char) : (t ++ rest).head?.any p = (t ++ rest').head?.any p := by
  have hany : ∀ {rest : List Char}, Stops p rest → rest.head?.any p = false := by
    intro rest h
    cases rest with
    | nil => rfl
    | cons d rest => exact h d rfl
  cases t with
  | nil => rw [List.nil_append, List.nil_append, hany hr, hany hr']
  | cons d t => rfl

end Stops

/-! ## Character classes -/

/-- The decimal digits. -/
def digits : List Char := ['0', '1', '2', '3', '4', '5', '6', '7', '8', '9']

theorem mem_digits {d : Char} (hd : d.isDigit = true) : d ∈ digits := by
  have hbounds : 48 ≤ d.toNat ∧ d.toNat ≤ 57 := by
    have hval : 48 ≤ d.val ∧ d.val ≤ 57 := by simpa [Char.isDigit] using hd
    exact ⟨UInt32.le_iff_toNat_le.1 hval.1, UInt32.le_iff_toNat_le.1 hval.2⟩
  rw [← Char.ofNat_toNat d]
  obtain ⟨hlow, hhigh⟩ := hbounds
  generalize d.toNat = n at hlow hhigh
  interval_cases n <;> decide

theorem isWord_of_isDigit {d : Char} (hd : d.isDigit = true) : isWord d = true := by
  have hall : digits.all isWord = true := by decide
  exact List.all_eq_true.1 hall d (mem_digits hd)

theorem isWord_of_isSkipped {c : Char} (hc : isSkipped c = true) : isWord c = false := by
  simp only [isSkipped, Bool.or_eq_true, beq_iff_eq, or_assoc] at hc
  rcases hc with rfl | rfl | rfl | rfl | rfl | rfl | rfl <;> decide

/-- The characters that an integer can go on with, as an integer or as a float. -/
def isNumeric (d : Char) : Bool := d.isDigit || d == '.'

theorem isWord_of_isNumeric {d : Char} (hd : isNumeric d = true) : isWord d = true := by
  rcases Bool.or_eq_true_iff.1 hd with hd | hd
  · exact isWord_of_isDigit hd
  · rw [eq_of_beq hd]
    decide

/-! ## Ends -/

/-- Two texts before which a token of a class ends alike: they begin with the same character, or
the second one with the end of a line, or with any character between words if the class is one of
words. -/
inductive EndsAlike (kind : Token.Kind) (rest : List Char) : List Char → Prop
  | head {rest' : List Char} : rest'.head? = rest.head? → EndsAlike kind rest rest'
  | line {rest' : List Char} : Stops (· != '\n') rest' → EndsAlike kind rest rest'
  | word {rest' : List Char} : kind ≠ .comment → kind ≠ .literal .string → Stops isWord rest' →
      EndsAlike kind rest rest'

namespace EndsAlike

variable {kind : Token.Kind} {rest rest' : List Char} {p : Char → Bool}

/-- A class of word characters that did not go on before does not go on now. -/
theorem stops (h : EndsAlike kind rest rest') (hp : ∀ d, p d = true → isWord d = true)
    (hr : Stops p rest) : Stops p rest' := by
  cases h with
  | head hhead =>
    intro d hd
    exact hr d (hhead ▸ hd)
  | line hline =>
    intro d hd
    have hd := hline d hd
    simp only [bne_eq_false_iff_eq] at hd
    subst hd
    by_cases hpd : p '\n' = true
    · exact absurd (hp _ hpd) (by decide)
    · simpa using hpd
  | word _ _ hword => exact hword.mono hp

/-- A token that only the end of a line ends does so again. -/
theorem stops_line (h : EndsAlike kind rest rest') (hk : kind = .comment ∨ kind = .literal .string)
    (hr : Stops (· != '\n') rest) : Stops (· != '\n') rest' := by
  cases h with
  | head hhead =>
    intro d hd
    exact hr d (hhead ▸ hd)
  | line hline => exact hline
  | word hcomment hstring _ =>
    rcases hk with rfl | rfl
    · exact absurd rfl hcomment
    · exact absurd rfl hstring

end EndsAlike

namespace Lexeme

variable {c : Char} {cs t rest rest' : List Char} {kind : Token.Kind} {p : Char → Bool}

theorem run_endsAlike (hr : Stops p rest') :
    run kind p c (cs.takeWhile p ++ rest') = ⟨kind, c :: cs.takeWhile p, rest'⟩ := by
  have ht : ∀ d ∈ cs.takeWhile p, p d = true := fun _ => List.mem_takeWhile_imp
  rw [run, Stops.takeWhile_append ht hr, Stops.dropWhile_append ht hr]

theorem word_endsAlike (hr : Stops isWord rest') :
    word c (cs.takeWhile isWord ++ rest') =
      ⟨wordKind (c :: cs.takeWhile isWord), c :: cs.takeWhile isWord, rest'⟩ := by
  have ht : ∀ d ∈ cs.takeWhile isWord, isWord d = true := fun _ => List.mem_takeWhile_imp
  rw [word, Stops.takeWhile_append ht hr, Stops.dropWhile_append ht hr]

/-- A number ends before a character that is neither a digit nor a point, and a number with a point
in it before any character but a digit. -/
theorem number_endsAlike (h : number c cs = ⟨kind, c :: t, rest⟩)
    (hends : EndsAlike kind rest rest') : number c (t ++ rest') = ⟨kind, c :: t, rest'⟩ := by
  have hwhole : ∀ d ∈ cs.takeWhile Char.isDigit, d.isDigit = true := fun _ => List.mem_takeWhile_imp
  unfold number at h
  split at h
  next after hdrop =>
    cases h
    have hstop : Stops Char.isDigit rest' :=
      hends.stops (fun _ => isWord_of_isDigit) (.dropWhile _ _)
    have hfraction : ∀ d ∈ after.takeWhile Char.isDigit, d.isDigit = true :=
      fun _ => List.mem_takeWhile_imp
    have hpoint : Stops Char.isDigit ('.' :: (after.takeWhile Char.isDigit ++ rest')) :=
      .cons (by decide) _
    rw [number, List.append_assoc, List.cons_append, Stops.dropWhile_append hwhole hpoint]
    show Lexeme.mk _ _ _ = _
    rw [Stops.takeWhile_append hwhole hpoint, Stops.takeWhile_append hfraction hstop,
      Stops.dropWhile_append hfraction hstop]
  next hpoint =>
    cases h
    have hbefore : Stops isNumeric (cs.dropWhile Char.isDigit) := by
      intro d hd
      have hdigit := Stops.dropWhile Char.isDigit cs d hd
      rw [isNumeric, hdigit, Bool.false_or, beq_eq_false_iff_ne]
      rintro rfl
      obtain ⟨after, hafter⟩ := List.head?_eq_some_iff.1 hd
      exact hpoint after hafter
    have hnumeric : Stops isNumeric rest' := hends.stops (fun _ => isWord_of_isNumeric) hbefore
    have hstop : Stops Char.isDigit rest' := hnumeric.mono fun d hd => by simp [isNumeric, hd]
    rw [number, Stops.dropWhile_append hwhole hstop, Stops.takeWhile_append hwhole hstop]
    split
    · next after hafter => exact absurd (hnumeric '.' rfl) (by decide)
    · rfl

/-- A string that was cut short ends before the end of a line, and any other string before any
text. -/
theorem string_endsAlike {escaped : Bool} (h : string escaped cs = (t, rest))
    (hends : EndsAlike (.literal .string) rest rest') :
    string escaped (t ++ rest') = (t, rest') := by
  fun_induction string escaped cs generalizing t with
  | case1 escaped =>
    cases h
    have hline := hends.stops_line (.inr rfl) (.nil _)
    cases rest' with
    | nil => rfl
    | cons d rest' =>
      have hd : d = '\n' := by simpa using hline d rfl
      simp [string, hd]
  | case2 escaped cs =>
    cases h
    have hline := hends.stops_line (.inr rfl) (.cons (by simp) _)
    cases rest' with
    | nil => rfl
    | cons d rest' =>
      have hd : d = '\n' := by simpa using hline d rfl
      simp [string, hd]
  | case3 escaped c cs hc hquote =>
    cases h
    simp [string, hquote]
  | case4 escaped c cs hc hquote text after hscan ih =>
    cases h
    have ih := ih hscan
    simp [string, hc, hquote, ih]

/-- Digits that follow a number belong to it. -/
theorem number_stops (c : Char) (cs : List Char) : Stops Char.isDigit (number c cs).rest := by
  unfold number
  split
  · exact .dropWhile _ _
  · exact .dropWhile _ _

/-- A mark that begins another one ends where that one does not go on. -/
theorem tilde_endsAlike (h : scan '~' cs = ⟨kind, '~' :: t, rest⟩)
    (hends : EndsAlike kind rest rest') : scan '~' (t ++ rest') = ⟨kind, '~' :: t, rest'⟩ := by
  have hsingle : single? '~' = none := by decide
  unfold scan at h
  simp only [hsingle, if_pos] at h
  split at h
  next after =>
    cases h
    simp [scan, hsingle]
  next hat =>
    cases h
    have hbefore : Stops (· == '@') cs := by
      intro d hd
      rw [beq_eq_false_iff_ne]
      rintro rfl
      obtain ⟨after, hafter⟩ := List.head?_eq_some_iff.1 hd
      exact hat after hafter
    have hstop := hends.stops (p := (· == '@')) (fun d hd => by rw [eq_of_beq hd]; decide) hbefore
    cases rest' with
    | nil => simp [scan, hsingle]
    | cons d rest' =>
      have hd : d ≠ '@' := by simpa using hstop d rfl
      simp [scan, hsingle, hd]

/-- A character that begins no mark, comment, string or keyword. -/
structure IsPlain (c : Char) : Prop where
  single : single? c = none
  tilde : c ≠ '~'
  comment : c ≠ ';'
  quote : c ≠ '\x22'
  colon : c ≠ ':'

/-- Such a character begins a number or a word, or is illegal. -/
theorem scan_plain (hc : IsPlain c) (cs : List Char) :
    scan c cs =
      if c.isDigit || (c = '-' && (cs.head?.any Char.isDigit)) then number c cs
      else if isControl c then ⟨.illegal, [c], cs⟩
      else word c cs := by
  unfold scan
  simp only [hc.single, if_neg hc.tilde, if_neg hc.comment, if_neg hc.quote, if_neg hc.colon]

/-- Only a number and a word look at the character after the first one, and both end where no digit
follows. -/
theorem plain_endsAlike (hc : IsPlain c) (h : scan c cs = ⟨kind, c :: t, rest⟩)
    (hsplit : t ++ rest = cs) (hends : EndsAlike kind rest rest') :
    scan c (t ++ rest') = ⟨kind, c :: t, rest'⟩ := by
  have hbegins (hbefore : Stops Char.isDigit rest) :
      (t ++ rest').head?.any Char.isDigit = cs.head?.any Char.isDigit := by
    have hafter := hends.stops (fun _ => isWord_of_isDigit) hbefore
    rw [← hsplit, hafter.any_head?_append hbefore]
  rw [scan_plain hc] at h ⊢
  split at h
  next hnumber =>
    have hbefore : Stops Char.isDigit rest := by
      have := number_stops c cs
      rwa [h] at this
    rw [hbegins hbefore, if_pos hnumber, number_endsAlike h hends]
  next hnumber =>
  split at h
  next hcontrol =>
    cases h
    have hminus : c ≠ '-' := by
      rintro rfl
      exact absurd hcontrol (by decide)
    have hdigit : c.isDigit = false := by
      by_cases hd : c.isDigit = true
      · exact absurd (by simp [hd]) hnumber
      · simpa using hd
    simp [hminus, hdigit, hcontrol]
  next hcontrol =>
    cases h
    have hword : Stops isWord (cs.dropWhile isWord) := .dropWhile _ _
    have hbefore := hword.mono fun _ => isWord_of_isDigit
    rw [hbegins hbefore, if_neg hnumber, if_neg hcontrol,
      word_endsAlike (hends.stops (fun _ => id) hword)]

/-- What follows a token may be changed for a text before which it ends alike. -/
theorem scan_endsAlike (h : scan c cs = ⟨kind, c :: t, rest⟩)
    (hends : EndsAlike kind rest rest') : scan c (t ++ rest') = ⟨kind, c :: t, rest'⟩ := by
  have hsplit : t ++ rest = cs := by
    obtain ⟨u, htext, hcs⟩ := scan_split c cs
    rw [h] at htext hcs
    cases htext
    exact hcs
  cases hsingle : single? c with
  | some kind' =>
    simp only [scan, hsingle] at h ⊢
    cases h
    rfl
  | none =>
    by_cases htilde : c = '~'
    · subst htilde
      exact tilde_endsAlike h hends
    by_cases hcomment : c = ';'
    · subst hcomment
      cases h
      have hline := hends.stops_line (.inl rfl) (.dropWhile _ _)
      exact run_endsAlike hline
    by_cases hquote : c = '\x22'
    · subst hquote
      cases h
      have hstring := string_endsAlike (t := (string false cs).1) rfl hends
      show Lexeme.mk _ _ _ = _
      rw [hstring]
    by_cases hcolon : c = ':'
    · subst hcolon
      cases h
      exact run_endsAlike (hends.stops (fun _ => id) (.dropWhile _ _))
    exact plain_endsAlike ⟨hsingle, htilde, hcomment, hquote, hcolon⟩ h hsplit hends

end Lexeme

end Lisp
