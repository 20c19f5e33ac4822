import Lisp.Decimal.Numeral
import Lisp.Proofs.Token.Ends

/-!
# Decimal integers

- `Numeral.Denotes`: the integer that digits after an optional minus stand for.
- `Numeral.int?_of_denotes`: reading gives that integer, if it is in range.
- `Numeral.denotes_toString`: the text of an integer stands for it.
- `Lexeme.denotes_of_scan`, `Lexeme.scan_of_denotes`: these texts are the tokens of integers.
-/

namespace Lisp

namespace Numeral

/-- The integer that a decimal text stands for. -/
inductive Denotes : List Char → Int → Prop
  | positive {ds : List Char} : ds ≠ [] → (∀ d ∈ ds, d.isDigit = true) →
      Denotes ds (ofDigits ds)
  | negative {ds : List Char} : ds ≠ [] → (∀ d ∈ ds, d.isDigit = true) →
      Denotes ('-' :: ds) (-(ofDigits ds : Int))

theorem nat?_of_digits {ds : List Char} (hne : ds ≠ []) (hds : ∀ d ∈ ds, d.isDigit = true) :
    nat? ds = some (ofDigits ds) := by
  rw [nat?, if_pos ⟨hne, List.all_eq_true.2 hds⟩]

theorem splitSign_of_digits {ds : List Char} (hds : ∀ d ∈ ds, d.isDigit = true) :
    splitSign ds = (false, ds) := by
  unfold splitSign
  split
  · exact absurd (hds '-' (by simp)) (by decide)
  · exact absurd (hds '+' (by simp)) (by decide)
  · rfl

/-- A decimal text is read as the integer that it stands for, if that is in range. -/
theorem int?_of_denotes {cs : List Char} {n : Int} (h : Denotes cs n) :
    int? cs = Integer.ofInt? n := by
  cases h with
  | positive hne hds =>
    rw [int?, splitSign_of_digits hds]
    show (nat? _).bind _ = _
    rw [nat?_of_digits hne hds, Option.bind_some, withSign, if_neg Bool.false_ne_true]
  | negative hne hds =>
    rw [int?, splitSign]
    show (nat? _).bind _ = _
    rw [nat?_of_digits hne hds, Option.bind_some, withSign, if_pos rfl]

/-- A decimal text is read exactly when the integer that it stands for is in range. -/
theorem int?_eq_none_iff {cs : List Char} {n : Int} (h : Denotes cs n) :
    int? cs = none ↔ ¬Integer.Fits n := by
  rw [int?_of_denotes h, Integer.ofInt?]
  split
  · simp_all
  · simp_all

/-! ## The text of an integer -/

theorem digits_repr (n : Nat) :
    n.repr.toList ≠ [] ∧ (∀ d ∈ n.repr.toList, d.isDigit = true) ∧ ofDigits n.repr.toList = n := by
  rw [Nat.repr_eq_ofList_toDigits, String.toList_ofList]
  refine ⟨Nat.toDigits_ne_nil, fun d => Nat.isDigit_of_mem_toDigits (by decide) (by decide), ?_⟩
  have := Nat.ofDigitChars_ten_toDigits (n := n)
  rwa [Nat.ofDigitChars_eq_foldl] at this

/-- The text of an integer stands for it. -/
theorem denotes_toString (n : Int) : Denotes (toString n).toList n := by
  cases n with
  | ofNat m =>
    obtain ⟨hne, hds, hvalue⟩ := digits_repr m
    have := Denotes.positive hne hds
    rwa [hvalue] at this
  | negSucc m =>
    obtain ⟨hne, hds, hvalue⟩ := digits_repr (m + 1)
    have := Denotes.negative hne hds
    rw [hvalue] at this
    have htext : (toString (Int.negSucc m)).toList = '-' :: (m + 1).repr.toList := by
      show ("-" ++ (m + 1).repr).toList = _
      rw [String.toList_append]
      rfl
    rwa [htext]

end Numeral

/-! ## The tokens of integers -/

namespace Lexeme

open Numeral

theorem isPlain_of_isDigit {c : Char} (hc : c.isDigit = true) : IsPlain c := by
  have hall : (digits.all fun d => single? d = none ∧ d ≠ '~' ∧ d ≠ ';' ∧ d ≠ '\x22' ∧ d ≠ ':') =
      true := by decide
  obtain ⟨hsingle, htilde, hcomment, hquote, hcolon⟩ :=
    of_decide_eq_true (List.all_eq_true.1 hall c (mem_digits hc))
  exact ⟨hsingle, htilde, hcomment, hquote, hcolon⟩

theorem isPlain_minus : IsPlain '-' := ⟨by decide, by decide, by decide, by decide, by decide⟩

/-- Digits before a text that does not go on with a digit or a point are an integer. -/
theorem number_of_digits {c : Char} {ds rest : List Char} (hds : ∀ d ∈ ds, d.isDigit = true)
    (hr : Stops isNumeric rest) : number c (ds ++ rest) = ⟨.literal .int, c :: ds, rest⟩ := by
  have hstop : Stops Char.isDigit rest := hr.mono fun d hd => by simp [isNumeric, hd]
  rw [number, Stops.dropWhile_append hds hstop, Stops.takeWhile_append hds hstop]
  split
  · exact absurd (hr '.' rfl) (by decide)
  · rfl

/-- A decimal text is the token of an integer before any text that does not go on with a digit or a
point. -/
theorem scan_of_denotes {c : Char} {t rest : List Char} {n : Int} (h : Denotes (c :: t) n)
    (hr : Stops isNumeric rest) : scan c (t ++ rest) = ⟨.literal .int, c :: t, rest⟩ := by
  cases h with
  | positive _ hds =>
    have hc := hds c (by simp)
    rw [scan_plain (isPlain_of_isDigit hc), if_pos (by simp [hc])]
    exact number_of_digits (fun d hd => hds d (by simp [hd])) hr
  | negative hne hds =>
    obtain ⟨d, ds, rfl⟩ := List.exists_cons_of_ne_nil hne
    have hd := hds d (by simp)
    rw [scan_plain isPlain_minus, if_pos (by simp [hd])]
    exact number_of_digits hds hr

theorem single?_ne_number {kind : Literal} (hk : kind = .int ∨ kind = .float) (c : Char) :
    single? c ≠ some (.literal kind) := by
  intro h
  obtain ⟨before, after, hs, -⟩ := List.lookup_eq_some_iff.1 h
  have hmem : (c, Token.Kind.literal kind) ∈ singles := by simp [hs]
  have hall : ∀ p ∈ singles, p.2 ≠ .literal .int ∧ p.2 ≠ .literal .float := by decide
  rcases hk with rfl | rfl
  · exact (hall _ hmem).1 rfl
  · exact (hall _ hmem).2 rfl

theorem wordKind_ne_number {kind : Literal} (hk : kind = .int ∨ kind = .float)
    (text : List Char) : wordKind text ≠ .literal kind := by
  grind [wordKind]

/-- Only a number is an integer or a float. -/
theorem scan_eq_number {kind : Literal} (hk : kind = .int ∨ kind = .float) {c : Char}
    {cs : List Char} (h : (scan c cs).kind = .literal kind) :
    scan c cs = number c cs ∧ (c.isDigit || (c = '-' && (cs.head?.any Char.isDigit))) = true := by
  cases hsingle : single? c with
  | some found =>
    have hfound : found = .literal kind := by simpa only [scan, hsingle] using h
    exact absurd (hfound ▸ hsingle) (single?_ne_number hk c)
  | none =>
    have hplain : IsPlain c := by
      refine ⟨hsingle, ?_, ?_, ?_, ?_⟩
      · rintro rfl
        unfold scan at h
        simp only [hsingle, if_pos] at h
        split at h <;> cases h
      · rintro rfl
        cases h
      · rintro rfl
        cases h
        exact absurd hk (by decide)
      · rintro rfl
        cases h
        exact absurd hk (by decide)
    rw [scan_plain hplain] at h ⊢
    split at h
    next hnumber =>
      rw [if_pos hnumber]
      exact ⟨rfl, hnumber⟩
    next =>
      split at h
      · cases h
      · exact absurd h (wordKind_ne_number hk _)

/-- A number that is no float has no point. -/
theorem text_of_number {c : Char} {cs : List Char} (h : (number c cs).kind = .literal .int) :
    (number c cs).text = c :: cs.takeWhile Char.isDigit := by
  unfold number at h ⊢
  split
  next after hdrop =>
    rw [hdrop] at h
    cases h
  next => rfl

/-- The text of an integer token stands for an integer. -/
theorem denotes_of_scan {c : Char} {cs : List Char} (h : (scan c cs).kind = .literal .int) :
    ∃ n, Denotes (scan c cs).text n := by
  obtain ⟨hscan, hbegins⟩ := scan_eq_number (.inl rfl) h
  rw [hscan] at h ⊢
  rw [text_of_number h]
  have hdigits : ∀ d ∈ cs.takeWhile Char.isDigit, d.isDigit = true :=
    fun _ => List.mem_takeWhile_imp
  rcases Bool.or_eq_true_iff.1 hbegins with hc | hminus
  · exact ⟨_, .positive (by simp) fun d hd => by
      rcases List.mem_cons.1 hd with rfl | hd
      · exact hc
      · exact hdigits d hd⟩
  · obtain ⟨hc, hhead⟩ := Bool.and_eq_true_iff.1 hminus
    obtain rfl := of_decide_eq_true hc
    refine ⟨_, .negative ?_ hdigits⟩
    cases cs with
    | nil => cases hhead
    | cons d cs =>
      have hd : d.isDigit = true := hhead
      rw [List.takeWhile_cons, if_pos hd]
      exact List.cons_ne_nil _ _

end Lexeme

end Lisp
