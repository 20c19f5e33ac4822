import Lisp.Proofs.Decimal.Integer

/-!
# Decimal floats

- `Numeral.IsDecimal`: an optional minus, digits, a point, and further digits if there are any.
- `Numeral.isSome_float?`: every such text is read as a float.
- `Lexeme.isDecimal_of_scan`: the tokens of floats are such texts. So reading refuses none of them.
-/

namespace Lisp

namespace Numeral

/-- A decimal text with a point. -/
inductive IsDecimal : List Char → Prop
  | positive {ds fs : List Char} : ds ≠ [] → (∀ d ∈ ds, d.isDigit = true) →
      (∀ d ∈ fs, d.isDigit = true) → IsDecimal (ds ++ '.' :: fs)
  | negative {ds fs : List Char} : ds ≠ [] → (∀ d ∈ ds, d.isDigit = true) →
      (∀ d ∈ fs, d.isDigit = true) → IsDecimal ('-' :: (ds ++ '.' :: fs))

variable {ds fs : List Char}

theorem isSome_decimal? (hne : ds ≠ []) (hds : ∀ d ∈ ds, d.isDigit = true)
    (hfs : ∀ d ∈ fs, d.isDigit = true) : (decimal? (ds ++ '.' :: fs)).isSome = true := by
  have hpoint : Stops Char.isDigit ('.' :: fs) := .cons (by decide) fs
  have hwhole : (ds ++ '.' :: fs).takeWhile Char.isDigit = ds :=
    Stops.takeWhile_append hds hpoint
  have hrest : (ds ++ '.' :: fs).dropWhile Char.isDigit = '.' :: fs :=
    Stops.dropWhile_append hds hpoint
  have hend : fs.dropWhile Char.isDigit = [] := by
    simpa using Stops.dropWhile_append hfs (.nil Char.isDigit)
  unfold decimal?
  simp only [hwhole, hrest, splitFraction, hend]
  rw [if_neg fun hempty => hne hempty.1]
  rfl

/-- Every decimal with a point is read as a float. -/
theorem isSome_float? {cs : List Char} (h : IsDecimal cs) : (float? cs).isSome = true := by
  cases h with
  | @positive ds fs hne hds hfs =>
    have hsign : splitSign (ds ++ '.' :: fs) = (false, ds ++ '.' :: fs) := by
      obtain ⟨d, ds, rfl⟩ := List.exists_cons_of_ne_nil hne
      have hd := hds d (by simp)
      rw [List.cons_append]
      unfold splitSign
      split
      next heq =>
        obtain ⟨rfl, -⟩ := List.cons.inj heq
        exact absurd hd (by decide)
      next heq =>
        obtain ⟨rfl, -⟩ := List.cons.inj heq
        exact absurd hd (by decide)
      next => rfl
    obtain ⟨bits, hbits⟩ := Option.isSome_iff_exists.1 (isSome_decimal? hne hds hfs)
    simp [float?, hsign, hbits]
  | negative hne hds hfs =>
    obtain ⟨bits, hbits⟩ := Option.isSome_iff_exists.1 (isSome_decimal? hne hds hfs)
    simp [float?, splitSign, hbits]

end Numeral

/-! ## The tokens of floats -/

namespace Lexeme

open Numeral

/-- The text of a float token is a decimal with a point. -/
theorem isDecimal_of_scan {c : Char} {cs : List Char} (h : (scan c cs).kind = .literal .float) :
    IsDecimal (scan c cs).text := by
  obtain ⟨hscan, hbegins⟩ := scan_eq_number (.inr rfl) h
  rw [hscan] at h ⊢
  have hdigits : ∀ (ds : List Char), ∀ d ∈ ds.takeWhile Char.isDigit, d.isDigit = true :=
    fun _ _ => List.mem_takeWhile_imp
  unfold number at h ⊢
  split
  next fs hdrop =>
    rcases Bool.or_eq_true_iff.1 hbegins with hc | hminus
    · have hwhole : ∀ d ∈ c :: cs.takeWhile Char.isDigit, d.isDigit = true :=
        List.forall_mem_cons.2 ⟨hc, hdigits cs⟩
      exact .positive (List.cons_ne_nil _ _) hwhole (hdigits fs)
    · obtain ⟨hc, hhead⟩ := Bool.and_eq_true_iff.1 hminus
      obtain rfl := of_decide_eq_true hc
      refine .negative ?_ (hdigits cs) (hdigits fs)
      cases cs with
      | nil => cases hhead
      | cons d cs =>
        have hd : d.isDigit = true := hhead
        rw [List.takeWhile_cons, if_pos hd]
        exact List.cons_ne_nil _ _
  next hint =>
    split at h
    next heq => exact absurd heq (hint _)
    next => cases h

end Lexeme

end Lisp
