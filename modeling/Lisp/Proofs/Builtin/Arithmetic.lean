import Mathlib.Algebra.Order.Ring.Abs
import Mathlib.Algebra.Order.Ring.Int
import Lisp.Builtin.Call

/-!
# Integer arithmetic

What the four operations give for two machine integers is said by the integers that these stand for.

- `IsQuotient`: the quotient truncated toward zero, by the remainder that it leaves. There is one
  for every divisor but zero, and no other (`isQuotient_iff`).
- `Integer.fits_tdiv_iff`: of all quotients of machine integers a single one is out of range.
- `Number.IsExact`: a result that is exact if it is in range, and refused otherwise.
- `integers_never_wrap`: the results of all four operations, and those of the built-in functions.
-/

namespace Lisp

/-! ## Quotients -/

/-- The quotient of two integers, truncated toward zero: what remains is smaller than the divisor,
and zero or of the sign of the dividend. -/
def IsQuotient (a b q : Int) : Prop :=
  ∃ r, a = q * b + r ∧ |r| < |b| ∧ (r = 0 ∨ r.sign = a.sign)

namespace IsQuotient

variable {a b p q : Int}

/-- Two remainders of the same sign are less than a divisor apart. -/
theorem abs_sub_lt {r s : Int} (hr : |r| < |b|) (hs : |s| < |b|) (hrsign : r = 0 ∨ r.sign = a.sign)
    (hssign : s = 0 ∨ s.sign = a.sign) : |r - s| < |b| := by
  rcases hrsign with rfl | hrsign
  · rwa [zero_sub, abs_neg]
  rcases hssign with rfl | hssign
  · rwa [sub_zero]
  have hsame : r.sign = s.sign := hrsign.trans hssign.symm
  rcases lt_trichotomy s 0 with hneg | rfl | hpos
  · have hr0 : r < 0 :=
      Int.sign_eq_neg_one_iff_neg.1 (hsame.trans (Int.sign_eq_neg_one_of_neg hneg))
    rw [abs_of_neg hr0] at hr
    rw [abs_of_neg hneg] at hs
    exact abs_lt.2 ⟨by omega, by omega⟩
  · rwa [sub_zero]
  · have hr0 : 0 < r := Int.sign_eq_one_iff_pos.1 (hsame.trans (Int.sign_eq_one_of_pos hpos))
    rw [abs_of_pos hr0] at hr
    rw [abs_of_pos hpos] at hs
    exact abs_lt.2 ⟨by omega, by omega⟩

theorem unique (hp : IsQuotient a b p) (hq : IsQuotient a b q) : p = q := by
  obtain ⟨r, hpr, hr, hrsign⟩ := hp
  obtain ⟨s, hqs, hs, hssign⟩ := hq
  -- The remainders differ by a multiple of the divisor that is smaller than the divisor.
  have hmultiple : r - s = (q - p) * b := by rw [Int.sub_mul]; omega
  have hdvd : |b| ∣ r - s := (abs_dvd b _).2 (hmultiple ▸ Int.dvd_mul_left _ _)
  have hzero : (q - p) * b = 0 := by
    rw [← hmultiple]
    exact Int.eq_zero_of_abs_lt_dvd hdvd (abs_sub_lt hr hs hrsign hssign)
  have hb : b ≠ 0 := by
    rintro rfl
    exact absurd (abs_nonneg r) (not_le.2 hr)
  have hsub := (Int.mul_eq_zero.1 hzero).resolve_right hb
  omega

theorem tdiv (hb : b ≠ 0) : IsQuotient a b (a.tdiv b) := by
  refine ⟨a.tmod b, (Int.tdiv_mul_add_tmod a b).symm, ?_, ?_⟩
  · have hlt : (a.tmod b).natAbs < b.natAbs := by
      rw [Int.natAbs_tmod]
      exact Nat.mod_lt _ (Int.natAbs_pos.2 hb)
    rw [Int.abs_eq_natAbs, Int.abs_eq_natAbs]
    exact Int.ofNat_lt.2 hlt
  · have hsign := Int.sign_tmod a b
    split at hsign
    · exact .inl (Int.sign_eq_zero_iff_zero.1 hsign)
    · exact .inr hsign

end IsQuotient

/-- Every divisor but zero has one quotient. -/
theorem isQuotient_iff {a b q : Int} (hb : b ≠ 0) : IsQuotient a b q ↔ q = a.tdiv b := by
  constructor
  · exact fun hq => hq.unique (.tdiv hb)
  · rintro rfl
    exact .tdiv hb

/-- The quotient of machine integers is one, except for the least of them by minus one. -/
theorem Integer.fits_tdiv_iff {a b : Int} (ha : Fits a) (hb : b ≠ 0) :
    Fits (a.tdiv b) ↔ ¬(a = -2 ^ 63 ∧ b = -1) := by
  unfold Fits at ha ⊢
  rcases eq_or_ne b (-1) with rfl | hneg
  · rw [Int.tdiv_neg, Int.tdiv_one]
    omega
  rcases eq_or_ne b 1 with rfl | hone
  · rw [Int.tdiv_one]
    omega
  · -- A divisor of at least two halves the dividend.
    have hhalf : (a.tdiv b).natAbs ≤ a.natAbs / 2 := by
      rw [Int.natAbs_tdiv]
      exact Nat.div_le_div_left (by omega) (by decide)
    omega

/-! ## Results in range -/

namespace Number

/-- What an operation has to give whose result is `i`, and for which the machine has the word `w`:
the word if it is exact, and otherwise no word at all. -/
def IsExact (i : Int) (w : Int64) (result : Except ArithmeticError Number) : Prop :=
  (Integer.Fits i → w.toInt = i ∧ result = .ok (.int w)) ∧
    (¬Integer.Fits i → result = .error .overflow)

theorem isExact_ofInt {i : Int} {w : Int64} (hw : Int64.ofInt i = w) :
    IsExact i w (ofInt i) := by
  subst hw
  constructor
  · intro hi
    have hword : Integer.ofInt? i = some (Int64.ofInt i) := if_pos hi
    exact ⟨Integer.toInt_of_ofInt? hword, by rw [ofInt, hword]⟩
  · intro hi
    rw [ofInt, Integer.ofInt?, if_neg hi]

theorem isExact_add (a b : Int64) :
    IsExact (a.toInt + b.toInt) (a + b) (add (.int a) (.int b)) :=
  isExact_ofInt (by rw [Int64.ofInt_add, Int64.ofInt_toInt, Int64.ofInt_toInt])

theorem isExact_sub (a b : Int64) :
    IsExact (a.toInt - b.toInt) (a - b) (sub (.int a) (.int b)) :=
  isExact_ofInt (by rw [Int64.ofInt_sub, Int64.ofInt_toInt, Int64.ofInt_toInt])

theorem isExact_mul (a b : Int64) :
    IsExact (a.toInt * b.toInt) (a * b) (mul (.int a) (.int b)) :=
  isExact_ofInt (by rw [Int64.ofInt_mul, Int64.ofInt_toInt, Int64.ofInt_toInt])

/-- A zero divisor is refused before anything is divided. -/
theorem div_zero (a : Number) : div a (.int 0) = .error .divisionByZero := rfl

theorem isExact_div (a : Int64) {b : Int64} (hb : b ≠ 0) :
    IsExact (a.toInt.tdiv b.toInt) (a / b) (div (.int a) (.int b)) := by
  have hdiv : div (.int a) (.int b) = ofInt (a.toInt.tdiv b.toInt) :=
    if_neg (by simpa [isZero] using hb)
  rw [hdiv]
  refine isExact_ofInt ?_
  rw [Int64.ofInt_tdiv a.minValue_le_toInt a.toInt_le b.minValue_le_toInt b.toInt_le,
    Int64.ofInt_toInt, Int64.ofInt_toInt]

theorem toInt_ne_zero {b : Int64} (hb : b ≠ 0) : b.toInt ≠ 0 :=
  fun h => hb (Int64.toInt_inj.1 h)

/-- A zero divisor, the quotient that is out of range, and all others. -/
theorem div_cases (a b : Int64) :
    (b = 0 ∧ div (.int a) (.int b) = .error .divisionByZero) ∨
    (b ≠ 0 ∧ (a.toInt = -2 ^ 63 ∧ b.toInt = -1) ∧ div (.int a) (.int b) = .error .overflow) ∨
    (b ≠ 0 ∧ ¬(a.toInt = -2 ^ 63 ∧ b.toInt = -1) ∧ div (.int a) (.int b) = .ok (.int (a / b)) ∧
      (a / b).toInt = a.toInt.tdiv b.toInt) := by
  by_cases hb : b = 0
  · subst hb
    exact .inl ⟨rfl, div_zero _⟩
  have hexact := isExact_div a hb
  have hfits := Integer.fits_tdiv_iff (Integer.fits_toInt a) (toInt_ne_zero hb)
  by_cases hleast : a.toInt = -2 ^ 63 ∧ b.toInt = -1
  · exact .inr (.inl ⟨hb, hleast, hexact.2 fun hfit => hfits.1 hfit hleast⟩)
  · obtain ⟨hword, hdiv⟩ := hexact.1 (hfits.2 hleast)
    exact .inr (.inr ⟨hb, hleast, hdiv, hword⟩)

end Number

/-! ## Calls -/

namespace Builtin

/-- The operation on numbers that a built-in function carries out, if it does. -/
def operation? : Builtin → Option (Number → Number → Except ArithmeticError Number)
  | add => some Number.add
  | sub => some Number.sub
  | mul => some Number.mul
  | div => some Number.div
  | _ => none

variable {b : Builtin} {operation : Number → Number → Except ArithmeticError Number}

/-- A call with two numbers carries the operation out. Nothing is printed. -/
theorem call_of_operation? (hb : b.operation? = some operation) (span : Span) {v w : Value}
    {m n : Number} (hv : v.number? = some m) (hw : w.number? = some n) (sink : Sink) :
    b.call span [v, w] sink =
      (match operation m n with
        | .ok r => .ok (.ofNumber r)
        | .error cause => .error (.arithmetic b.name cause span), sink) := by
  have hanswer : b.answer span [v, w] = b.arithmetic operation span [v, w] := by
    cases b with
    | add | sub | mul | div => cases hb; rfl
    | _ => cases hb
  have harithmetic : b.arithmetic operation span [v, w] =
      match operation m n with
      | .ok r => .ok (.value (.ofNumber r))
      | .error cause => .error (.arithmetic b.name cause span) := by
    simp only [arithmetic, expectNumbers, expectNumber, hv, hw]
    rfl
  rw [call, hanswer, harithmetic]
  cases operation m n <;> rfl

end Builtin

namespace Number

/-- **Integer arithmetic never wraps.** For all machine integers, a sum, a difference or a product
is the exact one if that is in range, and refused as an overflow otherwise. A quotient is refused as
a division by zero exactly when the divisor is zero, and as an overflow exactly for the least
integer by minus one; otherwise it is the only quotient that is truncated toward zero. The built-in
function of an operation returns what the operation gives, or the reason why it gives nothing under
the name of the function at the span of the call, and prints nothing. -/
theorem integers_never_wrap (a b : Int64) :
    IsExact (a.toInt + b.toInt) (a + b) (add (.int a) (.int b)) ∧
    IsExact (a.toInt - b.toInt) (a - b) (sub (.int a) (.int b)) ∧
    IsExact (a.toInt * b.toInt) (a * b) (mul (.int a) (.int b)) ∧
    (div (.int a) (.int b) = .error .divisionByZero ↔ b = 0) ∧
    (div (.int a) (.int b) = .error .overflow ↔ a.toInt = -2 ^ 63 ∧ b.toInt = -1) ∧
    (b ≠ 0 → ¬(a.toInt = -2 ^ 63 ∧ b.toInt = -1) →
      div (.int a) (.int b) = .ok (.int (a / b)) ∧
        ∀ q, IsQuotient a.toInt b.toInt q ↔ q = (a / b).toInt) ∧
    ∀ op operation, Builtin.operation? op = some operation → ∀ span sink,
      (∀ w, operation (.int a) (.int b) = .ok (.int w) →
        op.call span [.int a, .int b] sink = (.ok (.int w), sink)) ∧
      ∀ cause, operation (.int a) (.int b) = .error cause →
        op.call span [.int a, .int b] sink =
          (.error (.arithmetic op.name cause span), sink) := by
  refine ⟨isExact_add a b, isExact_sub a b, isExact_mul a b, ?_, ?_, ?_, ?_⟩
  · rcases div_cases a b with ⟨hb, hdiv⟩ | ⟨hb, -, hdiv⟩ | ⟨hb, -, hdiv, -⟩
    · exact iff_of_true hdiv hb
    · exact iff_of_false (by simp [hdiv]) hb
    · exact iff_of_false (by simp [hdiv]) hb
  · rcases div_cases a b with ⟨rfl, hdiv⟩ | ⟨-, hleast, hdiv⟩ | ⟨-, hleast, hdiv, -⟩
    · simp [hdiv]
    · exact iff_of_true hdiv hleast
    · exact iff_of_false (by simp [hdiv]) hleast
  · intro hb hleast
    rcases div_cases a b with ⟨hzero, -⟩ | ⟨-, hleast', -⟩ | ⟨-, -, hdiv, hword⟩
    · exact absurd hzero hb
    · exact absurd hleast' hleast
    · exact ⟨hdiv, fun q => hword ▸ isQuotient_iff (toInt_ne_zero hb)⟩
  · intro op operation hop span sink
    have hcall : op.call span [.int a, .int b] sink = _ :=
      Builtin.call_of_operation? hop span rfl rfl sink
    refine ⟨fun w hw => ?_, fun cause hcause => ?_⟩
    · rw [hcall, hw]
      rfl
    · rw [hcall, hcause]

end Number

end Lisp
