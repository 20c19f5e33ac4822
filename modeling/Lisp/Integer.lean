/-!
# Machine integers

Integers are signed words of 64 bits. No operation wraps: a result is either exact or refused.

- `Integer.ofInt?`: the word for a mathematical integer, if there is one.
-/

namespace Lisp.Integer

/-- Whether a mathematical integer is a signed word of 64 bits. -/
def Fits (i : Int) : Prop := -0x8000000000000000 ≤ i ∧ i < 0x8000000000000000

instance (i : Int) : Decidable (Fits i) := inferInstanceAs (Decidable (_ ∧ _))

/-- The word for a mathematical integer, if it is in range. -/
def ofInt? (i : Int) : Option Int64 :=
  if Fits i then some (Int64.ofInt i) else none

/-- The word stands for the integer that it was made from. -/
theorem toInt_of_ofInt? {i : Int} {w : Int64} (h : ofInt? i = some w) : w.toInt = i := by
  unfold ofInt? at h
  split at h
  · next hi =>
    cases h
    have hlow : -(Int64.size / 2 : Int) ≤ i := hi.1
    have hhigh : i < ((Int64.size : Int) + 1) / 2 := hi.2
    rw [Int64.toInt_ofInt, Int.bmod_eq_of_le hlow hhigh]
  · cases h

theorem fits_toInt (w : Int64) : Fits w.toInt := by
  have hlow := w.le_toInt
  have hhigh := w.toInt_lt
  exact ⟨hlow, hhigh⟩

/-- Every word is the word for the integer that it stands for. -/
theorem ofInt?_toInt (w : Int64) : ofInt? w.toInt = some w := by
  rw [ofInt?, if_pos (fits_toInt w), Int64.ofInt_toInt]

end Lisp.Integer
