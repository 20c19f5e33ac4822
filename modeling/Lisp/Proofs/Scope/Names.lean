import Mathlib.Data.List.Nodup
import Lisp.Scope.Arena

/-!
# The names that a scope sees

- `Arena.mem_sortNames`, `Arena.pairwise_sortNames`: names in order, each once.
- `Arena.mem_identifiers_iff`: a scope sees exactly the names that have a value in it.
-/

namespace Lisp.Arena

variable {a : Arena} {s : Scope} {name : String} {names : List String}

/-! ## Names in order -/

/-- Of equal names the first one is kept. -/
theorem eraseDups_sublist : ∀ names : List String, names.eraseDups.Sublist names
  | [] => .slnil
  | n :: ns => by
    rw [List.eraseDups_cons]
    exact ((eraseDups_sublist _).trans List.filter_sublist).cons_cons n
termination_by names => names.length
decreasing_by exact Nat.lt_succ_of_le (List.length_filter_le _ _)

theorem nodup_eraseDups : ∀ names : List String, names.eraseDups.Nodup
  | [] => .nil
  | n :: ns => by
    rw [List.eraseDups_cons]
    refine List.nodup_cons.2 ⟨fun hn => ?_, nodup_eraseDups _⟩
    have hother := (List.mem_filter.1 (List.mem_eraseDups.1 hn)).2
    simp at hother
termination_by names => names.length
decreasing_by exact Nat.lt_succ_of_le (List.length_filter_le _ _)

@[simp] theorem mem_sortNames : name ∈ sortNames names ↔ name ∈ names := by
  rw [sortNames, List.mem_eraseDups, List.mem_mergeSort]

/-- Each name comes before all that follow it. -/
theorem pairwise_sortNames (names : List String) : (sortNames names).Pairwise (· < ·) := by
  have htrans : ∀ a b c : String, decide (a ≤ b) = true → decide (b ≤ c) = true →
      decide (a ≤ c) = true := fun a b c hab hbc =>
    decide_eq_true (String.le_trans (of_decide_eq_true hab) (of_decide_eq_true hbc))
  have htotal : ∀ a b : String, (decide (a ≤ b) || decide (b ≤ a)) = true :=
    fun a b => by simpa using String.le_total a b
  have hsorted := List.pairwise_mergeSort htrans htotal names
  refine ((hsorted.sublist (eraseDups_sublist _)).and (nodup_eraseDups _)).imp ?_
  rintro a b ⟨hle, hne⟩
  exact String.not_le.1 fun hge => hne (String.le_antisymm (of_decide_eq_true hle) hge)

/-! ## Names in sight -/

/-- A name is listed by a walk outward if a search as long as the walk finds it. -/
theorem mem_namesWithin_iff (n : Nat) (s : Scope) :
    name ∈ a.namesWithin n s ↔ (a.findWithin name n s).isSome = true := by
  induction n generalizing s with
  | zero => simp [namesWithin, findWithin]
  | succ n ih =>
    unfold namesWithin findWithin
    cases a.frame? s with
    | none => simp
    | some f =>
      have hhere : name ∈ f.bindings.map Prod.fst ↔ (f.bindings.lookup name).isSome = true := by
        simp [List.lookup_isSome_iff]
      dsimp only
      rw [List.mem_append, hhere]
      cases f.bindings.lookup name with
      | some v => simp
      | none =>
        cases f.outer with
        | none => simp
        | some outer => simpa using ih outer

/-- A scope sees the names that have a value in it. -/
theorem mem_identifiers_iff :
    name ∈ a.identifiers s ↔ (a.find? s name).isSome = true := by
  rw [identifiers, mem_sortNames]
  exact mem_namesWithin_iff _ s

end Lisp.Arena
