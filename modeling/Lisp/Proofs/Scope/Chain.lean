import Mathlib.Data.Fintype.Card
import Lisp.Proofs.Scope.Frames

/-!
# The way outward

- `Arena.Depth`: the number of frames on the way outward from a scope, all of them there.
- `Depth.le_size`: no way outward passes more frames than there are places, so that the bound of
  `Arena.find?` never cuts a search short (`find?_eq_findWithin`).
- `Depth.transport`: the way outward is the same in another arena that has the same links.
-/

namespace Lisp.Arena

variable {a b : Arena} {s t : Scope} {f : Frame} {m n : Nat}

/-- From a scope outward there are so many frames, the last of them within no other scope. -/
inductive Depth (a : Arena) : Scope → Nat → Prop
  | outermost {s : Scope} {f : Frame} : a.frame? s = some f → f.outer = none → Depth a s 1
  | within {s o : Scope} {f : Frame} {n : Nat} :
      a.frame? s = some f → f.outer = some o → Depth a o n → Depth a s (n + 1)

namespace Depth

theorem frame (hd : a.Depth s n) : ∃ f, a.frame? s = some f := by
  cases hd with
  | outermost hf _ => exact ⟨_, hf⟩
  | within hf _ _ => exact ⟨_, hf⟩

theorem of_outermost (hd : a.Depth s n) (hf : a.frame? s = some f) (ho : f.outer = none) :
    n = 1 := by
  cases hd with
  | outermost _ _ => rfl
  | within hf' ho' _ =>
    rw [hf] at hf'
    cases hf'
    rw [ho] at ho'
    cases ho'

theorem of_within (hd : a.Depth s n) (hf : a.frame? s = some f) (ho : f.outer = some t) :
    ∃ k, n = k + 1 ∧ a.Depth t k := by
  cases hd with
  | outermost hf' ho' =>
    rw [hf] at hf'
    cases hf'
    rw [ho] at ho'
    cases ho'
  | within hf' ho' hd' =>
    rw [hf] at hf'
    cases hf'
    rw [ho] at ho'
    cases ho'
    exact ⟨_, rfl, hd'⟩

theorem unique (hm : a.Depth s m) (hn : a.Depth s n) : m = n := by
  induction hm generalizing n with
  | outermost hf ho => exact (hn.of_outermost hf ho).symm
  | within hf ho _ ih =>
    obtain ⟨k, rfl, hk⟩ := hn.of_within hf ho
    rw [ih hk]

/-- Every smaller depth is met on the way outward. -/
theorem exists_of_lt (hd : a.Depth s n) (hm : m < n) : ∃ t, a.Depth t (m + 1) := by
  induction hd with
  | outermost hf ho => exact ⟨_, by rw [show m = 0 by omega]; exact .outermost hf ho⟩
  | @within s o f k hf ho hd' ih =>
    by_cases hk : m < k
    · exact ih hk
    · exact ⟨_, by rw [show m = k by omega]; exact .within hf ho hd'⟩

/-- No way outward passes more frames than there are places: scopes of different depth are
different, and so are their places. -/
theorem le_size (hd : a.Depth s n) : n ≤ a.slots.size := by
  have hex : ∀ k : Fin n, ∃ t, a.Depth t (k.val + 1) := fun k => hd.exists_of_lt k.isLt
  choose scope hscope using hex
  have hlt : ∀ k, (scope k).index < a.slots.size := by
    intro k
    obtain ⟨f, hf⟩ := (hscope k).frame
    obtain ⟨slot, hslot, -, -⟩ := frame?_eq_some_iff.1 hf
    exact (Array.getElem?_eq_some_iff.1 hslot).1
  have hinj : Function.Injective fun k => (⟨(scope k).index, hlt k⟩ : Fin a.slots.size) := by
    intro j k hjk
    obtain ⟨f, hf⟩ := (hscope j).frame
    obtain ⟨g, hg⟩ := (hscope k).frame
    have hsame : scope j = scope k := eq_of_index_eq hf hg (congrArg Fin.val hjk)
    have hdepth := (hscope j).unique (hsame ▸ hscope k)
    exact Fin.ext (by omega)
  simpa using Fintype.card_le_of_injective _ hinj

/-- The way outward is the same in an arena that has, for the scopes of some class, the same links
under other names. -/
theorem transport {r : Scope → Scope} {P : Scope → Prop} (hd : a.Depth s n) (hs : P s)
    (hlink : ∀ h f, P h → a.frame? h = some f →
      ∃ g, b.frame? (r h) = some g ∧ g.outer = f.outer.map r ∧ ∀ o, f.outer = some o → P o) :
    b.Depth (r s) n := by
  induction hd with
  | outermost hf ho =>
    obtain ⟨g, hg, hgo, -⟩ := hlink _ _ hs hf
    exact .outermost hg (by rw [hgo, ho]; rfl)
  | within hf ho _ ih =>
    obtain ⟨g, hg, hgo, hP⟩ := hlink _ _ hs hf
    exact .within hg (by rw [hgo, ho]; rfl) (ih (hP _ ho))

end Depth

/-! ## Searches -/

/-- A search goes no further than the way outward. -/
theorem findWithin_eq (hd : a.Depth s n) (name : String) (hn : n ≤ m) :
    a.findWithin name m s = a.findWithin name n s := by
  induction hd generalizing m with
  | outermost hf ho =>
    obtain ⟨m, rfl⟩ := Nat.exists_eq_add_of_le' hn
    simp [findWithin, hf, ho]
  | within hf ho _ ih =>
    obtain ⟨m, rfl⟩ := Nat.exists_eq_add_of_le' (Nat.le_trans (Nat.le_add_left 1 _) hn)
    simp only [findWithin, hf, ho]
    rw [ih (by omega)]

/-- A search is not cut short by its bound. -/
theorem find?_eq_findWithin (hd : a.Depth s n) (name : String) :
    a.find? s name = a.findWithin name n s :=
  findWithin_eq hd name hd.le_size

end Lisp.Arena
