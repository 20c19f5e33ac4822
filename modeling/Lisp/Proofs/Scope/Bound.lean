import Mathlib.Data.Set.Basic
import Lisp.Proofs.Scope.Reachable
import Lisp.Proofs.Scope.Renaming

/-!
# The values that are bound

- `Arena.bound`: the values that are bound in some frame. Each operation is described by what it
  adds to them: making a frame and releasing frames add nothing, a binding adds its value.
- `Arena.mem_pairUp`: parameters stand for arguments, for a list of them, or for `nil`.
- `Arena.forall_bound_set`, `Arena.forall_bound_bind`: so all values that are bound keep a property.
- `Arena.bound_of_find?`: what a search finds is bound.
-/

namespace Lisp.Arena

variable {a : Arena} {s : Scope} {v : Value}

/-- The values that are bound in some frame. -/
def bound (a : Arena) : Set Value :=
  {v | ∃ s frame name, a.frame? s = some frame ∧ (name, v) ∈ frame.bindings}

theorem bound_empty : bound {} = ∅ := by
  refine Set.eq_empty_of_forall_notMem ?_
  rintro v ⟨s, frame, name, hframe, -⟩
  cases hframe

theorem bound_create (a : Arena) (outer : Option Scope) :
    (a.create outer).2.bound ⊆ a.bound := by
  rintro v ⟨s, frame, name, hframe, hmem⟩
  obtain ⟨slot, hslot, hgen, hs⟩ := frame?_eq_some_iff.1 hframe
  have hold : a.slots[s.index]? = some slot → v ∈ a.bound := fun h =>
    ⟨s, frame, name, frame?_eq_some_iff.2 ⟨slot, h, hgen, hs⟩, hmem⟩
  -- Where the new frame is, nothing is bound.
  have hnew : slot.frame = some ⟨outer, []⟩ → v ∈ a.bound := by
    intro h
    rw [hs] at h
    cases h
    cases hmem
  unfold create at hslot
  cases hback : a.free.back? with
  | none =>
    simp only [hback, Array.getElem?_push] at hslot
    split at hslot
    · cases hslot
      exact hnew rfl
    · exact hold hslot
  | some i =>
    simp only [hback, Array.getElem?_modify] at hslot
    split at hslot
    · obtain ⟨slot', -, rfl⟩ := Option.map_eq_some_iff.1 hslot
      exact hnew rfl
    · exact hold hslot

theorem bound_set (a : Arena) (s : Scope) (name : String) {w : Value}
    (hv : v ∈ (a.set s name w).bound) : v = w ∨ v ∈ a.bound := by
  obtain ⟨h, frame, n, hframe, hmem⟩ := hv
  rw [frame?_set] at hframe
  split at hframe
  · obtain ⟨old, hold, rfl⟩ := Option.map_eq_some_iff.1 hframe
    rcases Bindings.mem_set hmem with heq | hmem
    · exact .inl (congrArg Prod.snd heq)
    · exact .inr ⟨h, old, n, hold, hmem⟩
  · exact .inr ⟨h, frame, n, hframe, hmem⟩

theorem bound_setAll (a : Arena) (s : Scope) (pairs : Bindings)
    (hv : v ∈ (pairs.foldl (fun a p => a.set s p.1 p.2) a).bound) :
    (∃ p ∈ pairs, v = p.2) ∨ v ∈ a.bound := by
  induction pairs generalizing a with
  | nil => exact .inr hv
  | cons p pairs ih =>
    rcases ih (a.set s p.1 p.2) hv with ⟨q, hq, rfl⟩ | hset
    · exact .inl ⟨q, List.mem_cons_of_mem _ hq, rfl⟩
    · exact (bound_set a s p.1 hset).imp (fun heq => ⟨p, List.mem_cons_self, heq⟩) id

/-- Parameters stand for arguments, for a list of them, or for `nil`. -/
theorem mem_pairUp {params : List String} {args : List Value} {p : String × Value}
    (hp : p ∈ pairUp params args) :
    p.2 = .nil ∨ p.2 ∈ args ∨ ∃ rest, rest ⊆ args ∧ p.2 = .list rest := by
  induction params generalizing args with
  | nil => cases hp
  | cons q ps ih =>
    unfold pairUp at hp
    split at hp
    · cases hr : ps.head? with
      | none => simp [hr] at hp
      | some rest =>
        simp only [hr, Option.map_some, Option.toList_some, List.mem_singleton] at hp
        subst hp
        exact .inr (.inr ⟨args, List.Subset.refl args, rfl⟩)
    · rcases List.mem_cons.1 hp with rfl | hp
      · cases args with
        | nil => exact .inl rfl
        | cons v vs => exact .inr (.inl List.mem_cons_self)
      · rcases ih hp with hnil | hmem | ⟨rest, hrest, heq⟩
        · exact .inl hnil
        · exact .inr (.inl (List.mem_of_mem_tail hmem))
        · exact .inr (.inr ⟨rest, fun v hv => List.mem_of_mem_tail (hrest hv), heq⟩)

theorem bound_bind (a : Arena) (outer : Scope) (params : List String) (args : List Value)
    (hv : v ∈ (a.bind outer params args).2.bound) :
    (∃ p ∈ pairUp params args, v = p.2) ∨ v ∈ a.bound := by
  rw [bind_eq] at hv
  exact (bound_setAll _ _ _ hv).imp id fun h => bound_create a _ h

/-! ## Properties of all values that are bound -/

variable {P : Value → Prop}

theorem forall_bound_set (ha : ∀ v ∈ a.bound, P v) (s : Scope) (name : String) (hv : P v) :
    ∀ w ∈ (a.set s name v).bound, P w := by
  intro w hw
  rcases bound_set a s name hw with rfl | hw
  · exact hv
  · exact ha w hw

/-- The values that a call binds have a property if its arguments and the lists of them do. -/
theorem forall_bound_bind (ha : ∀ v ∈ a.bound, P v) (outer : Scope) (params : List String)
    {args : List Value} (hnil : P .nil) (hargs : ∀ v ∈ args, P v)
    (hlist : ∀ rest, rest ⊆ args → P (.list rest)) :
    ∀ v ∈ (a.bind outer params args).2.bound, P v := by
  intro v hv
  rcases bound_bind a outer params args hv with ⟨p, hp, rfl⟩ | hv
  · rcases mem_pairUp hp with heq | hmem | ⟨rest, hrest, heq⟩
    · exact heq ▸ hnil
    · exact hargs _ hmem
    · exact heq ▸ hlist rest hrest
  · exact ha v hv

/-! ## Searches and collections -/

/-- What a search finds is bound in some frame. -/
theorem bound_of_find? {name : String} (hv : a.find? s name = some v) : v ∈ a.bound := by
  have hwithin : ∀ n s, a.findWithin name n s = some v → v ∈ a.bound := by
    intro n
    induction n with
    | zero =>
      intro s hnone
      cases hnone
    | succ n ih =>
      intro s hsome
      cases hframe : a.frame? s with
      | none => simp [findWithin, hframe] at hsome
      | some frame =>
        simp only [findWithin, hframe] at hsome
        cases hl : frame.bindings.lookup name with
        | some w =>
          simp only [hl, Option.some.injEq] at hsome
          subst hsome
          obtain ⟨before, after, hbs, -⟩ := List.lookup_eq_some_iff.1 hl
          exact ⟨s, frame, name, hframe, by simp [hbs]⟩
        | none =>
          cases ho : frame.outer with
          | none => simp [hl, ho] at hsome
          | some outer =>
            simp only [hl, ho] at hsome
            exact ih outer hsome
  exact hwithin _ s hv

theorem bound_collect (a : Arena) (roots : List Scope) : (a.collect roots).2.bound ⊆ a.bound := by
  rintro v ⟨s, frame, name, hframe, hmem⟩
  exact ⟨s, frame, name, frame?_of_collect hframe, hmem⟩

end Lisp.Arena
