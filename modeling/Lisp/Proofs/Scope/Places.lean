import Lisp.Proofs.Scope.Census

/-!
# Occupied and free places

Whether a place holds a frame is kept twice, in the place itself and in the list of free places. The
two agree after all operations, so that a new frame never takes the place of another, and the number
of frames is known from the lengths alone.

- `WellFormed.free_perm`: the list of free places is the places without a frame, in some order.
- `WellFormed.countP_add_size_free`: every place is either occupied or listed as free.
- `WellFormed.live_create`, `live_bind`, `live_set`: how the number of frames changes. For
  collections see `WellFormed.live_collect`.
- `bookkeeping_exact`: all of it, after every sequence of operations.
-/

namespace Lisp.Arena

variable {a : Arena} {i : Nat}

/-! ## Free places -/

/-- The free places are those that there are and that hold no frame. -/
theorem WellFormed.mem_free_iff (hw : a.WellFormed) :
    i ∈ a.free ↔ i < a.slots.size ∧ a.isOccupied i = false := by
  rw [hw.mem_free]
  unfold isOccupied
  cases hslot : a.slots[i]? with
  | none => simpa using hslot
  | some slot =>
    have hi : i < a.slots.size := (Array.getElem?_eq_some_iff.1 hslot).1
    simp [hi]

/-- The list of free places is the places without a frame, in some order. -/
theorem WellFormed.free_perm (hw : a.WellFormed) :
    a.free.toList.Perm ((List.range a.slots.size).filter fun i => !a.isOccupied i) := by
  rw [List.perm_ext_iff_of_nodup hw.nodup (List.nodup_range.filter _)]
  intro i
  rw [Array.mem_toList_iff, hw.mem_free_iff, List.mem_filter, List.mem_range,
    Bool.not_eq_eq_eq_not, Bool.not_true]

/-- Occupied places are counted by their numbers, or one after the other. -/
theorem countP_isOccupied (a : Arena) :
    (List.range a.slots.size).countP a.isOccupied = a.slots.countP (·.frame.isSome) := by
  have hplaces : (List.range a.slots.size).map (a.slots[·]?) = a.slots.toList.map some :=
    List.ext_getElem (by simp) fun i _ _ => by simp
  have hcount := congrArg (List.countP fun slot => (slot.bind Slot.frame).isSome) hplaces
  rw [List.countP_map, List.countP_map] at hcount
  exact hcount.trans Array.countP_toList

/-- Every place is either occupied or listed as free. -/
theorem WellFormed.countP_add_size_free (hw : a.WellFormed) :
    a.slots.countP (·.frame.isSome) + a.free.size = a.slots.size := by
  have hall := List.length_eq_length_filter_add (l := List.range a.slots.size) a.isOccupied
  have hfree := hw.free_perm.length_eq
  rw [List.length_range, ← List.countP_eq_length_filter, countP_isOccupied] at hall
  rw [Array.length_toList] at hfree
  rw [hfree, ← hall]

/-- The number of frames is that of the occupied places. -/
theorem WellFormed.live_eq_countP (hw : a.WellFormed) :
    a.live = a.slots.countP (·.frame.isSome) := by
  rw [live, ← hw.countP_add_size_free, Nat.add_sub_cancel_right]

/-! ## Occupied places -/

/-- A new frame goes into no occupied place. -/
theorem WellFormed.index_create_ne (hw : a.WellFormed) (hi : a.isOccupied i = true)
    (outer : Option Scope) : (a.create outer).1.index ≠ i := by
  rintro rfl
  unfold isOccupied at hi
  cases hslot : a.slots[(a.create outer).1.index]? with
  | none => simp [hslot] at hi
  | some slot => simp [hslot, hw.create_free outer hslot] at hi

/-- A new frame leaves all other places as they are. -/
theorem WellFormed.slots_create_of_ne (hw : a.WellFormed) {outer : Option Scope}
    (hi : (a.create outer).1.index ≠ i) : (a.create outer).2.slots[i]? = a.slots[i]? := by
  rw [hw.slots_create, if_neg hi.symm]

/-- So does a frame of parameters. -/
theorem WellFormed.slots_bind_of_ne (hw : a.WellFormed) {outer : Scope} {params : List String}
    {args : List Value} (hi : (a.bind outer params args).1.index ≠ i) :
    (a.bind outer params args).2.slots[i]? = a.slots[i]? := by
  have hset : ∀ (b : Arena) name v,
      (b.set (a.create (some outer)).1 name v).slots[i]? = b.slots[i]? := by
    intro b name v
    rw [slots_set, if_neg fun hand => hi hand.1.symm]
  rw [bind_eq, eq_setAll (·.slots[i]?) hset]
  exact hw.slots_create_of_ne hi

/-! ## The number of frames -/

theorem WellFormed.live_create (hw : a.WellFormed) (outer : Option Scope) :
    (a.create outer).2.live = a.live + 1 := by
  have hle := hw.free_size_le
  unfold live Arena.create
  cases hb : a.free.back? with
  | none =>
    simp only [Array.size_push]
    omega
  | some i =>
    obtain ⟨ys, hys⟩ := Array.back?_eq_some_iff.1 hb
    simp only [Array.size_modify, Array.size_pop]
    rw [hys, Array.size_push] at hle ⊢
    omega

theorem live_set (a : Arena) (s : Scope) (name : String) (v : Value) :
    (a.set s name v).live = a.live := by
  unfold live Arena.set
  split
  · rw [Array.size_modify]
  · rfl

theorem WellFormed.live_bind (hw : a.WellFormed) (outer : Scope) (params : List String)
    (args : List Value) : (a.bind outer params args).2.live = a.live + 1 := by
  rw [bind_eq, eq_setAll live fun b name v => live_set b _ name v]
  exact hw.live_create (some outer)

/-- **The bookkeeping of places is exact.** Whatever was done to an arena before, with whatever
handles: the list of free places names each place without a frame once, and nothing else. So a new
frame goes into no occupied place and leaves those as they are. The number of frames is that of the
occupied places, as there are no more free places than places. A new frame raises it by one, a
binding leaves it, and a collection lowers it by the number that it returns. -/
theorem bookkeeping_exact (ops : List Operation) :
    let a := after ops
    a.free.toList.Nodup ∧
    (∀ i, i ∈ a.free ↔ i < a.slots.size ∧ a.isOccupied i = false) ∧
    (∀ i, a.isOccupied i = true →
      (∀ outer, (a.create outer).1.index ≠ i ∧ (a.create outer).2.slots[i]? = a.slots[i]?) ∧
      ∀ outer params args, (a.bind outer params args).1.index ≠ i ∧
        (a.bind outer params args).2.slots[i]? = a.slots[i]?) ∧
    a.live = a.slots.countP (·.frame.isSome) ∧ a.free.size ≤ a.slots.size ∧
    (∀ outer, (a.create outer).2.live = a.live + 1) ∧
    (∀ outer params args, (a.bind outer params args).2.live = a.live + 1) ∧
    (∀ scope name v, (a.set scope name v).live = a.live) ∧
    ∀ roots, (a.collect roots).2.live + (a.collect roots).1 = a.live := by
  intro a
  have hw : a.WellFormed := wellFormed_after ops
  refine ⟨hw.nodup, fun i => hw.mem_free_iff, fun i hi => ⟨fun outer => ?_, ?_⟩, hw.live_eq_countP,
    hw.free_size_le, hw.live_create, hw.live_bind, a.live_set, hw.live_collect⟩
  · have hne := hw.index_create_ne hi outer
    exact ⟨hne, hw.slots_create_of_ne hne⟩
  · intro outer params args
    have hne := hw.index_create_ne hi (some outer)
    exact ⟨hne, hw.slots_bind_of_ne hne⟩

end Lisp.Arena
