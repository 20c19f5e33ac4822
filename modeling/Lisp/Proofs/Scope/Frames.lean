import Mathlib.Data.List.Nodup
import Lisp.Scope.Collect

/-!
# What the operations on frames do

Every operation of an arena is described by what it does to the places and to the frames that
handles stand for, so that nothing later has to look into an operation again.

- `Arena.WellFormed`: the free places are exactly those without a frame, each of them listed once.
  Making a frame, binding names and releasing frames all keep it.
- `frame?_create`, `frame?_set`, `frame?_bind`: which frames there are after an operation. A new
  frame takes no other frame's place, and a binding changes the frame of its scope only.
- `frame?_sweep`: a frame in a marked place survives.
-/

namespace Lisp

namespace Arena

variable {a : Arena} {s h : Scope} {f : Frame}

/-- How often a frame was released at a place. -/
def releasesAt (a : Arena) (i : Nat) : Nat := ((a.slots[i]?).map Slot.releases).getD 0

theorem releasesAt_eq_getElem? (a : Arena) (i : Nat) :
    a.releasesAt i = ((a.slots.toList.map Slot.releases)[i]?).getD 0 := by
  simp [releasesAt]

/-- The generation of a place counts its releases, as far as a word of 32 bits can. -/
theorem generationAt_eq (a : Arena) (i : Nat) :
    a.generationAt i = UInt32.ofNat (a.releasesAt i) := by
  unfold generationAt releasesAt
  cases a.slots[i]? with
  | none => rfl
  | some slot => rfl

/-- A handle has a frame when its place holds one of its generation. -/
theorem frame?_eq_some_iff :
    a.frame? s = some f ↔
      ∃ slot, a.slots[s.index]? = some slot ∧ slot.generation = s.generation ∧
        slot.frame = some f := by
  unfold frame?
  cases a.slots[s.index]? with
  | none => simp
  | some slot => by_cases hg : slot.generation = s.generation <;> simp [hg]

/-- A handle whose place has no frame has none either. -/
theorem frame?_eq_none (hp : ∀ slot, a.slots[s.index]? = some slot → slot.frame = none) :
    a.frame? s = none := by
  cases hf : a.frame? s with
  | none => rfl
  | some f =>
    obtain ⟨slot, hslot, -, hframe⟩ := frame?_eq_some_iff.1 hf
    rw [hp slot hslot] at hframe
    cases hframe

theorem contains_iff : a.contains s = true ↔ ∃ f, a.frame? s = some f := by
  unfold contains
  rw [Option.isSome_iff_exists]

/-- Two handles to frames in the same place are the same handle. -/
theorem eq_of_index_eq {g : Frame} (hs : a.frame? s = some f) (hh : a.frame? h = some g)
    (hi : s.index = h.index) : s = h := by
  obtain ⟨slot, hslot, hgen, -⟩ := frame?_eq_some_iff.1 hs
  obtain ⟨slot', hslot', hgen', -⟩ := frame?_eq_some_iff.1 hh
  rw [hi, hslot'] at hslot
  cases hslot
  exact Scope.ext hi (hgen.symm.trans hgen')

/-! ## Well-formed arenas -/

/-- The free places are those without a frame, each of them listed once. -/
structure WellFormed (a : Arena) : Prop where
  nodup : a.free.toList.Nodup
  mem_free : ∀ i, i ∈ a.free ↔ ∃ slot, a.slots[i]? = some slot ∧ slot.frame = none

theorem wellFormed_empty : WellFormed {} where
  nodup := List.nodup_nil
  mem_free i := by simp

/-! ## New frames -/

/-- The place of a new frame was free, or there was no such place. -/
theorem WellFormed.create_free (hw : a.WellFormed) (outer : Option Scope) {slot : Slot}
    (hslot : a.slots[(a.create outer).1.index]? = some slot) : slot.frame = none := by
  unfold create at hslot
  cases hb : a.free.back? with
  | none => simp [hb] at hslot
  | some i =>
    obtain ⟨slot', hs', hf⟩ := (hw.mem_free i).1 (Array.mem_of_back? hb)
    simp only [hb] at hslot
    rw [hs'] at hslot
    cases hslot
    exact hf

/-- A new frame is put into its place, and all other places stay as they are. -/
theorem WellFormed.slots_create (hw : a.WellFormed) (outer : Option Scope) (i : Nat) :
    (a.create outer).2.slots[i]? =
      if i = (a.create outer).1.index then some ⟨a.releasesAt i, some ⟨outer, []⟩⟩
      else a.slots[i]? := by
  unfold create
  cases hb : a.free.back? with
  | none =>
    by_cases hi : i = a.slots.size
    · simp [hi, releasesAt]
    · simp only [Array.getElem?_push, hi, if_false]
  | some j =>
    obtain ⟨slot, hslot, -⟩ := (hw.mem_free j).1 (Array.mem_of_back? hb)
    by_cases hi : i = j
    · subst hi
      simp [Array.getElem?_modify, hslot, releasesAt]
    · simp [Array.getElem?_modify, hi, Ne.symm hi]

/-- The handle to a new frame has the generation of its place. -/
theorem generation_create (a : Arena) (outer : Option Scope) :
    (a.create outer).1.generation = UInt32.ofNat (a.releasesAt (a.create outer).1.index) := by
  unfold create
  cases hb : a.free.back? with
  | none => simp [releasesAt]
  | some j => exact generationAt_eq a j

/-- A new frame is there, and all others are as before. -/
theorem WellFormed.frame?_create (hw : a.WellFormed) (outer : Option Scope) (h : Scope) :
    (a.create outer).2.frame? h =
      if h = (a.create outer).1 then some ⟨outer, []⟩ else a.frame? h := by
  have hslots := hw.slots_create outer h.index
  by_cases hi : h.index = (a.create outer).1.index
  · rw [if_pos hi] at hslots
    have hgen := generation_create a outer
    by_cases hh : h = (a.create outer).1
    · rw [if_pos hh, frame?_eq_some_iff]
      refine ⟨_, hslots, ?_, rfl⟩
      show UInt32.ofNat _ = _
      rw [hh, ← hgen]
    · -- The place is that of the new frame, which has another generation.
      rw [if_neg hh, frame?_eq_none (a := a) fun slot hslot => ?_]
      · unfold frame?
        rw [hslots]
        refine if_neg fun hg => hh ?_
        change UInt32.ofNat _ = _ at hg
        rw [hi, ← hgen] at hg
        exact Scope.ext hi hg.symm
      · exact hw.create_free outer (hi ▸ hslot)
  · rw [if_neg hi] at hslots
    rw [if_neg fun hh => hi (by rw [hh])]
    unfold frame?
    rw [hslots]

/-- A new frame's handle had no frame before. -/
theorem WellFormed.frame?_new (hw : a.WellFormed) (outer : Option Scope) :
    a.frame? (a.create outer).1 = none :=
  frame?_eq_none fun _ hslot => hw.create_free outer hslot

theorem WellFormed.create (hw : a.WellFormed) (outer : Option Scope) :
    (a.create outer).2.WellFormed := by
  have hslots := hw.slots_create outer
  revert hslots
  unfold Arena.create
  cases hb : a.free.back? with
  | none =>
    intro hslots
    refine ⟨hw.nodup, fun i => ?_⟩
    rw [hslots i, hw.mem_free i]
    by_cases hi : i = a.slots.size
    · subst hi
      simp
    · simp [hi]
  | some j =>
    intro hslots
    obtain ⟨ys, hys⟩ := Array.back?_eq_some_iff.1 hb
    have hnodup := hw.nodup
    have hmem := hw.mem_free
    rw [hys] at hnodup hmem ⊢
    rw [Array.toList_push, List.nodup_append] at hnodup
    have hj : j ∉ ys := fun hin => hnodup.2.2 j (Array.mem_toList_iff.2 hin) j (by simp) rfl
    refine ⟨by simpa using hnodup.1, fun i => ?_⟩
    rw [hslots i, Array.pop_push]
    by_cases hi : i = j
    · subst hi
      simp [hj]
    · rw [if_neg hi, ← hmem i]
      simp [hi]

theorem lost_create (a : Arena) (outer : Option Scope) : (a.create outer).2.lost = a.lost := by
  unfold Arena.create
  cases a.free.back? <;> rfl

/-! ## Bindings -/

/-- A binding goes into the frame of its scope, and all other places stay as they are. -/
theorem slots_set (a : Arena) (s : Scope) (name : String) (v : Value) (i : Nat) :
    (a.set s name v).slots[i]? =
      if i = s.index ∧ a.contains s = true then
        (a.slots[i]?).map fun slot => { slot with frame := slot.frame.map (·.set name v) }
      else a.slots[i]? := by
  unfold set
  by_cases hc : a.contains s = true
  · rw [if_pos hc]
    by_cases hi : i = s.index
    · rw [if_pos ⟨hi, hc⟩, Array.getElem?_modify, if_pos hi.symm]
    · rw [if_neg fun hand => hi hand.1, Array.getElem?_modify, if_neg (Ne.symm hi)]
  · rw [if_neg hc, if_neg fun hand => hc hand.2]

/-- A binding changes the frame of its scope and no other. -/
theorem frame?_set (a : Arena) (s : Scope) (name : String) (v : Value) (h : Scope) :
    (a.set s name v).frame? h =
      if h = s then (a.frame? h).map (·.set name v) else a.frame? h := by
  have hslots := a.slots_set s name v h.index
  by_cases hc : h.index = s.index ∧ a.contains s = true
  · rw [if_pos hc] at hslots
    obtain ⟨f, hf⟩ := contains_iff.1 hc.2
    obtain ⟨slot, hslot, hgen, hframe⟩ := frame?_eq_some_iff.1 hf
    rw [hc.1, hslot] at hslots
    unfold frame?
    rw [hc.1, hslots, hslot]
    by_cases hh : h = s
    · subst hh
      simp [Slot.generation] at hgen ⊢
      simp [hgen, hframe]
    · have hne : slot.generation ≠ h.generation := by
        intro hg
        exact hh (Scope.ext hc.1 (hg.symm.trans hgen))
      simp [Slot.generation] at hne ⊢
      simp [hne, hh]
  · rw [if_neg hc] at hslots
    have hsame : (a.set s name v).frame? h = a.frame? h := by
      unfold frame?
      rw [hslots]
    rw [hsame]
    by_cases hh : h = s
    · -- The scope has no frame, so there is nothing to change.
      subst hh
      cases hf : a.frame? h with
      | none => simp
      | some f => exact absurd ⟨rfl, contains_iff.2 ⟨f, hf⟩⟩ hc
    · rw [if_neg hh]

theorem WellFormed.set (hw : a.WellFormed) (s : Scope) (name : String) (v : Value) :
    (a.set s name v).WellFormed := by
  have hfree : (a.set s name v).free = a.free := by
    unfold Arena.set
    split <;> rfl
  refine ⟨hfree ▸ hw.nodup, fun i => ?_⟩
  rw [hfree, hw.mem_free i, slots_set]
  split
  · cases a.slots[i]? <;> simp
  · rfl

/-- Nothing is lost by a binding in a frame that is there. -/
theorem lost_set (hs : a.frame? s = some f) (name : String) (v : Value) :
    (a.set s name v).lost = a.lost := by
  unfold Arena.set
  rw [if_pos (contains_iff.2 ⟨f, hs⟩)]

/-! ## Frames of parameters -/

/-- The bindings after some pairs have been bound in turn. -/
def bindAll (bs : Bindings) (pairs : List (String × Value)) : Bindings :=
  pairs.foldl (fun bs p => bs.set p.1 p.2) bs

/-- Binding several names in one frame changes that frame and no other. -/
theorem frame?_setAll (pairs : List (String × Value)) (a : Arena) (s h : Scope) :
    (pairs.foldl (fun a p => a.set s p.1 p.2) a).frame? h =
      if h = s then (a.frame? h).map fun f => { f with bindings := bindAll f.bindings pairs }
      else a.frame? h := by
  induction pairs generalizing a with
  | nil =>
    rw [List.foldl_nil]
    cases a.frame? h <;> simp [bindAll]
  | cons p pairs ih =>
    rw [List.foldl_cons, ih, frame?_set]
    by_cases hh : h = s
    · cases a.frame? h <;> simp [hh, bindAll, Frame.set]
    · simp [hh]

theorem WellFormed.setAll (pairs : List (String × Value)) (hw : a.WellFormed) (s : Scope) :
    (pairs.foldl (fun a p => a.set s p.1 p.2) a).WellFormed := by
  induction pairs generalizing a with
  | nil => exact hw
  | cons p pairs ih => exact ih (hw.set s p.1 p.2)

theorem lost_setAll (pairs : List (String × Value)) (hs : a.frame? s = some f) :
    (pairs.foldl (fun a p => a.set s p.1 p.2) a).lost = a.lost := by
  induction pairs generalizing a f with
  | nil => rfl
  | cons p pairs ih =>
    have hnext : (a.set s p.1 p.2).frame? s = some (f.set p.1 p.2) := by
      rw [frame?_set, if_pos rfl, hs]
      rfl
    rw [List.foldl_cons, ih hnext, lost_set hs]

/-- A frame of parameters is a new frame in which they are bound. -/
theorem bind_eq (a : Arena) (outer : Scope) (params : List String) (args : List Value) :
    a.bind outer params args =
      ((a.create (some outer)).1, (pairUp params args).foldl
        (fun b p => b.set (a.create (some outer)).1 p.1 p.2) (a.create (some outer)).2) := rfl

/-- A frame of parameters is there, and all others are as before. -/
theorem WellFormed.frame?_bind (hw : a.WellFormed) (outer : Scope) (params : List String)
    (args : List Value) (h : Scope) :
    (a.bind outer params args).2.frame? h =
      if h = (a.create (some outer)).1 then some ⟨some outer, bindAll [] (pairUp params args)⟩
      else a.frame? h := by
  rw [bind_eq, frame?_setAll, hw.frame?_create]
  by_cases hh : h = (a.create (some outer)).1
  · simp [hh]
  · simp [hh]

theorem WellFormed.bind (hw : a.WellFormed) (outer : Scope) (params : List String)
    (args : List Value) : (a.bind outer params args).2.WellFormed :=
  (hw.create (some outer)).setAll _ _

theorem WellFormed.lost_bind (hw : a.WellFormed) (outer : Scope) (params : List String)
    (args : List Value) : (a.bind outer params args).2.lost = a.lost := by
  have hnew : (a.create (some outer)).2.frame? (a.create (some outer)).1 =
      some ⟨some outer, []⟩ := by
    rw [hw.frame?_create, if_pos rfl]
  rw [bind_eq, lost_setAll _ hnew, lost_create]

/-! ## Released frames -/

/-- A place is released when its frame is not in use, and stays as it is otherwise. -/
theorem slots_sweep (a : Arena) (marked : Array Bool) (i : Nat) :
    (a.sweep marked).slots[i]? =
      (a.slots[i]?).map fun slot => if isGarbage marked i slot then slot.release else slot := by
  simp [sweep]

/-- A frame in a marked place survives. -/
theorem frame?_sweep {marked : Array Bool} (hm : marked[s.index]? = some true) :
    (a.sweep marked).frame? s = a.frame? s := by
  unfold frame?
  rw [slots_sweep]
  cases a.slots[s.index]? with
  | none => rfl
  | some slot => simp [isGarbage, hm]

theorem mem_garbage {marked : Array Bool} {i : Nat} :
    i ∈ a.garbage marked ↔ ∃ slot, a.slots[i]? = some slot ∧ isGarbage marked i slot = true := by
  unfold garbage
  rw [Array.mem_filter]
  cases hs : a.slots[i]? with
  | none => simp
  | some slot =>
    have : i < a.slots.size := (Array.getElem?_eq_some_iff.1 hs).1
    simp [this]

theorem WellFormed.sweep (hw : a.WellFormed) (marked : Array Bool) :
    (a.sweep marked).WellFormed := by
  refine ⟨?_, fun i => ?_⟩
  · show (a.free ++ a.garbage marked).toList.Nodup
    rw [Array.toList_append, List.nodup_append]
    refine ⟨hw.nodup, ?_, ?_⟩
    · unfold garbage
      rw [Array.toList_filter, Array.toList_range]
      exact List.nodup_range.filter _
    · -- What is free has no frame, and what is garbage has one.
      intro i hi j hj hij
      subst hij
      obtain ⟨slot, hslot, hnone⟩ := (hw.mem_free i).1 (Array.mem_toList_iff.1 hi)
      obtain ⟨slot', hslot', hg⟩ := mem_garbage.1 (Array.mem_toList_iff.1 hj)
      rw [hslot] at hslot'
      cases hslot'
      simp [isGarbage, hnone] at hg
  · show i ∈ a.free ++ a.garbage marked ↔ _
    rw [Array.mem_append, hw.mem_free, mem_garbage, slots_sweep]
    cases a.slots[i]? with
    | none => simp
    | some slot =>
      by_cases hg : isGarbage marked i slot
      · simp [hg, Slot.release]
      · simp [hg]

end Arena

end Lisp
