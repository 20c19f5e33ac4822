import Lisp.Proofs.Scope.History
import Lisp.Proofs.Scope.Renaming
import Lisp.Proofs.Value.Likeness

/-!
# Which frames a collection leaves

- `Value.Captures`: a function somewhere in a value was made in a scope.
- `Arena.InUse`: the scopes that have a frame and are needed, directly or through other frames. They
  are the ones that `Arena.Reachable` leads to and that have a frame (`inUse_iff`).
- `Arena.mark_sound`: only frames in use get marked. The invariant of the marking loop is that
  everything marked or pending is reachable.
- `WellFormed.live_eq_ncard`: the number of frames that an arena reports is the number of scopes
  that have one.
- `collect_exact`: a collection leaves the frames in use and no others.
-/

namespace Lisp

/-- A function in the value, at any depth of lists, vectors and maps, was made in the scope. -/
inductive Value.Captures (c : Scope) : Value → Prop
  | lambda {params : List String} {body : Form} : Captures c (.lambda params body c)
  | list {v : Value} {vs : List Value} : v ∈ vs → Captures c v → Captures c (.list vs)
  | vector {v : Value} {vs : List Value} : v ∈ vs → Captures c v → Captures c (.vector vs)
  | map {e : Key × Value} {es : List (Key × Value)} :
      e ∈ es → Captures c e.2 → Captures c (.map es)

theorem Value.mem_captured_iff {c : Scope} {v : Value} : c ∈ v.captured ↔ v.Captures c := by
  constructor
  · induction v using itemwise with
    | h v ih =>
      intro hc
      cases v with
      | lambda params body scope =>
        obtain rfl := List.mem_singleton.1 hc
        exact .lambda
      | list vs =>
        obtain ⟨w, hw, hc⟩ := mem_capturedByAll.1 hc
        exact .list hw (ih w hw hc)
      | vector vs =>
        obtain ⟨w, hw, hc⟩ := mem_capturedByAll.1 hc
        exact .vector hw (ih w hw hc)
      | map es =>
        obtain ⟨e, he, hc⟩ := mem_capturedByEntries.1 hc
        exact .map he (ih e.2 (List.mem_map_of_mem he) hc)
      | _ => cases hc
  · intro hc
    induction hc with
    | lambda => exact List.mem_singleton.2 rfl
    | list hv _ ih => exact mem_capturedByAll.2 ⟨_, hv, ih⟩
    | vector hv _ ih => exact mem_capturedByAll.2 ⟨_, hv, ih⟩
    | map he _ ih => exact mem_capturedByEntries.2 ⟨_, he, ih⟩

namespace Arena

variable {a : Arena} {roots : List Scope} {s : Scope} {marked : Array Bool}

/-! ## Frames in use -/

/-- The scopes that have a frame. -/
def scopes (a : Arena) : Set Scope := {s | a.contains s = true}

/-- The scopes of the frames that some roots need: those of the roots themselves, the scopes around
frames in use, and the scopes of functions that are bound in them. A scope without a frame needs
nothing. -/
inductive InUse (a : Arena) (roots : List Scope) : Scope → Prop
  | root {s : Scope} : s ∈ roots → s ∈ a.scopes → InUse a roots s
  | outer {s o : Scope} {f : Frame} : InUse a roots s → a.frame? s = some f → f.outer = some o →
      o ∈ a.scopes → InUse a roots o
  | bound {s c : Scope} {f : Frame} {name : String} {v : Value} : InUse a roots s →
      a.frame? s = some f → (name, v) ∈ f.bindings → v.Captures c → c ∈ a.scopes → InUse a roots c

theorem inUse_iff : a.InUse roots s ↔ s ∈ a.scopes ∧ a.Reachable roots s := by
  constructor
  · intro hs
    induction hs with
    | root hmem hlive => exact ⟨hlive, .root hmem⟩
    | outer _ hf ho hlive ih => exact ⟨hlive, .link ih.2 hf (Frame.mem_links.2 (.inl ho))⟩
    | bound _ hf hb hc hlive ih =>
      have hlink := Frame.mem_links.2 (.inr ⟨_, hb, Value.mem_captured_iff.2 hc⟩)
      exact ⟨hlive, .link ih.2 hf hlink⟩
  · rintro ⟨hlive, hs⟩
    induction hs with
    | root hmem => exact .root hmem hlive
    | link _ hf hl ih =>
      have hfrom := ih (contains_iff.2 ⟨_, hf⟩)
      rcases Frame.mem_links.1 hl with ho | ⟨b, hb, hc⟩
      · exact .outer hfrom hf ho hlive
      · exact .bound hfrom hf hb (Value.mem_captured_iff.1 hc) hlive

/-- Only frames in use get marked. -/
theorem mark_sound {pending : List Scope} (hpending : ∀ s ∈ pending, a.Reachable roots s)
    (hmarked : ∀ s ∈ a.scopes, IsMarked marked s → a.Reachable roots s) :
    ∀ s ∈ a.scopes, IsMarked (a.mark marked pending) s → a.Reachable roots s := by
  fun_induction Arena.mark a marked pending with
  | case1 marked => exact hmarked
  | case2 marked t rest hnone ih => exact ih (List.forall_mem_cons.1 hpending).2 hmarked
  | case3 marked t rest f hf hfresh ih =>
    obtain ⟨ht, hrest⟩ := List.forall_mem_cons.1 hpending
    refine ih (fun s hs => ?_) fun s hs hm => ?_
    · rcases List.mem_append.1 hs with hlink | hs
      · exact .link ht hf hlink
      · exact hrest s hs
    · obtain ⟨g, hg⟩ := contains_iff.1 hs
      by_cases hst : s.index = t.index
      · -- The place that is marked now is that of the pending scope.
        rw [eq_of_index_eq hg hf hst]
        exact ht
      · refine hmarked s hs ?_
        unfold IsMarked at hm ⊢
        rwa [Array.getElem?_set, if_neg (Ne.symm hst)] at hm
  | case4 marked t rest f hf hold ih => exact ih (List.forall_mem_cons.1 hpending).2 hmarked

/-- A marked frame is one that the roots lead to. -/
theorem reachable_of_isMarked (hs : s ∈ a.scopes)
    (hm : IsMarked (a.mark (Array.replicate a.slots.size false) roots) s) :
    a.Reachable roots s := by
  have hnone : ∀ s ∈ a.scopes, IsMarked (Array.replicate a.slots.size false) s →
      a.Reachable roots s := by
    intro s _ hm
    unfold IsMarked at hm
    rw [Array.getElem?_replicate] at hm
    split at hm <;> cases hm
  exact mark_sound (fun s hs => .root hs) hnone s hs hm

/-- A frame that is left after a collection is one that the roots lead to. -/
theorem reachable_of_collect (hs : s ∈ (a.collect roots).2.scopes) : a.Reachable roots s := by
  obtain ⟨f, hf⟩ := contains_iff.1 hs
  obtain ⟨slot', hslot', -, hframe⟩ := frame?_eq_some_iff.1 hf
  rw [collect_snd, slots_sweep] at hslot'
  obtain ⟨slot, -, hsweep⟩ := Option.map_eq_some_iff.1 hslot'
  refine reachable_of_isMarked (contains_iff.2 ⟨f, frame?_of_collect hf⟩) ?_
  -- A place that still holds a frame was not swept.
  by_contra hm
  unfold IsMarked at hm
  split at hsweep
  · subst hsweep
    cases hframe
  · rename_i hkept
    subst hsweep
    simp [isGarbage, hframe, hm] at hkept

/-- A collection leaves the frames in use. -/
theorem scopes_collect (a : Arena) (roots : List Scope) :
    (a.collect roots).2.scopes = {s | a.InUse roots s} := by
  ext s
  show s ∈ (a.collect roots).2.scopes ↔ a.InUse roots s
  rw [inUse_iff]
  constructor
  · intro hs
    obtain ⟨f, hf⟩ := contains_iff.1 hs
    exact ⟨contains_iff.2 ⟨f, frame?_of_collect hf⟩, reachable_of_collect hs⟩
  · rintro ⟨hs, hreach⟩
    obtain ⟨f, hf⟩ := contains_iff.1 hs
    exact contains_iff.2 ⟨f, frame?_collect hreach hf⟩

/-- What a collection leaves needs the same frames as before. -/
theorem reachable_collect (hs : a.Reachable roots s) : (a.collect roots).2.Reachable roots s := by
  induction hs with
  | root hmem => exact .root hmem
  | link hreach hf hl ih => exact .link ih (frame?_collect hreach hf) hl

/-! ## Counting frames -/

/-- The places of the frames are those that are not free. -/
theorem WellFormed.index_image_scopes (hw : a.WellFormed) :
    Scope.index '' a.scopes = ↑(Finset.range a.slots.size \ a.free.toList.toFinset) := by
  ext i
  simp only [Set.mem_image, Finset.coe_sdiff, Set.mem_sdiff, Finset.mem_coe, Finset.mem_range,
    List.mem_toFinset, Array.mem_toList_iff, hw.mem_free]
  constructor
  · rintro ⟨s, hs, rfl⟩
    obtain ⟨f, hf⟩ := contains_iff.1 hs
    obtain ⟨slot, hslot, -, hframe⟩ := frame?_eq_some_iff.1 hf
    refine ⟨(Array.getElem?_eq_some_iff.1 hslot).1, ?_⟩
    rintro ⟨slot', hslot', hnone⟩
    rw [hslot] at hslot'
    cases hslot'
    rw [hframe] at hnone
    cases hnone
  · rintro ⟨hlt, hnot⟩
    have hslot : a.slots[i]? = some a.slots[i] := Array.getElem?_eq_getElem hlt
    obtain ⟨f, hf⟩ := Option.ne_none_iff_exists'.1 fun hnone => hnot ⟨_, hslot, hnone⟩
    exact ⟨⟨i, a.slots[i].generation⟩,
      contains_iff.2 ⟨f, frame?_eq_some_iff.2 ⟨_, hslot, rfl, hf⟩⟩, rfl⟩

theorem injOn_index_scopes (a : Arena) : Set.InjOn Scope.index a.scopes := by
  intro s hs t ht hst
  obtain ⟨f, hf⟩ := contains_iff.1 hs
  obtain ⟨g, hg⟩ := contains_iff.1 ht
  exact eq_of_index_eq hf hg hst

theorem WellFormed.toFinset_free_subset (hw : a.WellFormed) :
    a.free.toList.toFinset ⊆ Finset.range a.slots.size := by
  intro i hi
  rw [List.mem_toFinset, Array.mem_toList_iff] at hi
  obtain ⟨slot, hslot, -⟩ := (hw.mem_free i).1 hi
  exact Finset.mem_range.2 (Array.getElem?_eq_some_iff.1 hslot).1

theorem WellFormed.card_free (hw : a.WellFormed) :
    a.free.toList.toFinset.card = a.free.size := by
  rw [List.toFinset_card_of_nodup hw.nodup, Array.length_toList]

/-- There are no more free places than places. -/
theorem WellFormed.free_size_le (hw : a.WellFormed) : a.free.size ≤ a.slots.size := by
  rw [← hw.card_free]
  exact (Finset.card_le_card hw.toFinset_free_subset).trans_eq (Finset.card_range _)

/-- The number of frames is the number of scopes that have one. -/
theorem WellFormed.live_eq_ncard (hw : a.WellFormed) : a.live = a.scopes.ncard := by
  rw [← a.injOn_index_scopes.ncard_image, hw.index_image_scopes, Set.ncard_coe_finset,
    Finset.card_sdiff_of_subset hw.toFinset_free_subset, Finset.card_range, hw.card_free]
  rfl

theorem WellFormed.finite_scopes (hw : a.WellFormed) : a.scopes.Finite := by
  refine Set.Finite.of_finite_image ?_ a.injOn_index_scopes
  rw [hw.index_image_scopes]
  exact Finset.finite_toSet _

/-- A collection counts the frames that it releases. -/
theorem WellFormed.live_collect (hw : a.WellFormed) (roots : List Scope) :
    (a.collect roots).2.live + (a.collect roots).1 = a.live := by
  have hle := (hw.collect roots).free_size_le
  have hsize : (a.collect roots).2.slots.size = a.slots.size := Array.size_mapIdx
  have hfree : (a.collect roots).2.free.size = a.free.size + (a.collect roots).1 :=
    Array.size_append
  unfold live
  omega

/-- The number of frames after a collection is that of the frames in use. -/
theorem WellFormed.live_collect_eq_ncard (hw : a.WellFormed) (roots : List Scope) :
    (a.collect roots).2.live = {s | a.InUse roots s}.ncard := by
  rw [(hw.collect roots).live_eq_ncard, scopes_collect]

/-- The number of frames that a collection releases is that of the frames not in use. -/
theorem WellFormed.fst_collect (hw : a.WellFormed) (roots : List Scope) :
    (a.collect roots).1 = {s | s ∈ a.scopes ∧ ¬a.InUse roots s}.ncard := by
  have hsub : {s | a.InUse roots s} ⊆ a.scopes := fun s hs => (inUse_iff.1 hs).1
  have hdiff : {s | s ∈ a.scopes ∧ ¬a.InUse roots s} = a.scopes \ {s | a.InUse roots s} := rfl
  rw [hdiff, Set.ncard_sdiff hsub (hw.finite_scopes.subset hsub), ← hw.live_eq_ncard,
    ← hw.live_collect_eq_ncard, ← hw.live_collect roots, Nat.add_sub_cancel_left]

/-- Sweeping changes nothing when there is nothing to release. -/
theorem sweep_eq_self (hg : a.garbage marked = #[]) : a.sweep marked = a := by
  have hslots : (a.slots.mapIdx fun i slot =>
      if isGarbage marked i slot then slot.release else slot) = a.slots := by
    refine Array.ext (by simp) fun i hi _ => ?_
    have hlt : i < a.slots.size := by simpa using hi
    have hkept : ¬isGarbage marked i a.slots[i] = true := by
      intro hgarbage
      have hmem := mem_garbage.2 ⟨_, Array.getElem?_eq_getElem hlt, hgarbage⟩
      rw [hg] at hmem
      simp at hmem
    simp [hkept]
  unfold sweep
  rw [hslots, hg, Array.append_empty]

/-- A collection of an arena in which all frames are in use does nothing. -/
theorem WellFormed.collect_eq_self (hw : a.WellFormed)
    (huse : ∀ s ∈ a.scopes, a.InUse roots s) : a.collect roots = (0, a) := by
  have hzero : (a.collect roots).1 = 0 := by
    rw [hw.fst_collect, Set.ncard_eq_zero (hw.finite_scopes.subset fun s hs => hs.1)]
    exact Set.eq_empty_of_forall_notMem fun s hs => hs.2 (huse s hs.1)
  have hswept : (a.collect roots).2 = a := sweep_eq_self (Array.eq_empty_of_size_eq_zero hzero)
  exact Prod.ext hzero hswept

/-- **Collections are exact.** Whatever was done to an arena before, and whatever handles a
collection is given as roots, it leaves the frames in use and no others. It counts the frames that
it releases, by which the number of frames goes down. A frame in use keeps its handle, the scope
around it and its bindings, so that every search that begins there finds what it did. A second
collection with the same roots releases nothing and changes nothing. -/
theorem collect_exact (ops : List Operation) (roots : List Scope) :
    let a := after ops
    let b := (a.collect roots).2
    b.scopes = {s | a.InUse roots s} ∧
    (a.collect roots).1 = {s | s ∈ a.scopes ∧ ¬a.InUse roots s}.ncard ∧
    b.live + (a.collect roots).1 = a.live ∧
    (∀ s, a.InUse roots s →
      b.frame? s = a.frame? s ∧ ∀ name, b.find? s name = a.find? s name) ∧
    b.collect roots = (0, b) := by
  intro a b
  have hw : a.WellFormed := wellFormed_after ops
  refine ⟨scopes_collect a roots, hw.fst_collect roots, hw.live_collect roots, ?_, ?_⟩
  · intro s hs
    have hreach := (inUse_iff.1 hs).2
    exact ⟨frame?_collect_eq hreach, find?_collect hreach⟩
  · refine (hw.collect roots).collect_eq_self fun s hs => ?_
    exact inUse_iff.2 ⟨hs, reachable_collect (reachable_of_collect hs)⟩

/-- A function that is bound in the scope that it was made in does not keep that scope in use. -/
example :
    ((after [.create none, .create (some ⟨0, 0⟩),
      .set ⟨1, 0⟩ "f" (.vector [.lambda [] (.symbol default "x") ⟨1, 0⟩])]).collect
        [⟨0, 0⟩, ⟨0, 7⟩]).1 = 1 := by cbv

end Arena

end Lisp
