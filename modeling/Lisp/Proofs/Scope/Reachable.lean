import Lisp.Proofs.Scope.Frames

/-!
# Frames in use

- `Arena.Reachable`: the scopes that some roots lead to, through the scope around a frame and
  through the functions bound in it.
- `Arena.mark_reachable`: every frame in use gets marked. The invariant of the marking loop is
  `Arena.Closed`: what a marked frame links to is marked as well or still pending.
- `Arena.frame?_collect`: a collection takes no frame away that is in use. So the names in scopes
  in use mean what they did (`Arena.find?_collect`).
-/

namespace Lisp.Arena

variable {a : Arena} {roots : List Scope} {s h l : Scope} {f : Frame} {marked : Array Bool}

/-- The scopes that the roots lead to. -/
inductive Reachable (a : Arena) (roots : List Scope) : Scope → Prop
  | root {s : Scope} : s ∈ roots → Reachable a roots s
  | link {s l : Scope} {f : Frame} :
      Reachable a roots s → a.frame? s = some f → l ∈ f.links → Reachable a roots l

/-- Whether the place of a scope is marked. -/
def IsMarked (marked : Array Bool) (s : Scope) : Prop := marked[s.index]? = some true

/-- Marking a place leaves the others marked. -/
theorem IsMarked.set (hs : IsMarked marked s) {i : Nat} (hi : i < marked.size) :
    IsMarked (marked.set i true hi) s := by
  unfold IsMarked at hs ⊢
  rw [Array.getElem?_set]
  split
  · rfl
  · exact hs

theorem isMarked_set_self (hi : s.index < marked.size) :
    IsMarked (marked.set s.index true hi) s := by
  unfold IsMarked
  rw [Array.getElem?_set_self]

/-- The place of a frame exists, so that it can only be marked already if it is not to be marked
now. -/
theorem isMarked_of_not_fresh (hsize : marked.size = a.slots.size) (hf : a.frame? s = some f)
    (hold : ¬∃ hi : s.index < marked.size, marked[s.index] = false) : IsMarked marked s := by
  obtain ⟨slot, hslot, -, -⟩ := frame?_eq_some_iff.1 hf
  have hlt : s.index < marked.size := hsize ▸ (Array.getElem?_eq_some_iff.1 hslot).1
  unfold IsMarked
  rw [Array.getElem?_eq_getElem hlt]
  cases hm : marked[s.index] with
  | true => rfl
  | false => exact absurd ⟨hlt, hm⟩ hold

/-- What a marked frame links to is marked or pending. -/
def Closed (a : Arena) (marked : Array Bool) (pending : List Scope) : Prop :=
  ∀ s f l, a.frame? s = some f → IsMarked marked s → l ∈ f.links → a.contains l = true →
    IsMarked marked l ∨ l ∈ pending

/-- A mark stays. -/
theorem mark_of_isMarked (pending : List Scope) (hs : IsMarked marked s) :
    IsMarked (a.mark marked pending) s := by
  fun_induction Arena.mark a marked pending with
  | case1 marked => exact hs
  | case2 marked t rest hnone ih => exact ih hs
  | case3 marked t rest f hf hfresh ih => exact ih (hs.set hfresh.1)
  | case4 marked t rest f hf hold ih => exact ih hs

/-- Every pending scope with a frame gets marked. -/
theorem mark_of_mem_pending {pending : List Scope} (hsize : marked.size = a.slots.size)
    (hs : s ∈ pending) (hf : a.frame? s = some f) : IsMarked (a.mark marked pending) s := by
  fun_induction Arena.mark a marked pending with
  | case1 marked => cases hs
  | case2 marked t rest hnone ih =>
    rcases List.mem_cons.1 hs with rfl | hrest
    · rw [hf] at hnone
      cases hnone
    · exact ih hsize hrest
  | case3 marked t rest g hg hfresh ih =>
    rcases List.mem_cons.1 hs with rfl | hrest
    · exact mark_of_isMarked _ (isMarked_set_self hfresh.1)
    · exact ih (by simpa using hsize) (List.mem_append_right _ hrest)
  | case4 marked t rest g hg hold ih =>
    rcases List.mem_cons.1 hs with rfl | hrest
    · exact mark_of_isMarked _ (isMarked_of_not_fresh hsize hf hold)
    · exact ih hsize hrest

/-- Marking comes to an end only when nothing that a marked frame links to is left. -/
theorem closed_mark {pending : List Scope} (hsize : marked.size = a.slots.size)
    (hc : a.Closed marked pending) : a.Closed (a.mark marked pending) [] := by
  fun_induction Arena.mark a marked pending with
  | case1 marked => exact hc
  | case2 marked t rest hnone ih =>
    refine ih hsize fun s f l hs hm hl hlive => ?_
    rcases hc s f l hs hm hl hlive with hmarked | hmem
    · exact .inl hmarked
    · rcases List.mem_cons.1 hmem with rfl | hrest
      · obtain ⟨g, hg⟩ := contains_iff.1 hlive
        rw [hg] at hnone
        cases hnone
      · exact .inr hrest
  | case3 marked t rest g hg hfresh ih =>
    obtain ⟨hlt, hunmarked⟩ := hfresh
    refine ih (by simpa using hsize) fun s f l hs hm hl hlive => ?_
    by_cases hst : s.index = t.index
    · -- The frame marked just now puts its links in front of the pending scopes.
      have : s = t := eq_of_index_eq hs hg hst
      subst this
      rw [hs] at hg
      cases hg
      exact .inr (List.mem_append_left _ hl)
    · have hm' : IsMarked marked s := by
        unfold IsMarked at hm ⊢
        rwa [Array.getElem?_set, if_neg (Ne.symm hst)] at hm
      rcases hc s f l hs hm' hl hlive with hmarked | hmem
      · exact .inl (hmarked.set hlt)
      · rcases List.mem_cons.1 hmem with rfl | hrest
        · exact .inl (isMarked_set_self hlt)
        · exact .inr (List.mem_append_right _ hrest)
  | case4 marked t rest g hg hold ih =>
    refine ih hsize fun s f l hs hm hl hlive => ?_
    rcases hc s f l hs hm hl hlive with hmarked | hmem
    · exact .inl hmarked
    · rcases List.mem_cons.1 hmem with rfl | hrest
      · exact .inl (isMarked_of_not_fresh hsize hg hold)
      · exact .inr hrest

/-- Every frame in use gets marked. -/
theorem mark_reachable (hs : a.Reachable roots s) (hf : a.frame? s = some f) :
    IsMarked (a.mark (Array.replicate a.slots.size false) roots) s := by
  have hsize : (Array.replicate a.slots.size false).size = a.slots.size := by simp
  have hclosed : a.Closed (a.mark (Array.replicate a.slots.size false) roots) [] := by
    refine closed_mark hsize fun s f l _ hm _ _ => ?_
    unfold IsMarked at hm
    rw [Array.getElem?_replicate] at hm
    split at hm <;> cases hm
  induction hs generalizing f with
  | root hmem => exact mark_of_mem_pending hsize hmem hf
  | link hreach hg hl ih =>
    rcases hclosed _ _ _ hg (ih hg) hl (contains_iff.2 ⟨f, hf⟩) with hmarked | hmem
    · exact hmarked
    · cases hmem

/-! ## Collections -/

theorem collect_snd (a : Arena) (roots : List Scope) :
    (a.collect roots).2 = a.sweep (a.mark (Array.replicate a.slots.size false) roots) := rfl

/-- A collection takes no frame away that is in use, and changes none. -/
theorem frame?_collect (hs : a.Reachable roots s) (hf : a.frame? s = some f) :
    (a.collect roots).2.frame? s = some f := by
  rw [collect_snd, frame?_sweep (mark_reachable hs hf), hf]

/-- A collection makes no frame. -/
theorem frame?_of_collect (hf : (a.collect roots).2.frame? s = some f) : a.frame? s = some f := by
  obtain ⟨slot', hslot', hgen, hframe⟩ := frame?_eq_some_iff.1 hf
  rw [collect_snd, slots_sweep] at hslot'
  obtain ⟨slot, hslot, hsweep⟩ := Option.map_eq_some_iff.1 hslot'
  split at hsweep
  · subst hsweep
    cases hframe
  · subst hsweep
    exact frame?_eq_some_iff.2 ⟨slot, hslot, hgen, hframe⟩

/-- What a scope in use is a handle of does not change with a collection. -/
theorem frame?_collect_eq (hs : a.Reachable roots s) :
    (a.collect roots).2.frame? s = a.frame? s := by
  cases hf : a.frame? s with
  | some f => exact frame?_collect hs hf
  | none =>
    cases hf' : (a.collect roots).2.frame? s with
    | none => rfl
    | some f =>
      rw [frame?_of_collect hf'] at hf
      cases hf

/-- Nor does the value of a name in it. -/
theorem find?_collect (hs : a.Reachable roots s) (name : String) :
    (a.collect roots).2.find? s name = a.find? s name := by
  have hsize : (a.collect roots).2.slots.size = a.slots.size := Array.size_mapIdx
  have hwithin : ∀ n, (a.collect roots).2.findWithin name n s = a.findWithin name n s := by
    intro n
    induction n generalizing s with
    | zero => rfl
    | succ n ih =>
      unfold findWithin
      rw [frame?_collect_eq hs]
      cases hf : a.frame? s with
      | none => rfl
      | some f =>
        cases ho : f.outer with
        | none => simp only [ho]
        | some outer =>
          have houter : a.Reachable roots outer := .link hs hf (by simp [Frame.links, ho])
          simp only [ho, ih houter]
  rw [find?, find?, hsize, hwithin]

theorem WellFormed.collect (hw : a.WellFormed) (roots : List Scope) :
    (a.collect roots).2.WellFormed := hw.sweep _

end Lisp.Arena
