import Mathlib.Algebra.Group.Nat.Defs
import Lisp.Proofs.Scope.Frames

/-!
# What becomes of frames

- `Frame.Kept`: a frame that differs from another at most in the bindings of some names.
- `Arena.Evolves`: an arena that came from another by bindings of some names in one scope, by new
  frames, and by releases. It speaks of places and counts their releases, so that a place that was
  used again is not mistaken for the frame that was there before.
- `Evolves.of_create`: what is done to a new frame does not matter to the arena before.
- `Evolves.frame`: what `Evolves` means for the frame of a handle.
-/

namespace Lisp

/-- A binding is seen under its name, and the others as before. -/
theorem Bindings.lookup_set (name n : String) (v : Value) (bs : Bindings) :
    (bs.set name v).lookup n = if n = name then some v else bs.lookup n := by
  induction bs with
  | nil =>
    by_cases hn : n = name
    · simp [Bindings.set, hn]
    · simp [Bindings.set, hn, List.lookup_cons, beq_false_of_ne hn]
  | cons b bs ih =>
    obtain ⟨m, w⟩ := b
    unfold Bindings.set
    by_cases hm : m = name
    · rw [if_pos hm, List.lookup_cons, List.lookup_cons, hm]
      by_cases hn : n = name
      · simp [hn]
      · simp [hn, beq_false_of_ne hn]
    · rw [if_neg hm, List.lookup_cons, List.lookup_cons, ih]
      by_cases hn : n = m
      · simp [hn, hm]
      · simp [beq_false_of_ne hn]

/-- A frame with the same scope around it, and with the same bindings but for some names. -/
structure Frame.Kept (names : String → Prop) (f g : Frame) : Prop where
  outer : g.outer = f.outer
  lookup : ∀ n, ¬names n → g.bindings.lookup n = f.bindings.lookup n

namespace Frame.Kept

variable {names names' : String → Prop} {f g h : Frame}

theorem refl (f : Frame) : f.Kept names f := ⟨rfl, fun _ _ => rfl⟩

theorem trans (hfg : f.Kept names g) (hgh : g.Kept names h) : f.Kept names h :=
  ⟨hgh.outer.trans hfg.outer, fun n hn => (hgh.lookup n hn).trans (hfg.lookup n hn)⟩

theorem mono (hfg : f.Kept names g) (hnames : ∀ n, names n → names' n) : f.Kept names' g :=
  ⟨hfg.outer, fun n hn => hfg.lookup n (mt (hnames n) hn)⟩

theorem set (f : Frame) (name : String) (v : Value) : f.Kept (· = name) (f.set name v) := by
  refine ⟨rfl, fun n hn => ?_⟩
  show (f.bindings.set name v).lookup n = _
  rw [Bindings.lookup_set, if_neg hn]

end Frame.Kept

namespace Arena

/-- Of the frames of an arena, all that have not been released are still there. They are unchanged,
but for bindings of some names in the frame of one scope. -/
def Evolves (scope : Scope) (names : String → Prop) (a b : Arena) : Prop :=
  ∀ i slot, a.slots[i]? = some slot → ∃ slot', b.slots[i]? = some slot' ∧
    slot.releases ≤ slot'.releases ∧
    (slot'.releases = slot.releases → ∀ f, slot.frame = some f → ∃ g, slot'.frame = some g ∧
      f.Kept names g ∧ (⟨i, slot.generation⟩ ≠ scope → g = f))

namespace Evolves

variable {scope : Scope} {names names' : String → Prop} {a b c : Arena}

theorem refl (a : Arena) : Evolves scope names a a :=
  fun _ slot hslot => ⟨slot, hslot, Nat.le_refl _, fun _ f hf => ⟨f, hf, .refl f, fun _ => rfl⟩⟩

theorem trans (hab : Evolves scope names a b) (hbc : Evolves scope names b c) :
    Evolves scope names a c := by
  intro i slot hslot
  obtain ⟨slot₁, hslot₁, hle₁, hframe₁⟩ := hab i slot hslot
  obtain ⟨slot₂, hslot₂, hle₂, hframe₂⟩ := hbc i slot₁ hslot₁
  refine ⟨slot₂, hslot₂, Nat.le_trans hle₁ hle₂, fun heq f hf => ?_⟩
  -- A place that was not released in all was not released in either part.
  have heq₁ : slot₁.releases = slot.releases := by omega
  obtain ⟨g, hg, hkept, hsame⟩ := hframe₁ heq₁ f hf
  obtain ⟨h, hh, hkept', hsame'⟩ := hframe₂ (by omega) g hg
  have hgen : slot₁.generation = slot.generation := congrArg UInt32.ofNat heq₁
  refine ⟨h, hh, hkept.trans hkept', fun hne => ?_⟩
  rw [hsame' (by rwa [hgen]), hsame hne]

theorem mono (hab : Evolves scope names a b) (hnames : ∀ n, names n → names' n) :
    Evolves scope names' a b := by
  intro i slot hslot
  obtain ⟨slot', hslot', hle, hframe⟩ := hab i slot hslot
  refine ⟨slot', hslot', hle, fun heq f hf => ?_⟩
  obtain ⟨g, hg, hkept, hsame⟩ := hframe heq f hf
  exact ⟨g, hg, hkept.mono hnames, hsame⟩

/-- A binding in the scope. -/
theorem set (a : Arena) (scope : Scope) (name : String) (v : Value) :
    Evolves scope (· = name) a (a.set scope name v) := by
  intro i slot hslot
  have hslots := a.slots_set scope name v i
  by_cases hhere : i = scope.index ∧ a.contains scope = true
  · rw [if_pos hhere, hslot, Option.map_some] at hslots
    refine ⟨_, hslots, Nat.le_refl _, fun _ f hf => ?_⟩
    refine ⟨f.set name v, by rw [hf]; rfl, .set f name v, fun hne => ?_⟩
    -- The scope has a frame in this place, so that it is this frame.
    obtain ⟨g, hg⟩ := contains_iff.1 hhere.2
    obtain ⟨slot', hslot', hgen, -⟩ := frame?_eq_some_iff.1 hg
    rw [← hhere.1, hslot] at hslot'
    cases hslot'
    exact absurd (Scope.ext hhere.1 hgen) hne
  · rw [if_neg hhere, hslot] at hslots
    exact ⟨slot, hslots, Nat.le_refl _, fun _ f hf => ⟨f, hf, .refl f, fun _ => rfl⟩⟩

/-- A new frame, and whatever is done to it. -/
theorem of_create {outer : Option Scope}
    (hab : Evolves (a.create outer).1 names' (a.create outer).2 b) (hw : a.WellFormed) :
    Evolves scope names a b := by
  intro i slot hslot
  by_cases hi : i = (a.create outer).1.index
  · -- The place of the new frame was free.
    subst hi
    have hnew : (a.create outer).2.slots[(a.create outer).1.index]? =
        some ⟨slot.releases, some ⟨outer, []⟩⟩ := by
      rw [hw.slots_create, if_pos rfl, releasesAt, hslot]
      rfl
    obtain ⟨slot', hslot', hle, -⟩ := hab _ _ hnew
    refine ⟨slot', hslot', hle, fun _ f hf => ?_⟩
    rw [hw.create_free outer hslot] at hf
    cases hf
  · have hold : (a.create outer).2.slots[i]? = some slot := by
      rw [hw.slots_create, if_neg hi, hslot]
    obtain ⟨slot', hslot', hle, hframe⟩ := hab i slot hold
    refine ⟨slot', hslot', hle, fun heq f hf => ?_⟩
    obtain ⟨g, hg, -, hsame⟩ := hframe heq f hf
    obtain rfl := hsame fun h => hi (congrArg Scope.index h)
    exact ⟨g, hg, .refl g, fun _ => rfl⟩

theorem setAll (a : Arena) (scope : Scope) (pairs : List (String × Value)) :
    Evolves scope (fun _ => True) a (pairs.foldl (fun a p => a.set scope p.1 p.2) a) := by
  induction pairs generalizing a with
  | nil => exact .refl a
  | cons p pairs ih => exact ((Evolves.set a scope p.1 p.2).mono fun _ _ => trivial).trans (ih _)

/-- Released frames. -/
theorem collect (a : Arena) (roots : List Scope) : Evolves scope names a (a.collect roots).2 := by
  intro i slot hslot
  have hslots := a.slots_sweep (a.mark (Array.replicate a.slots.size false) roots) i
  rw [hslot, Option.map_some] at hslots
  by_cases hg : isGarbage (a.mark (Array.replicate a.slots.size false) roots) i slot
  · rw [if_pos hg] at hslots
    refine ⟨_, hslots, Nat.le_succ _, fun heq => ?_⟩
    exact absurd heq (Nat.succ_ne_self _)
  · rw [if_neg hg] at hslots
    exact ⟨slot, hslots, Nat.le_refl _, fun _ f hf => ⟨f, hf, .refl f, fun _ => rfl⟩⟩

/-- The frame of a handle that has one before and after. Its place was not released in between,
unless so often that the handle fits another frame there. -/
theorem frame {h : Scope} {f g : Frame} (hab : Evolves scope names a b)
    (hreleases : b.releasesAt h.index < a.releasesAt h.index + 2 ^ 32)
    (hf : a.frame? h = some f) (hg : b.frame? h = some g) :
    f.Kept names g ∧ (h ≠ scope → g = f) := by
  obtain ⟨slot, hslot, hgen, hslotf⟩ := frame?_eq_some_iff.1 hf
  obtain ⟨slot', hslot', hgen', hslotg⟩ := frame?_eq_some_iff.1 hg
  obtain ⟨slot'', hslot'', hle, hframe⟩ := hab _ slot hslot
  rw [hslot'] at hslot''
  cases hslot''
  have hlt : slot'.releases < slot.releases + 2 ^ 32 := by
    rw [releasesAt, releasesAt, hslot, hslot'] at hreleases
    exact hreleases
  have hsame : UInt32.ofNat slot'.releases = UInt32.ofNat slot.releases := hgen'.trans hgen.symm
  have heq : slot'.releases = slot.releases := by
    have hmod := congrArg UInt32.toNat hsame
    rw [UInt32.toNat_ofNat', UInt32.toNat_ofNat'] at hmod
    omega
  obtain ⟨g', hg', hkept, hsame⟩ := hframe heq f hslotf
  rw [hslotg] at hg'
  cases hg'
  have hscope : (⟨h.index, slot.generation⟩ : Scope) = h := Scope.ext rfl hgen
  rw [hscope] at hsame
  exact ⟨hkept, hsame⟩

end Evolves

end Arena

end Lisp
