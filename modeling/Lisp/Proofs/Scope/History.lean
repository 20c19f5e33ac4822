import Mathlib
import Lisp.Eval.Basic
import Lisp.Proofs.Scope.Evolution
import Lisp.Proofs.Scope.Reachable

/-!
# What becomes of handles

A handle is issued together with a frame, and stands for it until a collection releases it. What it
stands for later is a matter of how often its place was released since.

- `Operation`: what can be done to an arena. `Arena.after` is the arena that some operations lead to
  from an empty one, and `Arena.issue?` the handle that an operation gives out.
- `Arena.releasesIn`: how often some operations empty a place. The count that each place keeps goes
  up by as much (`WellFormed.releasesAt_applyAll`).
- `WellFormed.frame?_applyAll`: the frame of a handle while its place is not emptied.
- `WellFormed.contains_applyAll`: when a handle has a frame at all.
- `handle_history`: both, for every handle and every history.
-/

namespace Lisp

/-- What can be done to an arena. -/
inductive Operation where
  | create (outer : Option Scope)
  | bind (outer : Scope) (params : List String) (args : List Value)
  | set (scope : Scope) (name : String) (v : Value)
  | collect (roots : List Scope)

/-- What an operation binds through a handle that was issued before. -/
def Operation.bindsThrough (h : Scope) : Operation → List (String × Value)
  | set scope name v => if scope = h then [(name, v)] else []
  | _ => []

/-- The value that a name was bound to last. -/
def latest (name : String) (pairs : List (String × Value)) : Option Value :=
  pairs.reverse.lookup name

namespace Arena

variable {a : Arena} {h s : Scope} {f : Frame} {op : Operation} {ops : List Operation}

/-- Of several bindings of one name the last one counts. -/
theorem lookup_bindAll (name : String) (bs : Bindings) (pairs : List (String × Value)) :
    (bindAll bs pairs).lookup name = (latest name pairs).or (bs.lookup name) := by
  induction pairs generalizing bs with
  | nil => rfl
  | cons p pairs ih =>
    obtain ⟨n, v⟩ := p
    show (bindAll (bs.set n v) pairs).lookup name = _
    rw [ih, Bindings.lookup_set, latest, latest, List.reverse_cons, List.lookup_append,
      Option.or_assoc]
    congr 1
    by_cases hn : name = n
    · simp [hn]
    · simp [hn, List.lookup_cons, beq_false_of_ne hn]

/-! ## Operations -/

/-- Carries out an operation. -/
def apply (a : Arena) : Operation → Arena
  | .create outer => (a.create outer).2
  | .bind outer params args => (a.bind outer params args).2
  | .set scope name v => a.set scope name v
  | .collect roots => (a.collect roots).2

/-- Carries out operations one after the other. -/
def applyAll (a : Arena) (ops : List Operation) : Arena := ops.foldl apply a

/-- The arena that operations lead to from an empty one. -/
def after (ops : List Operation) : Arena := applyAll {} ops

/-- The handle that an operation gives out, and the frame that it is for. -/
def issue? (a : Arena) : Operation → Option (Scope × Frame)
  | .create outer => some ((a.create outer).1, ⟨outer, []⟩)
  | .bind outer params args =>
    some ((a.bind outer params args).1, ⟨some outer, bindAll [] (pairUp params args)⟩)
  | .set _ _ _ => none
  | .collect _ => none

/-- Whether a place holds a frame. -/
def isOccupied (a : Arena) (i : Nat) : Bool := ((a.slots[i]?).bind Slot.frame).isSome

/-- Whether an operation takes the frame of a place away. -/
def empties (a : Arena) (op : Operation) (i : Nat) : Bool :=
  a.isOccupied i && !(a.apply op).isOccupied i

/-- How often operations take the frame of a place away. -/
def releasesIn (a : Arena) : List Operation → Nat → Nat
  | [], _ => 0
  | op :: ops, i => (a.empties op i).toNat + (a.apply op).releasesIn ops i

theorem releasesIn_append (a : Arena) (ops later : List Operation) (i : Nat) :
    a.releasesIn (ops ++ later) i = a.releasesIn ops i + (a.applyAll ops).releasesIn later i := by
  induction ops generalizing a with
  | nil => simp [releasesIn, applyAll]
  | cons op ops ih =>
    show _ + (a.apply op).releasesIn (ops ++ later) i = _
    rw [ih]
    exact (Nat.add_assoc _ _ _).symm

theorem WellFormed.apply (hw : a.WellFormed) (op : Operation) : (a.apply op).WellFormed := by
  cases op with
  | create outer => exact hw.create outer
  | bind outer params args => exact hw.bind outer params args
  | set scope name v => exact hw.set scope name v
  | collect roots => exact hw.collect roots

theorem WellFormed.applyAll (hw : a.WellFormed) (ops : List Operation) :
    (a.applyAll ops).WellFormed := by
  induction ops generalizing a with
  | nil => exact hw
  | cons op ops ih => exact ih (hw.apply op)

theorem wellFormed_after (ops : List Operation) : (after ops).WellFormed :=
  wellFormed_empty.applyAll ops

/-! ## Places -/

/-- A handle has a frame when its place holds one, and has the generation of the place. -/
theorem contains_iff_isOccupied :
    a.contains s = true ↔ a.isOccupied s.index = true ∧ a.generationAt s.index = s.generation := by
  unfold contains frame? isOccupied generationAt
  cases a.slots[s.index]? with
  | none => simp
  | some slot => by_cases hg : slot.generation = s.generation <;> simp [hg]

theorem isOccupied_set (a : Arena) (s : Scope) (name : String) (v : Value) (i : Nat) :
    (a.set s name v).isOccupied i = a.isOccupied i := by
  unfold isOccupied
  rw [slots_set]
  split
  · cases a.slots[i]? with
    | none => rfl
    | some slot => simp
  · rfl

theorem releasesAt_set (a : Arena) (s : Scope) (name : String) (v : Value) (i : Nat) :
    (a.set s name v).releasesAt i = a.releasesAt i := by
  unfold releasesAt
  rw [slots_set]
  split
  · cases a.slots[i]? <;> rfl
  · rfl

/-- What no single binding changes, no list of them changes. -/
theorem eq_setAll {β : Type} (g : Arena → β) (hset : ∀ a name v, g (a.set s name v) = g a)
    (pairs : List (String × Value)) (a : Arena) :
    g (pairs.foldl (fun a p => a.set s p.1 p.2) a) = g a := by
  induction pairs generalizing a with
  | nil => rfl
  | cons p pairs ih => rw [List.foldl_cons, ih, hset]

theorem isOccupied_bind (a : Arena) (outer : Scope) (params : List String) (args : List Value)
    (i : Nat) : (a.bind outer params args).2.isOccupied i =
      (a.create (some outer)).2.isOccupied i := by
  rw [bind_eq]
  exact eq_setAll (·.isOccupied i) (fun a name v => isOccupied_set a _ name v i) _ _

theorem releasesAt_bind (a : Arena) (outer : Scope) (params : List String) (args : List Value)
    (i : Nat) : (a.bind outer params args).2.releasesAt i =
      (a.create (some outer)).2.releasesAt i := by
  rw [bind_eq]
  exact eq_setAll (·.releasesAt i) (fun a name v => releasesAt_set a _ name v i) _ _

theorem WellFormed.isOccupied_create (hw : a.WellFormed) (outer : Option Scope) (i : Nat) :
    (a.create outer).2.isOccupied i =
      (decide (i = (a.create outer).1.index) || a.isOccupied i) := by
  unfold isOccupied
  rw [hw.slots_create]
  by_cases hi : i = (a.create outer).1.index
  · simp [hi]
  · simp [hi]

theorem WellFormed.releasesAt_create (hw : a.WellFormed) (outer : Option Scope) (i : Nat) :
    (a.create outer).2.releasesAt i = a.releasesAt i := by
  conv_lhs => unfold releasesAt
  rw [hw.slots_create]
  by_cases hi : i = (a.create outer).1.index
  · simp [hi]
  · rw [if_neg hi]
    rfl

/-- A place is emptied exactly when its frame is not in use. -/
theorem empties_collect (a : Arena) (roots : List Scope) (i : Nat) :
    a.empties (.collect roots) i =
      (a.slots[i]?).any (isGarbage (a.mark (Array.replicate a.slots.size false) roots) i) := by
  unfold empties isOccupied
  show (_ && !(((a.collect roots).2.slots[i]?).bind Slot.frame).isSome) = _
  rw [collect_snd, slots_sweep]
  cases a.slots[i]? with
  | none => rfl
  | some slot =>
    by_cases hg : isGarbage (a.mark (Array.replicate a.slots.size false) roots) i slot
    · have hframe : slot.frame.isSome = true := (Bool.and_eq_true_iff.1 hg).1
      simp [hg, hframe, Slot.release]
    · simp [hg]

theorem releasesAt_collect (a : Arena) (roots : List Scope) (i : Nat) :
    (a.collect roots).2.releasesAt i =
      a.releasesAt i + (a.empties (.collect roots) i).toNat := by
  rw [empties_collect]
  unfold releasesAt
  rw [collect_snd, slots_sweep]
  cases a.slots[i]? with
  | none => rfl
  | some slot =>
    by_cases hg : isGarbage (a.mark (Array.replicate a.slots.size false) roots) i slot
    · simp [hg, Slot.release]
    · simp [hg]

/-- Only a collection empties places. -/
theorem WellFormed.empties_eq_false (hw : a.WellFormed) (i : Nat)
    (hop : ∀ roots, op ≠ .collect roots) : a.empties op i = false := by
  have hcreate : ∀ outer, a.isOccupied i = true → (a.create outer).2.isOccupied i = true := by
    intro outer hi
    rw [hw.isOccupied_create, hi, Bool.or_true]
  have hstays : (a.isOccupied i = true → (a.apply op).isOccupied i = true) →
      a.empties op i = false := by
    intro hi
    unfold empties
    cases ho : a.isOccupied i with
    | false => rfl
    | true => rw [hi ho]; rfl
  refine hstays fun hi => ?_
  cases op with
  | create outer => exact hcreate outer hi
  | bind outer params args =>
    exact (isOccupied_bind a outer params args i).trans (hcreate _ hi)
  | set scope name v =>
    show (a.set scope name v).isOccupied i = true
    rw [isOccupied_set, hi]
  | collect roots => exact absurd rfl (hop roots)

/-- The count that a place keeps goes up when the place is emptied. -/
theorem WellFormed.releasesAt_apply (hw : a.WellFormed) (op : Operation) (i : Nat) :
    (a.apply op).releasesAt i = a.releasesAt i + (a.empties op i).toNat := by
  cases op with
  | create outer =>
    rw [hw.empties_eq_false i (by simp)]
    exact hw.releasesAt_create outer i
  | bind outer params args =>
    rw [hw.empties_eq_false i (by simp)]
    exact (releasesAt_bind a outer params args i).trans (hw.releasesAt_create _ i)
  | set scope name v =>
    rw [hw.empties_eq_false i (by simp)]
    exact releasesAt_set a scope name v i
  | collect roots => exact releasesAt_collect a roots i

/-- The count that a place keeps says how often it was emptied. -/
theorem WellFormed.releasesAt_applyAll (hw : a.WellFormed) (ops : List Operation) (i : Nat) :
    (a.applyAll ops).releasesAt i = a.releasesAt i + a.releasesIn ops i := by
  induction ops generalizing a with
  | nil => rfl
  | cons op ops ih =>
    show ((a.apply op).applyAll ops).releasesAt i = _
    rw [ih (hw.apply op), hw.releasesAt_apply, releasesIn, Nat.add_assoc]

/-! ## Handles -/

/-- A handle is issued with its frame. -/
theorem WellFormed.frame?_issue (hw : a.WellFormed) (hissue : a.issue? op = some (h, f)) :
    (a.apply op).frame? h = some f := by
  cases op with
  | create outer =>
    cases hissue
    exact (hw.frame?_create outer _).trans (if_pos rfl)
  | bind outer params args =>
    cases hissue
    exact (hw.frame?_bind outer params args _).trans (if_pos rfl)
  | set scope name v => cases hissue
  | collect roots => cases hissue

/-- While its place is not emptied, a handle keeps its frame. Its bindings change by what is bound
through the handle, and the scope around it does not change. -/
theorem WellFormed.frame?_apply (hw : a.WellFormed) (hf : a.frame? h = some f)
    (hkept : a.empties op h.index = false) :
    (a.apply op).frame? h =
      some { f with bindings := bindAll f.bindings (op.bindsThrough h) } := by
  have hold : ∀ outer, h ≠ (a.create outer).1 := by
    rintro outer rfl
    rw [hw.frame?_new] at hf
    cases hf
  cases op with
  | create outer => exact (hw.frame?_create outer h).trans ((if_neg (hold outer)).trans hf)
  | bind outer params args =>
    exact (hw.frame?_bind outer params args h).trans ((if_neg (hold _)).trans hf)
  | set scope name v =>
    show (a.set scope name v).frame? h = _
    rw [frame?_set, hf]
    by_cases hs : h = scope
    · subst hs
      simp [Operation.bindsThrough, bindAll, Frame.set]
    · simp [Operation.bindsThrough, bindAll, hs, Ne.symm hs]
  | collect roots =>
    obtain ⟨slot, hslot, hgen, hframe⟩ := frame?_eq_some_iff.1 hf
    rw [empties_collect, hslot, Option.any_some] at hkept
    refine frame?_eq_some_iff.2 ⟨slot, ?_, hgen, hframe⟩
    show (a.collect roots).2.slots[h.index]? = some slot
    rw [collect_snd, slots_sweep, hslot, Option.map_some, hkept]
    rfl

/-- So does it along a history. -/
theorem WellFormed.frame?_applyAll (hw : a.WellFormed) (hf : a.frame? h = some f)
    (hkept : a.releasesIn ops h.index = 0) :
    (a.applyAll ops).frame? h =
      some { f with bindings := bindAll f.bindings (ops.flatMap (·.bindsThrough h)) } := by
  induction ops generalizing a f with
  | nil => exact hf
  | cons op ops ih =>
    rw [releasesIn, Nat.add_eq_zero_iff, Bool.toNat_eq_zero] at hkept
    show ((a.apply op).applyAll ops).frame? h = _
    rw [ih (hw.apply op) (hw.frame?_apply hf hkept.1) hkept.2, List.flatMap_cons]
    simp only [bindAll, List.foldl_append]

/-- The word of 32 bits that counts releases is the same again after every 2^32 of them. -/
theorem ofNat_add_eq_iff (m r : Nat) :
    UInt32.ofNat (m + r) = UInt32.ofNat m ↔ 2 ^ 32 ∣ r := by
  rw [← UInt32.toNat_inj, UInt32.toNat_ofNat', UInt32.toNat_ofNat']
  omega

/-- A handle has a frame when its place holds one and was released a multiple of 2^32 times since
the handle had its frame. -/
theorem WellFormed.contains_applyAll (hw : a.WellFormed) (hf : a.frame? h = some f)
    (ops : List Operation) :
    (a.applyAll ops).contains h = true ↔
      (a.applyAll ops).isOccupied h.index = true ∧ 2 ^ 32 ∣ a.releasesIn ops h.index := by
  have hgen : h.generation = UInt32.ofNat (a.releasesAt h.index) := by
    rw [← generationAt_eq]
    exact (contains_iff_isOccupied.1 (contains_iff.2 ⟨f, hf⟩)).2.symm
  rw [contains_iff_isOccupied, generationAt_eq, hgen, hw.releasesAt_applyAll, ofNat_add_eq_iff]

/-- Nothing is found through a handle without a frame. -/
theorem find?_of_not_contains (hs : a.contains s = false) (name : String) :
    a.find? s name = none := by
  have hnone : a.frame? s = none := Option.isNone_iff_eq_none.1 (by simpa [contains] using hs)
  unfold find?
  cases a.slots.size with
  | zero => rfl
  | succ n => simp only [findWithin, hnone]

/-- **Released handles stay dead.** From when it is issued until a collection empties its place, a
handle stands for the frame that it was issued for: the scope around it is the same, and each name
has the value that it was last bound to through the handle. After that, as long as its place has
been released less than 2^32 times in all, the handle has no frame, nothing is found through it, and
a binding through it is lost without any change of a frame, however often its place has been used
again. As generations are words of 32 bits, the handle has a frame again exactly when its place
holds one and has been released a multiple of 2^32 times since the handle was issued. -/
theorem handle_history {earlier : List Operation} {op : Operation} {h : Scope} {f : Frame}
    (hissue : (after earlier).issue? op = some (h, f)) (later : List Operation) :
    let a := (after earlier).apply op
    let b := a.applyAll later
    (a.releasesIn later h.index = 0 → ∃ g, b.frame? h = some g ∧ g.outer = f.outer ∧
      ∀ name, g.bindings.lookup name =
        (latest name (later.flatMap (·.bindsThrough h))).or (f.bindings.lookup name)) ∧
    (0 < a.releasesIn later h.index →
      releasesIn {} (earlier ++ op :: later) h.index < 2 ^ 32 →
        b.contains h = false ∧ (∀ name, b.find? h name = none) ∧
        (∀ (s : Session) name span, s.arena = b →
          Eval.lookup h name span s = (.error (.error (.undefinedSymbol name span)), s)) ∧
        ∀ name v, b.set h name v = { b with lost := (name, h) :: b.lost }) ∧
    (b.contains h = true ↔
      b.isOccupied h.index = true ∧ 2 ^ 32 ∣ a.releasesIn later h.index) := by
  intro a b
  have hw : a.WellFormed := (wellFormed_after earlier).apply op
  have hf : a.frame? h = some f := (wellFormed_after earlier).frame?_issue hissue
  have hcontains := hw.contains_applyAll hf later
  refine ⟨fun hkept => ?_, fun hreleased htotal => ?_, hcontains⟩
  · exact ⟨_, hw.frame?_applyAll hf hkept, rfl, fun name => lookup_bindAll name _ _⟩
  · -- The releases since the handle was issued are among all releases of its place.
    have hle : a.releasesIn later h.index < 2 ^ 32 := by
      rw [releasesIn_append, releasesIn] at htotal
      exact Nat.lt_of_le_of_lt (Nat.le_trans (Nat.le_add_left _ _) (Nat.le_add_left _ _)) htotal
    have hdead : b.contains h = false := by
      rw [← Bool.not_eq_true, hcontains]
      rintro ⟨-, hdvd⟩
      exact absurd (Nat.le_of_dvd hreleased hdvd) (Nat.not_le.2 hle)
    have hnothing := find?_of_not_contains hdead
    refine ⟨hdead, hnothing, ?_, fun name v => ?_⟩
    · rintro s name span hs
      unfold Eval.lookup
      rw [hs, hnothing]
    · unfold Arena.set
      rw [hdead]
      rfl

/-- A frame of parameters is released while the global one is in use. Its place is used again. -/
theorem handle_history_reused :
    ∃ b, b = after [.create none, .bind ⟨0, 0⟩ ["x"] [.int 7], .collect [⟨0, 0⟩, ⟨0, 0⟩],
        .create (some ⟨0, 0⟩)] ∧
      b.contains ⟨1, 1⟩ = true ∧ b.contains ⟨1, 0⟩ = false ∧
      b.set ⟨1, 0⟩ "x" (.int 8) = { b with lost := ("x", ⟨1, 0⟩) :: b.lost } := by
  have hissue : (after [.create none]).issue? (.bind ⟨0, 0⟩ ["x"] [.int 7]) =
      some (⟨1, 0⟩, ⟨some ⟨0, 0⟩, [("x", .int 7)]⟩) := rfl
  have hdead := (handle_history hissue
    [.collect [⟨0, 0⟩, ⟨0, 0⟩], .create (some ⟨0, 0⟩)]).2.1 (by cbv) (by cbv)
  exact ⟨_, rfl, by cbv, hdead.1, hdead.2.2.2 "x" (.int 8)⟩

end Arena

end Lisp
