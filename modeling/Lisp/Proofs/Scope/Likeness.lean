import Lisp.Proofs.Scope.Bound
import Lisp.Proofs.Value.Likeness

/-!
# Frames with other forms in their values

What the operations on frames do does not depend on the forms in the values that are bound.

- `Arena.mapForms`: frames with other forms in their values.
- `create_mapForms`, `set_mapForms`, `bind_mapForms`, `find?_mapForms`, `collect_mapForms`: the
  operations make corresponding frames, under the same handles. `identifiers_mapForms`: the same
  names are bound.
- `Arena.mentioned`: the forms in the values that are bound. No operation adds any but those of the
  values that are bound by it.
-/

namespace Lisp

variable {m : Form → Form}

namespace Bindings

/-- Bindings of values with other forms. -/
def mapForms (m : Form → Form) (bs : Bindings) : Bindings :=
  bs.map fun b => (b.1, b.2.mapForms m)

theorem set_mapForms (bs : Bindings) (name : String) (v : Value) :
    (bs.set name v).mapForms m = Bindings.set name (v.mapForms m) (bs.mapForms m) := by
  induction bs with
  | nil => rfl
  | cons b bs ih =>
    obtain ⟨n, w⟩ := b
    simp only [mapForms, set, List.map_cons] at ih ⊢
    split
    · rfl
    · rw [List.map_cons, ih]

end Bindings

/-- A frame with other forms in its values. -/
def Frame.mapForms (m : Form → Form) (f : Frame) : Frame :=
  { f with bindings := f.bindings.mapForms m }

theorem Frame.links_mapForms (f : Frame) : (f.mapForms m).links = f.links := by
  simp [links, mapForms, Bindings.mapForms, List.flatMap_map, Value.captured_mapForms]

/-- A place with other forms in the values of its frame. -/
def Slot.mapForms (m : Form → Form) (slot : Slot) : Slot :=
  { slot with frame := slot.frame.map (Frame.mapForms m) }

namespace Arena

variable {a : Arena} {s : Scope}

/-- Frames with other forms in their values. -/
def mapForms (m : Form → Form) (a : Arena) : Arena :=
  { a with slots := a.slots.map (Slot.mapForms m) }

theorem frame?_mapForms (a : Arena) (s : Scope) :
    (a.mapForms m).frame? s = (a.frame? s).map (Frame.mapForms m) := by
  simp only [frame?, mapForms, Array.getElem?_map]
  cases a.slots[s.index]? with
  | none => rfl
  | some slot =>
    show (if slot.generation = s.generation then slot.frame.map (Frame.mapForms m) else none) = _
    split
    · next hg => simp [hg]
    · next hg => simp [hg]

@[simp] theorem contains_mapForms (a : Arena) (s : Scope) :
    (a.mapForms m).contains s = a.contains s := by
  simp [contains, frame?_mapForms]

@[simp] theorem live_mapForms (a : Arena) : (a.mapForms m).live = a.live := by
  simp [live, mapForms]

/-! ## Operations -/

theorem create_mapForms (a : Arena) (outer : Option Scope) :
    (a.mapForms m).create outer = ((a.create outer).1, (a.create outer).2.mapForms m) := by
  have hgeneration : ∀ i, (a.mapForms m).generationAt i = a.generationAt i := by
    intro i
    simp only [generationAt, mapForms, Array.getElem?_map, Option.map_map]
    rfl
  unfold create
  cases hb : a.free.back? with
  | none => simp [mapForms, hb, Slot.mapForms, Frame.mapForms, Bindings.mapForms]
  | some i =>
    have hb' : (a.mapForms m).free.back? = some i := hb
    simp only [hb', hgeneration]
    refine congrArg (Prod.mk _) ?_
    simp only [mapForms, Arena.mk.injEq, and_true]
    apply Array.ext_getElem?
    intro j
    simp only [Array.getElem?_modify, Array.getElem?_map]
    split
    · cases a.slots[j]? <;> rfl
    · rfl

theorem set_mapForms (a : Arena) (s : Scope) (name : String) (v : Value) :
    (a.mapForms m).set s name (v.mapForms m) = (a.set s name v).mapForms m := by
  unfold set
  rw [contains_mapForms]
  split
  · simp only [mapForms, Arena.mk.injEq, and_true]
    apply Array.ext_getElem?
    intro j
    simp only [Array.getElem?_modify, Array.getElem?_map]
    split
    · rcases a.slots[j]? with _ | ⟨releases, _ | f⟩
      · rfl
      · rfl
      · simp [Slot.mapForms, Frame.mapForms, Frame.set, Bindings.set_mapForms]
    · rfl
  · rfl

theorem pairUp_mapForms (params : List String) (args : List Value) :
    pairUp params (args.map (Value.mapForms m)) =
      Bindings.mapForms m (pairUp params args) := by
  induction params generalizing args with
  | nil => rfl
  | cons p ps ih =>
    unfold pairUp
    split
    · cases ps.head? with
      | none => rfl
      | some rest => simp [Bindings.mapForms]
    · rw [← List.map_tail, ih]
      cases args <;> rfl

theorem setAll_mapForms (a : Arena) (s : Scope) (pairs : Bindings) :
    (pairs.mapForms m).foldl (fun a p => a.set s p.1 p.2) (a.mapForms m) =
      (pairs.foldl (fun a p => a.set s p.1 p.2) a).mapForms m := by
  induction pairs generalizing a with
  | nil => rfl
  | cons p pairs ih =>
    rw [List.foldl_cons, ← ih, ← set_mapForms]
    rfl

theorem bind_mapForms (a : Arena) (outer : Scope) (params : List String) (args : List Value) :
    (a.mapForms m).bind outer params (args.map (Value.mapForms m)) =
      ((a.bind outer params args).1, (a.bind outer params args).2.mapForms m) := by
  rw [bind_eq, bind_eq, create_mapForms, pairUp_mapForms, setAll_mapForms]

theorem find?_mapForms (a : Arena) (s : Scope) (name : String) :
    (a.mapForms m).find? s name = (a.find? s name).map (Value.mapForms m) := by
  have hwithin : ∀ n s, (a.mapForms m).findWithin name n s =
      (a.findWithin name n s).map (Value.mapForms m) := by
    intro n
    induction n with
    | zero => exact fun _ => rfl
    | succ n ih =>
      intro s
      simp only [findWithin, frame?_mapForms]
      cases a.frame? s with
      | none => rfl
      | some f =>
        have hlookup : (f.mapForms m).bindings.lookup name =
            (f.bindings.lookup name).map (Value.mapForms m) := Value.lookup_map_snd _ _ _
        have houter : (f.mapForms m).outer = f.outer := rfl
        simp only [Option.map_some, hlookup, houter]
        cases f.bindings.lookup name with
        | some v => rfl
        | none =>
          cases f.outer with
          | none => rfl
          | some outer => exact ih outer
  have hsize : (a.mapForms m).slots.size = a.slots.size := by simp [mapForms]
  rw [find?, find?, hsize, hwithin]

theorem identifiers_mapForms (a : Arena) (s : Scope) :
    (a.mapForms m).identifiers s = a.identifiers s := by
  have hwithin : ∀ n s, (a.mapForms m).namesWithin n s = a.namesWithin n s := by
    intro n
    induction n with
    | zero => exact fun _ => rfl
    | succ n ih =>
      intro s
      simp only [namesWithin, frame?_mapForms]
      cases a.frame? s with
      | none => rfl
      | some f => simp [Frame.mapForms, Bindings.mapForms, ih]
  have hsize : (a.mapForms m).slots.size = a.slots.size := by simp [mapForms]
  rw [identifiers, identifiers, hsize, hwithin]

/-! ## Collections -/

theorem mark_mapForms (a : Arena) (marked : Array Bool) (pending : List Scope) :
    (a.mapForms m).mark marked pending = a.mark marked pending := by
  fun_induction a.mark marked pending with
  | case1 marked => rw [mark]
  | case2 marked s rest hf ih => rw [mark, frame?_mapForms, hf, Option.map_none, ih]
  | case3 marked s rest f hf h ih =>
    rw [mark, frame?_mapForms, hf, Option.map_some]
    simp only [h, dite_true, Frame.links_mapForms, ih]
  | case4 marked s rest f hf h ih =>
    rw [mark, frame?_mapForms, hf, Option.map_some]
    simp only [h, dite_false, ih]

theorem collect_mapForms (a : Arena) (roots : List Scope) :
    (a.mapForms m).collect roots =
      ((a.collect roots).1, (a.collect roots).2.mapForms m) := by
  have hgarbage : ∀ marked i slot,
      isGarbage marked i (Slot.mapForms m slot) = isGarbage marked i slot := by
    intro marked i slot
    simp [isGarbage, Slot.mapForms]
  have hall : ∀ marked, (a.mapForms m).garbage marked = a.garbage marked := by
    intro marked
    simp only [garbage, mapForms, Array.size_map, Array.getElem?_map, Option.any_map]
    simp only [hgarbage]
  have hsweep : ∀ marked, (a.mapForms m).sweep marked = (a.sweep marked).mapForms m := by
    intro marked
    simp only [sweep, hall]
    simp only [mapForms, Arena.mk.injEq, and_true]
    apply Array.ext_getElem?
    intro j
    simp only [Array.getElem?_mapIdx, Array.getElem?_map]
    cases a.slots[j]? with
    | none => rfl
    | some slot =>
      simp only [Option.map_some, hgarbage]
      split <;> rfl
  have hsize : (a.mapForms m).slots.size = a.slots.size := by simp [mapForms]
  simp only [collect, hsize, mark_mapForms, hall, hsweep]

/-! ## Forms that are mentioned -/

/-- The forms in the values that are bound. -/
def mentioned (a : Arena) : Set Form :=
  {f | ∃ s frame, a.frame? s = some frame ∧ ∃ b ∈ frame.bindings, f ∈ b.2.forms}

/-- The forms that are mentioned are those in the values that are bound. -/
theorem mem_mentioned {f : Form} : f ∈ a.mentioned ↔ ∃ v ∈ a.bound, f ∈ v.forms := by
  constructor
  · rintro ⟨s, frame, hframe, b, hb, hf⟩
    exact ⟨b.2, ⟨s, frame, b.1, hframe, hb⟩, hf⟩
  · rintro ⟨v, ⟨s, frame, name, hframe, hmem⟩, hf⟩
    exact ⟨s, frame, hframe, _, hmem, hf⟩

/-- Frames that bind no other values mention no other forms. -/
theorem mentioned_subset {b : Arena} (h : b.bound ⊆ a.bound) : b.mentioned ⊆ a.mentioned := by
  intro f hf
  obtain ⟨v, hv, hf⟩ := mem_mentioned.1 hf
  exact mem_mentioned.2 ⟨v, h hv, hf⟩

theorem mentioned_create (a : Arena) (outer : Option Scope) :
    (a.create outer).2.mentioned ⊆ a.mentioned :=
  mentioned_subset (bound_create a outer)

theorem mentioned_set (a : Arena) (s : Scope) (name : String) (v : Value) {f : Form}
    (hmem : f ∈ (a.set s name v).mentioned) : f ∈ v.forms ∨ f ∈ a.mentioned := by
  obtain ⟨w, hw, hf⟩ := mem_mentioned.1 hmem
  rcases bound_set a s name hw with rfl | hw
  · exact .inl hf
  · exact .inr (mem_mentioned.2 ⟨w, hw, hf⟩)

theorem mentioned_bind (a : Arena) (outer : Scope) (params : List String) (args : List Value)
    {f : Form} (hmem : f ∈ (a.bind outer params args).2.mentioned) :
    (∃ v ∈ args, f ∈ v.forms) ∨ f ∈ a.mentioned := by
  obtain ⟨v, hv, hf⟩ := mem_mentioned.1 hmem
  refine forall_bound_bind (P := fun v => ∀ f ∈ v.forms, (∃ w ∈ args, f ∈ w.forms) ∨
    f ∈ a.mentioned) ?_ outer params nofun ?_ ?_ v hv f hf
  · exact fun v hv f hf => .inr (mem_mentioned.2 ⟨v, hv, hf⟩)
  · exact fun v hv f hf => .inl ⟨v, hv, hf⟩
  · intro rest hrest f hf
    obtain ⟨w, hw, hf⟩ := Value.mem_formsOfAll.1 hf
    exact .inl ⟨w, hrest hw, hf⟩

theorem mentioned_of_find? {name : String} {v : Value} (hv : a.find? s name = some v) {f : Form}
    (hf : f ∈ v.forms) : f ∈ a.mentioned :=
  mem_mentioned.2 ⟨v, bound_of_find? hv, hf⟩

theorem mentioned_collect (a : Arena) (roots : List Scope) :
    (a.collect roots).2.mentioned ⊆ a.mentioned :=
  mentioned_subset (bound_collect a roots)

end Arena

end Lisp
