import Lisp.Proofs.Eval.Likeness

/-!
# Sessions that are related through others

- `Renaming.trans`: names for names. Sessions that are both related to a third one are related
  (`Renaming.Relates.trans`).
- `Renaming.Relates.mapForms`: sessions stay related when both get other forms in their values.
- `Session.mapForms_eq_self`: a session whose forms stay as they are stays as it is.
-/

namespace Lisp

/-! ## Names for names -/

theorem Value.rename_rename (r q : Scope → Scope) (v : Value) :
    (v.rename r).rename q = v.rename (q ∘ r) := by
  induction v using itemwise with
  | h v ih =>
    cases v with
    | list vs =>
      simp only [rename, renameAll_eq_map, List.map_map]
      exact congrArg list (List.map_congr_left ih)
    | vector vs =>
      simp only [rename, renameAll_eq_map, List.map_map]
      exact congrArg vector (List.map_congr_left ih)
    | map es =>
      simp only [rename, renameEntries_eq_map, List.map_map]
      refine congrArg map (List.map_congr_left fun e he => ?_)
      exact congrArg (e.1, ·) (ih e.2 (List.mem_map_of_mem he))
    | _ => rfl

theorem Frame.rename_rename (r q : Scope → Scope) (f : Frame) :
    (f.rename r).rename q = f.rename (q ∘ r) := by
  simp only [rename, List.map_map, Option.map_map]
  exact congrArg (Frame.mk _) (List.map_congr_left fun b _ =>
    congrArg (b.1, ·) (b.2.rename_rename r q))

namespace Renaming

/-- The names that names have. -/
def trans (ρ ρ' : Renaming) : Renaming where
  map := ρ'.map ∘ ρ.map
  dom := {h | h ∈ ρ.dom ∧ ρ.map h ∈ ρ'.dom}
  injOn _ hh _ hk heq := ρ.injOn hh.1 hk.1 (ρ'.injOn hh.2 hk.2 heq)

variable {ρ ρ' : Renaming} {s t u : Session} {vs ws us : List Value}

theorem OnValues.trans (h : ρ.OnValues vs ws) (h' : ρ'.OnValues ws us) :
    (ρ.trans ρ').OnValues vs us := by
  obtain ⟨rfl, hdom⟩ := h
  obtain ⟨rfl, hdom'⟩ := h'
  refine ⟨?_, fun c hc => ⟨hdom c hc, hdom' _ ?_⟩⟩
  · rw [List.map_map]
    exact List.map_congr_left fun v _ => v.rename_rename ρ.map ρ'.map
  · rw [← Value.renameAll_eq_map, Value.capturedByAll_renameAll]
    exact List.mem_map_of_mem hc

/-- Names for values and for others after them. -/
theorem OnValues.of_append (h : ρ.OnValues (vs ++ ws) us) :
    ∃ vs' ws', us = vs' ++ ws' ∧ ρ.OnValues vs vs' ∧ ρ.OnValues ws ws' := by
  obtain ⟨rfl, hdom⟩ := h
  simp only [Value.capturedByAll_eq_flatMap, List.flatMap_append] at hdom
  rw [List.map_append]
  refine ⟨_, _, rfl, ⟨rfl, fun c hc => hdom c ?_⟩, rfl, fun c hc => hdom c ?_⟩
  · rw [Value.capturedByAll_eq_flatMap] at hc
    exact List.mem_append_left _ hc
  · rw [Value.capturedByAll_eq_flatMap] at hc
    exact List.mem_append_right _ hc

namespace Relates

/-- Sessions that are related to the same session are related. -/
theorem trans (h : ρ.Relates s t) (h' : ρ'.Relates t u) : (ρ.trans ρ').Relates s u where
  wellFormed_left := h.wellFormed_left
  wellFormed_right := h'.wellFormed_right
  frame := by
    rintro k ⟨hk, hk'⟩
    obtain ⟨f, hf, hlinks, hg⟩ := h.frame k hk
    obtain ⟨g, hg', hlinks', hu⟩ := h'.frame _ hk'
    rw [hg] at hg'
    cases hg'
    refine ⟨f, hf, fun l hl => ⟨hlinks l hl, hlinks' _ ?_⟩, ?_⟩
    · rw [Frame.links_rename]
      exact List.mem_map_of_mem hl
    · rw [Frame.rename_rename] at hu
      exact hu
  depth k hk := h.depth k hk.1
  roots k hk := by
    refine ⟨h.roots k hk, h'.roots _ ?_⟩
    rw [h.roots_map]
    exact List.mem_map_of_mem hk
  global := by rw [h'.global, h.global]; rfl
  active := by rw [h'.active, h.active, List.map_map]; rfl
  held := by
    rw [h'.held, h.held, List.map_map]
    exact List.map_congr_left fun v _ => v.rename_rename ρ.map ρ'.map
  sink := h'.sink.trans h.sink
  readings := h'.readings.trans h.readings
  lost_left := h.lost_left
  lost_right := h'.lost_right

end Relates

end Renaming

/-! ## Other forms -/

theorem Frame.mapForms_rename (m : Form → Form) (r : Scope → Scope) (f : Frame) :
    (f.rename r).mapForms m = (f.mapForms m).rename r := by
  simp only [rename, mapForms, Bindings.mapForms, List.map_map]
  exact congrArg (Frame.mk _) (List.map_congr_left fun b _ =>
    congrArg (b.1, ·) (b.2.mapForms_rename m r))

/-- Values keep their names when they get other forms. -/
theorem Renaming.OnValues.mapForms {ρ : Renaming} {vs ws : List Value} (h : ρ.OnValues vs ws)
    (m : Form → Form) : ρ.OnValues (vs.map (Value.mapForms m)) (ws.map (Value.mapForms m)) := by
  obtain ⟨rfl, hdom⟩ := h
  constructor
  · rw [List.map_map, List.map_map]
    exact List.map_congr_left fun v _ => v.mapForms_rename m ρ.map
  · simpa only [Value.capturedByAll_eq_flatMap, List.flatMap_map, Value.captured_mapForms]
      using hdom

theorem Arena.WellFormed.mapForms {a : Arena} (h : a.WellFormed) (m : Form → Form) :
    (a.mapForms m).WellFormed := by
  refine ⟨h.nodup, fun i => (h.mem_free i).trans ?_⟩
  simp only [Arena.mapForms, Array.getElem?_map]
  cases a.slots[i]? with
  | none => simp
  | some slot => simp [Slot.mapForms]

/-- Sessions stay related when both get other forms in their values. -/
theorem Renaming.Relates.mapForms {ρ : Renaming} {s t : Session} (h : ρ.Relates s t)
    (m : Form → Form) : ρ.Relates (s.mapForms m) (t.mapForms m) := by
  have hframe : ∀ (u : Session) k f, u.arena.frame? k = some f →
      (u.mapForms m).arena.frame? k = some (f.mapForms m) := by
    intro u k f hf
    show (u.arena.mapForms m).frame? k = _
    rw [Arena.frame?_mapForms, hf]
    rfl
  exact { h with
    wellFormed_left := h.wellFormed_left.mapForms m
    wellFormed_right := h.wellFormed_right.mapForms m
    frame := by
      intro k hk
      obtain ⟨f, hf, hlinks, hg⟩ := h.frame k hk
      refine ⟨f.mapForms m, hframe s k f hf, ?_, ?_⟩
      · rwa [Frame.links_mapForms]
      · rw [hframe t _ _ hg, Frame.mapForms_rename]
    depth := by
      intro k hk
      obtain ⟨n, hn⟩ := h.depth k hk
      refine ⟨n, hn.transport (r := id) (P := fun _ => True) trivial fun k' f _ hf => ?_⟩
      exact ⟨f.mapForms m, hframe s k' f hf, by simp [Frame.mapForms], by simp⟩
    roots := by
      rw [Session.roots_mapForms]
      exact h.roots
    held := by
      show t.held.map (Value.mapForms m) = (s.held.map (Value.mapForms m)).map _
      rw [h.held, List.map_map, List.map_map]
      exact List.map_congr_left fun v _ => v.mapForms_rename m ρ.map }

/-- A session whose forms stay as they are stays as it is. -/
theorem Session.mapForms_eq_self {m : Form → Form} {s : Session}
    (h : ∀ f ∈ s.mentioned, m f = f) : s.mapForms m = s := by
  have hheld : s.held.map (Value.mapForms m) = s.held := by
    refine (List.map_congr_left fun v hv => ?_).trans (List.map_id' s.held)
    exact Value.mapForms_eq_self fun f hf => h f (.inr ⟨v, hv, hf⟩)
  have hslots : s.arena.slots.map (Slot.mapForms m) = s.arena.slots := by
    apply Array.ext_getElem?
    intro i
    rw [Array.getElem?_map]
    rcases hslot : s.arena.slots[i]? with _ | ⟨releases, _ | frame⟩
    · rfl
    · rfl
    · -- What is bound in a frame is mentioned, for each frame there is has a handle.
      have hframe : s.arena.frame? ⟨i, UInt32.ofNat releases⟩ = some frame :=
        Arena.frame?_eq_some_iff.2 ⟨_, hslot, rfl, rfl⟩
      have hbindings : frame.bindings.mapForms m = frame.bindings := by
        refine (List.map_congr_left fun b hb => ?_).trans (List.map_id' frame.bindings)
        refine congrArg (b.1, ·) (Value.mapForms_eq_self fun f hf => ?_)
        exact h f (.inl ⟨_, frame, hframe, b, hb, hf⟩)
      simp only [Option.map_some, Slot.mapForms, Frame.mapForms, hbindings]
  simp only [mapForms, Arena.mapForms, hheld, hslots]

end Lisp
