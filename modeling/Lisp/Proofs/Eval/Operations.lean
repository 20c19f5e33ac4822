import Lisp.Proofs.Eval.Effects
import Lisp.Proofs.Eval.Outcomes

/-!
# Evaluations as histories of frames

All that an evaluation does to the frames is done by operations on them, and each collection among
these keeps the global scope.

- `Arena.WellFormed.releasesIn_eq_zero`: operations all of whose collections keep a scope do not
  release its place.
- `Session.Operates`: from one session to another by such operations. `Eval.steady_operates` says it
  of evaluations.
- `global_of_evalProgram`: the global frame is still there after a program, and only the names that
  the program defines may have other values in it.
-/

namespace Lisp

/-- A scope that all collections keep is not released. -/
theorem Arena.WellFormed.releasesIn_eq_zero {a : Arena} {h : Scope} {f : Frame}
    {ops : List Operation} (hw : a.WellFormed) (hf : a.frame? h = some f)
    (hops : ∀ roots, .collect roots ∈ ops → h ∈ roots) : a.releasesIn ops h.index = 0 := by
  induction ops generalizing a f with
  | nil => rfl
  | cons op ops ih =>
    have hkept : a.empties op h.index = false := by
      by_cases hcollect : ∃ roots, op = .collect roots
      · obtain ⟨roots, rfl⟩ := hcollect
        have hroot := Reachable.root (a := a) (hops roots List.mem_cons_self)
        have hafter := contains_iff_isOccupied.1 (contains_iff.2 ⟨f, frame?_collect hroot hf⟩)
        have hoccupied : (a.apply (.collect roots)).isOccupied h.index = true := hafter.1
        rw [empties, hoccupied]
        exact Bool.and_false _
      · exact hw.empties_eq_false h.index fun roots heq => hcollect ⟨roots, heq⟩
    have hrest := ih (hw.apply op) (hw.frame?_apply hf hkept) fun roots hmem =>
      hops roots (List.mem_cons_of_mem _ hmem)
    rw [releasesIn, hkept, hrest]
    rfl

/-! ## Sessions -/

/-- One session comes from another by operations on its frames, all of whose collections keep the
global scope. -/
structure Session.Operates (s t : Session) : Prop where
  global : t.global = s.global
  operations : ∃ ops, t.arena = s.arena.applyAll ops ∧
    ∀ roots, .collect roots ∈ ops → s.global ∈ roots

namespace Session.Operates

variable {s t u : Session}

theorem of_arena_eq (hglobal : t.global = s.global) (harena : t.arena = s.arena) : s.Operates t :=
  ⟨hglobal, [], harena, nofun⟩

theorem trans (hst : s.Operates t) (htu : t.Operates u) : s.Operates u := by
  obtain ⟨ops, harena, hops⟩ := hst.operations
  obtain ⟨ops', harena', hops'⟩ := htu.operations
  refine ⟨htu.global.trans hst.global, ops ++ ops', ?_, fun roots hmem => ?_⟩
  · rw [harena', harena, Arena.applyAll, Arena.applyAll, Arena.applyAll, List.foldl_append]
  · rcases List.mem_append.1 hmem with hmem | hmem
    · exact hops roots hmem
    · exact hst.global ▸ hops' roots hmem

theorem define (s : Session) (name : String) (v : Value) : s.Operates (s.define name v) :=
  ⟨rfl, [.set s.global name v], rfl, by simp⟩

theorem collect (s : Session) : s.Operates s.collect.2 := by
  refine ⟨rfl, [.collect s.roots], rfl, fun roots hmem => ?_⟩
  cases List.mem_singleton.1 hmem
  exact List.mem_cons_self

theorem passSafePoint (due : Session → Bool) (s : Session) :
    s.Operates (s.passSafePoint due) := by
  have hcollect : s.Operates s.relieve := (collect s).trans (of_arena_eq rfl rfl)
  unfold Session.passSafePoint
  cases due s with
  | true => exact hcollect.trans (of_arena_eq rfl rfl)
  | false => exact of_arena_eq rfl rfl

theorem wellFormed (h : s.Operates t) (hw : s.arena.WellFormed) : t.arena.WellFormed := by
  obtain ⟨ops, harena, -⟩ := h.operations
  rw [harena]
  exact hw.applyAll ops

/-- The global frame is not released. -/
theorem frame (h : s.Operates t) (hw : s.arena.WellFormed) {f : Frame}
    (hf : s.arena.frame? s.global = some f) :
    ∃ g, t.arena.frame? s.global = some g ∧
      t.arena.releasesAt s.global.index = s.arena.releasesAt s.global.index := by
  obtain ⟨ops, harena, hops⟩ := h.operations
  have hkept := hw.releasesIn_eq_zero hf hops
  rw [harena]
  exact ⟨_, hw.frame?_applyAll hf hkept, by rw [hw.releasesAt_applyAll, hkept, Nat.add_zero]⟩

end Session.Operates

/-- What an evaluation does to the frames are such operations. -/
theorem Eval.steady_operates : Steady Session.Operates where
  of_local hx s := by
    obtain ⟨ops, hnone, hops⟩ := hx.operations s
    exact ⟨by rw [hx.rest s], ops, hops, fun roots hmem => absurd hmem (hnone roots)⟩
  passSafePoint := .passSafePoint
  trans := .trans
  moveTo _ h := ⟨h.global, h.operations⟩
  leave h := ⟨h.global, h.operations⟩
  letGo h := ⟨h.global, h.operations⟩

/-! ## The global frame -/

/-- The names that a program may define in the global scope. -/
def Program.Defines (p : Program) (name : String) : Prop := ∃ f ∈ p.forms, f.Defines name

/-- The global frame is still there after a program, and the same scope is around it. Names that the
program does not define have the values that they had. -/
theorem Eval.global_of_evalProgram (due : Session → Bool) (n : Nat) (p : Program) {s : Session}
    {f : Frame} (hw : s.arena.WellFormed) (hf : s.arena.frame? s.global = some f) :
    ∃ g, (evalProgram due n p s).2.arena.frame? s.global = some g ∧ f.Kept p.Defines g := by
  have hsafe : (s.passSafePoint due).arena.WellFormed ∧
      s.arena.Evolves s.global p.Defines (s.passSafePoint due).arena :=
    evolves_passSafePoint due hw
  have hglobal := (Session.Operates.passSafePoint due s).global
  have hallows : ∀ g ∈ Form.significant p.forms, Region.Allows ⟨s.global, p.Defines⟩ g :=
    fun g hg name hname => ⟨g, Form.mem_of_mem_significant hg, hname⟩
  have hforms : Keeps s.global p.Defines
      (evalAll (eval due n) s.global (Form.significant p.forms)) :=
    ((Composed.evalAll hallows).confined (keeps_eval due n)).keeps
  have hevolves : s.arena.Evolves s.global p.Defines (evalProgram due n p s).2.arena := by
    show s.arena.Evolves s.global p.Defines
      (evalAll (eval due n) (s.passSafePoint due).global (Form.significant p.forms)
        (s.passSafePoint due)).2.arena
    rw [hglobal]
    exact hsafe.2.trans (hforms _ hsafe.1).2
  obtain ⟨g, hg, hreleases⟩ := (steady_operates.evalProgram due n p s).frame hw hf
  exact ⟨g, hg, (hevolves.frame (by omega) hf hg).1⟩

end Lisp
