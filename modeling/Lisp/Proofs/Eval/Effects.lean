import Lisp.Proofs.Eval.Composed

/-!
# Evaluation changes no scope but its own

- `Eval.Keeps`: an action that changes no frame there is, but for bindings of some names in one
  scope.
- `Eval.Confined`: an action that does so in its region, together with whatever is done later in the
  region in which it ends.
- `Composed.confined`: composed actions are confined, if the evaluator of their parts keeps to its
  own scopes.
- `eval_keeps_frames`: whole evaluations.
-/

namespace Lisp

namespace Eval

variable {α β : Type} {scope : Scope} {names : String → Prop}

/-! ## Actions that keep frames -/

/-- An action that changes no frame but the one of a scope, and that one only at some names. -/
def Keeps (scope : Scope) (names : String → Prop) (x : Eval α) : Prop :=
  ∀ s : Session, s.arena.WellFormed → (x s).2.arena.WellFormed ∧
    s.arena.Evolves scope names (x s).2.arena

/-- An action changes no frame but the one of its region, and that one only at the names of the
region. If it ends in another region, then whatever is done there does not matter to the frames that
there were before. -/
def Confined (r : Region) (Q : Region → α → Prop) (x : Eval α) : Prop :=
  ∀ s : Session, s.arena.WellFormed → (x s).2.arena.WellFormed ∧
    match (x s).1 with
    | .ok a => ∃ r', Q r' a ∧ ∀ b, (x s).2.arena.Evolves r'.scope r'.names b →
        s.arena.Evolves r.scope r.names b
    | .error _ => s.arena.Evolves r.scope r.names (x s).2.arena

section confined

variable {r : Region} {Q : Region → α → Prop} {x : Eval α} {act : Evaluator → Eval α}

theorem Confined.keeps (hx : Confined r Q x) : Keeps r.scope r.names x := by
  intro s hw
  obtain ⟨hw', hev⟩ := hx s hw
  refine ⟨hw', ?_⟩
  generalize x s = result at hev
  obtain ⟨e | a, s'⟩ := result
  · exact hev
  · obtain ⟨r', -, hlater⟩ := hev
    exact hlater _ (.refl _)

/-- An action that leaves the frames alone, and whose results may be had in its region. -/
theorem Confined.of_arena_eq (hx : ∀ s, (x s).2.arena = s.arena) (hQ : ∀ a, Q r a) :
    Confined r Q x := by
  intro s hw
  have hsame := hx s
  generalize x s = result at hsame
  obtain ⟨e | a, s'⟩ := result
  · exact ⟨hsame ▸ hw, hsame ▸ .refl _⟩
  · exact ⟨hsame ▸ hw, r, hQ a, fun b hb => hsame ▸ hb⟩

theorem Confined.bind {R : Region → β → Prop} {g : α → Eval β} (hx : Confined r Q x)
    (hg : ∀ r' a, Q r' a → Confined r' R (g a)) : Confined r R (x >>= g) := by
  intro s hw
  rw [bind_apply]
  obtain ⟨hw', hev⟩ := hx s hw
  generalize x s = result at hw' hev
  obtain ⟨e | a, s'⟩ := result
  · exact ⟨hw', hev⟩
  · obtain ⟨r', ha, hlater⟩ := hev
    obtain ⟨hw'', hev'⟩ := hg r' a ha s' hw'
    refine ⟨hw'', ?_⟩
    dsimp only
    generalize g a s' = result at hev'
    obtain ⟨e | b, s''⟩ := result
    · exact hlater _ hev'
    · obtain ⟨r'', hb, hlater'⟩ := hev'
      exact ⟨r'', hb, fun c hc => hlater c (hlater' c hc)⟩

theorem Confined.entering (hx : Confined r Q x) (inner : Scope) :
    Confined r Q (Eval.entering inner x) := fun s hw => hx (s.enter inner) hw

theorem Confined.holding (hx : Confined r Q x) (v : Value) : Confined r Q (Eval.holding v x) :=
  fun s hw => hx (s.hold v) hw

theorem Basic.confined (h : Basic (fun _ => True) r Q x) : Confined r Q x := by
  cases h with
  | pure h => exact fun s hw => ⟨hw, r, h, fun _ => id⟩
  | fail e => exact fun s hw => ⟨hw, .refl _⟩
  | lookup scope name span =>
    exact .of_arena_eq (fun s => by rw [snd_lookup]) fun _ => ⟨rfl, trivial⟩
  | @assign name v hname _ =>
    refine fun s hw => ⟨hw.set r.scope name v, r, ⟨rfl, trivial⟩, fun b hb => ?_⟩
    refine ((Arena.Evolves.set s.arena r.scope name v).mono ?_).trans hb
    rintro _ rfl
    exact hname
  | newScope outer => exact fun s hw => ⟨hw.create _, _, rfl, fun b hb => hb.of_create hw⟩
  | newFrame outer params _ =>
    refine fun s hw => ⟨hw.bind outer params _, _, rfl, fun b hb => ?_⟩
    -- The bindings of the parameters are made in the new scope.
    exact ((Arena.Evolves.setAll _ _ _).trans hb).of_create hw
  | callBuiltin b span _ =>
    exact .of_arena_eq (arena_callBuiltin b span _) fun _ => ⟨rfl, trivial⟩

theorem Composed.confined (hact : Composed (fun _ => True) r Q act) {ev : Evaluator}
    (hev : ∀ f scope, Keeps scope (Form.Defines · f) (ev f scope)) : Confined r Q (act ev) := by
  induction hact with
  | basic h => exact h.confined
  | @ask r f hf =>
    intro s hw
    obtain ⟨hw', hevolves⟩ := hev f r.scope s hw
    refine ⟨hw', ?_⟩
    dsimp only
    generalize ev f r.scope s = result at hevolves
    obtain ⟨e | v, s'⟩ := result
    · exact hevolves.mono hf
    · exact ⟨r, ⟨rfl, trivial⟩, fun b hb => (hevolves.mono hf).trans hb⟩
  | bind _ _ ihx ihy => exact ihx.bind ihy
  | entering scope _ ih => exact ih.entering scope
  | holding v _ ih => exact ih.holding v

end confined

/-! ## Whole evaluations -/

/-- A safe point releases frames and changes none. -/
theorem evolves_passSafePoint (due : Session → Bool) {s : Session} (hw : s.arena.WellFormed) :
    (s.passSafePoint due).arena.WellFormed ∧
      s.arena.Evolves scope names (s.passSafePoint due).arena := by
  unfold Session.passSafePoint
  cases due s with
  | true => exact ⟨hw.collect _, .collect _ _⟩
  | false => exact ⟨hw, .refl _⟩

theorem keeps_eval (due : Session → Bool) (n : Nat) (f : Form) (scope : Scope) :
    Keeps scope (Form.Defines · f) (eval due n f scope) := by
  induction n generalizing f scope with
  | zero => exact fun _ hw => ⟨hw, .refl _⟩
  | succ n ih =>
    intro s hw
    have hstep := (composed_step .trivial f scope).confined ih (s.enter scope) hw
    rw [eval_succ]
    generalize step (eval due n) f scope (s.enter scope) = result at hstep
    obtain ⟨r, s'⟩ := result
    rcases r with e | v | ⟨inner, next⟩
    · exact hstep
    · obtain ⟨hw', r', -, hlater⟩ := hstep
      exact ⟨hw', hlater _ (.refl _)⟩
    · obtain ⟨hw', r', ⟨rfl, hallows⟩, hlater⟩ := hstep
      -- A collection comes between the step and the evaluation of what it leaves.
      have hsafe : ((s'.moveTo r'.scope).passSafePoint due).arena.WellFormed ∧
          s'.arena.Evolves r'.scope r'.names
            ((s'.moveTo r'.scope).passSafePoint due).arena :=
        evolves_passSafePoint due hw'
      have hnext := ih next r'.scope ((s'.moveTo r'.scope).passSafePoint due).leave hsafe.1
      exact ⟨hnext.1, hlater _ (hsafe.2.trans (hnext.2.mono hallows))⟩

/-- **Evaluation changes no scope but its own.** A frame that was there before an evaluation and
still is has the same scope around it. If it is not the frame of the scope of the evaluation, it
has the same bindings, and otherwise the same bindings of all names that the form does not
define. The places of the session are in order, as those of every session are, and none is released
2^32 times, after which its generations come round again. -/
theorem eval_keeps_frames (due : Session → Bool) (fuel : Nat) (f : Form) (scope : Scope)
    {s : Session} (hw : s.arena.WellFormed)
    (hreleases : ∀ i,
      (eval due fuel f scope s).2.arena.releasesAt i < s.arena.releasesAt i + 2 ^ 32)
    {h : Scope} {before after : Frame} (hbefore : s.arena.frame? h = some before)
    (hafter : (eval due fuel f scope s).2.arena.frame? h = some after) :
    after.outer = before.outer ∧ (h ≠ scope → after.bindings = before.bindings) ∧
      ∀ n, ¬f.Defines n → after.bindings.lookup n = before.bindings.lookup n := by
  obtain ⟨-, hev⟩ := keeps_eval due fuel f scope s hw
  obtain ⟨hkept, hsame⟩ := hev.frame (hreleases h.index) hbefore hafter
  exact ⟨hkept.outer, fun hne => by rw [hsame hne], hkept.lookup⟩

/-! ## A function that defines a global name -/

/-- A function that defines `x` as its argument, `(fn* (y) (def! x y))`. -/
def definer : Form :=
  .list default none [.symbol default "fn*", .list default none [.symbol default "y"],
    .list default none [.symbol default "def!", .symbol default "x", .symbol default "y"]]

/-- A call of it. -/
def definerCall : Form := .list default none [definer, .literal default .int "2"]

/-- The call defines nothing, since the definition is inside a function. -/
theorem not_defines_definerCall : ¬definerCall.Defines "x" := by
  intro h
  cases h with
  | here hhead _ => exact absurd hhead (by decide)
  | inside _ _ hg hdef =>
    rcases List.mem_cons.1 hg with rfl | hg
    · cases hdef with
      | here hhead _ => exact absurd hhead (by decide)
      | inside _ hfunction _ _ => exact hfunction (by decide)
    · obtain rfl := List.mem_singleton.1 hg
      cases hdef with
      | here hhead _ => exact absurd hhead (by decide)
      | inside _ _ hnone _ => cases hnone

/-- A session in which `x` is 7. -/
def definedSession : Session := (Session.empty {}).define "x" (.int 7)

/-- The global `x` is still 7 after the call. -/
theorem eval_keeps_frames_definerCall :
    ∃ after, (eval Session.isCrowded 3 definerCall definedSession.global
        definedSession).2.arena.frame? definedSession.global = some after ∧
      after.bindings.lookup "x" = some (.int 7) := by
  have hw : definedSession.arena.WellFormed :=
    (Arena.wellFormed_empty.create none).set (Session.empty {}).global "x" (.int 7)
  have hbefore : definedSession.arena.frame? definedSession.global =
      some ⟨none, [("x", .int 7)]⟩ := rfl
  have hafter : ((eval Session.isCrowded 3 definerCall definedSession.global
      definedSession).2.arena.frame? definedSession.global).isSome = true := by decide +kernel
  have hcounts : (eval Session.isCrowded 3 definerCall definedSession.global
      definedSession).2.arena.slots.toList.map Slot.releases = [0, 0] := by decide +kernel
  have hreleases : ∀ i, (eval Session.isCrowded 3 definerCall definedSession.global
      definedSession).2.arena.releasesAt i < definedSession.arena.releasesAt i + 2 ^ 32 := by
    intro i
    rw [Arena.releasesAt_eq_getElem?, hcounts]
    rcases i with _ | _ | i <;> simp
  obtain ⟨after, hafter⟩ := Option.isSome_iff_exists.1 hafter
  obtain ⟨-, -, hlookup⟩ := eval_keeps_frames _ _ _ _ hw hreleases hbefore hafter
  exact ⟨after, hafter, hlookup "x" not_defines_definerCall⟩

end Eval

end Lisp
