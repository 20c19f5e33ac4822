import Lisp.Proofs.Scope.Census
import Lisp.Proofs.Session.Requests
import Lisp.Proofs.Session.Sites

/-!
# The heap is bounded at safe points

- `Eval.Pauses`, `Session.Pauses`: the sessions with which the evaluation of a form or of a source
  text comes to a safe point, its own or one of an evaluation that it asks for, at any depth.
- `Session.Passes`: a course of safe points. `Eval.exists_passes` and `Session.exists_passes` go
  from the first session of an evaluation to the last, through exactly the safe points it comes to.
- `Session.History`: a new session after some source texts and collections, with all the safe points
  that it came to since its startup.
- `heap_bounded`: after each of them there are fewer frames than the threshold, which stays within
  twice the number of frames that automatic collections found in use.
-/

namespace Lisp

/-! ## Safe points of an evaluation -/

/-- The sessions with which an evaluation comes to a safe point. One follows each step that leaves a
form to evaluate. -/
inductive Eval.Pauses (due : Session → Bool) : Nat → Form → Scope → Session → Session → Prop
  | part {n : Nat} {f g : Form} {scope : Scope} {s u : Session} {m : Moment} :
      Asks (step · f scope) (eval due n) (s.enter scope) g m →
      Pauses due n g m.scope m.session u → Pauses due (n + 1) f scope s u
  | here {n : Nat} {f next : Form} {scope inner : Scope} {s s' : Session} :
      step (eval due n) f scope (s.enter scope) = (.ok (.tail inner next), s') →
      Pauses due (n + 1) f scope s (s'.moveTo inner)
  | tail {n : Nat} {f next : Form} {scope inner : Scope} {s s' u : Session} :
      step (eval due n) f scope (s.enter scope) = (.ok (.tail inner next), s') →
      Pauses due n next inner ((s'.moveTo inner).passSafePoint due).leave u →
      Pauses due (n + 1) f scope s u

/-- The sessions with which the evaluation of a source text comes to a safe point. The first one
comes before its first form. -/
inductive Session.Pauses (due : Session → Bool) (fuel : Nat) (s : Session) (source : String) :
    Session → Prop
  | first {p : Program} : (s.read source).1 = .ok p → Pauses due fuel s source (s.read source).2
  | form {p : Program} {f : Form} {m : Eval.Moment} {u : Session} : (s.read source).1 = .ok p →
      Eval.Asks (Eval.evalAll · s.global (Form.significant p.forms)) (Eval.eval due fuel)
        ((s.read source).2.passSafePoint due) f m →
      Eval.Pauses due fuel f m.scope m.session u → Pauses due fuel s source u

namespace Session

variable {ε : Type} {before after : ε → Session} {P : ε → Session → Prop} {es : List ε}
  {due : Session → Bool} {s t u : Session} {us : List Session} {sink : Sink} {ts : Set Session}

/-- A course of safe points. -/
abbrev Passes (due : Session → Bool) : Session → List Session → Session → Prop :=
  Course id (passSafePoint due)

/-- Events during which safe points are passed make up one course of safe points. -/
theorem Course.exists_passes (h : Course before after s es t)
    (hes : ∀ e ∈ es, ∃ us, Passes due (before e) us (after e) ∧ ∀ u, u ∈ us ↔ P e u) :
    ∃ us, Passes due s us t ∧ ∀ u, u ∈ us ↔ ∃ e ∈ es, P e u := by
  induction h with
  | nil hquiet => exact ⟨[], .nil hquiet, by simp⟩
  | cons hquiet _ ih =>
    obtain ⟨us, hus, hmem⟩ := hes _ List.mem_cons_self
    obtain ⟨vs, hvs, hmem'⟩ := ih fun e he => hes e (List.mem_cons_of_mem _ he)
    refine ⟨us ++ vs, (hus.quiet_left hquiet).append hvs, fun u => ?_⟩
    rw [List.mem_append, hmem, hmem', List.exists_mem_cons_iff]

end Session

namespace Eval

variable {due : Session → Bool} {n : Nat} {f : Form} {scope : Scope} {s u : Session}

theorem pauses_succ_iff :
    Pauses due (n + 1) f scope s u ↔
      (∃ g m, Asks (step · f scope) (eval due n) (s.enter scope) g m ∧
        Pauses due n g m.scope m.session u) ∨
      ∃ inner next s', step (eval due n) f scope (s.enter scope) = (.ok (.tail inner next), s') ∧
        (u = s'.moveTo inner ∨
          Pauses due n next inner ((s'.moveTo inner).passSafePoint due).leave u) := by
  constructor
  · intro h
    cases h with
    | part hasks hpart => exact .inl ⟨_, _, hasks, hpart⟩
    | here hstep => exact .inr ⟨_, _, _, hstep, .inl rfl⟩
    | tail hstep hrest => exact .inr ⟨_, _, _, hstep, .inr hrest⟩
  · rintro (⟨g, m, hasks, hpart⟩ | ⟨inner, next, s', hstep, rfl | hrest⟩)
    · exact .part hasks hpart
    · exact .here hstep
    · exact .tail hstep hrest

/-- If the safe points of single evaluations follow each other, then so do those of an action that
asks for some: they are all of theirs. -/
theorem Composed.exists_passes {α : Type} {r : Region} {Q : Region → α → Prop}
    {act : Evaluator → Eval α} (hact : Composed (fun _ => True) r Q act)
    (hev : ∀ f scope (s : Session), ∃ us, s.Passes due us (eval due n f scope s).2 ∧
      ∀ u, u ∈ us ↔ Pauses due n f scope s u) (s : Session) :
    ∃ us, s.Passes due us (act (eval due n) s).2 ∧
      ∀ u, u ∈ us ↔ ∃ g m, Asks act (eval due n) s g m ∧ Pauses due n g m.scope m.session u := by
  obtain ⟨rs, hmakes⟩ := hact.exists_makes (eval due n) s
  obtain ⟨us, hus, hmem⟩ := hmakes.answered.exists_passes fun r _ =>
    hev r.form r.moment.scope r.moment.session
  refine ⟨us, hus, fun u => (hmem u).trans ⟨?_, ?_⟩⟩
  · rintro ⟨r, hr, hpart⟩
    exact ⟨r.form, r.moment, hmakes.asks_iff.2 hr, hpart⟩
  · rintro ⟨g, m, hasks, hpart⟩
    exact ⟨⟨g, m⟩, hmakes.asks_iff.1 hasks, hpart⟩

/-- The safe points of an evaluation follow each other from its first session to its last. -/
theorem exists_passes (due : Session → Bool) (n : Nat) (f : Form) (scope : Scope) (s : Session) :
    ∃ us, s.Passes due us (eval due n f scope s).2 ∧ ∀ u, u ∈ us ↔ Pauses due n f scope s u := by
  induction n generalizing f scope s with
  | zero =>
    refine ⟨[], .nil ((Session.Quiet.enter s scope).trans (.leave _)), fun u => ?_⟩
    exact ⟨nofun, nofun⟩
  | succ n ih =>
    obtain ⟨us, hus, hmem⟩ := (composed_step .trivial f scope).exists_passes ih (s.enter scope)
    have hbegin := hus.quiet_left (.enter s scope)
    simp only [pauses_succ_iff, ← hmem, eval_succ]
    generalize step (eval due n) f scope (s.enter scope) = ended at hbegin
    -- Only a step that leaves a form to evaluate has a safe point of its own.
    rcases ended with ⟨e | v | ⟨inner, next⟩, s'⟩
    · refine ⟨us, hbegin.quiet_right (.leave s'), fun u => ⟨.inl, ?_⟩⟩
      rintro (hu | ⟨_, _, _, ⟨⟩, -⟩)
      exact hu
    · refine ⟨us, hbegin.quiet_right (.leave s'), fun u => ⟨.inl, ?_⟩⟩
      rintro (hu | ⟨_, _, _, ⟨⟩, -⟩)
      exact hu
    · obtain ⟨vs, hvs, hmem'⟩ := ih next inner ((s'.moveTo inner).passSafePoint due).leave
      have hrest : s'.Passes due (s'.moveTo inner :: vs)
          (eval due n next inner ((s'.moveTo inner).passSafePoint due).leave).2 :=
        .cons (.moveTo s' inner) (hvs.quiet_left (.leave _))
      refine ⟨us ++ s'.moveTo inner :: vs, hbegin.append hrest, fun u => ?_⟩
      rw [List.mem_append, List.mem_cons, hmem']
      refine or_congr Iff.rfl ⟨fun hu => ⟨inner, next, s', rfl, hu⟩, ?_⟩
      rintro ⟨_, _, _, ⟨⟩, hu⟩
      exact hu

end Eval

namespace Session

variable {due : Session → Bool} {s t u : Session} {us : List Session} {sink : Sink}
  {ts : Set Session}

theorem Quiet.read (s : Session) (source : String) : s.Quiet (s.read source).2 := ⟨rfl, rfl, id⟩

/-- The safe points of a source text follow each other from the first session to the last. -/
theorem exists_passes (due : Session → Bool) (fuel : Nat) (s : Session) (source : String) :
    ∃ us, s.Passes due us (s.evalSourceWith due fuel source).2 ∧
      ∀ u, u ∈ us ↔ s.Pauses due fuel source u := by
  cases hparse : Program.parse source s.readings with
  | error e =>
    have hread : (s.read source).1 = .error e := hparse
    refine ⟨[], ?_, fun u => ⟨nofun, ?_⟩⟩
    · rw [evalSourceWith, read, hparse]
      exact .nil (.read s source)
    · rintro (hp | ⟨hp, -, -⟩) <;> cases hread.symm.trans hp
  | ok p =>
    have hread : (s.read source).1 = .ok p := hparse
    have hglobal : ((s.read source).2.passSafePoint due).global = s.global :=
      ((s.read source).2.trimmed_passSafePoint due).sameRoots.global
    obtain ⟨us, hus, hmem⟩ :=
      (Eval.Composed.evalAll_whole s.global (Form.significant p.forms)).exists_passes
        (Eval.exists_passes due fuel) ((s.read source).2.passSafePoint due)
    refine ⟨(s.read source).2 :: us, .cons (.read s source) ?_, fun u => ?_⟩
    · rw [evalSourceWith_eq due fuel hparse, perform_snd]
      show Course _ _ _ us (Eval.evalAll (Eval.eval due fuel)
        ((s.read source).2.passSafePoint due).global (Form.significant p.forms) _).2
      rw [hglobal]
      exact hus
    · rw [List.mem_cons, hmem]
      constructor
      · rintro (rfl | ⟨f, m, hasks, hpart⟩)
        · exact .first hread
        · exact .form hread hasks hpart
      · rintro (- | ⟨hp, hasks, hpart⟩)
        · exact .inl rfl
        · cases hread.symm.trans hp
          exact .inr ⟨_, _, hasks, hpart⟩

/-! ## Along a course of safe points -/

theorem safePoints_passSafePoint (due : Session → Bool) (s : Session) :
    (s.passSafePoint due).safePoints = s.safePoints + 1 := by
  unfold passSafePoint
  cases due s <;> rfl

/-- Safe points are counted one by one. -/
theorem Passes.safePoints (h : s.Passes due us t) :
    us.map Session.safePoints = List.range' s.safePoints us.length ∧
      t.safePoints = s.safePoints + us.length := by
  induction h with
  | nil hquiet => exact ⟨rfl, hquiet.safePoints⟩
  | @cons s t u us hquiet _ ih =>
    have hfirst : u.safePoints = s.safePoints := hquiet.safePoints
    rw [safePoints_passSafePoint, hfirst] at ih
    constructor
    · rw [List.map_cons, List.length_cons, List.range'_succ, ih.1, hfirst]
    · rw [ih.2, List.length_cons]
      omega

/-- Every count up to the last belongs to one safe point. -/
theorem Passes.bijOn (h : s.Passes due us t) :
    Set.BijOn Session.safePoints {u | u ∈ us} (Set.Ico s.safePoints t.safePoints) := by
  obtain ⟨hcounts, hend⟩ := h.safePoints
  have hmem : ∀ k, k ∈ us.map Session.safePoints ↔ s.safePoints ≤ k ∧ k < t.safePoints := by
    intro k
    rw [hcounts, hend, List.mem_range'_1]
  refine ⟨fun u hu => (hmem _).1 (List.mem_map_of_mem hu), ?_, fun k hk => ?_⟩
  · have hnodup : (us.map Session.safePoints).Nodup := hcounts ▸ List.nodup_range'
    exact fun u hu v hv heq => List.inj_on_of_nodup_map hnodup hu hv heq
  · exact List.mem_map.1 ((hmem k).2 hk)

/-- The scopes of the frames that a session has in use. -/
def inUse (s : Session) : Set Scope := {c | s.arena.InUse s.roots c}

/-- A safe point leaves fewer frames than the threshold. -/
theorem live_passSafePoint_lt (s : Session) :
    (s.passSafePoint isCrowded).arena.live < (s.passSafePoint isCrowded).threshold := by
  unfold passSafePoint
  cases hcrowded : s.isCrowded with
  | true =>
    show s.collect.2.arena.live < max (2 * s.collect.2.arena.live) leastThreshold
    unfold leastThreshold
    omega
  | false => exact not_le.1 (of_decide_eq_false hcrowded)

/-- A safe point leaves the threshold alone, unless it collects: then the threshold follows the
number of frames in use. -/
theorem threshold_passSafePoint (hw : s.arena.WellFormed) :
    (s.passSafePoint isCrowded).threshold = s.threshold ∨ s.isCrowded = true ∧
      (s.passSafePoint isCrowded).threshold = max (2 * s.inUse.ncard) leastThreshold := by
  unfold passSafePoint
  cases hcrowded : s.isCrowded with
  | true =>
    have hlive : s.collect.2.arena.live = s.inUse.ncard := hw.live_collect_eq_ncard s.roots
    exact .inr ⟨rfl, congrArg (fun n => max (2 * n) leastThreshold) hlive⟩
  | false => exact .inl rfl

/-- After each safe point on the way, the threshold is what it was at first or what a collection up
to then left. -/
theorem Passes.threshold (h : s.Passes isCrowded us t) (hw : s.arena.WellFormed) :
    ∀ u ∈ us, (u.passSafePoint isCrowded).threshold = s.threshold ∨
      ∃ v ∈ us, v.isCrowded = true ∧ v.safePoints ≤ u.safePoints ∧
        (u.passSafePoint isCrowded).threshold = max (2 * v.inUse.ncard) leastThreshold := by
  induction h with
  | nil => nofun
  | @cons s t v us hquiet hrest ih =>
    have hv : v.arena.WellFormed := hquiet.wellFormed hw
    have hpassed := (v.trimmed_passSafePoint isCrowded).wellFormed hv
    have hfirst : v.threshold = s.threshold := hquiet.threshold
    have hbegin : ∀ u ∈ v :: us, v.safePoints ≤ u.safePoints := by
      intro u hu
      rcases List.mem_cons.1 hu with rfl | hu
      · exact le_rfl
      · have hlater := ((Passes.bijOn hrest).mapsTo hu).1
        rw [safePoints_passSafePoint] at hlater
        exact (Nat.lt_of_succ_le hlater).le
    -- Until the next collection the threshold is what the first safe point left.
    have huntil : ∀ u ∈ v :: us,
        (u.passSafePoint isCrowded).threshold = (v.passSafePoint isCrowded).threshold →
        (u.passSafePoint isCrowded).threshold = s.threshold ∨
          ∃ w ∈ v :: us, w.isCrowded = true ∧ w.safePoints ≤ u.safePoints ∧
            (u.passSafePoint isCrowded).threshold = max (2 * w.inUse.ncard) leastThreshold := by
      intro u hu heq
      rw [heq, ← hfirst]
      exact (threshold_passSafePoint hv).imp_right fun ⟨hcrowded, hthreshold⟩ =>
        ⟨v, List.mem_cons_self, hcrowded, hbegin u hu, hthreshold⟩
    intro u hu
    rcases List.mem_cons.1 hu with rfl | hlater
    · exact huntil u hu rfl
    · rcases ih hpassed u hlater with heq | ⟨w, hin, hw⟩
      · exact huntil u hu heq
      · exact .inr ⟨w, List.mem_cons_of_mem _ hin, hw⟩

/-! ## Histories -/

/-- A session in which only the built-in functions are defined. -/
def bare (sink : Sink) : Session :=
  Builtin.all.foldl (fun s b => s.define b.name (.function b)) (empty sink)

/-- A new session after some source texts and collections, with all the safe points that it came to
since it evaluated the startup text. An evaluation may end in any way, and be cut off after any
number of steps. -/
inductive History (sink : Sink) : Session → Set Session → Prop
  | new : History sink (new sink) {u | (bare sink).Pauses isCrowded ampleFuel startupSource u}
  | evalSource {s : Session} {ts : Set Session} (fuel : Nat) (source : String) :
      History sink s ts → History sink (s.evalSourceWith isCrowded fuel source).2
        (ts ∪ {u | s.Pauses isCrowded fuel source u})
  | collect {s : Session} {ts : Set Session} : History sink s ts → History sink s.collect.2 ts

/-- The safe points of a history follow each other from the session without definitions. -/
theorem History.exists_passes (h : History sink s ts) :
    ∃ us, (bare sink).Passes isCrowded us s ∧ ts = {u | u ∈ us} := by
  induction h with
  | new =>
    obtain ⟨us, hus, hmem⟩ :=
      Session.exists_passes isCrowded ampleFuel (bare sink) startupSource
    exact ⟨us, hus, Set.ext fun u => (hmem u).symm⟩
  | @evalSource s ts fuel source _ ih =>
    obtain ⟨us, hus, rfl⟩ := ih
    obtain ⟨vs, hvs, hmem⟩ := Session.exists_passes isCrowded fuel s source
    refine ⟨us ++ vs, hus.append hvs, Set.ext fun u => ?_⟩
    exact (or_congr Iff.rfl (hmem u).symm).trans List.mem_append.symm
  | @collect s ts _ ih =>
    obtain ⟨us, hus, rfl⟩ := ih
    exact ⟨us, hus.quiet_right (.collect s), rfl⟩

/-- The safe points up to one of them at which a collection took place. -/
def collecting (ts : Set Session) (t : Session) : Set Session :=
  {u ∈ ts | u.isCrowded = true ∧ u.safePoints ≤ t.safePoints}

/-- **The heap is bounded at safe points.** Each count up to the last belongs to one safe point of a
history. After a safe point there are fewer frames than the threshold, which is at least 1024. It is
1024 or what a collection up to then left: the larger of 1024 and twice the number of frames that
were in use. So it is within twice any bound on these numbers, and so are the frames. -/
theorem heap_bounded (h : History sink s ts) :
    Set.BijOn Session.safePoints ts (Set.Iio s.safePoints) ∧
    ∀ t ∈ ts, let passed := t.passSafePoint isCrowded
      passed.arena.live < passed.threshold ∧
      1024 ≤ passed.threshold ∧
      (passed.threshold = 1024 ∨
        ∃ u ∈ collecting ts t, passed.threshold = max 1024 (2 * u.inUse.ncard)) ∧
      ∀ R, (∀ u ∈ collecting ts t, u.inUse.ncard ≤ R) →
        passed.threshold ≤ max 1024 (2 * R) ∧ passed.arena.live ≤ max 1023 (2 * R - 1) := by
  obtain ⟨us, hus, rfl⟩ := h.exists_passes
  obtain ⟨ρ, hr⟩ := relates_defines (relates_empty sink) Builtin.all
  have hw : (bare sink).arena.WellFormed := hr.wellFormed_left
  refine ⟨?_, fun t ht => ?_⟩
  · have hbij := hus.bijOn
    rwa [show (bare sink).safePoints = 0 from rfl, ← Nat.bot_eq_zero, Set.Ico_bot] at hbij
  intro passed
  have hlive : passed.arena.live < passed.threshold := live_passSafePoint_lt t
  have hthreshold : passed.threshold = 1024 ∨
      ∃ u ∈ collecting {u | u ∈ us} t, passed.threshold = max 1024 (2 * u.inUse.ncard) := by
    refine (Passes.threshold hus hw t ht).imp id ?_
    rintro ⟨u, hu, hcrowded, hearlier, heq⟩
    exact ⟨u, ⟨hu, hcrowded, hearlier⟩, heq.trans (max_comm _ _)⟩
  refine ⟨hlive, ?_, hthreshold, fun R hR => ?_⟩
  · rcases hthreshold with heq | ⟨u, -, heq⟩
    · exact heq.ge
    · exact (le_max_left _ _).trans heq.ge
  · have hbound : passed.threshold ≤ max 1024 (2 * R) := by
      rcases hthreshold with heq | ⟨u, hu, heq⟩
      · exact heq.le.trans (le_max_left _ _)
      · have := hR u hu
        omega
    exact ⟨hbound, by omega⟩

/-- In the scope of a function that is called in tail position. -/
theorem heap_bounded_call :
    ∃ s ts t, History {} s ts ∧ t ∈ ts ∧ t.active = [⟨1, 0⟩] ∧ t.arena.live = 2 ∧
      (t.passSafePoint isCrowded).arena.live < (t.passSafePoint isCrowded).threshold ∧
      1024 ≤ (t.passSafePoint isCrowded).threshold := by
  have hparse : Program.parse "((fn* (x) x) 1)" 1 =
      .ok ⟨[.list (siteOnLine 0 15) none
        [.list (siteOnLine 1 12) none
          [.symbol (siteOnLine 2 5) "fn*",
            .list (siteOnLine 6 9) none [.symbol (siteOnLine 7 8) "x"],
            .symbol (siteOnLine 10 11) "x"],
          .literal (siteOnLine 13 14) .int "1"]]⟩ := by cbv
  have hreadings : (new {}).readings = 1 := by decide +kernel
  rw [← hreadings] at hparse
  have hpauses : (new {}).Pauses isCrowded 3 "((fn* (x) x) 1)" _ :=
    .form hparse (Eval.asks_evalAll _ _ _ [] _) (.here rfl)
  have hhistory : History {} ((new {}).evalSourceWith isCrowded 3 "((fn* (x) x) 1)").2 _ :=
    .evalSource 3 _ .new
  obtain ⟨-, hsafe⟩ := heap_bounded hhistory
  obtain ⟨hlive, hleast, -⟩ := hsafe _ (.inr hpauses)
  exact ⟨_, _, _, hhistory, .inr hpauses, by decide +kernel, by decide +kernel, hlive, hleast⟩

end Session

end Lisp
