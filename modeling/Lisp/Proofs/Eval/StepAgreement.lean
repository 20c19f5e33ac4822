import Lisp.Proofs.Eval.Agreement

/-!
# Evaluation does not depend on the names of scopes

Every rule of evaluation, run in related sessions, ends in the same way on both sides, provided
that the evaluators of the parts do.

- `EvaluatorsAgree`: two evaluators that agree wherever the sessions are related and the scopes
  take the same place among their roots.
- `agrees_stepSpecial`, `agrees_applyLambda`, `agrees_applyNamed`, `agrees_stepList`,
  `agrees_step`: the rules, one by one.
- `evaluatorsAgree_eval`: whole evaluations agree, whenever either of them collects.
-/

namespace Lisp

/-- What a step leaves to do is the same under the other names. -/
inductive Renaming.OnStep (ρ : Renaming) : Step → Step → Prop
  | done {v w : Value} : ρ.OnValue v w → OnStep ρ (.done v) (.done w)
  | tail {h k : Scope} (f : Form) : ρ.OnScope h k → OnStep ρ (.tail h f) (.tail k f)

/-- The value of a literal has no scopes. -/
theorem Literal.captured_value? {kind : Literal} {raw : String} {v : Value}
    (hv : kind.value? raw = some v) : v.captured = [] := by
  cases kind with
  | nil | bool | string | keyword =>
    cases hv
    rfl
  | int | float =>
    obtain ⟨n, -, rfl⟩ := Option.map_eq_some_iff.1 hv
    rfl

namespace Eval

open Session (SameRoots Paired)

/-- Two evaluators agree on forms in scopes that take the same place among the roots of related
sessions. -/
def EvaluatorsAgree (ev ev' : Evaluator) : Prop :=
  ∀ (f : Form) ⦃h k : Scope⦄ ⦃s t : Session⦄ ⦃ρ : Renaming⦄, ρ.Relates s t → s.Paired t h k →
    Agrees Renaming.OnValue s t (ev f h s) (ev' f k t)

variable {ev ev' : Evaluator} {s t : Session} {ρ : Renaming} {h k : Scope}

/-! ## Elements -/

theorem agrees_evalAll (hev : EvaluatorsAgree ev ev') (fs : List Form) (hr : ρ.Relates s t)
    (hp : s.Paired t h k) :
    Agrees Renaming.OnValues s t (evalAll ev h fs s) (evalAll ev' k fs t) := by
  induction fs generalizing s t ρ with
  | nil => exact agrees_pure hr .nil
  | cons f fs ih =>
    refine (hev f hr hp).bind fun ρ v w s' t' hr hs ht hvw => ?_
    -- The value waits while the others are evaluated, and has a name again afterwards.
    have hp' := (hp.congr hs ht).hold v w
    refine (agrees_holding (ih (hr.hold hvw) hp')).bind fun ρ vs ws s' t' hr _ _ hvs => ?_
    exact agrees_pure hr (.cons hvs.2 hvs.1)

theorem agrees_evalKey (hev : EvaluatorsAgree ev ev') (f : Form) (hr : ρ.Relates s t)
    (hp : s.Paired t h k) :
    Agrees (fun _ => Eq) s t (evalKey ev h f s) (evalKey ev' k f t) := by
  refine (hev f hr hp).bind fun ρ v w s' t' hr _ _ hvw => ?_
  obtain ⟨rfl, -⟩ := hvw
  simp only [Value.key?_rename, Value.typeName_rename]
  cases v.key? with
  | some key => exact agrees_pure hr rfl
  | none => exact agrees_fail hr _

theorem agrees_evalEntries (hev : EvaluatorsAgree ev ev') (span : Span) :
    ∀ (fs : List Form) {s t : Session} {ρ : Renaming}, ρ.Relates s t → s.Paired t h k →
      Agrees Renaming.OnEntries s t (evalEntries ev h span fs s) (evalEntries ev' k span fs t)
  | [], _, _, _, hr, _ => agrees_pure hr ⟨rfl, by simp [Value.capturedByEntries]⟩
  | [key], _, _, _, hr, hp =>
    (agrees_evalKey hev key hr hp).bind fun _ _ _ _ _ hr _ _ _ => agrees_fail hr _
  | key :: value :: fs, _, _, _, hr, hp => by
    refine (agrees_evalKey hev key hr hp).bind fun ρ a b s' t' hr hs ht hab => ?_
    -- A key has no scopes, so that it need not wait.
    subst hab
    have hp' := hp.congr hs ht
    refine (hev value hr hp').bind fun ρ v w s' t' hr hs ht hvw => ?_
    have hp'' := (hp'.congr hs ht).hold v w
    have hrest := agrees_evalEntries hev span fs (hr.hold hvw) hp''
    refine (agrees_holding hrest).bind fun ρ es gs s' t' hr _ _ hes => ?_
    exact agrees_pure hr (.cons a hes.2 hes.1)

theorem agrees_evalLeaf (hev : EvaluatorsAgree ev ev') (f : Form) (hr : ρ.Relates s t)
    (hp : s.Paired t h k) :
    Agrees Renaming.OnValue s t (evalLeaf ev h f s) (evalLeaf ev' k f t) := by
  cases f with
  | comment site text => exact agrees_pure hr (.of_captured_eq_nil rfl)
  | symbol site name => exact agrees_lookup hr hp name site.span
  | literal site kind raw =>
    simp only [evalLeaf]
    cases hv : kind.value? raw with
    | none => exact agrees_fail hr _
    | some v => exact agrees_pure hr (.of_captured_eq_nil (Literal.captured_value? hv))
  | vector site es =>
    refine (agrees_evalAll hev _ hr hp).bind fun ρ vs ws s' t' hr _ _ hvs => ?_
    exact agrees_pure hr hvs.vector
  | map site es =>
    refine (agrees_evalEntries hev _ _ hr hp).bind fun ρ es gs s' t' hr _ _ hes => ?_
    exact agrees_pure hr hes.map
  | list site shorthand es => exact hev _ hr hp

/-! ## Special forms -/

theorem agrees_expectSymbol (form : SpecialForm) (f : Form) (hr : ρ.Relates s t) :
    Agrees (fun _ => Eq) s t (expectSymbol form f s) (expectSymbol form f t) := by
  unfold expectSymbol
  cases f.symbol? with
  | some name => exact agrees_pure hr rfl
  | none => exact agrees_fail hr _

theorem agrees_expectSequence (form : SpecialForm) (f : Form) (hr : ρ.Relates s t) :
    Agrees (fun _ => Eq) s t (expectSequence form f s) (expectSequence form f t) := by
  unfold expectSequence
  split
  · exact agrees_pure hr rfl
  · exact agrees_pure hr rfl
  · exact agrees_fail hr _

theorem agrees_expectSymbols (form : SpecialForm) (fs : List Form) (hr : ρ.Relates s t) :
    Agrees (fun _ => Eq) s t (fs.mapM (expectSymbol form) s) (fs.mapM (expectSymbol form) t) := by
  induction fs generalizing s t ρ with
  | nil => exact agrees_pure hr rfl
  | cons f fs ih =>
    rw [List.mapM_cons]
    refine (agrees_expectSymbol form f hr).bind fun ρ a b s' t' hr _ _ hab => ?_
    refine (ih hr).bind fun ρ as bs s' t' hr _ _ habs => ?_
    exact agrees_pure hr (by rw [hab, habs])

theorem agrees_bindPairs (hev : EvaluatorsAgree ev ev') :
    ∀ (fs : List Form) {s t : Session} {ρ : Renaming}, ρ.Relates s t → s.Paired t h k →
      Agrees (fun _ => Eq) s t (bindPairs ev h fs s) (bindPairs ev' k fs t)
  | [], _, _, _, hr, _ => agrees_pure hr rfl
  | [_], _, _, _, hr, _ => agrees_pure hr rfl
  | target :: value :: fs, _, _, _, hr, hp => by
    refine (agrees_expectSymbol _ target hr).bind fun ρ name _ s' t' hr hs ht hab => ?_
    subst hab
    have hp' := hp.congr hs ht
    refine (hev value hr hp').bind fun ρ v w s' t' hr hs ht hvw => ?_
    -- Nothing is collected between the end of the evaluation and the binding.
    have hp'' := hp'.congr hs ht
    refine (agrees_assign hr hp'' name hvw).bind fun ρ _ _ s' t' hr hs ht _ => ?_
    exact agrees_bindPairs hev fs hr (hp''.congr hs ht)

theorem agrees_stepSequence (hev : EvaluatorsAgree ev ev') :
    ∀ (fs : List Form) {s t : Session} {ρ : Renaming}, ρ.Relates s t → s.Paired t h k →
      Agrees Renaming.OnStep s t (stepSequence ev h fs s) (stepSequence ev' k fs t)
  | [], _, _, _, hr, _ => agrees_pure hr (.done (.of_captured_eq_nil rfl))
  | [f], _, _, _, hr, hp => agrees_pure hr (.tail f (hr.onScope hp))
  | f :: g :: fs, _, _, _, hr, hp =>
    (hev f hr hp).bind fun _ _ _ _ _ hr hs ht _ =>
      agrees_stepSequence hev (g :: fs) hr (hp.congr hs ht)

theorem agrees_stepSpecial (hev : EvaluatorsAgree ev ev') (form : SpecialForm) (args : List Form)
    (span : Span) (hr : ρ.Relates s t) (hp : s.Paired t h k) :
    Agrees Renaming.OnStep s t (stepSpecial ev form args span h s)
      (stepSpecial ev' form args span k t) := by
  cases form with
  | define =>
    rcases args with _ | ⟨target, _ | ⟨value, _ | ⟨_, _⟩⟩⟩
    · exact agrees_fail hr _
    · exact agrees_fail hr _
    · refine (agrees_expectSymbol _ target hr).bind fun ρ name _ s' t' hr hs ht hab => ?_
      subst hab
      have hp' := hp.congr hs ht
      refine (hev value hr hp').bind fun ρ v w s' t' hr hs ht hvw => ?_
      refine (agrees_assign hr (hp'.congr hs ht) name hvw).bind fun ρ _ _ s' t' hr _ _ hvw => ?_
      exact agrees_pure hr (.done hvw)
    · exact agrees_fail hr _
  | bindings =>
    rcases args with _ | ⟨pairs, _ | ⟨body, _ | ⟨_, _⟩⟩⟩
    · exact agrees_fail hr _
    · exact agrees_fail hr _
    · refine (agrees_expectSequence _ pairs hr).bind fun ρ fs _ s' t' hr hs ht hab => ?_
      subst hab
      split
      · exact agrees_fail hr _
      · refine (agrees_newScope hr (hp.congr hs ht)).bind fun ρ a b s' t' hr _ _ hab => ?_
        -- The scope that is being filled is kept in use by itself.
        have hfill := agrees_bindPairs hev fs (hr.enter hab) (Session.paired_enter s' t' a b)
        refine (agrees_entering hfill).bind fun ρ _ _ s' t' hr _ _ hscope => ?_
        exact agrees_pure hr (.tail body hscope.2)
    · exact agrees_fail hr _
  | sequence => exact agrees_stepSequence hev args hr hp
  | branch =>
    rcases args with _ | ⟨condition, _ | ⟨consequent, _ | ⟨alternate, _ | ⟨_, _⟩⟩⟩⟩
    · exact agrees_fail hr _
    · exact agrees_fail hr _
    · refine (hev condition hr hp).bind fun ρ v w s' t' hr hs ht hvw => ?_
      obtain ⟨rfl, -⟩ := hvw
      refine agrees_pure hr ?_
      rw [Value.isTruthy_rename]
      split
      · exact .tail consequent (hr.onScope (hp.congr hs ht))
      · exact .done (.of_captured_eq_nil rfl)
    · refine (hev condition hr hp).bind fun ρ v w s' t' hr hs ht hvw => ?_
      obtain ⟨rfl, -⟩ := hvw
      refine agrees_pure hr ?_
      rw [Value.isTruthy_rename]
      exact .tail _ (hr.onScope (hp.congr hs ht))
    · exact agrees_fail hr _
  | function =>
    rcases args with _ | ⟨params, _ | ⟨body, _ | ⟨_, _⟩⟩⟩
    · exact agrees_fail hr _
    · exact agrees_fail hr _
    · refine (agrees_expectSequence _ params hr).bind fun ρ fs _ s' t' hr hs ht hab => ?_
      subst hab
      have hp' := hp.congr hs ht
      refine (agrees_expectSymbols _ fs hr).bind fun ρ names _ s' t' hr hs ht hab => ?_
      subst hab
      split
      · obtain ⟨rfl, hdom⟩ := hr.onScope (hp'.congr hs ht)
        refine agrees_pure hr (.done ⟨rfl, fun c hc => ?_⟩)
        rw [List.mem_singleton.1 hc]
        exact hdom
      · exact agrees_fail hr _
    · exact agrees_fail hr _

/-! ## Applications -/

theorem agrees_applyLambda (hev : EvaluatorsAgree ev ev') (name : String) (params : List String)
    (body : Form) {captured captured' : Scope} (args : List Form) (span : Span)
    (hr : ρ.Relates s t) (hp : s.Paired t h k) (hcap : ρ.OnScope captured captured') :
    Agrees Renaming.OnStep s t (applyLambda ev name params body captured args span h s)
      (applyLambda ev' name params body captured' args span k t) := by
  have hlambda : ρ.OnValue (.lambda params body captured) (.lambda params body captured') := by
    obtain ⟨rfl, hdom⟩ := hcap
    refine ⟨rfl, fun c hc => ?_⟩
    rw [List.mem_singleton.1 hc]
    exact hdom
  have hargs := agrees_evalAll hev args (hr.hold hlambda) (hp.hold _ _)
  refine (agrees_holding hargs).bind fun ρ vs ws s' t' hr _ _ hvs => ?_
  obtain ⟨hvs, hlambda⟩ := hvs
  -- The function was held, so that the scope that it was made in is still there.
  have hcap : ρ.OnScope captured captured' :=
    ⟨(Value.lambda.inj hlambda.1).2.2, hlambda.2 captured (by simp [Value.captured])⟩
  have hlength : ws.length = vs.length := by rw [hvs.1, List.length_map]
  rw [hlength]
  split
  · refine (agrees_newFrame hr hcap params hvs).bind fun ρ a b s' t' hr _ _ hab => ?_
    exact agrees_pure hr (.tail body hab)
  · exact agrees_fail hr _

theorem agrees_applyNamed (hev : EvaluatorsAgree ev ev') (name : String) (nameSpan : Span)
    (args : List Form) (span : Span) (hr : ρ.Relates s t) (hp : s.Paired t h k) :
    Agrees Renaming.OnStep s t (applyNamed ev name nameSpan args span h s)
      (applyNamed ev' name nameSpan args span k t) := by
  refine (agrees_lookup hr hp name nameSpan).bind fun ρ v w s' t' hr hs ht hvw => ?_
  have hp' := hp.congr hs ht
  obtain ⟨rfl, hdom⟩ := hvw
  cases v with
  | function b =>
    refine (agrees_evalAll hev args hr hp').bind fun ρ vs ws s' t' hr _ _ hvs => ?_
    refine (agrees_callBuiltin hr b span hvs).bind fun ρ v w s' t' hr _ _ hvw => ?_
    exact agrees_pure hr (.done hvw)
  | lambda params body captured =>
    refine agrees_applyLambda hev name params body args span hr hp' ⟨rfl, hdom _ ?_⟩
    simp [Value.captured]
  | _ => exact agrees_pure hr (.done ⟨rfl, hdom⟩)

theorem agrees_stepList (hev : EvaluatorsAgree ev ev') (site : Site) (shorthand : Option Shorthand)
    (elements : List Form) (hr : ρ.Relates s t) (hp : s.Paired t h k) :
    Agrees Renaming.OnStep s t (stepList ev site shorthand elements h s)
      (stepList ev' site shorthand elements k t) := by
  unfold stepList
  cases shorthand with
  | some mark => exact agrees_applyNamed hev mark.name site.span _ site.span hr hp
  | none =>
    cases Form.significant elements with
    | nil => exact agrees_pure hr (.done (.of_captured_eq_nil rfl))
    | cons head args =>
      dsimp only
      cases head.symbol? with
      | some name =>
        dsimp only
        cases SpecialForm.ofName? name with
        | some form => exact agrees_stepSpecial hev form args site.span hr hp
        | none => exact agrees_applyNamed hev name head.span args site.span hr hp
      | none =>
        refine (hev head hr hp).bind fun ρ v w s' t' hr hs ht hvw => ?_
        have hp' := hp.congr hs ht
        obtain ⟨rfl, hdom⟩ := hvw
        cases v with
        | lambda params body captured =>
          refine agrees_applyLambda hev anonymous params body args site.span hr hp'
            ⟨rfl, hdom _ ?_⟩
          simp [Value.captured]
        | _ => exact agrees_pure hr (.done (.of_captured_eq_nil rfl))

theorem agrees_step (hev : EvaluatorsAgree ev ev') (f : Form) (hr : ρ.Relates s t)
    (hp : s.Paired t h k) :
    Agrees Renaming.OnStep s t (step ev f h s) (step ev' f k t) := by
  cases f with
  | list site shorthand elements => exact agrees_stepList hev site shorthand elements hr hp
  | _ =>
    refine (agrees_evalLeaf hev _ hr hp).bind fun ρ v w s' t' hr _ _ hvw => ?_
    exact agrees_pure hr (.done hvw)

/-! ## Whole evaluations -/

/-- Evaluations in scopes that have just been entered end in the same way, whenever either of them
collects. -/
theorem agrees_eval (due due' : Session → Bool) (n : Nat) (f : Form)
    (hr : ρ.Relates (s.enter h) (t.enter k)) :
    Agrees Renaming.OnValue s t (eval due n f h s) (eval due' n f k t) := by
  -- The induction is on the steps that are left, for nested evaluations and for later steps alike.
  induction n generalizing f s t ρ h k with
  | zero => exact ⟨ρ, hr.leave, .refl s, .refl t, .stop _⟩
  | succ n ih =>
    have hev : EvaluatorsAgree (eval due n) (eval due' n) :=
      fun f _ _ _ _ _ hr hp => ih f (hr.enter (hr.onScope hp))
    have hstep := agrees_step hev f hr (Session.paired_enter s t h k)
    rw [eval_succ, eval_succ]
    generalize step (eval due n) f h (s.enter h) = x at hstep
    generalize step (eval due' n) f k (t.enter k) = y at hstep
    obtain ⟨r, s₁⟩ := x
    obtain ⟨r', t₁⟩ := y
    obtain ⟨ρ₁, hr₁, hs₁, ht₁, hend⟩ := hstep
    cases hend with
    | stop e => exact ⟨ρ₁, hr₁.leave, sameRoots_leave hs₁, sameRoots_leave ht₁, .stop e⟩
    | ok hon =>
      cases hon with
      | done hvw => exact ⟨ρ₁, hr₁.leave, sameRoots_leave hs₁, sameRoots_leave ht₁, .ok hvw⟩
      | @tail inner inner' next hscope =>
        -- Both sides have moved on when they collect, each for reasons of its own.
        have htrim := (s₁.moveTo inner).trimmed_passSafePoint due
        have htrim' := (t₁.moveTo inner').trimmed_passSafePoint due'
        obtain ⟨ρ₂, hr₂⟩ := (hr₁.leave.enter hscope).trim htrim htrim'
        rw [← Session.enter_leave_passSafePoint, ← Session.enter_leave_passSafePoint t₁] at hr₂
        obtain ⟨ρ₃, hr₃, hs₂, ht₂, hend⟩ := ih next hr₂
        have hs := (sameRoots_leave hs₁).trans (sameRoots_leave htrim.sameRoots)
        have ht := (sameRoots_leave ht₁).trans (sameRoots_leave htrim'.sameRoots)
        exact ⟨ρ₃, hr₃, hs.trans hs₂, ht.trans ht₂, hend⟩

/-- Evaluations end in the same way, whenever either of them collects. -/
theorem evaluatorsAgree_eval (due due' : Session → Bool) (n : Nat) :
    EvaluatorsAgree (eval due n) (eval due' n) :=
  fun f _ _ _ _ _ hr hp => agrees_eval due due' n f (hr.enter (hr.onScope hp))

/-- Programs end in the same way, whenever either of them collects. -/
theorem agrees_evalProgram (due due' : Session → Bool) (n : Nat) (p : Program)
    (hr : ρ.Relates s t) :
    Agrees Renaming.OnValues s t (evalProgram due n p s) (evalProgram due' n p t) := by
  refine (agrees_safePoint hr due due').bind fun ρ _ _ s' t' hr _ _ _ => ?_
  exact agrees_evalAll (evaluatorsAgree_eval due due' n) _ hr (.inl ⟨rfl, rfl⟩)

end Eval

end Lisp
