import Lisp.Proofs.Eval.Equations
import Lisp.Proofs.Scope.Likeness
import Lisp.Proofs.Session.Renaming

/-!
# Evaluation treats alike forms alike

Two sessions that differ only in the forms of their values, and evaluate forms that are alike, go
through the same scopes and end in sessions that again differ only so. Forms that are alike may be a
shorthand and the list that is written out for it.

- `Session.mapForms`: a session with other forms in its values, and `Session.mentioned`, the forms
  that are there.
- `Likeness.Relates`: a session with the forms of a likeness in the place of its own.
- `Eval.Parallels`: two actions that end alike in such sessions. Faults blame forms in the place of
  each other.
- `parallels_stepSpecial`, `parallels_applyLambda`, `parallels_applyNamed`, `parallels_step`: the
  rules, for evaluators of the parts that end alike.
- `parallels_eval`, `parallels_evalProgram`: whole evaluations, that collect at the same moments.
-/

namespace Lisp

/-! ## Sessions -/

namespace Session

/-- A session with other forms in its values. -/
def mapForms (m : Form → Form) (s : Session) : Session :=
  { s with arena := s.arena.mapForms m, held := s.held.map (Value.mapForms m) }

/-- The forms in the values of a session. -/
def mentioned (s : Session) : Set Form :=
  s.arena.mentioned ∪ {f | ∃ v ∈ s.held, f ∈ v.forms}

theorem roots_mapForms (m : Form → Form) (s : Session) : (s.mapForms m).roots = s.roots := by
  simp only [roots, mapForms, Value.capturedByAll_eq_flatMap, List.flatMap_map,
    Value.captured_mapForms]

theorem passSafePoint_mapForms (m : Form → Form) (s : Session) {due due' : Session → Bool}
    (hdue : due' (s.mapForms m) = due s) :
    (s.mapForms m).passSafePoint due' = (s.passSafePoint due).mapForms m := by
  have hcollect : (s.mapForms m).collect.2 = s.collect.2.mapForms m := by
    have harena := Arena.collect_mapForms (m := m) s.arena s.roots
    simp only [collect, roots_mapForms]
    simp only [mapForms, harena]
  unfold passSafePoint
  rw [hdue]
  cases due s with
  | false => rfl
  | true =>
    simp only [if_true, relieve, hcollect]
    simp only [mapForms, Arena.live_mapForms]

theorem mentioned_passSafePoint (due : Session → Bool) (s : Session) :
    (s.passSafePoint due).mentioned ⊆ s.mentioned := by
  unfold passSafePoint
  cases due s with
  | false => exact subset_rfl
  | true => exact Set.union_subset_union_left _ (Arena.mentioned_collect s.arena s.roots)

end Session

namespace Likeness

variable {c : Likeness} {s t : Session} {v w : Value}

/-- A session with other forms in the place of its own. -/
structure Relates (c : Likeness) (s t : Session) : Prop where
  eq : t = s.mapForms c.map
  mentioned : s.mentioned ⊆ c.dom

/-- Evaluations that stop alike: for faults that blame forms in the place of each other, or both
for want of steps. -/
inductive OnStop (c : Likeness) : Stop → Stop → Prop
  | error {e e' : EvalError} : c.OnFault e e' → OnStop c (.error e) (.error e')
  | outOfFuel : OnStop c .outOfFuel .outOfFuel

/-- What a step leaves to do is to evaluate the form in the place of the other. -/
inductive OnStep (c : Likeness) : Step → Step → Prop
  | done {v w : Value} : c.OnValue v w → OnStep c (.done v) (.done w)
  | tail {f : Form} (scope : Scope) : f ∈ c.dom → OnStep c (.tail scope f) (.tail scope (c.map f))

/-- Forms and the forms in their places. -/
def OnForms (c : Likeness) (fs gs : List Form) : Prop := gs = fs.map c.map ∧ ∀ f ∈ fs, f ∈ c.dom

namespace Relates

theorem enter (h : c.Relates s t) (scope : Scope) : c.Relates (s.enter scope) (t.enter scope) :=
  ⟨by rw [h.eq]; rfl, h.mentioned⟩

theorem leave (h : c.Relates s t) : c.Relates s.leave t.leave :=
  ⟨by rw [h.eq]; rfl, h.mentioned⟩

theorem hold (h : c.Relates s t) (hvw : c.OnValue v w) : c.Relates (s.hold v) (t.hold w) := by
  refine ⟨?_, Set.union_subset (subset_trans Set.subset_union_left h.mentioned) ?_⟩
  · rw [h.eq, hvw.1]
    rfl
  · rintro f ⟨u, hu, hf⟩
    rcases List.mem_cons.1 hu with rfl | hu
    · exact hvw.2 f hf
    · exact h.mentioned (.inr ⟨u, hu, hf⟩)

theorem letGo (h : c.Relates s t) : c.Relates s.letGo t.letGo := by
  refine ⟨?_, Set.union_subset (subset_trans Set.subset_union_left h.mentioned) ?_⟩
  · rw [h.eq]
    simp only [Session.letGo, Session.mapForms, List.map_tail]
  · rintro f ⟨u, hu, hf⟩
    exact h.mentioned (.inr ⟨u, List.mem_of_mem_tail hu, hf⟩)

theorem passSafePoint (h : c.Relates s t) {due due' : Session → Bool} (hdue : due' t = due s) :
    c.Relates (s.passSafePoint due) (t.passSafePoint due') := by
  obtain ⟨rfl, hmentioned⟩ := h
  exact ⟨s.passSafePoint_mapForms c.map hdue,
    subset_trans (s.mentioned_passSafePoint due) hmentioned⟩

/-- Frames of a session that correspond, with forms of the likeness only. -/
theorem withArena (h : c.Relates s t) {a : Arena} (ha : ∀ f ∈ a.mentioned, f ∈ c.dom) :
    c.Relates { s with arena := a } { t with arena := a.mapForms c.map } :=
  ⟨by rw [h.eq]; rfl, Set.union_subset ha (subset_trans Set.subset_union_right h.mentioned)⟩

theorem arena_eq (h : c.Relates s t) : t.arena = s.arena.mapForms c.map := by
  rw [h.eq]
  rfl

theorem sink_eq (h : c.Relates s t) : t.sink = s.sink := by
  rw [h.eq]
  rfl

theorem mem_dom (h : c.Relates s t) {f : Form} (hf : f ∈ s.arena.mentioned) : f ∈ c.dom :=
  h.mentioned (.inl hf)

end Relates

end Likeness

/-! ## Actions -/

namespace Eval

variable {α β : Type} {c : Likeness} {Q : α → α → Prop} {R : β → β → Prop}

/-- Two actions that end alike in sessions that differ only in their forms. No source text is read
on the way. -/
def Parallels (c : Likeness) (Q : α → α → Prop) (x y : Eval α) : Prop :=
  ∀ s t, c.Relates s t → c.Relates (x s).2 (y t).2 ∧ (x s).2.readings = s.readings ∧
    SameResult c.OnStop Q (x s).1 (y t).1

namespace Parallels

theorem pure {a b : α} (hab : Q a b) : Parallels c Q (Pure.pure a) (Pure.pure b) :=
  fun _ _ h => ⟨h, rfl, .ok hab⟩

theorem fail {e : EvalError} {span' : Span} (hspan : c.OnSpan e.span span') :
    Parallels c Q (Eval.fail e) (Eval.fail (e.blaming span')) :=
  fun _ _ h => ⟨h, rfl, .error (.error (Likeness.onFault hspan))⟩

theorem bind {x y : Eval α} {g k : α → Eval β} (hx : Parallels c Q x y)
    (hg : ∀ a b, Q a b → Parallels c R (g a) (k b)) : Parallels c R (x >>= g) (y >>= k) := by
  intro s t h
  rw [bind_apply, bind_apply]
  have hxy := hx s t h
  generalize x s = p at hxy
  generalize y t = q at hxy
  obtain ⟨r, s'⟩ := p
  obtain ⟨r', t'⟩ := q
  obtain ⟨h', hreadings, hend⟩ := hxy
  cases hend with
  | ok hab =>
    obtain ⟨h'', hreadings', hend'⟩ := hg _ _ hab s' t' h'
    exact ⟨h'', hreadings'.trans hreadings, hend'⟩
  | error he => exact ⟨h', hreadings, .error he⟩

theorem entering {x y : Eval α} (hx : Parallels c Q x y) (scope : Scope) :
    Parallels c Q (entering scope x) (entering scope y) := by
  intro s t h
  rw [entering_apply, entering_apply]
  obtain ⟨h', hreadings, hend⟩ := hx _ _ (h.enter scope)
  exact ⟨h'.leave, hreadings, hend⟩

theorem holding {x y : Eval α} {v w : Value} (hx : Parallels c Q x y) (hvw : c.OnValue v w) :
    Parallels c Q (holding v x) (holding w y) := by
  intro s t h
  rw [holding_apply, holding_apply]
  obtain ⟨h', hreadings, hend⟩ := hx _ _ (h.hold hvw)
  exact ⟨h'.letGo, hreadings, hend⟩

end Parallels

variable {span span' : Span} {v w : Value} {vs ws : List Value}

theorem parallels_lookup (scope : Scope) (name : String) (hspan : c.OnSpan span span') :
    Parallels c c.OnValue (lookup scope name span) (lookup scope name span') := by
  intro s t h
  unfold lookup
  rw [h.arena_eq, Arena.find?_mapForms]
  cases hv : s.arena.find? scope name with
  | none => exact ⟨h, rfl, .error (.error (Likeness.onFault hspan))⟩
  | some v => exact ⟨h, rfl, .ok ⟨rfl, fun f hf => h.mem_dom (Arena.mentioned_of_find? hv hf)⟩⟩

theorem parallels_assign (scope : Scope) (name : String) (hvw : c.OnValue v w) :
    Parallels c Eq (assign scope name v) (assign scope name w) := by
  intro s t h
  refine ⟨?_, rfl, .ok rfl⟩
  show c.Relates _ { t with arena := t.arena.set scope name w }
  rw [h.arena_eq, hvw.1, Arena.set_mapForms]
  refine h.withArena fun f hf => ?_
  exact (Arena.mentioned_set s.arena scope name v hf).elim (hvw.2 f) h.mem_dom

theorem parallels_newScope (outer : Scope) :
    Parallels c Eq (newScope outer) (newScope outer) := by
  intro s t h
  unfold newScope
  rw [h.arena_eq, Arena.create_mapForms]
  exact ⟨h.withArena fun f hf => h.mem_dom (Arena.mentioned_create s.arena _ hf), rfl, .ok rfl⟩

theorem parallels_newFrame (outer : Scope) (params : List String) (hvs : c.OnValues vs ws) :
    Parallels c Eq (newFrame outer params vs) (newFrame outer params ws) := by
  intro s t h
  unfold newFrame
  rw [h.arena_eq, hvs.1, Arena.bind_mapForms]
  refine ⟨h.withArena fun f hf => ?_, rfl, .ok rfl⟩
  rcases Arena.mentioned_bind s.arena outer params vs hf with ⟨v, hv, hf⟩ | hf
  · exact hvs.2 v hv f hf
  · exact h.mem_dom hf

theorem parallels_callBuiltin (b : Builtin) (hspan : c.OnSpan span span')
    (hvs : c.OnValues vs ws) :
    Parallels c c.OnValue (callBuiltin b span vs) (callBuiltin b span' ws) := by
  intro s t h
  obtain ⟨hresult, hsink⟩ := Likeness.onCall b hspan hvs s.sink
  unfold callBuiltin
  rw [h.sink_eq]
  generalize b.call span vs s.sink = x at hresult hsink
  generalize b.call span' ws s.sink = y at hresult hsink
  obtain ⟨r, sink⟩ := x
  obtain ⟨r', sink'⟩ := y
  have h' : c.Relates { s with sink } { t with sink := sink' } :=
    ⟨by rw [h.eq, show sink' = sink from hsink]; rfl, h.mentioned⟩
  cases hresult with
  | ok hvw => exact ⟨h', rfl, .ok hvw⟩
  | error he => exact ⟨h', rfl, .error (.error he)⟩

/-! ## Elements -/

/-- The value of a literal has no forms. -/
theorem forms_literal {kind : Literal} {raw : String} (hv : kind.value? raw = some v) :
    v.forms = [] := by
  cases kind with
  | nil | bool | string | keyword =>
    cases hv
    rfl
  | int | float =>
    obtain ⟨n, -, rfl⟩ := Option.map_eq_some_iff.1 hv
    rfl

section rules

variable {ev ev' : Evaluator} {f : Form} {fs gs : List Form} {scope : Scope}

theorem onForms_significant (hf : f ∈ c.dom) {es' : List Form}
    (hes : Form.significant es' = (Form.significant f.elements).map c.map) :
    c.OnForms (Form.significant f.elements) (Form.significant es') :=
  ⟨hes, c.elements f hf⟩

theorem parallels_expectSymbol (form : SpecialForm) (hf : f ∈ c.dom) :
    Parallels c Eq (expectSymbol form f) (expectSymbol form (c.map f)) := by
  unfold expectSymbol
  rw [(c.alike f hf).symbol?_eq, c.text_map hf]
  cases f.symbol? with
  | some name => exact .pure rfl
  | none => exact .fail (Likeness.onSpan hf)

theorem parallels_expectSymbols (form : SpecialForm) (hfs : c.OnForms fs gs) :
    Parallels c Eq (fs.mapM (expectSymbol form)) (gs.mapM (expectSymbol form)) := by
  obtain ⟨rfl, hdom⟩ := hfs
  induction fs with
  | nil => exact .pure rfl
  | cons f fs ih =>
    obtain ⟨hf, hfs⟩ := List.forall_mem_cons.1 hdom
    rw [List.map_cons, List.mapM_cons, List.mapM_cons]
    refine (parallels_expectSymbol form hf).bind fun name _ hname => ?_
    refine (ih hfs).bind fun names _ hnames => ?_
    exact .pure (by rw [hname, hnames])

theorem parallels_expectSequence (form : SpecialForm) (hf : f ∈ c.dom)
    (hmark : (c.map f).shorthand? = f.shorthand?) :
    Parallels c c.OnForms (expectSequence form f) (expectSequence form (c.map f)) := by
  have halike := c.alike f hf
  have hspan := Likeness.onSpan hf
  generalize c.map f = g at halike hspan hmark
  cases halike with
  | vector s s' hes => exact .pure (onForms_significant hf hes)
  | list s s' mark hes =>
    cases mark with
    | none => exact .pure (onForms_significant hf hes)
    | some mark => exact .fail hspan
  | writtenOut => cases hmark
  | comment | symbol | literal | string | map => exact .fail hspan

variable (hev : ∀ f ∈ c.dom, ∀ scope, Parallels c c.OnValue (ev f scope) (ev' (c.map f) scope))
include hev

theorem parallels_evalAll (scope : Scope) (hfs : c.OnForms fs gs) :
    Parallels c c.OnValues (evalAll ev scope fs) (evalAll ev' scope gs) := by
  obtain ⟨rfl, hdom⟩ := hfs
  induction fs with
  | nil => exact .pure .nil
  | cons f fs ih =>
    obtain ⟨hf, hfs⟩ := List.forall_mem_cons.1 hdom
    refine (hev f hf scope).bind fun v w hvw => ?_
    refine ((ih hfs).holding hvw).bind fun vs ws hvs => ?_
    exact .pure (hvs.cons hvw)

theorem parallels_evalKey (scope : Scope) (hf : f ∈ c.dom) :
    Parallels c Eq (evalKey ev scope f) (evalKey ev' scope (c.map f)) := by
  refine (hev f hf scope).bind fun v w hvw => ?_
  rw [hvw.1, Value.key?_mapForms, Value.typeName_mapForms]
  cases v.key? with
  | some k => exact .pure rfl
  | none => exact .fail (Likeness.onSpan hf)

theorem parallels_evalEntries (scope : Scope) (hspan : c.OnSpan span span') :
    ∀ {fs : List Form}, (∀ f ∈ fs, f ∈ c.dom) →
      Parallels c c.OnEntries (evalEntries ev scope span fs)
        (evalEntries ev' scope span' (fs.map c.map))
  | [], _ => .pure .nil
  | [key], hdom => by
    refine (parallels_evalKey hev scope (hdom key (by simp))).bind fun _ _ _ => ?_
    exact .fail hspan
  | key :: value :: fs, hdom => by
    refine (parallels_evalKey hev scope (hdom key (by simp))).bind fun k _ hk => ?_
    subst hk
    refine (hev value (hdom value (by simp)) scope).bind fun v w hvw => ?_
    have hrest := parallels_evalEntries scope hspan fun f hf =>
      hdom f (List.mem_cons_of_mem _ (List.mem_cons_of_mem _ hf))
    exact (hrest.holding hvw).bind fun es es' hes => .pure (hes.cons k hvw)

theorem parallels_evalLeaf (scope : Scope) (hf : f ∈ c.dom) :
    Parallels c c.OnValue (evalLeaf ev scope f) (evalLeaf ev' scope (c.map f)) := by
  have halike := c.alike f hf
  have hspan := Likeness.onSpan hf
  have hlist := hev f hf scope
  generalize c.map f = g at halike hspan hlist
  cases halike with
  | comment => exact .pure (.of_forms_eq_nil rfl)
  | symbol s s' name => exact parallels_lookup scope name hspan
  | literal s s' kind raw =>
    unfold evalLeaf
    dsimp only
    cases hv : kind.value? raw with
    | none => exact .fail hspan
    | some v => exact .pure (.of_forms_eq_nil (forms_literal hv))
  | string s s' hmeaning =>
    unfold evalLeaf
    simp only [Literal.value?, hmeaning]
    exact .pure (.of_forms_eq_nil rfl)
  | vector s s' hes =>
    refine (parallels_evalAll hev scope (onForms_significant hf hes)).bind fun vs ws hvs => ?_
    exact .pure hvs.vector
  | map s s' hes =>
    unfold evalLeaf
    dsimp only
    rw [hes]
    refine (parallels_evalEntries hev scope hspan (c.elements _ hf)).bind fun es es' hes => ?_
    exact .pure hes.map
  | list | writtenOut => exact hlist

/-! ## Special forms -/

theorem parallels_bindPairs (scope : Scope) :
    ∀ {fs : List Form}, (∀ f ∈ fs, f ∈ c.dom) →
      Parallels c Eq (bindPairs ev scope fs) (bindPairs ev' scope (fs.map c.map))
  | [], _ => .pure rfl
  | [_], _ => .pure rfl
  | target :: value :: fs, hdom => by
    refine (parallels_expectSymbol _ (hdom target (by simp))).bind fun name _ hname => ?_
    subst hname
    refine (hev value (hdom value (by simp)) scope).bind fun v w hvw => ?_
    refine (parallels_assign scope name hvw).bind fun _ _ _ => ?_
    exact parallels_bindPairs scope fun f hf =>
      hdom f (List.mem_cons_of_mem _ (List.mem_cons_of_mem _ hf))

theorem parallels_stepSequence (scope : Scope) :
    ∀ {fs : List Form}, (∀ f ∈ fs, f ∈ c.dom) →
      Parallels c c.OnStep (stepSequence ev scope fs) (stepSequence ev' scope (fs.map c.map))
  | [], _ => .pure (.done (.of_forms_eq_nil rfl))
  | [f], hdom => .pure (.tail scope (hdom f (by simp)))
  | f :: g :: fs, hdom => by
    refine (hev f (hdom f (by simp)) scope).bind fun _ _ _ => ?_
    exact parallels_stepSequence scope fun f hf => hdom f (List.mem_cons_of_mem _ hf)

theorem parallels_stepSpecial (form : SpecialForm) {args args' : List Form}
    (hargs : c.OnForms args args')
    (hnames : form.takesNames = true → ∀ operand body, args = [operand, body] →
      (c.map operand).shorthand? = operand.shorthand?)
    (hspan : c.OnSpan span span') (scope : Scope) :
    Parallels c c.OnStep (stepSpecial ev form args span scope)
      (stepSpecial ev' form args' span' scope) := by
  obtain ⟨rfl, hdom⟩ := hargs
  cases form with
  | define =>
    rcases args with _ | ⟨target, _ | ⟨value, _ | ⟨_, _⟩⟩⟩
    · exact .fail hspan
    · exact .fail hspan
    · refine (parallels_expectSymbol _ (hdom target (by simp))).bind fun name _ hname => ?_
      subst hname
      refine (hev value (hdom value (by simp)) scope).bind fun v w hvw => ?_
      exact (parallels_assign scope name hvw).bind fun _ _ _ => .pure (.done hvw)
    · exact .fail hspan
  | bindings =>
    rcases args with _ | ⟨pairs, _ | ⟨body, _ | ⟨_, _⟩⟩⟩
    · exact .fail hspan
    · exact .fail hspan
    · have hpairs := hdom pairs (by simp)
      have hmark := hnames rfl pairs body rfl
      refine (parallels_expectSequence _ hpairs hmark).bind fun fs gs hfs => ?_
      obtain ⟨rfl, hfs⟩ := hfs
      rw [List.length_map]
      split
      · exact .fail (Likeness.onSpan hpairs)
      · refine (parallels_newScope scope).bind fun inner _ hinner => ?_
        subst hinner
        refine ((parallels_bindPairs hev inner hfs).entering inner).bind fun _ _ _ => ?_
        exact .pure (.tail inner (hdom body (by simp)))
    · exact .fail hspan
  | sequence => exact parallels_stepSequence hev scope hdom
  | branch =>
    rcases args with _ | ⟨condition, _ | ⟨consequent, _ | ⟨alternate, _ | ⟨_, _⟩⟩⟩⟩
    · exact .fail hspan
    · exact .fail hspan
    · refine (hev condition (hdom condition (by simp)) scope).bind fun v w hvw => ?_
      rw [hvw.1, Value.isTruthy_mapForms]
      cases v.isTruthy with
      | true => exact .pure (.tail scope (hdom consequent (by simp)))
      | false => exact .pure (.done (.of_forms_eq_nil rfl))
    · refine (hev condition (hdom condition (by simp)) scope).bind fun v w hvw => ?_
      rw [hvw.1, Value.isTruthy_mapForms]
      cases v.isTruthy with
      | true => exact .pure (.tail scope (hdom consequent (by simp)))
      | false => exact .pure (.tail scope (hdom alternate (by simp)))
    · exact .fail hspan
  | function =>
    rcases args with _ | ⟨params, _ | ⟨body, _ | ⟨_, _⟩⟩⟩
    · exact .fail hspan
    · exact .fail hspan
    · have hmark := hnames rfl params body rfl
      refine (parallels_expectSequence _ (hdom params (by simp)) hmark).bind fun fs gs hfs => ?_
      refine (parallels_expectSymbols _ hfs).bind fun names _ hnames => ?_
      subst hnames
      cases markerInPlace names with
      | true =>
        refine .pure (.done ⟨rfl, fun f hf => ?_⟩)
        rw [List.mem_singleton.1 hf]
        exact hdom body (by simp)
      | false => exact .fail hspan
    · exact .fail hspan

/-! ## Applications -/

theorem parallels_applyLambda (name : String) (params : List String) {body : Form}
    (hbody : body ∈ c.dom) (captured : Scope) {args args' : List Form}
    (hargs : c.OnForms args args') (hspan : c.OnSpan span span') (scope : Scope) :
    Parallels c c.OnStep (applyLambda ev name params body captured args span scope)
      (applyLambda ev' name params (c.map body) captured args' span' scope) := by
  have hlambda : c.OnValue (.lambda params body captured) (.lambda params (c.map body) captured) :=
    ⟨rfl, fun f hf => by rw [List.mem_singleton.1 hf]; exact hbody⟩
  refine ((parallels_evalAll hev scope hargs).holding hlambda).bind fun vs ws hvs => ?_
  have hlength : ws.length = vs.length := by rw [hvs.1, List.length_map]
  rw [hlength]
  dsimp only
  split
  · refine (parallels_newFrame captured params hvs).bind fun frame _ hframe => ?_
    subst hframe
    exact .pure (.tail frame hbody)
  · exact .fail hspan

theorem parallels_applyNamed (name : String) {nameSpan nameSpan' : Span}
    (hname : c.OnSpan nameSpan nameSpan') {args args' : List Form} (hargs : c.OnForms args args')
    (hspan : c.OnSpan span span') (scope : Scope) :
    Parallels c c.OnStep (applyNamed ev name nameSpan args span scope)
      (applyNamed ev' name nameSpan' args' span' scope) := by
  refine (parallels_lookup scope name hname).bind fun v w hvw => ?_
  obtain ⟨rfl, hv⟩ := hvw
  cases v with
  | function b =>
    refine (parallels_evalAll hev scope hargs).bind fun vs ws hvs => ?_
    exact (parallels_callBuiltin b hspan hvs).bind fun v w hvw => .pure (.done hvw)
  | lambda params body captured =>
    have hbody : body ∈ c.dom := hv body (by simp [Value.forms])
    exact parallels_applyLambda hev name params hbody captured hargs hspan scope
  | _ => exact .pure (.done ⟨rfl, hv⟩)

/-- Steps for forms that are alike leave forms that are alike. -/
theorem parallels_step (hf : f ∈ c.dom) (scope : Scope) :
    Parallels c c.OnStep (step ev f scope) (step ev' (c.map f) scope) := by
  have hraw : c.OnValue (.raw f) (.raw (c.map f)) :=
    ⟨rfl, fun g hg => by rw [List.mem_singleton.1 hg]; exact hf⟩
  have hleaf : Parallels c c.OnStep (do return .done (← evalLeaf ev scope f))
      (do return .done (← evalLeaf ev' scope (c.map f))) :=
    (parallels_evalLeaf hev scope hf).bind fun v w hvw => .pure (.done hvw)
  -- The two forms are split together, so that both steps take the same branch.
  have halike := c.alike f hf
  have hspan := Likeness.onSpan hf
  generalize hmap : c.map f = g at halike hspan hraw hleaf
  cases halike with
  | @list s s' mark es es' hes =>
    have helements : ∀ g ∈ Form.significant es, g ∈ c.dom := c.elements _ hf
    unfold step stepList
    dsimp only
    rw [hes]
    generalize hfs : Form.significant es = fs at helements
    cases mark with
    | some mark => exact parallels_applyNamed hev mark.name hspan ⟨rfl, helements⟩ hspan scope
    | none =>
      cases fs with
      | nil => exact .pure (.done hraw)
      | cons head args =>
        obtain ⟨hhead, hargs⟩ := List.forall_mem_cons.1 helements
        have hargs : c.OnForms args (args.map c.map) := ⟨rfl, hargs⟩
        rw [List.map_cons]
        dsimp only
        rw [(c.alike head hhead).symbol?_eq]
        cases hsymbol : head.symbol? with
        | some name =>
          dsimp only
          cases hform : SpecialForm.ofName? name with
          | some form =>
            refine parallels_stepSpecial hev form hargs (fun htakes operand body hoperands => ?_)
              hspan scope
            subst hoperands
            exact c.names _ hf operand (Form.nameOperand?_list hfs hsymbol hform htakes)
          | none => exact parallels_applyNamed hev name (Likeness.onSpan hhead) hargs hspan scope
        | none =>
          refine (hev head hhead scope).bind fun v w hvw => ?_
          obtain ⟨rfl, hv⟩ := hvw
          cases v with
          | lambda params body captured =>
            have hbody : body ∈ c.dom := hv body (by simp [Value.forms])
            exact parallels_applyLambda hev anonymous params hbody captured hargs hspan scope
          | _ => exact .pure (.done hraw)
  | @writtenOut s s' head mark es es' hes =>
    -- The name of the shorthand is looked up in either case, for it is the head of no special form.
    have hplain : SpecialForm.ofName? mark.name = none := by cases mark <;> rfl
    have hhead : c.OnSpan s.span head.span := by
      refine ⟨_, hf, rfl, fun hmark => ?_⟩
      rw [hmap] at hmark
      cases hmark
    have hargs : c.OnForms (Form.significant es) _ := ⟨rfl, c.elements _ hf⟩
    unfold step stepList
    simp only [hes, Form.symbol?, hplain]
    exact parallels_applyNamed hev mark.name hhead hargs hspan scope
  | comment | symbol | literal | string | vector | map => exact hleaf

end rules

/-! ## Whole evaluations -/

section eval

variable {due due' : Session → Bool} (hdue : ∀ s t, c.Relates s t → due' t = due s)
include hdue

/-- Evaluations of forms that are alike end alike, if they collect at the same moments. -/
theorem parallels_eval (n : Nat) {f : Form} (hf : f ∈ c.dom) (scope : Scope) :
    Parallels c c.OnValue (eval due n f scope) (eval due' n (c.map f) scope) := by
  induction n generalizing f scope with
  | zero => exact fun s t h => ⟨(h.enter scope).leave, rfl, .error .outOfFuel⟩
  | succ n ih =>
    intro s t h
    have hstep := parallels_step (fun f hf scope => ih hf scope) hf scope _ _ (h.enter scope)
    rw [eval_succ, eval_succ]
    generalize step (eval due n) f scope (s.enter scope) = x at hstep
    generalize step (eval due' n) (c.map f) scope (t.enter scope) = y at hstep
    obtain ⟨r, s'⟩ := x
    obtain ⟨r', t'⟩ := y
    obtain ⟨h', hreadings, hend⟩ := hstep
    cases hend with
    | error he => exact ⟨h'.leave, hreadings, .error he⟩
    | ok hleft =>
      cases hleft with
      | done hvw => exact ⟨h'.leave, hreadings, .ok hvw⟩
      | @tail next inner hnext =>
        -- Between two steps both sessions are in the next scope, and collect there or do not.
        have hmoved := h'.leave.enter inner
        obtain ⟨h'', hreadings', hend'⟩ :=
          ih hnext inner _ _ (hmoved.passSafePoint (hdue _ _ hmoved)).leave
        have hpassed := ((s'.moveTo inner).trimmed_passSafePoint due).readings
        exact ⟨h'', hreadings'.trans (hpassed.trans hreadings), hend'⟩

/-- Programs of forms that are alike end alike, if they collect at the same moments. -/
theorem parallels_evalProgram (n : Nat) {p q : Program}
    (hforms : c.OnForms (Form.significant p.forms) (Form.significant q.forms)) :
    Parallels c c.OnValues (evalProgram due n p) (evalProgram due' n q) := by
  intro s t h
  have hpassed := h.passSafePoint (hdue s t h)
  have hall := parallels_evalAll (fun f hf scope => parallels_eval hdue n hf scope)
    (s.passSafePoint due).global hforms _ _ hpassed
  have hglobal : (t.passSafePoint due').global = (s.passSafePoint due).global := by
    rw [hpassed.eq]
    rfl
  have hright : evalProgram due' n q t = evalAll (eval due' n) (s.passSafePoint due).global
      (Form.significant q.forms) (t.passSafePoint due') := by
    rw [← hglobal]
    rfl
  rw [hright]
  exact ⟨hall.1, hall.2.1.trans (s.trimmed_passSafePoint due).readings, hall.2.2⟩

end eval

end Eval

end Lisp
