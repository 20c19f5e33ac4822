import Lisp.Proofs.Eval.Code

/-!
# Evaluation keeps to the code

- `Code.Sound`: an action that keeps to some code, beside the same action with other answers for the
  cases that should not arise: both do the same, and blame only forms of the code.
- `sound_callBuiltin`, `sound_evalAll`, `sound_stepSpecial`, `sound_applyLambda`, `sound_step`: the
  rules, for evaluators of the parts that keep to the code.
- `eval_startupBody`: the startup function gives a value whenever it has an argument.
- `sound_eval`, `sound_evalProgram`: whole evaluations.
-/

namespace Lisp

/-! ## Built-in functions -/

namespace Builtin

variable {c : Code} {vs : List Value} {span : Span} {e : EvalError}

theorem raisedAt_of_wrongCount {α : Type} {b : Builtin} {expected : Nat}
    (h : wrongCount (α := α) b expected vs span = .error e) : e.RaisedAt span := by
  cases h
  exact ⟨rfl, nofun⟩

theorem raisedAt_of_expectNumbers {b : Builtin} (h : b.expectNumbers span vs = .error e) :
    e.RaisedAt span := by
  have hnumber : ∀ {v : Value} {e : EvalError}, b.expectNumber span v = .error e →
      e.RaisedAt span := by
    intro v e h
    unfold expectNumber at h
    split at h
    · cases h
    · cases h
      exact ⟨rfl, nofun⟩
  match vs with
  | [] | [_] | _ :: _ :: _ :: _ => exact raisedAt_of_wrongCount h
  | [v, w] =>
    unfold expectNumbers at h
    cases hv : b.expectNumber span v with
    | error e' =>
      simp only [hv] at h
      cases h
      exact hnumber hv
    | ok m =>
      cases hw : b.expectNumber span w with
      | error e' =>
        simp only [hv, hw] at h
        cases h
        exact hnumber hw
      | ok n =>
        simp only [hv, hw] at h
        cases h

/-- An answer has only functions that the arguments have, and a fault blames the call. -/
def Answers (c : Code) (span : Span) : Except EvalError Answer → Prop
  | .ok (.value v) => c.Knows v
  | .ok (.line _) => True
  | .error e => e.RaisedAt span

theorem answers_unary (b : Builtin) {g : Value → Value} (hg : ∀ v, c.Knows (g v)) :
    Answers c span (b.unary g span vs) := by
  match vs with
  | [] | _ :: _ :: _ => exact ⟨rfl, nofun⟩
  | [v] => exact hg v

theorem answers_arithmetic (b : Builtin) (op : Number → Number → Except ArithmeticError Number) :
    Answers c span (b.arithmetic op span vs) := by
  unfold arithmetic
  cases h : b.expectNumbers span vs with
  | error e => exact raisedAt_of_expectNumbers h
  | ok p =>
    dsimp only [bind, Except.bind]
    cases op p.1 p.2 with
    | ok r => cases r <;> exact .of_atom rfl (fun _ _ _ h => by cases h)
    | error cause => exact ⟨rfl, fun _ _ h => by cases h⟩

theorem answers_comparison (b : Builtin) (test : Ordering → Bool) :
    Answers c span (b.comparison test span vs) := by
  unfold comparison
  cases h : b.expectNumbers span vs with
  | error e => exact raisedAt_of_expectNumbers h
  | ok p => exact .of_atom rfl nofun

theorem answers (b : Builtin) (hvs : ∀ v ∈ vs, c.Knows v) : Answers c span (b.answer span vs) := by
  cases b with
  | add | sub | mul | div => exact answers_arithmetic _ _
  | less | lessOrEqual | greater | greaterOrEqual => exact answers_comparison _ _
  | equal =>
    match vs with
    | [] | [_] | _ :: _ :: _ :: _ => exact ⟨rfl, nofun⟩
    | [v, w] => exact Code.Knows.of_atom rfl nofun
  | list => exact Code.Knows.list hvs
  | isList | isEmpty | count => exact answers_unary _ fun v => .of_atom rfl nofun
  | prn | println => trivial
  | prStr | str => exact Code.Knows.of_atom rfl nofun

end Builtin

/-! ## Actions -/

namespace Code

variable {α β : Type} {c : Code} {s : Session} {span : Span} {v : Value} {vs : List Value}
  {Q : α → Prop} {P : Session → α → Prop} {R : Session → β → Prop}

/-- How an action ends: with a result that has a property in the session that is left, with a fault
that blames a form of the code, or for want of steps. -/
def Ends (c : Code) (P : Session → α → Prop) : Except Stop α × Session → Prop
  | (.ok a, s) => P s a
  | (.error (.error e), _) => c.Blames e
  | (.error .outOfFuel, _) => True

/-- Two actions do the same in a session, and keep to the code. -/
structure SoundIn (c : Code) (P : Session → α → Prop) (x y : Eval α) (s : Session) : Prop where
  same : y s = x s
  holds : c.Holds (x s).2.arena
  ends : c.Ends P (x s)

/-- Two actions do the same in all sessions that keep to the code, and keep to it. -/
def Sound (c : Code) (P : Session → α → Prop) (x y : Eval α) : Prop :=
  ∀ s, c.Holds s.arena → c.SoundIn P x y s

namespace Sound

theorem pure {a : α} (h : ∀ s, P s a) : c.Sound P (Pure.pure a) (Pure.pure a) :=
  fun s hs => ⟨rfl, hs, h s⟩

theorem fail {e : EvalError} (h : c.Blames e) : c.Sound P (Eval.fail e) (Eval.fail e) :=
  fun _ hs => ⟨rfl, hs, h⟩

theorem bind {x y : Eval α} {g k : α → Eval β} (hx : c.Sound (fun _ => Q) x y)
    (hg : ∀ a, Q a → c.Sound R (g a) (k a)) : c.Sound R (x >>= g) (y >>= k) := by
  intro s hs
  obtain ⟨hsame, hholds, hends⟩ := hx s hs
  have hleft := Eval.bind_apply x g s
  have hright := Eval.bind_apply y k s
  rw [hsame] at hright
  generalize x s = r at hleft hright hholds hends
  rcases r with ⟨(e | _) | a, s'⟩
  · exact ⟨hright.trans hleft.symm, hleft ▸ hholds, hleft ▸ hends⟩
  · exact ⟨hright.trans hleft.symm, hleft ▸ hholds, hleft ▸ trivial⟩
  · obtain ⟨hsame', hholds', hends'⟩ := hg a hends s' hholds
    exact ⟨hright.trans (hsame'.trans hleft.symm), hleft ▸ hholds', hleft ▸ hends'⟩

theorem entering {x y : Eval α} (hx : c.Sound (fun _ => Q) x y) (scope : Scope) :
    c.Sound (fun _ => Q) (Eval.entering scope x) (Eval.entering scope y) := by
  intro s hs
  obtain ⟨hsame, hholds, hends⟩ := hx (s.enter scope) hs
  refine ⟨?_, hholds, ?_⟩
  · rw [Eval.entering_apply, Eval.entering_apply, hsame]
  · rw [Eval.entering_apply]
    generalize x (s.enter scope) = r at hends
    rcases r with ⟨(e | _) | a, s'⟩ <;> exact hends

theorem holding {x y : Eval α} (hx : c.Sound (fun _ => Q) x y) (v : Value) :
    c.Sound (fun _ => Q) (Eval.holding v x) (Eval.holding v y) := by
  intro s hs
  obtain ⟨hsame, hholds, hends⟩ := hx (s.hold v) hs
  refine ⟨?_, hholds, ?_⟩
  · rw [Eval.holding_apply, Eval.holding_apply, hsame]
  · rw [Eval.holding_apply]
    generalize x (s.hold v) = r at hends
    rcases r with ⟨(e | _) | a, s'⟩ <;> exact hends

end Sound

/-! ## Variables and calls -/

theorem sound_lookup {f : Form} (hf : f ∈ c.forms) (scope : Scope) (name : String) :
    c.Sound (fun _ => c.Knows) (Eval.lookup scope name f.span) (Eval.lookup scope name f.span) := by
  intro s hs
  refine ⟨rfl, ?_, ?_⟩
  all_goals
    unfold Eval.lookup
    cases hv : s.arena.find? scope name
  · exact hs
  · exact hs
  · exact ⟨f, hf, rfl, nofun⟩
  · exact hs.bound _ (Arena.bound_of_find? hv)

theorem sound_assign (scope : Scope) (name : String) (hv : c.Knows v) :
    c.Sound (fun _ _ => True) (Eval.assign scope name v) (Eval.assign scope name v) :=
  fun _ hs => ⟨rfl, hs.set scope name hv, trivial⟩

theorem sound_newScope (outer : Scope) :
    c.Sound (fun _ _ => True) (Eval.newScope outer) (Eval.newScope outer) :=
  fun _ hs => ⟨rfl, hs.create (some outer), trivial⟩

theorem sound_callBuiltin (b : Builtin) {f : Form} (hf : f ∈ c.forms) (hvs : ∀ v ∈ vs, c.Knows v) :
    c.Sound (fun _ => c.Knows) (Eval.callBuiltin b f.span vs) (Eval.callBuiltin b f.span vs) := by
  intro s hs
  have hanswers : Builtin.Answers c f.span (b.answer f.span vs) := b.answers hvs
  refine ⟨rfl, ?_, ?_⟩
  all_goals
    unfold Eval.callBuiltin Builtin.call
    generalize b.answer f.span vs = answer at hanswers
    rcases answer with e | v | text
  · exact hs
  · exact hs
  · dsimp only
    rcases s.sink.writeLine text with ⟨cause | _, sink⟩ <;> exact hs
  · exact ⟨f, hf, hanswers⟩
  · exact hanswers
  · dsimp only
    rcases s.sink.writeLine text with ⟨cause | _, sink⟩
    · exact ⟨f, hf, rfl, nofun⟩
    · exact .of_atom rfl nofun

/-- The argument of the startup function can be looked up in the frame of a call. -/
theorem find?_bind_startupParams {a : Arena} (hw : a.WellFormed) (outer : Scope) (v : Value) :
    (a.bind outer startupParams [v]).2.find? (a.bind outer startupParams [v]).1 "a" = some v := by
  have hframe := hw.frame?_bind outer startupParams [v] (a.bind outer startupParams [v]).1
  rw [Arena.bind_eq, if_pos rfl] at hframe
  rw [Arena.bind_eq]
  obtain ⟨slot, hslot, -, -⟩ := Arena.frame?_eq_some_iff.1 hframe
  obtain ⟨hindex, -⟩ := Array.getElem?_eq_some_iff.1 hslot
  obtain ⟨n, hn⟩ := Nat.exists_eq_add_one_of_ne_zero (Nat.ne_of_gt (Nat.zero_lt_of_lt hindex))
  rw [Arena.find?, hn, Arena.findWithin, hframe]
  rfl

/-- A call of a function makes a frame in which its body can be evaluated. -/
theorem sound_call (d : Defences) {params : List String} {body : Form}
    (hfunction : c.Function params body) (captured : Scope) (hvs : ∀ v ∈ vs, c.Knows v)
    (hcount : (Arity.ofParams params).accepts vs.length = true) :
    c.Sound c.OnStep (do return .tail (← Eval.newFrame captured params vs) body)
      (do return .tail (← d.newFrame captured params vs) body) := by
  rw [d.newFrame_eq captured hfunction.marker hcount]
  intro s hs
  refine ⟨rfl, hs.bind captured params hvs, .tail ?_⟩
  rcases hfunction.body with hbody | ⟨rfl, rfl⟩
  · exact .inl hbody
  · have hlength : vs.length = 1 := by simpa [Arity.ofParams, startupParams, restMarker,
      Arity.accepts] using hcount
    obtain ⟨v, rfl⟩ := List.length_eq_one_iff.1 hlength
    exact .inr ⟨rfl, v, find?_bind_startupParams hs.wellFormed captured v⟩

/-! ## Elements -/

section rules

variable {ev ev' : Evaluator} {f : Form} {fs : List Form} {scope : Scope}

theorem sound_expectSymbol (form : SpecialForm) (hf : f ∈ c.forms) :
    c.Sound (fun _ _ => True) (Eval.expectSymbol form f) (Eval.expectSymbol form f) := by
  unfold Eval.expectSymbol
  cases f.symbol? with
  | some name => exact .pure fun _ => trivial
  | none => exact .fail ⟨f, hf, rfl, nofun⟩

theorem sound_expectSymbols (form : SpecialForm) (hfs : ∀ f ∈ fs, f ∈ c.forms) :
    c.Sound (fun _ _ => True) (fs.mapM (Eval.expectSymbol form))
      (fs.mapM (Eval.expectSymbol form)) := by
  induction fs with
  | nil => exact .pure fun _ => trivial
  | cons f fs ih =>
    obtain ⟨hf, hothers⟩ := List.forall_mem_cons.1 hfs
    rw [List.mapM_cons]
    refine (sound_expectSymbol form hf).bind (Q := fun _ => True) fun name _ => ?_
    exact (ih hothers).bind (Q := fun _ => True) fun names _ => .pure fun _ => trivial

theorem sound_expectSequence (form : SpecialForm) (hf : f ∈ c.forms) :
    c.Sound (fun _ fs => ∀ g ∈ fs, g ∈ c.forms) (Eval.expectSequence form f)
      (Eval.expectSequence form f) := by
  have hfault : c.Blames (.specialForm (.notASequence form) f.span) := ⟨f, hf, rfl, nofun⟩
  cases f with
  | list site mark es =>
    cases mark with
    | none => exact .pure fun _ => c.elements _ hf
    | some mark => exact .fail hfault
  | vector site es => exact .pure fun _ => c.elements _ hf
  | comment | symbol | literal | map => exact .fail hfault

variable (hev : ∀ f ∈ c.forms, ∀ scope, c.Sound (fun _ => c.Knows) (ev f scope) (ev' f scope))
include hev

theorem sound_evalAll (scope : Scope) (hfs : ∀ f ∈ fs, f ∈ c.forms) :
    c.Sound (fun _ vs => ∀ v ∈ vs, c.Knows v) (Eval.evalAll ev scope fs)
      (Eval.evalAll ev' scope fs) := by
  induction fs with
  | nil => exact .pure fun _ => nofun
  | cons f fs ih =>
    obtain ⟨hf, hothers⟩ := List.forall_mem_cons.1 hfs
    refine (hev f hf scope).bind fun v hv => ?_
    refine ((ih hothers).holding v).bind fun vs hvs => ?_
    exact .pure fun _ => List.forall_mem_cons.2 ⟨hv, hvs⟩

theorem sound_evalKey (scope : Scope) (hf : f ∈ c.forms) :
    c.Sound (fun _ _ => True) (Eval.evalKey ev scope f) (Eval.evalKey ev' scope f) := by
  refine (hev f hf scope).bind fun v hv => ?_
  cases v.key? with
  | some k => exact .pure fun _ => trivial
  | none => exact .fail ⟨f, hf, rfl, nofun⟩

theorem sound_evalEntries (scope : Scope) {map : Form} (hmap : map ∈ c.forms) :
    ∀ {fs : List Form}, (∀ f ∈ fs, f ∈ c.forms) →
      c.Sound (fun _ es => ∀ e ∈ es, c.Knows e.2) (Eval.evalEntries ev scope map.span fs)
        (Eval.evalEntries ev' scope map.span fs)
  | [], _ => .pure fun _ => nofun
  | [key], hfs =>
    (sound_evalKey hev scope (hfs key (by simp))).bind (Q := fun _ => True) fun _ _ =>
      .fail ⟨map, hmap, rfl, nofun⟩
  | key :: value :: fs, hfs => by
    refine (sound_evalKey hev scope (hfs key (by simp))).bind (Q := fun _ => True) fun k _ => ?_
    refine (hev value (hfs value (by simp)) scope).bind fun v hv => ?_
    have hrest := sound_evalEntries scope hmap fun f hf =>
      hfs f (List.mem_cons_of_mem _ (List.mem_cons_of_mem _ hf))
    exact (hrest.holding v).bind fun es hes => .pure fun _ => List.forall_mem_cons.2 ⟨hv, hes⟩

/-- A form that is no list is no comment either, and has a value if it is a literal. -/
theorem sound_evalLeaf (d : Defences) (scope : Scope) (hf : f ∈ c.forms)
    (hlist : ∀ site mark es, f ≠ .list site mark es) :
    c.Sound (fun _ => c.Knows) (Eval.evalLeaf ev scope f) (d.evalLeaf ev' scope f) := by
  cases f with
  | comment site text => cases c.isComment _ hf
  | symbol site name => exact sound_lookup hf scope name
  | literal site kind raw =>
    obtain ⟨v, hv⟩ := Option.isSome_iff_exists.1 (c.literal site kind raw hf)
    simp only [Eval.evalLeaf, Defences.evalLeaf, hv]
    exact .pure fun _ => knows_literal hv
  | vector site es =>
    exact (sound_evalAll hev scope (c.elements _ hf)).bind fun vs hvs =>
      .pure fun _ => .vector hvs
  | map site es =>
    exact (sound_evalEntries hev scope hf (c.elements _ hf)).bind fun es hes =>
      .pure fun _ => .map hes
  | list site mark es => exact absurd rfl (hlist site mark es)

/-! ## Special forms -/

theorem sound_bindPairs (scope : Scope) :
    ∀ {fs : List Form}, (∀ f ∈ fs, f ∈ c.forms) →
      c.Sound (fun _ _ => True) (Eval.bindPairs ev scope fs) (Eval.bindPairs ev' scope fs)
  | [], _ => .pure fun _ => trivial
  | [_], _ => .pure fun _ => trivial
  | target :: value :: fs, hfs => by
    refine (sound_expectSymbol _ (hfs target (by simp))).bind (Q := fun _ => True) fun name _ => ?_
    refine (hev value (hfs value (by simp)) scope).bind fun v hv => ?_
    refine (sound_assign scope name hv).bind (Q := fun _ => True) fun _ _ => ?_
    exact sound_bindPairs scope fun f hf =>
      hfs f (List.mem_cons_of_mem _ (List.mem_cons_of_mem _ hf))

theorem sound_stepSequence (scope : Scope) :
    ∀ {fs : List Form}, (∀ f ∈ fs, f ∈ c.forms) →
      c.Sound c.OnStep (Eval.stepSequence ev scope fs) (Eval.stepSequence ev' scope fs)
  | [], _ => .pure fun _ => .done (.of_atom rfl nofun)
  | [f], hfs => .pure fun _ => .tail (.inl (hfs f List.mem_cons_self))
  | f :: g :: fs, hfs => by
    refine (hev f (hfs f List.mem_cons_self) scope).bind fun _ _ => ?_
    exact sound_stepSequence scope fun h hh => hfs h (List.mem_cons_of_mem _ hh)

/-- A special form blames itself or one of its operands, and makes only functions whose marker is in
place. -/
theorem sound_stepSpecial (form : SpecialForm) {args : List Form} (scope : Scope)
    (hf : f ∈ c.forms) (hargs : ∀ g ∈ args, g ∈ c.forms) :
    c.Sound c.OnStep (Eval.stepSpecial ev form args f.span scope)
      (Eval.stepSpecial ev' form args f.span scope) := by
  have hfault : ∀ fault, c.Blames (.specialForm fault f.span) := fun _ => ⟨f, hf, rfl, nofun⟩
  cases form with
  | define =>
    rcases args with _ | ⟨target, _ | ⟨value, _ | ⟨_, _⟩⟩⟩
    · exact .fail (hfault _)
    · exact .fail (hfault _)
    · refine (sound_expectSymbol _ (hargs target (by simp))).bind (Q := fun _ => True)
        fun name _ => ?_
      refine (hev value (hargs value (by simp)) scope).bind fun v hv => ?_
      exact (sound_assign scope name hv).bind (Q := fun _ => True) fun _ _ =>
        .pure fun _ => .done hv
    · exact .fail (hfault _)
  | bindings =>
    rcases args with _ | ⟨pairs, _ | ⟨body, _ | ⟨_, _⟩⟩⟩
    · exact .fail (hfault _)
    · exact .fail (hfault _)
    · have hpairs := hargs pairs (by simp)
      refine (sound_expectSequence _ hpairs).bind fun fs hfs => ?_
      split
      · exact .fail ⟨pairs, hpairs, rfl, nofun⟩
      · refine (sound_newScope scope).bind (Q := fun _ => True) fun inner _ => ?_
        refine ((sound_bindPairs hev inner hfs).entering inner).bind fun _ _ => ?_
        exact .pure fun _ => .tail (.inl (hargs body (by simp)))
    · exact .fail (hfault _)
  | sequence => exact sound_stepSequence hev scope hargs
  | branch =>
    rcases args with _ | ⟨condition, _ | ⟨consequent, _ | ⟨alternate, _ | ⟨_, _⟩⟩⟩⟩
    · exact .fail (hfault _)
    · exact .fail (hfault _)
    · refine (hev condition (hargs condition (by simp)) scope).bind fun v _ => ?_
      cases v.isTruthy with
      | true => exact .pure fun _ => .tail (.inl (hargs consequent (by simp)))
      | false => exact .pure fun _ => .done (.of_atom rfl nofun)
    · refine (hev condition (hargs condition (by simp)) scope).bind fun v _ => ?_
      cases v.isTruthy with
      | true => exact .pure fun _ => .tail (.inl (hargs consequent (by simp)))
      | false => exact .pure fun _ => .tail (.inl (hargs alternate (by simp)))
    · exact .fail (hfault _)
  | function =>
    rcases args with _ | ⟨params, _ | ⟨body, _ | ⟨_, _⟩⟩⟩
    · exact .fail (hfault _)
    · exact .fail (hfault _)
    · refine (sound_expectSequence _ (hargs params (by simp))).bind fun fs hfs => ?_
      refine (sound_expectSymbols _ hfs).bind (Q := fun _ => True) fun names _ => ?_
      cases hmarker : Eval.markerInPlace names with
      | true =>
        have hfunction : c.Function names body := ⟨hmarker, .inl (hargs body (by simp))⟩
        exact .pure fun _ => .done (.lambda hfunction scope)
      | false => exact .fail (hfault _)
    · exact .fail (hfault _)

/-! ## Applications -/

theorem sound_applyLambda (d : Defences) (name : String) {params : List String} {body : Form}
    (hfunction : c.Function params body) (captured : Scope) {args : List Form} (scope : Scope)
    (hf : f ∈ c.forms) (hargs : ∀ g ∈ args, g ∈ c.forms) :
    c.Sound c.OnStep (Eval.applyLambda ev name params body captured args f.span scope)
      (d.applyLambda ev' name params body captured args f.span scope) := by
  refine ((sound_evalAll hev scope hargs).holding _).bind fun vs hvs => ?_
  dsimp only
  split
  next hcount => exact sound_call d hfunction captured hvs hcount
  next => exact .fail ⟨f, hf, rfl, nofun⟩

theorem sound_applyNamed (d : Defences) (name : String) {head : Form} (hhead : head ∈ c.forms)
    {args : List Form} (scope : Scope) (hf : f ∈ c.forms) (hargs : ∀ g ∈ args, g ∈ c.forms) :
    c.Sound c.OnStep (Eval.applyNamed ev name head.span args f.span scope)
      (d.applyNamed ev' name head.span args f.span scope) := by
  refine (sound_lookup hhead scope name).bind fun v hv => ?_
  cases v with
  | function b =>
    refine (sound_evalAll hev scope hargs).bind fun vs hvs => ?_
    exact (sound_callBuiltin b hf hvs).bind fun v hv => .pure fun _ => .done hv
  | lambda params body captured =>
    exact sound_applyLambda hev d name hv.function captured scope hf hargs
  | _ => exact .pure fun _ => .done hv

theorem sound_step (d : Defences) (hf : f ∈ c.forms) (scope : Scope) :
    c.Sound c.OnStep (Eval.step ev f scope) (d.step ev' f scope) := by
  cases f with
  | list site mark es =>
    have hraw : c.Knows (.raw (.list site none es)) := .of_atom rfl nofun
    have helements : ∀ g ∈ Form.significant es, g ∈ c.forms := c.elements _ hf
    unfold Eval.step Defences.step Eval.stepList Defences.stepList
    dsimp only
    generalize Form.significant es = fs at helements
    cases mark with
    | some mark =>
      have hnamed := sound_applyNamed hev d mark.name hf scope hf helements
      exact hnamed
    | none =>
      cases fs with
      | nil => exact .pure fun _ => .done hraw
      | cons head args =>
        obtain ⟨hhead, hargs⟩ := List.forall_mem_cons.1 helements
        dsimp only
        cases head.symbol? with
        | some name =>
          dsimp only
          cases SpecialForm.ofName? name with
          | some form =>
            have hspecial := sound_stepSpecial hev form scope hf hargs
            exact hspecial
          | none =>
            have hnamed := sound_applyNamed hev d name hhead scope hf hargs
            exact hnamed
        | none =>
          refine (hev head hhead scope).bind fun v hv => ?_
          cases v with
          | lambda params body captured =>
            have hlambda :=
              sound_applyLambda hev d Eval.anonymous hv.function captured scope hf hargs
            exact hlambda
          | _ => exact .pure fun _ => .done hraw
  | comment | symbol | literal | vector | map =>
    exact (sound_evalLeaf hev d scope hf nofun).bind fun v hv => .pure fun _ => .done hv

end rules

/-! ## Whole evaluations -/

section eval

variable (d : Defences) (due : Session → Bool)

/-- A symbol that is bound has a value. -/
theorem eval_symbol (n : Nat) (site : Site) {scope : Scope} {name : String}
    (hv : s.arena.find? scope name = some v) :
    d.eval due (n + 1) (.symbol site name) scope s = (.ok v, s) := by
  have hstep : d.step (d.eval due n) (.symbol site name) scope (s.enter scope) =
      (.ok (.done v), s.enter scope) := by
    have hlookup : Eval.lookup scope name site.span (s.enter scope) = (.ok v, s.enter scope) := by
      unfold Eval.lookup
      rw [show (s.enter scope).arena = s.arena from rfl, hv]
    show (Eval.lookup scope name site.span >>= fun v => Pure.pure (Step.done v)) _ = _
    rw [Eval.bind_apply, hlookup]
    rfl
  rw [d.eval_succ, hstep]
  rfl

/-- The startup function gives a value whenever it has an argument and there are enough steps. -/
theorem eval_startupBody (n : Nat) {scope : Scope} (hv : s.arena.find? scope "a" = some v) :
    d.eval due n startupBody scope s =
      if n < 2 then (.error .outOfFuel, s)
      else (.ok (.bool (!v.isTruthy)),
        (((s.enter scope).moveTo scope).passSafePoint due).leave) := by
  match n with
  | 0 => rfl
  | 1 => rw [d.eval_succ]; rfl
  | n + 2 =>
    have hstep : d.step (d.eval due (n + 1)) startupBody scope (s.enter scope) =
        (.ok (.tail scope (if v.isTruthy then .literal (startupSite 25 30) .bool "false"
          else .literal (startupSite 31 35) .bool "true")), s.enter scope) := by
      have hargument := eval_symbol (s := s.enter scope) d due n (startupSite 23 24) hv
      show (d.eval due (n + 1) (.symbol (startupSite 23 24) "a") scope >>= fun v =>
        Pure.pure (Step.tail scope (if v.isTruthy then _ else _))) _ = _
      rw [Eval.bind_apply, hargument]
      rfl
    have hn : ¬(n + 2 < 2) := by omega
    rw [d.eval_succ, hstep, if_neg hn]
    cases v.isTruthy with
    | true => exact d.eval_succ due n _ scope _
    | false => exact d.eval_succ due n _ scope _

/-- Evaluation keeps to the code. -/
theorem sound_eval (n : Nat) {f : Form} {scope : Scope} (hs : c.Holds s.arena)
    (hf : c.Ready s scope f) :
    c.SoundIn (fun _ => c.Knows) (Eval.eval due n f scope) (d.eval due n f scope) s := by
  induction n generalizing f scope s with
  | zero => exact ⟨rfl, hs, trivial⟩
  | succ n ih =>
    rcases hf with hf | ⟨rfl, v, hv⟩
    · have hparts : ∀ f ∈ c.forms, ∀ scope,
          c.Sound (fun _ => c.Knows) (Eval.eval due n f scope) (d.eval due n f scope) :=
        fun f hf scope s hs => ih hs (.inl hf)
      obtain ⟨hsame, hholds, hends⟩ := sound_step hparts d hf scope (s.enter scope) hs
      have hright := d.eval_succ due n f scope s
      have hleft := Eval.eval_succ due n f scope s
      rw [hsame] at hright
      generalize Eval.step (Eval.eval due n) f scope (s.enter scope) = r
        at hleft hright hholds hends
      rcases r with ⟨(e | _) | ⟨v⟩ | ⟨inner, next⟩, s'⟩
      · exact ⟨hright.trans hleft.symm, hleft ▸ hholds, hleft ▸ hends⟩
      · exact ⟨hright.trans hleft.symm, hleft ▸ hholds, hleft ▸ trivial⟩
      · cases hends with
        | done hv => exact ⟨hright.trans hleft.symm, hleft ▸ hholds, hleft ▸ hv⟩
      · cases hends with
        | tail hnext =>
          -- Between two steps a collection may take place, which leaves the next scope as it is.
          obtain ⟨hsame', hholds', hends'⟩ :=
            ih (s := ((s'.moveTo inner).passSafePoint due).leave)
              (Holds.passSafePoint (s := s'.moveTo inner) hholds due) (hnext.passSafePoint due)
          exact ⟨hright.trans (hsame'.trans hleft.symm), hleft ▸ hholds', hleft ▸ hends'⟩
    · have hright := eval_startupBody d due (n + 1) hv
      have hleft := eval_startupBody .standard due (n + 1) hv
      rw [Defences.eval_standard] at hleft
      by_cases hn : n + 1 < 2
      · rw [if_pos hn] at hleft hright
        exact ⟨hright.trans hleft.symm, hleft ▸ hs, hleft ▸ trivial⟩
      · rw [if_neg hn] at hleft hright
        have hpassed : c.Holds (((s.enter scope).moveTo scope).passSafePoint due).leave.arena :=
          Holds.passSafePoint (s := (s.enter scope).moveTo scope) hs due
        exact ⟨hright.trans hleft.symm, hleft ▸ hpassed, hleft ▸ .of_atom rfl nofun⟩

/-- The evaluation of a program keeps to the code, if the program does. -/
theorem sound_evalProgram (fuel : Nat) {p : Program}
    (hp : ∀ f ∈ Form.significant p.forms, f ∈ c.forms) :
    c.Sound (fun _ vs => ∀ v ∈ vs, c.Knows v) (Eval.evalProgram due fuel p)
      (d.evalProgram due fuel p) := by
  intro s hs
  have hparts : ∀ f ∈ c.forms, ∀ scope,
      c.Sound (fun _ => c.Knows) (Eval.eval due fuel f scope) (d.eval due fuel f scope) :=
    fun f hf scope s hs => sound_eval d due fuel hs (.inl hf)
  obtain ⟨hsame, hholds, hends⟩ := sound_evalAll hparts (s.passSafePoint due).global hp
    (s.passSafePoint due) (hs.passSafePoint due)
  exact ⟨hsame, hholds, hends⟩

end eval

end Code

end Lisp
