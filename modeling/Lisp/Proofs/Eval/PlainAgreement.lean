import Lisp.Proofs.Eval.Equations
import Lisp.Proofs.Eval.Plain

/-!
# The loop does what plain recursion does

An evaluation that never collects, seen only by what it returns and by the frames and the output
that it leaves, is the evaluation by plain recursion.

- `Eval.seen`: what is seen of the end of an action.
- `Eval.Mirrors`: a direct action that gives what is seen of an action on a session.
- `Eval.Follows`: a direct action that gives what is seen of a step, and of the evaluation of what
  the step leaves.
- `follows_step`: the rules of plain recursion follow the steps.
- `eval_iff_plain`: both evaluations end with the same outcomes.
-/

namespace Lisp

/-- What evaluation reads and changes of a session. -/
def Session.world (s : Session) : World := ⟨s.arena, s.sink⟩

namespace Eval

variable {α β : Type}

/-- What is seen of the end of an action. Without further steps there is nothing to see. -/
def seen : Except Stop α × Session → Option (Except EvalError α × World)
  | (.ok a, s) => some (.ok a, s.world)
  | (.error (.error e), s) => some (.error e, s.world)
  | (.error .outOfFuel, _) => none

/-- What is seen is all but the stacks and the counters. -/
theorem seen_congr (r : Except Stop α) {s s' : Session} (h : s.world = s'.world) :
    seen (r, s) = seen (r, s') := by
  rcases r with (e | _) | a
  · simp only [seen, h]
  · rfl
  · simp only [seen, h]

/-- A direct action that gives what is seen of an action on a session. -/
def Mirrors (x : Plain α) (y : Eval α) : Prop := ∀ s, x s.world = seen (y s)

namespace Mirrors

theorem pure (a : α) : Mirrors (Pure.pure a) (Pure.pure a) := fun _ => rfl

theorem fail (e : EvalError) : Mirrors (Plain.fail e : Plain α) (Eval.fail e) := fun _ => rfl

theorem bind {x : Plain α} {y : Eval α} {g : α → Plain β} {k : α → Eval β} (hx : Mirrors x y)
    (hg : ∀ a, Mirrors (g a) (k a)) : Mirrors (x >>= g) (y >>= k) := by
  intro s
  rw [Plain.bind_apply, bind_apply, hx s]
  rcases y s with ⟨(e | _) | a, s'⟩
  · rfl
  · rfl
  · exact hg a s'

theorem entering {x : Plain α} {y : Eval α} (hx : Mirrors x y) (scope : Scope) :
    Mirrors x (entering scope y) := by
  intro s
  rw [entering_apply]
  exact (hx (s.enter scope)).trans (seen_congr _ rfl)

theorem holding {x : Plain α} {y : Eval α} (hx : Mirrors x y) (v : Value) :
    Mirrors x (holding v y) := by
  intro s
  rw [holding_apply]
  exact (hx (s.hold v)).trans (seen_congr _ rfl)

end Mirrors

theorem mirrors_lookup (scope : Scope) (name : String) (span : Span) :
    Mirrors (Plain.lookup scope name span) (lookup scope name span) := by
  intro s
  unfold Plain.lookup lookup Session.world
  dsimp only
  cases s.arena.find? scope name <;> rfl

theorem mirrors_assign (scope : Scope) (name : String) (v : Value) :
    Mirrors (Plain.assign scope name v) (assign scope name v) := fun _ => rfl

theorem mirrors_newScope (outer : Scope) : Mirrors (Plain.newScope outer) (newScope outer) :=
  fun _ => rfl

theorem mirrors_newFrame (outer : Scope) (params : List String) (args : List Value) :
    Mirrors (Plain.newFrame outer params args) (newFrame outer params args) := fun _ => rfl

theorem mirrors_callBuiltin (b : Builtin) (span : Span) (args : List Value) :
    Mirrors (Plain.callBuiltin b span args) (callBuiltin b span args) := by
  intro s
  unfold Plain.callBuiltin callBuiltin
  show some ((b.call span args s.sink).1, World.mk s.arena (b.call span args s.sink).2) = _
  rcases b.call span args s.sink with ⟨e | v, sink⟩ <;> rfl

theorem mirrors_expectSymbol (form : SpecialForm) (f : Form) :
    Mirrors (Plain.expectSymbol form f) (expectSymbol form f) := by
  unfold Plain.expectSymbol expectSymbol
  cases f.symbol? with
  | some name => exact .pure name
  | none => exact .fail _

theorem mirrors_expectSequence (form : SpecialForm) (f : Form) :
    Mirrors (Plain.expectSequence form f) (expectSequence form f) := by
  cases f with
  | list site shorthand es =>
    cases shorthand with
    | none => exact .pure _
    | some mark => exact .fail _
  | vector site es => exact .pure _
  | _ => exact .fail _

theorem mirrors_expectSymbols (form : SpecialForm) (fs : List Form) :
    Mirrors (fs.mapM (Plain.expectSymbol form)) (fs.mapM (expectSymbol form)) := by
  induction fs with
  | nil => exact .pure _
  | cons f fs ih =>
    rw [List.mapM_cons, List.mapM_cons]
    exact (mirrors_expectSymbol form f).bind fun _ => ih.bind fun _ => .pure _

/-! ## Elements -/

section rules

variable {plain : Plain.Evaluator} {ev : Evaluator}
  (hev : ∀ f scope, Mirrors (plain f scope) (ev f scope))
include hev

theorem mirrors_evalAll (scope : Scope) (fs : List Form) :
    Mirrors (fs.mapM fun f => plain f scope) (evalAll ev scope fs) := by
  induction fs with
  | nil => exact .pure _
  | cons f fs ih =>
    rw [List.mapM_cons]
    exact (hev f scope).bind fun v => (ih.holding v).bind fun _ => .pure _

/-- An element of a map at an even index, and what is done with the key. -/
theorem mirrors_key (scope : Scope) (f : Form) {i : Nat} (hi : i % 2 = 0)
    {g : Key ⊕ Value → Plain β} {k : Key → Eval β} (hg : ∀ key, Mirrors (g (.inl key)) (k key)) :
    Mirrors (Plain.evalItem plain scope (f, i) >>= g) (evalKey ev scope f >>= k) := by
  unfold Plain.evalItem evalKey
  rw [bind_assoc, bind_assoc]
  refine (hev f scope).bind fun v => ?_
  rw [if_neg (by omega)]
  cases v.key? with
  | some key => exact hg key
  | none => exact fun _ => rfl

/-- An element of a map at an odd index, and what is done with the value. -/
theorem mirrors_value (scope : Scope) (f : Form) {i : Nat} (hi : i % 2 = 1)
    {g : Key ⊕ Value → Plain β} {k : Value → Eval β} (hg : ∀ v, Mirrors (g (.inr v)) (k v)) :
    Mirrors (Plain.evalItem plain scope (f, i) >>= g) (ev f scope >>= k) := by
  unfold Plain.evalItem
  rw [bind_assoc]
  refine (hev f scope).bind fun v => ?_
  rw [if_pos hi]
  exact hg v

/-- The elements of a map from an even index on, and the entries that they make up. -/
theorem mirrors_evalEntries (scope : Scope) (span : Span) :
    ∀ (fs : List Form) (i : Nat), i % 2 = 0 →
      Mirrors ((fs.zipIdx i).mapM (Plain.evalItem plain scope) >>= Plain.entries span)
        (evalEntries ev scope span fs)
  | [], _, _ => .pure []
  | [key], i, hi => by
    simp only [List.zipIdx_cons, List.zipIdx_nil, List.mapM_cons, List.mapM_nil, bind_assoc,
      pure_bind]
    exact mirrors_key hev scope key hi fun _ => .fail _
  | key :: value :: fs, i, hi => by
    simp only [List.zipIdx_cons, List.mapM_cons, bind_assoc, pure_bind]
    refine mirrors_key hev scope key hi fun k => ?_
    refine mirrors_value hev scope value (by omega) fun v => ?_
    -- The two elements make up the first entry, and the rest the others.
    simp only [Plain.entries_cons]
    rw [← bind_assoc]
    have hrest := mirrors_evalEntries scope span fs (i + 1 + 1) (by omega)
    exact (hrest.holding v).bind fun _ => .pure _

theorem mirrors_bindPairs (scope : Scope) :
    ∀ fs : List Form,
      Mirrors ((Plain.inPairs fs).forM (Plain.bindPair plain scope)) (bindPairs ev scope fs)
  | [] => .pure _
  | [_] => .pure _
  | target :: value :: fs => by
    show Mirrors (Plain.bindPair plain scope (target, value) >>= fun _ =>
      (Plain.inPairs fs).forM (Plain.bindPair plain scope)) _
    rw [Plain.bindPair, bind_assoc]
    simp only [bind_assoc]
    refine (mirrors_expectSymbol _ target).bind fun name => (hev value scope).bind fun v => ?_
    exact (mirrors_assign scope name v).bind fun _ => mirrors_bindPairs scope fs

end rules

/-! ## Steps -/

/-- What is seen of the end of a step, and of the evaluation of what it leaves. -/
def follow (plain : Plain.Evaluator) :
    Except Stop Step × Session → Option (Except EvalError Value × World)
  | (.ok (.done v), s) => some (.ok v, s.world)
  | (.ok (.tail scope f), s) => plain f scope s.world
  | (.error (.error e), s) => some (.error e, s.world)
  | (.error .outOfFuel, _) => none

/-- A direct action that gives what is seen of a step and of the evaluation of what it leaves. -/
def Follows (plain : Plain.Evaluator) (x : Plain Value) (y : Eval Step) : Prop :=
  ∀ s, x s.world = follow plain (y s)

namespace Follows

variable {plain : Plain.Evaluator}

theorem done (v : Value) : Follows plain (pure v) (pure (.done v)) := fun _ => rfl

theorem tail (scope : Scope) (f : Form) :
    Follows plain (plain f scope) (pure (.tail scope f)) := fun _ => rfl

theorem fail (e : EvalError) : Follows plain (Plain.fail e) (Eval.fail e) := fun _ => rfl

theorem bind {x : Plain α} {y : Eval α} {g : α → Plain Value} {k : α → Eval Step}
    (hx : Mirrors x y) (hg : ∀ a, Follows plain (g a) (k a)) :
    Follows plain (x >>= g) (y >>= k) := by
  intro s
  rw [Plain.bind_apply, bind_apply, hx s]
  rcases y s with ⟨(e | _) | a, s'⟩
  · rfl
  · rfl
  · exact hg a s'

/-- A step that only gives a value. -/
theorem value {x : Plain Value} {y : Eval Value} (hx : Mirrors x y) :
    Follows plain x (do return .done (← y)) := by
  have hbind : Follows plain (x >>= pure) (do return .done (← y)) := bind hx done
  rwa [bind_pure] at hbind

end Follows

section steps

variable {plain : Plain.Evaluator} {ev : Evaluator}
  (hev : ∀ f scope, Mirrors (plain f scope) (ev f scope))
include hev

theorem follows_stepSequence (scope : Scope) :
    ∀ fs : List Form, Follows plain (Plain.sequence plain scope fs) (stepSequence ev scope fs)
  | [] => .done .nil
  | [f] => .tail scope f
  | f :: g :: fs => by
    rw [Plain.sequence_cons_cons]
    exact .bind (hev f scope) fun _ => follows_stepSequence scope (g :: fs)

theorem follows_stepSpecial (form : SpecialForm) (args : List Form) (span : Span)
    (scope : Scope) :
    Follows plain (Plain.special plain form args span scope)
      (stepSpecial ev form args span scope) := by
  cases form with
  | define =>
    rcases args with _ | ⟨target, _ | ⟨value, _ | ⟨_, _⟩⟩⟩
    · exact .fail _
    · exact .fail _
    · refine .bind (mirrors_expectSymbol _ target) fun name => .bind (hev value scope) fun v => ?_
      exact .bind (mirrors_assign scope name v) fun _ => .done v
    · exact .fail _
  | bindings =>
    rcases args with _ | ⟨pairs, _ | ⟨body, _ | ⟨_, _⟩⟩⟩
    · exact .fail _
    · exact .fail _
    · refine .bind (mirrors_expectSequence _ pairs) fun fs => ?_
      split
      · exact .fail _
      · refine .bind (mirrors_newScope scope) fun inner => ?_
        exact .bind ((mirrors_bindPairs hev inner fs).entering inner) fun _ => .tail inner body
    · exact .fail _
  | sequence => exact follows_stepSequence hev scope args
  | branch =>
    rcases args with _ | ⟨condition, _ | ⟨consequent, _ | ⟨alternate, _ | ⟨_, _⟩⟩⟩⟩
    · exact .fail _
    · exact .fail _
    · refine .bind (hev condition scope) fun v => ?_
      cases v.isTruthy with
      | true => exact .tail scope consequent
      | false => exact .done .nil
    · refine .bind (hev condition scope) fun v => ?_
      cases v.isTruthy with
      | true => exact .tail scope consequent
      | false => exact .tail scope alternate
    · exact .fail _
  | function =>
    rcases args with _ | ⟨params, _ | ⟨body, _ | ⟨_, _⟩⟩⟩
    · exact .fail _
    · exact .fail _
    · refine .bind (mirrors_expectSequence _ params) fun fs => ?_
      refine .bind (mirrors_expectSymbols _ fs) fun names => ?_
      cases markerInPlace names with
      | true => exact .done _
      | false => exact .fail _
    · exact .fail _

theorem follows_applyLambda (name : String) (params : List String) (body : Form)
    (captured : Scope) (args : List Form) (span : Span) (scope : Scope) :
    Follows plain (Plain.call plain name params body captured args span scope)
      (applyLambda ev name params body captured args span scope) := by
  refine .bind ((mirrors_evalAll hev scope args).holding _) fun vs => ?_
  dsimp only
  split
  · exact .bind (mirrors_newFrame captured params vs) fun frame => .tail frame body
  · exact .fail _

theorem follows_applyNamed (name : String) (nameSpan : Span) (args : List Form) (span : Span)
    (scope : Scope) :
    Follows plain (Plain.callNamed plain name nameSpan args span scope)
      (applyNamed ev name nameSpan args span scope) := by
  refine .bind (mirrors_lookup scope name nameSpan) fun v => ?_
  cases v with
  | function b =>
    exact .bind (mirrors_evalAll hev scope args) fun vs => .value (mirrors_callBuiltin b span vs)
  | lambda params body captured =>
    exact follows_applyLambda hev name params body captured args span scope
  | _ => exact .done _

/-- The rules of plain recursion give what is seen of a step and of the evaluation of what it
leaves. -/
theorem follows_step (f : Form) (scope : Scope) :
    Follows plain (Plain.rule plain f scope) (step ev f scope) := by
  cases f with
  | comment site text => exact .done _
  | symbol site name => exact .value (mirrors_lookup scope name site.span)
  | literal site kind raw =>
    refine .value ?_
    unfold Plain.rule evalLeaf
    dsimp only
    cases kind.value? raw with
    | some v => exact .pure v
    | none => exact .fail _
  | vector site es =>
    exact .value ((mirrors_evalAll hev scope _).bind fun vs => .pure _)
  | map site es =>
    have hentries := mirrors_evalEntries hev scope site.span (Form.significant es) 0 rfl
    have hmap := hentries.bind fun es => Mirrors.pure (Value.map (Entries.ofList es))
    rw [bind_assoc] at hmap
    exact .value hmap
  | list site shorthand es =>
    unfold Plain.rule step stepList
    cases shorthand with
    | some mark => exact follows_applyNamed hev mark.name site.span _ site.span scope
    | none =>
      dsimp only
      cases Form.significant es with
      | nil => exact .done _
      | cons head args =>
        dsimp only
        cases head.symbol? with
        | some name =>
          dsimp only
          cases SpecialForm.ofName? name with
          | some form => exact follows_stepSpecial hev form args site.span scope
          | none => exact follows_applyNamed hev name head.span args site.span scope
        | none =>
          refine .bind (hev head scope) fun v => ?_
          cases v with
          | lambda params body captured =>
            exact follows_applyLambda hev anonymous params body captured args site.span scope
          | _ => exact .done _

end steps

/-! ## Whole evaluations -/

/-- Evaluation by plain recursion down to some depth gives what is seen of an evaluation of as many
steps that never collects. -/
theorem mirrors_eval (n : Nat) (f : Form) (scope : Scope) :
    Mirrors (Plain.evalWithin n f scope) (eval (fun _ => false) n f scope) := by
  induction n generalizing f scope with
  | zero => exact fun _ => rfl
  | succ n ih =>
    -- Each step of the loop is one more level of recursion.
    intro s
    have hstep := follows_step ih f scope (s.enter scope)
    rw [eval_succ]
    refine hstep.trans ?_
    rcases step (eval (fun _ => false) n) f scope (s.enter scope) with
      ⟨(e | _) | (v | ⟨inner, next⟩), s'⟩
    · rfl
    · rfl
    · rfl
    · exact ih next inner ((s'.moveTo inner).passSafePoint fun _ => false).leave

/-- **The loop implements plain recursion.** An evaluation that never collects ends with a result,
frames and output exactly if the evaluation by plain recursion ends with them, from any session,
form and scope. -/
theorem eval_iff_plain (f : Form) (scope : Scope) (s : Session) (r : Except EvalError Value)
    (w : World) :
    (∃ fuel s', eval (fun _ => false) fuel f scope s = (r.mapError .error, s') ∧ s'.world = w) ↔
      Plain.eval f scope s.world = some (r, w) := by
  rw [Plain.eval_eq_some_iff]
  constructor
  · rintro ⟨fuel, s', heval, rfl⟩
    refine ⟨fuel, ?_⟩
    rw [mirrors_eval fuel f scope s, heval]
    cases r <;> rfl
  · rintro ⟨depth, h⟩
    rw [mirrors_eval depth f scope s] at h
    cases heval : eval (fun _ => false) depth f scope s with
    | mk result s' =>
      rw [heval] at h
      refine ⟨depth, s', ?_⟩
      rcases result with (e | _) | v
      · cases h
        exact ⟨heval, rfl⟩
      · cases h
      · cases h
        exact ⟨heval, rfl⟩

end Eval

end Lisp
