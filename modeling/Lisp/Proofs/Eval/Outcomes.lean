import Lisp.Proofs.Eval.Composed
import Lisp.Proofs.Scope.Bound

/-!
# Outcomes of composed actions

Evaluation makes lists, vectors and maps of values that are there, and maps only from entries. So
all values have each property that passes from the values of which others are made to these.

- `Eval.Yields`: an action that binds only values with a property, and whose result has one.
- `Composed.yields`: so do composed actions, if an evaluator of the parts does.
- `Composed.exists_region`: the results of a composed action are those that it may have.
- `Eval.Steady`: a relation between earlier and later sessions that holds for local actions and for
  safe points. So it holds for composed actions and for whole evaluations.
- `yields_eval`, `yields_evalProgram`: the values of whole evaluations.
-/

namespace Lisp.Eval

/-! ## Actions -/

/-- An action that binds only values with a property, where only such values are bound, and whose
result has a property. -/
def Yields {α : Type} (P : Value → Prop) (Q : α → Prop) (x : Eval α) : Prop :=
  ∀ s : Session, (∀ v ∈ s.arena.bound, P v) →
    (∀ v ∈ (x s).2.arena.bound, P v) ∧ ∀ a, (x s).1 = .ok a → Q a

variable {α β : Type} {P : Value → Prop} {Q : α → Prop} {R : β → Prop} {x : Eval α}

namespace Yields

theorem pure {a : α} (h : Q a) : Yields P Q (Pure.pure a) :=
  fun _ hs => ⟨hs, fun _ heq => Except.ok.inj heq ▸ h⟩

theorem fail (e : EvalError) : Yields P Q (Eval.fail e) := fun _ hs => ⟨hs, nofun⟩

theorem bind {g : α → Eval β} (hx : Yields P Q x) (hg : ∀ a, Q a → Yields P R (g a)) :
    Yields P R (x >>= g) := by
  intro s hs
  obtain ⟨hbound, hresult⟩ := hx s hs
  rw [bind_apply]
  generalize x s = r at hbound hresult
  rcases r with ⟨e | a, s'⟩
  · exact ⟨hbound, nofun⟩
  · exact hg a (hresult a rfl) s' hbound

theorem mono {Q' : α → Prop} (hx : Yields P Q x) (h : ∀ a, Q a → Q' a) : Yields P Q' x :=
  fun s hs => ⟨(hx s hs).1, fun a heq => h a ((hx s hs).2 a heq)⟩

theorem entering (hx : Yields P Q x) (scope : Scope) : Yields P Q (Eval.entering scope x) :=
  fun s hs => hx (s.enter scope) hs

theorem holding (hx : Yields P Q x) (v : Value) : Yields P Q (Eval.holding v x) :=
  fun s hs => hx (s.hold v) hs

end Yields

variable {v : Value} {vs : List Value}

theorem yields_lookup (scope : Scope) (name : String) (span : Span) :
    Yields P P (lookup scope name span) := by
  intro s hs
  unfold lookup
  cases hv : s.arena.find? scope name with
  | none => exact ⟨hs, nofun⟩
  | some v => exact ⟨hs, fun _ heq => Except.ok.inj heq ▸ hs v (Arena.bound_of_find? hv)⟩

theorem yields_assign (scope : Scope) (name : String) (hv : P v) :
    Yields P (fun _ => True) (assign scope name v) :=
  fun _ hs => ⟨Arena.forall_bound_set hs scope name hv, fun _ _ => trivial⟩

theorem yields_newScope (outer : Scope) : Yields P (fun _ => True) (newScope outer) :=
  fun s hs => ⟨fun v hv => hs v (Arena.bound_create s.arena (some outer) hv), fun _ _ => trivial⟩

theorem yields_newFrame (hP : Value.Hereditary P) (outer : Scope) (params : List String)
    (hvs : ∀ v ∈ vs, P v) : Yields P (fun _ => True) (newFrame outer params vs) := by
  refine fun s hs => ⟨?_, fun _ _ => trivial⟩
  exact Arena.forall_bound_bind hs outer params (hP.atom _ rfl) hvs fun rest hrest =>
    hP.list rest fun v hv => hvs v (hrest hv)

theorem yields_callBuiltin (hP : Value.Hereditary P) (b : Builtin) (span : Span)
    (hvs : ∀ v ∈ vs, P v) : Yields P P (callBuiltin b span vs) := by
  intro s hs
  unfold callBuiltin Builtin.call
  cases hanswer : b.answer span vs with
  | error e => exact ⟨hs, nofun⟩
  | ok answer =>
    cases answer with
    | value v => exact ⟨hs, fun _ heq => Except.ok.inj heq ▸ Builtin.of_answer hP hvs hanswer⟩
    | line text =>
      dsimp only
      rcases s.sink.writeLine text with ⟨cause | _, sink⟩
      · exact ⟨hs, nofun⟩
      · exact ⟨hs, fun _ heq => Except.ok.inj heq ▸ hP.atom _ rfl⟩

/-! ## Composed actions -/

section composed

variable {r : Region} {Q : Region → α → Prop} {act : Evaluator → Eval α}

theorem Basic.yields {x : Eval α} (h : Basic P r Q x) (hP : Value.Hereditary P) :
    Yields P (fun a => ∃ r', Q r' a) x := by
  cases h with
  | pure h => exact .pure ⟨r, h⟩
  | fail e => exact .fail e
  | lookup scope name span => exact (yields_lookup scope name span).mono fun v hv => ⟨r, rfl, hv⟩
  | assign _ hv => exact (yields_assign r.scope _ hv).mono fun _ h => ⟨r, rfl, h⟩
  | newScope outer => exact (yields_newScope outer).mono fun inner _ => ⟨.whole inner, rfl⟩
  | newFrame outer params hvs =>
    exact (yields_newFrame hP outer params hvs).mono fun inner _ => ⟨.whole inner, rfl⟩
  | callBuiltin b span hvs => exact (yields_callBuiltin hP b span hvs).mono fun v hv => ⟨r, rfl, hv⟩

theorem Composed.yields (hact : Composed P r Q act) (hP : Value.Hereditary P) {ev : Evaluator}
    (hev : ∀ f scope, Yields P P (ev f scope)) : Yields P (fun a => ∃ r', Q r' a) (act ev) := by
  induction hact with
  | basic h => exact h.yields hP
  | ask _ => exact (hev _ _).mono fun v hv => ⟨_, rfl, hv⟩
  | bind _ _ ihx ihy => exact ihx.bind fun a ⟨r', ha⟩ => ihy r' a ha
  | entering scope _ ih => exact ih.entering scope
  | holding v _ ih => exact ih.holding v

/-- Whatever the evaluator does, a composed action has only results that it may have. -/
theorem Composed.exists_region (hact : Composed (fun _ => True) r Q act) {ev : Evaluator}
    {s : Session} {a : α} (h : (act ev s).1 = .ok a) : ∃ r', Q r' a := by
  have hev : ∀ f scope, Yields (fun _ => True) (fun _ => True) (ev f scope) :=
    fun _ _ _ _ => ⟨fun _ _ => trivial, fun _ _ => trivial⟩
  exact (hact.yields .trivial hev s fun _ _ => trivial).2 a h

end composed

/-! ## Sessions before and after -/

/-- A relation between the sessions before and after whatever is done in an evaluation: it holds for
local actions and for safe points, and from one action to the next. It does not notice what is kept
in use only meanwhile. -/
structure Steady (R : Session → Session → Prop) : Prop where
  of_local : ∀ {α : Type} {x : Eval α}, Local x → ∀ s, R s (x s).2
  passSafePoint : ∀ due s, R s (s.passSafePoint due)
  trans : ∀ {s t u : Session}, R s t → R t u → R s u
  moveTo : ∀ {s t : Session} {scope} inner, R (s.enter scope) t →
    R (s.enter inner) (t.moveTo inner)
  leave : ∀ {s t : Session} {scope}, R (s.enter scope) t → R s t.leave
  letGo : ∀ {s t : Session} {v}, R (s.hold v) t → R s t.letGo

namespace Steady

variable {R : Session → Session → Prop} (hR : Steady R)
include hR

/-- The sessions before and after a composed action are related, if those before and after its
requests are. -/
theorem composed {r : Region} {Q : Region → α → Prop} {act : Evaluator → Eval α}
    (hact : Composed (fun _ => True) r Q act) {ev : Evaluator}
    (hev : ∀ f scope s, R s (ev f scope s).2) (s : Session) : R s (act ev s).2 := by
  induction hact generalizing s with
  | basic h => exact hR.of_local h.local s
  | ask _ => exact hev _ _ s
  | @bind α β r Q Q' x y hx _ ihx ihy =>
    have hfirst := ihx s
    have hresult : ∀ a, (x ev s).1 = .ok a → ∃ r', Q r' a := fun _ => hx.exists_region
    show R s ((x ev >>= fun a => y a ev) s).2
    rw [bind_apply]
    generalize x ev s = result at hfirst hresult
    obtain ⟨e | a, s'⟩ := result
    · exact hfirst
    · obtain ⟨r', ha⟩ := hresult a rfl
      exact hR.trans hfirst (ihy r' a ha s')
  | entering scope _ ih => exact hR.leave (ih (s.enter scope))
  | holding v _ ih => exact hR.letGo (ih (s.hold v))

/-- The sessions before and after an evaluation are related. -/
theorem eval (due : Session → Bool) (n : Nat) (f : Form) (scope : Scope) (s : Session) :
    R s (eval due n f scope s).2 := by
  induction n generalizing f scope s with
  | zero => exact hR.of_local (x := Eval.eval due 0 f scope) (.of_unchanged fun _ => rfl) s
  | succ n ih =>
    have hstep := hR.composed (composed_step .trivial f scope) ih (s.enter scope)
    rw [eval_succ]
    generalize step (Eval.eval due n) f scope (s.enter scope) = result at hstep
    obtain ⟨r, s'⟩ := result
    rcases r with e | v | ⟨inner, next⟩
    · exact hR.leave hstep
    · exact hR.leave hstep
    · have hsafe := hR.passSafePoint due (s'.moveTo inner)
      have hmoved := hR.leave (hR.trans (hR.moveTo inner hstep) hsafe)
      exact hR.trans hmoved (ih next inner _)

/-- So are those before and after a program. -/
theorem evalProgram (due : Session → Bool) (n : Nat) (p : Program) (s : Session) :
    R s (evalProgram due n p s).2 :=
  hR.trans (hR.passSafePoint due s)
    (hR.composed (Composed.evalAll_whole _ _) (hR.eval due n) (s.passSafePoint due))

end Steady

/-! ## Whole evaluations -/

theorem bound_passSafePoint (due : Session → Bool) {s : Session}
    (hs : ∀ v ∈ s.arena.bound, P v) : ∀ v ∈ (s.passSafePoint due).arena.bound, P v := by
  unfold Session.passSafePoint
  cases due s with
  | true => exact fun v hv => hs v (Arena.bound_collect s.arena s.roots hv)
  | false => exact hs

/-- Whole evaluations make only values with a hereditary property. -/
theorem yields_eval (hP : Value.Hereditary P) (due : Session → Bool) (n : Nat) (f : Form)
    (scope : Scope) : Yields P P (eval due n f scope) := by
  induction n generalizing f scope with
  | zero => exact fun s hs => ⟨hs, nofun⟩
  | succ n ih =>
    intro s hs
    obtain ⟨hbound, hresult⟩ := (composed_step hP f scope).yields hP ih (s.enter scope) hs
    rw [eval_succ]
    generalize step (eval due n) f scope (s.enter scope) = r at hbound hresult
    rcases r with ⟨e | v | ⟨inner, next⟩, s'⟩
    · exact ⟨hbound, nofun⟩
    · obtain ⟨_, hv⟩ := hresult _ rfl
      exact ⟨hbound, fun _ heq => Except.ok.inj heq ▸ hv⟩
    · exact ih next inner _ (bound_passSafePoint due (s := s'.moveTo inner) hbound)

theorem yields_evalProgram (hP : Value.Hereditary P) (due : Session → Bool) (n : Nat)
    (p : Program) : Yields P (fun vs => ∀ v ∈ vs, P v) (evalProgram due n p) := by
  intro s hs
  have hforms : Yields P _ (evalAll (eval due n) (s.passSafePoint due).global
      (Form.significant p.forms)) :=
    (Composed.evalAll_whole _ _).yields hP (yields_eval hP due n)
  obtain ⟨hbound, hresult⟩ := hforms _ (bound_passSafePoint due hs)
  exact ⟨hbound, fun vs heq => (hresult vs heq).choose_spec.2⟩

end Lisp.Eval
