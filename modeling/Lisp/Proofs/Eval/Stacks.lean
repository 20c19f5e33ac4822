import Lisp.Proofs.Eval.Agreement
import Lisp.Proofs.Eval.Outcomes

/-!
# What an evaluation keeps in use, it lets go again

- `Composed.sameRoots`: a composed action leaves the scopes under way and the values that wait as it
  found them, if the evaluator of the parts does.
- `balanced_eval`: so do whole evaluations, however they end.
- `Pass`: where an evaluation is before a step. `Pass.LeadsTo` goes from one step to the next, and
  what is left to do is always the rest of the same evaluation (`LeadsTo.rest_eq`).
- `stackAll`, `stackEntries`: elements by explicit marks. Every value is pushed, and the stack is
  cut back to its mark in the end and after a failure. This comes to the same as keeping each value
  in use while the others are evaluated (`stackAll_eq`, `stackEntries_eq`).
- `stacks_balanced`: all of it, for every session, form and scope.
-/

namespace Lisp

namespace Eval

variable {α : Type} {s t : Session} {ev : Evaluator} {scope : Scope} {due : Session → Bool}

/-! ## Balance -/

/-- An evaluator that keeps no more in use than before, however an evaluation ends. -/
def Balanced (ev : Evaluator) : Prop := ∀ f scope (s : Session), s.SameRoots (ev f scope s).2

theorem sameRoots_moveTo {inner : Scope} (h : (s.enter scope).SameRoots t) :
    (s.enter inner).SameRoots (t.moveTo inner) :=
  ⟨h.global, congrArg (fun active : List Scope => inner :: active.tail) h.active, h.held⟩

/-- What is done in an evaluation keeps no more in use than before. -/
theorem steady_sameRoots : Steady Session.SameRoots where
  of_local hx s := by
    rw [hx.rest s]
    exact ⟨rfl, rfl, rfl⟩
  passSafePoint due s := (s.trimmed_passSafePoint due).sameRoots
  trans := .trans
  moveTo _ := sameRoots_moveTo
  leave := sameRoots_leave
  letGo := sameRoots_letGo

/-- A composed action keeps no more in use than before, if its parts do not. -/
theorem Composed.sameRoots {r : Region} {Q : Region → α → Prop} {act : Evaluator → Eval α}
    (hact : Composed (fun _ => True) r Q act) (hev : Balanced ev) (s : Session) :
    s.SameRoots (act ev s).2 :=
  steady_sameRoots.composed hact hev s

/-- Nor does an evaluation, however it ends. -/
theorem balanced_eval (due : Session → Bool) (n : Nat) : Balanced (eval due n) :=
  steady_sameRoots.eval due n

/-! ## Passes of the loop -/

/-- Where an evaluation is before a step. -/
structure Pass where
  /-- How many steps it may still take. -/
  fuel : Nat
  form : Form
  scope : Scope
  session : Session

/-- What is left of an evaluation. -/
def Pass.rest (due : Session → Bool) (p : Pass) : Except Stop Value × Session :=
  run due p.fuel p.form p.scope p.session

/-- From one step of an evaluation to a later one. Each step in between left a form to evaluate. -/
inductive Pass.LeadsTo (due : Session → Bool) (p : Pass) : Pass → Prop
  | here : LeadsTo due p p
  | next {n : Nat} {f next : Form} {scope inner : Scope} {s s' : Session} :
      LeadsTo due p ⟨n + 1, f, scope, s⟩ →
      step (eval due n) f scope s = (.ok (.tail inner next), s') →
      LeadsTo due p ⟨n, next, inner, (s'.moveTo inner).passSafePoint due⟩

/-- What is left later is what is left of the same evaluation. -/
theorem Pass.LeadsTo.rest_eq {p q : Pass} (h : p.LeadsTo due q) : q.rest due = p.rest due := by
  induction h with
  | here => rfl
  | @next n f next scope inner s s' _ hstep ih =>
    rw [← ih]
    have hnested : (fun f inner => entering inner (run due n f inner)) = eval due n := rfl
    show run due n next inner _ = run due (n + 1) f scope s
    rw [run, bind_apply, hnested, hstep]
    rfl

/-- Steps take turns in one place among the scopes under way, and let no value wait. -/
theorem Pass.LeadsTo.sameRoots {p q : Pass} (h : p.LeadsTo due q)
    (hp : (s.enter p.scope).SameRoots p.session) : (s.enter q.scope).SameRoots q.session := by
  induction h with
  | here => exact hp
  | @next n f next scope inner t t' _ hstep ih =>
    have hafter := (composed_step .trivial f scope).sameRoots (balanced_eval due n) t
    rw [hstep] at hafter
    have hsafe := ((t'.moveTo inner).trimmed_passSafePoint due).sameRoots
    exact (sameRoots_moveTo (ih.trans hafter)).trans hsafe

end Eval

/-! ## Explicit marks -/

namespace Session

/-- The values that wait above a mark, the first of them first. -/
def heldAbove (mark : Nat) (s : Session) : List Value :=
  (s.held.take (s.held.length - mark)).reverse

/-- Lets go of the values that wait above a mark. -/
def cutHeld (mark : Nat) (s : Session) : Session :=
  { s with held := s.held.drop (s.held.length - mark) }

variable {s : Session} {vs below : List Value}

theorem heldAbove_of_held (h : s.held = vs.reverse ++ below) : s.heldAbove below.length = vs := by
  simp [heldAbove, h]

theorem cutHeld_of_held (h : s.held = vs ++ below) :
    s.cutHeld below.length = { s with held := below } := by
  simp [cutHeld, h]

/-- It does not matter whether the latest value is let go before the stack is cut back. -/
theorem cutHeld_letGo {v : Value} (h : s.held = (vs ++ [v]).reverse ++ below) :
    s.letGo.cutHeld below.length = s.cutHeld below.length := by
  have htail : s.letGo.held = vs.reverse ++ below := by
    show s.held.tail = _
    rw [h]
    simp
  rw [cutHeld_of_held h, cutHeld_of_held htail]
  rfl

/-- Cutting the stack back to where it is does nothing. -/
theorem cutHeld_self (h : s.held = below) : s.cutHeld below.length = s := by
  rw [← h]
  simp [cutHeld]

end Session

namespace Eval

variable {ev : Evaluator} {scope : Scope} {span : Span} {s : Session} {vs below : List Value}

/-- The values of forms, each of which is pushed on the stack of values that wait. In the end they
are taken from the stack, down to a mark; after a failure the stack is cut back to it. -/
def stackAll (ev : Evaluator) (scope : Scope) (mark : Nat) : List Form → Eval (List Value)
  | [] => fun s => (.ok (s.heldAbove mark), s.cutHeld mark)
  | f :: fs => fun s =>
    match ev f scope s with
    | (.ok v, s') => stackAll ev scope mark fs (s'.hold v)
    | (.error e, s') => (.error e, s'.cutHeld mark)

/-- The entries of alternating keys and values, of which the values are pushed on the stack of
values that wait. When all forms have been evaluated, the values are taken from the stack, and a key
without a value is refused. -/
def stackEntries (ev : Evaluator) (scope : Scope) (span : Span) (mark : Nat) :
    Bool → List Key → List Form → Eval (List (Key × Value))
  | _, keys, [] => fun s =>
    (if keys.length = (s.heldAbove mark).length then .ok (keys.zip (s.heldAbove mark))
      else .error (.error (.unpairedKey span)), s.cutHeld mark)
  | isKey, keys, f :: fs => fun s =>
    match ev f scope s with
    | (.ok v, s') =>
      if isKey then
        match v.key? with
        | some k => stackEntries ev scope span mark false (keys ++ [k]) fs s'
        | none => (.error (.error (.typeMismatch "map literal" .key v.typeName f.span)),
            s'.cutHeld mark)
      else stackEntries ev scope span mark true keys fs (s'.hold v)
    | (.error e, s') => (.error e, s'.cutHeld mark)

theorem stackAll_cons (ev : Evaluator) (scope : Scope) (mark : Nat) (f : Form) (fs : List Form)
    (s : Session) :
    stackAll ev scope mark (f :: fs) s = match ev f scope s with
      | (.ok v, s') => stackAll ev scope mark fs (s'.hold v)
      | (.error e, s') => (.error e, s'.cutHeld mark) := rfl

/-- While elements are evaluated, the values before them wait above the mark. -/
theorem stackAll_of_held (hev : Balanced ev) (fs : List Form)
    (hs : s.held = vs.reverse ++ below) :
    stackAll ev scope below.length fs s =
      ((evalAll ev scope fs s).1.map (vs ++ ·),
        (evalAll ev scope fs s).2.cutHeld below.length) := by
  induction fs generalizing s vs with
  | nil =>
    show (Except.ok (s.heldAbove below.length), _) = (Except.ok (vs ++ []), _)
    rw [Session.heldAbove_of_held hs, List.append_nil]
    rfl
  | cons f fs ih =>
    have hroots := hev f scope s
    rw [stackAll_cons, evalAll, bind_apply]
    generalize ev f scope s = result at hroots
    obtain ⟨r, s'⟩ := result
    cases r with
    | error e => rfl
    | ok v =>
      have hheld : (s'.hold v).held = (vs ++ [v]).reverse ++ below := by
        show v :: s'.held = _
        rw [hroots.held, hs]
        simp
      have hrest := ((Composed.evalAll_whole scope fs).sameRoots hev (s'.hold v)).held
      dsimp only
      rw [ih hheld, bind_apply, holding_apply]
      generalize evalAll ev scope fs (s'.hold v) = result at hrest
      obtain ⟨r, t⟩ := result
      have hcut : t.letGo.cutHeld below.length = t.cutHeld below.length :=
        Session.cutHeld_letGo (hrest.trans hheld)
      cases r with
      | error e => exact Prod.ext rfl hcut.symm
      | ok ws =>
        refine Prod.ext ?_ hcut.symm
        show Except.ok ((vs ++ [v]) ++ ws) = Except.ok (vs ++ (v :: ws))
        rw [List.append_assoc]
        rfl

/-- Elements can be evaluated by explicit marks. -/
theorem stackAll_eq (hev : Balanced ev) (fs : List Form)
    (s : Session) : stackAll ev scope s.held.length fs s = evalAll ev scope fs s := by
  have hbelow : s.held = ([] : List Value).reverse ++ s.held := rfl
  rw [stackAll_of_held hev fs hbelow]
  have hheld := ((Composed.evalAll_whole scope fs).sameRoots hev s).held
  refine Prod.ext ?_ (Session.cutHeld_self hheld)
  cases (evalAll ev scope fs s).1 <;> rfl

theorem evalKey_apply (ev : Evaluator) (scope : Scope) (f : Form) (s : Session) :
    evalKey ev scope f s = match ev f scope s with
      | (.ok v, s') =>
        match v.key? with
        | some k => (.ok k, s')
        | none => (.error (.error (.typeMismatch "map literal" .key v.typeName f.span)), s')
      | (.error e, s') => (.error e, s') := by
  rw [evalKey, bind_apply]
  rcases ev f scope s with ⟨e | v, s'⟩
  · rfl
  · dsimp only
    cases v.key? <;> rfl

theorem stackEntries_key (ev : Evaluator) (scope : Scope) (span : Span) (mark : Nat)
    (keys : List Key) (f : Form) (fs : List Form) (s : Session) :
    stackEntries ev scope span mark true keys (f :: fs) s = match evalKey ev scope f s with
      | (.ok k, s') => stackEntries ev scope span mark false (keys ++ [k]) fs s'
      | (.error e, s') => (.error e, s'.cutHeld mark) := by
  rw [evalKey_apply]
  show (match ev f scope s with | (.ok v, s') => _ | (.error e, s') => _) = _
  rcases ev f scope s with ⟨e | v, s'⟩
  · rfl
  · dsimp only
    cases v.key? <;> rfl

theorem stackEntries_value (ev : Evaluator) (scope : Scope) (span : Span) (mark : Nat)
    (keys : List Key) (f : Form) (fs : List Form) (s : Session) :
    stackEntries ev scope span mark false keys (f :: fs) s = match ev f scope s with
      | (.ok v, s') => stackEntries ev scope span mark true keys fs (s'.hold v)
      | (.error e, s') => (.error e, s'.cutHeld mark) := rfl

/-- While entries are evaluated, the values before them wait above the mark. -/
theorem stackEntries_of_held (hev : Balanced ev) :
    ∀ (fs : List Form) {keys : List Key} {vs : List Value} {s : Session},
      keys.length = vs.length → s.held = vs.reverse ++ below →
      stackEntries ev scope span below.length true keys fs s =
        ((evalEntries ev scope span fs s).1.map (keys.zip vs ++ ·),
          (evalEntries ev scope span fs s).2.cutHeld below.length)
  | [], keys, vs, s, hlen, hs => by
    show (if keys.length = (s.heldAbove below.length).length then _ else _, _) =
      (Except.ok (keys.zip vs ++ []), _)
    rw [Session.heldAbove_of_held hs, if_pos hlen, List.append_nil]
    rfl
  | [key], keys, vs, s, hlen, hs => by
    have hroots := ((Composed.evalKey_whole scope key).sameRoots hev s).held
    rw [stackEntries_key, evalEntries, bind_apply]
    generalize evalKey ev scope key s = result at hroots
    obtain ⟨r, s'⟩ := result
    cases r with
    | error e => rfl
    | ok k =>
      -- The last key is one more than there are values.
      have hodd : ¬(keys ++ [k]).length = vs.length := by
        rw [List.length_append, List.length_singleton]
        omega
      show (if (keys ++ [k]).length = (s'.heldAbove below.length).length then _ else _, _) = _
      rw [Session.heldAbove_of_held (hroots.trans hs), if_neg hodd]
      rfl
  | key :: value :: fs, keys, vs, s, hlen, hs => by
    have hroots := ((Composed.evalKey_whole scope key).sameRoots hev s).held
    rw [stackEntries_key, evalEntries, bind_apply]
    generalize evalKey ev scope key s = result at hroots
    obtain ⟨r, s'⟩ := result
    cases r with
    | error e => rfl
    | ok k =>
      have hvalue := (hev value scope s').held
      dsimp only
      rw [stackEntries_value, bind_apply]
      generalize ev value scope s' = result at hvalue
      obtain ⟨r, s''⟩ := result
      cases r with
      | error e => rfl
      | ok v =>
        have hheld : (s''.hold v).held = (vs ++ [v]).reverse ++ below := by
          show v :: s''.held = _
          rw [hvalue, hroots, hs]
          simp
        have hrest := ((Composed.evalEntries_whole scope span fs).sameRoots hev (s''.hold v)).held
        dsimp only
        rw [stackEntries_of_held hev fs (by simp [hlen]) hheld, bind_apply, holding_apply]
        generalize evalEntries ev scope span fs (s''.hold v) = result at hrest
        obtain ⟨r, t⟩ := result
        have hcut : t.letGo.cutHeld below.length = t.cutHeld below.length :=
          Session.cutHeld_letGo (hrest.trans hheld)
        cases r with
        | error e => exact Prod.ext rfl hcut.symm
        | ok es =>
          refine Prod.ext ?_ hcut.symm
          show Except.ok ((keys ++ [k]).zip (vs ++ [v]) ++ es) =
            Except.ok (keys.zip vs ++ ((k, v) :: es))
          rw [List.zip_append hlen, List.append_assoc]
          rfl

/-- Entries can be evaluated by explicit marks. -/
theorem stackEntries_eq (hev : Balanced ev) (fs : List Form) (s : Session) :
    stackEntries ev scope span s.held.length true [] fs s = evalEntries ev scope span fs s := by
  have hbelow : s.held = ([] : List Value).reverse ++ s.held := rfl
  rw [stackEntries_of_held hev fs rfl hbelow]
  have hheld := ((Composed.evalEntries_whole scope span fs).sameRoots hev s).held
  refine Prod.ext ?_ (Session.cutHeld_self hheld)
  cases (evalEntries ev scope span fs s).1 <;> rfl

/-- **What is kept in use is let go again.** However an evaluation ends, the scopes under way and
the values that wait are the ones from before. Before each of its steps, after any number of tail
calls, the scopes under way are the ones from before and the single current scope, and no further
value waits. A program leaves both as it found them. The values of elements, entries and programs
can just as well be pushed on the stack one by one, if the stack is cut back to its mark in the end
and after a failure. -/
theorem stacks_balanced (due : Session → Bool) (fuel : Nat) (f : Form) (scope : Scope)
    (s : Session) :
    ((eval due fuel f scope s).2.active = s.active ∧
      (eval due fuel f scope s).2.held = s.held) ∧
    (∀ p, Pass.LeadsTo due ⟨fuel, f, scope, s.enter scope⟩ p →
      p.rest due = run due fuel f scope (s.enter scope) ∧
      p.session.active = p.scope :: s.active ∧ p.session.held = s.held) ∧
    (∀ program, (evalProgram due fuel program s).2.active = s.active ∧
      (evalProgram due fuel program s).2.held = s.held) ∧
    (∀ fs, stackAll (eval due fuel) scope s.held.length fs s =
      evalAll (eval due fuel) scope fs s) ∧
    ∀ span fs, stackEntries (eval due fuel) scope span s.held.length true [] fs s =
      evalEntries (eval due fuel) scope span fs s := by
  have hev := balanced_eval due fuel
  refine ⟨⟨(hev f scope s).active, (hev f scope s).held⟩, fun p hp => ?_, fun program => ?_,
    fun fs => stackAll_eq hev fs s, fun span fs => stackEntries_eq hev fs s⟩
  · have hroots := hp.sameRoots (.refl (s.enter scope))
    exact ⟨hp.rest_eq, hroots.active, hroots.held⟩
  · have hroots := steady_sameRoots.evalProgram due fuel program s
    exact ⟨hroots.active, hroots.held⟩

end Eval

end Lisp
