import Lisp.Proofs.Eval.Succession
import Lisp.Proofs.Session.Sites

/-!
# Source texts line by line

A session that is given two source texts one after the other comes to what it comes to when it is
given both as one text, with a line feed between them. The forms of the second text then come from
further on in the text of the first one, and the scopes may have other names.

- `Session.Corresponds`: a session, and one with other forms in its values and other names for its
  scopes.
- `Session.Blames`: the same fault of the second text, alone and as a part of the joined one.
- `Session.Joins`: how both ways of giving the texts end together.
- `Session.evalSourceWith_lines`: they do, for all texts and all sessions there are.
-/

namespace Lisp

/-- A fault of a text that is moved on. -/
def EvalError.shift (d : Displacement) (e : EvalError) : EvalError := e.blaming (e.span.shift d)

namespace Session

variable {s t : Session} {m : Form → Form} {ρ : Renaming} {sink : Sink}

/-- A session, and one with other forms in its values and other names for its scopes: the same
output, the same global bindings, and the same in all frames that can be reached. -/
structure Corresponds (m : Form → Form) (ρ : Renaming) (s t : Session) : Prop where
  sink : t.sink = s.sink
  lookup : ∀ name, t.lookup name = (s.lookup name).map fun v => (v.mapForms m).rename ρ.map
  relates : ρ.Relates { s.mapForms m with readings := t.readings } t

theorem corresponds_of_relates (h : ρ.Relates { s.mapForms m with readings := t.readings } t) :
    Corresponds m ρ s t := by
  refine ⟨h.sink, fun name => ?_, h⟩
  have hfind := h.find? (.inl ⟨rfl, rfl⟩) name
  change t.lookup name = ((s.arena.mapForms m).find? s.global name).map _ at hfind
  rw [hfind, Arena.find?_mapForms, Option.map_map]
  rfl

/-- A session under other names, then with other forms, and then under other names again. -/
theorem corresponds_of_likeness {c : Likeness} {ρ' : Renaming} {s₁ s₂ : Session}
    (hs : ρ.Relates s s₁) (hforms : c.Relates s₁ s₂)
    (ht : ρ'.Relates { s₂ with readings := t.readings } t) :
    Corresponds c.map (ρ.trans ρ') s t := by
  have hmapped := hs.mapForms c.map
  rw [← hforms.eq] at hmapped
  have hmapped : ρ.Relates { s.mapForms c.map with readings := t.readings }
      { s₂ with readings := t.readings } := { hmapped with readings := rfl }
  exact corresponds_of_relates (hmapped.trans ht)

/-- A fault of a text that is evaluated in a session, and the same fault when the text is moved on:
if it blames a form of the text, it blames the form where that is moved to, and it stays the same if
it blames a form that was there before. -/
def Blames (d : Displacement) (s : Session) (p : Program) (e e' : EvalError) : Prop :=
  (e' = e.shift d ∧ ∃ f ∈ p.forms, ∃ g : Form, g.PartOf f ∧ g.span = e.span) ∨
    (e' = e ∧ ∃ f ∈ s.mentioned, ∃ g : Form, g.PartOf f ∧ g.span = e.span)

/-- How a session ends with two source texts in turn, and with both as one text. The second text is
evaluated only if the first one succeeds, in which case its values are those of the first one and
then its own. -/
inductive Joins (due : Session → Bool) (fuel : Nat) (s : Session) (a b : String) (q : Program) :
    Outcome (List Value) × Session → Prop
  | firstFails {cause : Failure} {s₁ t : Session} {ρ : Renaming} :
      s.evalSourceWith due fuel a = (.failed cause, s₁) → Corresponds id ρ s₁ t →
      Joins due fuel s a b q (.failed cause, t)
  | firstCutOff {s₁ t : Session} :
      s.evalSourceWith due fuel a = (.outOfFuel, s₁) → Joins due fuel s a b q (.outOfFuel, t)
  | secondFails {vs : List Value} {e e' : EvalError} {s₁ s₂ t : Session} {ρ : Renaming} :
      s.evalSourceWith due fuel a = (.ok vs, s₁) →
      s₁.evalSourceWith due fuel b = (.failed (.eval e), s₂) → Blames (.past a) s₁ q e e' →
      Corresponds (Form.joined s.readings (.past a)) ρ s₂ t →
      Joins due fuel s a b q (.failed (.eval e'), t)
  | secondCutOff {vs : List Value} {s₁ s₂ t : Session} :
      s.evalSourceWith due fuel a = (.ok vs, s₁) →
      s₁.evalSourceWith due fuel b = (.outOfFuel, s₂) → Joins due fuel s a b q (.outOfFuel, t)
  | bothEnd {vs ws vs' ws' : List Value} {s₁ s₂ t : Session} {ρ : Renaming} :
      s.evalSourceWith due fuel a = (.ok vs, s₁) →
      s₁.evalSourceWith due fuel b = (.ok ws, s₂) → SameValues vs vs' →
      ρ.OnValues (ws.map (Value.mapForms (Form.joined s.readings (.past a)))) ws' →
      Corresponds (Form.joined s.readings (.past a)) ρ s₂ t →
      Joins due fuel s a b q (.ok (vs' ++ ws'), t)

/-! ## The second text -/

section second

variable {r : Nat} {d : Displacement} {q : Program} (hs : s.SitesIn (Site.Precedes r d))
  (hq : ∀ f ∈ q.forms, f.SitesIn (·.reading = r + 1))
include hs hq

/-- The forms that are there when the second text is evaluated come from before, or from it. -/
theorem sitesIn_known : ∀ f ∈ s.mentioned ∪ {f | f ∈ q.forms},
    f.SitesIn fun x => x.reading = r + 1 ∨ x.Precedes r d := by
  rintro f (hf | hf) g hg
  · exact .inr (hs f hf g hg)
  · exact .inl (hq f hf g hg)

/-- Before the second text is evaluated, no form of it is there. -/
theorem relates_joined :
    (Likeness.joined r d _ (sitesIn_known hs hq)).Relates s s := by
  refine ⟨(mapForms_eq_self fun f hf => ?_).symm, fun f hf => ⟨f, .inl hf, .self f⟩⟩
  exact Form.mapSites_eq_self fun g hg => Site.joined_of_precedes (hs f hf g hg)

theorem onForms_joined :
    (Likeness.joined r d _ (sitesIn_known hs hq)).OnForms (Form.significant q.forms)
      (Form.significant (q.forms.map (Form.joined r d))) := by
  refine ⟨?_, fun f hf => ⟨f, .inr (List.mem_filter.1 hf).1, .self f⟩⟩
  exact Form.significant_map_mapSites _ q.forms

theorem blames_of_onFault {e e' : EvalError}
    (h : (Likeness.joined r d _ (sitesIn_known hs hq)).OnFault e e') : Blames d s q e e' := by
  obtain ⟨_, ⟨g, ⟨f, hf, hg⟩, hspan, hspan'⟩, rfl⟩ := h
  obtain rfl := hspan' (Form.shorthand?_mapSites _ g)
  have hmoved : ((Form.joined r d) g).span = (g.site.joined r d).span := by
    rw [Form.span, Form.joined, Form.site_mapSites]
  show Blames d s q e (e.blaming ((Form.joined r d) g).span)
  rw [hmoved]
  rcases hf with hf | hf
  · refine .inr ⟨?_, f, hf, g, hg, hspan.symm⟩
    rw [Site.joined_of_precedes (hs f hf g hg)]
    show e.blaming g.span = e
    rw [← hspan, EvalError.blaming_span]
  · refine .inl ⟨?_, f, hf, g, hg, hspan.symm⟩
    rw [Site.joined, if_pos (hq f hf g hg), EvalError.shift, hspan]
    rfl

end second

/-! ## Both texts -/

section both

variable {due : Session → Bool} {fuel : Nat} {a b : String} {p q : Program} {s₁ : Session}
  (ha : Program.parse a s.readings = .ok p)
  (hr : ρ.Relates { s with readings := s.readings + 1 } { s with readings := s.readings + 1 })
include ha hr

/-- Whatever stops the first text, stops it before the second one. -/
theorem joins_of_first_stops {stop : Stop}
    (hfirst : Eval.evalProgram due fuel p { s with readings := s.readings + 1 } =
      (.error stop, s₁)) (due' : Session → Bool) (gs : List Form) :
    Joins due fuel s a b q (({ s with readings := s.readings + 1 } : Session).perform
      (Eval.evalProgram due' fuel ⟨p.forms ++ gs⟩)) := by
  have halone := evalSourceWith_eq due fuel ha
  have hagrees := Eval.agrees_evalProgram due due' fuel p hr
  rw [perform, hfirst] at halone
  rw [hfirst] at hagrees
  cases hother : Eval.evalProgram due' fuel p { s with readings := s.readings + 1 } with
  | mk result t =>
    rw [hother] at hagrees
    obtain ⟨ρ', hr', -, -, hend⟩ := hagrees
    cases hend
    rw [perform, Eval.evalProgram_append_of_error hother]
    cases stop with
    | error e =>
      have hsame : s₁.mapForms id = s₁ := mapForms_eq_self fun _ _ => rfl
      have hrelates : ρ'.Relates { s₁.mapForms id with readings := t.readings } t := by
        rw [hsame]
        exact { hr' with readings := rfl }
      exact .firstFails halone (corresponds_of_relates hrelates)
    | outOfFuel => exact .firstCutOff halone

/-- After the first text, the second one alone ends as it does as a part of the joined one. -/
theorem joins_of_first_ends {vs : List Value}
    (hfirst : Eval.evalProgram due fuel p { s with readings := s.readings + 1 } = (.ok vs, s₁))
    (hs₁ : s₁.SitesIn (Site.Precedes s.readings (.past a)))
    (hreadings : s₁.readings = s.readings + 1)
    (hb : Program.parse b (s.readings + 1) = .ok q) (due' : Session → Bool) :
    Joins due fuel s a b q (({ s with readings := s.readings + 1 } : Session).perform
      (Eval.evalProgram due' fuel
        ⟨p.forms ++ q.forms.map (Form.joined s.readings (.past a))⟩)) := by
  have halone := evalSourceWith_eq due fuel ha
  have hsecond := evalSourceWith_eq (s := s₁) due fuel (hreadings ▸ hb)
  have hq : ∀ f ∈ q.forms, f.SitesIn (·.reading = s.readings + 1) :=
    fun f hf g hg => (Program.site_of_part hb hf hg).1
  rw [perform, hfirst] at halone
  rw [perform] at hsecond ⊢
  -- The first text leaves a session that is related to itself.
  have hself := Eval.agrees_evalProgram due due fuel p hr
  rw [hfirst] at hself
  obtain ⟨ρ₁, hr₁, -, -, -⟩ := hself
  have hr₁ : ρ₁.Relates { s₁ with readings := s₁.readings + 1 }
      { s₁ with readings := s₁.readings + 1 } := { hr₁ with readings := rfl }
  -- The second text alone, then without collections, then moved on, and then after the first one.
  have hcollect := Eval.agrees_evalProgram due (fun _ => false) fuel q hr₁
  have hnever : ∀ s t, (Likeness.joined _ _ _ (sitesIn_known hs₁ hq)).Relates s t →
      (fun _ : Session => false) t = (fun _ : Session => false) s := fun _ _ _ => rfl
  have hmove := Eval.parallels_evalProgram hnever fuel (p := q)
    (q := ⟨q.forms.map (Form.joined s.readings (.past a))⟩) (onForms_joined hs₁ hq) _ _
    (relates_joined (s := { s₁ with readings := s₁.readings + 1 }) hs₁ hq)
  have hafter := Eval.agrees_evalProgram_append hr hfirst
    ⟨q.forms.map (Form.joined s.readings (.past a))⟩ (s₁.readings + 1) due'
  generalize Eval.evalProgram due fuel q _ = x at hsecond hcollect
  generalize Eval.evalProgram (fun _ => false) fuel q _ = x₁ at hcollect hmove
  generalize Eval.evalProgram (fun _ => false) fuel ⟨q.forms.map _⟩ _ = x₂ at hmove hafter
  generalize Eval.evalProgram due' fuel _ _ = y at hafter ⊢
  obtain ⟨rx, s₂⟩ := x
  obtain ⟨rx₁, sx₁⟩ := x₁
  obtain ⟨rx₂, sx₂⟩ := x₂
  obtain ⟨ry, t⟩ := y
  obtain ⟨ρ₂, hr₂, -, -, hend₂⟩ := hcollect
  obtain ⟨hforms, -, hend₁⟩ := hmove
  rcases hafter with ⟨hcut, hcut'⟩ | ⟨ρ₃, hr₃, hend₃⟩
  · cases hcut
    cases hcut'
    cases hend₁ with
    | error hstop =>
      cases hstop
      cases hend₂
      exact .secondCutOff halone hsecond
  · have hcorresponds := corresponds_of_likeness hr₂ hforms hr₃
    cases hend₃ with
    | stop e =>
      cases hend₁ with
      | error hstop =>
        cases hstop with
        | error hfault =>
          cases hend₂
          exact .secondFails halone hsecond (blames_of_onFault hs₁ hq hfault) hcorresponds
        | outOfFuel =>
          cases hend₂
          exact .secondCutOff halone hsecond
    | ok hcontinues =>
      obtain ⟨vs', ws', rfl, hvs, hws'⟩ := hcontinues
      cases hend₁ with
      | ok hmoved =>
        obtain ⟨rfl, -⟩ := hmoved
        cases hend₂ with
        | ok hws =>
          have hall := (hws.mapForms (Form.joined s.readings (.past a))).trans hws'
          exact .bothEnd halone hsecond hvs hall hcorresponds

end both

/-- **A source text is evaluated line by line.** In a session that source texts and collections lead
to, two texts that can be read come to the same one after the other and as one text, with a line
feed between them: they print the same, leave the same global bindings behind, and give the values
of both, or the fault of the first one, after which nothing of the second one is evaluated, or else
the fault of the second one. Values and bindings are the same up to the names of scopes and the
places of the forms of the second text, and its fault is moved on if it blames one of these. It does
not matter when either of the two ways collects. -/
theorem evalSourceWith_lines (hs : Reached sink s) {a b : String} {p q : Program}
    (ha : Program.parse a s.readings = .ok p) (hb : Program.parse b (s.readings + 1) = .ok q)
    (due due' : Session → Bool) (fuel : Nat) :
    Joins due fuel s a b q (s.evalSourceWith due' fuel (a ++ "\n" ++ b)) := by
  obtain ⟨ρ, hr⟩ := hs.relates
  have hr : ρ.Relates { s with readings := s.readings + 1 } { s with readings := s.readings + 1 } :=
    { hr with readings := rfl }
  rw [evalSourceWith_eq due' fuel (Program.parse_joined ha hb)]
  cases hfirst : Eval.evalProgram due fuel p { s with readings := s.readings + 1 } with
  | mk result s₁ =>
    cases result with
    | error stop => exact joins_of_first_stops ha hr hfirst due' _
    | ok vs =>
      have hbefore : SitesIn (Site.Precedes s.readings (.past a))
          { s with readings := s.readings + 1 } := hs.sitesIn.mono fun _ h => .inl h
      have hkept := hbefore.evalProgram (p := p)
        (fun f hf g hg => .inr (Program.site_of_part ha hf hg)) due fuel
      rw [hfirst] at hkept
      exact joins_of_first_ends ha hr hfirst hkept.1 hkept.2 hb due'

/-- A function that the first text defines and the second one calls, with a collection wherever
there can be one when they are given as one text. -/
theorem evalSourceWith_lines_defined :
    ∃ v t, (new {}).evalSourceWith (fun _ => true) 10
        ("(def! next (fn* (x) (+ x 1)))" ++ "\n" ++ "(def! y (next 41))") =
          (.ok [v, .int 42], t) ∧ t.lookup "y" = some (.int 42) := by
  have ha : ∃ p, Program.parse "(def! next (fn* (x) (+ x 1)))" (new {}).readings = .ok p :=
    ⟨_, by cbv⟩
  have hb : ∃ q, Program.parse "(def! y (next 41))" ((new {}).readings + 1) = .ok q :=
    ⟨_, by cbv⟩
  obtain ⟨p, ha⟩ := ha
  obtain ⟨q, hb⟩ := hb
  have hinTurn : ∃ v s s', (new {}).evalSourceWith isCrowded 10 "(def! next (fn* (x) (+ x 1)))" =
      (.ok [v], s) ∧ s.evalSourceWith isCrowded 10 "(def! y (next 41))" = (.ok [.int 42], s') ∧
        s'.lookup "y" = some (.int 42) := ⟨_, _, _, by cbv, by cbv, by cbv⟩
  obtain ⟨v, s, s', hfirst, hsecond, hy⟩ := hinTurn
  have hjoins := evalSourceWith_lines .new ha hb isCrowded (fun _ => true) 10
  generalize (new {}).evalSourceWith (fun _ => true) 10 _ = joined at hjoins ⊢
  -- What the texts come to in turn leaves one way for them to end as one text.
  cases hjoins with
  | firstFails h | firstCutOff h =>
    rw [hfirst] at h
    cases h
  | secondFails h h' | secondCutOff h h' =>
    rw [hfirst] at h
    cases h
    rw [hsecond] at h'
    cases h'
  | bothEnd h h' hvs hws hcorresponds =>
    rw [hfirst] at h
    cases h
    rw [hsecond] at h'
    cases h'
    obtain ⟨r, -, rfl⟩ := hvs
    obtain ⟨rfl, -⟩ := hws
    refine ⟨v.rename r, _, rfl, ?_⟩
    rw [hcorresponds.lookup, hy]
    rfl

end Session

end Lisp
