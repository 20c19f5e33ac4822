import Lisp.Proofs.Decimal.Literal
import Lisp.Proofs.Eval.Soundness
import Lisp.Proofs.Form.Place
import Lisp.Proofs.Session.Sites

/-!
# Sessions and the texts that they have read

- `Code.ofTexts`: the code of some source texts.
- `Session.Heard`: the sessions that source texts and collections lead to from a new one, with these
  texts.
- `Session.Heard.holds`: such a session has only functions of the texts, and the startup function.
- `Session.located_of_heard`: so its failures blame tokens and forms of these texts.
- `Session.defences_unreached`: and no evaluation comes to a case for which it takes defensive
  measures.
-/

namespace Lisp

/-- The code of some source texts: all parts of what they are read as, but for the comments. -/
def Code.ofTexts (texts : List String) : Code where
  forms := {g | g.isComment = false ∧ ∃ text ∈ texts, ∃ reading p,
    Program.parse text reading = .ok p ∧ ∃ f ∈ p.forms, g.PartOf f}
  elements := by
    rintro f ⟨-, text, htext, reading, p, hp, e, he, hpart⟩ g hg
    obtain ⟨hmem, hcomment⟩ := List.mem_filter.1 hg
    refine ⟨by simpa using hcomment, text, htext, reading, p, hp, e, he, ?_⟩
    exact hpart.of_element hmem
  isComment f hf := hf.1
  literal := by
    rintro site kind raw ⟨-, text, htext, reading, p, hp, e, he, hpart⟩
    exact Program.isSome_value? hp he hpart

theorem Code.ofTexts_mono {texts texts' : List String} (h : texts ⊆ texts') :
    (Code.ofTexts texts).forms ⊆ (Code.ofTexts texts').forms := by
  rintro f ⟨hcomment, text, htext, hparts⟩
  exact ⟨hcomment, text, h htext, hparts⟩

/-- The forms of a program that count are code of its text. -/
theorem Code.mem_ofTexts {text : String} {texts : List String} (htext : text ∈ texts)
    {reading : Nat} {p : Program} (hp : Program.parse text reading = .ok p) :
    ∀ f ∈ Form.significant p.forms, f ∈ (Code.ofTexts texts).forms := by
  intro f hf
  obtain ⟨hmem, hcomment⟩ := List.mem_filter.1 hf
  exact ⟨by simpa using hcomment, text, htext, reading, p, hp, f, hmem, .self f⟩

/-- A failure on a source text after some earlier ones is where it says that it is: a fault of the
text itself blames a token of it, and a fault of the evaluation blames a form of that text or of an
earlier one. The span lies in the text of which it is a span. -/
inductive Failure.LocatedIn (source : String) (earlier : List String) : Failure → Prop
  | read {e : ReadError} {t : Token} : t ∈ tokenize source → e.span = t.span →
      e.span.IsIn source → LocatedIn source earlier (.read e)
  | eval {e : EvalError} {text : String} {reading : Nat} {p : Program} {f g : Form} :
      text ∈ source :: earlier → Program.parse text reading = .ok p → f ∈ p.forms → g.PartOf f →
      e.span = g.span → e.span.IsIn text → LocatedIn source earlier (.eval e)

namespace Session

variable {sink : Sink} {s : Session} {texts : List String}

/-- The sessions that source texts and collections lead to from a new one, with these texts, the
latest first. An evaluation may collect whenever it likes, end in any way, and be cut off after any
number of steps. -/
inductive Heard (sink : Sink) : List String → Session → Prop
  | new : Heard sink [] (new sink)
  | evalSource {texts : List String} {s : Session} (due : Session → Bool) (fuel : Nat)
      (source : String) : Heard sink texts s →
      Heard sink (source :: texts) (s.evalSourceWith due fuel source).2
  | collect {texts : List String} {s : Session} : Heard sink texts s →
      Heard sink texts s.collect.2

theorem Reached.heard (hs : Reached sink s) : ∃ texts, Heard sink texts s := by
  induction hs with
  | new => exact ⟨[], .new⟩
  | evalSource due fuel source _ ih =>
    obtain ⟨texts, h⟩ := ih
    exact ⟨source :: texts, h.evalSource due fuel source⟩
  | collect _ ih =>
    obtain ⟨texts, h⟩ := ih
    exact ⟨texts, h.collect⟩

/-! ## The startup text -/

/-- The startup text defines the startup function, and does nothing else. -/
theorem evalProgram_startup (due : Session → Bool) (n : Nat) (s : Session) :
    (Eval.evalProgram due (n + 2) ⟨[startupForm]⟩ s).2.arena =
      (s.passSafePoint due).arena.set (s.passSafePoint due).global "not"
        (.lambda startupParams startupBody (s.passSafePoint due).global) := rfl

theorem holds_evalSource_startup {c : Code} (hs : c.Holds s.arena) (hreadings : s.readings = 0) :
    c.Holds (s.evalSource startupSource).2.arena := by
  have hfunction : c.Function startupParams startupBody := ⟨by decide, .inr ⟨rfl, rfl⟩⟩
  have hparse : Program.parse startupSource s.readings = .ok ⟨[startupForm]⟩ := by
    rw [hreadings]
    exact parse_startupSource
  have hfuel : ampleFuel = 999999999999999998 + 2 := rfl
  rw [evalSource, evalSourceWith_eq isCrowded ampleFuel hparse, perform_snd, hfuel,
    evalProgram_startup]
  have hread : c.Holds ({ s with readings := s.readings + 1 } : Session).arena := hs
  exact (hread.passSafePoint isCrowded).set _ _ (.lambda hfunction _)

/-- A new session has no functions of programs but the startup function. -/
theorem holds_new (c : Code) (sink : Sink) : c.Holds (new sink).arena := by
  have hempty : c.Holds (empty sink).arena := by
    refine ⟨Arena.wellFormed_empty.create none, fun v hv => ?_⟩
    have hnone : v ∈ Arena.bound {} := Arena.bound_create {} none hv
    rw [Arena.bound_empty] at hnone
    cases hnone
  have hdefines : ∀ (bs : List Builtin) (s : Session), c.Holds s.arena →
      c.Holds (bs.foldl (fun s b => s.define b.name (.function b)) s).arena := by
    intro bs
    induction bs with
    | nil => exact fun s hs => hs
    | cons b bs ih => exact fun s hs => ih _ (hs.set s.global b.name (.of_atom rfl nofun))
  exact holds_evalSource_startup (hdefines Builtin.all (empty sink) hempty) rfl

/-! ## Evaluations -/

/-- What a source text comes to in a session that keeps to the code of some texts. -/
theorem evalSourceWith_of_holds (hs : (Code.ofTexts texts).Holds s.arena) (d : Defences)
    (due : Session → Bool) (fuel : Nat) (source : String) :
    d.evalSource due fuel s source = s.evalSourceWith due fuel source ∧
      (Code.ofTexts (source :: texts)).Holds (s.evalSourceWith due fuel source).2.arena ∧
      ∀ e, (s.evalSourceWith due fuel source).1 = .failed (.eval e) →
        (Code.ofTexts (source :: texts)).Blames e := by
  have hs' : (Code.ofTexts (source :: texts)).Holds s.arena :=
    hs.mono (Code.ofTexts_mono (List.subset_cons_self source texts))
  cases hp : Program.parse source s.readings with
  | error e =>
    have hresult : s.evalSourceWith due fuel source =
        (.failed (.read e), { s with readings := s.readings + 1 }) := by
      rw [evalSourceWith, read, hp]
    have hother : d.evalSource due fuel s source =
        (.failed (.read e), { s with readings := s.readings + 1 }) := by
      rw [Defences.evalSource, read, hp]
    rw [hother, hresult]
    exact ⟨rfl, hs', fun e' heq => by cases heq⟩
  | ok p =>
    obtain ⟨hsame, hholds, hends⟩ := Code.sound_evalProgram d due fuel
      (Code.mem_ofTexts List.mem_cons_self hp) { s with readings := s.readings + 1 } hs'
    have hother : d.evalSource due fuel s source =
        ({ s with readings := s.readings + 1 } : Session).perform (d.evalProgram due fuel p) := by
      rw [Defences.evalSource, read, hp]
    rw [hother, evalSourceWith_eq due fuel hp, perform, perform, hsame]
    generalize Eval.evalProgram due fuel p { s with readings := s.readings + 1 } = r at hholds hends
    rcases r with ⟨(e | _) | vs, s'⟩
    · refine ⟨rfl, hholds, ?_⟩
      rintro e' heq
      cases heq
      exact hends
    · exact ⟨rfl, hholds, fun e' heq => by cases heq⟩
    · exact ⟨rfl, hholds, fun e' heq => by cases heq⟩

theorem Heard.holds (hs : Heard sink texts s) : (Code.ofTexts texts).Holds s.arena := by
  induction hs with
  | new => exact holds_new _ sink
  | evalSource due fuel source _ ih =>
    exact (evalSourceWith_of_holds ih .standard due fuel source).2.1
  | collect _ ih => exact ih.collect _

/-- **Every failure is where it says.** A source text that fails in a session, after some earlier
texts, is itself no program and blames one of its tokens; or its evaluation blames a form of it or
of an earlier text, but never of the startup text, and in a session without earlier texts a form of
the text itself. Either way the span runs from one place in that text to another. -/
theorem located_of_heard {earlier : List String} (hs : Heard sink earlier s)
    {due : Session → Bool} {fuel : Nat} {source : String} {cause : Failure}
    (hfailed : (s.evalSourceWith due fuel source).1 = .failed cause) :
    cause.LocatedIn source earlier := by
  cases cause with
  | read e =>
    have hparse : Program.parse source s.readings = .error e := by
      cases hp : Program.parse source s.readings with
      | ok p =>
        rw [evalSourceWith_eq due fuel hp, perform] at hfailed
        generalize Eval.evalProgram due fuel p _ = r at hfailed
        rcases r with ⟨(e | _) | vs, s'⟩ <;> cases hfailed
      | error e' =>
        rw [evalSourceWith, read, hp] at hfailed
        cases hfailed
        rfl
    obtain ⟨t, ht, hspan⟩ := Program.exists_token_of_parse hparse
    exact .read ht hspan (hspan ▸ (tiles_tokenize source).place t ht)
  | eval e =>
    obtain ⟨-, -, hblames⟩ := evalSourceWith_of_holds hs.holds .standard due fuel source
    obtain ⟨g, ⟨-, text, htext, reading, p, hp, f, hf, hpart⟩, hspan, -⟩ := hblames e hfailed
    exact .eval htext hp hf hpart hspan (hspan ▸ Program.isIn_of_part hp hf hpart)

/-- A function of the first text that fails when the second one calls it: the fault is in the first
text. -/
theorem located_of_heard_body :
    ∃ s cause, Heard {} ["(def! f (fn* () (g)))"] s ∧
      (s.evalSourceWith isCrowded 10 "(f)").1 = .failed cause ∧
      cause.span = ⟨⟨17, 1, 17⟩, ⟨18, 1, 18⟩⟩ ∧
      cause.LocatedIn "(f)" ["(def! f (fn* () (g)))"] := by
  have hheard : Heard {} ["(def! f (fn* () (g)))"]
      ((new {}).evalSourceWith isCrowded 10 "(def! f (fn* () (g)))").2 := .evalSource _ _ _ .new
  have hfailed : ∃ e, (((new {}).evalSourceWith isCrowded 10
      "(def! f (fn* () (g)))").2.evalSourceWith isCrowded 10 "(f)").1 = .failed (.eval e) ∧
        e.span = ⟨⟨17, 1, 17⟩, ⟨18, 1, 18⟩⟩ := ⟨_, by cbv, rfl⟩
  obtain ⟨e, hfailed, hspan⟩ := hfailed
  exact ⟨_, .eval e, hheard, hfailed, hspan, located_of_heard hheard hfailed⟩

/-- **Evaluation never needs its defences.** In a session that was given source texts only, a source
text comes to the same whatever is answered in the cases that no text leads to: a comment or a list
where a form of another kind is evaluated, a literal without a value, a parameter without an
argument, and a marker of further arguments that is not followed by exactly one name. So no text
ever fails for a literal without a value, and the value of every integer in it is the integer that
it stands for. -/
theorem defences_unreached (hs : Reached sink s) (due : Session → Bool) (fuel : Nat)
    (source : String) :
    (∀ d : Defences, d.evalSource due fuel s source = s.evalSourceWith due fuel source) ∧
    (∀ raw span, (s.evalSourceWith due fuel source).1 ≠
      .failed (.eval (.invalidLiteral raw span))) ∧
    ∀ reading p, Program.parse source reading = .ok p → ∀ f ∈ p.forms, ∀ site raw,
      (Form.literal site .int raw).PartOf f →
        ∃ n : Int64, Numeral.Denotes raw.toList n.toInt ∧ ∀ scope t,
          Eval.eval due (fuel + 1) (.literal site .int raw) scope t = (.ok (.int n), t) := by
  obtain ⟨texts, hheard⟩ := hs.heard
  have hsound := fun d => evalSourceWith_of_holds hheard.holds d due fuel source
  refine ⟨fun d => (hsound d).1, ?_, ?_⟩
  · rintro raw span hfailed
    obtain ⟨f, -, -, hother⟩ := (hsound .standard).2.2 _ hfailed
    exact hother raw span rfl
  · rintro reading p hp f hf site raw hpart
    obtain ⟨n, hn, hvalue⟩ := Program.int_value? hp hf hpart
    refine ⟨n, hn, fun scope t => ?_⟩
    have hstep : Eval.step (Eval.eval due fuel) (.literal site .int raw) scope (t.enter scope) =
        (.ok (.done (.int n)), t.enter scope) := by
      simp only [Eval.step, Eval.evalLeaf, hvalue]
      rfl
    rw [Eval.eval_succ, hstep]
    rfl

/-- Answers that end every evaluation, or bind nothing of use. -/
def quitting : Defences where
  comment := throw .outOfFuel
  list _ _ _ := throw .outOfFuel
  literal _ _ := throw .outOfFuel
  missing name := .keyword name
  marker _ _ := []

/-- Comments, a negative number, and a function with a parameter for further arguments. -/
theorem defences_unreached_rest :
    ∃ v t, quitting.evalSource isCrowded 10 (new {})
        "((fn* (a & b) ; all\n [a b -7]) 1 2 3) ; done" = (.ok [v], t) ∧
      v.text .readable = "[1 (2 3) -7]" := by
  rw [(defences_unreached .new isCrowded 10 _).1 quitting]
  exact ⟨_, _, by cbv, by decide +kernel⟩

end Session

end Lisp
