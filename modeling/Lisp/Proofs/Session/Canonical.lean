import Lisp.Proofs.Eval.Code
import Lisp.Proofs.Form.Recast
import Lisp.Proofs.Session.Comments
import Lisp.Proofs.Session.Sites

/-!
# Canonical texts mean the same

A session that is given the canonical texts of source texts comes to the same as one that is given
the texts themselves.

- `Program.Readings`: the programs that source texts are read as, one after the other.
- `Program.Readings.exists_onProgram`: evaluation treats them like the programs that the canonical
  texts are read as.
- `Session.accounts`: what a session gives for source texts one after the other, apart from the
  spans that failures blame.
- `Session.accounts_canonical`: it is the same for the canonical texts, if no shorthand stands where
  names should.
-/

namespace Lisp

namespace Program

/-! ## Texts and canonical texts -/

/-- The programs that source texts are read as, one after the other, in the readings from a given
one on. -/
inductive Readings : Nat → List String → List Program → Prop
  | nil (reading : Nat) : Readings reading [] []
  | cons {reading : Nat} {source : String} {p : Program} {sources : List String}
      {ps : List Program} : parse source reading = .ok p → Readings (reading + 1) sources ps →
      Readings reading (source :: sources) (p :: ps)

/-- A program that is another one in its normal form, but for where the forms come from. -/
def IsNormalOf (q p : Program) : Prop :=
  q.forms.map Form.bare = (Form.normals p.forms).map Form.bare

variable {reading reading' : Nat} {sources texts : List String} {ps qs : List Program}

namespace Readings

/-- No two forms of texts that are read one after the other are the same. -/
theorem nodup_keys (h : Readings reading sources ps) :
    (Form.keys (ps.flatMap forms)).Nodup ∧
      ∀ k ∈ Form.keys (ps.flatMap forms), reading ≤ k.1 := by
  induction h with
  | nil => exact ⟨.nil, nofun⟩
  | @cons reading _ p _ ps hp _ ih =>
    obtain ⟨hfirst, hreading⟩ := Program.nodup_keys hp
    obtain ⟨hothers, hlater⟩ := ih
    rw [List.flatMap_cons, Form.keys_append]
    constructor
    · refine List.nodup_append.2 ⟨hfirst, hothers, ?_⟩
      rintro k hk _ hk' rfl
      have hsame := hreading k hk
      have hafter := hlater k hk'
      omega
    · intro k hk
      rcases List.mem_append.1 hk with hk | hk
      · exact (hreading k hk).ge
      · exact Nat.le_of_succ_le (hlater k hk)

/-- The canonical texts of programs that were read are read as their normal forms. -/
theorem canonical (h : Readings reading sources ps) :
    ∃ qs, Readings reading (ps.map text) qs ∧ List.Forall₂ (fun p q => q.IsNormalOf p) ps qs := by
  induction h with
  | nil reading => exact ⟨[], .nil reading, .nil⟩
  | @cons reading _ p _ _ hp _ ih =>
    obtain ⟨q, hq, hbare⟩ :=
      parse_intercalate "\n" '\n' rfl (by decide) (lexical_of_parse hp) reading
    obtain ⟨qs, hqs, hbares⟩ := ih
    exact ⟨q :: qs, .cons hq hqs, .cons hbare hbares⟩

/-- Texts that can be read, can be read one after the other. -/
theorem exists_of_parse {programs : List Program}
    (h : List.Forall₂ (fun source p => parse source = .ok p) sources programs)
    (hnames : ∀ p ∈ programs, p.PlainNames) (reading : Nat) :
    ∃ ps, Readings reading sources ps ∧ ps.map text = programs.map text ∧
      ∀ p ∈ ps, p.PlainNames := by
  induction h generalizing reading with
  | nil => exact ⟨[], .nil reading, rfl, nofun⟩
  | @cons source p sources programs hp _ ih =>
    obtain ⟨hfirst, hothers⟩ := List.forall_mem_cons.1 hnames
    obtain ⟨ps, hps, htexts, hplain⟩ := ih hothers (reading + 1)
    refine ⟨_, .cons (parse_inReading hp reading) hps, ?_, ?_⟩
    · rw [List.map_cons, List.map_cons, text_mapSites, htexts]
    · exact List.forall_mem_cons.2 ⟨hfirst.mapSites _, hplain⟩

end Readings

/-- Programs and their normal forms are the same forms at different sites. -/
theorem exists_recasts (h : List.Forall₂ (fun p q => q.IsNormalOf p) ps qs) :
    ∃ sites, Form.Recasts sites (ps.flatMap forms) (qs.flatMap forms) ∧
      ∀ place : Nat × Nat → Site × Site, (∀ x ∈ sites, place x.1 = x.2) →
        List.Forall₂ (fun p q => Form.recastAll place p.forms = q.forms) ps qs := by
  induction h with
  | nil => exact ⟨[], .nil, fun _ _ => .nil⟩
  | cons hpq _ ih =>
    obtain ⟨sites, hsites⟩ := Form.exists_recasts hpq
    obtain ⟨sites', hsites', heq⟩ := ih
    refine ⟨sites ++ sites', hsites.append hsites', fun place hplace => ?_⟩
    obtain ⟨hfirst, hothers⟩ := List.forall_mem_append.1 hplace
    exact .cons (hsites.eq place hfirst) (heq place hothers)

theorem mem_partsAll_flatMap {f : Form} :
    f ∈ Form.partsAll (ps.flatMap forms) ↔ ∃ p ∈ ps, f ∈ Form.partsAll p.forms := by
  induction ps with
  | nil => simp [Form.partsAll]
  | cons p ps ih => simp [Form.partsAll_append, ih]

/-- Evaluation treats programs that are read one after the other like their normal forms. -/
theorem Readings.exists_onProgram (hp : Readings reading sources ps)
    (hq : Readings reading' texts qs) (hpq : List.Forall₂ (fun p q => q.IsNormalOf p) ps qs)
    (hnames : ∀ p ∈ ps, p.PlainNames) : ∃ c : Likeness, List.Forall₂ c.OnProgram ps qs := by
  obtain ⟨sites, hsites, hrecast⟩ := exists_recasts hpq
  obtain ⟨place, hplace, hapart⟩ := hsites.exists_place hp.nodup_keys.1 hq.nodup_keys.1
  have hplain : ∀ f ∈ Form.partsAll (ps.flatMap forms), ∀ g ∈ f.nameOperand?,
      g.shorthand? = none := by
    intro f hf
    obtain ⟨p, hp, hf⟩ := mem_partsAll_flatMap.1 hf
    exact hnames p hp f hf
  have hmem : ∀ p ∈ ps, ∀ f ∈ Form.significant p.forms, f ∈ Form.partsAll (ps.flatMap forms) :=
    fun p hp f hf =>
      mem_partsAll_flatMap.2 ⟨p, hp, Form.mem_partsAll.2 ⟨f, hf, Form.mem_parts_self f⟩⟩
  refine ⟨.recast (ps.flatMap forms) place hapart hplain, ?_⟩
  refine ((List.forall₂_and_left _ _).2 ⟨hmem, hrecast place hplace⟩).imp ?_
  rintro p q ⟨hmem, heq⟩
  refine ⟨?_, hmem⟩
  rw [← heq]
  exact Form.significant_recastAll p.forms

end Program

/-! ## What a session gives -/

/-- An outcome apart from the span that a failed evaluation blames. -/
def Outcome.unplaced {α : Type} : Outcome α → Outcome α
  | failed (.eval e) => failed (.eval (e.blaming .origin))
  | outcome => outcome

namespace Session

/-- What a session gives for a source text. -/
structure Account where
  /-- The texts of the values, or the failure. -/
  outcome : Outcome (List String)
  /-- The output, with everything that has been written to it so far. -/
  sink : Sink
  /-- The names that are bound at top level afterwards. -/
  names : List String

/-- What a session gives for source texts one after the other, also after one that failed. -/
def accounts (style : Style) (fuel : Nat) : Session → List String → List Account
  | _, [] => []
  | s, source :: sources =>
    let (outcome, s') := s.evalSourceWith isCrowded fuel source
    ⟨outcome.unplaced.map (List.map (Value.text style)), s'.sink,
      s'.arena.identifiers s'.global⟩ :: accounts style fuel s' sources

end Session

namespace Likeness

variable {c : Likeness} {s t : Session}

/-- Outcomes of programs that are alike are the same, apart from the spans that are blamed. -/
theorem OnOutcome.unplaced_eq {x y : Outcome (List Value)} (h : c.OnOutcome x y) (style : Style) :
    y.unplaced.map (List.map (Value.text style)) =
      x.unplaced.map (List.map (Value.text style)) := by
  cases h with
  | ok hvs =>
    obtain ⟨rfl, hin⟩ := hvs
    simp only [Outcome.unplaced, Outcome.map, List.map_map]
    exact congrArg Outcome.ok (List.map_congr_left fun v hv => text_eq ⟨rfl, hin v hv⟩ style)
  | failed he =>
    obtain ⟨span', -, rfl⟩ := he
    simp only [Outcome.unplaced, EvalError.blaming_blaming]
  | outOfFuel => rfl

theorem Relates.names_eq (h : c.Relates s t) :
    t.arena.identifiers t.global = s.arena.identifiers s.global := by
  rw [h.eq, Session.mapForms, Arena.identifiers_mapForms]

/-- Sessions that differ only in their forms evaluate texts that are read as programs that are
alike to outcomes that are alike. -/
theorem Relates.evalSource_of_parse (h : c.Relates s t) {source text : String} {p q : Program}
    (hp : Program.parse source s.readings = .ok p) (hq : Program.parse text t.readings = .ok q)
    (hpq : c.OnProgram p q) (fuel : Nat) :
    c.Relates (s.evalSourceWith Session.isCrowded fuel source).2
        (t.evalSourceWith Session.isCrowded fuel text).2 ∧
      c.OnOutcome (s.evalSourceWith Session.isCrowded fuel source).1
        (t.evalSourceWith Session.isCrowded fuel text).1 := by
  have hread : c.Relates { s with readings := s.readings + 1 }
      { t with readings := t.readings + 1 } := by
    refine ⟨?_, h.mentioned⟩
    rw [h.eq]
    rfl
  rw [Session.evalSourceWith_eq _ fuel hp, Session.evalSourceWith_eq _ fuel hq]
  exact hread.evalProgramWith (fun _ _ h => h.isCrowded_eq) fuel hpq

/-- Sessions that differ only in their forms give the same for texts that are read as programs that
are alike. -/
theorem Relates.accounts_eq (h : c.Relates s t) (style : Style) (fuel : Nat) {reading : Nat}
    (hs : s.readings = reading) {sources texts : List String} {ps qs : List Program}
    (hp : Program.Readings reading sources ps) (hq : Program.Readings reading texts qs)
    (hpq : List.Forall₂ c.OnProgram ps qs) :
    t.accounts style fuel texts = s.accounts style fuel sources := by
  induction hpq generalizing s t reading sources texts with
  | nil =>
    cases hp
    cases hq
    rfl
  | cons hon _ ih =>
    cases hp with
    | @cons _ source _ sources _ hparse hp =>
    cases hq with
    | @cons _ text _ texts _ hparse' hq =>
      have ht : t.readings = reading := by
        rw [← hs, h.eq]
        rfl
      obtain ⟨h', hout⟩ := h.evalSource_of_parse (hs ▸ hparse) (ht ▸ hparse') hon fuel
      have hlater : (s.evalSourceWith Session.isCrowded fuel source).2.readings = reading + 1 := by
        rw [Session.readings_evalSourceWith, hs]
      rw [Session.accounts, Session.accounts]
      dsimp only
      rw [hout.unplaced_eq, h'.sink_eq, h'.names_eq, ih h' hlater hp hq]

end Likeness

namespace Session

/-- **Canonical texts mean the same.** A new session that is given, one after the other, the
canonical texts of source texts that can be read gives the same for each of them as one that is
given the source texts: the same texts of values or the same failure, apart from the span that it
blames, the same output, and the same names that are bound. Only a shorthand where names should
stand would make a difference, for its canonical text is a list, which can hold names. -/
theorem accounts_canonical (sink : Sink) (style : Style) (fuel : Nat) {sources : List String}
    {programs : List Program}
    (hparse : List.Forall₂ (fun source p => Program.parse source = .ok p) sources programs)
    (hnames : ∀ p ∈ programs, p.PlainNames) :
    (new sink).accounts style fuel (programs.map Program.text) =
      (new sink).accounts style fuel sources := by
  obtain ⟨ps, hps, htexts, hplain⟩ := Program.Readings.exists_of_parse hparse hnames 1
  obtain ⟨qs, hqs, hnormal⟩ := hps.canonical
  -- The startup text is read before, and is canonical.
  have hstartup : Program.IsNormalOf ⟨[startupForm]⟩ ⟨[startupForm]⟩ := rfl
  have hstartupNames : Program.PlainNames ⟨[startupForm]⟩ := by decide
  obtain ⟨c, hon⟩ := (Program.Readings.cons parse_startupSource hps).exists_onProgram
    (.cons parse_startupSource hqs) (.cons hstartup hnormal)
    (List.forall_mem_cons.2 ⟨hstartupNames, hplain⟩)
  obtain ⟨hfirst, hon⟩ := List.forall₂_cons.1 hon
  have hnew : c.Relates (new sink) (new sink) := by
    refine Likeness.relates_new c sink fun p hp => ?_
    rw [parse_startupSource] at hp
    cases hp
    exact hfirst
  have hreadings : (new sink).readings = 1 := readings_evalSourceWith _ _ _ _
  rw [← htexts]
  exact hnew.accounts_eq style fuel hreadings hps hqs hon

/-- The name that a shorthand stands for is bound, and the shorthand is used with a string that is
written otherwise and in a form that is its own value. Then another such name is not bound, before
a string that is cut off. -/
theorem accounts_canonical_shorthands :
    let sources := ["(def! deref (fn* (x & more) [x more])) ; note",
      "(prn @\"a\\qb\") @(1 'x)", "(= @1 'y) \"cut"]
    ∃ programs, List.Forall₂ (fun source p => Program.parse source = .ok p) sources programs ∧
      (∀ p ∈ programs, p.PlainNames) ∧
      programs.map Program.text = ["(def! deref (fn* (x & more) [x more]))",
        "(prn (deref \"a\\\\qb\"))\n(deref (1 (quote x)))",
        "(= (deref 1) (quote y))\n\"cut\""] ∧
      (new {}).accounts .readable 20 (programs.map Program.text) =
        (new {}).accounts .readable 20 sources := by
  intro sources
  obtain ⟨p₁, h₁, hnames₁, htext₁⟩ : ∃ p, Program.parse
      "(def! deref (fn* (x & more) [x more])) ; note" = .ok p ∧ p.PlainNames ∧
        p.text = "(def! deref (fn* (x & more) [x more]))" :=
    ⟨_, by cbv, by decide, by cbv⟩
  obtain ⟨p₂, h₂, hnames₂, htext₂⟩ : ∃ p, Program.parse "(prn @\"a\\qb\") @(1 'x)" = .ok p ∧
      p.PlainNames ∧ p.text = "(prn (deref \"a\\\\qb\"))\n(deref (1 (quote x)))" :=
    ⟨_, by cbv, by decide, by cbv⟩
  obtain ⟨p₃, h₃, hnames₃, htext₃⟩ : ∃ p, Program.parse "(= @1 'y) \"cut" = .ok p ∧
      p.PlainNames ∧ p.text = "(= (deref 1) (quote y))\n\"cut\"" :=
    ⟨_, by cbv, by decide, by cbv⟩
  have hparse : List.Forall₂ (fun source p => Program.parse source = .ok p) sources [p₁, p₂, p₃] :=
    .cons h₁ (.cons h₂ (.cons h₃ .nil))
  have hnames : ∀ p ∈ [p₁, p₂, p₃], p.PlainNames := by simp [hnames₁, hnames₂, hnames₃]
  refine ⟨_, hparse, hnames, ?_, accounts_canonical {} .readable 20 hparse hnames⟩
  rw [List.map_cons, List.map_cons, List.map_cons, List.map_nil, htext₁, htext₂, htext₃]

end Session

end Lisp
