import Lisp.Proofs.Form.Grammar
import Lisp.Shell.Repl

/-!
# What further lines can do to a text

Two faults of a text say that it ends too early: an open bracket, and a mark without its operand.
All others stay, whatever comes after the text.

- `Form.extends_steps`: tokens that follow change neither what was read nor a fault that stays.
- `Form.mendable_steps`: a text that ends too early can be finished, and brackets are enough for it:
  `[]` for each operand that is missing, and the closing brackets of what is open.
- `Program.completable_iff`: so the faults of a text say whether further lines can make a program
  of it.
-/

namespace Lisp

/-- Whether a fault says that a text ends too early. -/
def ReadError.isOpen : ReadError → Bool
  | unexpectedEnd _ _ | missingOperand _ _ => true
  | illegalToken _ _ | unexpectedToken _ _ | invalidNumber _ _ => false

/-! ## Steps and what follows -/

namespace Reading

variable {α β : Type} {f : List Token → Result α} {g : α → List Token → Result β}
  {ts rest : List Token} {a : α}

/-- Whether a step failed because the text ends too early. -/
def isOpen : Result α → Bool
  | (.ok _, _) => false
  | (.error e, _) => e.isOpen

/-- The same outcome, with more tokens left. -/
def followed (x : Result α) (us : List Token) : Result α := (x.1, x.2 ++ us)

/-- A step does not see what follows the tokens that it was given, unless these end too early. -/
def Extends (f : List Token → Result α) (ts : List Token) : Prop :=
  isOpen (f ts) = false → ∀ us, f (ts ++ us) = followed (f ts) us

/-- Brackets that follow let a step succeed and leave nothing. -/
def Mendable (f : List Token → Result α) (ts : List Token) : Prop :=
  ∃ more : List Char, (∀ c ∈ more, isBracket c = true) ∧
    ∀ us : List Token, us.map Token.kind = more.filterMap Lexeme.single? →
      ∃ a, f (ts ++ us) = (.ok a, [])

/-- A step that leaves all tokens does not see them. -/
theorem Extends.stay {outcome : Except ReadError α} (h : ∀ us, f us = (outcome, us)) :
    Extends f ts := by
  intro _ us
  rw [h, h]
  rfl

/-- One step after another sees nothing more than the two of them do. -/
theorem Extends.andThen (hf : Extends f ts)
    (hg : ∀ a rest, f ts = (.ok a, rest) → Extends (g a) rest) :
    Extends (fun ts => Reading.andThen (f ts) g) ts := by
  intro hopen us
  show Reading.andThen (f (ts ++ us)) g = followed (Reading.andThen (f ts) g) us
  change isOpen (Reading.andThen (f ts) g) = false at hopen
  generalize hx : f ts = x at hopen
  obtain ⟨e | a, rest⟩ := x
  · have hsame := hf (by rw [hx]; exact hopen) us
    rw [hsame, hx]
    rfl
  · have hsame := hf (by rw [hx]; rfl) us
    rw [hsame, hx]
    exact hg a rest hx hopen us

/-- Of two steps, tokens that end too early for the second one can be mended for it, and tokens that
do so for the first one can be mended for both, if some brackets are enough for the second. -/
theorem Mendable.andThen (hf : ∀ us, Extends f (ts ++ us))
    (hfirst : isOpen (f ts) = true → Mendable f ts)
    (hsecond : ∀ a rest, f ts = (.ok a, rest) → isOpen (g a rest) = true → Mendable (g a) rest)
    (filler : List Char) (hfiller : ∀ c ∈ filler, isBracket c = true)
    (hg : ∀ a us, us.map Token.kind = filler.filterMap Lexeme.single? →
      ∃ b, g a us = (.ok b, []))
    (hopen : isOpen (Reading.andThen (f ts) g) = true) :
    Mendable (fun ts => Reading.andThen (f ts) g) ts := by
  generalize hx : f ts = x at hopen
  obtain ⟨e | a, rest⟩ := x
  · -- The first step is mended first. Once it succeeds, it does not see the brackets for the
    -- second.
    obtain ⟨more, hmore, hfinish⟩ := hfirst (by rw [hx]; exact hopen)
    refine ⟨more ++ filler, List.forall_mem_append.2 ⟨hmore, hfiller⟩, fun us hus => ?_⟩
    rw [List.filterMap_append] at hus
    obtain ⟨first, last, rfl, hkinds, hkinds'⟩ := List.map_eq_append_iff.1 hus
    obtain ⟨a, ha⟩ := hfinish first hkinds
    have hsame := hf first (by rw [ha]; rfl) last
    rw [ha, List.append_assoc] at hsame
    show ∃ b, Reading.andThen (f (ts ++ (first ++ last))) g = _
    rw [hsame]
    exact hg a last hkinds'
  · -- The first step succeeded, and leaves the new tokens to the second one.
    obtain ⟨more, hmore, hfinish⟩ := hsecond a rest hx hopen
    refine ⟨more, hmore, fun us hus => ?_⟩
    have hsame := hf [] (by rw [List.append_nil, hx]; rfl) us
    rw [List.append_nil, hx] at hsame
    show ∃ b, Reading.andThen (f (ts ++ us)) g = _
    rw [hsame]
    exact hfinish us hus

/-- A step that was mended still is when its outcome is only worked on. -/
theorem Mendable.last {h : α → β} (hf : ∀ us, Extends f (ts ++ us))
    (hfirst : isOpen (f ts) = true → Mendable f ts)
    (hopen : isOpen (Reading.andThen (f ts) fun a rest => (.ok (h a), rest)) = true) :
    Mendable (fun ts => Reading.andThen (f ts) fun a rest => (.ok (h a), rest)) ts := by
  refine .andThen hf hfirst (fun a rest _ hopen => ?_) [] nofun (fun a us hus => ?_) hopen
  · cases hopen
  · rw [List.map_eq_nil_iff.1 hus]
    exact ⟨h a, rfl⟩

theorem exists_andThen_ok {h : α → β} {x : Result α} (hx : ∃ a, x = (.ok a, [])) :
    ∃ b, Reading.andThen x (fun a rest => (.ok (h a), rest)) = (.ok b, []) := by
  obtain ⟨a, rfl⟩ := hx
  exact ⟨h a, rfl⟩

end Reading

/-! ## Faults that stay, and faults that can be mended -/

namespace Form

open Reading

variable {r : Nat} {t : Token} {ts us : List Token} {b : Bracket}

/-- At each step, what follows is seen only if the tokens end too early. -/
theorem extends_steps (r : Nat) :
    (∀ t ts, Extends (fun ts => (read r t ts).result) ts) ∧
    (∀ t mark ts, Extends (fun ts => (readOperand r t mark ts).result) ts) ∧
    ∀ opener b ts, Extends (fun ts => (readSequence r opener b ts).result) ts := by
  apply reading_induction r
  case illegal =>
    intro t ts hk
    exact .stay fun us => result_read_illegal hk
  case comment =>
    intro t ts hk
    exact .stay fun us => result_read_comment hk
  case symbol =>
    intro t ts hk
    exact .stay fun us => result_read_symbol hk
  case literal =>
    intro t ts kind hk
    exact .stay fun us => result_read_literal hk
  case closing =>
    intro t ts b hk
    exact .stay fun us => result_read_closing hk
  case eof =>
    intro t ts hk
    exact .stay fun us => result_read_eof hk
  case opening =>
    intro t ts b hk ih
    simp only [result_read_opening hk]
    exact ih.andThen fun p rest _ => .stay fun us => rfl
  case shorthand =>
    intro t ts mark hk hmark ih
    simp only [result_read_shorthand hk hmark]
    exact ih.andThen fun operand rest _ => .stay fun us => rfl
  case withMeta =>
    intro t ts hk ihNote ihTarget
    simp only [result_read_withMeta hk]
    exact ihNote.andThen fun note rest h =>
      (ihTarget note rest h).andThen fun target rest _ => .stay fun us => rfl
  case operandEnd =>
    intro t mark hopen
    simp only [result_readOperand_nil] at hopen
    cases hopen
  case operandComment =>
    intro t mark u us hk ih
    simp only [Extends, List.cons_append, result_readOperand_cons, if_pos hk]
    exact ih
  case operandForm =>
    intro t mark u us hk ih
    simp only [Extends, List.cons_append, result_readOperand_cons, if_neg hk]
    exact ih
  case sequenceEnd =>
    intro opener b hopen
    simp only [result_readSequence_nil] at hopen
    cases hopen
  case sequenceClose =>
    intro opener b t ts hk
    simp only [Extends, List.cons_append, result_readSequence_cons, if_pos hk]
    exact fun _ us => rfl
  case sequenceForm =>
    intro opener b t ts hk ihFirst ihRest
    simp only [Extends, List.cons_append, result_readSequence_cons, if_neg hk]
    exact ihFirst.andThen fun f rest h =>
      (ihRest f rest h).andThen fun p rest _ => .stay fun us => rfl

/-- The text of an empty vector, which can be an operand. -/
def filler : List Char := ['[', ']']

theorem isBracket_filler : ∀ c ∈ filler, isBracket c = true := List.all_eq_true.1 rfl

theorem isBracket_closer (b : Bracket) : ∀ c ∈ [b.closer], isBracket c = true := by
  cases b <;> exact List.all_eq_true.1 rfl

theorem readOperand_filler (mark : Shorthand)
    (hus : us.map Token.kind = filler.filterMap Lexeme.single?) :
    ∃ f, (readOperand r t mark us).result = (.ok f, []) := by
  have hkinds : us.map Token.kind = [.opening .square, .closing .square] := hus
  obtain ⟨opener, us, rfl, hopener, hus⟩ := List.map_eq_cons_iff.1 hkinds
  obtain ⟨closer, us, rfl, hcloser, hus⟩ := List.map_eq_cons_iff.1 hus
  obtain rfl := List.map_eq_nil_iff.1 hus
  have hcomment : opener.kind ≠ .comment := by
    rw [hopener]
    exact nofun
  rw [result_readOperand_cons, if_neg hcomment, result_read_opening hopener,
    result_readSequence_cons, if_pos hcloser]
  exact ⟨_, rfl⟩

/-- The closing bracket ends a sequence. -/
theorem readSequence_closer {opener : Token}
    (hus : us.map Token.kind = [b.closer].filterMap Lexeme.single?) :
    ∃ p, (readSequence r opener b us).result = (.ok p, []) := by
  have hkinds : us.map Token.kind = [.closing b] := by
    cases b <;> exact hus
  obtain ⟨closer, us, rfl, hcloser, hus⟩ := List.map_eq_cons_iff.1 hkinds
  obtain rfl := List.map_eq_nil_iff.1 hus
  rw [result_readSequence_cons, if_pos hcloser]
  exact ⟨_, rfl⟩

/-- At each step, tokens that end too early can be mended. -/
theorem mendable_steps (r : Nat) :
    (∀ t ts, isOpen (read r t ts).result = true →
      Mendable (fun ts => (read r t ts).result) ts) ∧
    (∀ t mark ts, isOpen (readOperand r t mark ts).result = true →
      Mendable (fun ts => (readOperand r t mark ts).result) ts) ∧
    ∀ opener b ts, isOpen (readSequence r opener b ts).result = true →
      Mendable (fun ts => (readSequence r opener b ts).result) ts := by
  obtain ⟨hread, hoperand, hsequence⟩ := extends_steps r
  apply reading_induction r
  case illegal =>
    intro t ts hk hopen
    rw [result_read_illegal hk] at hopen
    cases hopen
  case comment =>
    intro t ts hk hopen
    rw [result_read_comment hk] at hopen
    cases hopen
  case symbol =>
    intro t ts hk hopen
    rw [result_read_symbol hk] at hopen
    cases hopen
  case literal =>
    intro t ts kind hk hopen
    rw [result_read_literal hk, ofLiteral] at hopen
    split at hopen
    · cases hopen
    · cases hopen
  case closing =>
    intro t ts b hk hopen
    rw [result_read_closing hk] at hopen
    cases hopen
  case eof =>
    intro t ts hk hopen
    rw [result_read_eof hk] at hopen
    cases hopen
  case opening =>
    intro t ts b hk ih hopen
    simp only [result_read_opening hk] at hopen ⊢
    exact .last (fun us => hsequence _ _ _) ih hopen
  case shorthand =>
    intro t ts mark hk hmark ih hopen
    simp only [result_read_shorthand hk hmark] at hopen ⊢
    exact .last (fun us => hoperand _ _ _) ih hopen
  case withMeta =>
    intro t ts hk ihNote ihTarget hopen
    simp only [result_read_withMeta hk] at hopen ⊢
    refine .andThen (fun us => hoperand _ _ _) ihNote ?_ filler isBracket_filler ?_ hopen
    · intro note rest h hopen
      exact .last (fun us => hoperand _ _ _) (ihTarget note rest h) hopen
    · -- A note that is only completed now still needs a target.
      intro note us hus
      exact exists_andThen_ok (readOperand_filler .withMeta hus)
  case operandEnd =>
    intro t mark _
    exact ⟨filler, isBracket_filler, fun us hus => readOperand_filler mark hus⟩
  case operandComment =>
    intro t mark u us hk ih hopen
    rw [result_readOperand_cons, if_pos hk] at hopen
    simp only [Mendable, List.cons_append, result_readOperand_cons, if_pos hk]
    exact ih hopen
  case operandForm =>
    intro t mark u us hk ih hopen
    rw [result_readOperand_cons, if_neg hk] at hopen
    simp only [Mendable, List.cons_append, result_readOperand_cons, if_neg hk]
    exact ih hopen
  case sequenceEnd =>
    intro opener b _
    exact ⟨[b.closer], isBracket_closer b, fun us hus => readSequence_closer hus⟩
  case sequenceClose =>
    intro opener b t ts hk hopen
    rw [result_readSequence_cons, if_pos hk] at hopen
    cases hopen
  case sequenceForm =>
    intro opener b t ts hk ihFirst ihRest hopen
    rw [result_readSequence_cons, if_neg hk] at hopen
    simp only [Mendable, List.cons_append, result_readSequence_cons, if_neg hk]
    refine Mendable.andThen (fun us => hread _ _) ihFirst ?_ _ (isBracket_closer b) ?_ hopen
    · intro f rest h hopen
      exact .last (fun us => hsequence _ _ _) (ihRest f rest h) hopen
    · -- After an element that is only completed now, the sequence itself is still open.
      intro f us hus
      exact exists_andThen_ok (readSequence_closer hus)

/-- A fault after a form that was read is a fault of what this form leaves. -/
theorem readAll_error_of_cons {e : ReadError} {f : Form} {rest : List Token}
    (hread : (read r t ts).result = (.ok f, rest)) (h : readAll r (t :: ts) = .error e) :
    readAll r rest = .error e := by
  rw [readAll_cons_ok hread] at h
  cases hrest : readAll r rest with
  | error e' =>
    rw [hrest] at h
    exact h
  | ok fs =>
    rw [hrest] at h
    cases h

/-- A fault that is not one of the end stays, whatever follows. -/
theorem readAll_append_of_error {e : ReadError} (h : readAll r ts = .error e)
    (he : e.isOpen = false) (us : List Token) : readAll r (ts ++ us) = .error e := by
  induction ts using readAll_induction (r := r) with
  | nil =>
    rw [readAll] at h
    cases h
  | cons t ts ih =>
    have hext := (extends_steps r).1 t ts
    generalize hread : (read r t ts).result = x
    obtain ⟨e' | f, rest⟩ := x
    · rw [readAll_cons_error hread] at h
      cases h
      have hsame := hext (by simp only [hread]; exact he) us
      simp only [hread] at hsame
      exact readAll_cons_error hsame
    · have hrest := readAll_error_of_cons hread h
      have hsame := hext (by simp only [hread]; rfl) us
      simp only [hread] at hsame
      rw [List.cons_append, readAll_cons_ok hsame, ih f rest hread hrest]
      rfl

/-- Tokens that end too early can be mended. -/
theorem readAll_mendable {e : ReadError} (h : readAll r ts = .error e) (he : e.isOpen = true) :
    ∃ more : List Char, (∀ c ∈ more, isBracket c = true) ∧
      ∀ us : List Token, us.map Token.kind = more.filterMap Lexeme.single? →
        ∃ fs, readAll r (ts ++ us) = .ok fs := by
  induction ts using readAll_induction (r := r) with
  | nil =>
    rw [readAll] at h
    cases h
  | cons t ts ih =>
    generalize hread : (read r t ts).result = x
    obtain ⟨e' | f, rest⟩ := x
    · rw [readAll_cons_error hread] at h
      cases h
      obtain ⟨more, hmore, hfinish⟩ := (mendable_steps r).1 t ts (by rw [hread]; exact he)
      refine ⟨more, hmore, fun us hus => ?_⟩
      obtain ⟨f, hf⟩ := hfinish us hus
      rw [List.cons_append, readAll_cons_ok hf, readAll]
      exact ⟨[f], rfl⟩
    · have hrest := readAll_error_of_cons hread h
      obtain ⟨more, hmore, hfinish⟩ := ih f rest hread hrest
      refine ⟨more, hmore, fun us hus => ?_⟩
      obtain ⟨fs, hfs⟩ := hfinish us hus
      have hsame := (extends_steps r).1 t ts (by simp only [hread]; rfl) us
      simp only [hread] at hsame
      rw [List.cons_append, readAll_cons_ok hsame, hfs]
      exact ⟨f :: fs, rfl⟩

end Form

/-! ## Texts -/

/-- Each bracket is a token. -/
theorem Scanner.kinds_of_brackets {cs : List Char} (h : ∀ c ∈ cs, isBracket c = true)
    (p : Position) : (tokens ⟨cs, p⟩).map Token.kind = cs.filterMap Lexeme.single? := by
  induction cs generalizing p with
  | nil =>
    rw [tokens_nil]
    rfl
  | cons c cs ih =>
    obtain ⟨hc, hcs⟩ := List.forall_mem_cons.1 h
    have hsingle : isSkipped c = false ∧ ∃ kind, Lexeme.single? c = some kind := by
      simp only [isBracket, Bool.or_eq_true, beq_iff_eq, or_assoc] at hc
      rcases hc with rfl | rfl | rfl | rfl | rfl | rfl <;> exact ⟨by decide, _, rfl⟩
    obtain ⟨hskipped, kind, hkind⟩ := hsingle
    rw [tokens_single hkind hskipped, List.map_cons, ih hcs, List.filterMap_cons_some hkind]
    rfl

namespace Program

variable {source : String} {reading : Nat} {e : ReadError}

theorem parse_eq_error_iff : parse source reading = .error e ↔
    Form.readAll reading (tokenize source) = .error e := by
  unfold parse
  cases Form.readAll reading (tokenize source) with
  | error e' =>
    constructor
    · intro h
      cases h
      rfl
    · intro h
      cases h
      rfl
  | ok fs => exact ⟨nofun, nofun⟩

/-- An empty line changes nothing. -/
theorem parse_append_empty_line : parse (source ++ "\n" ++ "") reading = parse source reading := by
  have htokens : tokenize (source ++ "\n" ++ "") = tokenize source := by
    rw [tokenize_append_line]
    show _ ++ Scanner.tokens ⟨[], _⟩ = _
    rw [Scanner.tokens_nil, List.append_nil]
  rw [parse, htokens, ← parse]

theorem parse_append_line_of_error (h : parse source reading = .error e) (he : e.isOpen = false)
    (more : String) : parse (source ++ "\n" ++ more) reading = .error e := by
  rw [parse_eq_error_iff] at h ⊢
  rw [tokenize_append_line]
  exact Form.readAll_append_of_error h he _

theorem exists_parse_append_line (h : parse source reading = .error e) (he : e.isOpen = true) :
    ∃ more p, parse (source ++ "\n" ++ more) reading = .ok p := by
  rw [parse_eq_error_iff] at h
  obtain ⟨more, hmore, hfinish⟩ := Form.readAll_mendable h he
  obtain ⟨fs, hfs⟩ := hfinish _ (Scanner.kinds_of_brackets hmore ((endOf source).advance '\n'))
  refine ⟨String.ofList more, ⟨fs⟩, ?_⟩
  rw [parse_eq_ok_iff, tokenize_append_line, String.toList_ofList]
  exact hfs

/-- Some further lines make a program of a text exactly when it has no fault but that it ends too
early. -/
theorem exists_parse_append_line_iff (source : String) (reading : Nat) :
    (∃ more p, parse (source ++ "\n" ++ more) reading = .ok p) ↔
      ∀ e, parse source reading = .error e → e.isOpen = true := by
  constructor
  · rintro ⟨more, p, hp⟩ e h
    by_contra hstays
    rw [parse_append_line_of_error h (by simpa using hstays)] at hp
    cases hp
  · intro hopen
    cases h : parse source reading with
    | ok p => exact ⟨"", p, by rw [parse_append_empty_line, h]⟩
    | error e => exact exists_parse_append_line h (hopen e h)

end Program

theorem ReadError.isOpen_iff {e : ReadError} : e.isOpen = true ↔
    (∃ opener expected, e = .unexpectedEnd opener expected) ∨
      ∃ mark span, e = .missingOperand mark span := by
  cases e <;> simp [isOpen]

theorem judge_eq_incomplete {source : String} (h : judge source = .incomplete) :
    ∃ e, Program.parse source = .error e ∧ e.isOpen = true := by
  unfold judge at h
  split at h
  next opener expected hparse => exact ⟨_, hparse, rfl⟩
  · cases h
  · cases h

theorem judge_eq_invalid {source message : String} (h : judge source = .invalid message) :
    ∃ e, Program.parse source = .error e ∧ e.isOpen = false := by
  unfold judge at h
  split at h
  · cases h
  next found span hparse => exact ⟨_, hparse, rfl⟩
  · cases h

/-- **Further lines.** Some further lines make a program of a text exactly when the text is one, or
ends inside a bracket or before an operand. Any other fault is the fault of the text with whatever
further lines. So an entry is called incomplete only if lines can complete it, and invalid only if
none can. -/
theorem Program.completable_iff (source : String) (reading : Nat) :
    ((∃ more p, parse (source ++ "\n" ++ more) reading = .ok p) ↔
      (∃ p, parse source reading = .ok p) ∨
      (∃ opener expected, parse source reading = .error (.unexpectedEnd opener expected)) ∨
      (∃ mark span, parse source reading = .error (.missingOperand mark span))) ∧
    (∀ found span, parse source reading = .error (.unexpectedToken found span) →
      ∀ more, parse (source ++ "\n" ++ more) reading = .error (.unexpectedToken found span)) ∧
    (∀ text span, parse source reading = .error (.illegalToken text span) →
      ∀ more, parse (source ++ "\n" ++ more) reading = .error (.illegalToken text span)) ∧
    (∀ text span, parse source reading = .error (.invalidNumber text span) →
      ∀ more, parse (source ++ "\n" ++ more) reading = .error (.invalidNumber text span)) ∧
    (judge source = .incomplete → ∃ more p, parse (source ++ "\n" ++ more) = .ok p) ∧
    (∀ message, judge source = .invalid message →
      ∀ more p, parse (source ++ "\n" ++ more) ≠ .ok p) := by
  refine ⟨?_, ?_, ?_, ?_, ?_, ?_⟩
  · rw [exists_parse_append_line_iff]
    cases parse source reading with
    | ok p => simp
    | error e => simp [ReadError.isOpen_iff]
  · exact fun found span h => parse_append_line_of_error h rfl
  · exact fun text span h => parse_append_line_of_error h rfl
  · exact fun text span h => parse_append_line_of_error h rfl
  · intro h
    obtain ⟨e, hparse, hopen⟩ := judge_eq_incomplete h
    exact exists_parse_append_line hparse hopen
  · intro message h more p hp
    obtain ⟨e, hparse, hstays⟩ := judge_eq_invalid h
    rw [parse_append_line_of_error hparse hstays] at hp
    cases hp

end Lisp
