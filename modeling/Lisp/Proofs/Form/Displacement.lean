import Mathlib
import Lisp.Proofs.Form.Completion
import Lisp.Proofs.Token.Displacement

/-!
# Forms that are moved further on

- `Form.mapSites`: a form that comes from elsewhere. `Form.shift` is a form in a text that is moved
  on.
- `Form.moves_steps`: at each step, what is read from tokens that are moved on is what is read from
  the tokens, moved on, and so is what is wrong with them.
- `Form.readAll_append`: tokens that make up forms, and others after them, are read one after the
  other.
- `Program.parse_lines`: so a text is read line by line.
-/

namespace Lisp

namespace Form

mutual

/-- A form that comes from elsewhere, and so do all forms in it. -/
def mapSites (m : Site → Site) : Form → Form
  | comment s text => comment (m s) text
  | symbol s name => symbol (m s) name
  | literal s kind raw => literal (m s) kind raw
  | vector s es => vector (m s) (mapSitesAll m es)
  | map s es => map (m s) (mapSitesAll m es)
  | list s mark es => list (m s) mark (mapSitesAll m es)

/-- Some forms that come from elsewhere. -/
def mapSitesAll (m : Site → Site) : List Form → List Form
  | [] => []
  | f :: fs => f.mapSites m :: mapSitesAll m fs

end

theorem mapSitesAll_eq_map (m : Site → Site) (fs : List Form) :
    mapSitesAll m fs = fs.map (mapSites m) := by
  induction fs with
  | nil => rfl
  | cons f fs ih => rw [mapSitesAll, ih, List.map_cons]

@[simp] theorem site_mapSites (m : Site → Site) (f : Form) : (f.mapSites m).site = m f.site := by
  cases f <;> rfl

theorem mapSites_ofBracket (m : Site → Site) (site : Site) (es : List Form) (b : Bracket) :
    (ofBracket site es b).mapSites m = ofBracket (m site) (es.map (mapSites m)) b := by
  rw [← mapSitesAll_eq_map]
  cases b <;> rfl

end Form

/-- The site of a form in a text that is moved on. -/
def Site.shift (d : Displacement) (s : Site) : Site :=
  { s with span := s.span.shift d, place := s.place + d.bytes }

/-- A form in a text that is moved on. -/
def Form.shift (d : Displacement) : Form → Form := mapSites (Site.shift d)

/-- A fault of a text that is moved on. -/
def ReadError.shift (d : Displacement) : ReadError → ReadError
  | illegalToken text span => illegalToken text (span.shift d)
  | unexpectedEnd opener expected => unexpectedEnd (opener.shift d) expected
  | unexpectedToken found span => unexpectedToken found (span.shift d)
  | invalidNumber text span => invalidNumber text (span.shift d)
  | missingOperand mark span => missingOperand mark (span.shift d)

/-! ## Reading what is moved on -/

namespace Reading

variable {α β γ δ : Type} {d : Displacement} {F : α → γ} {G : β → δ}

/-- What a step comes to when its tokens are moved on: something else is made of what was read, and
what is wrong is moved on. -/
def moved (d : Displacement) (F : α → γ) : Result α → Result γ
  | (.ok a, rest) => (.ok (F a), rest.map (Token.shift d))
  | (.error e, rest) => (.error (e.shift d), rest.map (Token.shift d))

/-- One step after another is moved on when both of them are. -/
theorem moved_andThen {x : Result α} {y : Result γ} {g : α → List Token → Result β}
    {k : γ → List Token → Result δ} (hx : y = moved d F x)
    (hg : ∀ a rest, x = (.ok a, rest) →
      k (F a) (rest.map (Token.shift d)) = moved d G (g a rest)) :
    andThen y k = moved d G (andThen x g) := by
  subst hx
  obtain ⟨e | a, rest⟩ := x
  · rfl
  · exact hg a rest rfl

end Reading

namespace Form

open Reading

variable {r r' : Nat} {d : Displacement} {m : Site → Site}

/-- Forms of one reading that are moved on are forms of another reading. -/
structure Moves (m : Site → Site) (r r' : Nat) (d : Displacement) : Prop where
  span : ∀ s, (m s).span = s.span.shift d
  site : ∀ span, m (.ofSpan r span) = .ofSpan r' (span.shift d)

theorem moves_shift (r : Nat) (d : Displacement) : Moves (Site.shift d) r r d :=
  ⟨fun _ => rfl, fun _ => rfl⟩

theorem ofLiteral_moved (hm : Moves m r r' d) (kind : Literal) (t : Token) (ts : List Token) :
    (ofLiteral r' kind (t.shift d), ts.map (Token.shift d)) =
      moved d (mapSites m) (ofLiteral r kind t, ts) := by
  unfold ofLiteral
  rw [Token.text_shift]
  split
  · show _ = (Except.ok (Form.literal (m (.ofSpan r t.span)) kind t.text), _)
    rw [hm.site]
    rfl
  · rfl

theorem ofShorthand_moved (hm : Moves m r r' d) (t : Token) (mark : Shorthand)
    (operands : List Form) :
    ofShorthand r' (t.shift d) mark (operands.map (mapSites m)) =
      (ofShorthand r t mark operands).mapSites m := by
  -- Each operand widens the span that the mark begins with.
  have hspan : ∀ span : Span, (operands.map (mapSites m)).foldl (fun s f => s.merge f.span)
      (span.shift d) = (operands.foldl (fun s f => s.merge f.span) span).shift d := by
    induction operands with
    | nil => exact fun _ => rfl
    | cons f fs ih =>
      intro span
      have hf : (f.mapSites m).span = f.span.shift d := by
        rw [Form.span, site_mapSites, hm.span]
        rfl
      rw [List.map_cons, List.foldl_cons, List.foldl_cons, hf, Span.merge_shift, ih]
  show Form.list (.ofSpan r' _) _ _ = Form.list (m (.ofSpan r _)) _ _
  rw [Token.span_shift, hspan, hm.site, mapSitesAll_eq_map]

/-- At each step, what is read from tokens that are moved on is moved on, and so are faults. -/
theorem moves_steps (hm : Moves m r r' d) :
    (∀ t ts, (read r' (t.shift d) (ts.map (Token.shift d))).result =
      moved d (mapSites m) (read r t ts).result) ∧
    (∀ t mark ts, (readOperand r' (t.shift d) mark (ts.map (Token.shift d))).result =
      moved d (mapSites m) (readOperand r t mark ts).result) ∧
    ∀ opener b ts, (readSequence r' (opener.shift d) b (ts.map (Token.shift d))).result =
      moved d (fun p => (p.1.map (mapSites m), p.2.shift d))
        (readSequence r opener b ts).result := by
  apply reading_induction r
  case illegal =>
    intro t ts hk
    rw [result_read_illegal hk, result_read_illegal (t := t.shift d) hk]
    rfl
  case comment =>
    intro t ts hk
    rw [result_read_comment hk, result_read_comment (t := t.shift d) hk]
    show (Except.ok (Form.comment (.ofSpan r' (t.span.shift d)) t.text), _) = _
    rw [← hm.site]
    rfl
  case symbol =>
    intro t ts hk
    rw [result_read_symbol hk, result_read_symbol (t := t.shift d) hk]
    show (Except.ok (Form.symbol (.ofSpan r' (t.span.shift d)) t.text), _) = _
    rw [← hm.site]
    rfl
  case literal =>
    intro t ts kind hk
    rw [result_read_literal hk, result_read_literal (t := t.shift d) hk]
    exact ofLiteral_moved hm kind t ts
  case closing =>
    intro t ts b hk
    rw [result_read_closing hk, result_read_closing (t := t.shift d) hk]
    rfl
  case eof =>
    intro t ts hk
    rw [result_read_eof hk, result_read_eof (t := t.shift d) hk]
    rfl
  case opening =>
    intro t ts b hk ih
    rw [result_read_opening hk, result_read_opening (t := t.shift d) hk]
    refine moved_andThen ih fun p rest _ => ?_
    -- The span of the form goes on to where the closing bracket ends, and that is moved on too.
    show (Except.ok (ofBracket (.ofSpan r' (Span.shift d ⟨t.span.start, p.2⟩)) _ b), _) = _
    rw [← hm.site, ← mapSites_ofBracket]
    rfl
  case shorthand =>
    intro t ts mark hk hmark ih
    rw [result_read_shorthand hk hmark, result_read_shorthand (t := t.shift d) hk hmark]
    refine moved_andThen ih fun operand rest _ => ?_
    exact congrArg (fun f => (Except.ok f, _)) (ofShorthand_moved hm t mark [operand])
  case withMeta =>
    intro t ts hk ihNote ihTarget
    rw [result_read_withMeta hk, result_read_withMeta (t := t.shift d) hk]
    refine moved_andThen ihNote fun note rest h => ?_
    refine moved_andThen (ihTarget note rest h) fun target rest _ => ?_
    exact congrArg (fun f => (Except.ok f, _)) (ofShorthand_moved hm t .withMeta [target, note])
  case operandEnd =>
    intro t mark
    rw [List.map_nil, result_readOperand_nil, result_readOperand_nil]
    rfl
  case operandComment =>
    intro t mark u us hk ih
    rw [List.map_cons, result_readOperand_cons, result_readOperand_cons, if_pos hk,
      if_pos (by exact hk), ih]
  case operandForm =>
    intro t mark u us hk ih
    rw [List.map_cons, result_readOperand_cons, result_readOperand_cons, if_neg hk,
      if_neg (by exact hk), ih]
  case sequenceEnd =>
    intro opener b
    rw [List.map_nil, result_readSequence_nil, result_readSequence_nil]
    rfl
  case sequenceClose =>
    intro opener b t ts hk
    rw [List.map_cons, result_readSequence_cons, result_readSequence_cons, if_pos hk,
      if_pos (by exact hk)]
    rfl
  case sequenceForm =>
    intro opener b t ts hk ihFirst ihRest
    rw [List.map_cons, result_readSequence_cons, result_readSequence_cons, if_neg hk,
      if_neg (by exact hk)]
    refine moved_andThen ihFirst fun f rest h => ?_
    exact moved_andThen (ihRest f rest h) fun p rest _ => rfl

/-- All forms that are read from tokens that are moved on are moved on. -/
theorem readAll_moved (hm : Moves m r r' d) (ts : List Token) :
    readAll r' (ts.map (Token.shift d)) = match readAll r ts with
      | .ok fs => .ok (fs.map (mapSites m))
      | .error e => .error (e.shift d) := by
  induction ts using readAll_induction (r := r) with
  | nil =>
    rw [List.map_nil, readAll, readAll]
    rfl
  | cons t ts ih =>
    have hstep := (moves_steps hm).1 t ts
    generalize hread : (read r t ts).result = x at hstep
    obtain ⟨e | f, rest⟩ := x
    · rw [List.map_cons, readAll_cons_error hread, readAll_cons_error hstep]
    · rw [List.map_cons, readAll_cons_ok hread, readAll_cons_ok hstep, ih f rest hread]
      cases readAll r rest <;> rfl

/-! ## Reading on -/

/-- Tokens after those of some forms are read after them. -/
theorem readAll_append {ts : List Token} {fs : List Form} (h : readAll r ts = .ok fs)
    (us : List Token) : readAll r (ts ++ us) = (readAll r us).map (fs ++ ·) := by
  induction ts using readAll_induction (r := r) generalizing fs with
  | nil =>
    rw [readAll] at h
    cases h
    rw [List.nil_append]
    cases readAll r us <;> rfl
  | cons t ts ih =>
    generalize hread : (read r t ts).result = x
    obtain ⟨e | f, rest⟩ := x
    · rw [readAll_cons_error hread] at h
      cases h
    · rw [readAll_cons_ok hread] at h
      cases hrest : readAll r rest with
      | error e =>
        rw [hrest] at h
        cases h
      | ok gs =>
        rw [hrest] at h
        cases h
        -- The first form has been read before the new tokens come into sight.
        have hsame := (extends_steps r).1 t ts (by simp only [hread]; rfl) us
        simp only [hread] at hsame
        rw [List.cons_append, readAll_cons_ok hsame, ih f rest hread hrest]
        cases readAll r us <;> rfl

end Form

namespace Program

variable {a b : String} {reading reading' : Nat} {p : Program} {m : Site → Site}

/-- After the forms of its first lines, a text has those of the others, moved on. -/
theorem parse_append (ha : parse a reading' = .ok p)
    (hm : Form.Moves m reading reading' (.past a)) :
    parse (a ++ "\n" ++ b) reading' = match parse b reading with
      | .ok q => .ok ⟨p.forms ++ q.forms.map (Form.mapSites m)⟩
      | .error e => .error (e.shift (.past a)) := by
  rw [parse, parse, tokenize_lines, Form.readAll_append (parse_eq_ok_iff.1 ha),
    Form.readAll_moved hm]
  cases Form.readAll reading (tokenize b) <;> rfl

/-- **A text is read line by line.** The tokens of two texts with a line feed between them are those
of the first one and those of the second one, moved on past the first. If the first one is a
program, the forms are moved on likewise, or else the fault of the second one is. -/
theorem parse_lines (a b : String) (reading : Nat) :
    tokenize (a ++ "\n" ++ b) = tokenize a ++ (tokenize b).map (Token.shift (.past a)) ∧
    ∀ p, parse a reading = .ok p →
      parse (a ++ "\n" ++ b) reading = match parse b reading with
        | .ok q => .ok ⟨p.forms ++ q.forms.map (Form.shift (.past a))⟩
        | .error e => .error (e.shift (.past a)) :=
  ⟨tokenize_lines a b, fun _ ha => parse_append ha (Form.moves_shift reading _)⟩

/-- A line that ends inside a string, after a backslash, and a line that opens a bracket. -/
theorem parse_lines_cut_string :
    (∃ p, parse "'é \"x\\" = .ok p) ∧
      parse ("'é \"x\\" ++ "\n" ++ " (") =
        .error (.unexpectedEnd ⟨⟨9, 2, 1⟩, ⟨10, 2, 2⟩⟩ .paren) := by
  have hfirst : parse "'é \"x\\" = .ok ⟨[.list (.ofSpan 0 ⟨⟨0, 1, 0⟩, ⟨3, 1, 3⟩⟩) (some .quote)
      [.symbol (.ofSpan 0 ⟨⟨1, 1, 1⟩, ⟨3, 1, 3⟩⟩) "é"],
      .literal (.ofSpan 0 ⟨⟨4, 1, 4⟩, ⟨7, 1, 7⟩⟩) .string "\"x\\"]⟩ := by cbv
  have hsecond : parse " (" = .error (.unexpectedEnd ⟨⟨1, 1, 1⟩, ⟨2, 1, 2⟩⟩ .paren) := by cbv
  have hboth := (parse_lines "'é \"x\\" " (" 0).2 _ hfirst
  rw [hsecond] at hboth
  exact ⟨⟨_, hfirst⟩, hboth⟩

end Program

end Lisp
