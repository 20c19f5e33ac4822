import Lisp.Proofs.Form.Canonical
import Lisp.Proofs.Form.Place
import Lisp.Proofs.Form.Slice
import Lisp.Proofs.Token.Spacing

/-!
# Blanks only separate forms

What is read from the tokens of a text depends on their places only in the places that forms and
faults have themselves.

- `ReadError.blaming`: a fault of another stretch of text.
- `Pending.Scan.relocate`: a scan of tokens that are put elsewhere ends with the same fault, which
  blames the same token there.
- `Program.parse_relocate`: what is read from the tokens of a text when they are those of another
  text, put elsewhere.
- `Program.parse_respaced`: so a text with other blanks is read as the same program, or has the same
  fault.
-/

namespace Lisp

/-- A fault of the same kind, of another stretch of text. -/
def ReadError.blaming (s : Span) : ReadError → ReadError
  | illegalToken text _ => illegalToken text s
  | unexpectedEnd _ expected => unexpectedEnd s expected
  | unexpectedToken found _ => unexpectedToken found s
  | invalidNumber text _ => invalidNumber text s
  | missingOperand mark _ => missingOperand mark s

/-- A fault of a text whose tokens are put elsewhere. -/
def ReadError.relocate (starts stops : Position → Position) (e : ReadError) : ReadError :=
  e.blaming (e.span.relocate starts stops)

/-! ## Scans of tokens that are put elsewhere -/

namespace Pending

variable {stack : List Pending} {t : Token} {ts : List Token} {e : ReadError}
  {o : Option ReadError} (starts stops : Position → Position)

/-- Something that is begun with a token that is put elsewhere. -/
def relocate : Pending → Pending
  | bracket opener b => bracket (opener.relocate starts stops) b
  | mark t m missing => mark (t.relocate starts stops) m missing

theorem fault_relocate (top : Pending) :
    (top.relocate starts stops).fault = top.fault.relocate starts stops := by
  cases top <;> rfl

theorem complete_relocate (stack : List Pending) :
    complete (stack.map (relocate starts stops)) =
      (complete stack).map (relocate starts stops) := by
  induction stack with
  | nil => rfl
  | cons top stack ih =>
    cases top with
    | bracket opener b => rfl
    | mark t m missing =>
      match missing with
      | 0 | 1 => exact ih
      | n + 2 => rfl

theorem push_relocate (stack : List Pending) (t : Token) :
    push (stack.map (relocate starts stops)) (t.relocate starts stops) =
      (push stack t).map (relocate starts stops) := by
  obtain ⟨kind, text, span⟩ := t
  cases kind with
  | closing b =>
    have := complete_relocate starts stops stack.tail
    rwa [List.map_tail] at this
  | symbol | literal => exact complete_relocate starts stops stack
  | opening | shorthand | comment | illegal | eof => rfl

/-- A token that is put elsewhere is refused there, and for the same reason. -/
theorem refuses_relocate_iff :
    Refuses (stack.map (relocate starts stops)) (t.relocate starts stops) e ↔
      ∃ e', Refuses stack t e' ∧ e = e'.relocate starts stops := by
  have hopen : ∀ b, (∀ opener rest,
        stack.map (relocate starts stops) ≠ bracket opener b :: rest) ↔
      ∀ opener rest, stack ≠ bracket opener b :: rest := by
    intro b
    rcases stack with _ | ⟨_ | _, stack⟩ <;> simp [relocate]
  constructor
  · intro h
    cases h with
    | illegal hk => exact ⟨_, .illegal hk, rfl⟩
    | closing hk hstack => exact ⟨_, .closing hk ((hopen _).1 hstack), rfl⟩
    | integer hk hrange => exact ⟨_, .integer hk hrange, rfl⟩
  · rintro ⟨e', h, rfl⟩
    cases h with
    | illegal hk => exact .illegal (t := t.relocate starts stops) hk
    | closing hk hstack =>
      exact .closing (t := t.relocate starts stops) hk ((hopen _).2 hstack)
    | integer hk hrange => exact .integer (t := t.relocate starts stops) hk hrange

/-- A scan of tokens that are put elsewhere ends with the same fault, which blames what is there. -/
theorem Scan.relocate (h : Scan stack ts o) :
    Scan (stack.map (relocate starts stops)) (ts.map (Token.relocate starts stops))
      (o.map (ReadError.relocate starts stops)) := by
  induction h with
  | finished => exact .finished
  | pending top stack =>
    rw [Option.map_some, ← fault_relocate]
    exact .pending _ _
  | @refused stack t ts e hr =>
    exact .refused ((refuses_relocate_iff starts stops).2 ⟨e, hr, rfl⟩)
  | @taken stack t ts o hno _ ih =>
    rw [← push_relocate] at ih
    refine .taken (fun e he => ?_) ih
    obtain ⟨e', he', -⟩ := (refuses_relocate_iff starts stops).1 he
    exact hno e' he'

end Pending

/-! ## Texts whose tokens are those of another text -/

/-- Where a form comes from does not matter to what it is apart from that. -/
theorem Form.bare_mapSites (m : Site → Site) (f : Form) : (f.mapSites m).bare = f.bare := by
  induction f using elementwise with
  | h f ih =>
    cases f with
    | comment | symbol | literal => rfl
    | vector s es | map s es | list s mark es =>
      have helements : (es.map (mapSites m)).map bare = es.map bare := by
        rw [List.map_map]
        exact List.map_congr_left ih
      simp only [mapSites, bare, mapSitesAll_eq_map, bareAll_eq_map, helements]

namespace Program

variable {source text : String}

/-- What is read from the tokens of a text when they are those of another text, put elsewhere. -/
theorem parse_relocate {starts stops : Position → Position}
    (h : tokenize text = (tokenize source).map (Token.relocate starts stops))
    (reading reading' : Nat) :
    parse text reading' = match parse source reading with
      | .ok p => .ok ⟨p.forms.map (Form.relocate reading' starts stops)⟩
      | .error e => .error (e.relocate starts stops) := by
  cases hparse : parse source reading with
  | ok p =>
    obtain ⟨parts, hparts, htokens, hforms⟩ := derives_of_parse hparse
    let put : List Token × Form → List Token × Form := fun q =>
      (q.1.map (Token.relocate starts stops), q.2.relocate reading' starts stops)
    refine parse_of_derives ⟨parts.map put, fun q hq => ?_, ?_, ?_⟩
    · obtain ⟨q', hq', rfl⟩ := List.mem_map.1 hq
      exact (hparts q' hq').relocate reading' starts stops
    · rw [h, htokens, List.map_flatMap, List.flatMap_map]
    · show p.forms.map _ = _
      rw [hforms, List.map_map, List.map_map]
      rfl
  | error e =>
    have hscan := (parse_error_iff_scan.1 hparse).relocate starts stops
    rw [List.map_nil, ← h, Option.map_some] at hscan
    exact parse_error_iff_scan.2 hscan

/-- **Blanks only separate.** A text with the tokens of a source text and with other blanks around
them has the same words. It is read as the same program, apart from where the forms come from, or it
has the same fault, which blames the token that takes the place of the one that was to blame. -/
theorem parse_respaced (h : Respaced source text) (reading reading' : Nat) :
    (tokenize text).map Token.word = (tokenize source).map Token.word ∧
      (∀ p, parse source reading = .ok p → ∃ q, parse text reading' = .ok q ∧
        q.forms.map Form.bare = p.forms.map Form.bare) ∧
      (∀ e, parse source reading = .error e → ∃ (i : Nat) (t t' : Token),
        (tokenize source)[i]? = some t ∧ (tokenize text)[i]? = some t' ∧ e.span = t.span ∧
          parse text reading' = .error (e.blaming t'.span)) := by
  obtain ⟨starts, stops, htokens⟩ := tokenize_respaced h
  have hparse := parse_relocate htokens reading reading'
  refine ⟨h.words, fun p hp => ?_, fun e he => ?_⟩
  · rw [hp] at hparse
    refine ⟨_, hparse, ?_⟩
    rw [List.map_map]
    exact List.map_congr_left fun f _ => f.bare_mapSites _
  · obtain ⟨t, ht, hspan⟩ := exists_token_of_parse he
    obtain ⟨i, hi⟩ := List.mem_iff_getElem?.1 ht
    rw [he] at hparse
    refine ⟨i, t, t.relocate starts stops, hi, ?_, hspan, ?_⟩
    · rw [htokens, List.getElem?_map, hi, Option.map_some]
    · rw [hparse]
      show Except.error (e.blaming (e.span.relocate starts stops)) = _
      rw [hspan]
      rfl

/-- A bracket that closes nothing, between a closed string, a comment and an open string. -/
theorem parse_respaced_bracket :
    Respaced "12\"y\"];k\n\"x\\" ",12\n\"y\" ,] ;k\n \"x\\\n" ∧
      ∃ (i : Nat) (t t' : Token), (tokenize "12\"y\"];k\n\"x\\")[i]? = some t ∧
        (tokenize ",12\n\"y\" ,] ;k\n \"x\\\n")[i]? = some t' ∧
        t.span = ⟨⟨5, 1, 5⟩, ⟨6, 1, 6⟩⟩ ∧
        parse ",12\n\"y\" ,] ;k\n \"x\\\n" =
          .error (.unexpectedToken (.closing .square) t'.span) := by
  have htokens : tokenize "12\"y\"];k\n\"x\\" =
      [⟨.literal .int, "12", ⟨⟨0, 1, 0⟩, ⟨2, 1, 2⟩⟩⟩,
        ⟨.literal .string, "\"y\"", ⟨⟨2, 1, 2⟩, ⟨5, 1, 5⟩⟩⟩,
        ⟨.closing .square, "]", ⟨⟨5, 1, 5⟩, ⟨6, 1, 6⟩⟩⟩,
        ⟨.comment, ";k", ⟨⟨6, 1, 6⟩, ⟨8, 1, 8⟩⟩⟩,
        ⟨.literal .string, "\"x\\", ⟨⟨9, 2, 0⟩, ⟨12, 2, 3⟩⟩⟩] := by cbv
  have hclosed : Token.IsClosed ⟨.literal .string, "\"y\"", ⟨⟨2, 1, 2⟩, ⟨5, 1, 5⟩⟩⟩ := by
    refine ⟨['y'], by decide, ⟨by decide, fun front behind heq => ?_⟩, by decide⟩
    have hquote : '\x22' ∈ ['y'] := heq ▸ by simp
    exact absurd hquote (by decide)
  have hspaced : Token.Spaced (tokenize "12\"y\"];k\n\"x\\") ("12".toList ++ (['\n'] ++
      ("\"y\"".toList ++ ([' ', ','] ++ ("]".toList ++ ([' '] ++ (";k".toList ++ (['\n', ' '] ++
        ("\"x\\".toList ++ (['\n'] ++ [])))))))))) := by
    have hgap : ∀ {ts : List Token} {c : Char} {gap : List Char}, ts ≠ [] → c :: gap ≠ [] :=
      fun _ => List.cons_ne_nil _ _
    rw [htokens]
    refine .cons (by simp [isSkipped]) hgap (fun _ => .cons rfl _) ?_
    refine .cons (by simp [isSkipped]) hgap
      (fun hruns => absurd hruns (by simp [Token.RunsOn, hclosed])) ?_
    refine .cons (by simp [isSkipped]) hgap
      (fun hruns => absurd hruns (by simp [Token.RunsOn])) ?_
    refine .cons (by simp [isSkipped]) hgap (fun _ => .cons rfl _) ?_
    exact .cons (by simp [isSkipped]) hgap (fun _ => .cons rfl _) .nil
  have hrespaced : Respaced "12\"y\"];k\n\"x\\" ",12\n\"y\" ,] ;k\n \"x\\\n" :=
    ⟨[','], _, by simp [isSkipped], hspaced, by simp⟩
  have hparse : parse "12\"y\"];k\n\"x\\" =
      .error (.unexpectedToken (.closing .square) ⟨⟨5, 1, 5⟩, ⟨6, 1, 6⟩⟩) := by cbv
  obtain ⟨i, t, t', ht, ht', hspan, hfault⟩ := (parse_respaced hrespaced 0 0).2.2 _ hparse
  exact ⟨hrespaced, i, t, t', ht, ht', hspan.symm, hfault⟩

end Program

end Lisp
