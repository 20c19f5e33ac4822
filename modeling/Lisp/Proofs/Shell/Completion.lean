import Lisp.Proofs.Scope.Names
import Lisp.Proofs.Session.Named
import Lisp.Proofs.Token.Tiling
import Lisp.Shell.Completion

/-!
# Completions complete a symbol to a name

- `EndsInSymbol`: a text whose last token is a symbol that nothing follows. This is what stands
  before the cursor where there is something to complete (`symbolBefore?_eq_some_iff`).
- `Scanner.EndsInSymbol.append`: a symbol at the end of a text goes on to a longer one. All tokens
  before it stay as they are.
- `mem_extensions_iff`, `Session.mem_identifiers_iff`: what can be added, and the names to choose
  from. They are all symbols.
- `completions_exact`: the completions are exactly what turns the symbol into a name.
-/

namespace Lisp

/-! ## What stands before the cursor -/

/-- The last token of what is left of a text is a symbol of this name, and nothing follows it. -/
def Scanner.EndsInSymbol (s : Scanner) (name : String) : Prop :=
  ∃ t, s.tokens.getLast? = some t ∧ t.kind = .symbol ∧ t.text = name ∧
    t.span.stop.offset = s.ending.offset

/-- The last token of a text is a symbol of this name, and ends where the text ends. -/
def EndsInSymbol (text name : String) : Prop :=
  ∃ t, (tokenize text).getLast? = some t ∧ t.kind = .symbol ∧ t.text = name ∧
    t.span.stop.offset = text.utf8ByteSize

theorem endsInSymbol_iff {text name : String} :
    EndsInSymbol text name ↔ (Scanner.ofString text).EndsInSymbol name := by
  have hending : (Scanner.ofString text).ending.offset = text.utf8ByteSize := by
    show (Position.start.advanceOver text.toList).offset = _
    rw [Position.offset_advanceOver_start, length_bytesOf, String.ofList_toList]
  unfold EndsInSymbol Scanner.EndsInSymbol
  rw [hending]
  rfl

/-- As many bytes as the beginning of a text has are that beginning. -/
theorem takeBytes_append (cs ds : List Char) :
    takeBytes (bytesOf cs).length (cs ++ ds) = cs := by
  induction cs with
  | nil =>
    cases ds with
    | nil => rfl
    | cons d ds => exact if_neg (Nat.not_le.2 (Char.utf8Size_pos d))
  | cons c cs ih =>
    have hlength : (bytesOf (c :: cs)).length = c.utf8Size + (bytesOf cs).length := by
      simp [bytesOf]
    rw [hlength, List.cons_append, takeBytes, if_pos (Nat.le_add_right _ _),
      Nat.add_sub_cancel_left, ih]

/-- The symbol that ends at the cursor is the one that the text before the cursor ends in. -/
theorem symbolBefore?_eq_some_iff {front back name : String} :
    symbolBefore? (front ++ back) front.utf8ByteSize = some name ↔ EndsInSymbol front name := by
  have hfront : takeBytes front.utf8ByteSize (front ++ back).toList = front.toList := by
    have htake := takeBytes_append front.toList back.toList
    rwa [length_bytesOf, String.ofList_toList, ← String.toList_append] at htake
  unfold symbolBefore? EndsInSymbol
  rw [hfront, String.ofList_toList]
  cases (tokenize front).getLast? with
  | none => simp
  | some t =>
    by_cases hends : t.kind = .symbol ∧ t.span.stop.offset = front.utf8ByteSize
    · simp [hends]
    · simp only [if_neg hends, reduceCtorEq, Option.some.injEq, exists_eq_left', false_iff]
      exact fun h => hends ⟨h.1, h.2.2⟩

/-! ## A symbol that goes on -/

/-- Only nothing takes no room. -/
theorem Position.eq_nil_of_offset_eq {p : Position} {cs : List Char}
    (h : (p.advanceOver cs).offset = p.offset) : cs = [] := by
  cases cs with
  | nil => rfl
  | cons c cs =>
    have hfirst := p.offset_lt_advance c
    have hmore := (p.advance c).offset_le_advanceOver cs
    rw [advanceOver_cons] at h
    omega

namespace Scanner

variable {c : Char} {cs : List Char} {p : Position} {name rest : String}

theorem not_endsInSymbol_nil : ¬EndsInSymbol ⟨[], p⟩ name := by
  rintro ⟨t, hlast, -⟩
  rw [tokens_nil] at hlast
  cases hlast

theorem endsInSymbol_skipped (hc : isSkipped c = true) :
    EndsInSymbol ⟨c :: cs, p⟩ name ↔ EndsInSymbol ⟨cs, p.advance c⟩ name := by
  unfold EndsInSymbol
  rw [tokens_skipped hc]
  rfl

/-- The symbol is behind the first token, or it is the first token and nothing is behind it. -/
theorem endsInSymbol_token (hc : isSkipped c = false) :
    EndsInSymbol ⟨c :: cs, p⟩ name ↔
      EndsInSymbol ⟨(Lexeme.scan c cs).rest, p.advanceOver (Lexeme.scan c cs).text⟩ name ∨
        (Lexeme.scan c cs).kind = .symbol ∧ String.ofList (Lexeme.scan c cs).text = name ∧
          (Lexeme.scan c cs).rest = [] := by
  have hending := ending_next ⟨c :: cs, p⟩
  rw [next_cons hc] at hending
  unfold EndsInSymbol
  rw [tokens_cons hc, ← hending]
  cases htokens : tokens ⟨(Lexeme.scan c cs).rest, p.advanceOver (Lexeme.scan c cs).text⟩ with
  | cons u us =>
    -- There are tokens behind the first one, so that the last token is one of them.
    rw [List.getLast?_cons_cons]
    refine ⟨.inl, fun h => h.resolve_right ?_⟩
    rintro ⟨-, -, hrest⟩
    rw [hrest, tokens_nil] at htokens
    cases htokens
  | nil =>
    constructor
    · rintro ⟨t, hlast, hkind, htext, hstop⟩
      cases hlast
      exact .inr ⟨hkind, htext, Position.eq_nil_of_offset_eq hstop.symm⟩
    · rintro (⟨t, hlast, -⟩ | ⟨hkind, htext, hrest⟩)
      · cases hlast
      · exact ⟨_, rfl, hkind, htext, by rw [hrest]; rfl⟩

theorem EndsInSymbol.tokens_ne_nil (h : EndsInSymbol ⟨cs, p⟩ name) : tokens ⟨cs, p⟩ ≠ [] := by
  obtain ⟨t, hlast, -⟩ := h
  exact List.ne_nil_of_mem (List.mem_of_getLast? hlast)

/-- A symbol at the end of a text goes on to a longer symbol, and the tokens before it stay. -/
theorem EndsInSymbol.append (h : EndsInSymbol ⟨cs, p⟩ name)
    (hstands : Lexeme.Stands .symbol (name ++ rest).toList) :
    EndsInSymbol ⟨cs ++ rest.toList, p⟩ (name ++ rest) ∧
      (tokens ⟨cs ++ rest.toList, p⟩).dropLast = (tokens ⟨cs, p⟩).dropLast := by
  induction cs using text_induction generalizing p with
  | nil => exact absurd h not_endsInSymbol_nil
  | skipped c cs hc ih =>
    rw [List.cons_append, endsInSymbol_skipped hc, tokens_skipped hc, tokens_skipped hc]
    exact ih ((endsInSymbol_skipped hc).1 h)
  | token c cs hc ih =>
    obtain ⟨t, htext, hsplit⟩ := Lexeme.scan_split c cs
    rw [List.cons_append, endsInSymbol_token hc, tokens_cons hc, tokens_cons hc]
    rcases (endsInSymbol_token hc).1 h with hbehind | ⟨hkind, hname, hrest⟩
    · -- Something follows the first token, so that it ends where it did before.
      have hends : EndsAlike (Lexeme.scan c cs).kind (Lexeme.scan c cs).rest
          ((Lexeme.scan c cs).rest ++ rest.toList) := by
        cases hrest : (Lexeme.scan c cs).rest with
        | nil =>
          rw [hrest] at hbehind
          exact absurd hbehind not_endsInSymbol_nil
        | cons d after => exact .head rfl
      have hscan := Lexeme.scan_endsAlike (t := t) (by rw [← htext]) hends
      rw [← List.append_assoc, hsplit] at hscan
      obtain ⟨hlonger, hbefore⟩ := ih hbehind
      rw [hscan, ← htext, List.dropLast_cons_of_ne_nil hlonger.tokens_ne_nil,
        List.dropLast_cons_of_ne_nil hbehind.tokens_ne_nil, hbefore]
      exact ⟨.inl hlonger, rfl⟩
    · -- The first token is the symbol.
      rw [hrest, List.append_nil] at hsplit
      obtain ⟨d, u, hlonger, -, hscan⟩ := hstands
      rw [String.toList_append, ← hname, String.toList_ofList, htext, hsplit] at hlonger hscan
      obtain ⟨rfl, hu⟩ := List.cons.inj hlonger
      have hwhole :
          Lexeme.scan c (cs ++ rest.toList) = ⟨.symbol, c :: (cs ++ rest.toList), []⟩ := by
        simpa [← hu] using hscan [] (.nil _)
      have hgrown : String.ofList (c :: (cs ++ rest.toList)) = name ++ rest := by
        rw [← hname, htext, hsplit, ← String.toList_inj]
        simp
      rw [hwhole, hrest, tokens_nil, tokens_nil]
      exact ⟨.inr ⟨rfl, hgrown, rfl⟩, rfl⟩

end Scanner

/-! ## What can be added -/

theorem afterBeginning?_eq_some_iff {as cs rest : List Char} :
    afterBeginning? as cs = some rest ↔ cs = as ++ rest := by
  induction as generalizing cs with
  | nil => simp [afterBeginning?]
  | cons a as ih =>
    cases cs with
    | nil => simp [afterBeginning?]
    | cons c cs =>
      by_cases ha : a = c
      · simp [afterBeginning?, ha, ih]
      · simp [afterBeginning?, ha, Ne.symm ha]

/-- What can be added to a beginning makes one of the names of it, and is not empty. -/
theorem mem_extensions_iff {names : List String} {beginning rest : String} :
    rest ∈ extensions names beginning ↔ rest ≠ "" ∧ beginning ++ rest ∈ names := by
  have hafter : ∀ name : String, afterBeginning? beginning.toList name.toList = some rest.toList ↔
      name = beginning ++ rest := by
    intro name
    rw [afterBeginning?_eq_some_iff, ← String.toList_append, String.toList_inj]
  have hempty : rest ≠ "" ↔ rest.toList ≠ [] := by simp
  rw [extensions, Arena.mem_sortNames, List.mem_map, hempty]
  constructor
  · rintro ⟨cs, hcs, rfl⟩
    obtain ⟨hmem, hne⟩ := List.mem_filter.1 hcs
    obtain ⟨name, hname, heq⟩ := List.mem_filterMap.1 hmem
    rw [String.toList_ofList] at hafter ⊢
    exact ⟨of_decide_eq_true hne, (hafter name).1 heq ▸ hname⟩
  · rintro ⟨hne, hname⟩
    have hmem : rest.toList ∈
        names.filterMap fun name => afterBeginning? beginning.toList name.toList :=
      List.mem_filterMap.2 ⟨_, hname, (hafter _).2 rfl⟩
    exact ⟨_, List.mem_filter.2 ⟨hmem, decide_eq_true hne⟩, String.ofList_toList⟩

namespace Session

variable {s : Session} {name : String}

/-- The names to choose from are those with a global value, and those of the special forms. -/
theorem mem_identifiers_iff :
    name ∈ s.identifiers ↔
      (s.lookup name).isSome = true ∨ ∃ form : SpecialForm, name = form.name := by
  have hall : ∀ form : SpecialForm, form ∈ SpecialForm.all := by
    intro form
    cases form <;> decide
  rw [identifiers, Arena.mem_sortNames, List.mem_append, Arena.mem_identifiers_iff, specialForms,
    Arena.mem_sortNames, List.mem_map]
  refine or_congr Iff.rfl ⟨?_, ?_⟩
  · rintro ⟨form, -, rfl⟩
    exact ⟨form, rfl⟩
  · rintro ⟨form, rfl⟩
    exact ⟨form, hall form, rfl⟩

/-- All of these names are symbols. -/
theorem Named.stands_of_mem_identifiers (hs : s.Named) (h : name ∈ s.identifiers) :
    Lexeme.Stands .symbol name.toList := by
  rcases mem_identifiers_iff.1 h with hbound | ⟨form, rfl⟩
  · exact hs.stands hbound
  · exact form.stands_name

end Session

/-- **Completions are exact.** Whatever a session has evaluated and wherever the cursor is between
two characters of a line: if the last token before the cursor is a symbol that ends at the cursor,
the completions are in order, each once, and they are exactly the texts, but the empty one, that
make a name of it, which is one with a global value or that of a special form. With any of them
added, the last token is a symbol of that name, and the tokens before it stay. If there is no such
token, there are no completions. -/
theorem completions_exact {sink : Sink} {s : Session} (hs : Session.Reached sink s)
    (front back : String) :
    (∀ name, EndsInSymbol front name →
      (completions s (front ++ back) front.utf8ByteSize).Pairwise (· < ·) ∧
      (∀ rest, rest ∈ completions s (front ++ back) front.utf8ByteSize ↔
        rest ≠ "" ∧ ((s.lookup (name ++ rest)).isSome = true ∨
          ∃ form : SpecialForm, name ++ rest = form.name)) ∧
      ∀ rest ∈ completions s (front ++ back) front.utf8ByteSize,
        EndsInSymbol (front ++ rest) (name ++ rest) ∧
          (tokenize (front ++ rest)).dropLast = (tokenize front).dropLast) ∧
    ((¬∃ name, EndsInSymbol front name) →
      completions s (front ++ back) front.utf8ByteSize = []) := by
  constructor
  · intro name hname
    have hcompletions : completions s (front ++ back) front.utf8ByteSize =
        extensions s.identifiers name := by
      rw [completions, symbolBefore?_eq_some_iff.2 hname]
    rw [hcompletions]
    refine ⟨Arena.pairwise_sortNames _, fun rest => ?_, fun rest hrest => ?_⟩
    · rw [mem_extensions_iff, Session.mem_identifiers_iff]
    · have hstands := (Session.named_of_reached hs).stands_of_mem_identifiers
        (mem_extensions_iff.1 hrest).2
      have hlonger := (endsInSymbol_iff.1 hname).append hstands
      rw [endsInSymbol_iff, tokenize, Scanner.ofString, String.toList_append]
      exact hlonger
  · intro hnone
    cases hbefore : symbolBefore? (front ++ back) front.utf8ByteSize with
    | none => rw [completions, hbefore]
    | some name => exact absurd ⟨name, symbolBefore?_eq_some_iff.1 hbefore⟩ hnone

/-- A session in which `prime` is 7. -/
def primeSession : Session :=
  ((Session.new {}).evalSourceWith Session.isCrowded 3 "(def! prime 7)").2

/-- The symbol before the cursor goes on to a name that the session has defined. Behind a blank
there is nothing to complete. -/
theorem completions_exact_defined :
    Session.Reached {} primeSession ∧ EndsInSymbol "(pr" "pr" ∧
      "ime" ∈ completions primeSession ("(pr" ++ " 2)") "(pr".utf8ByteSize ∧
      EndsInSymbol ("(pr" ++ "ime") ("pr" ++ "ime") ∧
      completions primeSession ("(prn " ++ "2)") "(prn ".utf8ByteSize = [] := by
  have hs : Session.Reached {} primeSession := .evalSource _ _ _ .new
  have htokens : tokenize "(pr" = [⟨.opening .paren, "(", ⟨⟨0, 1, 0⟩, ⟨1, 1, 1⟩⟩⟩,
      ⟨.symbol, "pr", ⟨⟨1, 1, 1⟩, ⟨3, 1, 3⟩⟩⟩] := by cbv
  have hpr : EndsInSymbol "(pr" "pr" := ⟨_, by rw [htokens]; rfl, rfl, rfl, rfl⟩
  have hgap : ¬∃ name, EndsInSymbol "(prn " name := by
    have htokens : tokenize "(prn " = [⟨.opening .paren, "(", ⟨⟨0, 1, 0⟩, ⟨1, 1, 1⟩⟩⟩,
        ⟨.symbol, "prn", ⟨⟨1, 1, 1⟩, ⟨4, 1, 4⟩⟩⟩] := by cbv
    rintro ⟨name, t, hlast, -, -, hstop⟩
    rw [htokens] at hlast
    cases hlast
    exact absurd hstop (by decide)
  have hdefined : (primeSession.lookup ("pr" ++ "ime")).isSome = true := by cbv
  obtain ⟨-, hmem, hlonger⟩ := (completions_exact hs "(pr" " 2)").1 "pr" hpr
  have hcompletes := (hmem "ime").2 ⟨by decide, .inl hdefined⟩
  exact ⟨hs, hpr, hcompletes, (hlonger "ime" hcompletes).1,
    (completions_exact hs "(prn " "2)").2 hgap⟩

end Lisp
