import Mathlib
import Lisp.Proofs.Form.Grammar
import Lisp.Proofs.Form.Normal

/-!
# Canonical text is read back

- `Lexeme.Stands`: a text that is one token wherever a word can end after it.
- `Form.Lexical`: a form whose words are such texts, as those of every form that was read are
  (`Form.Derives.lexical`).
- `Form.Spells`: a text that is cut into tokens of a form. The canonical text of such a form spells
  its normal form (`Form.spells_text`), by recursion on the form.
- `Program.parse_text`: so the canonical text of a program is read as the program's normal form.
-/

namespace Lisp

/-! ## Words -/

/-- A text that is one token of a class wherever a word can end after it. -/
def Lexeme.Stands (kind : Token.Kind) (text : List Char) : Prop :=
  ∃ c t, text = c :: t ∧ isSkipped c = false ∧
    ∀ rest, Stops isWord rest → scan c (t ++ rest) = ⟨kind, text, rest⟩

/-- A text that was scanned as a token once is that token before the end of any word. -/
theorem Lexeme.stands_of_scan {c : Char} {cs t rest : List Char} {kind : Token.Kind}
    (h : scan c cs = ⟨kind, c :: t, rest⟩) (hc : isSkipped c = false) (hcomment : kind ≠ .comment)
    (hstring : kind ≠ .literal .string) : Stands kind (c :: t) :=
  ⟨c, t, rfl, hc, fun _ hrest => scan_endsAlike h (.word hcomment hstring hrest)⟩

theorem Lexeme.stands_self {c : Char} {t : List Char} {kind : Token.Kind}
    (h : scan c t = ⟨kind, c :: t, []⟩) (hc : isSkipped c = false) (hcomment : kind ≠ .comment)
    (hstring : kind ≠ .literal .string) : Stands kind (c :: t) :=
  stands_of_scan h hc hcomment hstring

theorem Token.Scanned.stands {t : Token} (h : t.Scanned) (hcomment : t.kind ≠ .comment)
    (hstring : t.kind ≠ .literal .string) : Lexeme.Stands t.kind t.text.toList := by
  obtain ⟨c, cs, hc, hkind, htext⟩ := h
  obtain ⟨u, hu, -⟩ := Lexeme.scan_split c cs
  rw [htext, String.toList_ofList, hu]
  rw [hkind] at hcomment hstring ⊢
  exact Lexeme.stands_of_scan (by rw [← hu]) hc hcomment hstring

/-- A written literal is one token wherever it stands. -/
theorem Lexeme.stands_quote (cs : List Char) : Stands (.literal .string) (Quoted.quote cs) := by
  refine ⟨'\x22', Quoted.escape cs ++ ['\x22'], rfl, by decide, fun rest _ => ?_⟩
  rw [List.append_assoc]
  exact scan_quote cs rest

/-- The name of a mark is a symbol. -/
theorem Lexeme.stands_name (mark : Shorthand) : Stands .symbol mark.name.toList := by
  cases mark <;> simp only [Shorthand.name, String.reduceToList] <;>
    exact stands_self rfl rfl nofun nofun

/-- Such a text is one token of the text that it begins. -/
theorem Scanner.tokens_stands {kind : Token.Kind} {cs rest : List Char} (h : Lexeme.Stands kind cs)
    (hrest : Stops isWord rest) (p : Position) :
    tokens ⟨cs ++ rest, p⟩ =
      (Lexeme.mk kind cs rest).token p :: tokens ⟨rest, p.advanceOver cs⟩ := by
  obtain ⟨c, t, rfl, hc, hscan⟩ := h
  rw [List.cons_append, tokens_cons hc, hscan rest hrest]

namespace Form

/-- A form whose words are tokens of the right classes. Of string literals and comments nothing is
asked, since the canonical text does not have them as they are. -/
inductive Lexical : Form → Prop
  | comment (s : Site) (text : String) : Lexical (.comment s text)
  | symbol (s : Site) {name : String} : Lexeme.Stands .symbol name.toList → Lexical (.symbol s name)
  | literal (s : Site) {kind : Literal} {raw : String} :
      (kind ≠ .string → Lexeme.Stands (.literal kind) raw.toList) →
      (kind = .int → Token.InRange raw) → Lexical (.literal s kind raw)
  | vector (s : Site) {es : List Form} : (∀ e ∈ es, Lexical e) → Lexical (.vector s es)
  | map (s : Site) {es : List Form} : (∀ e ∈ es, Lexical e) → Lexical (.map s es)
  | list (s : Site) (mark : Option Shorthand) {es : List Form} : (∀ e ∈ es, Lexical e) →
      Lexical (.list s mark es)

variable {r : Nat} {ts : List Token} {f : Form}

/-- The tokens of an element are among those of its sequence. -/
theorem lexical_of_parts {opener closer : Token} {parts : List (List Token × Form)}
    (hts : ∀ t ∈ opener :: (parts.flatMap Prod.fst ++ [closer]), t.Scanned)
    (h : ∀ q ∈ parts, (∀ t ∈ q.1, t.Scanned) → q.2.Lexical) :
    ∀ e ∈ parts.map Prod.snd, e.Lexical := by
  intro e he
  obtain ⟨q, hq, rfl⟩ := List.mem_map.1 he
  refine h q hq fun t ht => hts t ?_
  exact List.mem_cons_of_mem _ (List.mem_append_left _ (List.mem_flatMap.2 ⟨q, hq, ht⟩))

/-- The words of a form that is derived from tokens of a text are tokens. -/
theorem Derives.lexical (h : Derives r ts f) (hts : ∀ t ∈ ts, t.Scanned) : f.Lexical := by
  induction h with
  | comment hk => exact .comment _ _
  | @symbol t hk =>
    have hstands := (hts t (by simp)).stands (by rw [hk]; exact nofun) (by rw [hk]; exact nofun)
    exact .symbol _ (hk ▸ hstands)
  | @literal t kind hk hint =>
    refine .literal _ (fun hkind => ?_) hint
    have hstands := (hts t (by simp)).stands (by rw [hk]; exact nofun) (by simp [hk, hkind])
    exact hk ▸ hstands
  | list _ _ _ ih => exact .list _ _ (lexical_of_parts hts ih)
  | vector _ _ _ ih => exact .vector _ (lexical_of_parts hts ih)
  | map _ _ _ ih => exact .map _ (lexical_of_parts hts ih)
  | shorthand _ _ _ _ _ ih =>
    refine .list _ _ fun e he => ?_
    obtain rfl := List.mem_singleton.1 he
    exact ih fun t ht => hts t (by simp [ht])
  | withMeta _ _ _ _ _ _ _ ih ih' =>
    refine .list _ _ fun e he => ?_
    simp only [List.mem_cons, List.not_mem_nil, or_false] at he
    rcases he with rfl | rfl
    · exact ih' fun t ht => hts t (by simp [ht])
    · exact ih fun t ht => hts t (by simp [ht])

/-! ## Spelling -/

/-- A text that is cut into tokens of a form wherever a word can end after it. -/
def Spells (r : Nat) (cs : List Char) (f : Form) : Prop :=
  ∀ rest p, Stops isWord rest → ∃ ts g,
    Scanner.tokens ⟨cs ++ rest, p⟩ = ts ++ Scanner.tokens ⟨rest, p.advanceOver cs⟩ ∧
      Derives r ts g ∧ g.bare = f.bare

/-- A text that is cut into tokens of some forms. -/
def SpellsAll (r : Nat) (cs : List Char) (fs : List Form) : Prop :=
  ∀ rest p, Stops isWord rest → ∃ parts : List (List Token × Form),
    Scanner.tokens ⟨cs ++ rest, p⟩ =
      parts.flatMap Prod.fst ++ Scanner.tokens ⟨rest, p.advanceOver cs⟩ ∧
    (∀ q ∈ parts, Derives r q.1 q.2) ∧ (parts.map Prod.snd).map bare = fs.map bare

variable {cs cs' : List Char} {fs : List Form}

/-- One token spells a form that it makes up, wherever this form comes from. -/
theorem Spells.of_stands {kind : Token.Kind} (h : Lexeme.Stands kind cs)
    (hform : ∀ t : Token, t.kind = kind → t.text = String.ofList cs →
      ∃ g, Derives r [t] g ∧ g.bare = f.bare) : Spells r cs f := by
  intro rest p hrest
  obtain ⟨g, hg, hbare⟩ := hform ((Lexeme.mk kind cs rest).token p) rfl rfl
  exact ⟨[(Lexeme.mk kind cs rest).token p], g, Scanner.tokens_stands h hrest p, hg, hbare⟩

theorem spells_symbol {name : String} (h : Lexeme.Stands .symbol name.toList) (s : Site) :
    Spells r name.toList (symbol s name) := by
  refine .of_stands h fun t hk htext => ⟨_, .symbol hk, ?_⟩
  rw [htext, String.ofList_toList]
  rfl

theorem spells_literal {kind : Literal} {raw : String}
    (h : Lexeme.Stands (.literal kind) raw.toList) (hint : kind = .int → Token.InRange raw)
    (s : Site) : Spells r raw.toList (literal s kind raw) := by
  refine .of_stands h fun t hk htext => ?_
  rw [String.ofList_toList] at htext
  subst htext
  exact ⟨_, .literal hk hint, rfl⟩

theorem SpellsAll.nil : SpellsAll r [] [] := by
  intro rest p _
  exact ⟨[], rfl, nofun, rfl⟩

theorem Spells.single (h : Spells r cs f) : SpellsAll r cs [f] := by
  intro rest p hrest
  obtain ⟨ts, g, htokens, hg, hbare⟩ := h rest p hrest
  refine ⟨[(ts, g)], ?_, ?_, ?_⟩
  · rw [htokens]
    simp
  · simpa using hg
  · simpa using hbare

/-- Forms are spelled one after the other, with a character between their texts. -/
theorem SpellsAll.cons {sep : Char} (hsep : isSkipped sep = true) (h : Spells r cs f)
    (hs : SpellsAll r cs' fs) : SpellsAll r (cs ++ [sep] ++ cs') (f :: fs) := by
  intro rest p hrest
  -- The character in between ends the word before it, and is skipped.
  obtain ⟨parts, htokens', hparts, hbares⟩ := hs rest ((p.advanceOver cs).advance sep) hrest
  obtain ⟨ts, g, htokens, hg, hbare⟩ :=
    h (sep :: (cs' ++ rest)) p (.cons (isWord_of_isSkipped hsep) _)
  refine ⟨(ts, g) :: parts, ?_, List.forall_mem_cons.2 ⟨hg, hparts⟩, ?_⟩
  · have hsplit : cs ++ [sep] ++ cs' ++ rest = cs ++ sep :: (cs' ++ rest) := by simp
    rw [hsplit, htokens, Scanner.tokens_skipped hsep, htokens', List.flatMap_cons,
      Position.advanceOver_append, Position.advanceOver_append, List.append_assoc]
    rfl
  · rw [List.map_cons, List.map_cons, List.map_cons, hbare, hbares]

theorem spellsAll_intercalate {sep : Char} (hsep : isSkipped sep = true)
    {texts : List (List Char)} (h : List.Forall₂ (Spells r) texts fs) :
    SpellsAll r ([sep].intercalate texts) fs := by
  induction h with
  | nil => exact .nil
  | @cons text f texts fs hf hfs ih =>
    cases hfs with
    | nil => simpa using hf.single
    | cons hg hgs =>
      rw [List.intercalate_cons_cons]
      exact .cons hsep hf ih

theorem bare_ofBracket (s : Site) (fs : List Form) (b : Bracket) :
    (ofBracket s fs b).bare = ofBracket default (fs.map bare) b := by
  cases b <;> simp [ofBracket, bare, bareAll_eq_map]

/-- The text of some forms between brackets spells the sequence of them. -/
theorem SpellsAll.bracket (hs : SpellsAll r cs fs) (b : Bracket) (s : Site) :
    Spells r (b.opener :: (cs ++ [b.closer])) (ofBracket s fs b) := by
  intro rest p hrest
  have hopener : isSkipped b.opener = false ∧ Lexeme.single? b.opener = some (.opening b) := by
    cases b <;> decide
  have hcloser : isSkipped b.closer = false ∧ Lexeme.single? b.closer = some (.closing b) := by
    cases b <;> decide
  have hends : isWord b.closer = false := by
    cases b <;> decide
  obtain ⟨parts, htokens, hparts, hbares⟩ :=
    hs (b.closer :: rest) (p.advance b.opener) (.cons hends _)
  let opener := (Lexeme.mk (.opening b) [b.opener] (cs ++ b.closer :: rest)).token p
  let closer := (Lexeme.mk (.closing b) [b.closer] rest).token
    ((p.advance b.opener).advanceOver cs)
  have hd : Derives r (opener :: (parts.flatMap Prod.fst ++ [closer])) _ :=
    .bracket rfl rfl hparts
  refine ⟨_, _, ?_, hd, ?_⟩
  · have hsplit : b.opener :: (cs ++ [b.closer]) ++ rest =
        b.opener :: (cs ++ b.closer :: rest) := by simp
    rw [hsplit, Scanner.tokens_single hopener.2 hopener.1, htokens,
      Scanner.tokens_single hcloser.2 hcloser.1, List.cons_append, List.append_assoc,
      Position.advanceOver_cons, Position.advanceOver_append]
    rfl
  · rw [bare_ofBracket, bare_ofBracket, hbares]

/-! ## Canonical texts -/

/-- The texts of some forms, joined by spaces and put between brackets, spell the sequence. -/
theorem spells_bracketed (b : Bracket) {opener closer : String} (s : Site) {texts : List String}
    (hopener : opener.toList = [b.opener]) (hcloser : closer.toList = [b.closer])
    (h : List.Forall₂ (Spells r) (texts.map String.toList) fs) :
    Spells r (opener ++ " ".intercalate texts ++ closer).toList (ofBracket s fs b) := by
  have hspace : " ".toList = [' '] := rfl
  rw [String.toList_append, String.toList_append, String.toList_intercalate, hopener, hcloser,
    hspace]
  exact (spellsAll_intercalate (by decide) h).bracket b s

mutual

/-- The canonical text of a form spells the normal form of it. -/
theorem spells_text (r : Nat) : ∀ f : Form, f.Lexical → f.isComment = false →
    Spells r f.text.toList f.normal
  | comment _ _, _, hcomment => nomatch hcomment
  | symbol s name, .symbol _ hname, _ => spells_symbol hname s
  | literal s kind raw, .literal _ hraw hint, _ => by
    cases kind with
    | string =>
      -- Whatever the literal was, the one that is written for its meaning is a token.
      have hquote : Lexeme.Stands (.literal .string)
          (String.ofList (Quoted.quote (Quoted.meaning raw.toList))).toList := by
        rw [String.toList_ofList]
        exact Lexeme.stands_quote _
      exact spells_literal hquote nofun s
    | nil | bool | int | float | keyword => exact spells_literal (hraw nofun) hint s
  | vector s es, .vector _ hes, _ =>
    spells_bracketed .square s rfl rfl (spells_texts r es hes)
  | map s es, .map _ hes, _ =>
    spells_bracketed .brace s rfl rfl (spells_texts r es hes)
  | list s none es, .list _ _ hes, _ =>
    spells_bracketed .paren s rfl rfl (spells_texts r es hes)
  | list s (some mark) es, .list _ _ hes, _ =>
    -- The name of the mark is written out, and read back as a symbol.
    spells_bracketed .paren s rfl rfl
      (.cons (spells_symbol (Lexeme.stands_name mark) s) (spells_texts r es hes))

theorem spells_texts (r : Nat) : ∀ fs : List Form, (∀ f ∈ fs, f.Lexical) →
    List.Forall₂ (Spells r) ((texts fs).map String.toList) (normals fs)
  | [], _ => .nil
  | f :: fs, hfs => by
    obtain ⟨hf, hothers⟩ := List.forall_mem_cons.1 hfs
    rw [texts, normals]
    split
    · exact spells_texts r fs hothers
    next hcomment =>
      have hfirst := spells_text r f hf (by simpa using hcomment)
      exact .cons hfirst (spells_texts r fs hothers)

end

end Form

namespace Program

variable {source : String} {reading : Nat} {p : Program}

/-- The texts of some forms, with a character between them that separates words, are read as these
forms. -/
theorem parse_intercalate (sep : String) (c : Char) (hsep : sep.toList = [c])
    (hc : isSkipped c = true) {fs : List Form} (hfs : ∀ f ∈ fs, f.Lexical) (reading : Nat) :
    ∃ q, parse (sep.intercalate (Form.texts fs)) reading = .ok q ∧
      q.forms.map Form.bare = (Form.normals fs).map Form.bare := by
  obtain ⟨parts, htokens, hparts, hbare⟩ :=
    Form.spellsAll_intercalate hc (Form.spells_texts reading fs hfs) [] .start (.nil _)
  refine ⟨⟨parts.map Prod.snd⟩, parse_of_derives ⟨parts, hparts, ?_, rfl⟩, hbare⟩
  rw [List.append_nil, Scanner.tokens_nil, List.append_nil] at htokens
  rw [tokenize, Scanner.ofString, String.toList_intercalate, hsep, htokens]

theorem lexical_of_parse (h : parse source reading = .ok p) : ∀ f ∈ p.forms, f.Lexical := by
  obtain ⟨parts, hparts, htokens, hforms⟩ := derives_of_parse h
  rw [hforms]
  intro f hf
  obtain ⟨q, hq, rfl⟩ := List.mem_map.1 hf
  refine (hparts q hq).lexical fun t ht => ?_
  have hmem : t ∈ tokenize source := by
    rw [htokens]
    exact List.mem_flatMap.2 ⟨q, hq, ht⟩
  exact Scanner.scanned_of_mem_tokens hmem

/-- **Canonical text is read back.** The canonical text of a program that was read is read again.
Apart from where its forms come from, this gives the normal form of the program, so that its
canonical text is the same. -/
theorem parse_text (source : String) (reading : Nat) (p : Program)
    (h : parse source reading = .ok p) (reading' : Nat) :
    ∃ q, parse p.text reading' = .ok q ∧
      q.forms.map Form.bare = (Form.normals p.forms).map Form.bare ∧ q.text = p.text := by
  obtain ⟨q, hq, hbare⟩ :=
    parse_intercalate "\n" '\n' rfl (by decide) (lexical_of_parse h) reading'
  refine ⟨q, hq, hbare, ?_⟩
  rw [text, text, Form.texts_eq_of_bare_eq hbare, Form.texts_normals]

/-- A text with both kinds of shorthands, comments before an operand and inside a sequence, an
unknown escape, and a string that is cut short by the end of the text after a backslash. -/
theorem parse_text_shorthands : ∃ p,
    parse "^\"\\q\" ;a\n ['x ;b\n] \"y\\" = .ok p ∧
      p.text = "(with-meta [(quote x)] \"\\\\q\")\n\"y\\\\\"" ∧
      ∃ q, parse p.text 1 = .ok q ∧
        q.forms.map Form.bare = (Form.normals p.forms).map Form.bare ∧ q.text = p.text := by
  have hparse : parse "^\"\\q\" ;a\n ['x ;b\n] \"y\\" = .ok ⟨
      [.list (.ofSpan 0 ⟨⟨0, 1, 0⟩, ⟨18, 3, 1⟩⟩) (some .withMeta)
        [.vector (.ofSpan 0 ⟨⟨10, 2, 1⟩, ⟨18, 3, 1⟩⟩)
          [.list (.ofSpan 0 ⟨⟨11, 2, 2⟩, ⟨13, 2, 4⟩⟩) (some .quote)
            [.symbol (.ofSpan 0 ⟨⟨12, 2, 3⟩, ⟨13, 2, 4⟩⟩) "x"],
            .comment (.ofSpan 0 ⟨⟨14, 2, 5⟩, ⟨16, 2, 7⟩⟩) ";b"],
          .literal (.ofSpan 0 ⟨⟨1, 1, 1⟩, ⟨5, 1, 5⟩⟩) .string "\"\\q\""],
        .literal (.ofSpan 0 ⟨⟨19, 3, 2⟩, ⟨22, 3, 5⟩⟩) .string "\"y\\"]⟩ := by cbv
  exact ⟨_, hparse, by decide +kernel, parse_text _ _ _ hparse 1⟩

end Program

end Lisp
