import Lisp.Proofs.Decimal.Float
import Lisp.Proofs.Form.Reading
import Lisp.Proofs.Token.Sequence

/-!
# The grammar of forms

- `Form.Derives`: which tokens make up which form. A form covers the source text from its first
  token to its last one.
- `Program.Derives`: which tokens make up which program.
- `Form.sound`: what is read is derived from the tokens that were taken. The proof goes along
  the steps of reading.
- `Form.Derives.reads`: what is derived from some tokens is read from them, whatever follows.
  The proof goes along the derivation.
- `Program.parse_iff_derives`: a source text is read as a program exactly when its tokens derive
  the program.
-/

namespace Lisp

/-! ## The grammar -/

/-- The source text from the first to the last of some tokens. -/
def Token.cover : List Token → Span
  | [] => .origin
  | t :: ts => ⟨t.span.start, (ts.getLastD t).span.stop⟩

/-- A text that stands for an integer in range. -/
def Token.InRange (text : String) : Prop :=
  ∃ n, Numeral.Denotes text.toList n ∧ Integer.Fits n

namespace Form

/-- Where a form that is made up of some tokens comes from. -/
def siteOf (reading : Nat) (ts : List Token) : Site := .ofSpan reading (Token.cover ts)

/-- Some tokens make up a form. The elements of a sequence are given together with the tokens that
each of them is made up of. -/
inductive Derives (reading : Nat) : List Token → Form → Prop
  | comment {t : Token} : t.kind = .comment →
      Derives reading [t] (.comment (siteOf reading [t]) t.text)
  | symbol {t : Token} : t.kind = .symbol →
      Derives reading [t] (.symbol (siteOf reading [t]) t.text)
  | literal {t : Token} {kind : Literal} : t.kind = .literal kind →
      (kind = .int → Token.InRange t.text) →
      Derives reading [t] (.literal (siteOf reading [t]) kind t.text)
  | list {opener closer : Token} {parts : List (List Token × Form)} :
      opener.kind = .opening .paren → closer.kind = .closing .paren →
      (∀ p ∈ parts, Derives reading p.1 p.2) →
      Derives reading (opener :: (parts.flatMap Prod.fst ++ [closer]))
        (.list (siteOf reading (opener :: (parts.flatMap Prod.fst ++ [closer]))) none
          (parts.map Prod.snd))
  | vector {opener closer : Token} {parts : List (List Token × Form)} :
      opener.kind = .opening .square → closer.kind = .closing .square →
      (∀ p ∈ parts, Derives reading p.1 p.2) →
      Derives reading (opener :: (parts.flatMap Prod.fst ++ [closer]))
        (.vector (siteOf reading (opener :: (parts.flatMap Prod.fst ++ [closer])))
          (parts.map Prod.snd))
  | map {opener closer : Token} {parts : List (List Token × Form)} :
      opener.kind = .opening .brace → closer.kind = .closing .brace →
      (∀ p ∈ parts, Derives reading p.1 p.2) →
      Derives reading (opener :: (parts.flatMap Prod.fst ++ [closer]))
        (.map (siteOf reading (opener :: (parts.flatMap Prod.fst ++ [closer])))
          (parts.map Prod.snd))
  /-- A mark with one operand. Comments before the operand are dropped. -/
  | shorthand {t : Token} {mark : Shorthand} {gap ts : List Token} {f : Form} :
      t.kind = .shorthand mark → mark ≠ .withMeta → (∀ c ∈ gap, c.kind = .comment) →
      Derives reading ts f → f.isComment = false →
      Derives reading (t :: (gap ++ ts))
        (.list (siteOf reading (t :: (gap ++ ts))) (some mark) [f])
  /-- The mark with two operands, a note and then a target, which is passed first. -/
  | withMeta {t : Token} {gap ts gap' us : List Token} {note target : Form} :
      t.kind = .shorthand .withMeta →
      (∀ c ∈ gap, c.kind = .comment) → Derives reading ts note →
      note.isComment = false →
      (∀ c ∈ gap', c.kind = .comment) → Derives reading us target → target.isComment = false →
      Derives reading (t :: (gap ++ ts ++ gap' ++ us))
        (.list (siteOf reading (t :: (gap ++ ts ++ gap' ++ us))) (some .withMeta)
          [target, note])

end Form

/-- Some tokens make up a program: they make up its forms, one after the other. -/
def Program.Derives (reading : Nat) (ts : List Token) (p : Program) : Prop :=
  ∃ parts : List (List Token × Form), (∀ q ∈ parts, Form.Derives reading q.1 q.2) ∧
    ts = parts.flatMap Prod.fst ∧ p.forms = parts.map Prod.snd

/-! ## Spans -/

namespace Position

variable {p q : Position}

theorem earlier_of_lt (h : p.offset < q.offset) : p.earlier q = p := by
  have hcompare : p.compare q = .lt := by
    rw [compare, Nat.compare_eq_lt.2 h]
    rfl
  rw [earlier, hcompare, if_neg (by decide)]

theorem later_of_lt (h : p.offset < q.offset) : p.later q = q := by
  have hcompare : p.compare q = .lt := by
    rw [compare, Nat.compare_eq_lt.2 h]
    rfl
  rw [later, hcompare, if_neg (by decide)]

theorem later_of_gt (h : q.offset < p.offset) : p.later q = p := by
  have hcompare : p.compare q = .gt := by
    rw [compare, Nat.compare_eq_gt.2 h]
    rfl
  rw [later, hcompare, if_pos rfl]

end Position

namespace Token

variable {t : Token} {ts us gap : List Token}

/-- What tokens cover ends with the last of them. -/
theorem exists_last (hne : ts ≠ []) :
    ∃ before last, ts = before ++ [last] ∧ (cover ts).stop = last.span.stop := by
  refine ⟨ts.dropLast, ts.getLast hne, (List.dropLast_concat_getLast hne).symm, ?_⟩
  obtain ⟨u, us, rfl⟩ := List.exists_cons_of_ne_nil hne
  show (us.getLastD u).span.stop = _
  rw [List.getLast_eq_getLastD]

theorem cover_concat (opener : Token) (ts : List Token) (closer : Token) :
    cover (opener :: (ts ++ [closer])) = ⟨opener.span.start, closer.span.stop⟩ := by
  simp [cover]

theorem getLastD_append_cons (t u : Token) (gap us : List Token) :
    (gap ++ u :: us).getLastD t = us.getLastD u := by
  induction gap generalizing t with
  | nil => rw [List.nil_append, List.getLastD_cons]
  | cons c gap ih => rw [List.cons_append, List.getLastD_cons, ih]

/-- The end of what tokens cover is the end of the last ones. -/
theorem stop_cover_append (hne : ts ≠ []) (t : Token) (gap : List Token) :
    (cover (t :: (gap ++ ts))).stop = (cover ts).stop := by
  obtain ⟨u, us, rfl⟩ := List.exists_cons_of_ne_nil hne
  show ((gap ++ u :: us).getLastD t).span.stop = _
  rw [getLastD_append_cons]
  rfl

/-- A token before others begins before them and ends before they do. -/
theorem Ordered.lt_cover (ho : Ordered (t :: (gap ++ ts))) (hne : ts ≠ []) :
    t.span.start.offset < (cover ts).start.offset ∧
      t.span.stop.offset < (cover ts).stop.offset := by
  obtain ⟨u, us, rfl⟩ := List.exists_cons_of_ne_nil hne
  have hbefore : ∀ v ∈ u :: us, t.span.stop.offset ≤ v.span.start.offset := fun v hv =>
    (List.pairwise_cons.1 ho.apart).1 v (List.mem_append_right _ hv)
  have hlast : us.getLastD u ∈ u :: us := List.getLastD_mem_cons
  have hself := ho.nonempty t (by simp)
  have hfirst := hbefore u (by simp)
  have hend := hbefore _ hlast
  have hlastNonempty := ho.nonempty _ (List.mem_cons_of_mem _ (List.mem_append_right _ hlast))
  show t.span.start.offset < u.span.start.offset ∧
    t.span.stop.offset < (us.getLastD u).span.stop.offset
  constructor
  · omega
  · omega

/-- A mark and its operand cover all text from the mark to the end of the operand. -/
theorem Ordered.merge_cover (ho : Ordered (t :: (gap ++ ts))) (hne : ts ≠ []) :
    t.span.merge (cover ts) = cover (t :: (gap ++ ts)) := by
  obtain ⟨hstart, hstop⟩ := ho.lt_cover hne
  rw [Span.merge, Position.earlier_of_lt hstart, Position.later_of_lt hstop,
    ← stop_cover_append hne t gap]
  rfl

/-- What tokens in between cover does not add anything. -/
theorem Ordered.merge_cover_inside {gap' : List Token}
    (ho : Ordered (t :: (gap ++ ts ++ gap' ++ us))) (hts : ts ≠ []) (hus : us ≠ []) :
    (t.span.merge (cover us)).merge (cover ts) = cover (t :: (gap ++ ts ++ gap' ++ us)) := by
  have hfirst :
      (cover (t :: (gap ++ ts ++ gap' ++ us))).start.offset < (cover ts).start.offset := by
    have hsub : (t :: (gap ++ ts)).Sublist (t :: (gap ++ ts ++ gap' ++ us)) := by
      simp [List.append_assoc]
    exact ((ho.sublist hsub).lt_cover hts).1
  have hlast : (cover ts).stop.offset < (cover (t :: (gap ++ ts ++ gap' ++ us))).stop.offset := by
    obtain ⟨before, last, rfl, hstop⟩ := exists_last hts
    have hsub : (last :: (gap' ++ us)).Sublist
        (t :: (gap ++ (before ++ [last]) ++ gap' ++ us)) := by
      refine .cons _ ?_
      rw [List.append_assoc, List.append_assoc, List.append_assoc, ← List.append_assoc]
      exact List.sublist_append_right _ _
    rw [hstop, stop_cover_append hus]
    exact ((ho.sublist hsub).lt_cover hus).2
  rw [ho.merge_cover hus, Span.merge, Position.earlier_of_lt hfirst, Position.later_of_gt hlast]

/-- A token that stands for a number if it is one of numbers. -/
structure Numerical (t : Token) : Prop where
  integer : t.kind = .literal .int → ∃ n, Numeral.Denotes t.text.toList n
  float : t.kind = .literal .float → (Numeral.float? t.text.toList).isSome = true

theorem Scanned.numerical (h : t.Scanned) : t.Numerical := by
  obtain ⟨c, cs, -, hk, htext⟩ := h
  constructor
  · intro hint
    rw [htext, String.toList_ofList]
    exact Lexeme.denotes_of_scan (hk ▸ hint)
  · intro hfloat
    rw [htext, String.toList_ofList]
    exact Numeral.isSome_float? (Lexeme.isDecimal_of_scan (hk ▸ hfloat))

/-- Of the literals in a text, only integers that are out of range are refused. -/
theorem Numerical.admits_iff {kind : Literal} (h : t.Numerical) (hk : t.kind = .literal kind) :
    kind.admits t.text = true ↔ (kind = .int → InRange t.text) := by
  cases kind with
  | nil | bool | string | keyword => exact ⟨fun _ => nofun, fun _ => rfl⟩
  | float => exact ⟨fun _ => nofun, fun _ => h.float hk⟩
  | int =>
    obtain ⟨n, hn⟩ := h.integer hk
    show (Numeral.int? t.text.toList).isSome = true ↔ _
    rw [Option.isSome_iff_ne_none]
    constructor
    · exact fun hsome _ => ⟨n, hn, not_not.1 (mt (Numeral.int?_eq_none_iff hn).2 hsome)⟩
    · intro hrange hnone
      obtain ⟨n', hn', hfits⟩ := hrange rfl
      exact (Numeral.int?_eq_none_iff hn').1 hnone hfits

/-- Tokens as they stand in a text. -/
structure Regular (ts : List Token) : Prop where
  ordered : Ordered ts
  numerical : ∀ t ∈ ts, t.Numerical

theorem Regular.sublist (hus : Regular us) (h : ts.Sublist us) : Regular ts :=
  ⟨hus.ordered.sublist h, fun t ht => hus.numerical t (h.subset ht)⟩

end Token

theorem tokenize_regular (source : String) : Token.Regular (tokenize source) :=
  ⟨tokenize_ordered source, fun _ ht => (Scanner.scanned_of_mem_tokens ht).numerical⟩

/-! ## What is read is derived -/

namespace Form

variable {r : Nat} {t : Token} {ts us rest : List Token} {f : Form} {b : Bracket}
  {parts : List (List Token × Form)}

theorem ofLiteral_eq_ok {kind : Literal} (h : ofLiteral r kind t = .ok f) :
    f = .literal (siteOf r [t]) kind t.text ∧ kind.admits t.text = true := by
  unfold ofLiteral at h
  split at h
  next hadmits =>
    cases h
    exact ⟨rfl, hadmits⟩
  next => cases h

namespace Derives

/-- A bracketed sequence is derived from its brackets and its elements. -/
theorem bracket {opener closer : Token} (ho : opener.kind = .opening b)
    (hc : closer.kind = .closing b) (hparts : ∀ p ∈ parts, Derives r p.1 p.2) :
    Derives r (opener :: (parts.flatMap Prod.fst ++ [closer]))
      (ofBracket (siteOf r (opener :: (parts.flatMap Prod.fst ++ [closer])))
        (parts.map Prod.snd) b) := by
  cases b with
  | paren => exact .list ho hc hparts
  | square => exact .vector ho hc hparts
  | brace => exact .map ho hc hparts

theorem ne_nil (h : Derives r ts f) : ts ≠ [] := by
  cases h <;> exact List.cons_ne_nil _ _

/-- A form comes from its tokens. -/
theorem site_eq (h : Derives r ts f) : f.site = siteOf r ts := by
  cases h <;> rfl

theorem span_eq (h : Derives r ts f) : f.span = Token.cover ts := by
  rw [span, h.site_eq]
  rfl

/-- A form is a comment when its first token is one. -/
theorem isComment_iff (h : Derives r (t :: ts) f) : f.isComment = true ↔ t.kind = .comment := by
  cases h <;> simp_all [isComment]

/-- No form begins with a closing bracket. -/
theorem kind_ne_closing (h : Derives r (t :: ts) f) (b : Bracket) : t.kind ≠ .closing b := by
  cases h <;> simp_all

end Derives

/-- A mark and its operand cover what they are made up of. -/
theorem ofShorthand_single {gap : List Token} (ho : Token.Ordered (t :: (gap ++ ts)))
    (h : Derives r ts f) (mark : Shorthand) :
    ofShorthand r t mark [f] = .list (siteOf r (t :: (gap ++ ts))) (some mark) [f] := by
  show Form.list (.ofSpan r (t.span.merge f.span)) _ _ = _
  rw [h.span_eq, ho.merge_cover h.ne_nil]
  rfl

theorem ofShorthand_withMeta {gap gap' : List Token} {g : Form}
    (ho : Token.Ordered (t :: (gap ++ ts ++ gap' ++ us))) (hf : Derives r ts f)
    (hg : Derives r us g) :
    ofShorthand r t .withMeta [g, f] =
      .list (siteOf r (t :: (gap ++ ts ++ gap' ++ us))) (some .withMeta) [g, f] := by
  show Form.list (.ofSpan r ((t.span.merge g.span).merge f.span)) _ _ = _
  rw [hf.span_eq, hg.span_eq, ho.merge_cover_inside hf.ne_nil hg.ne_nil]
  rfl

/-- What is read, at each step, is derived from the tokens that were taken. -/
theorem sound (r : Nat) :
    (∀ t ts, ∀ f rest, (read r t ts).result = (.ok f, rest) → Token.Regular (t :: ts) →
      ∃ used, ts = used ++ rest ∧ Derives r (t :: used) f) ∧
    (∀ t mark ts, ∀ f rest, (readOperand r t mark ts).result = (.ok f, rest) → Token.Regular ts →
      ∃ gap used, ts = gap ++ used ++ rest ∧ (∀ c ∈ gap, c.kind = .comment) ∧
        Derives r used f ∧ f.isComment = false) ∧
    (∀ opener b ts, ∀ fs stop rest, (readSequence r opener b ts).result = (.ok (fs, stop), rest) →
      Token.Regular ts →
      ∃ (parts : List (List Token × Form)) (closer : Token),
        ts = parts.flatMap Prod.fst ++ closer :: rest ∧ closer.kind = .closing b ∧
        stop = closer.span.stop ∧ (∀ p ∈ parts, Derives r p.1 p.2) ∧ fs = parts.map Prod.snd) := by
  apply reading_induction r
  case illegal =>
    intro t ts hk f rest h hreg
    rw [result_read_illegal hk] at h
    cases h
  case comment =>
    intro t ts hk f rest h hreg
    rw [result_read_comment hk] at h
    cases h
    exact ⟨[], rfl, .comment hk⟩
  case symbol =>
    intro t ts hk f rest h hreg
    rw [result_read_symbol hk] at h
    cases h
    exact ⟨[], rfl, .symbol hk⟩
  case literal =>
    intro t ts kind hk f rest h hreg
    rw [result_read_literal hk] at h
    obtain ⟨hok, rfl⟩ := Prod.mk.inj h
    obtain ⟨rfl, hadmits⟩ := ofLiteral_eq_ok hok
    exact ⟨[], rfl, .literal hk (((hreg.numerical t (by simp)).admits_iff hk).1 hadmits)⟩
  case closing =>
    intro t ts b hk f rest h hreg
    rw [result_read_closing hk] at h
    cases h
  case eof =>
    intro t ts hk f rest h hreg
    rw [result_read_eof hk] at h
    cases h
  case opening =>
    intro t ts b hk ih f rest h hreg
    rw [result_read_opening hk] at h
    obtain ⟨⟨fs, stop⟩, rest', hseq, h⟩ := Reading.andThen_eq_ok h
    cases h
    obtain ⟨parts, closer, rfl, hc, rfl, hparts, rfl⟩ :=
      ih _ _ _ hseq (hreg.sublist (List.sublist_cons_self _ _))
    refine ⟨parts.flatMap Prod.fst ++ [closer], by simp, ?_⟩
    have := Derives.bracket hk hc hparts
    rwa [siteOf, Token.cover_concat] at this
  case shorthand =>
    intro t ts mark hk hmark ih f rest h hreg
    rw [result_read_shorthand hk hmark] at h
    obtain ⟨operand, rest', hoperand, h⟩ := Reading.andThen_eq_ok h
    cases h
    obtain ⟨gap, used, rfl, hgap, hd, hcomment⟩ :=
      ih _ _ hoperand (hreg.sublist (List.sublist_cons_self _ _))
    refine ⟨gap ++ used, rfl, ?_⟩
    have hsub : (t :: (gap ++ used)).Sublist (t :: (gap ++ used ++ rest)) := by simp
    rw [ofShorthand_single (hreg.sublist hsub).ordered hd]
    exact .shorthand hk hmark hgap hd hcomment
  case withMeta =>
    intro t ts hk ihNote ihTarget f rest h hreg
    rw [result_read_withMeta hk] at h
    obtain ⟨note, rest', hnote, h⟩ := Reading.andThen_eq_ok h
    obtain ⟨target, rest'', htarget, h⟩ := Reading.andThen_eq_ok h
    cases h
    have hsecond := ihTarget _ _ hnote _ _ htarget
    obtain ⟨gap, used, rfl, hgap, hd, hcomment⟩ :=
      ihNote _ _ hnote (hreg.sublist (List.sublist_cons_self _ _))
    obtain ⟨gap', used', rfl, hgap', hd', hcomment'⟩ :=
      hsecond (hreg.sublist (.cons _ (List.sublist_append_right _ _)))
    refine ⟨gap ++ used ++ gap' ++ used', by simp, ?_⟩
    have hsub : (t :: (gap ++ used ++ gap' ++ used')).Sublist
        (t :: (gap ++ used ++ (gap' ++ used' ++ rest))) := by simp
    rw [ofShorthand_withMeta (hreg.sublist hsub).ordered hd hd']
    exact .withMeta hk hgap hd hcomment hgap' hd' hcomment'
  case operandEnd =>
    intro t mark f rest h hreg
    rw [result_readOperand_nil] at h
    cases h
  case operandComment =>
    intro t mark u us hk ih f rest h hreg
    rw [result_readOperand_cons, if_pos hk] at h
    obtain ⟨gap, used, rfl, hgap, hd, hcomment⟩ :=
      ih _ _ h (hreg.sublist (List.sublist_cons_self _ _))
    exact ⟨u :: gap, used, rfl, List.forall_mem_cons.2 ⟨hk, hgap⟩, hd, hcomment⟩
  case operandForm =>
    intro t mark u us hk ih f rest h hreg
    rw [result_readOperand_cons, if_neg hk] at h
    obtain ⟨used, rfl, hd⟩ := ih _ _ h hreg
    refine ⟨[], u :: used, rfl, nofun, hd, ?_⟩
    have hiff := hd.isComment_iff
    simpa [hk] using hiff
  case sequenceEnd =>
    intro opener b fs stop rest h hreg
    rw [result_readSequence_nil] at h
    cases h
  case sequenceClose =>
    intro opener b t ts hk fs stop rest h hreg
    rw [result_readSequence_cons, if_pos hk] at h
    cases h
    exact ⟨[], t, rfl, hk, rfl, nofun, rfl⟩
  case sequenceForm =>
    intro opener b t ts hk ihFirst ihRest fs stop rest h hreg
    rw [result_readSequence_cons, if_neg hk] at h
    obtain ⟨f, rest', hread, h⟩ := Reading.andThen_eq_ok h
    obtain ⟨⟨fs', stop'⟩, rest'', hseq, h⟩ := Reading.andThen_eq_ok h
    cases h
    have hothers := ihRest _ _ hread _ _ _ hseq
    obtain ⟨used, rfl, hd⟩ := ihFirst _ _ hread hreg
    obtain ⟨parts, closer, rfl, hc, rfl, hparts, rfl⟩ :=
      hothers (hreg.sublist (.cons _ (List.sublist_append_right _ _)))
    exact ⟨(t :: used, f) :: parts, closer, by simp, hc, rfl,
      List.forall_mem_cons.2 ⟨hd, hparts⟩, rfl⟩

/-- All forms that are read from some tokens are derived from them, one after the other. -/
theorem sound_readAll {fs : List Form} (h : readAll r ts = .ok fs) (hreg : Token.Regular ts) :
    Program.Derives r ts ⟨fs⟩ := by
  induction ts using readAll_induction (r := r) generalizing fs with
  | nil =>
    rw [readAll] at h
    cases h
    exact ⟨[], List.forall_mem_nil _, rfl, rfl⟩
  | cons t ts ih =>
    generalize hread : (read r t ts).result = x
    obtain ⟨e | f, rest⟩ := x
    · rw [readAll_cons_error hread] at h
      cases h
    · rw [readAll_cons_ok hread] at h
      cases hrest : readAll r rest with
      | error e =>
        rw [hrest] at h
        cases h
      | ok fs' =>
        rw [hrest] at h
        cases h
        obtain ⟨used, rfl, hd⟩ := (sound r).1 _ _ _ _ hread hreg
        obtain ⟨parts, hparts, rfl, rfl⟩ :=
          ih _ _ hread hrest (hreg.sublist (.cons _ (List.sublist_append_right _ _)))
        exact ⟨(t :: used, f) :: parts, List.forall_mem_cons.2 ⟨hd, hparts⟩, rfl, rfl⟩

/-! ## What is derived is read -/

/-- The tokens of a form are read as that form, whatever follows. -/
def Reads (r : Nat) (ts : List Token) (f : Form) : Prop :=
  ∀ t us, ts = t :: us → ∀ rest, (read r t (us ++ rest)).result = (.ok f, rest)

/-- Comments are dropped before an operand. -/
theorem result_readOperand_gap {t : Token} {mark : Shorthand} {gap : List Token}
    (hgap : ∀ c ∈ gap, c.kind = .comment) (hd : Derives r ts f) (hcomment : f.isComment = false)
    (hreads : Reads r ts f) (rest : List Token) :
    (readOperand r t mark (gap ++ ts ++ rest)).result = (.ok f, rest) := by
  induction gap with
  | nil =>
    obtain ⟨u, us, rfl⟩ := List.exists_cons_of_ne_nil hd.ne_nil
    have hk : u.kind ≠ .comment := by
      intro hk
      rw [hd.isComment_iff.2 hk] at hcomment
      cases hcomment
    rw [List.nil_append, List.cons_append, result_readOperand_cons, if_neg hk]
    exact hreads u us rfl rest
  | cons c gap ih =>
    rw [List.cons_append, List.cons_append, result_readOperand_cons,
      if_pos (hgap c (by simp))]
    exact ih fun d hd => hgap d (by simp [hd])

/-- Elements are read one after the other, up to the closing bracket. -/
theorem result_readSequence_parts {opener closer : Token} (hc : closer.kind = .closing b)
    (hparts : ∀ p ∈ parts, Derives r p.1 p.2) (hreads : ∀ p ∈ parts, Reads r p.1 p.2)
    (rest : List Token) :
    (readSequence r opener b (parts.flatMap Prod.fst ++ closer :: rest)).result =
      (.ok (parts.map Prod.snd, closer.span.stop), rest) := by
  induction parts with
  | nil =>
    rw [List.flatMap_nil, List.nil_append, result_readSequence_cons, if_pos hc]
    rfl
  | cons p parts ih =>
    obtain ⟨ts, f⟩ := p
    obtain ⟨hd, hothers⟩ := List.forall_mem_cons.1 hparts
    obtain ⟨hfirst, hrest⟩ := List.forall_mem_cons.1 hreads
    obtain ⟨u, us, rfl⟩ := List.exists_cons_of_ne_nil hd.ne_nil
    rw [List.flatMap_cons, List.append_assoc, List.cons_append, result_readSequence_cons,
      if_neg (hd.kind_ne_closing b), hfirst u us rfl, Reading.andThen_ok, ih hothers hrest,
      Reading.andThen_ok]
    rfl

/-- A bracketed sequence of such elements is read. -/
theorem reads_bracket {opener closer : Token} (ho : opener.kind = .opening b)
    (hc : closer.kind = .closing b) (hparts : ∀ p ∈ parts, Derives r p.1 p.2)
    (hreads : ∀ p ∈ parts, Reads r p.1 p.2) :
    Reads r (opener :: (parts.flatMap Prod.fst ++ [closer]))
      (ofBracket (siteOf r (opener :: (parts.flatMap Prod.fst ++ [closer])))
        (parts.map Prod.snd) b) := by
  rintro t us heq rest
  cases heq
  rw [List.append_assoc, List.singleton_append, result_read_opening ho,
    result_readSequence_parts hc hparts hreads, Reading.andThen_ok, siteOf, Token.cover_concat]

/-- The tokens of an element are regular. -/
theorem regular_of_mem_parts {opener closer : Token} {p : List Token × Form} (hp : p ∈ parts)
    (hreg : Token.Regular (opener :: (parts.flatMap Prod.fst ++ [closer]))) :
    Token.Regular p.1 := by
  have hsub : p.1.Sublist (parts.flatMap Prod.fst) :=
    List.sublist_flatten_of_mem (List.mem_map_of_mem hp)
  exact hreg.sublist (.cons _ (hsub.trans (List.sublist_append_left _ _)))

/-- What is derived from tokens as they stand in a text is read from them, whatever follows. -/
theorem Derives.reads (h : Derives r ts f) (hreg : Token.Regular ts) : Reads r ts f := by
  induction h with
  | comment hk =>
    rintro t us heq rest
    cases heq
    exact result_read_comment hk
  | symbol hk =>
    rintro t us heq rest
    cases heq
    exact result_read_symbol hk
  | literal hk hint =>
    rintro t us heq rest
    cases heq
    have hadmits := ((hreg.numerical _ List.mem_cons_self).admits_iff hk).2 hint
    rw [result_read_literal hk, ofLiteral, if_pos hadmits]
    rfl
  | list hopener hcloser hparts ih =>
    exact reads_bracket hopener hcloser hparts fun p hp => ih p hp (regular_of_mem_parts hp hreg)
  | vector hopener hcloser hparts ih =>
    exact reads_bracket hopener hcloser hparts fun p hp => ih p hp (regular_of_mem_parts hp hreg)
  | map hopener hcloser hparts ih =>
    exact reads_bracket hopener hcloser hparts fun p hp => ih p hp (regular_of_mem_parts hp hreg)
  | @shorthand t mark gap ts f hk hmark hgap hd hcomment ih =>
    rintro t us heq rest
    cases heq
    have hreads := ih (hreg.sublist (.cons _ (List.sublist_append_right _ _)))
    rw [result_read_shorthand hk hmark, result_readOperand_gap hgap hd hcomment hreads,
      Reading.andThen_ok, ofShorthand_single hreg.ordered hd]
  | @withMeta t gap ts gap' us f g hk hgap hd hcomment hgap' hd' hcomment' ih ih' =>
    rintro t vs heq rest
    cases heq
    have hsub : ts.Sublist (t :: (gap ++ ts ++ gap' ++ us)) := by
      refine .cons _ ?_
      rw [List.append_assoc, List.append_assoc]
      exact (List.sublist_append_left _ _).trans (List.sublist_append_right _ _)
    have hreads := ih (hreg.sublist hsub)
    have hreads' := ih' (hreg.sublist (.cons _ (List.sublist_append_right _ _)))
    have hsplit : gap ++ ts ++ gap' ++ us ++ rest = gap ++ ts ++ (gap' ++ us ++ rest) := by simp
    rw [hsplit, result_read_withMeta hk, result_readOperand_gap hgap hd hcomment hreads,
      Reading.andThen_ok, result_readOperand_gap hgap' hd' hcomment' hreads', Reading.andThen_ok,
      ofShorthand_withMeta hreg.ordered hd hd']

/-- Forms that are derived from tokens, one after the other, are read from them. -/
theorem readAll_of_derives {fs : List Form} (h : Program.Derives r ts ⟨fs⟩)
    (hreg : Token.Regular ts) : readAll r ts = .ok fs := by
  obtain ⟨parts, hparts, rfl, rfl⟩ := h
  induction parts with
  | nil =>
    show readAll r [] = _
    rw [readAll]
    rfl
  | cons p parts ih =>
    obtain ⟨ts, f⟩ := p
    obtain ⟨hd, hothers⟩ := List.forall_mem_cons.1 hparts
    obtain ⟨t, us, rfl⟩ := List.exists_cons_of_ne_nil hd.ne_nil
    have hread := hd.reads (hreg.sublist (List.sublist_append_left _ _)) t us rfl
      (parts.flatMap Prod.fst)
    show readAll r (t :: (us ++ parts.flatMap Prod.fst)) = _
    rw [readAll_cons_ok hread, ih hothers (hreg.sublist (List.sublist_append_right _ _))]
    rfl

end Form

namespace Program

variable {source : String} {reading : Nat} {p : Program}

theorem parse_eq_ok_iff : parse source reading = .ok p ↔
    Form.readAll reading (tokenize source) = .ok p.forms := by
  unfold parse
  cases Form.readAll reading (tokenize source) with
  | error e => exact ⟨nofun, nofun⟩
  | ok fs =>
    constructor
    · intro h
      cases h
      rfl
    · intro h
      cases h
      rfl

theorem derives_of_parse (h : parse source reading = .ok p) :
    Derives reading (tokenize source) p :=
  Form.sound_readAll (parse_eq_ok_iff.1 h) (tokenize_regular source)

theorem parse_of_derives (h : Derives reading (tokenize source) p) :
    parse source reading = .ok p :=
  parse_eq_ok_iff.2 (Form.readAll_of_derives h (tokenize_regular source))

/-- **Reading follows the grammar.** A source text is read as a program exactly when its tokens
make up that program. So there is at most one such program, and its forms have the spans that the
grammar gives them. -/
theorem parse_iff_derives (source : String) (reading : Nat) (p : Program) :
    parse source reading = .ok p ↔ Derives reading (tokenize source) p :=
  ⟨derives_of_parse, parse_of_derives⟩

end Program

end Lisp
