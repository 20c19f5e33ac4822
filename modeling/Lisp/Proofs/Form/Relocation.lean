import Lisp.Proofs.Form.Displacement
import Lisp.Proofs.Form.Grammar
import Lisp.Proofs.Form.Likeness

/-!
# Forms of two texts that are joined into one

A text and the lines after it are read at once, or as two texts one after the other. The forms of
the second text then come from another reading, and stand further to the front.

- `Form.PartOf`: a form, or a form in it at any depth. `Form.SitesIn` says where all of them come
  from.
- `Form.Derives.exists_parts`: the elements of a form, in the order in which they are written, are
  made up of its tokens one after the other.
- `Program.derives_of_part`: the parts of a program are made up of tokens of its text that follow
  each other.
- `Program.site_of_part`: a form of a text comes from the reading of that text, and its place is in
  the text.
- `Site.joined`: where a form of the second text comes from when both are read at once.
- `Program.parse_joined`: the forms that are read at once.
- `Likeness.joined`: evaluation treats both alike.
- `Likeness.unchanged`: forms that all come from certain sites, each in its own place.
-/

namespace Lisp

namespace Form

/-! ## Parts -/

/-- A form is another form, or is in it at any depth. -/
inductive PartOf : Form → Form → Prop
  | self (f : Form) : PartOf f f
  | element {f g e : Form} : e ∈ f.elements → PartOf g e → PartOf g f

/-- All parts of a form come from certain sites. -/
def SitesIn (P : Site → Prop) (f : Form) : Prop := ∀ g : Form, g.PartOf f → P g.site

variable {f g e : Form} {m m' : Site → Site}

/-- The elements of a part are parts. -/
theorem PartOf.of_element (h : f.PartOf g) (he : e ∈ f.elements) : e.PartOf g := by
  induction h with
  | self f => exact .element he (.self e)
  | element hmem _ ih => exact .element hmem (ih he)

/-- Where a form comes from matters only at the sites of its parts. -/
theorem mapSites_congr (h : ∀ g : Form, g.PartOf f → m g.site = m' g.site) :
    f.mapSites m = f.mapSites m' := by
  induction f using elementwise with
  | h f ih =>
    have hsite : m f.site = m' f.site := h f (.self f)
    have helements : ∀ e ∈ f.elements, e.mapSites m = e.mapSites m' :=
      fun e he => ih e he fun g hg => h g (.element he hg)
    cases f with
    | comment s text | symbol s name | literal s kind raw =>
      simp only [mapSites]
      rw [show m s = m' s from hsite]
    | vector s es | map s es | list s mark es =>
      simp only [mapSites, mapSitesAll_eq_map]
      rw [show m s = m' s from hsite, show es.map _ = es.map _ from List.map_congr_left helements]

theorem mapSites_id (f : Form) : f.mapSites id = f := by
  induction f using elementwise with
  | h f ih =>
    cases f with
    | comment | symbol | literal => rfl
    | vector s es | map s es | list s mark es =>
      have helements : es.map (mapSites id) = es := (List.map_congr_left ih).trans (List.map_id' es)
      simp only [mapSites, mapSitesAll_eq_map, helements, id]

/-- A form whose parts keep their sites stays as it is. -/
theorem mapSites_eq_self (h : ∀ g : Form, g.PartOf f → m g.site = g.site) : f.mapSites m = f :=
  (mapSites_congr h).trans (mapSites_id f)

/-- Where forms come from does not matter to which of them count. -/
theorem significant_map_mapSites (m : Site → Site) (fs : List Form) :
    significant (fs.map (mapSites m)) = (significant fs).map (mapSites m) := by
  rw [significant, List.filter_map]
  refine congrArg _ (List.filter_congr fun f _ => ?_)
  cases f <;> rfl

/-- Where a form comes from does not matter to what it is like. -/
theorem alike_mapSites (m : Site → Site) (f : Form) : Alike (mapSites m) f (f.mapSites m) := by
  have hsignificant : ∀ es, significant (mapSitesAll m es) = (significant es).map (mapSites m) := by
    intro es
    rw [mapSitesAll_eq_map, significant_map_mapSites]
  cases f with
  | comment s text => exact .comment s (m s) text
  | symbol s name => exact .symbol s (m s) name
  | literal s kind raw => exact .literal s (m s) kind raw
  | vector s es => exact .vector s (m s) (hsignificant es)
  | map s es => exact .map s (m s) (hsignificant es)
  | list s mark es => exact .list s (m s) mark (hsignificant es)

@[simp] theorem shorthand?_mapSites (m : Site → Site) (f : Form) :
    (f.mapSites m).shorthand? = f.shorthand? := by
  cases f <;> rfl

theorem nameOperand?_mapSites (m : Site → Site) (f : Form) :
    (f.mapSites m).nameOperand? = f.nameOperand?.map (mapSites m) := by
  have hsymbol : ∀ head : Form, (head.mapSites m).symbol? = head.symbol? := by
    intro head
    cases head <;> rfl
  cases f with
  | list s mark es =>
    cases mark with
    | none =>
      simp only [mapSites, nameOperand?, mapSitesAll_eq_map, significant_map_mapSites]
      rcases significant es with _ | ⟨head, _ | ⟨operand, _ | ⟨_, _ | ⟨_, _⟩⟩⟩⟩
      · rfl
      · rfl
      · rfl
      · simp only [List.map_cons, List.map_nil, hsymbol]
        split <;> rfl
      · rfl
    | some mark => rfl
  | comment | symbol | literal | vector | map => rfl

/-! ## Sites of what is read -/

/-- The elements of a form in the order in which they are written. A note is written before what it
is for, and passed behind it. -/
def written : Form → List Form
  | list _ (some .withMeta) es => es.reverse
  | f => f.elements

theorem mem_written : e ∈ f.written ↔ e ∈ f.elements := by
  fun_cases written f with
  | case1 => exact List.mem_reverse
  | case2 => exact Iff.rfl

/-- The elements of a form are made up of tokens that follow each other, one element after the
other. -/
theorem Derives.exists_parts {r : Nat} {ts : List Token} (h : Derives r ts f) :
    ∃ parts : List (List Token × Form), (∀ p ∈ parts, Derives r p.1 p.2 ∧ p.1 <:+: ts) ∧
      (parts.flatMap Prod.fst).Sublist ts ∧ f.written = parts.map Prod.snd := by
  have hsequence : ∀ {opener closer : Token} {parts : List (List Token × Form)},
      (∀ p ∈ parts, Derives r p.1 p.2) →
      (∀ p ∈ parts, Derives r p.1 p.2 ∧ p.1 <:+: opener :: (parts.flatMap Prod.fst ++ [closer])) ∧
        (parts.flatMap Prod.fst).Sublist (opener :: (parts.flatMap Prod.fst ++ [closer])) := by
    intro opener closer parts hparts
    refine ⟨fun p hp => ⟨hparts p hp, List.infix_cons ?_⟩, .cons _ (List.sublist_append_left _ _)⟩
    have hblock : p.1 <:+: parts.flatMap Prod.fst :=
      List.infix_of_mem_flatten (List.mem_map_of_mem hp)
    exact hblock.trans (List.prefix_append _ _).isInfix
  cases h with
  | comment | symbol | literal => exact ⟨[], nofun, List.nil_sublist _, rfl⟩
  | list _ _ hparts => exact ⟨_, (hsequence hparts).1, (hsequence hparts).2, rfl⟩
  | vector _ _ hparts => exact ⟨_, (hsequence hparts).1, (hsequence hparts).2, rfl⟩
  | map _ _ hparts => exact ⟨_, (hsequence hparts).1, (hsequence hparts).2, rfl⟩
  | @shorthand _ mark _ us g _ _ _ hg _ =>
    refine ⟨[(us, g)], ?_, ?_, ?_⟩
    · simpa using ⟨hg, List.infix_cons (List.suffix_append _ _).isInfix⟩
    · simp
    · cases mark <;> rfl
  | @withMeta _ gap us gap' us' note target _ _ hnote _ _ htarget _ =>
    refine ⟨[(us, note), (us', target)], ?_, ?_, rfl⟩
    · simp only [List.forall_mem_cons]
      refine ⟨⟨hnote, List.infix_cons ?_⟩, ⟨htarget, List.infix_cons ?_⟩, nofun⟩
      · rw [List.append_assoc (gap ++ us)]
        exact List.infix_append gap us (gap' ++ us')
      · exact (List.suffix_append _ _).isInfix
    · refine .cons _ ?_
      simp only [List.flatMap_cons, List.flatMap_nil, List.append_nil]
      rw [List.append_assoc (gap ++ us)]
      exact (List.sublist_append_right gap us).append (List.sublist_append_right gap' us')

/-- The elements of a form are made up of tokens of it that follow each other. -/
theorem Derives.element {r : Nat} {ts : List Token} (h : Derives r ts f) (he : e ∈ f.elements) :
    ∃ us, Derives r us e ∧ us <:+: ts := by
  obtain ⟨parts, hparts, -, hwritten⟩ := h.exists_parts
  rw [← mem_written, hwritten] at he
  obtain ⟨p, hp, rfl⟩ := List.mem_map.1 he
  exact ⟨p.1, hparts p hp⟩

/-- The parts of a form are made up of tokens of it that follow each other. -/
theorem Derives.part {r : Nat} {ts : List Token} (h : Derives r ts f) (hg : g.PartOf f) :
    ∃ us, Derives r us g ∧ us <:+: ts := by
  induction hg generalizing ts with
  | self f => exact ⟨ts, h, List.infix_refl ts⟩
  | element he _ ih =>
    obtain ⟨us, hus, hblock⟩ := h.element he
    obtain ⟨vs, hvs, hblock'⟩ := ih hus
    exact ⟨vs, hvs, hblock'.trans hblock⟩

end Form

/-- Every token begins before the text ends. -/
theorem Scanner.offset_le_of_mem_tokens {cs : List Char} {p : Position} {t : Token}
    (ht : t ∈ tokens ⟨cs, p⟩) : t.span.start.offset ≤ (p.advanceOver cs).offset := by
  induction cs using text_induction generalizing p with
  | nil =>
    rw [tokens_nil] at ht
    cases ht
  | skipped c cs hc ih =>
    rw [tokens_skipped hc] at ht
    exact ih ht
  | token c cs hc ih =>
    obtain ⟨u, htext, hsplit⟩ := Lexeme.scan_split c cs
    have hrest : p.advanceOver (c :: cs) =
        (p.advanceOver (Lexeme.scan c cs).text).advanceOver (Lexeme.scan c cs).rest := by
      rw [← Position.advanceOver_append, htext, List.cons_append, hsplit]
    rw [tokens_cons hc] at ht
    rcases List.mem_cons.1 ht with rfl | ht
    · exact p.offset_le_advanceOver (c :: cs)
    · rw [hrest]
      exact ih ht

namespace Program

/-- The parts of a program are made up of tokens of its text that follow each other. -/
theorem derives_of_part {source : String} {reading : Nat} {p : Program} {f g : Form}
    (h : parse source reading = .ok p) (hf : f ∈ p.forms) (hg : g.PartOf f) :
    ∃ us, Form.Derives reading us g ∧ us <:+: tokenize source := by
  obtain ⟨parts, hparts, htokens, hforms⟩ := derives_of_parse h
  rw [hforms] at hf
  obtain ⟨q, hq, rfl⟩ := List.mem_map.1 hf
  obtain ⟨us, hus, hblock⟩ := (hparts q hq).part hg
  refine ⟨us, hus, hblock.trans ?_⟩
  rw [htokens]
  exact List.infix_of_mem_flatten (List.mem_map_of_mem hq)

/-- A form of a text comes from the reading of that text, and its place is in the text. -/
theorem site_of_part {source : String} {reading : Nat} {p : Program} {f g : Form}
    (h : parse source reading = .ok p) (hf : f ∈ p.forms) (hg : g.PartOf f) :
    g.site.reading = reading ∧ g.site.place < (Displacement.past source).bytes := by
  obtain ⟨us, hus, hsub⟩ := derives_of_part h hf hg
  rw [hus.site_eq]
  obtain ⟨t, ts, rfl⟩ := List.exists_cons_of_ne_nil hus.ne_nil
  have hbefore := Scanner.offset_le_of_mem_tokens (hsub.subset List.mem_cons_self)
  rw [(Position.start.advanceOver_eq source.toList).1, String.ofList_toList] at hbefore
  exact ⟨rfl, Nat.lt_succ_of_le (hbefore.trans (Nat.zero_add _).le)⟩

end Program

/-! ## Joined texts -/

/-- Where a form of the reading after a given one comes from, when its text is moved on and read
together with the text of the given reading. -/
def Site.joined (reading : Nat) (d : Displacement) (s : Site) : Site :=
  if s.reading = reading + 1 then ⟨s.span.shift d, reading, s.place + d.bytes⟩ else s

/-- A form of the reading after a given one as it is when its text is moved on and read together
with the text of the given reading. -/
def Form.joined (reading : Nat) (d : Displacement) : Form → Form := mapSites (Site.joined reading d)

namespace Program

variable {a b : String} {reading : Nat} {p q : Program}

/-- The forms of two texts with a line feed between them, read at once. -/
theorem parse_joined (ha : parse a reading = .ok p) (hb : parse b (reading + 1) = .ok q) :
    parse (a ++ "\n" ++ b) reading =
      .ok ⟨p.forms ++ q.forms.map (Form.joined reading (.past a))⟩ := by
  let always : Site → Site :=
    fun s => ⟨s.span.shift (.past a), reading, s.place + (Displacement.past a).bytes⟩
  have hmoves : Form.Moves always (reading + 1) reading (.past a) := ⟨fun _ => rfl, fun _ => rfl⟩
  rw [parse_append ha hmoves, hb]
  -- All forms of the second text come from its reading, so that they are all moved.
  have hforms : q.forms.map (Form.mapSites always) =
      q.forms.map (Form.joined reading (.past a)) := by
    refine List.map_congr_left fun f hf => Form.mapSites_congr fun g hg => ?_
    exact (if_pos (site_of_part hb hf hg).1).symm
  dsimp only
  rw [hforms]

end Program

namespace Site

/-- A site of an earlier reading than a given one, or of the given one and not moved on. -/
def Precedes (reading : Nat) (d : Displacement) (s : Site) : Prop :=
  s.reading < reading ∨ s.reading = reading ∧ s.place < d.bytes

variable {reading : Nat} {d : Displacement} {s s' : Site}

theorem joined_of_precedes (h : s.Precedes reading d) : s.joined reading d = s := by
  refine if_neg fun hs => ?_
  rcases h with h | ⟨h, -⟩ <;> omega

/-- Joining texts keeps the forms of both apart. -/
theorem same_joined (h : s.reading = reading + 1 ∨ s.Precedes reading d)
    (h' : s'.reading = reading + 1 ∨ s'.Precedes reading d) :
    (s.joined reading d).same (s'.joined reading d) = s.same s' := by
  have hmoved : ∀ {s : Site}, s.reading = reading + 1 →
      (s.joined reading d).reading = reading ∧ (s.joined reading d).place = s.place + d.bytes := by
    intro s hs
    rw [joined, if_pos hs]
    exact ⟨rfl, rfl⟩
  rw [Bool.eq_iff_iff]
  simp only [same, Bool.and_eq_true, beq_iff_eq]
  rcases h with h | h <;> rcases h' with h' | h'
  · rw [(hmoved h).1, (hmoved h).2, (hmoved h').1, (hmoved h').2]
    omega
  · -- What is moved on stands behind everything that was there in the given reading.
    rw [(hmoved h).1, (hmoved h).2, joined_of_precedes h']
    rcases h' with h' | ⟨h', hplace⟩ <;> omega
  · rw [(hmoved h').1, (hmoved h').2, joined_of_precedes h]
    rcases h with h | ⟨h, hplace⟩ <;> omega
  · rw [joined_of_precedes h, joined_of_precedes h']

end Site

namespace Likeness

/-- Forms that come from certain sites only, each in its own place. -/
def unchanged (P : Site → Prop) : Likeness where
  map := id
  dom := {f | f.SitesIn P}
  elements f hf e he g hg := hf g (.element (List.mem_filter.1 he).1 hg)
  alike f _ := by
    have hid : Form.mapSites id = id := funext Form.mapSites_id
    have halike := Form.alike_mapSites id f
    rwa [hid] at halike
  same _ _ _ _ := rfl
  names _ _ _ _ := rfl

/-- Some forms and what is in them, in their places when the text of the last reading is joined to
the one before. -/
def joined (reading : Nat) (d : Displacement) (known : Set Form)
    (hknown : ∀ f ∈ known, f.SitesIn fun s => s.reading = reading + 1 ∨ s.Precedes reading d) :
    Likeness where
  map := Form.joined reading d
  dom := {g | ∃ f ∈ known, g.PartOf f}
  elements := by
    rintro f ⟨g, hg, hf⟩ e he
    exact ⟨g, hg, hf.of_element (List.mem_filter.1 he).1⟩
  alike f _ := Form.alike_mapSites _ f
  same := by
    rintro f ⟨f', hf', hf⟩ g ⟨g', hg', hg⟩
    rw [Form.joined, Form.site_mapSites, Form.site_mapSites]
    exact Site.same_joined (hknown f' hf' f hf) (hknown g' hg' g hg)
  names _ _ g _ := Form.shorthand?_mapSites _ g

end Likeness

end Lisp
