import Lisp.Proofs.Form.Place
import Lisp.Proofs.Token.Slice

/-!
# The text of a form

The span of a form delimits its text: read on its own, that text is this form and nothing else.

- `Form.relocate`: a form between other places. `Form.Derives.relocate` says that it is made up of
  the tokens that are put there.
- `Form.Derives.written_apart`: the elements of a form lie inside it, one after the other.
- `Program.parse_slice`: the text of a form, read on its own.
-/

namespace Lisp

/-! ## Forms between other places -/

/-- A form of a reading, between other places. -/
def Form.relocate (reading : Nat) (starts stops : Position → Position) : Form → Form :=
  mapSites fun s => .ofSpan reading (s.span.relocate starts stops)

namespace Form

variable {r : Nat} {ts : List Token} {f : Form}

theorem cover_relocate (starts stops : Position → Position) (hne : ts ≠ []) :
    Token.cover (ts.map (Token.relocate starts stops)) =
      (Token.cover ts).relocate starts stops := by
  obtain ⟨t, ts, rfl⟩ := List.exists_cons_of_ne_nil hne
  rw [List.map_cons, Token.cover, List.getLastD_map]
  rfl

/-- The site of a form that is made up of tokens that are put elsewhere. -/
theorem siteOf_relocate (r' : Nat) (starts stops : Position → Position) (hne : ts ≠ []) :
    Site.ofSpan r' ((siteOf r ts).span.relocate starts stops) =
      siteOf r' (ts.map (Token.relocate starts stops)) := by
  rw [siteOf, siteOf, cover_relocate starts stops hne]
  rfl

section Elsewhere

variable (r' : Nat) (starts stops : Position → Position)

theorem Derives.bracket_relocate {opener closer : Token} {parts : List (List Token × Form)}
    {b : Bracket} (ho : opener.kind = .opening b) (hc : closer.kind = .closing b)
    (hparts : ∀ p ∈ parts,
      Derives r' (p.1.map (Token.relocate starts stops)) (p.2.relocate r' starts stops)) :
    Derives r' ((opener :: (parts.flatMap Prod.fst ++ [closer])).map (Token.relocate starts stops))
      ((ofBracket (siteOf r (opener :: (parts.flatMap Prod.fst ++ [closer])))
        (parts.map Prod.snd) b).relocate r' starts stops) := by
  let put : List Token × Form → List Token × Form := fun p =>
    (p.1.map (Token.relocate starts stops), p.2.relocate r' starts stops)
  have hput : ∀ q ∈ parts.map put, Derives r' q.1 q.2 := by
    intro q hq
    obtain ⟨p, hp, rfl⟩ := List.mem_map.1 hq
    exact hparts p hp
  have hopener : (opener.relocate starts stops).kind = .opening b := ho
  have hcloser : (closer.relocate starts stops).kind = .closing b := hc
  have hd := Derives.bracket hopener hcloser hput
  have htokens : (opener :: (parts.flatMap Prod.fst ++ [closer])).map
      (Token.relocate starts stops) = opener.relocate starts stops ::
        ((parts.map put).flatMap Prod.fst ++ [closer.relocate starts stops]) := by
    simp [put, List.map_flatMap, List.flatMap_map]
  rw [relocate, mapSites_ofBracket, siteOf_relocate r' starts stops (List.cons_ne_nil _ _), htokens,
    List.map_map]
  rwa [List.map_map] at hd

/-- A form is made up of its tokens wherever they are put. -/
theorem Derives.relocate (h : Derives r ts f) :
    Derives r' (ts.map (Token.relocate starts stops)) (f.relocate r' starts stops) := by
  have hsite : ∀ {ts : List Token}, ts ≠ [] →
      Site.ofSpan r' ((siteOf r ts).span.relocate starts stops) =
        siteOf r' (ts.map (Token.relocate starts stops)) :=
    siteOf_relocate r' starts stops
  have hcounts : ∀ {f : Form}, f.isComment = false →
      (f.relocate r' starts stops).isComment = false := by
    intro f hf
    cases f with
    | comment => cases hf
    | _ => rfl
  have hgap : ∀ {gap : List Token}, (∀ c ∈ gap, c.kind = .comment) →
      ∀ c ∈ gap.map (Token.relocate starts stops), c.kind = .comment := by
    intro gap hgap c hc
    obtain ⟨d, hd, rfl⟩ := List.mem_map.1 hc
    exact hgap d hd
  induction h with
  | @comment t hk =>
    have hd : Derives r' _ _ := .comment (t := t.relocate starts stops) hk
    rw [Form.relocate, mapSites, hsite (List.cons_ne_nil t [])]
    exact hd
  | @symbol t hk =>
    have hd : Derives r' _ _ := .symbol (t := t.relocate starts stops) hk
    rw [Form.relocate, mapSites, hsite (List.cons_ne_nil t [])]
    exact hd
  | @literal t kind hk hint =>
    have hd : Derives r' _ _ := .literal (t := t.relocate starts stops) hk hint
    rw [Form.relocate, mapSites, hsite (List.cons_ne_nil t [])]
    exact hd
  | list ho hc _ ih => exact bracket_relocate (b := .paren) r' starts stops ho hc ih
  | vector ho hc _ ih => exact bracket_relocate (b := .square) r' starts stops ho hc ih
  | map ho hc _ ih => exact bracket_relocate (b := .brace) r' starts stops ho hc ih
  | @shorthand t mark gap ts f hk hmark hgap' _ hcomment ih =>
    have hd := Derives.shorthand (t := t.relocate starts stops) hk hmark (hgap hgap') ih
      (hcounts hcomment)
    rw [Form.relocate, mapSites, hsite (List.cons_ne_nil t _), List.map_cons, List.map_append]
    exact hd
  | @withMeta t gap ts gap' us note target hk hg _ hcomment hg' _ hcomment' ih ih' =>
    have hd := Derives.withMeta (t := t.relocate starts stops) hk (hgap hg) ih (hcounts hcomment)
      (hgap hg') ih' (hcounts hcomment')
    rw [Form.relocate, mapSites, hsite (List.cons_ne_nil t _), List.map_cons, List.map_append,
      List.map_append, List.map_append]
    exact hd

end Elsewhere

end Form

/-! ## Elements -/

/-- A token lies in the text that it covers together with others. -/
theorem Token.Ordered.mem_cover {t : Token} {ts : List Token} (ho : Token.Ordered ts)
    (ht : t ∈ ts) :
    (Token.cover ts).start.offset ≤ t.span.start.offset ∧
      t.span.stop.offset ≤ (Token.cover ts).stop.offset := by
  obtain ⟨first, us, rfl⟩ := List.exists_cons_of_ne_nil (List.ne_nil_of_mem ht)
  constructor
  case left =>
    show first.span.start.offset ≤ t.span.start.offset
    rcases List.mem_cons.1 ht with rfl | hmem
    · exact Nat.le_refl _
    · have hself := ho.nonempty first List.mem_cons_self
      have hapart := (List.pairwise_cons.1 ho.apart).1 t hmem
      omega
  case right =>
    obtain ⟨before, last, heq, hstop⟩ := Token.exists_last (List.ne_nil_of_mem ht)
    rw [heq] at ho ht
    rw [hstop]
    rcases List.mem_append.1 ht with hmem | hmem
    · have hself := ho.nonempty last (by simp)
      have hapart := (List.pairwise_append.1 ho.apart).2.2 t hmem last (by simp)
      omega
    · rw [List.mem_singleton.1 hmem]

namespace Form

variable {r : Nat} {ts : List Token} {f : Form}

/-- A form begins with one of its tokens and ends with one of them. -/
theorem Derives.exists_ends (h : Derives r ts f) :
    ∃ first ∈ ts, ∃ last ∈ ts, f.span = ⟨first.span.start, last.span.stop⟩ := by
  rw [h.span_eq]
  obtain ⟨first, us, rfl⟩ := List.exists_cons_of_ne_nil h.ne_nil
  exact ⟨first, List.mem_cons_self, us.getLastD first, List.getLastD_mem_cons, rfl⟩

/-- The elements of a form lie inside it, and each ends before the next one begins. -/
theorem Derives.written_apart (h : Derives r ts f) (ho : Token.Ordered ts) :
    (∀ e ∈ f.written, f.span.start.offset ≤ e.span.start.offset ∧
        e.span.stop.offset ≤ f.span.stop.offset) ∧
      f.written.Pairwise fun d e => d.span.stop.offset ≤ e.span.start.offset := by
  obtain ⟨parts, hparts, hsub, hwritten⟩ := h.exists_parts
  rw [hwritten, List.pairwise_map]
  constructor
  case left =>
    intro e he
    obtain ⟨p, hp, rfl⟩ := List.mem_map.1 he
    obtain ⟨hderives, hblock⟩ := hparts p hp
    obtain ⟨first, hfirst, last, hlast, hspan⟩ := hderives.exists_ends
    rw [hspan, h.span_eq]
    exact ⟨(ho.mem_cover (hblock.subset hfirst)).1, (ho.mem_cover (hblock.subset hlast)).2⟩
  case right =>
    have happart := (List.pairwise_flatMap.1 (ho.sublist hsub).apart).2
    refine happart.imp_of_mem fun {p q} hp hq hbefore => ?_
    obtain ⟨_, _, last, hlast, hspan⟩ := (hparts p hp).1.exists_ends
    obtain ⟨first, hfirst, _, _, hspan'⟩ := (hparts q hq).1.exists_ends
    rw [hspan, hspan']
    exact hbefore last hlast first hfirst

end Form

/-! ## Forms on their own -/

/-- A form as it is when its text is read on its own: its places are counted from where it
begins. -/
def Form.alone (reading : Nat) (f : Form) : Form :=
  f.relocate reading f.span.start.since f.span.start.since

namespace Program

variable {source : String} {reading : Nat} {p : Program} {f g : Form}

/-- **The span of a form delimits its text.** Every form of a source text, at any depth, covers a
stretch of it. Its elements lie in that stretch, in the order in which they are written, and none
begins before the one before it has ended. The text of the stretch is a program with one form, which
is this form with all of its places counted from where it begins. -/
theorem parse_slice (h : parse source reading = .ok p) (hf : f ∈ p.forms) (hg : g.PartOf f)
    (reading' : Nat) :
    g.span.IsIn source ∧
      (∀ e ∈ g.written, g.span.start.offset ≤ e.span.start.offset ∧
        e.span.stop.offset ≤ g.span.stop.offset) ∧
      (g.written.Pairwise fun d e => d.span.stop.offset ≤ e.span.start.offset) ∧
      ∃ slice : String, slice.toByteArray =
          source.toByteArray.extract g.span.start.offset g.span.stop.offset ∧
        parse slice reading' = .ok ⟨[g.alone reading']⟩ := by
  obtain ⟨us, hus, hblock⟩ := derives_of_part h hf hg
  obtain ⟨hinside, hapart⟩ :=
    hus.written_apart ((tokenize_ordered source).sublist hblock.sublist)
  refine ⟨isIn_of_part h hf hg, hinside, hapart, ?_⟩
  obtain ⟨slice, hbytes, htokens⟩ := tokenize_slice hblock hus.ne_nil
  rw [← hus.span_eq] at hbytes htokens
  have halone : Form.Derives reading' (tokenize slice) (g.alone reading') := by
    rw [htokens]
    exact hus.relocate reading' g.span.start.since g.span.start.since
  refine ⟨slice, hbytes, parse_of_derives ⟨[(tokenize slice, g.alone reading')], ?_, ?_, rfl⟩⟩
  · exact List.forall_mem_singleton.2 halone
  · rw [List.flatMap_singleton]

/-- A noted number with the name right behind it left out. -/
theorem parse_slice_noted : ∃ (p : Program) (f g : Form),
    parse "(é\n ^m ;k\n 12abc)" = .ok p ∧ f ∈ p.forms ∧ g.PartOf f ∧
      g.span = ⟨⟨5, 2, 1⟩, ⟨14, 3, 3⟩⟩ ∧
      ∃ slice : String, slice.toByteArray =
          "(é\n ^m ;k\n 12abc)".toByteArray.extract 5 14 ∧
        parse slice 1 = .ok ⟨[.list (.ofSpan 1 ⟨⟨0, 1, 0⟩, ⟨9, 2, 3⟩⟩) (some .withMeta)
          [.literal (.ofSpan 1 ⟨⟨7, 2, 1⟩, ⟨9, 2, 3⟩⟩) .int "12",
            .symbol (.ofSpan 1 ⟨⟨1, 1, 1⟩, ⟨2, 1, 2⟩⟩) "m"]]⟩ := by
  let noted : Form := .list (.ofSpan 0 ⟨⟨5, 2, 1⟩, ⟨14, 3, 3⟩⟩) (some .withMeta)
    [.literal (.ofSpan 0 ⟨⟨12, 3, 1⟩, ⟨14, 3, 3⟩⟩) .int "12",
      .symbol (.ofSpan 0 ⟨⟨6, 2, 2⟩, ⟨7, 2, 3⟩⟩) "m"]
  let whole : Form := .list (.ofSpan 0 ⟨⟨0, 1, 0⟩, ⟨18, 3, 7⟩⟩) none
    [.symbol (.ofSpan 0 ⟨⟨1, 1, 1⟩, ⟨3, 1, 3⟩⟩) "é", noted,
      .symbol (.ofSpan 0 ⟨⟨14, 3, 3⟩, ⟨17, 3, 6⟩⟩) "abc"]
  have hparse : parse "(é\n ^m ;k\n 12abc)" = .ok ⟨[whole]⟩ := by cbv
  have hpart : noted.PartOf whole := .element (.tail _ (.head _)) (.self noted)
  have hwhole : whole ∈ [whole] := List.mem_singleton.2 rfl
  exact ⟨_, whole, noted, hparse, hwhole, hpart, rfl,
    (parse_slice hparse hwhole hpart 1).2.2.2⟩

end Program

end Lisp
