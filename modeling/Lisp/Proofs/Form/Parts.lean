import Mathlib.Data.List.Nodup
import Mathlib.Data.List.Perm.Subperm
import Lisp.Proofs.Form.Relocation

/-!
# The parts of forms

- `Form.parts`: a form and the forms in it that count, one by one.
- `Program.nodup_keys`: no two forms of a text are the same, since each begins with a token of its
  own (`Form.Derives.subperm_keys`).
- `Program.PlainNames`: no part of a program has a shorthand where names should stand.
- `Program.parse_inReading`: in another reading a text is read as the same forms.
-/

namespace Lisp

/-- What tells a form from all others. -/
def Site.key (s : Site) : Nat × Nat := (s.reading, s.place)

theorem Site.same_eq (a b : Site) : a.same b = decide (a.key = b.key) := by
  simp [same, key, Bool.decide_and, ← Bool.beq_eq_decide_eq]

namespace Form

/-! ## Parts -/

mutual

/-- A form and the forms in it that count, at any depth. -/
def parts : Form → List Form
  | comment s text => [comment s text]
  | symbol s name => [symbol s name]
  | literal s kind raw => [literal s kind raw]
  | vector s es => vector s es :: partsAll es
  | map s es => map s es :: partsAll es
  | list s mark es => list s mark es :: partsAll es

/-- Some forms that count, with the forms in them. -/
def partsAll : List Form → List Form
  | [] => []
  | f :: fs => if f.isComment then partsAll fs else f.parts ++ partsAll fs

end

variable {f g e : Form} {fs gs : List Form}

theorem parts_eq (f : Form) : f.parts = f :: partsAll f.elements := by
  cases f <;> rfl

theorem partsAll_eq_flatMap (fs : List Form) : partsAll fs = (significant fs).flatMap parts := by
  induction fs with
  | nil => rfl
  | cons f fs ih =>
    rw [partsAll, ih, significant, significant, List.filter_cons]
    cases f.isComment <;> rfl

theorem partsAll_append (fs gs : List Form) : partsAll (fs ++ gs) = partsAll fs ++ partsAll gs := by
  simp only [partsAll_eq_flatMap, significant, List.filter_append, List.flatMap_append]

theorem mem_partsAll : g ∈ partsAll fs ↔ ∃ f ∈ significant fs, g ∈ f.parts := by
  rw [partsAll_eq_flatMap, List.mem_flatMap]

theorem mem_parts_self (f : Form) : f ∈ f.parts := by
  rw [parts_eq]
  exact List.mem_cons_self

/-- The elements of a part that count are parts. -/
theorem mem_parts_of_element (hg : g ∈ f.parts) (he : e ∈ significant g.elements) :
    e ∈ f.parts := by
  induction f using elementwise with
  | h f ih =>
    rw [parts_eq] at hg ⊢
    refine List.mem_cons_of_mem _ (mem_partsAll.2 ?_)
    rcases List.mem_cons.1 hg with rfl | hg
    · exact ⟨e, he, mem_parts_self e⟩
    · obtain ⟨d, hd, hg⟩ := mem_partsAll.1 hg
      exact ⟨d, hd, ih d (List.mem_filter.1 hd).1 hg⟩

theorem mem_partsAll_of_element (hg : g ∈ partsAll fs) (he : e ∈ significant g.elements) :
    e ∈ partsAll fs := by
  obtain ⟨f, hf, hg⟩ := mem_partsAll.1 hg
  exact mem_partsAll.2 ⟨f, hf, mem_parts_of_element hg he⟩

/-- No part of a form that counts is a comment. -/
theorem isComment_of_mem_partsAll (hg : g ∈ partsAll fs) : g.isComment = false := by
  have hparts : ∀ f : Form, f.isComment = false → ∀ g ∈ f.parts, g.isComment = false := by
    intro f
    induction f using elementwise with
    | h f ih =>
      intro hf g hg
      rw [parts_eq] at hg
      rcases List.mem_cons.1 hg with rfl | hg
      · exact hf
      · obtain ⟨d, hd, hg⟩ := mem_partsAll.1 hg
        obtain ⟨hd, hcounts⟩ := List.mem_filter.1 hd
        exact ih d hd (by simpa using hcounts) g hg
  obtain ⟨f, hf, hg⟩ := mem_partsAll.1 hg
  exact hparts f (by simpa using (List.mem_filter.1 hf).2) g hg

/-- Forms that come from elsewhere have their parts there too. -/
theorem partsAll_map_mapSites (m : Site → Site) (fs : List Form) :
    partsAll (fs.map (mapSites m)) = (partsAll fs).map (mapSites m) := by
  have hall : ∀ fs : List Form, (∀ f ∈ fs, (f.mapSites m).parts = f.parts.map (mapSites m)) →
      partsAll (fs.map (mapSites m)) = (partsAll fs).map (mapSites m) := by
    intro fs hfs
    rw [partsAll_eq_flatMap, partsAll_eq_flatMap, significant_map_mapSites, List.flatMap_map,
      List.map_flatMap]
    exact List.flatMap_congr fun f hf => hfs f (List.mem_filter.1 hf).1
  have hparts : ∀ f : Form, (f.mapSites m).parts = f.parts.map (mapSites m) := by
    intro f
    induction f using elementwise with
    | h f ih =>
      have helements : (f.mapSites m).elements = f.elements.map (mapSites m) := by
        cases f with
        | comment | symbol | literal => rfl
        | vector | map | list => exact mapSitesAll_eq_map m _
      rw [parts_eq, parts_eq f, helements, List.map_cons, hall _ ih]
  exact hall fs fun f _ => hparts f

/-! ## Distinct forms -/

/-- What tells the parts of some forms from each other. -/
def keys (fs : List Form) : List (Nat × Nat) := (partsAll fs).map fun f => f.site.key

theorem keys_append (fs gs : List Form) : keys (fs ++ gs) = keys fs ++ keys gs := by
  rw [keys, partsAll_append, List.map_append]
  rfl

/-- A form that counts comes before the forms in it. -/
theorem keys_singleton (hf : f.isComment = false) : keys [f] = f.site.key :: keys f.elements := by
  rw [keys, partsAll, hf, partsAll, if_neg Bool.false_ne_true, List.append_nil, parts_eq,
    List.map_cons]
  rfl

end Form

/-- What tells a form that begins with a token from all others. -/
def Token.key (reading : Nat) (t : Token) : Nat × Nat := (reading, t.span.start.offset)

namespace Form

variable {r : Nat} {ts : List Token} {f : Form}

theorem subperm_keys_of_parts {parts : List (List Token × Form)}
    (h : ∀ p ∈ parts, (keys [p.2]).Subperm (p.1.map (Token.key r))) :
    (keys (parts.map Prod.snd)).Subperm ((parts.flatMap Prod.fst).map (Token.key r)) := by
  induction parts with
  | nil => exact List.nil_subperm
  | cons p parts ih =>
    obtain ⟨hp, hparts⟩ := List.forall_mem_cons.1 h
    have hsplit : keys ((p :: parts).map Prod.snd) = keys [p.2] ++ keys (parts.map Prod.snd) :=
      keys_append [p.2] _
    rw [hsplit, List.flatMap_cons, List.map_append]
    exact hp.append (ih hparts)

/-- The forms in a form begin with tokens of it, and each of them with another. -/
theorem Derives.subperm_keys (h : Derives r ts f) :
    (keys [f]).Subperm (ts.map (Token.key r)) := by
  -- The first token of a form with elements, a bracket or a mark, is the first one of none of them.
  have hfirst : ∀ {t : Token} {us : List Token} {es : List Form},
      (keys es).Subperm (us.map (Token.key r)) →
      (Token.key r t :: keys es).Subperm ((t :: us).map (Token.key r)) := by
    intro t us es h
    rw [List.map_cons, List.subperm_cons]
    exact h
  have hsequence : ∀ {closer : Token} {parts : List (List Token × Form)},
      (∀ p ∈ parts, (keys [p.2]).Subperm (p.1.map (Token.key r))) →
      (keys (parts.map Prod.snd)).Subperm
        ((parts.flatMap Prod.fst ++ [closer]).map (Token.key r)) := by
    intro closer parts hparts
    rw [List.map_append]
    exact (subperm_keys_of_parts hparts).trans (List.sublist_append_left _ _).subperm
  induction h with
  | comment => exact List.nil_subperm
  | symbol | literal => exact List.Subperm.refl _
  | list _ _ _ ih =>
    rw [keys_singleton rfl]
    exact hfirst (hsequence ih)
  | vector _ _ _ ih =>
    rw [keys_singleton rfl]
    exact hfirst (hsequence ih)
  | map _ _ _ ih =>
    rw [keys_singleton rfl]
    exact hfirst (hsequence ih)
  | shorthand _ _ _ _ _ ih =>
    rw [keys_singleton rfl]
    refine hfirst (ih.trans ?_)
    rw [List.map_append]
    exact (List.sublist_append_right _ _).subperm
  | @withMeta _ gap ts gap' us note target _ _ _ _ _ _ _ ih ih' =>
    rw [keys_singleton rfl]
    refine hfirst ?_
    -- The operands are passed in the other order than they are written in.
    have hswap : (keys [target, note]).Perm (keys [note] ++ keys [target]) := by
      rw [show [target, note] = [target] ++ [note] from rfl, keys_append]
      exact List.perm_append_comm
    have hboth : (ts ++ us).Sublist (gap ++ ts ++ gap' ++ us) :=
      ((List.sublist_append_right gap ts).trans (List.sublist_append_left _ gap')).append_right us
    have hkeys := ih.append ih'
    rw [← List.map_append] at hkeys
    exact hswap.subperm.trans (hkeys.trans (hboth.map _).subperm)

end Form

namespace Program

variable {source : String} {reading : Nat} {p : Program}

/-- No two forms of a text are the same, and all come from its reading. -/
theorem nodup_keys (h : parse source reading = .ok p) :
    (Form.keys p.forms).Nodup ∧ ∀ k ∈ Form.keys p.forms, k.1 = reading := by
  obtain ⟨parts, hparts, htokens, hforms⟩ := derives_of_parse h
  have hsub : (Form.keys p.forms).Subperm ((tokenize source).map (Token.key reading)) := by
    rw [hforms, htokens]
    exact Form.subperm_keys_of_parts fun q hq => (hparts q hq).subperm_keys
  have hapart : ((tokenize source).map (Token.key reading)).Nodup := by
    have hordered := tokenize_ordered source
    refine List.pairwise_map.2 (hordered.apart.imp_of_mem fun {t u} ht _ htu hkey => ?_)
    have hstart : t.span.start.offset = u.span.start.offset := congrArg Prod.snd hkey
    have hnonempty := hordered.nonempty t ht
    omega
  constructor
  · obtain ⟨ks, hperm, hks⟩ := hsub
    exact hperm.nodup_iff.1 (hapart.sublist hks)
  · intro k hk
    obtain ⟨t, -, rfl⟩ := List.mem_map.1 (hsub.subset hk)
    rfl

end Program

/-! ## Other readings -/

namespace Program

variable {source : String} {reading : Nat} {p : Program}

/-- No shorthand stands where names should. -/
def PlainNames (p : Program) : Prop :=
  ∀ f ∈ Form.partsAll p.forms, ∀ g ∈ f.nameOperand?, g.shorthand? = none

instance (p : Program) : Decidable p.PlainNames :=
  inferInstanceAs (Decidable (∀ f ∈ Form.partsAll p.forms, ∀ g ∈ f.nameOperand?, _ = _))

/-- A program whose forms come from elsewhere. -/
def mapSites (m : Site → Site) (p : Program) : Program := ⟨p.forms.map (Form.mapSites m)⟩

/-- In another reading, a text is read as the same forms. -/
theorem parse_inReading (h : parse source reading = .ok p) (reading' : Nat) :
    parse source reading' = .ok (p.mapSites fun s => { s with reading := reading' }) := by
  have hmoves : Form.Moves (fun s => { s with reading := reading' }) reading reading' ⟨0, 0⟩ :=
    ⟨fun _ => rfl, fun _ => rfl⟩
  have hstay : (tokenize source).map (Token.shift ⟨0, 0⟩) = tokenize source := List.map_id' _
  have hread := Form.readAll_moved hmoves (tokenize source)
  rw [parse_eq_ok_iff.1 h, hstay] at hread
  exact parse_eq_ok_iff.2 hread

theorem text_mapSites (m : Site → Site) (p : Program) : (p.mapSites m).text = p.text := by
  have htext : ∀ f : Form, (f.mapSites m).text = f.text := by
    intro f
    induction f using Form.elementwise with
    | h f ih => exact (Form.alike_mapSites m f).text_eq fun e he => ih e (List.mem_filter.1 he).1
  rw [text, text, Form.texts_eq_map, Form.texts_eq_map, mapSites, Form.significant_map_mapSites,
    List.map_map]
  exact congrArg _ (List.map_congr_left fun f _ => htext f)

theorem PlainNames.mapSites (h : p.PlainNames) (m : Site → Site) : (p.mapSites m).PlainNames := by
  intro f' hf' g' hg'
  rw [Program.mapSites, Form.partsAll_map_mapSites] at hf'
  obtain ⟨f, hf, rfl⟩ := List.mem_map.1 hf'
  rw [Form.nameOperand?_mapSites] at hg'
  obtain ⟨g, hg, rfl⟩ := Option.mem_map.1 hg'
  rw [Form.shorthand?_mapSites]
  exact h f hf g hg

end Program

end Lisp
