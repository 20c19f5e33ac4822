import Lisp.Proofs.Form.Canonical
import Lisp.Proofs.Form.Parts

/-!
# Forms that are read back from their canonical texts

The canonical text of a program is read as its normal form, with sites of its own. Where a form of
the program is found again depends only on which form it is, since no two forms that are read are
the same.

- `Form.recast`: the normal form of a form, at sites that are given for its parts.
- `Form.Recasts`: sites at which forms become certain others. Normal forms of some forms, wherever
  they come from, are these forms at such sites (`Form.exists_recasts`).
- `Likeness.recast`: evaluation treats both alike.
-/

namespace Lisp

namespace Form

/-! ## Forms written anew -/

mutual

/-- The normal form of a form, at the sites that are given for it and for the name that is written
out for a shorthand. -/
def recast (place : Nat × Nat → Site × Site) : Form → Form
  | comment s text => comment s text
  | symbol s name => symbol (place s.key).1 name
  | literal s kind raw => literal (place s.key).1 kind (kind.canonical raw)
  | vector s es => vector (place s.key).1 (recastAll place es)
  | map s es => map (place s.key).1 (recastAll place es)
  | list s none es => list (place s.key).1 none (recastAll place es)
  | list s (some mark) es =>
    list (place s.key).1 none (symbol (place s.key).2 mark.name :: recastAll place es)

/-- The normal forms of the forms of a sequence that count. -/
def recastAll (place : Nat × Nat → Site × Site) : List Form → List Form
  | [] => []
  | f :: fs => if f.isComment then recastAll place fs else f.recast place :: recastAll place fs

end

variable {place : Nat × Nat → Site × Site} {f : Form} {fs gs fs' gs' : List Form}

theorem recastAll_eq_map (place : Nat × Nat → Site × Site) (fs : List Form) :
    recastAll place fs = (significant fs).map (recast place) := by
  induction fs with
  | nil => rfl
  | cons f fs ih =>
    rw [recastAll, ih, significant, significant, List.filter_cons]
    cases f.isComment <;> rfl

theorem site_recast (hf : f.isComment = false) : (f.recast place).site = (place f.site.key).1 := by
  fun_cases recast place f with
  | case1 => cases hf
  | case2 | case3 | case4 | case5 | case6 | case7 => rfl

@[simp] theorem isComment_recast (f : Form) : (f.recast place).isComment = f.isComment := by
  fun_cases recast place f <;> rfl

@[simp] theorem shorthand?_recast (f : Form) : (f.recast place).shorthand? = none := by
  fun_cases recast place f <;> rfl

theorem significant_recastAll (fs : List Form) :
    significant (recastAll place fs) = (significant fs).map (recast place) := by
  rw [recastAll_eq_map]
  exact significant_map_significant isComment_recast fs

/-- Evaluation treats the normal form of a form like the form, wherever both come from. -/
theorem alike_recast (place : Nat × Nat → Site × Site) (f : Form) :
    Alike (recast place) f (f.recast place) := by
  cases f with
  | comment s text => exact .comment s s text
  | symbol s name => exact .symbol s _ name
  | literal s kind raw =>
    cases kind with
    | string =>
      refine .string s _ ?_
      rw [Literal.canonical, String.toList_ofList, Quoted.meaning_quote]
    | nil | bool | int | float | keyword => exact .literal s _ _ raw
  | vector s es => exact .vector s _ (significant_recastAll es)
  | map s es => exact .map s _ (significant_recastAll es)
  | list s mark es =>
    cases mark with
    | none => exact .list s _ none (significant_recastAll es)
    | some mark =>
      refine .writtenOut s _ (place s.key).2 mark ?_
      rw [← significant_recastAll es]
      rfl

theorem recastAll_append (place : Nat × Nat → Site × Site) (fs gs : List Form) :
    recastAll place (fs ++ gs) = recastAll place fs ++ recastAll place gs := by
  simp only [recastAll_eq_map, significant, List.filter_append, List.map_append]

/-! ## Sites for normal forms -/

/-- Sites for the parts of some forms at which they become certain other forms. -/
structure Recasts (sites : List ((Nat × Nat) × Site × Site)) (fs gs : List Form) : Prop where
  keys : sites.map Prod.fst = keys fs
  apart : (sites.map fun x => x.2.1.key).Sublist (Form.keys gs)
  eq : ∀ place, (∀ x ∈ sites, place x.1 = x.2) → recastAll place fs = gs

variable {sites sites' : List ((Nat × Nat) × Site × Site)}

theorem Recasts.nil : Recasts [] [] [] := ⟨rfl, .slnil, fun _ _ => rfl⟩

theorem Recasts.append (h : Recasts sites fs gs) (h' : Recasts sites' fs' gs') :
    Recasts (sites ++ sites') (fs ++ fs') (gs ++ gs') := by
  refine ⟨?_, ?_, fun place hplace => ?_⟩
  · rw [List.map_append, h.keys, h'.keys, keys_append]
  · rw [List.map_append, keys_append]
    exact h.apart.append h'.apart
  · obtain ⟨hplace, hplace'⟩ := List.forall_mem_append.1 hplace
    rw [recastAll_append, h.eq place hplace, h'.eq place hplace']

/-- If there are sites for the elements of a form, one for the form itself makes them complete. -/
theorem Recasts.enclose {g : Form} (hf : f.isComment = false) (hg : g.isComment = false)
    (hkeys : sites.map Prod.fst = Form.keys f.elements)
    (hapart : (sites.map fun x => x.2.1.key).Sublist (Form.keys g.elements)) (head : Site)
    (heq : ∀ place, place f.site.key = (g.site, head) → (∀ x ∈ sites, place x.1 = x.2) →
      f.recast place = g) :
    Recasts ((f.site.key, g.site, head) :: sites) [f] [g] := by
  refine ⟨?_, ?_, fun place hplace => ?_⟩
  · rw [keys_singleton hf, List.map_cons, hkeys]
  · rw [keys_singleton hg, List.map_cons]
    exact hapart.cons_cons _
  · obtain ⟨hself, hplace⟩ := List.forall_mem_cons.1 hplace
    rw [recastAll, hf, if_neg Bool.false_ne_true, recastAll, heq place hself hplace]

theorem Recasts.symbol (s s' : Site) (name : String) :
    Recasts [(s.key, s', s')] [.symbol s name] [.symbol s' name] := by
  refine .enclose (f := .symbol s name) (g := .symbol s' name) rfl rfl nil.keys nil.apart s'
    fun place hself _ => ?_
  rw [recast, show place s.key = (s', s') from hself]

theorem Recasts.literal (s s' : Site) (kind : Literal) (raw : String) :
    Recasts [(s.key, s', s')] [.literal s kind raw] [.literal s' kind (kind.canonical raw)] := by
  refine .enclose (f := .literal s kind raw) (g := .literal s' kind (kind.canonical raw)) rfl rfl
    nil.keys nil.apart s' fun place hself _ => ?_
  rw [recast, show place s.key = (s', s') from hself]

theorem Recasts.bracket (h : Recasts sites fs gs) (b : Bracket) (s s' : Site) :
    Recasts ((s.key, s', s') :: sites) [ofBracket s fs b] [ofBracket s' gs b] := by
  have heq : ∀ place, place s.key = (s', s') → (∀ x ∈ sites, place x.1 = x.2) →
      (ofBracket s fs b).recast place = ofBracket s' gs b := by
    intro place hself hplace
    cases b <;> rw [ofBracket, recast, hself, h.eq place hplace] <;> rfl
  cases b with
  | paren =>
    exact .enclose (f := .list s none fs) (g := .list s' none gs) rfl rfl h.keys h.apart s' heq
  | square =>
    exact .enclose (f := .vector s fs) (g := .vector s' gs) rfl rfl h.keys h.apart s' heq
  | brace =>
    exact .enclose (f := .map s fs) (g := .map s' gs) rfl rfl h.keys h.apart s' heq

/-- The name that is written out for a shorthand has a site of its own. -/
theorem Recasts.writtenOut (h : Recasts sites fs gs) (mark : Shorthand) (s s' head : Site) :
    Recasts ((s.key, s', head) :: sites) [.list s (some mark) fs]
      [.list s' none (.symbol head mark.name :: gs)] := by
  refine .enclose (f := .list s (some mark) fs) (g := .list s' none (.symbol head mark.name :: gs))
    rfl rfl h.keys (h.apart.cons _) head fun place hself hplace => ?_
  rw [recast, show place s.key = (s', head) from hself, h.eq place hplace]

/-- There are sites for forms if there are some for each of them. -/
theorem exists_recastsAll (h : ∀ f ∈ fs, ∀ g : Form, f.isComment = false →
      g.bare = f.normal.bare → ∃ sites, Recasts sites [f] [g])
    (hbare : gs.map bare = (normals fs).map bare) : ∃ sites, Recasts sites fs gs := by
  induction fs generalizing gs with
  | nil =>
    rw [normals, List.map_nil, List.map_eq_nil_iff] at hbare
    exact ⟨[], hbare ▸ .nil⟩
  | cons f fs ih =>
    obtain ⟨hf, hfs⟩ := List.forall_mem_cons.1 h
    cases hcomment : f.isComment with
    | true =>
      rw [normals, if_pos hcomment] at hbare
      obtain ⟨sites, hsites⟩ := ih hfs hbare
      refine ⟨sites, ?_, hsites.apart, fun place hplace => ?_⟩
      · rw [hsites.keys, Form.keys, Form.keys, partsAll, if_pos hcomment]
      · rw [recastAll, if_pos hcomment, hsites.eq place hplace]
    | false =>
      rw [normals, hcomment, if_neg Bool.false_ne_true, List.map_cons,
        List.map_eq_cons_iff] at hbare
      obtain ⟨g, gs, rfl, hg, hgs⟩ := hbare
      obtain ⟨sites, hsites⟩ := hf g hcomment hg
      obtain ⟨sites', hsites'⟩ := ih hfs hgs
      exact ⟨sites ++ sites', hsites.append hsites'⟩

/-- A form that is the normal form of another, but for where it comes from, is the other at certain
sites. -/
theorem exists_recasts_form {g : Form} (hf : f.isComment = false) (hg : g.bare = f.normal.bare) :
    ∃ sites, Recasts sites [f] [g] := by
  induction f using elementwise generalizing g with
  | h f ih =>
    cases f with
    | comment => cases hf
    | symbol s name =>
      cases g with
      | symbol s' name' =>
        obtain rfl : name' = name := by simpa [bare, normal] using hg
        exact ⟨_, .symbol s s' name'⟩
      | _ => simp [bare, normal] at hg
    | literal s kind raw =>
      have hnormal : (literal s kind raw).normal = literal s kind (kind.canonical raw) := by
        cases kind <;> rfl
      cases g with
      | literal s' kind' raw' =>
        obtain ⟨rfl, rfl⟩ : kind' = kind ∧ raw' = kind.canonical raw := by
          simpa [hnormal, bare] using hg
        exact ⟨_, .literal s s' kind' raw⟩
      | _ => simp [hnormal, bare] at hg
    | vector s es =>
      cases g with
      | vector s' es' =>
        have hes : es'.map bare = (normals es).map bare := by
          simpa [bare, normal, bareAll_eq_map] using hg
        obtain ⟨sites, h⟩ := exists_recastsAll (fun e he _ => ih e he) hes
        exact ⟨_, h.bracket .square s s'⟩
      | _ => simp [bare, normal] at hg
    | map s es =>
      cases g with
      | map s' es' =>
        have hes : es'.map bare = (normals es).map bare := by
          simpa [bare, normal, bareAll_eq_map] using hg
        obtain ⟨sites, h⟩ := exists_recastsAll (fun e he _ => ih e he) hes
        exact ⟨_, h.bracket .brace s s'⟩
      | _ => simp [bare, normal] at hg
    | list s mark es =>
      cases g with
      | list s' mark' es' =>
        cases mark with
        | none =>
          obtain ⟨rfl, hes⟩ : mark' = none ∧ es'.map bare = (normals es).map bare := by
            simpa [bare, normal, bareAll_eq_map] using hg
          obtain ⟨sites, h⟩ := exists_recastsAll (fun e he _ => ih e he) hes
          exact ⟨_, h.bracket .paren s s'⟩
        | some mark =>
          obtain ⟨rfl, hes⟩ : mark' = none ∧ es'.map bare =
              symbol default mark.name :: (normals es).map bare := by
            simpa [bare, normal, bareAll_eq_map] using hg
          obtain ⟨head, rest, rfl, hhead, hrest⟩ := List.map_eq_cons_iff.1 hes
          obtain ⟨site, rfl⟩ : ∃ site, head = symbol site mark.name := by
            cases head <;> simp_all [bare]
          obtain ⟨sites, h⟩ := exists_recastsAll (fun e he _ => ih e he) hrest
          exact ⟨_, h.writtenOut mark s s' site⟩
      | _ => cases mark <;> simp [bare, normal] at hg

/-- Forms that are the normal forms of others, but for where they come from, are these others at
certain sites. -/
theorem exists_recasts (hbare : gs.map bare = (normals fs).map bare) :
    ∃ sites, Recasts sites fs gs :=
  exists_recastsAll (fun _ _ _ => exists_recasts_form) hbare

/-- Forms of which no two are the same get sites that depend only on which form it is, and stay
apart. -/
theorem Recasts.exists_place (h : Recasts sites fs gs) (hfs : (Form.keys fs).Nodup)
    (hgs : (Form.keys gs).Nodup) :
    ∃ place : Nat × Nat → Site × Site, (∀ x ∈ sites, place x.1 = x.2) ∧
      ∀ k ∈ Form.keys fs, ∀ k' ∈ Form.keys fs, (place k).1.key = (place k').1.key → k = k' := by
  have hkeys : (sites.map Prod.fst).Nodup := h.keys ▸ hfs
  have hapart : (sites.map fun x => x.2.1.key).Nodup := hgs.sublist h.apart
  have hunique : ∀ k, ∃ v, ∀ x ∈ sites, x.1 = k → v = x.2 := by
    intro k
    by_cases hk : ∃ x ∈ sites, x.1 = k
    · obtain ⟨y, hy, rfl⟩ := hk
      exact ⟨y.2, fun x hx hxy => by rw [List.inj_on_of_nodup_map hkeys hx hy hxy]⟩
    · exact ⟨default, fun x hx hxk => (hk ⟨x, hx, hxk⟩).elim⟩
  choose place hplace using hunique
  have hplace : ∀ x ∈ sites, place x.1 = x.2 := fun x hx => hplace x.1 x hx rfl
  refine ⟨place, hplace, ?_⟩
  rw [← h.keys]
  intro k hk k' hk' hsame
  obtain ⟨x, hx, rfl⟩ := List.mem_map.1 hk
  obtain ⟨y, hy, rfl⟩ := List.mem_map.1 hk'
  rw [hplace x hx, hplace y hy] at hsame
  rw [List.inj_on_of_nodup_map hapart hx hy hsame]

end Form

/-- The parts of some forms, of which no two are the same, in their normal forms at sites that keep
them apart. No shorthand may stand where names should, for in the normal form a list would. -/
def Likeness.recast (fs : List Form) (place : Nat × Nat → Site × Site)
    (hplace : ∀ k ∈ Form.keys fs, ∀ k' ∈ Form.keys fs,
      (place k).1.key = (place k').1.key → k = k')
    (hnames : ∀ f ∈ Form.partsAll fs, ∀ g ∈ f.nameOperand?, g.shorthand? = none) : Likeness where
  map := Form.recast place
  dom := {f | f ∈ Form.partsAll fs}
  elements _ hf _ he := Form.mem_partsAll_of_element hf he
  alike f _ := Form.alike_recast place f
  same f hf g hg := by
    have hkey : f.site.key ∈ Form.keys fs := List.mem_map_of_mem hf
    have hkey' : g.site.key ∈ Form.keys fs := List.mem_map_of_mem hg
    rw [Form.site_recast (Form.isComment_of_mem_partsAll hf),
      Form.site_recast (Form.isComment_of_mem_partsAll hg), Site.same_eq, Site.same_eq]
    exact decide_eq_decide.2 ⟨hplace _ hkey _ hkey', fun h => by rw [h]⟩
  names f hf g hg := by rw [Form.shorthand?_recast, hnames f hf g hg]

end Lisp
