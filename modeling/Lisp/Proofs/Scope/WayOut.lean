import Mathlib
import Lisp.Proofs.Scope.History
import Lisp.Proofs.Scope.Names

/-!
# Every way outward ends

A frame may be made within a scope that has been released, and the place of that scope may be used
again. That no way outward comes round to where it was before cannot be seen from the frames that
there are at a time, but from the order in which their handles were given out. As everywhere, there
are assumed to be fewer than 2^32 places (`Scope`).

- `Arena.WayOut`: the scopes whose frames a search passes on its way outward.
- `Grounded`: operations that make frames only within scopes of which a handle was given out before,
  together with the handles that they give out.
- `Arena.Dated`: every frame was made after the scope around it. This is what each operation keeps
  (`Dated.apply`), as long as no place has been released 2^32 times.
- `ways_out_end`: from every handle there is a way outward, it passes no place twice, and what the
  scope sees is what is bound along it.
-/

namespace Lisp

namespace Arena

variable {a : Arena} {s h o : Scope} {ss : List Scope} {f g : Frame} {n : Nat} {name : String}

/-! ## Ways outward -/

/-- The scopes whose frames are passed on the way outward from a scope. The way ends behind the
outermost scope, or before the first scope that has been released. -/
inductive WayOut (a : Arena) : Scope → List Scope → Prop
  | released {s : Scope} : a.frame? s = none → WayOut a s []
  | outermost {s : Scope} {f : Frame} : a.frame? s = some f → f.outer = none → WayOut a s [s]
  | within {s o : Scope} {f : Frame} {ss : List Scope} :
      a.frame? s = some f → f.outer = some o → WayOut a o ss → WayOut a s (s :: ss)

/-- The value of a name in the frame of a scope itself. -/
def boundIn? (a : Arena) (name : String) (s : Scope) : Option Value :=
  (a.frame? s).bind (·.bindings.lookup name)

/-- The names bound in the frame of a scope itself. -/
def namesIn (a : Arena) (s : Scope) : List String :=
  ((a.frame? s).map (·.bindings.map Prod.fst)).getD []

namespace WayOut

theorem exists_frame (hway : a.WayOut h ss) (hs : s ∈ ss) : ∃ f, a.frame? s = some f := by
  induction hway with
  | released _ => cases hs
  | outermost hf _ =>
    obtain rfl := List.mem_singleton.1 hs
    exact ⟨_, hf⟩
  | within hf _ _ ih =>
    rcases List.mem_cons.1 hs with rfl | hs
    · exact ⟨_, hf⟩
    · exact ih hs

/-- Frames that are passed have different places if they have different handles. -/
theorem nodup_index (hway : a.WayOut h ss) (hnodup : ss.Nodup) : (ss.map Scope.index).Nodup := by
  refine hnodup.map_on fun s hs t ht hindex => ?_
  obtain ⟨f, hf⟩ := hway.exists_frame hs
  obtain ⟨g, hg⟩ := hway.exists_frame ht
  exact eq_of_index_eq hf hg hindex

/-- Then there are no more of them than places. -/
theorem length_le_size (hway : a.WayOut h ss) (hnodup : ss.Nodup) :
    ss.length ≤ a.slots.size := by
  have hsubset : ss.map Scope.index ⊆ List.range a.slots.size := by
    intro i hi
    obtain ⟨s, hs, rfl⟩ := List.mem_map.1 hi
    obtain ⟨f, hf⟩ := hway.exists_frame hs
    obtain ⟨slot, hslot, -, -⟩ := frame?_eq_some_iff.1 hf
    exact List.mem_range.2 (Array.getElem?_eq_some_iff.1 hslot).1
  have hle := ((hway.nodup_index hnodup).subperm hsubset).length_le
  rwa [List.length_map, List.length_range] at hle

/-- A search that goes on to the end of the way finds what is bound first on it. -/
theorem findWithin_eq (hway : a.WayOut s ss) (hn : ss.length ≤ n) (name : String) :
    a.findWithin name n s = ss.findSome? (a.boundIn? name) := by
  induction hway generalizing n with
  | released hf => cases n <;> simp [findWithin, hf]
  | @outermost s f hf ho =>
    obtain ⟨n, rfl⟩ : ∃ m, n = m + 1 := Nat.exists_eq_add_of_le' hn
    simp only [findWithin, hf, ho, List.findSome?_cons, boundIn?, Option.bind_some]
    cases f.bindings.lookup name <;> rfl
  | @within s o f ss hf ho _ ih =>
    obtain ⟨n, rfl⟩ := Nat.exists_eq_add_of_le' (Nat.le_trans (Nat.le_add_left 1 _) hn)
    simp only [findWithin, hf, ho, List.findSome?_cons, boundIn?, Option.bind_some]
    rw [ih (by simpa using hn)]
    cases f.bindings.lookup name <;> rfl

/-- A walk to the end of the way lists what is bound anywhere on it. -/
theorem namesWithin_eq (hway : a.WayOut s ss) (hn : ss.length ≤ n) :
    a.namesWithin n s = ss.flatMap a.namesIn := by
  induction hway generalizing n with
  | released hf => cases n <;> simp [namesWithin, hf]
  | outermost hf ho =>
    obtain ⟨n, rfl⟩ : ∃ m, n = m + 1 := Nat.exists_eq_add_of_le' hn
    simp [namesWithin, hf, ho, namesIn]
  | within hf ho _ ih =>
    obtain ⟨n, rfl⟩ := Nat.exists_eq_add_of_le' (Nat.le_trans (Nat.le_add_left 1 _) hn)
    simp only [namesWithin, hf, ho, List.flatMap_cons, namesIn, Option.map_some, Option.getD_some]
    rw [ih (by simpa using hn)]

end WayOut

end Arena

/-! ## Handles that were given out -/

/-- The scope that an operation makes a frame within. -/
def Operation.outer? : Operation → Option Scope
  | create outer => outer
  | bind outer _ _ => some outer
  | set _ _ _ => none
  | collect _ => none

namespace Arena

variable {a : Arena} {s h o : Scope} {ss issued earlier : List Scope} {f g : Frame}
  {op : Operation} {ops : List Operation}

/-- The handle that an operation gives out, if it does. -/
def issues (a : Arena) (op : Operation) : List Scope := ((a.issue? op).map Prod.fst).toList

/-- Operations that make frames only within scopes of which a handle was given out before, and the
handles that they give out, the latest first. -/
inductive Grounded : List Operation → List Scope → Prop
  | nil : Grounded [] []
  | concat {ops : List Operation} {op : Operation} {issued : List Scope} : Grounded ops issued →
      (∀ o, op.outer? = some o → o ∈ issued) →
      Grounded (ops ++ [op]) ((after ops).issues op ++ issued)

theorem issues_eq (a : Arena) (op : Operation) : a.issues op = [] ∨ ∃ k, a.issues op = [k] := by
  cases op with
  | create outer => exact .inr ⟨_, rfl⟩
  | bind outer params args => exact .inr ⟨_, rfl⟩
  | set scope name v => exact .inl rfl
  | collect roots => exact .inl rfl

/-- Only handles of new frames are given out. -/
theorem eq_of_mem_issues (hh : h ∈ a.issues op) : h = (a.create op.outer?).1 := by
  cases op with
  | create outer => exact List.mem_singleton.1 hh
  | bind outer params args => exact List.mem_singleton.1 hh
  | set scope name v => cases hh
  | collect roots => cases hh

/-- A handle that is given out has its frame. -/
theorem WellFormed.exists_frame_of_mem_issues (hw : a.WellFormed) (hh : h ∈ a.issues op) :
    ∃ f, (a.apply op).frame? h = some f := by
  obtain ⟨⟨k, f⟩, hissue, rfl⟩ := Option.map_eq_some_iff.1 (Option.mem_toList.1 hh)
  exact ⟨f, hw.frame?_issue hissue⟩

/-- A frame that is there after an operation was made by it within the scope that it names, or was
there before within the same scope. -/
theorem WellFormed.frame?_of_apply (hw : a.WellFormed) (hf : (a.apply op).frame? h = some f) :
    (h ∈ a.issues op ∧ f.outer = op.outer?) ∨
      ∃ g, a.frame? h = some g ∧ g.outer = f.outer := by
  cases op with
  | create outer =>
    change (a.create outer).2.frame? h = some f at hf
    rw [hw.frame?_create] at hf
    split at hf
    · next hnew =>
      cases hf
      exact .inl ⟨List.mem_singleton.2 hnew, rfl⟩
    · exact .inr ⟨f, hf, rfl⟩
  | bind outer params args =>
    change (a.bind outer params args).2.frame? h = some f at hf
    rw [hw.frame?_bind] at hf
    split at hf
    · next hnew =>
      cases hf
      exact .inl ⟨List.mem_singleton.2 hnew, rfl⟩
    · exact .inr ⟨f, hf, rfl⟩
  | set scope name v =>
    change (a.set scope name v).frame? h = some f at hf
    rw [frame?_set] at hf
    split at hf
    · obtain ⟨g, hg, rfl⟩ := Option.map_eq_some_iff.1 hf
      exact .inr ⟨g, hg, rfl⟩
    · exact .inr ⟨f, hf, rfl⟩
  | collect roots => exact .inr ⟨f, frame?_of_collect hf, rfl⟩

/-! ## Frames in order -/

/-- Every frame was made after the scope around it, if handles have been given out in this order,
the latest first. -/
structure Dated (a : Arena) (issued : List Scope) : Prop where
  wellFormed : a.WellFormed
  nodup : issued.Nodup
  mem : ∀ h f, a.frame? h = some f → h ∈ issued
  outer : ∀ h earlier, h :: earlier <:+ issued → ∀ f o, a.frame? h = some f →
    f.outer = some o → o ∈ earlier
  /-- A handle without a frame is one of an earlier generation. -/
  past : ∀ h ∈ issued, a.frame? h = none → h.generation.toNat < a.releasesAt h.index

namespace Dated

theorem empty : Dated {} [] :=
  ⟨wellFormed_empty, .nil, nofun, fun _ _ hsuffix => by simp at hsuffix, nofun⟩

/-- The generation of a frame counts the releases of its place. -/
theorem generation_le (hf : a.frame? h = some f) :
    h.generation.toNat ≤ a.releasesAt h.index := by
  have hgen := (contains_iff_isOccupied.1 (contains_iff.2 ⟨f, hf⟩)).2
  rw [← hgen, generationAt_eq, UInt32.toNat_ofNat']
  exact Nat.mod_le _ _

/-- A new handle is none that was given out before: its generation counts all releases of its
place. -/
theorem not_mem_of_mem_issues (hd : a.Dated issued) (hh : h ∈ a.issues op)
    (hreleases : a.releasesAt h.index < 2 ^ 32) : h ∉ issued := by
  obtain rfl := eq_of_mem_issues hh
  intro hmem
  have hpast := hd.past _ hmem (hd.wellFormed.frame?_new op.outer?)
  rw [generation_create, UInt32.toNat_ofNat', Nat.mod_eq_of_lt hreleases] at hpast
  exact Nat.lt_irrefl _ hpast

/-- A handle that has no frame after an operation is one of an earlier generation. -/
theorem past_apply (hd : a.Dated issued) (hs : s ∈ issued)
    (hnone : (a.apply op).frame? s = none) :
    s.generation.toNat < (a.apply op).releasesAt s.index := by
  rw [hd.wellFormed.releasesAt_apply]
  cases hf : a.frame? s with
  | none => exact Nat.lt_add_right _ (hd.past s hs hf)
  | some f =>
    -- The frame was there before, so that the operation has emptied its place.
    cases hempties : a.empties op s.index with
    | false =>
      rw [hd.wellFormed.frame?_apply hf hempties] at hnone
      cases hnone
    | true => exact Nat.lt_succ_of_le (generation_le hf)

/-- Each operation keeps the order, if it makes its frame within a scope that was given out before
and no place has been released 2^32 times. -/
theorem apply (hd : a.Dated issued) (houter : ∀ o, op.outer? = some o → o ∈ issued)
    (hreleases : ∀ i, (a.apply op).releasesAt i < 2 ^ 32) :
    (a.apply op).Dated (a.issues op ++ issued) := by
  have hw := hd.wellFormed
  have hnew : ∀ k ∈ a.issues op, k ∉ issued := by
    refine fun k hk => hd.not_mem_of_mem_issues hk (Nat.lt_of_le_of_lt ?_ (hreleases k.index))
    rw [hw.releasesAt_apply]
    exact Nat.le_add_right _ _
  -- Frames whose handles were given out before are where they were.
  have hold : ∀ h earlier, h :: earlier <:+ issued → ∀ f o, (a.apply op).frame? h = some f →
      f.outer = some o → o ∈ earlier := by
    intro h earlier hsuffix f o hf ho
    rcases hw.frame?_of_apply hf with ⟨hissued, -⟩ | ⟨g, hg, hgo⟩
    · exact absurd (hsuffix.subset List.mem_cons_self) (hnew h hissued)
    · exact hd.outer h earlier hsuffix g o hg (hgo.trans ho)
  constructor
  case wellFormed => exact hw.apply op
  case nodup =>
    rcases a.issues_eq op with hnone | ⟨k, hk⟩
    · rw [hnone]
      exact hd.nodup
    · rw [hk] at hnew ⊢
      exact List.nodup_cons.2 ⟨hnew k List.mem_cons_self, hd.nodup⟩
  case mem =>
    intro h f hf
    rcases hw.frame?_of_apply hf with ⟨hissued, -⟩ | ⟨g, hg, -⟩
    · exact List.mem_append_left _ hissued
    · exact List.mem_append_right _ (hd.mem h g hg)
  case outer =>
    intro h earlier hsuffix f o hf ho
    rcases a.issues_eq op with hnone | ⟨k, hk⟩
    · rw [hnone] at hsuffix
      exact hold h earlier hsuffix f o hf ho
    · rw [hk] at hsuffix
      rcases List.suffix_cons_iff.1 hsuffix with heq | hsuffix
      · -- The new frame lies within the scope that the operation names.
        obtain ⟨rfl, rfl⟩ := List.cons.inj heq
        rcases hw.frame?_of_apply hf with ⟨-, hfo⟩ | ⟨g, hg, -⟩
        · exact houter o (hfo.symm.trans ho)
        · exact absurd (hd.mem h g hg) (hnew h (by simp [hk]))
      · exact hold h earlier hsuffix f o hf ho
  case past =>
    intro s hs hnone
    rcases List.mem_append.1 hs with hissued | hs
    · obtain ⟨f, hf⟩ := hw.exists_frame_of_mem_issues hissued
      rw [hf] at hnone
      cases hnone
    · exact hd.past_apply hs hnone

/-- The frames of such operations are in order. -/
theorem of_grounded (hg : Grounded ops issued) (hreleases : ∀ i, releasesIn {} ops i < 2 ^ 32) :
    (after ops).Dated issued := by
  induction hg with
  | nil => exact .empty
  | @concat ops op issued _ houter ih =>
    have hcounts : ∀ i, (after (ops ++ [op])).releasesAt i = releasesIn {} (ops ++ [op]) i := by
      intro i
      have hcount := wellFormed_empty.releasesAt_applyAll (ops ++ [op]) i
      rwa [show releasesAt {} i = 0 from rfl, Nat.zero_add] at hcount
    have happly : after (ops ++ [op]) = (after ops).apply op := List.foldl_concat ..
    have hearlier := ih fun i =>
      Nat.lt_of_le_of_lt (by rw [releasesIn_append]; exact Nat.le_add_right _ _) (hreleases i)
    rw [happly] at hcounts ⊢
    exact hearlier.apply houter fun i => (hcounts i).symm ▸ hreleases i

/-- From every handle that was given out there is a way outward, along handles that were given out
one before the other. -/
theorem exists_wayOut_of_mem (hd : a.Dated issued) (hsuffix : earlier <:+ issued)
    (hs : s ∈ earlier) : ∃ ss, a.WayOut s ss ∧ ss.Sublist earlier := by
  induction earlier generalizing s with
  | nil => cases hs
  | cons h earlier ih =>
    have hbefore := (List.suffix_cons h earlier).trans hsuffix
    rcases List.mem_cons.1 hs with rfl | hs
    · cases hf : a.frame? s with
      | none => exact ⟨[], .released hf, List.nil_sublist _⟩
      | some f =>
        cases ho : f.outer with
        | none => exact ⟨[s], .outermost hf ho, (List.nil_sublist _).cons_cons s⟩
        | some o =>
          obtain ⟨ss, hway, hsub⟩ := ih hbefore (hd.outer s earlier hsuffix f o hf ho)
          exact ⟨s :: ss, .within hf ho hway, hsub.cons_cons s⟩
    · obtain ⟨ss, hway, hsub⟩ := ih hbefore hs
      exact ⟨ss, hway, hsub.cons h⟩

/-- From every handle at all there is a way outward that passes no scope twice. -/
theorem exists_wayOut (hd : a.Dated issued) (s : Scope) : ∃ ss, a.WayOut s ss ∧ ss.Nodup := by
  cases hf : a.frame? s with
  | none => exact ⟨[], .released hf, .nil⟩
  | some f =>
    obtain ⟨ss, hway, hsub⟩ := hd.exists_wayOut_of_mem List.suffix_rfl (hd.mem s f hf)
    exact ⟨ss, hway, hd.nodup.sublist hsub⟩

end Dated

/-- No operation releases a place more than once. -/
theorem releasesIn_le_length (a : Arena) (ops : List Operation) (i : Nat) :
    a.releasesIn ops i ≤ ops.length := by
  induction ops generalizing a with
  | nil => exact Nat.le_refl 0
  | cons op ops ih =>
    rw [releasesIn, List.length_cons, Nat.add_comm]
    exact Nat.add_le_add (ih _) (Bool.toNat_le _)

/-- **Every way outward ends.** Whatever operations there were, as long as each frame was made
within a scope of which a handle was given out before, and no place has been released 2^32 times:
from every handle, live or released, the way outward ends, and it passes no frame twice. So it has
no more frames than there are places, a search or a walk that goes on beyond its end changes
nothing, a name has the value that it is bound to first along the way, the names that a scope sees
are those bound along the way, and they are the names that have a value in it. -/
theorem ways_out_end (hg : Grounded ops issued) (hreleases : ∀ i, releasesIn {} ops i < 2 ^ 32)
    (h : Scope) :
    let a := after ops
    ∃ ss, a.WayOut h ss ∧ (ss.map Scope.index).Nodup ∧ ss.length ≤ a.slots.size ∧
      (∀ n, ss.length ≤ n → (∀ name, a.findWithin name n h = a.find? h name) ∧
        sortNames (a.namesWithin n h) = a.identifiers h) ∧
      (∀ name, a.find? h name = ss.findSome? (a.boundIn? name)) ∧
      a.identifiers h = sortNames (ss.flatMap a.namesIn) ∧
      ∀ name, name ∈ a.identifiers h ↔ (a.find? h name).isSome = true := by
  intro a
  obtain ⟨ss, hway, hnodup⟩ := (Dated.of_grounded hg hreleases).exists_wayOut h
  have hsize : ss.length ≤ a.slots.size := hway.length_le_size hnodup
  refine ⟨ss, hway, hway.nodup_index hnodup, hsize, fun n hn => ⟨fun name => ?_, ?_⟩, ?_, ?_, ?_⟩
  · rw [find?, hway.findWithin_eq hn, hway.findWithin_eq hsize]
  · rw [identifiers, hway.namesWithin_eq hn, hway.namesWithin_eq hsize]
  · exact hway.findWithin_eq hsize
  · rw [identifiers, hway.namesWithin_eq hsize]
  · exact fun name => mem_identifiers_iff

/-- A frame is made within the scope that had its place before. Its way outward does not lead back
to itself. -/
theorem ways_out_end_reused :
    ∃ ops, ops = [.create none, .bind ⟨0, 0⟩ ["x"] [.int 7], .collect [⟨0, 0⟩],
        .create (some ⟨1, 0⟩)] ∧
      Grounded ops [⟨1, 1⟩, ⟨1, 0⟩, ⟨0, 0⟩] ∧ (∀ i, releasesIn {} ops i < 2 ^ 32) ∧
      (after ops).frame? ⟨1, 1⟩ = some ⟨some ⟨1, 0⟩, []⟩ ∧
      ∃ ss, (after ops).WayOut ⟨1, 1⟩ ss ∧ (ss.map Scope.index).Nodup ∧
        (∀ name, (after ops).find? ⟨1, 1⟩ name = ss.findSome? ((after ops).boundIn? name)) ∧
        (after ops).identifiers ⟨1, 1⟩ = [] := by
  have hfirst : Grounded [.create none] [⟨0, 0⟩] :=
    @Grounded.concat [] (.create none) [] .nil nofun
  have hbound : Grounded [.create none, .bind ⟨0, 0⟩ ["x"] [.int 7]] [⟨1, 0⟩, ⟨0, 0⟩] :=
    @Grounded.concat [_] (.bind ⟨0, 0⟩ ["x"] [.int 7]) _ hfirst
      fun o ho => by cases ho; exact List.mem_cons_self
  have hcollected : Grounded [.create none, .bind ⟨0, 0⟩ ["x"] [.int 7], .collect [⟨0, 0⟩]]
      [⟨1, 0⟩, ⟨0, 0⟩] :=
    @Grounded.concat [_, _] (.collect [⟨0, 0⟩]) _ hbound nofun
  have hg : Grounded [.create none, .bind ⟨0, 0⟩ ["x"] [.int 7], .collect [⟨0, 0⟩],
      .create (some ⟨1, 0⟩)] [⟨1, 1⟩, ⟨1, 0⟩, ⟨0, 0⟩] := by
    have hlast := @Grounded.concat _ (.create (some ⟨1, 0⟩)) _ hcollected
      fun o ho => by cases ho; exact List.mem_cons_self
    rw [show issues _ _ = [⟨1, 1⟩] by cbv] at hlast
    exact hlast
  have hreleases : ∀ i, releasesIn {} [.create none, .bind ⟨0, 0⟩ ["x"] [.int 7],
      .collect [⟨0, 0⟩], .create (some ⟨1, 0⟩)] i < 2 ^ 32 :=
    fun i => Nat.lt_of_le_of_lt (releasesIn_le_length _ _ i) (by decide)
  obtain ⟨ss, hway, hnodup, -, -, hfind, -, -⟩ := ways_out_end hg hreleases ⟨1, 1⟩
  exact ⟨_, rfl, hg, hreleases, by cbv, ss, hway, hnodup, hfind, by cbv⟩

end Arena

end Lisp
