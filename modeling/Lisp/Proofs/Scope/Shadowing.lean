import Lisp.Proofs.Scope.WayOut

/-!
# Where a binding is seen

A scope sees under a name what the nearest frame on its way outward binds the name to. So a new
binding is seen from the scopes whose way outward leads to its frame past no other frame that binds
the name, and from nowhere else. As everywhere, there are assumed to be fewer than 2^32 places
(`Scope`).

- `Arena.Unshadowed`: the scopes from which it is seen.
- `WayOut.transport`: ways outward are the same in an arena whose frames lie within the same scopes.
- `WayOut.find?_set_of_unshadowed`, `WayOut.find?_set_of_not_unshadowed`: what a scope sees after a
  binding.
- `Dated.find?_bind`: a frame of parameters sees what they are bound to, and otherwise what the
  scope around it sees.
- `binding_seen_unless_shadowed`: both, after every history.
-/

namespace Lisp

namespace Arena

variable {a b : Arena} {s h e o : Scope} {ss tt issued : List Scope} {f : Frame}
  {name m : String} {v : Value}

/-- The way outward from a scope leads to the frame of another, and no frame that it passes before
binds the name. -/
def Unshadowed (a : Arena) (name : String) (h e : Scope) : Prop :=
  ∃ nearer farther, a.WayOut h (nearer ++ e :: farther) ∧ ∀ s ∈ nearer, name ∉ a.namesIn s

/-- A frame binds the names that have a value in it. -/
theorem isSome_boundIn?_iff : (a.boundIn? name s).isSome = true ↔ name ∈ a.namesIn s := by
  unfold boundIn? namesIn
  cases a.frame? s with
  | none => simp
  | some f => simp [List.lookup_isSome_iff]

/-- A search along scopes finds the same in two arenas in which each of them binds the same. -/
theorem findSome?_boundIn?_congr (hsame : ∀ s ∈ ss, b.boundIn? m s = a.boundIn? m s) :
    ss.findSome? (b.boundIn? m) = ss.findSome? (a.boundIn? m) := by
  induction ss with
  | nil => rfl
  | cons s ss ih =>
    obtain ⟨hs, hss⟩ := List.forall_mem_cons.1 hsame
    rw [List.findSome?_cons, List.findSome?_cons, hs, ih hss]

/-! ## Ways outward -/

namespace WayOut

/-- From every scope there is at most one way outward. -/
theorem unique (hss : a.WayOut h ss) (htt : a.WayOut h tt) : ss = tt := by
  induction hss generalizing tt with
  | released hf =>
    cases htt with
    | released _ => rfl
    | outermost hg _ => simp [hf] at hg
    | within hg _ _ => simp [hf] at hg
  | outermost hf ho =>
    cases htt with
    | released hg => simp [hf] at hg
    | outermost _ _ => rfl
    | within hg hgo _ => simp_all
  | within hf ho _ ih =>
    cases htt with
    | released hg => simp [hf] at hg
    | outermost hg hgo => simp_all
    | within hg hgo htt =>
      obtain rfl := Option.some.inj (hf.symm.trans hg)
      obtain rfl := Option.some.inj (ho.symm.trans hgo)
      rw [ih htt]

/-- The way outward is the same in another arena in which the scopes of some class have frames
within the same scopes, if no way leads out of the class. -/
theorem transport {P : Scope → Prop} (hway : a.WayOut h ss) (hh : P h)
    (hsame : ∀ s, P s → (b.frame? s).map Frame.outer = (a.frame? s).map Frame.outer)
    (hclosed : ∀ s f o, P s → a.frame? s = some f → f.outer = some o → P o) : b.WayOut h ss := by
  have hlink : ∀ s f, P s → a.frame? s = some f → ∃ g, b.frame? s = some g ∧ g.outer = f.outer := by
    intro s f hs hf
    have houter := hsame s hs
    rw [hf, Option.map_some] at houter
    exact Option.map_eq_some_iff.1 houter
  induction hway with
  | @released s hf =>
    have houter := hsame s hh
    rw [hf, Option.map_none, Option.map_eq_none_iff] at houter
    exact .released houter
  | @outermost s f hf ho =>
    obtain ⟨g, hg, hgo⟩ := hlink s f hh hf
    exact .outermost hg (hgo.trans ho)
  | @within s o f ss hf ho _ ih =>
    obtain ⟨g, hg, hgo⟩ := hlink s f hh hf
    exact .within hg (hgo.trans ho) (ih (hclosed s f o hh hf ho))

/-- A binding changes no way outward. -/
theorem set (hway : a.WayOut h ss) (e : Scope) (name : String) (v : Value) :
    (a.set e name v).WayOut h ss := by
  refine hway.transport (P := fun _ => True) trivial (fun s _ => ?_) fun _ _ _ _ _ _ => trivial
  rw [frame?_set]
  split
  · rw [Option.map_map]
    rfl
  · rfl

end WayOut

/-! ## Bindings -/

theorem size_slots_set (a : Arena) (e : Scope) (name : String) (v : Value) :
    (a.set e name v).slots.size = a.slots.size := by
  unfold set
  split
  · exact Array.size_modify
  · rfl

/-- Only the frame of the scope binds anything else than before, and only under the name. -/
theorem boundIn?_set (he : a.contains e = true) :
    (a.set e name v).boundIn? m s = if s = e ∧ m = name then some v else a.boundIn? m s := by
  obtain ⟨f, hf⟩ := contains_iff.1 he
  unfold boundIn?
  rw [frame?_set]
  by_cases hs : s = e
  · subst hs
    simp [hf, Frame.set, Bindings.lookup_set]
  · simp [hs]

namespace WayOut

/-- After a binding, the name has the new value in a scope from which it is not shadowed. -/
theorem find?_set_of_unshadowed (hway : a.WayOut h ss) (hnodup : ss.Nodup)
    (he : a.contains e = true) (hseen : a.Unshadowed name h e) :
    (a.set e name v).find? h name = some v := by
  obtain ⟨nearer, farther, hway', hnearer⟩ := hseen
  obtain rfl := hway.unique hway'
  have hsize := hway.length_le_size hnodup
  rw [find?, (hway.set e name v).findWithin_eq (by rwa [size_slots_set]),
    List.findSome?_eq_some_iff]
  refine ⟨nearer, e, farther, rfl, by rw [boundIn?_set he, if_pos ⟨rfl, rfl⟩], fun s hs => ?_⟩
  -- No scope is passed twice, so that none of the nearer ones is the one with the binding.
  have hse : s ≠ e := by
    rintro rfl
    exact (List.nodup_append.1 hnodup).2.2 s hs s List.mem_cons_self rfl
  rw [boundIn?_set he, if_neg fun hand => hse hand.1]
  exact Option.not_isSome_iff_eq_none.1 (mt isSome_boundIn?_iff.1 (hnearer s hs))

/-- Everything else is seen as before. -/
theorem find?_set_of_not_unshadowed (hway : a.WayOut h ss) (hnodup : ss.Nodup)
    (he : a.contains e = true) (hother : ¬(m = name ∧ a.Unshadowed name h e)) :
    (a.set e name v).find? h m = a.find? h m := by
  have hsize := hway.length_le_size hnodup
  have hsame : ∀ s, ¬(s = e ∧ m = name) → (a.set e name v).boundIn? m s = a.boundIn? m s :=
    fun s hs => (boundIn?_set he).trans (if_neg hs)
  rw [find?, find?, (hway.set e name v).findWithin_eq (by rwa [size_slots_set]),
    hway.findWithin_eq hsize]
  by_cases hmem : m = name ∧ e ∈ ss
  · obtain ⟨rfl, hmem⟩ := hmem
    obtain ⟨nearer, farther, rfl⟩ := List.append_of_mem hmem
    -- A nearer scope binds the name, and the search comes no further than to that.
    obtain ⟨s, hs, hbound⟩ : ∃ s ∈ nearer, m ∈ a.namesIn s := by
      by_contra hno
      exact hother ⟨rfl, nearer, farther, hway, fun s hs hbound => hno ⟨s, hs, hbound⟩⟩
    have hnearer : nearer.findSome? ((a.set e m v).boundIn? m) =
        nearer.findSome? (a.boundIn? m) := by
      refine findSome?_boundIn?_congr fun t ht => hsame t fun hand => ?_
      exact (List.nodup_append.1 hnodup).2.2 t ht e List.mem_cons_self hand.1
    have hfound : (nearer.findSome? (a.boundIn? m)).isSome = true := by
      rw [List.findSome?_isSome_iff]
      exact ⟨s, hs, isSome_boundIn?_iff.2 hbound⟩
    rw [List.findSome?_append, List.findSome?_append, hnearer, Option.or_of_isSome hfound,
      Option.or_of_isSome hfound]
  · refine findSome?_boundIn?_congr fun s hs => hsame s ?_
    rintro ⟨rfl, rfl⟩
    exact hmem ⟨rfl, hs⟩

end WayOut

/-! ## Frames of parameters -/

namespace Dated

/-- The scope around a frame was given out. -/
theorem mem_of_outer (hd : a.Dated issued) (hf : a.frame? s = some f) (ho : f.outer = some o) :
    o ∈ issued := by
  obtain ⟨later, earlier, rfl⟩ := List.append_of_mem (hd.mem s f hf)
  have hbefore := hd.outer s earlier (List.suffix_append later (s :: earlier)) f o hf ho
  exact List.mem_append_right _ (List.mem_cons_of_mem s hbefore)

/-- The scopes on a way outward were given out. -/
theorem mem_of_wayOut (hd : a.Dated issued) (hway : a.WayOut h ss) (hs : s ∈ ss) : s ∈ issued := by
  obtain ⟨f, hf⟩ := hway.exists_frame hs
  exact hd.mem s f hf

/-- A binding keeps the order. -/
theorem set (hd : a.Dated issued) (hreleases : ∀ i, a.releasesAt i < 2 ^ 32) (e : Scope)
    (name : String) (v : Value) : (a.set e name v).Dated issued := by
  have hset : (a.apply (.set e name v)).Dated (a.issues (.set e name v) ++ issued) := by
    refine hd.apply nofun fun i => ?_
    show (a.set e name v).releasesAt i < _
    rw [releasesAt_set]
    exact hreleases i
  exact hset

/-- A frame of parameters has a handle that was not given out before. -/
theorem fst_bind_not_mem (hd : a.Dated issued) (hreleases : ∀ i, a.releasesAt i < 2 ^ 32)
    (o : Scope) (params : List String) (args : List Value) :
    (a.bind o params args).1 ∉ issued := by
  have hissues : (a.bind o params args).1 ∈ a.issues (.bind o params args) :=
    List.mem_singleton.2 rfl
  exact hd.not_mem_of_mem_issues hissues (hreleases _)

/-- Handles that were given out before stand for what they stood for. -/
theorem frame?_bind_of_mem (hd : a.Dated issued) (hreleases : ∀ i, a.releasesAt i < 2 ^ 32)
    (hs : s ∈ issued) (o : Scope) (params : List String) (args : List Value) :
    (a.bind o params args).2.frame? s = a.frame? s := by
  refine (hd.wellFormed.frame?_bind o params args s).trans (if_neg ?_)
  rintro rfl
  exact hd.fst_bind_not_mem hreleases o params args hs

/-- The way outward from a frame of parameters goes on with that of the scope around it. -/
theorem wayOut_bind (hd : a.Dated issued) (hreleases : ∀ i, a.releasesAt i < 2 ^ 32)
    (ho : o ∈ issued) (hway : a.WayOut o ss) (params : List String) (args : List Value) :
    (a.bind o params args).2.WayOut (a.bind o params args).1
      ((a.bind o params args).1 :: ss) := by
  have hframe := hd.wellFormed.frame?_bind o params args (a.bind o params args).1
  refine .within (hframe.trans (if_pos rfl)) rfl ?_
  exact hway.transport ho (fun s hs => by rw [hd.frame?_bind_of_mem hreleases hs])
    fun s f p _ hf hp => hd.mem_of_outer hf hp

/-- A frame of parameters sees what they are bound to, and otherwise what the scope around it
sees. -/
theorem find?_bind (hd : a.Dated issued) (hreleases : ∀ i, a.releasesAt i < 2 ^ 32)
    (ho : o ∈ issued) (params : List String) (args : List Value) (m : String) :
    (a.bind o params args).2.find? (a.bind o params args).1 m =
      (latest m (pairUp params args)).or (a.find? o m) := by
  obtain ⟨ss, hway, hnodup⟩ := hd.exists_wayOut o
  have hwaybind := hd.wayOut_bind hreleases ho hway params args
  have hnodupbind : ((a.bind o params args).1 :: ss).Nodup :=
    List.nodup_cons.2 ⟨fun hmem => hd.fst_bind_not_mem hreleases o params args
      (hd.mem_of_wayOut hway hmem), hnodup⟩
  have hhere : (a.bind o params args).2.boundIn? m (a.bind o params args).1 =
      latest m (pairUp params args) := by
    have hframe := hd.wellFormed.frame?_bind o params args (a.bind o params args).1
    unfold boundIn?
    rw [hframe.trans (if_pos rfl), Option.bind_some, lookup_bindAll, List.lookup_nil,
      Option.or_none]
  have hfarther : ss.findSome? ((a.bind o params args).2.boundIn? m) =
      ss.findSome? (a.boundIn? m) := by
    refine findSome?_boundIn?_congr fun s hs => ?_
    unfold boundIn?
    rw [hd.frame?_bind_of_mem hreleases (hd.mem_of_wayOut hway hs)]
  rw [find?, find?, hwaybind.findWithin_eq (hwaybind.length_le_size hnodupbind),
    hway.findWithin_eq (hway.length_le_size hnodup), List.findSome?_cons, hhere, hfarther]
  cases latest m (pairUp params args) <;> rfl

end Dated

/-! ## Bindings after any history -/

/-- Beginning with an empty arena, the count that a place keeps is that of its releases. -/
theorem releasesAt_after (ops : List Operation) (i : Nat) :
    (after ops).releasesAt i = releasesIn {} ops i :=
  (wellFormed_empty.releasesAt_applyAll ops i).trans (Nat.zero_add _)

/-- **A binding is seen unless it is shadowed.** Whatever operations there were, as long as each
frame was made within a scope of which a handle was given out before, and no place has been released
2^32 times: when a name is bound in a frame, it has the new value in every scope from which the way
outward leads to that frame past no other frame that binds the name. Other names, and the name in
any other scope, live or released, are seen as before. A function that was made in a scope, be it
before the binding, sees what its parameters are bound to, and otherwise what the scope sees. -/
theorem binding_seen_unless_shadowed {ops : List Operation} (hg : Grounded ops issued)
    (hreleases : ∀ i, releasesIn {} ops i < 2 ^ 32) (he : (after ops).contains e = true)
    (name : String) (v : Value) :
    let a := after ops
    let b := a.set e name v
    (∀ h, a.Unshadowed name h e → b.find? h name = some v) ∧
    (∀ h m, ¬(m = name ∧ a.Unshadowed name h e) → b.find? h m = a.find? h m) ∧
    ∀ h ∈ issued, ∀ params args m,
      (b.bind h params args).2.find? (b.bind h params args).1 m =
        (latest m (pairUp params args)).or (b.find? h m) := by
  intro a b
  have hd : a.Dated issued := .of_grounded hg hreleases
  have hcounts : ∀ i, a.releasesAt i < 2 ^ 32 := fun i => releasesAt_after ops i ▸ hreleases i
  refine ⟨fun h hseen => ?_, fun h m hother => ?_, fun h hh params args m => ?_⟩
  · obtain ⟨ss, hway, hnodup⟩ := hd.exists_wayOut h
    exact hway.find?_set_of_unshadowed hnodup he hseen
  · obtain ⟨ss, hway, hnodup⟩ := hd.exists_wayOut h
    exact hway.find?_set_of_not_unshadowed hnodup he hother
  · refine (hd.set hcounts e name v).find?_bind (fun i => ?_) hh params args m
    exact (releasesAt_set a e name v i).symm ▸ hcounts i

/-- A name is bound anew in the outermost frame. It is seen from a frame within that, also by a
function that was made there, but not from a frame that binds the name itself. -/
theorem binding_seen_unless_shadowed_global :
    ∃ ops, ops = [.create none, .bind ⟨0, 0⟩ ["x"] [.int 7], .create (some ⟨0, 0⟩)] ∧
      Grounded ops [⟨2, 0⟩, ⟨1, 0⟩, ⟨0, 0⟩] ∧ (∀ i, releasesIn {} ops i < 2 ^ 32) ∧
      (after ops).contains ⟨0, 0⟩ = true ∧
      ∃ b, b = (after ops).set ⟨0, 0⟩ "x" (.int 9) ∧
        b.find? ⟨2, 0⟩ "x" = some (.int 9) ∧ b.find? ⟨1, 0⟩ "x" = some (.int 7) ∧
        (b.bind ⟨2, 0⟩ ["y"] [.int 1]).2.find? (b.bind ⟨2, 0⟩ ["y"] [.int 1]).1 "x" =
          some (.int 9) := by
  have hfirst : Grounded [.create none] [⟨0, 0⟩] :=
    @Grounded.concat [] (.create none) [] .nil nofun
  have hsecond : Grounded [.create none, .bind ⟨0, 0⟩ ["x"] [.int 7]] [⟨1, 0⟩, ⟨0, 0⟩] :=
    @Grounded.concat [_] (.bind ⟨0, 0⟩ ["x"] [.int 7]) _ hfirst fun o ho => by
      cases ho
      decide
  have hg : Grounded [.create none, .bind ⟨0, 0⟩ ["x"] [.int 7], .create (some ⟨0, 0⟩)]
      [⟨2, 0⟩, ⟨1, 0⟩, ⟨0, 0⟩] :=
    @Grounded.concat [_, _] (.create (some ⟨0, 0⟩)) _ hsecond fun o ho => by
      cases ho
      decide
  have hreleases : ∀ i, releasesIn {} [.create none, .bind ⟨0, 0⟩ ["x"] [.int 7],
      .create (some ⟨0, 0⟩)] i < 2 ^ 32 :=
    fun i => Nat.lt_of_le_of_lt (releasesIn_le_length _ _ i) (by decide)
  obtain ⟨hseen, hother, hcall⟩ :=
    binding_seen_unless_shadowed hg hreleases (e := ⟨0, 0⟩) rfl "x" (.int 9)
  have hwithin := hseen ⟨2, 0⟩ ⟨[⟨2, 0⟩], [],
    .within (o := ⟨0, 0⟩) rfl rfl (.outermost rfl rfl), by decide⟩
  have hshadowed := hother ⟨1, 0⟩ "x" <| by
    rintro ⟨-, nearer, farther, hway, hnearer⟩
    have hpassed := hway.unique (.within (o := ⟨0, 0⟩) rfl rfl (.outermost rfl rfl))
    cases nearer with
    | nil => simp at hpassed
    | cons s nearer =>
      obtain rfl : s = ⟨1, 0⟩ := (List.cons.inj hpassed).1
      exact hnearer _ List.mem_cons_self (by decide)
  refine ⟨_, rfl, hg, hreleases, rfl, _, rfl, hwithin, hshadowed, ?_⟩
  exact (hcall ⟨2, 0⟩ (by decide) ["y"] [.int 1] "x").trans hwithin

end Arena

end Lisp
