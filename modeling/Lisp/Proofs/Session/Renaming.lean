import Mathlib.Data.Set.Function
import Lisp.Session.Basic
import Lisp.Proofs.Scope.Reachable
import Lisp.Proofs.Scope.Renaming

/-!
# Sessions that differ in the names of their scopes

Two sessions that run the same program may release frames at different moments. They then keep
corresponding frames in different places, and one of them may hold frames that the other has
released. What they need of their frames is the same.

- `Renaming`: other names for some scopes, one name for each.
- `Renaming.Relates`: two sessions are the same up to a renaming of the scopes that they need.
- `Session.Paired`: two scopes that take the same place among the roots of two sessions. This does
  not mention the renaming, and so outlives a change of it.
- `Renaming.Relates.trim`: collections on either side leave the sessions related.
-/

namespace Lisp

/-- Other names for some scopes. -/
structure Renaming where
  map : Scope → Scope
  /-- The scopes that get another name. -/
  dom : Set Scope
  /-- Different scopes get different names. -/
  injOn : Set.InjOn map dom

namespace Renaming

/-- The other name of a scope. -/
def OnScope (ρ : Renaming) (h k : Scope) : Prop := k = ρ.map h ∧ h ∈ ρ.dom

/-- The same value under the other names. -/
def OnValue (ρ : Renaming) (v w : Value) : Prop :=
  w = v.rename ρ.map ∧ ∀ c ∈ v.captured, c ∈ ρ.dom

/-- The same values under the other names. -/
def OnValues (ρ : Renaming) (vs ws : List Value) : Prop :=
  ws = vs.map (Value.rename ρ.map) ∧ ∀ c ∈ Value.capturedByAll vs, c ∈ ρ.dom

/-- The same entries under the other names. -/
def OnEntries (ρ : Renaming) (es fs : List (Key × Value)) : Prop :=
  fs = es.map (fun e => (e.1, e.2.rename ρ.map)) ∧ ∀ c ∈ Value.capturedByEntries es, c ∈ ρ.dom

variable {ρ : Renaming} {v w : Value} {vs ws : List Value}

theorem OnValues.nil : ρ.OnValues [] [] := ⟨rfl, by simp [Value.capturedByAll]⟩

theorem OnValues.cons (hv : ρ.OnValue v w) (hvs : ρ.OnValues vs ws) :
    ρ.OnValues (v :: vs) (w :: ws) := by
  refine ⟨by rw [List.map_cons, hv.1, hvs.1], fun c hc => ?_⟩
  rcases List.mem_append.1 hc with hc | hc
  · exact hv.2 c hc
  · exact hvs.2 c hc

theorem OnValues.vector (hvs : ρ.OnValues vs ws) : ρ.OnValue (.vector vs) (.vector ws) :=
  ⟨by rw [hvs.1, Value.rename, Value.renameAll_eq_map], hvs.2⟩

theorem OnEntries.cons {es fs : List (Key × Value)} (k : Key) (hv : ρ.OnValue v w)
    (hes : ρ.OnEntries es fs) : ρ.OnEntries ((k, v) :: es) ((k, w) :: fs) := by
  refine ⟨by rw [List.map_cons, hv.1, hes.1], fun c hc => ?_⟩
  rcases List.mem_append.1 hc with hc | hc
  · exact hv.2 c hc
  · exact hes.2 c hc

theorem OnEntries.map {es fs : List (Key × Value)} (hes : ρ.OnEntries es fs) :
    ρ.OnValue (.map (Entries.ofList es)) (.map (Entries.ofList fs)) := by
  refine ⟨?_, fun c hc => ?_⟩
  · rw [hes.1, Entries.ofList_map, Value.rename, Value.renameEntries_eq_map]
  · obtain ⟨e, he, hce⟩ := Value.mem_capturedByEntries.1 hc
    exact hes.2 c (Value.mem_capturedByEntries.2 ⟨e, Entries.mem_of_mem_ofList he, hce⟩)

/-- A value without functions has only one name. -/
theorem OnValue.of_captured_eq_nil (hv : v.captured = []) : ρ.OnValue v v := by
  have hsame : v.rename ρ.map = v.rename id := Value.rename_congr fun c hc => by simp [hv] at hc
  exact ⟨by rw [hsame, Value.rename_id], fun c hc => by simp [hv] at hc⟩

/-! ## One more name -/

/-- A name for one more scope, which is the name of no other. -/
def insert (ρ : Renaming) (h k : Scope) (hh : h ∉ ρ.dom) (hk : ∀ l ∈ ρ.dom, ρ.map l ≠ k) :
    Renaming where
  map := Function.update ρ.map h k
  dom := Insert.insert h ρ.dom
  injOn := by
    have hold : ∀ l ∈ ρ.dom, Function.update ρ.map h k l = ρ.map l := by
      intro l hl
      rw [Function.update_of_ne]
      rintro rfl
      exact hh hl
    rintro l (rfl | hl) m (rfl | hm) heq
    · rfl
    · rw [Function.update_self, hold m hm] at heq
      exact absurd heq.symm (hk m hm)
    · rw [Function.update_self, hold l hl] at heq
      exact absurd heq (hk l hl)
    · rw [hold l hl, hold m hm] at heq
      exact ρ.injOn hl hm heq

section insert

variable {h k : Scope} {hh : h ∉ ρ.dom} {hk : ∀ l ∈ ρ.dom, ρ.map l ≠ k}

theorem insert_map_self : (ρ.insert h k hh hk).map h = k := Function.update_self ..

theorem insert_map_of_mem {l : Scope} (hl : l ∈ ρ.dom) : (ρ.insert h k hh hk).map l = ρ.map l := by
  refine Function.update_of_ne ?_ ..
  rintro rfl
  exact hh hl

theorem rename_insert (hv : ∀ c ∈ v.captured, c ∈ ρ.dom) :
    v.rename (ρ.insert h k hh hk).map = v.rename ρ.map :=
  Value.rename_congr fun c hc => insert_map_of_mem (hv c hc)

theorem frame_rename_insert {f : Frame} (hf : ∀ l ∈ f.links, l ∈ ρ.dom) :
    f.rename (ρ.insert h k hh hk).map = f.rename ρ.map :=
  Frame.rename_congr fun l hl => insert_map_of_mem (hf l hl)

end insert

/-! ## Related sessions -/

/-- Two sessions are the same up to the names of scopes. The renaming covers all scopes that the
left session needs; each of them has a frame on either side, and so has everything that it links
to. -/
structure Relates (ρ : Renaming) (s t : Session) : Prop where
  wellFormed_left : s.arena.WellFormed
  wellFormed_right : t.arena.WellFormed
  frame : ∀ h ∈ ρ.dom, ∃ f, s.arena.frame? h = some f ∧ (∀ l ∈ f.links, l ∈ ρ.dom) ∧
    t.arena.frame? (ρ.map h) = some (f.rename ρ.map)
  depth : ∀ h ∈ ρ.dom, ∃ n, s.arena.Depth h n
  roots : ∀ h ∈ s.roots, h ∈ ρ.dom
  global : t.global = ρ.map s.global
  active : t.active = s.active.map ρ.map
  held : t.held = s.held.map (Value.rename ρ.map)
  sink : t.sink = s.sink
  readings : t.readings = s.readings
  lost_left : s.arena.lost = []
  lost_right : t.arena.lost = []

end Renaming

namespace Session

variable {s t s' t' s'' : Session}

/-- The same roots. -/
structure SameRoots (s s' : Session) : Prop where
  global : s'.global = s.global
  active : s'.active = s.active
  held : s'.held = s.held

theorem SameRoots.refl (s : Session) : s.SameRoots s := ⟨rfl, rfl, rfl⟩

theorem SameRoots.trans (h : s.SameRoots s') (h' : s'.SameRoots s'') : s.SameRoots s'' :=
  ⟨h'.global.trans h.global, h'.active.trans h.active, h'.held.trans h.held⟩

theorem mem_roots {h : Scope} :
    h ∈ s.roots ↔ h = s.global ∨ h ∈ s.active ∨ ∃ v ∈ s.held, h ∈ v.captured := by
  simp [roots, Value.mem_capturedByAll]

/-- Two scopes that take the same place in two sessions: that of the global scope, or the same
place among the scopes under way. -/
def Paired (s t : Session) (h k : Scope) : Prop :=
  (h = s.global ∧ k = t.global) ∨ (h, k) ∈ s.active.zip t.active

theorem Paired.congr {h k : Scope} (hp : s.Paired t h k) (hs : s.SameRoots s')
    (ht : t.SameRoots t') : s'.Paired t' h k := by
  unfold Paired at hp ⊢
  rwa [hs.global, hs.active, ht.global, ht.active]

theorem paired_enter (s t : Session) (a b : Scope) : (s.enter a).Paired (t.enter b) a b :=
  .inr (List.mem_cons_self ..)

theorem Paired.hold {h k : Scope} (hp : s.Paired t h k) (v w : Value) :
    (s.hold v).Paired (t.hold w) h k := hp

end Session

namespace Renaming.Relates

variable {ρ : Renaming} {s t : Session} {a b h k : Scope} {v w : Value}

/-- Scopes in the same place are names of each other. -/
theorem onScope (hr : ρ.Relates s t) (hp : s.Paired t h k) : ρ.OnScope h k := by
  rcases hp with ⟨rfl, rfl⟩ | hmem
  · exact ⟨hr.global, hr.roots _ (Session.mem_roots.2 (.inl rfl))⟩
  · have hzip : s.active.zip t.active = s.active.map fun h => (h, ρ.map h) := by
      have := List.zip_map' (l := s.active) (f := id) (g := ρ.map)
      rwa [List.map_id, ← hr.active] at this
    rw [hzip, List.mem_map] at hmem
    obtain ⟨_, hactive, heq⟩ := hmem
    cases heq
    exact ⟨rfl, hr.roots _ (Session.mem_roots.2 (.inr (.inl hactive)))⟩

/-! ## The stacks -/

theorem enter (hr : ρ.Relates s t) (hab : ρ.OnScope a b) :
    ρ.Relates (s.enter a) (t.enter b) :=
  { hr with
    roots := by
      intro h hh
      rcases Session.mem_roots.1 hh with rfl | hactive | hheld
      · exact hr.roots _ (Session.mem_roots.2 (.inl rfl))
      · rcases List.mem_cons.1 hactive with rfl | hactive
        · exact hab.2
        · exact hr.roots _ (Session.mem_roots.2 (.inr (.inl hactive)))
      · exact hr.roots _ (Session.mem_roots.2 (.inr (.inr hheld)))
    active := by
      show b :: t.active = (a :: s.active).map ρ.map
      rw [List.map_cons, hab.1, hr.active] }

theorem leave (hr : ρ.Relates s t) : ρ.Relates s.leave t.leave :=
  { hr with
    roots := by
      intro h hh
      refine hr.roots h (Session.mem_roots.2 ?_)
      exact (Session.mem_roots.1 hh).imp id (Or.imp List.mem_of_mem_tail id)
    active := by
      show t.active.tail = s.active.tail.map ρ.map
      rw [hr.active, List.map_tail] }

theorem hold (hr : ρ.Relates s t) (hvw : ρ.OnValue v w) : ρ.Relates (s.hold v) (t.hold w) :=
  { hr with
    roots := by
      intro h hh
      rcases Session.mem_roots.1 hh with rfl | hactive | ⟨u, hu, hcap⟩
      · exact hr.roots _ (Session.mem_roots.2 (.inl rfl))
      · exact hr.roots _ (Session.mem_roots.2 (.inr (.inl hactive)))
      · rcases List.mem_cons.1 hu with rfl | hu
        · exact hvw.2 h hcap
        · exact hr.roots _ (Session.mem_roots.2 (.inr (.inr ⟨u, hu, hcap⟩)))
    held := by
      show w :: t.held = (v :: s.held).map (Value.rename ρ.map)
      rw [List.map_cons, hvw.1, hr.held] }

theorem letGo (hr : ρ.Relates s t) : ρ.Relates s.letGo t.letGo :=
  { hr with
    roots := by
      intro h hh
      refine hr.roots h (Session.mem_roots.2 ?_)
      refine (Session.mem_roots.1 hh).imp id (Or.imp id ?_)
      rintro ⟨u, hu, hcap⟩
      exact ⟨u, List.mem_of_mem_tail hu, hcap⟩
    held := by
      show t.held.tail = s.held.tail.map (Value.rename ρ.map)
      rw [hr.held, List.map_tail] }

/-- The latest values that wait are names of each other. -/
theorem onValue_of_held {vs ws : List Value} (hr : ρ.Relates s t) (hs : s.held = v :: vs)
    (ht : t.held = w :: ws) : ρ.OnValue v w := by
  refine ⟨?_, fun c hc => ?_⟩
  · have hheld := hr.held
    rw [hs, ht, List.map_cons] at hheld
    exact (List.cons.inj hheld).1
  · exact hr.roots c (Session.mem_roots.2 (.inr (.inr ⟨v, by simp [hs], hc⟩)))

/-! ## Frames -/

/-- The way outward is as long on both sides. -/
theorem depth_map (hr : ρ.Relates s t) (hdom : h ∈ ρ.dom) {n : Nat} (hn : s.arena.Depth h n) :
    t.arena.Depth (ρ.map h) n := by
  refine hn.transport (P := (· ∈ ρ.dom)) hdom fun h' f hh' hf => ?_
  obtain ⟨g, hg, hlinks, hg'⟩ := hr.frame h' hh'
  rw [hf] at hg
  cases hg
  exact ⟨_, hg', rfl, fun o ho => hlinks o (Frame.mem_links.2 (.inl ho))⟩

/-- A search finds the same value on both sides. -/
theorem find? (hr : ρ.Relates s t) (hp : s.Paired t h k) (name : String) :
    t.arena.find? k name = (s.arena.find? h name).map (Value.rename ρ.map) := by
  obtain ⟨rfl, hdom⟩ := hr.onScope hp
  obtain ⟨n, hn⟩ := hr.depth h hdom
  rw [Arena.find?_eq_findWithin hn, Arena.find?_eq_findWithin (hr.depth_map hdom hn)]
  exact Arena.findWithin_rename (P := (· ∈ ρ.dom)) name hdom hr.frame n

/-- What a search finds has no scopes but those that the session needs. -/
theorem mem_dom_of_find? (hr : ρ.Relates s t) (hdom : h ∈ ρ.dom) {name : String}
    (hfind : s.arena.find? h name = some v) : ∀ c ∈ v.captured, c ∈ ρ.dom := by
  have hwithin : ∀ n h, h ∈ ρ.dom → s.arena.findWithin name n h = some v →
      ∀ c ∈ v.captured, c ∈ ρ.dom := by
    intro n
    induction n with
    | zero =>
      intro h _ hnone
      cases hnone
    | succ n ih =>
      intro h hh hsome c hc
      obtain ⟨f, hf, hlinks, -⟩ := hr.frame h hh
      simp only [Arena.findWithin, hf] at hsome
      cases hl : f.bindings.lookup name with
      | some u =>
        simp only [hl, Option.some.injEq] at hsome
        subst hsome
        obtain ⟨before, after, hbs, -⟩ := List.lookup_eq_some_iff.1 hl
        exact hlinks c (Frame.mem_links.2 (.inr ⟨(name, u), by simp [hbs], hc⟩))
      | none =>
        cases ho : f.outer with
        | none => simp [hl, ho] at hsome
        | some o =>
          simp only [hl, ho] at hsome
          exact ih o (hlinks o (Frame.mem_links.2 (.inl ho))) hsome c hc
  exact hwithin _ h hdom hfind

/-- Binding a name in corresponding frames. -/
theorem assign (hr : ρ.Relates s t) (hhk : ρ.OnScope h k) (hvw : ρ.OnValue v w) (name : String) :
    ρ.Relates { s with arena := s.arena.set h name v }
      { t with arena := t.arena.set k name w } := by
  obtain ⟨rfl, hdom⟩ := hhk
  obtain ⟨rfl, hcap⟩ := hvw
  obtain ⟨f, hf, hlinks, hg⟩ := hr.frame h hdom
  have hframe : ∀ h' ∈ ρ.dom, ∃ f', (s.arena.set h name v).frame? h' = some f' ∧
      (∀ l ∈ f'.links, l ∈ ρ.dom) ∧
      (t.arena.set (ρ.map h) name (v.rename ρ.map)).frame? (ρ.map h') =
        some (f'.rename ρ.map) := by
    intro h' hh'
    rw [Arena.frame?_set, Arena.frame?_set]
    by_cases heq : h' = h
    · subst heq
      refine ⟨f.set name v, by simp [hf], fun l hl => ?_, ?_⟩
      · rcases Frame.mem_links.1 hl with ho | ⟨b, hb, hlb⟩
        · exact hlinks l (Frame.mem_links.2 (.inl ho))
        · rcases Bindings.mem_set hb with rfl | hb
          · exact hcap l hlb
          · exact hlinks l (Frame.mem_links.2 (.inr ⟨b, hb, hlb⟩))
      · simp [hg, Frame.rename, Frame.set, Bindings.set_map]
    · -- Another scope has another name, so its frame stays on both sides.
      have hne : ρ.map h' ≠ ρ.map h := fun he => heq (ρ.injOn hh' hdom he)
      rw [if_neg heq, if_neg hne]
      exact hr.frame h' hh'
  refine { hr with
    wellFormed_left := hr.wellFormed_left.set h name v
    wellFormed_right := hr.wellFormed_right.set _ name _
    frame := hframe
    depth := fun h' hh' => ?_
    lost_left := (Arena.lost_set hf name v).trans hr.lost_left
    lost_right := (Arena.lost_set hg name _).trans hr.lost_right }
  obtain ⟨n, hn⟩ := hr.depth h' hh'
  refine ⟨n, hn.transport (r := id) (P := fun _ => True) trivial fun h'' f'' _ hf'' => ?_⟩
  show ∃ g, (s.arena.set h name v).frame? h'' = some g ∧ _
  rw [Arena.frame?_set]
  by_cases heq : h'' = h
  · exact ⟨f''.set name v, by rw [if_pos heq, hf'']; rfl, by simp [Frame.set], by simp⟩
  · exact ⟨f'', by rw [if_neg heq, hf''], by simp, by simp⟩

/-- New frames that correspond get names of each other. -/
theorem extend (hr : ρ.Relates s t) {a b : Arena} {f : Frame} {o : Scope}
    (hfresh : s.arena.frame? h = none) (kfresh : t.arena.frame? k = none)
    (ha : ∀ h', a.frame? h' = if h' = h then some f else s.arena.frame? h')
    (hb : ∀ k', b.frame? k' = if k' = k then some (f.rename ρ.map) else t.arena.frame? k')
    (hwa : a.WellFormed) (hwb : b.WellFormed) (hla : a.lost = s.arena.lost)
    (hlb : b.lost = t.arena.lost) (ho : f.outer = some o) (hlinks : ∀ l ∈ f.links, l ∈ ρ.dom) :
    ∃ ρ' : Renaming, ρ'.Relates { s with arena := a } { t with arena := b } ∧ ρ'.OnScope h k := by
  have hnew : h ∉ ρ.dom := by
    intro hdom
    obtain ⟨g, hg, -⟩ := hr.frame h hdom
    rw [hfresh] at hg
    cases hg
  have hk : ∀ l ∈ ρ.dom, ρ.map l ≠ k := by
    rintro l hl rfl
    obtain ⟨g, -, -, hg⟩ := hr.frame l hl
    rw [kfresh] at hg
    cases hg
  have hkept : ∀ l ∈ ρ.dom, a.frame? l = s.arena.frame? l := fun l hl => by
    rw [ha, if_neg (by rintro rfl; exact hnew hl)]
  have hdepth : ∀ l ∈ ρ.dom, ∃ n, a.Depth l n := by
    intro l hl
    obtain ⟨n, hn⟩ := hr.depth l hl
    refine ⟨n, hn.transport (r := id) (P := (· ∈ ρ.dom)) hl fun m f hm hf => ?_⟩
    obtain ⟨g, hg, hglinks, -⟩ := hr.frame m hm
    rw [hf] at hg
    cases hg
    exact ⟨f, (hkept m hm).trans hf, by simp, fun o ho => hglinks o (Frame.mem_links.2 (.inl ho))⟩
  refine ⟨ρ.insert h k hnew hk, ?_, insert_map_self.symm, .inl rfl⟩
  refine { hr with
    wellFormed_left := hwa
    wellFormed_right := hwb
    frame := ?_
    depth := ?_
    roots := fun l hl => .inr (hr.roots l hl)
    global := ?_
    active := ?_
    held := ?_
    lost_left := hla.trans hr.lost_left
    lost_right := hlb.trans hr.lost_right }
  · rintro l (rfl | hl)
    · refine ⟨f, by simp [ha], fun l hl => .inr (hlinks l hl), ?_⟩
      rw [insert_map_self, frame_rename_insert hlinks, hb, if_pos rfl]
    · obtain ⟨g, hg, hglinks, hg'⟩ := hr.frame l hl
      refine ⟨g, (hkept l hl).trans hg, fun m hm => .inr (hglinks m hm), ?_⟩
      rw [insert_map_of_mem hl, frame_rename_insert hglinks, hb, if_neg (hk l hl), hg']
  · rintro l (rfl | hl)
    · obtain ⟨n, hn⟩ := hdepth o (hlinks o (Frame.mem_links.2 (.inl ho)))
      exact ⟨n + 1, .within (f := f) (by simp [ha]) ho hn⟩
    · exact hdepth l hl
  · rw [insert_map_of_mem (hr.roots _ (Session.mem_roots.2 (.inl rfl))), hr.global]
  · rw [hr.active]
    exact List.map_congr_left fun l hl =>
      (insert_map_of_mem (hr.roots l (Session.mem_roots.2 (.inr (.inl hl))))).symm
  · rw [hr.held]
    exact List.map_congr_left fun u hu => (rename_insert fun c hc =>
      hr.roots c (Session.mem_roots.2 (.inr (.inr ⟨u, hu, hc⟩)))).symm

/-- A new empty frame on both sides. -/
theorem create (hr : ρ.Relates s t) (hhk : ρ.OnScope h k) :
    ∃ ρ' : Renaming,
      ρ'.Relates { s with arena := (s.arena.create (some h)).2 }
        { t with arena := (t.arena.create (some k)).2 } ∧
      ρ'.OnScope (s.arena.create (some h)).1 (t.arena.create (some k)).1 := by
  obtain ⟨rfl, hdom⟩ := hhk
  refine hr.extend (f := ⟨some h, []⟩) (hr.wellFormed_left.frame?_new _)
    (hr.wellFormed_right.frame?_new _) (hr.wellFormed_left.frame?_create _)
    (hr.wellFormed_right.frame?_create _) (hr.wellFormed_left.create _)
    (hr.wellFormed_right.create _) (Arena.lost_create ..) (Arena.lost_create ..) rfl ?_
  intro l hl
  rcases Frame.mem_links.1 hl with ho | ⟨b, hb, -⟩
  · cases ho
    exact hdom
  · cases hb

/-- A new frame of parameters on both sides. -/
theorem bind (hr : ρ.Relates s t) (hhk : ρ.OnScope h k) {vs ws : List Value}
    (hvs : ρ.OnValues vs ws) (params : List String) :
    ∃ ρ' : Renaming,
      ρ'.Relates { s with arena := (s.arena.bind h params vs).2 }
        { t with arena := (t.arena.bind k params ws).2 } ∧
      ρ'.OnScope (s.arena.bind h params vs).1 (t.arena.bind k params ws).1 := by
  obtain ⟨rfl, hdom⟩ := hhk
  obtain ⟨rfl, hcap⟩ := hvs
  have hframe : Frame.rename ρ.map ⟨some h, Arena.bindAll [] (Arena.pairUp params vs)⟩ =
      ⟨some (ρ.map h),
        Arena.bindAll [] (Arena.pairUp params (vs.map (Value.rename ρ.map)))⟩ := by
    simp only [Frame.rename, Arena.bindAll_map, Arena.pairUp_map]
    rfl
  refine hr.extend (f := ⟨some h, Arena.bindAll [] (Arena.pairUp params vs)⟩)
    (hr.wellFormed_left.frame?_new _) (hr.wellFormed_right.frame?_new _)
    (hr.wellFormed_left.frame?_bind h params vs)
    (hframe ▸ hr.wellFormed_right.frame?_bind (ρ.map h) params _)
    (hr.wellFormed_left.bind ..) (hr.wellFormed_right.bind ..) (hr.wellFormed_left.lost_bind ..)
    (hr.wellFormed_right.lost_bind ..) rfl ?_
  intro l hl
  rcases Frame.mem_links.1 hl with ho | ⟨b, hb, hlb⟩
  · cases ho
    exact hdom
  · rcases Arena.mem_bindAll hb with hnil | hpair
    · cases hnil
    · exact hcap l (Arena.mem_captured_of_mem_pairUp hpair hlb)

end Renaming.Relates

/-! ## Collections -/

namespace Session

/-- A session, less some frames that it does not need. -/
structure Trimmed (s s' : Session) : Prop where
  sameRoots : s.SameRoots s'
  sink : s'.sink = s.sink
  readings : s'.readings = s.readings
  wellFormed : s.arena.WellFormed → s'.arena.WellFormed
  frame : ∀ h f, s.arena.Reachable s.roots h → s.arena.frame? h = some f →
    s'.arena.frame? h = some f
  lost : s'.arena.lost = s.arena.lost

theorem trimmed_collect (s : Session) : s.Trimmed s.collect.2 where
  sameRoots := ⟨rfl, rfl, rfl⟩
  sink := rfl
  readings := rfl
  wellFormed hw := hw.collect _
  frame _ _ hreach hf := Arena.frame?_collect hreach hf
  lost := rfl

/-- Whether a safe point collects or not, it takes nothing away that is needed. -/
theorem trimmed_passSafePoint (due : Session → Bool) (s : Session) :
    s.Trimmed (s.passSafePoint due) := by
  unfold passSafePoint
  cases due s with
  | true =>
    have htrim := s.trimmed_collect
    exact ⟨⟨rfl, rfl, rfl⟩, rfl, rfl, htrim.wellFormed, htrim.frame, rfl⟩
  | false => exact ⟨⟨rfl, rfl, rfl⟩, rfl, rfl, id, fun _ _ _ hf => hf, rfl⟩

end Session

namespace Renaming.Relates

variable {ρ : Renaming} {s t s' t' : Session} {h : Scope}

theorem roots_map (hr : ρ.Relates s t) : t.roots = s.roots.map ρ.map := by
  unfold Session.roots
  rw [hr.global, hr.active, hr.held, ← Value.renameAll_eq_map,
    Value.capturedByAll_renameAll, List.map_cons, List.map_append]

/-- What the left session reaches, the right one reaches under the other name. -/
theorem reachable (hr : ρ.Relates s t) (hs : s.arena.Reachable s.roots h) :
    h ∈ ρ.dom ∧ t.arena.Reachable t.roots (ρ.map h) := by
  induction hs with
  | root hmem => exact ⟨hr.roots _ hmem, .root (hr.roots_map ▸ List.mem_map_of_mem hmem)⟩
  | @link h l f _ hf hl ih =>
    obtain ⟨g, hg, hlinks, hg'⟩ := hr.frame h ih.1
    rw [hf] at hg
    cases hg
    refine ⟨hlinks l hl, .link ih.2 hg' ?_⟩
    rw [Frame.links_rename]
    exact List.mem_map_of_mem hl

/-- Sessions stay related when either of them is rid of frames that it does not need. The renaming
then covers what the left session reaches. -/
theorem trim (hr : ρ.Relates s t) (hs : s.Trimmed s') (ht : t.Trimmed t') :
    ∃ ρ' : Renaming, ρ'.Relates s' t' := by
  have hroots : s'.roots = s.roots := by
    unfold Session.roots
    rw [hs.sameRoots.global, hs.sameRoots.active, hs.sameRoots.held]
  have hframe : ∀ h, s.arena.Reachable s.roots h → ∃ f, s.arena.frame? h = some f ∧
      s'.arena.frame? h = some f ∧ (∀ l ∈ f.links, s.arena.Reachable s.roots l) ∧
      t'.arena.frame? (ρ.map h) = some (f.rename ρ.map) := by
    intro h hh
    obtain ⟨hdom, hreach⟩ := hr.reachable hh
    obtain ⟨f, hf, -, hg⟩ := hr.frame h hdom
    exact ⟨f, hf, hs.frame h f hh hf, fun l hl => .link hh hf hl, ht.frame _ _ hreach hg⟩
  refine ⟨⟨ρ.map, {h | s.arena.Reachable s.roots h},
    ρ.injOn.mono fun h hh => (hr.reachable hh).1⟩, ?_⟩
  exact {
    wellFormed_left := hs.wellFormed hr.wellFormed_left
    wellFormed_right := ht.wellFormed hr.wellFormed_right
    frame := by
      intro h hh
      obtain ⟨f, -, hf, hlinks, hg⟩ := hframe h hh
      exact ⟨f, hf, hlinks, hg⟩
    depth := by
      intro h hh
      obtain ⟨n, hn⟩ := hr.depth h (hr.reachable hh).1
      refine ⟨n, hn.transport (r := id) (P := s.arena.Reachable s.roots) hh
        fun h' f hh' hf => ?_⟩
      obtain ⟨g, hg, hg', hlinks, -⟩ := hframe h' hh'
      rw [hf] at hg
      cases hg
      exact ⟨f, hg', by simp, fun o ho => hlinks o (Frame.mem_links.2 (.inl ho))⟩
    roots := fun h hh => .root (hroots ▸ hh)
    global := by rw [ht.sameRoots.global, hs.sameRoots.global, hr.global]
    active := by rw [ht.sameRoots.active, hs.sameRoots.active, hr.active]
    held := by rw [ht.sameRoots.held, hs.sameRoots.held, hr.held]
    sink := by rw [ht.sink, hs.sink, hr.sink]
    readings := by rw [ht.readings, hs.readings, hr.readings]
    lost_left := by rw [hs.lost, hr.lost_left]
    lost_right := by rw [ht.lost, hr.lost_right] }

end Renaming.Relates

end Lisp
