import Lisp.Proofs.Scope.Chain
import Lisp.Proofs.Value.Renaming

/-!
# Frames under other names for their scopes

- `Frame.rename`: a frame with other scopes around it and in its values.
- `Arena.findWithin_rename`: a search in an arena with renamed frames finds the renamed value.
- `Arena.bindAll_map`, `Arena.pairUp_map`: bindings of renamed values are renamed bindings.
-/

namespace Lisp

namespace Frame

variable {r q : Scope → Scope}

/-- A frame with other scopes. -/
def rename (r : Scope → Scope) (f : Frame) : Frame :=
  ⟨f.outer.map r, f.bindings.map fun b => (b.1, b.2.rename r)⟩

theorem links_rename (r : Scope → Scope) (f : Frame) : (f.rename r).links = f.links.map r := by
  obtain ⟨outer, bindings⟩ := f
  simp only [links, rename, List.map_append, List.flatMap_map, List.map_flatMap,
    Value.captured_rename]
  cases outer <;> rfl

theorem mem_links {f : Frame} {l : Scope} :
    l ∈ f.links ↔ f.outer = some l ∨ ∃ b ∈ f.bindings, l ∈ b.2.captured := by
  simp [links]

theorem rename_congr {f : Frame} (h : ∀ l ∈ f.links, r l = q l) : f.rename r = f.rename q := by
  obtain ⟨outer, bindings⟩ := f
  have hbindings : bindings.map (fun b => (b.1, b.2.rename r)) =
      bindings.map (fun b => (b.1, b.2.rename q)) := by
    refine List.map_congr_left fun b hb => ?_
    rw [Value.rename_congr fun c hc => h c (mem_links.2 (.inr ⟨b, hb, hc⟩))]
  have houter : outer.map r = outer.map q := by
    cases outer with
    | none => rfl
    | some o => exact congrArg some (h o (mem_links.2 (.inl rfl)))
  rw [rename, rename, hbindings, houter]

theorem rename_id (f : Frame) : f.rename id = f := by
  obtain ⟨outer, bindings⟩ := f
  simp [rename, Value.rename_id]

end Frame

namespace Bindings

theorem lookup_map (r : Scope → Scope) (bs : Bindings) (name : String) :
    (bs.map fun b => (b.1, b.2.rename r)).lookup name = (bs.lookup name).map (Value.rename r) := by
  induction bs with
  | nil => rfl
  | cons b bs ih =>
    rw [List.map_cons, List.lookup_cons, List.lookup_cons]
    cases name == b.1 with
    | true => rfl
    | false => exact ih

theorem set_map (r : Scope → Scope) (bs : Bindings) (name : String) (v : Value) :
    (bs.set name v).map (fun b => (b.1, b.2.rename r)) =
      Bindings.set name (v.rename r) (bs.map fun b => (b.1, b.2.rename r)) := by
  induction bs with
  | nil => rfl
  | cons b bs ih =>
    obtain ⟨n, w⟩ := b
    simp only [set, List.map_cons]
    split
    · rfl
    · rw [List.map_cons, ih]

theorem mem_set {bs : Bindings} {name : String} {v : Value} {b : String × Value}
    (hb : b ∈ bs.set name v) : b = (name, v) ∨ b ∈ bs := by
  induction bs with
  | nil => exact .inl (List.mem_singleton.1 hb)
  | cons b' bs ih =>
    obtain ⟨n, w⟩ := b'
    unfold set at hb
    split at hb
    · exact (List.mem_cons.1 hb).imp id (List.mem_cons_of_mem _)
    · rcases List.mem_cons.1 hb with rfl | hb
      · exact .inr (by simp)
      · exact (ih hb).imp id (List.mem_cons_of_mem _)

end Bindings

namespace Arena

variable {r : Scope → Scope}

theorem bindAll_map (r : Scope → Scope) (pairs : List (String × Value)) (bs : Bindings) :
    (bindAll bs pairs).map (fun b => (b.1, b.2.rename r)) =
      bindAll (bs.map fun b => (b.1, b.2.rename r)) (pairs.map fun p => (p.1, p.2.rename r)) := by
  induction pairs generalizing bs with
  | nil => rfl
  | cons p pairs ih =>
    show (bindAll (bs.set p.1 p.2) pairs).map _ = _
    rw [ih, Bindings.set_map]
    rfl

theorem mem_bindAll {pairs : List (String × Value)} {bs : Bindings} {b : String × Value}
    (hb : b ∈ bindAll bs pairs) : b ∈ bs ∨ b ∈ pairs := by
  induction pairs generalizing bs with
  | nil => exact .inl hb
  | cons p pairs ih =>
    have hb : b ∈ bindAll (bs.set p.1 p.2) pairs := hb
    rcases ih hb with hset | hpairs
    · exact (Bindings.mem_set hset).elim (fun h => .inr (by simp [h])) .inl
    · exact .inr (List.mem_cons_of_mem _ hpairs)

theorem pairUp_map (r : Scope → Scope) (params : List String) (args : List Value) :
    (pairUp params args).map (fun p => (p.1, p.2.rename r)) =
      pairUp params (args.map (Value.rename r)) := by
  induction params generalizing args with
  | nil => rfl
  | cons p ps ih =>
    unfold pairUp
    split
    · cases ps.head? with
      | none => rfl
      | some rest => simp [Value.rename, Value.renameAll_eq_map]
    · rw [List.map_cons, ih]
      cases args <;> rfl

/-- Parameters are bound to nothing but arguments, or to the list of some of them. -/
theorem mem_captured_of_mem_pairUp {params : List String} {args : List Value}
    {p : String × Value} {c : Scope} (hp : p ∈ pairUp params args) (hc : c ∈ p.2.captured) :
    c ∈ Value.capturedByAll args := by
  induction params generalizing args with
  | nil => cases hp
  | cons q ps ih =>
    unfold pairUp at hp
    split at hp
    · cases hr : ps.head? with
      | none => simp [hr] at hp
      | some rest =>
        simp only [hr, Option.map_some, Option.toList_some, List.mem_singleton] at hp
        subst hp
        exact hc
    · rcases List.mem_cons.1 hp with rfl | hp
      · cases args with
        | nil => cases hc
        | cons v vs => exact List.mem_append_left _ hc
      · cases args with
        | nil => exact ih hp
        | cons v vs => exact List.mem_append_right _ (ih hp)

/-- A search in an arena with renamed frames finds the renamed value. -/
theorem findWithin_rename {a b : Arena} {P : Scope → Prop} (name : String) {s : Scope} (hs : P s)
    (hframe : ∀ h, P h → ∃ f, a.frame? h = some f ∧ (∀ l ∈ f.links, P l) ∧
      b.frame? (r h) = some (f.rename r)) (n : Nat) :
    b.findWithin name n (r s) = (a.findWithin name n s).map (Value.rename r) := by
  induction n generalizing s with
  | zero => rfl
  | succ n ih =>
    obtain ⟨f, hf, hlinks, hg⟩ := hframe s hs
    have hlookup := Bindings.lookup_map r f.bindings name
    simp only [findWithin, hf, hg, Frame.rename, hlookup]
    cases f.bindings.lookup name with
    | some v => rfl
    | none =>
      cases ho : f.outer with
      | none => rfl
      | some o => exact ih (hlinks o (Frame.mem_links.2 (.inl ho)))

end Arena

end Lisp
