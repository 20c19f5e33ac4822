import Mathlib
import Lisp.Proofs.Form.Parts
import Lisp.Proofs.Value.Entries
import Lisp.Proofs.Value.Likeness

/-!
# Equality is a partial equivalence

Equality compares values layer by layer. It goes in both directions and across a third value, but
functions and what is not a number are not even equal to themselves.

- `Value.Matches`: one layer of equality, given a relation between the values of which two values
  are made. Equality is such a layer over itself (`Value.equal_iff`).
- `Value.Keyed`: values whose maps have each key once.
- `Value.Comparable`: values without functions and NaNs.
- `Matches.symm`, `Matches.trans`, `matches_self_iff`: a layer is symmetric, transitive or reflexive
  if the relation under it is so for the values of which a value is made.
- `Value.equal_partial_equivalence`: so is equality, by induction on the values.
-/

namespace Lisp

/-! ## Floats -/

namespace Number

variable {x y z : Float}

theorem float_beq_comm (x y : Float) : (x == y) = (y == x) := by
  rw [Bool.eq_iff_iff, Float.beq_iff_ne_nan_and_eq, Float.beq_iff_ne_nan_and_eq]
  grind

theorem float_beq_trans (hxy : (x == y) = true) (hyz : (y == z) = true) : (x == z) = true := by
  rw [Float.beq_iff_ne_nan_and_eq] at hxy hyz ⊢
  grind

/-- Only a NaN is not equal to itself. -/
theorem float_beq_self_iff : (x == x) = true ↔ ¬x.isNaN = true := by
  rw [Float.beq_self_iff, Float.isNaN_eq_decide_eq_nan, decide_eq_true_iff]

end Number

/-! ## Entries -/

namespace Entries

variable {α : Type} {as bs : List (Key × α)} {e : Key × α}

theorem mem_of_lookup {k : Key} {v : α} (h : as.lookup k = some v) : (k, v) ∈ as := by
  obtain ⟨front, back, rfl, -⟩ := List.lookup_eq_some_iff.1 h
  exact List.mem_append_right _ List.mem_cons_self

/-- Where each key stands once, each entry is found by its key. -/
theorem lookup_of_mem (hkeys : (as.map Prod.fst).Nodup) (he : e ∈ as) :
    as.lookup e.1 = some e.2 := by
  induction as with
  | nil => cases he
  | cons d as ih =>
    obtain ⟨hd, has⟩ := List.nodup_cons.1 hkeys
    obtain ⟨k, v⟩ := d
    rw [lookup_cons]
    rcases List.mem_cons.1 he with rfl | hmem
    · rw [if_pos rfl]
    · have hne : e.1 ≠ k := by
        rintro rfl
        exact hd (List.mem_map.2 ⟨e, hmem, rfl⟩)
      rw [if_neg hne, ih has hmem]

/-- As many entries with the same keys have no other keys. The keys of the first are each there
once, so that they use up all keys of the others. -/
theorem keys_perm (hkeys : (as.map Prod.fst).Nodup) (hlength : as.length = bs.length)
    (h : ∀ e ∈ as, ∃ w, bs.lookup e.1 = some w) :
    (as.map Prod.fst).Perm (bs.map Prod.fst) := by
  have hsubset : as.map Prod.fst ⊆ bs.map Prod.fst := by
    intro k hk
    obtain ⟨e, he, rfl⟩ := List.mem_map.1 hk
    obtain ⟨w, hw⟩ := h e he
    exact List.mem_map.2 ⟨(e.1, w), mem_of_lookup hw, rfl⟩
  refine (hkeys.subperm hsubset).perm_of_length_le ?_
  rw [List.length_map, List.length_map, hlength]

/-- Entries in the order of their keys have each key once. -/
theorem Ascending.nodup_keys (h : Ascending as) : (as.map Prod.fst).Nodup := by
  refine List.pairwise_map.2 (h.imp fun {d e} hlt heq => ?_)
  rw [Key.compare_eq_iff.2 heq] at hlt
  cases hlt

end Entries

namespace Value

variable {a b c u v w : Value} {vs ws : List Value} {as bs : List (Key × Value)}
  {R : Value → Value → Prop}

/-! ## One layer -/

/-- Two values are equal up to the values of which they are made, which are related. -/
inductive Matches (R : Value → Value → Prop) : Value → Value → Prop
  | nil : Matches R nil nil
  | bool (b : Bool) : Matches R (bool b) (bool b)
  | int (n : Int64) : Matches R (int n) (int n)
  | float {x y : Float} : (x == y) = true → Matches R (float x) (float y)
  | string (text : String) : Matches R (string text) (string text)
  | keyword (name : String) : Matches R (keyword name) (keyword name)
  /-- A list and a vector are compared as two lists are. -/
  | items {v w : Value} {vs ws : List Value} : v.items? = some vs → w.items? = some ws →
      List.Forall₂ R vs ws → Matches R v w
  | map {as bs : List (Key × Value)} : as.length = bs.length →
      (∀ e ∈ as, ∃ w, bs.lookup e.1 = some w ∧ R e.2 w) → Matches R (map as) (map bs)
  | raw {f g : Form} : f.site.same g.site = true → Matches R (raw f) (raw g)

theorem equalItems_iff :
    equalItems vs ws = true ↔ List.Forall₂ (fun v w => equal v w = true) vs ws := by
  induction vs generalizing ws with
  | nil => cases ws <;> simp [equalItems]
  | cons v vs ih => cases ws <;> simp [equalItems, ih]

theorem matchEntries_iff :
    matchEntries as bs = true ↔ ∀ e ∈ as, ∃ w, bs.lookup e.1 = some w ∧ equal e.2 w = true := by
  induction as with
  | nil => simp [matchEntries]
  | cons e as ih =>
    obtain ⟨k, v⟩ := e
    rw [matchEntries, Bool.and_eq_true, ih, List.forall_mem_cons]
    cases bs.lookup k <;> simp

theorem items?_eq_some_iff : v.items? = some vs ↔ v = list vs ∨ v = vector vs := by
  cases v <;> simp [items?]

theorem components_of_items? (h : v.items? = some vs) : v.components = vs := by
  rcases items?_eq_some_iff.1 h with rfl | rfl <;> rfl

/-- Equality is a layer over itself. -/
theorem equal_iff : equal v w = true ↔ Matches (fun v w => equal v w = true) v w := by
  constructor
  · intro h
    fun_cases equal v w with
    | case1 => exact .nil
    | case2 x y =>
      obtain rfl : x = y := eq_of_beq h
      exact .bool x
    | case3 x y =>
      obtain rfl : x = y := eq_of_beq h
      exact .int x
    | case4 x y => exact .float h
    | case5 x y =>
      obtain rfl : x = y := eq_of_beq h
      exact .string x
    | case6 x y =>
      obtain rfl : x = y := eq_of_beq h
      exact .keyword x
    | case7 | case8 | case9 | case10 => exact .items rfl rfl (equalItems_iff.1 h)
    | case11 as bs =>
      obtain ⟨hlength, hentries⟩ := Bool.and_eq_true_iff.1 h
      exact .map (eq_of_beq hlength) (matchEntries_iff.1 hentries)
    | case12 f g => exact .raw h
    | case13 =>
      rw [equal] at h
      · cases h
      all_goals assumption
  · intro h
    cases h with
    | nil => rfl
    | bool | int | string | keyword => simp [equal]
    | float h => exact h
    | raw h => exact h
    | map hlength h => simp [equal, hlength, matchEntries_iff.2 h]
    | items hv hw h =>
      have hitems := equalItems_iff.2 h
      rcases items?_eq_some_iff.1 hv with rfl | rfl <;>
        rcases items?_eq_some_iff.1 hw with rfl | rfl <;> exact hitems

/-! ## What values are compared by -/

/-- A value in which each map, at any depth, has each key once. All maps are so that are made from
entries (`Keyed.ofList`). -/
def Keyed (v : Value) : Prop := ∀ es, PartOf (map es) v → (es.map Prod.fst).Nodup

/-- A value that is not equal to itself, although it is made of no others: a function, or a float
that is not a number. -/
inductive IsOdd : Value → Prop
  | function (b : Builtin) : IsOdd (function b)
  | lambda (params : List String) (body : Form) (scope : Scope) : IsOdd (lambda params body scope)
  | nan {x : Float} : x.isNaN = true → IsOdd (float x)

/-- A value that has no function and no NaN in it, at any depth of lists, vectors and maps. -/
def Comparable (v : Value) : Prop := ∀ w, PartOf w v → ¬IsOdd w

theorem Keyed.component (hv : v.Keyed) (hu : u ∈ v.components) : u.Keyed :=
  fun es hes => hv es (.item hu hes)

/-- A value has each key once if all that it is made of has, and if it does itself as a map. -/
theorem keyed_iff : v.Keyed ↔
    (∀ u ∈ v.components, u.Keyed) ∧ ∀ es, v = map es → (es.map Prod.fst).Nodup := by
  constructor
  · intro hv
    refine ⟨fun u => hv.component, ?_⟩
    rintro es rfl
    exact hv es (.self _)
  · rintro ⟨hcomponents, hself⟩ es hes
    generalize hw : map es = w at hes
    cases hes with
    | self => exact hself es hw.symm
    | item hu hpart => exact hcomponents _ hu es (hw ▸ hpart)

theorem Keyed.of_atom (hv : v.components = []) : v.Keyed := by
  refine keyed_iff.2 ⟨by simp [hv], ?_⟩
  rintro es rfl
  rw [List.map_eq_nil_iff.1 hv]
  exact .nil

theorem Keyed.list (hvs : ∀ v ∈ vs, v.Keyed) : (list vs).Keyed := keyed_iff.2 ⟨hvs, nofun⟩

theorem Keyed.vector (hvs : ∀ v ∈ vs, v.Keyed) : (vector vs).Keyed := keyed_iff.2 ⟨hvs, nofun⟩

theorem Keyed.map (hes : ∀ e ∈ as, e.2.Keyed) (hkeys : (as.map Prod.fst).Nodup) :
    (map as).Keyed := by
  refine keyed_iff.2 ⟨fun u hu => ?_, fun es heq => ?_⟩
  · obtain ⟨e, he, rfl⟩ := List.mem_map.1 hu
    exact hes e he
  · cases heq
    exact hkeys

/-- A map that is made from entries has each key once. -/
theorem Keyed.ofList (hes : ∀ e ∈ as, e.2.Keyed) : (Value.map (Entries.ofList as)).Keyed :=
  .map (fun e he => hes e (Entries.mem_of_mem_ofList he)) (Entries.ascending_ofList as).nodup_keys

/-- A value is comparable if it is not odd itself and all that it is made of is comparable. -/
theorem comparable_iff : v.Comparable ↔ (∀ u ∈ v.components, u.Comparable) ∧ ¬v.IsOdd := by
  constructor
  · intro h
    exact ⟨fun u hu w hw => h w (.item hu hw), h v (.self v)⟩
  · rintro ⟨hcomponents, hself⟩ w hw
    cases hw with
    | self => exact hself
    | item hu hw => exact hcomponents _ hu w hw

/-! ## Layers of a partial equivalence -/

/-- A layer is symmetric if the relation under it is, where maps have each key once. -/
theorem Matches.symm (h : Matches R a b) (ha : a.Keyed)
    (hR : ∀ u ∈ a.components, ∀ w, R u w → R w u) : Matches R b a := by
  cases h with
  | nil => exact .nil
  | bool x => exact .bool x
  | int n => exact .int n
  | float h =>
    rw [Number.float_beq_comm] at h
    exact .float h
  | string text => exact .string text
  | keyword name => exact .keyword name
  | items hv hw h =>
    rw [components_of_items? hv] at hR
    refine .items hw hv (List.Forall₂.flip ?_)
    exact ((List.forall₂_and_left _ _).2 ⟨hR, h⟩).imp fun u w huw => huw.1 w huw.2
  | @map as bs hlength h =>
    have hkeys : (as.map Prod.fst).Nodup := ha as (.self _)
    have hperm := Entries.keys_perm hkeys hlength fun e he => (h e he).imp fun _ hw => hw.1
    refine .map hlength.symm fun e he => ?_
    -- The key of the entry is one of the keys on the other side.
    obtain ⟨d, hd, hkey⟩ := List.mem_map.1 (hperm.symm.subset (List.mem_map_of_mem he))
    obtain ⟨w, hw, hdw⟩ := h d hd
    rw [hkey, Entries.lookup_of_mem (hperm.nodup_iff.1 hkeys) he] at hw
    cases hw
    refine ⟨d.2, ?_, hR d.2 (List.mem_map_of_mem hd) e.2 hdw⟩
    rw [← hkey, Entries.lookup_of_mem hkeys hd]
  | raw h =>
    rw [Site.same_eq, decide_eq_true_iff] at h
    exact .raw (by rw [Site.same_eq, decide_eq_true_iff, h])

/-- A layer is transitive if the relation under it is. -/
theorem Matches.trans (h : Matches R a b) (h' : Matches R b c)
    (hR : ∀ u ∈ a.components, ∀ v w, R u v → R v w → R u w) : Matches R a c := by
  cases h with
  | nil | bool | int | string | keyword => exact h'
  | float h =>
    cases h' with
    | float h' => exact .float (Number.float_beq_trans h h')
    | items hv => cases hv
  | @items _ _ us vs hu hv h =>
    cases h' with
    | @items _ _ vs' ws hv' hw h' =>
      obtain rfl : vs = vs' := Option.some.inj (hv.symm.trans hv')
      rw [components_of_items? hu] at hR
      refine .items hu hw ?_
      clear hu hv hv' hw
      induction h generalizing ws with
      | nil => exact h'
      | cons hxy _ ih =>
        cases h' with
        | cons hyz h' =>
          exact .cons (hR _ List.mem_cons_self _ _ hxy hyz)
            (ih (fun u hu => hR u (List.mem_cons_of_mem _ hu)) h')
    | _ => cases hv
  | map hlength h =>
    cases h' with
    | map hlength' h' =>
      refine .map (hlength.trans hlength') fun e he => ?_
      obtain ⟨v, hv, hev⟩ := h e he
      obtain ⟨w, hw, hvw⟩ := h' (e.1, v) (Entries.mem_of_lookup hv)
      exact ⟨w, hw, hR e.2 (List.mem_map_of_mem he) v w hev hvw⟩
    | items hv => cases hv
  | raw h =>
    cases h' with
    | raw h' =>
      rw [Site.same_eq, decide_eq_true_iff] at h h'
      exact .raw (by rw [Site.same_eq, decide_eq_true_iff, h, h'])
    | items hv => cases hv

/-- A layer is reflexive at a value that is not odd, if the relation under it is at all values of
which this one is made. -/
theorem matches_self_iff (hv : v.Keyed) :
    Matches R v v ↔ (∀ u ∈ v.components, R u u) ∧ ¬v.IsOdd := by
  constructor
  · intro h
    cases h with
    | nil | bool | int | string | keyword | raw =>
      exact ⟨fun u hu => absurd hu List.not_mem_nil, fun hodd => by cases hodd⟩
    | float h =>
      refine ⟨fun u hu => absurd hu List.not_mem_nil, fun hodd => ?_⟩
      cases hodd with
      | nan hx => exact Number.float_beq_self_iff.1 h hx
    | items hvs hws h =>
      rw [hvs] at hws
      cases hws
      refine ⟨?_, ?_⟩
      · rw [components_of_items? hvs]
        exact List.forall₂_same.1 h
      · rcases items?_eq_some_iff.1 hvs with rfl | rfl <;> exact fun hodd => by cases hodd
    | map _ h =>
      refine ⟨fun u hu => ?_, fun hodd => by cases hodd⟩
      obtain ⟨e, he, rfl⟩ := List.mem_map.1 hu
      obtain ⟨w, hw, hew⟩ := h e he
      rw [Entries.lookup_of_mem (hv _ (.self _)) he] at hw
      cases hw
      exact hew
  · rintro ⟨hcomponents, hself⟩
    cases v with
    | nil => exact .nil
    | bool b => exact .bool b
    | int n => exact .int n
    | float x => exact .float (Number.float_beq_self_iff.2 fun hx => hself (.nan hx))
    | string text => exact .string text
    | keyword name => exact .keyword name
    | list vs => exact .items rfl rfl (List.forall₂_same.2 hcomponents)
    | vector vs => exact .items rfl rfl (List.forall₂_same.2 hcomponents)
    | map es =>
      refine .map rfl fun e he => ⟨e.2, Entries.lookup_of_mem (hv es (.self _)) he, ?_⟩
      exact hcomponents e.2 (List.mem_map_of_mem he)
    | function b => exact absurd (.function b) hself
    | lambda params body scope => exact absurd (.lambda params body scope) hself
    | raw f => exact .raw (by rw [Site.same_eq, decide_eq_true_iff])

/-! ## Equality -/

theorem equal_symm (ha : a.Keyed) (h : equal a b = true) : equal b a = true := by
  induction a using itemwise generalizing b with
  | h a ih =>
    rw [equal_iff] at h ⊢
    exact h.symm ha fun u hu w => ih u hu (ha.component hu)

theorem equal_trans (h : equal a b = true) (h' : equal b c = true) : equal a c = true := by
  induction a using itemwise generalizing b c with
  | h a ih =>
    rw [equal_iff] at h h' ⊢
    exact h.trans h' fun u hu v w => ih u hu

/-- What is equal to itself is comparable, and the other way round. -/
theorem equal_self_iff (hv : v.Keyed) : equal v v = true ↔ v.Comparable := by
  induction v using itemwise with
  | h v ih =>
    rw [equal_iff, matches_self_iff hv, comparable_iff]
    exact and_congr_left' (forall₂_congr fun u hu => ih u hu (hv.component hu))

/-- **Equality is a partial equivalence.** It goes in both directions, and across a third value. A
value is equal to itself exactly if there is no built-in function, no lambda and no NaN in it, at
any depth. Of maps it is only asked that they have each key once. -/
theorem equal_partial_equivalence (ha : a.Keyed) (hb : b.Keyed) :
    equal a b = equal b a ∧
      (equal a b = true → equal b c = true → equal a c = true) ∧
      (equal a a = true ↔ a.Comparable) :=
  ⟨Bool.eq_iff_iff.2 ⟨equal_symm ha, equal_symm hb⟩, equal_trans, equal_self_iff ha⟩

/-- A list and a vector, with a vector and a list at one key of the maps in them. -/
theorem equal_partial_equivalence_nested :
    equal (vector [map [(.string "p", bool true), (.keyword "q", list [int 7])]])
        (list [map [(.string "p", bool true), (.keyword "q", vector [int 7])]]) = true ∧
      (list [map [(.string "p", bool true), (.keyword "q", vector [int 7])]]).Comparable := by
  have hseven : (int 7).Keyed := .of_atom rfl
  have hkeys : [Key.string "p", Key.keyword "q"].Nodup := by decide
  have ha : (list [map [(.string "p", bool true), (.keyword "q", vector [int 7])]]).Keyed := by
    refine .list (List.forall_mem_singleton.2 (.map ?_ hkeys))
    refine List.forall_mem_cons.2 ⟨.of_atom rfl, List.forall_mem_singleton.2 ?_⟩
    exact .vector (List.forall_mem_singleton.2 hseven)
  have hb : (vector [map [(.string "p", bool true), (.keyword "q", list [int 7])]]).Keyed := by
    refine .vector (List.forall_mem_singleton.2 (.map ?_ hkeys))
    refine List.forall_mem_cons.2 ⟨.of_atom rfl, List.forall_mem_singleton.2 ?_⟩
    exact .list (List.forall_mem_singleton.2 hseven)
  obtain ⟨hsymm, htrans, hself⟩ := equal_partial_equivalence (c := list
    [map [(.string "p", bool true), (.keyword "q", vector [int 7])]]) ha hb
  have hequal : equal (list [map [(.string "p", bool true), (.keyword "q", vector [int 7])]])
      (vector [map [(.string "p", bool true), (.keyword "q", list [int 7])]]) = true := by cbv
  have hback := hsymm.symm.trans hequal
  exact ⟨hback, hself.1 (htrans hequal hback)⟩

end Value

end Lisp
