import Mathlib.Data.List.Induction
import Lisp.Value.Basic

/-!
# The entries of a map

- `Entries.lookup_insert`: an entry takes the place of the one with the same key.
- `Entries.lookup_ofList`: of the entries with one key, the last one counts.
- `Entries.Ascending`: entries in the order of their keys, each key once. Those of a map are
  (`Entries.ascending_ofList`), and are the map again (`Entries.ofList_of_ascending`).
-/

namespace Lisp

theorem Key.compare_eq_iff {k l : Key} : k.compare l = .eq ↔ k = l := by
  cases k <;> cases l <;> simp [Key.compare]

theorem Key.compare_gt_iff_lt {k l : Key} : k.compare l = .gt ↔ l.compare k = .lt := by
  cases k <;> cases l <;> simp [Key.compare, Std.OrientedCmp.gt_iff_lt]

theorem Key.compare_lt_trans {k l m : Key} (hkl : k.compare l = .lt) (hlm : l.compare m = .lt) :
    k.compare m = .lt := by
  cases k <;> cases l <;> cases m <;> simp only [Key.compare, reduceCtorEq] at hkl hlm ⊢
  · exact Std.TransCmp.lt_trans hkl hlm
  · exact Std.TransCmp.lt_trans hkl hlm

namespace Entries

variable {α : Type}

theorem lookup_cons (k l : Key) (v : α) (es : Entries α) :
    ((k, v) :: es).lookup l = if l = k then some v else es.lookup l := by
  by_cases hl : l = k
  · rw [hl, List.lookup_cons_self, if_pos rfl]
  · rw [List.lookup_cons, beq_false_of_ne hl, if_neg hl]

theorem lookup_insert (k l : Key) (v : α) (es : Entries α) :
    (insert k v es).lookup l = if l = k then some v else es.lookup l := by
  induction es with
  | nil => rw [insert, lookup_cons]
  | cons e es ih =>
    obtain ⟨m, w⟩ := e
    unfold insert
    cases hc : k.compare m with
    | lt => rw [lookup_cons]
    | eq =>
      obtain rfl := Key.compare_eq_iff.1 hc
      rw [lookup_cons, lookup_cons]
      split <;> rfl
    | gt =>
      have hne : m ≠ k := by
        rintro rfl
        rw [Key.compare_eq_iff.2 rfl] at hc
        cases hc
      rw [lookup_cons, lookup_cons, ih]
      by_cases hl : l = m
      · rw [if_pos hl, if_neg (hl ▸ hne), if_pos hl]
      · rw [if_neg hl, if_neg hl]

theorem ofList_concat (es : List (Key × α)) (e : Key × α) :
    ofList (es ++ [e]) = insert e.1 e.2 (ofList es) := by
  simp [ofList]

/-- Of the entries with one key, the last one counts. -/
theorem lookup_ofList (es : List (Key × α)) (k : Key) :
    (ofList es).lookup k = es.reverse.lookup k := by
  induction es using List.reverseRecOn with
  | nil => rfl
  | append_singleton es e ih =>
    rw [ofList_concat, lookup_insert, ih, List.reverse_append, List.reverse_singleton,
      List.singleton_append, lookup_cons]

theorem mem_insert {k : Key} {v : α} {es : Entries α} {e : Key × α} (he : e ∈ insert k v es) :
    e = (k, v) ∨ e ∈ es := by
  induction es with
  | nil => exact .inl (List.mem_singleton.1 he)
  | cons e' es ih =>
    obtain ⟨l, w⟩ := e'
    unfold insert at he
    cases hk : k.compare l <;> simp only [hk, List.mem_cons] at he ⊢
    · exact he
    · exact he.imp id .inr
    · rcases he with rfl | he
      · exact .inr (.inl rfl)
      · exact (ih he).imp id .inr

/-- A map has no entries but those that it was made from. -/
theorem mem_of_mem_ofList {es : List (Key × α)} {e : Key × α} (he : e ∈ ofList es) : e ∈ es := by
  have hfold : ∀ acc : Entries α,
      e ∈ es.foldl (fun acc e => insert e.1 e.2 acc) acc → e ∈ acc ∨ e ∈ es := by
    clear he
    induction es with
    | nil => exact fun _ h => .inl h
    | cons e' es ih =>
      intro acc h
      rcases ih (insert e'.1 e'.2 acc) h with hacc | hes
      · exact (mem_insert hacc).elim (fun h => .inr (by simp [h])) .inl
      · exact .inr (List.mem_cons_of_mem _ hes)
  exact (hfold [] he).resolve_left (by simp)

/-! ## Order -/

/-- Entries in the order of their keys. -/
def Ascending (es : Entries α) : Prop := es.Pairwise fun d e => d.1.compare e.1 = .lt

theorem Ascending.insert {es : Entries α} (h : Ascending es) (k : Key) (v : α) :
    Ascending (insert k v es) := by
  induction es with
  | nil => exact List.pairwise_singleton _ _
  | cons e es ih =>
    obtain ⟨l, w⟩ := e
    obtain ⟨hfirst, hes⟩ := List.pairwise_cons.1 h
    unfold Entries.insert
    cases hk : k.compare l with
    | lt =>
      refine List.pairwise_cons.2 ⟨?_, h⟩
      intro d hd
      rcases List.mem_cons.1 hd with rfl | hd
      · exact hk
      · exact Key.compare_lt_trans hk (hfirst d hd)
    | eq =>
      obtain rfl := Key.compare_eq_iff.1 hk
      exact List.pairwise_cons.2 ⟨hfirst, hes⟩
    | gt =>
      refine List.pairwise_cons.2 ⟨?_, ih hes⟩
      intro d hd
      rcases mem_insert hd with rfl | hd
      · exact Key.compare_gt_iff_lt.1 hk
      · exact hfirst d hd

theorem ascending_ofList (es : List (Key × α)) : Ascending (ofList es) := by
  induction es using List.reverseRecOn with
  | nil => exact .nil
  | append_singleton es e ih =>
    rw [ofList_concat]
    exact ih.insert e.1 e.2

/-- An entry after all others is added at the end. -/
theorem insert_of_forall_lt {k : Key} {es : Entries α} (h : ∀ e ∈ es, e.1.compare k = .lt)
    (v : α) : insert k v es = es ++ [(k, v)] := by
  induction es with
  | nil => rfl
  | cons e es ih =>
    obtain ⟨hfirst, hes⟩ := List.forall_mem_cons.1 h
    have hk : k.compare e.1 = .gt := Key.compare_gt_iff_lt.2 hfirst
    obtain ⟨l, w⟩ := e
    simp only [insert, hk, ih hes, List.cons_append]

/-- The entries of a map are the map of them. -/
theorem ofList_of_ascending {es : Entries α} (h : Ascending es) : ofList es = es := by
  induction es using List.reverseRecOn with
  | nil => rfl
  | append_singleton es e ih =>
    obtain ⟨hes, -, hlast⟩ := List.pairwise_append.1 h
    rw [ofList_concat, ih hes, insert_of_forall_lt fun d hd => hlast d hd e (by simp)]

end Entries

end Lisp
