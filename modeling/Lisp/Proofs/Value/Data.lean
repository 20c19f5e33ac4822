import Lisp.Proofs.Decimal.Integer
import Lisp.Proofs.Eval.Constant
import Lisp.Proofs.Form.Canonical
import Lisp.Proofs.Value.Entries
import Lisp.Value.Printer

/-!
# Values that are data

- `Value.IsData`: the values that have a readable text which is a form for them.
- `Form.Writes`: a form for a value. Its canonical text is the readable text of the value, and it is
  a constant of this value, wherever it stands.
- `Value.IsData.exists_writes`: data have such forms, by induction on how they are built.
-/

namespace Lisp

/-- Values without functions, lists and floats in them, and with keywords that are words. -/
inductive Value.IsData : Value → Prop
  | nil : IsData .nil
  | bool (b : Bool) : IsData (.bool b)
  | int (n : Int64) : IsData (.int n)
  | string (text : String) : IsData (.string text)
  | keyword {name : String} : (∀ c ∈ name.toList, isWord c = true) → IsData (.keyword name)
  | vector {vs : List Value} : (∀ v ∈ vs, IsData v) → IsData (.vector vs)
  | map {es : List (Key × Value)} : (∀ e ∈ es, IsData (.ofKey e.1)) → (∀ e ∈ es, IsData e.2) →
      IsData (.map (Entries.ofList es))

/-- A form for a value: its text is the readable text of the value, and it evaluates to the value,
wherever it comes from. -/
structure Form.Writes (f : Form) (v : Value) : Prop where
  lexical : f.Lexical
  text : f.text = v.text .readable
  isComment : f.isComment = false
  normal : f.normal.bare = f.bare
  constant : ∀ g : Form, g.bare = f.bare → g.Constant v

namespace Form

variable {f : Form} {v : Value} {fs gs : List Form} {vs : List Value}

/-! ## Sequences -/

theorem texts_of_writes (h : List.Forall₂ Writes fs vs) :
    texts fs = vs.map (Value.text .readable) := by
  induction h with
  | nil => rfl
  | cons hf _ ih =>
    rw [texts, hf.isComment, if_neg Bool.false_ne_true, hf.text, ih, List.map_cons]

theorem normals_of_writes (h : List.Forall₂ Writes fs vs) :
    (normals fs).map bare = fs.map bare := by
  induction h with
  | nil => rfl
  | cons hf _ ih =>
    rw [normals, hf.isComment, if_neg Bool.false_ne_true, List.map_cons, hf.normal, ih,
      List.map_cons]

theorem lexical_of_writes (h : List.Forall₂ Writes fs vs) : ∀ f ∈ fs, f.Lexical := by
  induction h with
  | nil => exact List.forall_mem_nil _
  | cons hf _ ih => exact List.forall_mem_cons.2 ⟨hf.lexical, ih⟩

/-- Forms for values are constants, wherever they come from. -/
theorem constant_of_writes (h : List.Forall₂ Writes fs vs) (hbare : gs.map bare = fs.map bare) :
    List.Forall₂ Constant (significant gs) vs := by
  induction h generalizing gs with
  | nil =>
    rw [List.map_nil, List.map_eq_nil_iff] at hbare
    rw [hbare]
    exact .nil
  | @cons f v fs vs hf _ ih =>
    obtain ⟨g, gs, rfl, hg, hgs⟩ := List.map_eq_cons_iff.1 hbare
    have hcomment : g.isComment = false := by
      rw [← isComment_bare, hg, isComment_bare, hf.isComment]
    rw [significant, List.filter_cons_of_pos (by rw [hcomment]; rfl)]
    exact .cons (hf.constant g hg) (ih hgs)

/-! ## Forms for values -/

theorem writes_literal {kind : Literal} {raw : String}
    (hlexical : (literal default kind raw).Lexical) (hcanonical : kind.canonical raw = raw)
    (htext : raw = v.text .readable) (hvalue : kind.value? raw = some v) :
    (literal default kind raw).Writes v := by
  refine ⟨hlexical, hcanonical.trans htext, rfl, ?_, ?_⟩
  · cases kind with
    | string => exact congrArg (Form.literal default .string) hcanonical
    | nil | bool | int | float | keyword => rfl
  · intro g hg
    cases g with
    | literal s kind' raw' =>
      cases hg
      exact constant_literal hvalue
    | comment | symbol | vector | map | list => cases hg

theorem writes_vector (h : List.Forall₂ Writes fs vs) :
    (vector default fs).Writes (.vector vs) := by
  refine ⟨.vector _ (lexical_of_writes h), ?_, rfl, ?_, ?_⟩
  · rw [text, texts_of_writes h, Value.text, Value.texts_eq_map]
  · rw [normal, bare, bare, bareAll_eq_map, bareAll_eq_map, normals_of_writes h]
  · intro g hg
    cases g with
    | vector s gs =>
      rw [bare, bare, bareAll_eq_map, bareAll_eq_map] at hg
      exact constant_vector (constant_of_writes h (Form.vector.inj hg).2)
    | comment | symbol | literal | map | list => cases hg

/-- Keys and values are written in turn. -/
theorem texts_ofKey (es : List (Key × Value)) :
    (es.flatMap fun e => [Value.ofKey e.1, e.2]).map (Value.text .readable) =
      Value.entryTexts .readable es := by
  induction es with
  | nil => rfl
  | cons e es ih =>
    obtain ⟨k, v⟩ := e
    rw [List.flatMap_cons, List.map_append, ih, Value.entryTexts]
    cases k <;> simp [Value.ofKey, Value.text, Key.text]

theorem writes_map {es : Entries Value} (hes : es.Ascending)
    (h : List.Forall₂ Writes fs (es.flatMap fun e => [.ofKey e.1, e.2])) :
    (map default fs).Writes (.map es) := by
  refine ⟨.map _ (lexical_of_writes h), ?_, rfl, ?_, ?_⟩
  · rw [text, texts_of_writes h, texts_ofKey, Value.text]
  · rw [normal, bare, bare, bareAll_eq_map, bareAll_eq_map, normals_of_writes h]
  · intro g hg
    cases g with
    | map s gs =>
      rw [bare, bare, bareAll_eq_map, bareAll_eq_map] at hg
      have hconstant := constant_map (s := s) (constant_of_writes h (Form.map.inj hg).2)
      rwa [Entries.ofList_of_ascending hes] at hconstant
    | comment | symbol | literal | vector | list => cases hg

end Form

namespace Value

open Form

theorem writes_nil : (literal default .nil "nil").Writes .nil := by
  have hstands : Lexeme.Stands (.literal .nil) "nil".toList := by
    simp only [String.reduceToList]
    exact Lexeme.stands_self rfl rfl nofun nofun
  exact writes_literal (.literal _ (fun _ => hstands) nofun) rfl rfl rfl

theorem writes_bool (b : Bool) :
    (literal default .bool (if b then "true" else "false")).Writes (.bool b) := by
  have hstands : Lexeme.Stands (.literal .bool) (if b then "true" else "false").toList := by
    cases b <;> simp only [if_true, Bool.false_eq_true, if_false, String.reduceToList] <;>
      exact Lexeme.stands_self rfl rfl nofun nofun
  refine writes_literal (.literal _ (fun _ => hstands) nofun) rfl rfl ?_
  cases b <;> rfl

/-- A decimal numeral is a token wherever a word can end after it. -/
theorem stands_of_denotes {cs : List Char} {n : Int} (h : Numeral.Denotes cs n) :
    Lexeme.Stands (.literal .int) cs := by
  have hfirst : ∃ c t, cs = c :: t ∧ isWord c = true := by
    cases h with
    | positive hne hds =>
      obtain ⟨c, t, rfl⟩ := List.exists_cons_of_ne_nil hne
      exact ⟨c, t, rfl, isWord_of_isDigit (hds c (by simp))⟩
    | negative hne hds => exact ⟨_, _, rfl, by decide⟩
  obtain ⟨c, t, rfl, hc⟩ := hfirst
  refine ⟨c, t, rfl, ?_, fun rest hrest => ?_⟩
  · by_contra hskipped
    rw [isWord_of_isSkipped (by simpa using hskipped)] at hc
    cases hc
  · exact Lexeme.scan_of_denotes h (hrest.mono fun _ => isWord_of_isNumeric)

theorem writes_int (n : Int64) :
    (literal default .int (toString n.toInt)).Writes (.int n) := by
  have hdenotes := Numeral.denotes_toString n.toInt
  have hofInt := Integer.ofInt?_toInt n
  refine writes_literal (.literal _ (fun _ => stands_of_denotes hdenotes) fun _ => ?_) rfl rfl ?_
  · exact ⟨n.toInt, hdenotes, Integer.fits_toInt n⟩
  · show (Numeral.int? (toString n.toInt).toList).map Value.int = _
    rw [Numeral.int?_of_denotes hdenotes, hofInt]
    rfl

theorem writes_string (text : String) :
    (literal default .string (String.ofList (Quoted.quote text.toList))).Writes (.string text) := by
  refine writes_literal (.literal _ (fun h => absurd rfl h) (fun h => by cases h)) ?_ rfl ?_
  · show String.ofList (Quoted.quote (Quoted.meaning (String.ofList _).toList)) = _
    rw [String.toList_ofList, Quoted.meaning_quote]
  · show some (Value.string (String.ofList (Quoted.meaning (String.ofList _).toList))) = _
    rw [String.toList_ofList, Quoted.meaning_quote, String.ofList_toList]

theorem writes_keyword {name : String} (hname : ∀ c ∈ name.toList, isWord c = true) :
    (literal default .keyword (":" ++ name)).Writes (.keyword name) := by
  have hlist : (":" ++ name).toList = ':' :: name.toList := by
    rw [String.toList_append]
    rfl
  have hstands : Lexeme.Stands (.literal .keyword) (":" ++ name).toList := by
    rw [hlist]
    refine ⟨':', name.toList, rfl, by decide, fun rest hrest => ?_⟩
    show Lexeme.mk _ _ _ = _
    rw [Stops.takeWhile_append hname hrest, Stops.dropWhile_append hname hrest]
  refine writes_literal (.literal _ (fun _ => hstands) nofun) rfl rfl ?_
  show some (Value.keyword (keywordName (":" ++ name))) = _
  simp only [keywordName, hlist, String.ofList_toList]

theorem exists_forall₂_writes {vs : List Value} (h : ∀ v ∈ vs, ∃ f : Form, f.Writes v) :
    ∃ fs, List.Forall₂ Writes fs vs := by
  induction vs with
  | nil => exact ⟨[], .nil⟩
  | cons v vs ih =>
    obtain ⟨hv, hvs⟩ := List.forall_mem_cons.1 h
    obtain ⟨f, hf⟩ := hv
    obtain ⟨fs, hfs⟩ := ih hvs
    exact ⟨f :: fs, .cons hf hfs⟩

/-- All data have forms. -/
theorem IsData.exists_writes {v : Value} (h : v.IsData) : ∃ f : Form, f.Writes v := by
  induction h with
  | nil => exact ⟨_, writes_nil⟩
  | bool b => exact ⟨_, writes_bool b⟩
  | int n => exact ⟨_, writes_int n⟩
  | string text => exact ⟨_, writes_string text⟩
  | keyword hname => exact ⟨_, writes_keyword hname⟩
  | vector _ ih =>
    obtain ⟨fs, hfs⟩ := exists_forall₂_writes ih
    exact ⟨_, writes_vector hfs⟩
  | @map es _ _ ihKey ihValue =>
    -- The entries of the map are some of those that it was made from.
    have hall : ∀ v ∈ (Entries.ofList es).flatMap fun e => [.ofKey e.1, e.2],
        ∃ f : Form, f.Writes v := by
      intro v hv
      obtain ⟨e, he, hv⟩ := List.mem_flatMap.1 hv
      have hmem := Entries.mem_of_mem_ofList he
      simp only [List.mem_cons, List.not_mem_nil, or_false] at hv
      rcases hv with rfl | rfl
      · exact ihKey e hmem
      · exact ihValue e hmem
    obtain ⟨fs, hfs⟩ := exists_forall₂_writes hall
    exact ⟨_, writes_map (Entries.ascending_ofList es) hfs⟩

end Value

end Lisp
