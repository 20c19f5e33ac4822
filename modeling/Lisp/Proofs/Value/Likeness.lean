import Mathlib.Data.List.Basic
import Lisp.Proofs.Form.Likeness
import Lisp.Proofs.Value.Renaming

/-!
# Values with other forms in them

A function carries the form of its body along, and a raw form is a value itself.

- `Value.itemwise`: what holds of a value if it holds of its items, holds of every value.
- `Value.mapForms`: a value with other forms in it. `Value.forms` are the forms that it has.
- `Likeness.OnValue`: a value with the forms of a likeness in the place of its own.
- `Likeness.text_eq`, `Likeness.equal_eq`: neither the text of a value nor equality shows them.
- `Likeness.onCall`: nor does any built-in function, but for the span that it blames.
-/

namespace Lisp

namespace Value

variable {m : Form → Form} {f : Form} {v w : Value} {vs : List Value} {es : List (Key × Value)}

/-! ## Items -/

/-- The values that a value is made of. -/
def components : Value → List Value
  | list vs | vector vs => vs
  | map es => es.map Prod.snd
  | _ => []

/-- A value is another value, or is in it at any depth of lists, vectors and maps. -/
inductive PartOf : Value → Value → Prop
  | self (v : Value) : PartOf v v
  | item {v w u : Value} : u ∈ v.components → PartOf w u → PartOf w v

mutual

/-- What holds of a value if it holds of the values that it is made of, holds of every value. -/
theorem itemwise {P : Value → Prop} (h : ∀ v, (∀ w ∈ v.components, P w) → P v) : ∀ v, P v
  | list vs => h _ (itemwiseAll h vs)
  | vector vs => h _ (itemwiseAll h vs)
  | map es => h _ (itemwiseEntries h es)
  | nil | bool _ | int _ | float _ | string _ | keyword _ | function _ | lambda _ _ _ | raw _ =>
    h _ nofun

theorem itemwiseAll {P : Value → Prop} (h : ∀ v, (∀ w ∈ v.components, P w) → P v) :
    ∀ vs : List Value, ∀ w ∈ vs, P w
  | [] => nofun
  | v :: vs => List.forall_mem_cons.2 ⟨itemwise h v, itemwiseAll h vs⟩

theorem itemwiseEntries {P : Value → Prop} (h : ∀ v, (∀ w ∈ v.components, P w) → P v) :
    ∀ es : List (Key × Value), ∀ w ∈ es.map Prod.snd, P w
  | [] => nofun
  | (_, v) :: es => List.forall_mem_cons.2 ⟨itemwise h v, itemwiseEntries h es⟩

end

theorem capturedByAll_eq_flatMap (vs : List Value) :
    capturedByAll vs = vs.flatMap captured := by
  induction vs with
  | nil => rfl
  | cons v vs ih => rw [capturedByAll, ih, List.flatMap_cons]

theorem capturedByEntries_eq_flatMap (es : List (Key × Value)) :
    capturedByEntries es = es.flatMap fun e => e.2.captured := by
  induction es with
  | nil => rfl
  | cons e es ih => rw [capturedByEntries, ih, List.flatMap_cons]

theorem entryTexts_eq_flatMap (style : Style) (es : List (Key × Value)) :
    entryTexts style es = es.flatMap fun e => [e.1.text style, e.2.text style] := by
  induction es with
  | nil => rfl
  | cons e es ih => rw [entryTexts, ih, List.flatMap_cons, List.cons_append, List.cons_append,
      List.nil_append]

/-! ## Forms -/

mutual

/-- A value with other forms in it, at any depth of lists, vectors and maps. -/
def mapForms (m : Form → Form) : Value → Value
  | lambda params body scope => lambda params (m body) scope
  | raw f => raw (m f)
  | list vs => list (mapFormsAll m vs)
  | vector vs => vector (mapFormsAll m vs)
  | map es => map (mapFormsEntries m es)
  | nil => nil
  | bool b => bool b
  | int n => int n
  | float x => float x
  | string s => string s
  | keyword k => keyword k
  | function b => function b

/-- Some values with other forms. -/
def mapFormsAll (m : Form → Form) : List Value → List Value
  | [] => []
  | v :: vs => v.mapForms m :: mapFormsAll m vs

/-- Some entries with other forms in their values. -/
def mapFormsEntries (m : Form → Form) : List (Key × Value) → List (Key × Value)
  | [] => []
  | (k, v) :: es => (k, v.mapForms m) :: mapFormsEntries m es

end

mutual

/-- The forms in a value, at any depth of lists, vectors and maps. -/
def forms : Value → List Form
  | lambda _ body _ => [body]
  | raw f => [f]
  | list vs => formsOfAll vs
  | vector vs => formsOfAll vs
  | map es => formsOfEntries es
  | _ => []

/-- The forms in some values. -/
def formsOfAll : List Value → List Form
  | [] => []
  | v :: vs => v.forms ++ formsOfAll vs

/-- The forms in the values of some entries. -/
def formsOfEntries : List (Key × Value) → List Form
  | [] => []
  | (_, v) :: es => v.forms ++ formsOfEntries es

end

theorem mapFormsAll_eq_map (m : Form → Form) (vs : List Value) :
    mapFormsAll m vs = vs.map (mapForms m) := by
  induction vs with
  | nil => rfl
  | cons v vs ih => rw [mapFormsAll, ih, List.map_cons]

theorem mapFormsEntries_eq_map (m : Form → Form) (es : List (Key × Value)) :
    mapFormsEntries m es = es.map fun e => (e.1, e.2.mapForms m) := by
  induction es with
  | nil => rfl
  | cons e es ih => rw [mapFormsEntries, ih, List.map_cons]

@[simp] theorem mapForms_list (m : Form → Form) (vs : List Value) :
    (list vs).mapForms m = list (vs.map (mapForms m)) := by
  rw [mapForms, mapFormsAll_eq_map]

@[simp] theorem mapForms_vector (m : Form → Form) (vs : List Value) :
    (vector vs).mapForms m = vector (vs.map (mapForms m)) := by
  rw [mapForms, mapFormsAll_eq_map]

@[simp] theorem mapForms_map (m : Form → Form) (es : List (Key × Value)) :
    (map es).mapForms m = map (es.map fun e => (e.1, e.2.mapForms m)) := by
  rw [mapForms, mapFormsEntries_eq_map]

theorem mem_formsOfAll : f ∈ formsOfAll vs ↔ ∃ v ∈ vs, f ∈ v.forms := by
  induction vs with
  | nil => simp [formsOfAll]
  | cons v vs ih => simp [formsOfAll, ih]

theorem mem_formsOfEntries : f ∈ formsOfEntries es ↔ ∃ e ∈ es, f ∈ e.2.forms := by
  induction es with
  | nil => simp [formsOfEntries]
  | cons e es ih => simp [formsOfEntries, ih]

/-- The forms in a value that is made of others are those in the others. -/
theorem mem_forms_of_mem_components (hw : w ∈ v.components) (hf : f ∈ w.forms) : f ∈ v.forms := by
  cases v with
  | list vs => exact mem_formsOfAll.2 ⟨w, hw, hf⟩
  | vector vs => exact mem_formsOfAll.2 ⟨w, hw, hf⟩
  | map es =>
    obtain ⟨e, he, rfl⟩ := List.mem_map.1 hw
    exact mem_formsOfEntries.2 ⟨e, he, hf⟩
  | _ => cases hw

/-- A value captures the same scopes whatever forms are in it. -/
theorem captured_mapForms (m : Form → Form) (v : Value) : (v.mapForms m).captured = v.captured := by
  induction v using itemwise with
  | h v ih =>
    cases v with
    | list vs =>
      rw [mapForms_list, captured, captured, capturedByAll_eq_flatMap, capturedByAll_eq_flatMap,
        List.flatMap_map]
      exact List.flatMap_congr ih
    | vector vs =>
      rw [mapForms_vector, captured, captured, capturedByAll_eq_flatMap, capturedByAll_eq_flatMap,
        List.flatMap_map]
      exact List.flatMap_congr ih
    | map es =>
      rw [mapForms_map, captured, captured, capturedByEntries_eq_flatMap,
        capturedByEntries_eq_flatMap, List.flatMap_map]
      exact List.flatMap_congr fun e he => ih e.2 (List.mem_map_of_mem he)
    | _ => rfl

/-- A value stays as it is when its forms do. -/
theorem mapForms_eq_self (h : ∀ f ∈ v.forms, m f = f) : v.mapForms m = v := by
  induction v using itemwise with
  | h v ih =>
    have hitems : ∀ w ∈ v.components, w.mapForms m = w :=
      fun w hw => ih w hw fun f hf => h f (mem_forms_of_mem_components hw hf)
    cases v with
    | list vs =>
      rw [mapForms_list]
      exact congrArg list ((List.map_congr_left hitems).trans (List.map_id' vs))
    | vector vs =>
      rw [mapForms_vector]
      exact congrArg vector ((List.map_congr_left hitems).trans (List.map_id' vs))
    | map es =>
      have hentries : ∀ e ∈ es, (e.1, e.2.mapForms m) = e :=
        fun e he => Prod.ext rfl (hitems e.2 (List.mem_map_of_mem he))
      rw [mapForms_map, List.map_congr_left hentries, List.map_id']
    | lambda params body scope => rw [mapForms, h body (by simp [forms])]
    | raw f => rw [mapForms, h f (by simp [forms])]
    | _ => rfl

/-- Scopes and forms are changed independently of each other. -/
theorem mapForms_rename (m : Form → Form) (r : Scope → Scope) (v : Value) :
    (v.rename r).mapForms m = (v.mapForms m).rename r := by
  induction v using itemwise with
  | h v ih =>
    cases v with
    | list vs =>
      simp only [rename, mapForms_list, renameAll_eq_map, List.map_map]
      exact congrArg list (List.map_congr_left ih)
    | vector vs =>
      simp only [rename, mapForms_vector, renameAll_eq_map, List.map_map]
      exact congrArg vector (List.map_congr_left ih)
    | map es =>
      simp only [rename, mapForms_map, renameEntries_eq_map, List.map_map]
      refine congrArg map (List.map_congr_left fun e he => ?_)
      exact congrArg (e.1, ·) (ih e.2 (List.mem_map_of_mem he))
    | _ => rfl

@[simp] theorem typeName_mapForms (v : Value) : (v.mapForms m).typeName = v.typeName := by
  cases v <;> rfl

@[simp] theorem key?_mapForms (v : Value) : (v.mapForms m).key? = v.key? := by
  cases v <;> rfl

@[simp] theorem isTruthy_mapForms (v : Value) : (v.mapForms m).isTruthy = v.isTruthy := by
  cases v <;> rfl

@[simp] theorem number?_mapForms (v : Value) : (v.mapForms m).number? = v.number? := by
  cases v <;> rfl

theorem items?_mapForms (v : Value) :
    (v.mapForms m).items? = v.items?.map (List.map (mapForms m)) := by
  cases v <;> simp [items?, mapForms, mapFormsAll_eq_map]

/-- All forms of a value are among some forms. -/
def Within (v : Value) (forms : Set Form) : Prop := ∀ f ∈ v.forms, f ∈ forms

theorem within_of_mem_components {forms : Set Form} (hv : v.Within forms) (hw : w ∈ v.components) :
    w.Within forms :=
  fun f hf => hv f (mem_forms_of_mem_components hw hf)

theorem within_of_components {forms : Set Form} (hlist : ∀ w ∈ vs, w.Within forms) :
    (list vs).Within forms ∧ (vector vs).Within forms := by
  have hall : ∀ f ∈ formsOfAll vs, f ∈ forms := by
    intro f hf
    obtain ⟨w, hw, hf⟩ := mem_formsOfAll.1 hf
    exact hlist w hw f hf
  exact ⟨hall, hall⟩

/-! ## Equality -/

theorem equalItems_map {g : Value → Value} {vs ws : List Value}
    (h : ∀ v ∈ vs, ∀ w ∈ ws, equal (g v) (g w) = equal v w) :
    equalItems (vs.map g) (ws.map g) = equalItems vs ws := by
  induction vs generalizing ws with
  | nil => cases ws <;> rfl
  | cons v vs ih =>
    cases ws with
    | nil => rfl
    | cons w ws =>
      have hrest : ∀ v ∈ vs, ∀ w ∈ ws, equal (g v) (g w) = equal v w :=
        fun v hv w hw => h v (List.mem_cons_of_mem _ hv) w (List.mem_cons_of_mem _ hw)
      simp only [List.map_cons, equalItems]
      rw [h v List.mem_cons_self w List.mem_cons_self, ih hrest]

/-- What a key is looked up for does not depend on the values of the other keys. -/
theorem lookup_map_snd {κ α β : Type} [BEq κ] (g : α → β) (k : κ) (es : List (κ × α)) :
    (es.map fun e => (e.1, g e.2)).lookup k = (es.lookup k).map g := by
  induction es with
  | nil => rfl
  | cons e es ih =>
    rw [List.map_cons, List.lookup_cons, List.lookup_cons]
    cases k == e.1 with
    | true => rfl
    | false => exact ih

theorem matchEntries_map {g : Value → Value} {es fs : List (Key × Value)}
    (h : ∀ e ∈ es, ∀ d ∈ fs, equal (g e.2) (g d.2) = equal e.2 d.2) :
    matchEntries (es.map fun e => (e.1, g e.2)) (fs.map fun e => (e.1, g e.2)) =
      matchEntries es fs := by
  induction es with
  | nil => rw [List.map_nil, matchEntries, matchEntries]
  | cons e es ih =>
    simp only [List.map_cons, matchEntries]
    rw [ih fun e he => h e (List.mem_cons_of_mem _ he), lookup_map_snd]
    cases hl : fs.lookup e.1 with
    | none => rfl
    | some w =>
      obtain ⟨before, after, rfl, -⟩ := List.lookup_eq_some_iff.1 hl
      have hw := h e List.mem_cons_self (e.1, w) (by simp)
      simp only [Option.map_some, hw]

end Value

/-- The same fault, with another span to blame. -/
def EvalError.blaming (span : Span) : EvalError → EvalError
  | undefinedSymbol name _ => undefinedSymbol name span
  | unpairedKey _ => unpairedKey span
  | typeMismatch operation expected found _ => typeMismatch operation expected found span
  | arity name expected found _ => arity name expected found span
  | specialForm fault _ => specialForm fault span
  | invalidLiteral text _ => invalidLiteral text span
  | arithmetic operation cause _ => arithmetic operation cause span
  | output cause _ => output cause span

theorem EvalError.blaming_span (e : EvalError) : e.blaming e.span = e := by
  cases e <;> rfl

@[simp] theorem EvalError.blaming_blaming (e : EvalError) (span span' : Span) :
    (e.blaming span).blaming span' = e.blaming span' := by
  cases e <;> rfl

/-- Two results that correspond: related values, or related causes for there being none. -/
inductive SameResult {ε α : Type} (E : ε → ε → Prop) (Q : α → α → Prop) :
    Except ε α → Except ε α → Prop
  | ok {a b : α} : Q a b → SameResult E Q (.ok a) (.ok b)
  | error {e e' : ε} : E e e' → SameResult E Q (.error e) (.error e')

theorem SameResult.bind {ε α β : Type} {E : ε → ε → Prop} {Q : α → α → Prop} {R : β → β → Prop}
    {x y : Except ε α} {g k : α → Except ε β} (hx : SameResult E Q x y)
    (hg : ∀ a b, Q a b → SameResult E R (g a) (k b)) : SameResult E R (x >>= g) (y >>= k) := by
  cases hx with
  | ok hab => exact hg _ _ hab
  | error he => exact .error he

/-! ## Values with the forms of a likeness -/

namespace Likeness

variable (c : Likeness)

/-- A value with other forms in the place of its own. -/
def OnValue (v w : Value) : Prop := w = v.mapForms c.map ∧ v.Within c.dom

/-- Some values with other forms in the place of their own. -/
def OnValues (vs ws : List Value) : Prop :=
  ws = vs.map (Value.mapForms c.map) ∧ ∀ v ∈ vs, v.Within c.dom

/-- Some entries with other forms in the place of their own. -/
def OnEntries (es fs : List (Key × Value)) : Prop :=
  fs = es.map (fun e => (e.1, e.2.mapForms c.map)) ∧ ∀ e ∈ es, e.2.Within c.dom

/-- The span of a form, and that of the form in its place. Where a shorthand is written out, another
span can be in the place of the shorthand's. -/
def OnSpan (span span' : Span) : Prop :=
  ∃ f ∈ c.dom, span = f.span ∧ ((c.map f).shorthand? = f.shorthand? → span' = (c.map f).span)

/-- A fault that blames a form, and the same fault that blames the form in its place. -/
def OnFault (e e' : EvalError) : Prop := ∃ span', c.OnSpan e.span span' ∧ e' = e.blaming span'

variable {c} {v w : Value} {vs ws : List Value} {es fs : List (Key × Value)} {span span' : Span}

theorem onSpan {f : Form} (hf : f ∈ c.dom) : c.OnSpan f.span (c.map f).span :=
  ⟨f, hf, rfl, fun _ => rfl⟩

theorem onFault {e : EvalError} (h : c.OnSpan e.span span') : c.OnFault e (e.blaming span') :=
  ⟨span', h, rfl⟩

/-- A value without forms is in its own place. -/
theorem OnValue.of_forms_eq_nil (hv : v.forms = []) : c.OnValue v v :=
  ⟨(Value.mapForms_eq_self (by simp [hv])).symm, by simp [Value.Within, hv]⟩

theorem OnValues.nil : c.OnValues [] [] := ⟨rfl, nofun⟩

theorem OnValues.cons (hv : c.OnValue v w) (hvs : c.OnValues vs ws) :
    c.OnValues (v :: vs) (w :: ws) :=
  ⟨by rw [List.map_cons, hv.1, hvs.1], List.forall_mem_cons.2 ⟨hv.2, hvs.2⟩⟩

theorem OnValues.list (hvs : c.OnValues vs ws) : c.OnValue (.list vs) (.list ws) :=
  ⟨by rw [Value.mapForms_list, hvs.1], (Value.within_of_components hvs.2).1⟩

theorem OnValues.vector (hvs : c.OnValues vs ws) : c.OnValue (.vector vs) (.vector ws) :=
  ⟨by rw [Value.mapForms_vector, hvs.1], (Value.within_of_components hvs.2).2⟩

theorem OnEntries.nil : c.OnEntries [] [] := ⟨rfl, nofun⟩

theorem OnEntries.cons (k : Key) (hv : c.OnValue v w) (hes : c.OnEntries es fs) :
    c.OnEntries ((k, v) :: es) ((k, w) :: fs) :=
  ⟨by rw [List.map_cons, hv.1, hes.1], List.forall_mem_cons.2 ⟨hv.2, hes.2⟩⟩

theorem OnEntries.map (hes : c.OnEntries es fs) :
    c.OnValue (.map (Entries.ofList es)) (.map (Entries.ofList fs)) := by
  refine ⟨by rw [hes.1, Entries.ofList_map, Value.mapForms_map], fun f hf => ?_⟩
  obtain ⟨e, he, hf⟩ := Value.mem_formsOfEntries.1 hf
  exact hes.2 e (Entries.mem_of_mem_ofList he) f hf

/-- The text of a value does not show which forms are in it. -/
theorem text_eq (hvw : c.OnValue v w) (style : Style) : w.text style = v.text style := by
  obtain ⟨rfl, hv⟩ := hvw
  induction v using Value.itemwise with
  | h v ih =>
    have hitems : ∀ w ∈ v.components, (w.mapForms c.map).text style = w.text style :=
      fun w hw => ih w hw (Value.within_of_mem_components hv hw)
    cases v with
    | list vs =>
      have htexts : vs.map (Value.text style ∘ Value.mapForms c.map) = vs.map (Value.text style) :=
        List.map_congr_left hitems
      simp only [Value.mapForms_list, Value.text, Value.texts_eq_map, List.map_map, htexts]
    | vector vs =>
      have htexts : vs.map (Value.text style ∘ Value.mapForms c.map) = vs.map (Value.text style) :=
        List.map_congr_left hitems
      simp only [Value.mapForms_vector, Value.text, Value.texts_eq_map, List.map_map, htexts]
    | map es =>
      simp only [Value.mapForms_map, Value.text, Value.entryTexts_eq_flatMap, List.flatMap_map]
      rw [List.flatMap_congr fun e he => by rw [hitems e.2 (List.mem_map_of_mem he)]]
    | raw f => exact c.text_map (hv f (by simp [Value.forms]))
    | _ => rfl

/-- Whether two values are equal does not show which forms are in them. -/
theorem equal_eq {v' w' : Value} (hv : c.OnValue v v') (hw : c.OnValue w w') :
    v'.equal w' = v.equal w := by
  obtain ⟨rfl, hv⟩ := hv
  obtain ⟨rfl, hw⟩ := hw
  induction v using Value.itemwise generalizing w with
  | h v ih =>
    have hitems : ∀ a ∈ v.components, ∀ b ∈ w.components,
        (a.mapForms c.map).equal (b.mapForms c.map) = a.equal b :=
      fun a ha b hb => ih a ha (Value.within_of_mem_components hv ha)
        (Value.within_of_mem_components hw hb)
    cases v with
    | list vs =>
      cases w with
      | list ws | vector ws =>
        simp only [Value.mapForms_list, Value.mapForms_vector, Value.equal]
        exact Value.equalItems_map hitems
      | _ => simp [Value.mapForms, Value.equal]
    | vector vs =>
      cases w with
      | list ws | vector ws =>
        simp only [Value.mapForms_list, Value.mapForms_vector, Value.equal]
        exact Value.equalItems_map hitems
      | _ => simp [Value.mapForms, Value.equal]
    | map es =>
      cases w with
      | map fs =>
        simp only [Value.mapForms_map, Value.equal, List.length_map]
        rw [Value.matchEntries_map fun e he d hd =>
          hitems e.2 (List.mem_map_of_mem he) d.2 (List.mem_map_of_mem hd)]
      | _ => simp [Value.mapForms, Value.equal]
    | raw f =>
      -- Raw forms are equal if they are the same form, wherever that comes from.
      cases w with
      | raw g => exact c.same f (hv f (by simp [Value.forms])) g (hw g (by simp [Value.forms]))
      | _ => simp [Value.mapForms, Value.equal]
    | _ => cases w <;> simp [Value.mapForms, Value.equal]

/-! ## Built-in functions -/

/-- An answer with other forms in the place of its own. -/
inductive OnAnswer (c : Likeness) : Builtin.Answer → Builtin.Answer → Prop
  | value {v w : Value} : c.OnValue v w → OnAnswer c (.value v) (.value w)
  | line (text : String) : OnAnswer c (.line text) (.line text)

variable {b : Builtin}

theorem onWrongCount {α : Type} {Q : α → α → Prop} (b : Builtin) (expected : Nat)
    (hspan : c.OnSpan span span') (hvs : c.OnValues vs ws) :
    SameResult c.OnFault Q (Builtin.wrongCount b expected vs span)
      (Builtin.wrongCount b expected ws span') := by
  obtain ⟨rfl, -⟩ := hvs
  unfold Builtin.wrongCount
  rw [List.length_map]
  exact .error (onFault hspan)

theorem onExpectNumbers (b : Builtin) (hspan : c.OnSpan span span') (hvs : c.OnValues vs ws) :
    SameResult c.OnFault Eq (b.expectNumbers span vs) (b.expectNumbers span' ws) := by
  have hnumber : ∀ v : Value, SameResult c.OnFault Eq (b.expectNumber span v)
      (b.expectNumber span' (v.mapForms c.map)) := by
    intro v
    simp only [Builtin.expectNumber, Value.number?_mapForms, Value.typeName_mapForms]
    cases v.number? with
    | some n => exact .ok rfl
    | none => exact .error (onFault hspan)
  have hcount := onWrongCount (Q := Eq (α := Number × Number)) b 2 hspan hvs
  obtain ⟨rfl, -⟩ := hvs
  rcases vs with _ | ⟨v, _ | ⟨w, _ | ⟨_, _⟩⟩⟩
  · exact hcount
  · exact hcount
  · refine (hnumber v).bind fun m _ hm => ?_
    subst hm
    refine (hnumber w).bind fun n _ hn => ?_
    subst hn
    exact .ok rfl
  · exact hcount

theorem onArithmetic (op : Number → Number → Except ArithmeticError Number)
    (hspan : c.OnSpan span span') (hvs : c.OnValues vs ws) :
    SameResult c.OnFault c.OnAnswer (b.arithmetic op span vs) (b.arithmetic op span' ws) := by
  refine (onExpectNumbers b hspan hvs).bind fun p _ hp => ?_
  subst hp
  dsimp only
  cases op p.1 p.2 with
  | ok r =>
    refine .ok (.value (.of_forms_eq_nil ?_))
    cases r <;> rfl
  | error cause => exact .error (onFault hspan)

theorem onComparison (test : Ordering → Bool) (hspan : c.OnSpan span span')
    (hvs : c.OnValues vs ws) :
    SameResult c.OnFault c.OnAnswer (b.comparison test span vs) (b.comparison test span' ws) := by
  refine (onExpectNumbers b hspan hvs).bind fun p _ hp => ?_
  subst hp
  exact .ok (.value (.of_forms_eq_nil rfl))

theorem onUnary {g : Value → Value} (hg : ∀ v, (g v).forms = [] ∧ g (v.mapForms c.map) = g v)
    (hspan : c.OnSpan span span') (hvs : c.OnValues vs ws) :
    SameResult c.OnFault c.OnAnswer (b.unary g span vs) (b.unary g span' ws) := by
  have hcount := onWrongCount (Q := c.OnAnswer) b 1 hspan hvs
  obtain ⟨rfl, -⟩ := hvs
  match vs with
  | [] | _ :: _ :: _ => exact hcount
  | [v] =>
    show SameResult c.OnFault c.OnAnswer (.ok (.value (g v))) (.ok (.value (g (v.mapForms c.map))))
    rw [(hg v).2]
    exact .ok (.value (.of_forms_eq_nil (hg v).1))

theorem onEquality (hspan : c.OnSpan span span') (hvs : c.OnValues vs ws) :
    SameResult c.OnFault c.OnAnswer (Builtin.equality span vs) (Builtin.equality span' ws) := by
  have hcount := onWrongCount (Q := c.OnAnswer) .equal 2 hspan hvs
  obtain ⟨rfl, hin⟩ := hvs
  match vs with
  | [] | [_] | _ :: _ :: _ :: _ => exact hcount
  | [v, w] =>
    show SameResult c.OnFault c.OnAnswer (.ok (.value (.bool (v.equal w))))
      (.ok (.value (.bool ((v.mapForms c.map).equal (w.mapForms c.map)))))
    rw [equal_eq ⟨rfl, hin v (by simp)⟩ ⟨rfl, hin w (by simp)⟩]
    exact .ok (.value (.of_forms_eq_nil rfl))

theorem joined_eq (separator : String) (style : Style) (hvs : c.OnValues vs ws) :
    Builtin.joined separator style ws = Builtin.joined separator style vs := by
  obtain ⟨rfl, hin⟩ := hvs
  unfold Builtin.joined
  rw [Value.texts_eq_map, Value.texts_eq_map, List.map_map]
  exact congrArg _ (List.map_congr_left fun v hv => text_eq ⟨rfl, hin v hv⟩ style)

/-- No built-in function shows which forms are in its arguments, but for the span that it
blames. -/
theorem onAnswer (b : Builtin) (hspan : c.OnSpan span span') (hvs : c.OnValues vs ws) :
    SameResult c.OnFault c.OnAnswer (b.answer span vs) (b.answer span' ws) := by
  cases b with
  | add | sub | mul | div => exact onArithmetic _ hspan hvs
  | less | lessOrEqual | greater | greaterOrEqual => exact onComparison _ hspan hvs
  | equal => exact onEquality hspan hvs
  | list => exact .ok (.value hvs.list)
  | isList =>
    refine onUnary (fun v => ⟨rfl, ?_⟩) hspan hvs
    cases v <;> rfl
  | isEmpty =>
    refine onUnary (fun v => ⟨rfl, ?_⟩) hspan hvs
    rw [Value.items?_mapForms]
    cases v.items? with
    | none => rfl
    | some vs => cases vs <;> rfl
  | count =>
    refine onUnary (fun v => ⟨rfl, ?_⟩) hspan hvs
    rw [Builtin.countItems, Builtin.countItems, Value.items?_mapForms]
    cases v.items? with
    | none => rfl
    | some vs => simp
  | prn | println =>
    simp only [Builtin.answer, joined_eq _ _ hvs]
    exact .ok (.line _)
  | prStr | str =>
    simp only [Builtin.answer, joined_eq _ _ hvs]
    exact .ok (.value (.of_forms_eq_nil rfl))

/-- A call of a built-in function prints the same whatever forms are in its arguments. -/
theorem onCall (b : Builtin) (hspan : c.OnSpan span span') (hvs : c.OnValues vs ws)
    (sink : Sink) :
    SameResult c.OnFault c.OnValue (b.call span vs sink).1 (b.call span' ws sink).1 ∧
      (b.call span' ws sink).2 = (b.call span vs sink).2 := by
  have hanswer := onAnswer b hspan hvs
  unfold Builtin.call
  generalize b.answer span vs = x at hanswer
  generalize b.answer span' ws = y at hanswer
  cases hanswer with
  | error he => exact ⟨.error he, rfl⟩
  | ok h =>
    cases h with
    | value hvw => exact ⟨.ok hvw, rfl⟩
    | line text =>
      dsimp only
      rcases sink.writeLine text with ⟨cause | _, sink'⟩
      · exact ⟨.error (onFault hspan), rfl⟩
      · exact ⟨.ok (.of_forms_eq_nil rfl), rfl⟩

end Likeness

end Lisp
