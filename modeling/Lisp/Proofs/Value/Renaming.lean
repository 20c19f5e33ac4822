import Mathlib.Tactic.ByContra
import Lisp.Builtin.Call
import Lisp.Proofs.Value.Entries

/-!
# Values under other names for their scopes

The functions in a value carry scopes along, and a scope is only a handle: two runs of a program
may use different handles for corresponding frames.

- `Value.rename`: a value with other scopes in its functions.
- `captured_rename`, `rename_congr`: a value depends on the names of the scopes that it captures,
  and on no others.
- `text_rename`, `equal_rename`: neither the text of a value nor equality shows the names.
- `Builtin.answer_rename`: nor does any built-in function.
-/

namespace Lisp

namespace Value

variable {r q : Scope → Scope}

mutual

/-- A value with other scopes in its functions, at any depth of lists, vectors and maps. -/
def rename (r : Scope → Scope) : Value → Value
  | lambda params body scope => lambda params body (r scope)
  | list vs => list (renameAll r vs)
  | vector vs => vector (renameAll r vs)
  | map es => map (renameEntries r es)
  | nil => nil
  | bool b => bool b
  | int n => int n
  | float x => float x
  | string s => string s
  | keyword k => keyword k
  | function b => function b
  | raw f => raw f

/-- Some values with other scopes. -/
def renameAll (r : Scope → Scope) : List Value → List Value
  | [] => []
  | v :: vs => v.rename r :: renameAll r vs

/-- Some entries with other scopes in their values. -/
def renameEntries (r : Scope → Scope) : List (Key × Value) → List (Key × Value)
  | [] => []
  | (k, v) :: es => (k, v.rename r) :: renameEntries r es

end

theorem renameAll_eq_map (r : Scope → Scope) (vs : List Value) :
    renameAll r vs = vs.map (rename r) := by
  induction vs with
  | nil => rfl
  | cons v vs ih => simp [renameAll, ih]

theorem renameEntries_eq_map (r : Scope → Scope) (es : List (Key × Value)) :
    renameEntries r es = es.map fun e => (e.1, e.2.rename r) := by
  induction es with
  | nil => rfl
  | cons e es ih => simp [renameEntries, ih]

theorem mem_capturedByAll {c : Scope} {vs : List Value} :
    c ∈ capturedByAll vs ↔ ∃ v ∈ vs, c ∈ v.captured := by
  induction vs with
  | nil => simp [capturedByAll]
  | cons v vs ih => simp [capturedByAll, ih]

theorem mem_capturedByEntries {c : Scope} {es : List (Key × Value)} :
    c ∈ capturedByEntries es ↔ ∃ e ∈ es, c ∈ e.2.captured := by
  induction es with
  | nil => simp [capturedByEntries]
  | cons e es ih => simp [capturedByEntries, ih]

/-! ## Scopes of a renamed value -/

mutual

/-- A renamed value captures the renamed scopes. -/
theorem captured_rename (r : Scope → Scope) : ∀ v : Value, (v.rename r).captured = v.captured.map r
  | lambda _ _ _ => rfl
  | list vs => capturedByAll_renameAll r vs
  | vector vs => capturedByAll_renameAll r vs
  | map es => capturedByEntries_renameEntries r es
  | nil | bool _ | int _ | float _ | string _ | keyword _ | function _ | raw _ => rfl

theorem capturedByAll_renameAll (r : Scope → Scope) :
    ∀ vs : List Value, capturedByAll (renameAll r vs) = (capturedByAll vs).map r
  | [] => rfl
  | v :: vs => by
    simp only [renameAll, capturedByAll, List.map_append]
    rw [captured_rename r v, capturedByAll_renameAll r vs]

theorem capturedByEntries_renameEntries (r : Scope → Scope) :
    ∀ es : List (Key × Value),
      capturedByEntries (renameEntries r es) = (capturedByEntries es).map r
  | [] => rfl
  | (_, v) :: es => by
    simp only [renameEntries, capturedByEntries, List.map_append]
    rw [captured_rename r v, capturedByEntries_renameEntries r es]

end

mutual

/-- Two renamings that agree on the scopes of a value give the same value. -/
theorem rename_congr : ∀ {v : Value}, (∀ c ∈ v.captured, r c = q c) → v.rename r = v.rename q
  | lambda _ _ _, h => by
    simp only [rename]
    rw [h _ (by simp [captured])]
  | list _, h => congrArg list (renameAll_congr h)
  | vector _, h => congrArg vector (renameAll_congr h)
  | map _, h => congrArg map (renameEntries_congr h)
  | nil, _ | bool _, _ | int _, _ | float _, _ | string _, _ | keyword _, _ | function _, _
  | raw _, _ => rfl

theorem renameAll_congr :
    ∀ {vs : List Value}, (∀ c ∈ capturedByAll vs, r c = q c) → renameAll r vs = renameAll q vs
  | [], _ => rfl
  | v :: vs, h => by
    have hv : v.rename r = v.rename q := rename_congr fun c hc => h c (List.mem_append_left _ hc)
    have hvs : renameAll r vs = renameAll q vs :=
      renameAll_congr fun c hc => h c (List.mem_append_right _ hc)
    rw [renameAll, renameAll, hv, hvs]

theorem renameEntries_congr :
    ∀ {es : List (Key × Value)}, (∀ c ∈ capturedByEntries es, r c = q c) →
      renameEntries r es = renameEntries q es
  | [], _ => rfl
  | (_, v) :: es, h => by
    have hv : v.rename r = v.rename q := rename_congr fun c hc => h c (List.mem_append_left _ hc)
    have hes : renameEntries r es = renameEntries q es :=
      renameEntries_congr fun c hc => h c (List.mem_append_right _ hc)
    rw [renameEntries, renameEntries, hv, hes]

end

mutual

theorem rename_id : ∀ v : Value, v.rename id = v
  | lambda _ _ _ => rfl
  | list vs => congrArg list (renameAll_id vs)
  | vector vs => congrArg vector (renameAll_id vs)
  | map es => congrArg map (renameEntries_id es)
  | nil | bool _ | int _ | float _ | string _ | keyword _ | function _ | raw _ => rfl

theorem renameAll_id : ∀ vs : List Value, renameAll id vs = vs
  | [] => rfl
  | v :: vs => by rw [renameAll, rename_id v, renameAll_id vs]

theorem renameEntries_id : ∀ es : List (Key × Value), renameEntries id es = es
  | [] => rfl
  | (_, v) :: es => by rw [renameEntries, rename_id v, renameEntries_id es]

end

/-! ## What does not show the names -/

mutual

/-- The text of a value does not show its scopes. -/
theorem text_rename (r : Scope → Scope) (style : Style) :
    ∀ v : Value, (v.rename r).text style = v.text style
  | lambda _ _ _ => rfl
  | list vs => by rw [rename, text, text, texts_renameAll r style vs]
  | vector vs => by rw [rename, text, text, texts_renameAll r style vs]
  | map es => by rw [rename, text, text, entryTexts_renameEntries r style es]
  | nil | bool _ | int _ | float _ | string _ | keyword _ | function _ | raw _ => rfl

theorem texts_renameAll (r : Scope → Scope) (style : Style) :
    ∀ vs : List Value, texts style (renameAll r vs) = texts style vs
  | [] => rfl
  | v :: vs => by rw [renameAll, texts, texts, text_rename r style v, texts_renameAll r style vs]

theorem entryTexts_renameEntries (r : Scope → Scope) (style : Style) :
    ∀ es : List (Key × Value), entryTexts style (renameEntries r es) = entryTexts style es
  | [] => rfl
  | (_, v) :: es => by
    rw [renameEntries, entryTexts, entryTexts, text_rename r style v,
      entryTexts_renameEntries r style es]

end

@[simp] theorem typeName_rename (v : Value) : (v.rename r).typeName = v.typeName := by
  cases v <;> rfl

@[simp] theorem key?_rename (v : Value) : (v.rename r).key? = v.key? := by
  cases v <;> rfl

@[simp] theorem isTruthy_rename (v : Value) : (v.rename r).isTruthy = v.isTruthy := by
  cases v <;> rfl

@[simp] theorem number?_rename (v : Value) : (v.rename r).number? = v.number? := by
  cases v <;> rfl

theorem items?_rename (v : Value) : (v.rename r).items? = v.items?.map (renameAll r) := by
  cases v <;> rfl

theorem lookup_renameEntries (k : Key) (es : List (Key × Value)) :
    (renameEntries r es).lookup k = (es.lookup k).map (rename r) := by
  induction es with
  | nil => rfl
  | cons e es ih =>
    obtain ⟨l, v⟩ := e
    rw [renameEntries, List.lookup_cons, List.lookup_cons]
    cases k == l with
    | true => rfl
    | false => exact ih

mutual

/-- Whether two values are equal does not depend on their scopes: a function equals nothing. -/
theorem equal_rename (r : Scope → Scope) :
    ∀ v w : Value, equal (v.rename r) (w.rename r) = equal v w
  | list vs, w => by cases w <;> simp [rename, equal, equalItems_renameAll r vs]
  | vector vs, w => by cases w <;> simp [rename, equal, equalItems_renameAll r vs]
  | map es, w => by
    cases w with
    | map fs =>
      simp only [rename, equal, matchEntries_renameEntries r es]
      simp [renameEntries_eq_map]
    | _ => simp [rename, equal]
  | nil, w | bool _, w | int _, w | float _, w | string _, w | keyword _, w | function _, w
  | raw _, w | lambda _ _ _, w => by cases w <;> simp [rename, equal]

theorem equalItems_renameAll (r : Scope → Scope) :
    ∀ vs ws : List Value, equalItems (renameAll r vs) (renameAll r ws) = equalItems vs ws
  | [], ws => by cases ws <;> simp [renameAll, equalItems]
  | v :: vs, ws => by
    cases ws with
    | nil => simp [renameAll, equalItems]
    | cons w ws =>
      simp only [renameAll, equalItems]
      rw [equal_rename r v w, equalItems_renameAll r vs ws]

theorem matchEntries_renameEntries (r : Scope → Scope) :
    ∀ es fs : List (Key × Value),
      matchEntries (renameEntries r es) (renameEntries r fs) = matchEntries es fs
  | [], fs => by simp [renameEntries, matchEntries]
  | (k, v) :: es, fs => by
    simp only [renameEntries, matchEntries]
    rw [matchEntries_renameEntries r es fs, lookup_renameEntries]
    cases fs.lookup k with
    | none => rfl
    | some w => simp only [Option.map_some, equal_rename r v w]

end

end Value

/-! ## Maps -/

namespace Entries

variable {α β : Type}

theorem insert_map (g : α → β) (k : Key) (v : α) (es : Entries α) :
    (insert k v es).map (fun e => (e.1, g e.2)) =
      insert k (g v) (es.map fun e => (e.1, g e.2)) := by
  induction es with
  | nil => rfl
  | cons e es ih =>
    obtain ⟨l, w⟩ := e
    simp only [insert, List.map_cons]
    cases k.compare l with
    | lt => rfl
    | eq => rfl
    | gt => rw [List.map_cons, ih]

/-- A map of changed values is the changed map. -/
theorem ofList_map (g : α → β) (es : List (Key × α)) :
    ofList (es.map fun e => (e.1, g e.2)) = (ofList es).map fun e => (e.1, g e.2) := by
  have hfold : ∀ acc : Entries α,
      (es.map fun e => (e.1, g e.2)).foldl (fun acc e => insert e.1 e.2 acc)
          (acc.map fun e => (e.1, g e.2)) =
        (es.foldl (fun acc e => insert e.1 e.2 acc) acc).map fun e => (e.1, g e.2) := by
    induction es with
    | nil => exact fun _ => rfl
    | cons e es ih =>
      intro acc
      rw [List.map_cons, List.foldl_cons, List.foldl_cons, ← ih, insert_map]
  exact hfold []

end Entries

/-! ## Built-in functions -/

namespace Builtin

variable {r : Scope → Scope} {b : Builtin} {span : Span} {args : List Value}

/-- The result of a call with other scopes. -/
def Answer.rename (r : Scope → Scope) : Answer → Answer
  | value v => value (v.rename r)
  | line text => line text

theorem expectNumber_rename (v : Value) :
    expectNumber b span (v.rename r) = expectNumber b span v := by
  simp [expectNumber]

theorem expectNumbers_rename :
    expectNumbers b span (args.map (Value.rename r)) = expectNumbers b span args := by
  match args with
  | [] | [_] | _ :: _ :: _ :: _ => simp [expectNumbers, wrongCount]
  | [v, w] => simp [expectNumbers, expectNumber_rename]

theorem arithmetic_rename (op : Number → Number → Except ArithmeticError Number) :
    arithmetic b op span (args.map (Value.rename r)) =
      (arithmetic b op span args).map (Answer.rename r) := by
  unfold arithmetic
  rw [expectNumbers_rename]
  cases expectNumbers b span args with
  | error e => rfl
  | ok p =>
    obtain ⟨m, n⟩ := p
    cases hop : op m n with
    | error e =>
      simp only [bind, Except.bind, hop]
      rfl
    | ok k =>
      simp only [bind, Except.bind, hop]
      cases k <;> rfl

theorem comparison_rename (test : Ordering → Bool) :
    comparison b test span (args.map (Value.rename r)) =
      (comparison b test span args).map (Answer.rename r) := by
  unfold comparison
  rw [expectNumbers_rename]
  cases expectNumbers b span args <;> rfl

theorem unary_rename {g : Value → Value} (hg : ∀ v, g (v.rename r) = (g v).rename r) :
    unary b g span (args.map (Value.rename r)) = (unary b g span args).map (Answer.rename r) := by
  match args with
  | [] | _ :: _ :: _ => simp [unary, wrongCount, Except.map]
  | [v] => simp [unary, hg, Except.map, Answer.rename]

theorem equality_rename :
    equality span (args.map (Value.rename r)) =
      (equality span args).map (Answer.rename r) := by
  match args with
  | [] | [_] | _ :: _ :: _ :: _ => simp [equality, wrongCount, Except.map]
  | [v, w] => simp [equality, Value.equal_rename, Except.map, Answer.rename, Value.rename]

theorem joined_rename (separator : String) (style : Style) :
    joined separator style (args.map (Value.rename r)) = joined separator style args := by
  unfold joined
  rw [← Value.renameAll_eq_map, Value.texts_renameAll]

/-- No built-in function shows the scopes of its arguments. -/
theorem answer_rename (r : Scope → Scope) (b : Builtin) (span : Span) (args : List Value) :
    b.answer span (args.map (Value.rename r)) = (b.answer span args).map (Answer.rename r) := by
  cases b with
  | add | sub | mul | div => exact arithmetic_rename _
  | less | lessOrEqual | greater | greaterOrEqual => exact comparison_rename _
  | equal => exact equality_rename
  | list =>
    simp [answer, Except.map, Answer.rename, Value.rename, Value.renameAll_eq_map]
  | isList =>
    refine unary_rename fun v => ?_
    cases v <;> rfl
  | isEmpty =>
    refine unary_rename fun v => ?_
    rw [Value.items?_rename]
    cases v.items? with
    | none => rfl
    | some vs => cases vs <;> rfl
  | count =>
    refine unary_rename fun v => ?_
    simp only [countItems, Value.items?_rename]
    cases v.items? with
    | none => rfl
    | some vs => simp [Value.rename, Value.renameAll_eq_map]
  | prn | prStr | str | println =>
    simp [answer, joined_rename, Except.map, Answer.rename, Value.rename]

/-- A call of a built-in function on renamed arguments gives the renamed result, and prints the
same. -/
theorem call_rename (r : Scope → Scope) (b : Builtin) (span : Span) (args : List Value)
    (sink : Sink) :
    b.call span (args.map (Value.rename r)) sink =
      ((b.call span args sink).1.map (Value.rename r), (b.call span args sink).2) := by
  unfold call
  rw [answer_rename]
  cases b.answer span args with
  | error e => rfl
  | ok answer =>
    cases answer with
    | value v => rfl
    | line text =>
      simp only [Except.map, Answer.rename]
      cases hw : sink.writeLine text with
      | mk result sink' => cases result <;> rfl

/-- The result of a call has no scopes but those of the arguments: a scope that it had of its own
would have to stay the same under every renaming. -/
theorem mem_captured_of_call {sink : Sink} {v : Value} {c : Scope}
    (hcall : (b.call span args sink).1 = .ok v) (hc : c ∈ v.captured) :
    c ∈ Value.capturedByAll args := by
  by_contra hnew
  let other : Scope → Scope := fun d => if d = c then ⟨c.index + 1, c.generation⟩ else d
  have hargs : args.map (Value.rename other) = args := by
    rw [← Value.renameAll_eq_map]
    refine (Value.renameAll_congr fun d hd => ?_).trans (Value.renameAll_id args)
    exact if_neg fun hdc : d = c => hnew (hdc ▸ hd)
  have hsame := congrArg Prod.fst (call_rename other b span args sink)
  simp only [hargs, hcall, Except.map, Except.ok.injEq] at hsame
  rw [hsame, Value.captured_rename, List.mem_map] at hc
  obtain ⟨d, -, hd⟩ := hc
  by_cases hdc : d = c
  · have := congrArg Scope.index hd
    simp [other, hdc] at this
  · simp [other, hdc] at hd

end Builtin

end Lisp
