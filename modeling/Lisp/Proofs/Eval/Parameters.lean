import Lisp.Proofs.Eval.Equations
import Lisp.Proofs.Scope.History

/-!
# Parameters and arguments

Three rules read a parameter list: the one by which a function is made, the one that counts the
arguments of a call, and the one that binds them. They agree on what the list says.

- `Parameters`: a parameter list taken apart, into the names before the marker and the name behind
  it. `Parameters.markerInPlace_iff`: the functions that can be made have such a list.
- `Parameters.Admits`, `Parameters.Binds`: how many arguments a call may have, and what it binds.
- `Parameters.lookup_bindAll_iff`: a call binds just that.
- `Eval.applyLambda_binds`: what a call of a function does, whoever calls it.
-/

namespace Lisp

/-- A parameter list taken apart: the parameters before the marker and, if the marker is there, the
name behind it. -/
structure Parameters where
  required : List String
  rest : Option String
  unmarked : restMarker ∉ required

namespace Parameters

variable {p : Parameters} {args : List Value} {n : String} {v : Value}

/-- The marker and the name behind it. -/
def tail (p : Parameters) : List String :=
  match p.rest with
  | none => []
  | some rest => [restMarker, rest]

/-- The parameter list. -/
def names (p : Parameters) : List String := p.required ++ p.tail

/-- How many arguments there are to be. -/
def arity (p : Parameters) : Arity :=
  match p.rest with
  | none => .exactly p.required.length
  | some _ => .atLeast p.required.length

/-- So many arguments are as many as there are to be. -/
def Admits (p : Parameters) (count : Nat) : Prop :=
  match p.rest with
  | none => count = p.required.length
  | some _ => p.required.length ≤ count

/-- What a name is bound to: the name behind the marker to all further arguments, and any other
name to the argument in the last place where the name stands. -/
inductive Binds (p : Parameters) (args : List Value) : String → Value → Prop
  | rest {n : String} : p.rest = some n → Binds p args n (.list (args.drop p.required.length))
  | required {n : String} {v : Value} {before behind : List String} : p.rest ≠ some n →
      p.required = before ++ n :: behind → n ∉ behind → args[before.length]? = some v →
      Binds p args n v

/-! ## Making a function -/

/-- A parameter list has its marker in place when it can be taken apart. -/
theorem markerInPlace_iff {params : List String} :
    Eval.markerInPlace params = true ↔ ∃ p : Parameters, p.names = params := by
  constructor
  · intro h
    by_cases hmem : restMarker ∈ params
    · obtain ⟨required, behind, rfl, hunmarked⟩ := List.eq_append_cons_of_mem hmem
      -- Exactly one name stands behind the first marker.
      have hone : behind.length = 1 := by
        simp [Eval.markerInPlace, List.idxOf_append, hunmarked] at h
        omega
      obtain ⟨rest, rfl⟩ := List.length_eq_one_iff.1 hone
      exact ⟨⟨required, some rest, hunmarked⟩, rfl⟩
    · exact ⟨⟨params, none, hmem⟩, List.append_nil params⟩
  · rintro ⟨⟨required, _ | rest, hunmarked⟩, rfl⟩
    · simp [Eval.markerInPlace, names, tail, hunmarked]
    · simp [Eval.markerInPlace, names, tail, List.idxOf_append, hunmarked]

/-! ## Counting arguments -/

theorem ofParams_names (p : Parameters) : Arity.ofParams p.names = p.arity := by
  obtain ⟨required, _ | rest, hunmarked⟩ := p
  · simp [Arity.ofParams, names, tail, arity, hunmarked]
  · simp [Arity.ofParams, names, tail, arity, List.idxOf_append, hunmarked]

theorem accepts_arity_iff (p : Parameters) (count : Nat) :
    p.arity.accepts count = true ↔ p.Admits count := by
  obtain ⟨required, _ | rest, hunmarked⟩ := p
  · exact beq_iff_eq
  · exact decide_eq_true_iff

instance (p : Parameters) (count : Nat) : Decidable (p.Admits count) :=
  decidable_of_iff _ (p.accepts_arity_iff count)

theorem Admits.le {count : Nat} (h : p.Admits count) : p.required.length ≤ count := by
  obtain ⟨required, _ | rest, hunmarked⟩ := p
  · exact Nat.le_of_eq (Eq.symm h)
  · exact h

/-! ## Binding arguments -/

/-- Each parameter before the marker is paired with its argument, and what comes after them with the
further arguments. -/
theorem pairUp_append {required : List String} (hunmarked : restMarker ∉ required)
    (hle : required.length ≤ args.length) (tail : List String) :
    Arena.pairUp (required ++ tail) args =
      required.zip args ++ Arena.pairUp tail (args.drop required.length) := by
  induction required generalizing args with
  | nil => rfl
  | cons q required ih =>
    obtain ⟨hq, hunmarked⟩ := not_or.1 (mt List.mem_cons.2 hunmarked)
    obtain ⟨w, args, rfl⟩ := List.exists_cons_of_length_pos (Nat.lt_of_lt_of_le (by simp) hle)
    rw [List.cons_append, Arena.pairUp, if_neg (Ne.symm hq), List.tail_cons,
      ih hunmarked (Nat.le_of_succ_le_succ hle)]
    rfl

/-- The value that a name was bound to last is in the last pair with that name. -/
theorem latest_eq_some_iff {pairs : List (String × Value)} :
    latest n pairs = some v ↔
      ∃ before behind, pairs = before ++ (n, v) :: behind ∧ n ∉ behind.map Prod.fst := by
  rw [latest, List.lookup_eq_some_iff]
  constructor
  · rintro ⟨behind, before, hsplit, hbehind⟩
    refine ⟨before.reverse, behind.reverse, ?_, fun hmem => ?_⟩
    · rw [← List.reverse_reverse pairs, hsplit]
      simp
    · obtain ⟨q, hq, rfl⟩ := List.mem_map.1 hmem
      simpa using hbehind q (List.mem_reverse.1 hq)
  · rintro ⟨before, behind, rfl, hbehind⟩
    refine ⟨behind.reverse, before.reverse, by simp, fun q hq => bne_iff_ne.2 ?_⟩
    rintro rfl
    exact hbehind (List.mem_map_of_mem (List.mem_reverse.1 hq))

/-- Names that are paired with values are bound to the value in the last place where they stand. -/
theorem latest_zip_iff {required : List String} (hle : required.length ≤ args.length) :
    latest n (required.zip args) = some v ↔
      ∃ before behind, required = before ++ n :: behind ∧ n ∉ behind ∧
        args[before.length]? = some v := by
  rw [latest_eq_some_iff]
  constructor
  · rintro ⟨before, behind, hsplit, hbehind⟩
    have hnames := congrArg (List.map Prod.fst) hsplit
    rw [List.map_fst_zip hle, List.map_append, List.map_cons] at hnames
    have hat : (required.zip args)[before.length]? = some (n, v) := by
      rw [hsplit, List.getElem?_append_right (Nat.le_refl _), Nat.sub_self]
      rfl
    refine ⟨_, _, hnames, hbehind, ?_⟩
    rw [List.length_map]
    exact (List.getElem?_zip_eq_some.1 hat).2
  · rintro ⟨before, behind, rfl, hbehind, hat⟩
    obtain ⟨hlt, rfl⟩ := List.getElem?_eq_some_iff.1 hat
    refine ⟨before.zip (args.take before.length), behind.zip (args.drop (before.length + 1)), ?_,
      fun hmem => ?_⟩
    · conv_lhs => rw [← List.take_append_drop before.length args, List.drop_eq_getElem_cons hlt]
      rw [List.zip_append (by simp; omega)]
      rfl
    · obtain ⟨q, hq, rfl⟩ := List.mem_map.1 hmem
      exact hbehind (List.of_mem_zip hq).1

/-- What a name was bound to behind everything else counts. -/
theorem latest_concat (n m : String) (w : Value) (pairs : List (String × Value)) :
    latest n (pairs ++ [(m, w)]) = if n = m then some w else latest n pairs := by
  rw [latest, List.reverse_append, List.reverse_singleton, List.singleton_append, List.lookup_cons]
  by_cases hn : n = m
  · simp [hn]
  · simp [hn, beq_false_of_ne hn, latest]

/-- A call binds each name as its parameters say, and no other name. -/
theorem lookup_bindAll_iff (hcount : p.Admits args.length) :
    (Arena.bindAll [] (Arena.pairUp p.names args)).lookup n = some v ↔ p.Binds args n v := by
  have hle := hcount.le
  rw [Arena.lookup_bindAll, names, pairUp_append p.unmarked hle, List.lookup_nil, Option.or_none]
  obtain ⟨required, _ | rest, hunmarked⟩ := p
  · show latest n (required.zip args ++ []) = some v ↔ _
    rw [List.append_nil, latest_zip_iff hle]
    constructor
    · rintro ⟨before, behind, hsplit, hbehind, hat⟩
      exact .required nofun hsplit hbehind hat
    · rintro (hrest | ⟨-, hsplit, hbehind, hat⟩)
      · cases hrest
      · exact ⟨_, _, hsplit, hbehind, hat⟩
  · show latest n (required.zip args ++ [(rest, .list (args.drop required.length))]) = some v ↔ _
    rw [latest_concat]
    by_cases hn : n = rest
    · -- The name behind the marker may be that of a parameter, too.
      subst hn
      rw [if_pos rfl]
      constructor
      · intro h
        cases h
        exact .rest rfl
      · rintro (hrest | ⟨hrest, -⟩)
        · rfl
        · exact absurd rfl hrest
    · rw [if_neg hn, latest_zip_iff hle]
      constructor
      · rintro ⟨before, behind, hsplit, hbehind, hat⟩
        exact .required (fun hrest => hn (Option.some.inj hrest).symm) hsplit hbehind hat
      · rintro (hrest | ⟨-, hsplit, hbehind, hat⟩)
        · exact absurd (Option.some.inj hrest).symm hn
        · exact ⟨_, _, hsplit, hbehind, hat⟩

end Parameters

namespace Eval

variable {α β : Type} {s s' : Session}

/-- Where two actions succeed one after the other, each of them does. -/
theorem bind_eq_ok {x : Eval α} {g : α → Eval β} {b : β} (h : (x >>= g) s = (.ok b, s')) :
    ∃ a s₁, x s = (.ok a, s₁) ∧ g a s₁ = (.ok b, s') := by
  rw [bind_apply] at h
  generalize x s = result at h
  obtain ⟨e | a, s₁⟩ := result
  · cases h
  · exact ⟨a, s₁, rfl, h⟩

/-- A function has parameters that can be taken apart, and remembers the scope in which it was
made. -/
theorem parameters_of_stepSpecial {ev : Evaluator} {operands : List Form} {span : Span}
    {home captured : Scope} {params : List String} {body : Form}
    (h : stepSpecial ev .function operands span home s =
      (.ok (.done (.lambda params body captured)), s')) :
    captured = home ∧ ∃ p : Parameters, p.names = params := by
  match operands, h with
  | [target, code], h =>
    obtain ⟨fs, s₁, -, h⟩ := bind_eq_ok h
    obtain ⟨names, s₂, -, h⟩ := bind_eq_ok h
    split at h
    next hmarker =>
      cases h
      exact ⟨rfl, Parameters.markerInPlace_iff.1 hmarker⟩
    next => cases h

/-- **A call binds exactly the parameters.** A function has some parameters before the marker and
perhaps one name behind it. A call is refused when its arguments are not as many as there are to be:
then it says how many were expected and found, and makes no frame. Any other call makes a single
frame, within the scope in which the function was made, and goes on there with the body. The name
behind the marker is bound to the list of all further arguments, every other parameter to the
argument in the last place where it stands, and nothing else is bound. The places of the session are
in order, as those of every session are. -/
theorem applyLambda_binds {ev caller : Evaluator} {operands : List Form} {made : Span}
    {home captured : Scope} {t t' : Session} {params : List String} {body : Form}
    (hfunction : stepSpecial ev .function operands made home t =
      (.ok (.done (.lambda params body captured)), t'))
    {args : List Form} {scope : Scope} {vs : List Value}
    (hargs : holding (.lambda params body captured) (evalAll caller scope args) s = (.ok vs, s'))
    (hw : s'.arena.WellFormed) (name : String) (span : Span) :
    (∃ p : Parameters, p.names = params) ∧ ∀ p : Parameters, p.names = params →
      (¬p.Admits vs.length →
        applyLambda caller name params body captured args span scope s =
          (.error (.error (.arity name p.arity vs.length span)), s')) ∧
      (p.Admits vs.length → ∃ frame bindings arena,
        applyLambda caller name params body captured args span scope s =
          (.ok (.tail frame body), { s' with arena }) ∧
        s'.arena.frame? frame = none ∧
        (∀ h, arena.frame? h =
          if h = frame then some ⟨some home, bindings⟩ else s'.arena.frame? h) ∧
        ∀ n v, bindings.lookup n = some v ↔ p.Binds vs n v) := by
  obtain ⟨rfl, hnames⟩ := parameters_of_stepSpecial hfunction
  refine ⟨hnames, ?_⟩
  rintro p rfl
  have hcall : applyLambda caller name p.names body captured args span scope s =
      (if p.arity.accepts vs.length then do
          let frame ← newFrame captured p.names vs
          return .tail frame body
        else fail (.arity name p.arity vs.length span) : Eval Step) s' := by
    rw [applyLambda, bind_apply, hargs, p.ofParams_names]
  constructor
  · intro hno
    rw [hcall, if_neg (mt (p.accepts_arity_iff _).1 hno)]
    rfl
  · intro hcount
    rw [hcall, if_pos ((p.accepts_arity_iff _).2 hcount)]
    exact ⟨_, _, _, rfl, hw.frame?_new (some captured), hw.frame?_bind captured p.names vs,
      fun n v => Parameters.lookup_bindAll_iff hcount⟩

/-- The function `(fn* (a b a & c) a)` is called with five arguments, of which the third one is
bound to `a` and the last two to `c`. -/
theorem applyLambda_binds_repeated :
    ∃ frame bindings arena,
      applyLambda (eval Session.isCrowded 1) "f" ["a", "b", "a", "&", "c"]
          (.symbol default "a") (Session.empty {}).global
          [.literal default .int "1", .literal default .int "2", .literal default .int "3",
            .literal default .int "4", .literal default .int "5"]
          default (Session.empty {}).global (Session.empty {}) =
        (.ok (.tail frame (.symbol default "a")), { Session.empty {} with arena }) ∧
      arena.frame? frame = some ⟨some (Session.empty {}).global, bindings⟩ ∧
      bindings.lookup "a" = some (.int 3) ∧ bindings.lookup "b" = some (.int 2) ∧
      bindings.lookup "c" = some (.list [.int 4, .int 5]) := by
  have hfunction : stepSpecial (eval Session.isCrowded 1) .function
      [.list default none [.symbol default "a", .symbol default "b", .symbol default "a",
        .symbol default "&", .symbol default "c"], .symbol default "a"]
      default (Session.empty {}).global (Session.empty {}) =
        (.ok (.done (.lambda ["a", "b", "a", "&", "c"] (.symbol default "a")
          (Session.empty {}).global)), Session.empty {}) := rfl
  have hargs : holding (.lambda ["a", "b", "a", "&", "c"] (.symbol default "a")
        (Session.empty {}).global)
      (evalAll (eval Session.isCrowded 1) (Session.empty {}).global
        [.literal default .int "1", .literal default .int "2", .literal default .int "3",
          .literal default .int "4", .literal default .int "5"]) (Session.empty {}) =
        (.ok [.int 1, .int 2, .int 3, .int 4, .int 5], Session.empty {}) := rfl
  have hw : (Session.empty {}).arena.WellFormed := Arena.wellFormed_empty.create none
  obtain ⟨frame, bindings, arena, hcall, -, hframe, hbinds⟩ :=
    ((applyLambda_binds hfunction hargs hw "f" default).2
      ⟨["a", "b", "a"], some "c", by decide⟩ rfl).2 (by decide)
  have hlast : ["a", "b", "a"] = ["a", "b"] ++ "a" :: [] := rfl
  have hmiddle : ["a", "b", "a"] = ["a"] ++ "b" :: ["a"] := rfl
  refine ⟨frame, bindings, arena, hcall, by rw [hframe, if_pos rfl], ?_, ?_, ?_⟩
  · exact (hbinds _ _).2 (.required (by decide) hlast (by decide) rfl)
  · exact (hbinds _ _).2 (.required (by decide) hmiddle (by decide) rfl)
  · exact (hbinds _ _).2 (.rest rfl)

end Eval

end Lisp
