import Lisp.Session.Source
import Lisp.Proofs.Eval.Fuel
import Lisp.Proofs.Eval.StepAgreement

/-!
# Whether and when a session collects does not show

- `Policy`: when a session collects. `Policy.onDemand` is what sessions do by themselves.
- `Session.Ends`: how the evaluation of a source text ends, if it does. There is at most one way
  (`Ends.unique`).
- `Session.Converses`: the replies of a session to source texts, one after the other.
  `Session.converse` computes them.
- `Session.Reply.Same`: replies that are the same up to the names of scopes, which no text shows.
- `collections_unobservable`: a new session gives the same replies under every policy.
-/

namespace Lisp

/-- When a session collects. The session counts the safe points that it has passed and the source
texts that it has read, so that a condition can tell any two moments of a run apart. -/
structure Policy where
  /-- Whether to collect at a safe point. -/
  atSafePoint : Session → Bool
  /-- Whether to collect before the next source text. -/
  beforeReading : Session → Bool

namespace Policy

/-- Collects at the safe points at which there are too many frames. -/
def onDemand : Policy := ⟨Session.isCrowded, fun _ => false⟩

/-- Collects whenever possible. -/
def always : Policy := ⟨fun _ => true, fun _ => true⟩

/-- Gets a session ready for the next source text. -/
def prepare (π : Policy) (s : Session) : Session :=
  if π.beforeReading s then s.collect.2 else s

theorem trimmed_prepare (π : Policy) (s : Session) : s.Trimmed (π.prepare s) := by
  unfold prepare
  split
  · exact s.trimmed_collect
  · exact ⟨.refl s, rfl, rfl, id, fun _ _ _ hf => hf, rfl⟩

end Policy

/-- The same values, up to the names of the scopes that functions were made in. Different scopes
keep different names. -/
def SameValues (vs ws : List Value) : Prop :=
  ∃ r : Scope → Scope, Set.InjOn r {c | c ∈ Value.capturedByAll vs} ∧
    ws = vs.map (Value.rename r)

/-- Renamed values have the same texts. -/
theorem SameValues.texts {vs ws : List Value} (h : SameValues vs ws) (style : Style) :
    ws.map (Value.text style) = vs.map (Value.text style) := by
  obtain ⟨r, -, rfl⟩ := h
  rw [List.map_map]
  exact List.map_congr_left fun v _ => Value.text_rename r style v

/-- The same outcome: the same values up to the names of scopes, or the same failure at the same
place. -/
inductive Outcome.Same : Outcome (List Value) → Outcome (List Value) → Prop
  | ok {vs ws : List Value} : SameValues vs ws → Same (.ok vs) (.ok ws)
  | failed (cause : Failure) : Same (.failed cause) (.failed cause)
  | outOfFuel : Same .outOfFuel .outOfFuel

namespace Session

/-- What a session replies to a source text. -/
structure Reply where
  outcome : Outcome (List Value)
  /-- The output, with everything that has been written to it so far. -/
  sink : Sink

/-- The texts of the values of a reply. -/
def Reply.texts (style : Style) (r : Reply) : List String :=
  match r.outcome with
  | .ok vs => vs.map (Value.text style)
  | _ => []

/-- The same reply, up to the names of scopes. -/
structure Reply.Same (a b : Reply) : Prop where
  outcome : a.outcome.Same b.outcome
  sink : b.sink = a.sink

theorem Reply.Same.texts {a b : Reply} (h : a.Same b) (style : Style) :
    b.texts style = a.texts style := by
  obtain ⟨outcome, sink⟩ := a
  obtain ⟨outcome', sink'⟩ := b
  unfold Reply.texts
  cases h.outcome with
  | ok hvs => exact hvs.texts style
  | failed cause => rfl
  | outOfFuel => rfl

theorem Reply.map_texts {replies replies' : List Reply}
    (h : List.Forall₂ Reply.Same replies replies') (style : Style) :
    replies'.map (Reply.texts style) = replies.map (Reply.texts style) := by
  induction h with
  | nil => rfl
  | cons hab _ ih => rw [List.map_cons, List.map_cons, hab.texts style, ih]

/-- The evaluation of a source text ends, with an outcome and a session. -/
def Ends (due : Session → Bool) (s : Session) (source : String) (outcome : Outcome (List Value))
    (s' : Session) : Prop :=
  ∃ fuel, s.evalSourceWith due fuel source = (outcome, s') ∧ outcome ≠ .outOfFuel

/-- The replies of a session to source texts, each of which it evaluates to the end. -/
inductive Converses (π : Policy) : Session → List String → List Reply → Prop
  | nil (s : Session) : Converses π s [] []
  | cons {s s' : Session} {source : String} {outcome : Outcome (List Value)}
      {sources : List String} {replies : List Reply} :
      Ends π.atSafePoint (π.prepare s) source outcome s' → Converses π s' sources replies →
      Converses π s (source :: sources) (⟨outcome, s'.sink⟩ :: replies)

/-! ## One way to end -/

/-- With more steps, the evaluation of a source text that ends, ends in the same way. -/
theorem evalSourceWith_of_le (due : Session → Bool) {n m : Nat} (hle : n ≤ m) {s s' : Session}
    {source : String} {outcome : Outcome (List Value)}
    (hends : s.evalSourceWith due n source = (outcome, s')) (hne : outcome ≠ .outOfFuel) :
    s.evalSourceWith due m source = (outcome, s') := by
  unfold evalSourceWith at hends ⊢
  generalize s.read source = reading at hends
  obtain ⟨result, s⟩ := reading
  cases result with
  | error e => exact hends
  | ok p =>
    simp only [evalProgramWith, perform] at hends ⊢
    rcases Eval.approximates_evalProgram due hle p s with hout | heq
    · generalize Eval.evalProgram due n p s = result at hends hout
      obtain ⟨r, s⟩ := result
      cases hout
      cases hends
      exact absurd rfl hne
    · rw [← heq]
      exact hends

theorem Ends.unique {due : Session → Bool} {s s₁ s₂ : Session} {source : String}
    {outcome₁ outcome₂ : Outcome (List Value)} (h₁ : Ends due s source outcome₁ s₁)
    (h₂ : Ends due s source outcome₂ s₂) : outcome₁ = outcome₂ ∧ s₁ = s₂ := by
  obtain ⟨n, hn, hne₁⟩ := h₁
  obtain ⟨m, hm, hne₂⟩ := h₂
  have hn' := evalSourceWith_of_le due (le_max_left n m) hn hne₁
  have hm' := evalSourceWith_of_le due (le_max_right n m) hm hne₂
  rw [hn'] at hm'
  exact Prod.mk.inj hm'

theorem Converses.unique {π : Policy} {s : Session} {sources : List String}
    {replies replies' : List Reply} (h : Converses π s sources replies)
    (h' : Converses π s sources replies') : replies = replies' := by
  induction h generalizing replies' with
  | nil s =>
    cases h'
    rfl
  | cons hends _ ih =>
    cases h' with
    | cons hends' hrest =>
      obtain ⟨rfl, rfl⟩ := hends.unique hends'
      rw [ih hrest]

/-- The replies of a session, when each source text takes no more than the given number of
steps. -/
def converse (π : Policy) (fuel : Nat) : Session → List String → Option (List Reply)
  | _, [] => some []
  | s, source :: sources =>
    match (π.prepare s).evalSourceWith π.atSafePoint fuel source with
    | (.outOfFuel, _) => none
    | (outcome, s') => (converse π fuel s' sources).map (⟨outcome, s'.sink⟩ :: ·)

theorem converse_cons_eq_some_iff {π : Policy} {fuel : Nat} {s : Session} {source : String}
    {sources : List String} {replies : List Reply} :
    converse π fuel s (source :: sources) = some replies ↔
      ∃ outcome s' rest,
        (π.prepare s).evalSourceWith π.atSafePoint fuel source = (outcome, s') ∧
        outcome ≠ .outOfFuel ∧ converse π fuel s' sources = some rest ∧
        replies = ⟨outcome, s'.sink⟩ :: rest := by
  rw [converse]
  constructor
  · intro h
    cases heval : (π.prepare s).evalSourceWith π.atSafePoint fuel source with
    | mk outcome s' =>
      rw [heval] at h
      cases outcome with
      | ok vs =>
        obtain ⟨rest, hrest, rfl⟩ := Option.map_eq_some_iff.1 h
        exact ⟨_, s', rest, rfl, nofun, hrest, rfl⟩
      | failed cause =>
        obtain ⟨rest, hrest, rfl⟩ := Option.map_eq_some_iff.1 h
        exact ⟨_, s', rest, rfl, nofun, hrest, rfl⟩
      | outOfFuel => cases h
  · rintro ⟨outcome, s', rest, heval, hne, hrest, rfl⟩
    rw [heval]
    cases outcome with
    | ok vs => exact Option.map_eq_some_iff.2 ⟨rest, hrest, rfl⟩
    | failed cause => exact Option.map_eq_some_iff.2 ⟨rest, hrest, rfl⟩
    | outOfFuel => exact absurd rfl hne

theorem converse_of_le {π : Policy} {n m : Nat} (hle : n ≤ m) {s : Session}
    {sources : List String} {replies : List Reply}
    (h : converse π n s sources = some replies) : converse π m s sources = some replies := by
  induction sources generalizing s replies with
  | nil => exact h
  | cons source sources ih =>
    obtain ⟨outcome, s', rest, heval, hne, hrest, rfl⟩ := converse_cons_eq_some_iff.1 h
    have heval' := evalSourceWith_of_le π.atSafePoint hle heval hne
    exact converse_cons_eq_some_iff.2 ⟨outcome, s', rest, heval', hne, ih hrest, rfl⟩

/-- The conversations of a session can be computed. -/
theorem converses_iff {π : Policy} {s : Session} {sources : List String} {replies : List Reply} :
    Converses π s sources replies ↔ ∃ fuel, converse π fuel s sources = some replies := by
  constructor
  · intro h
    induction h with
    | nil s => exact ⟨0, rfl⟩
    | cons hends _ ih =>
      -- The steps that are enough for the first text and those for the others need not be the same.
      obtain ⟨n, heval, hne⟩ := hends
      obtain ⟨m, hrest⟩ := ih
      have heval' := evalSourceWith_of_le π.atSafePoint (le_max_left n m) heval hne
      have hrest' := converse_of_le (le_max_right n m) hrest
      exact ⟨max n m, converse_cons_eq_some_iff.2 ⟨_, _, _, heval', hne, hrest', rfl⟩⟩
  · rintro ⟨fuel, h⟩
    induction sources generalizing s replies with
    | nil =>
      cases h
      exact .nil s
    | cons source sources ih =>
      obtain ⟨outcome, s', rest, heval, hne, hrest, rfl⟩ := converse_cons_eq_some_iff.1 h
      exact .cons ⟨fuel, heval, hne⟩ (ih hrest)

end Session

/-! ## Related sessions -/

namespace Renaming.Relates

variable {ρ : Renaming} {s t : Session}

/-- Related sessions evaluate a source text to the same outcome, whenever either of them
collects. -/
theorem evalSourceWith (hr : ρ.Relates s t) (due due' : Session → Bool) (fuel : Nat)
    (source : String) :
    (∃ ρ' : Renaming, ρ'.Relates (s.evalSourceWith due fuel source).2
      (t.evalSourceWith due' fuel source).2) ∧
    (s.evalSourceWith due fuel source).1.Same (t.evalSourceWith due' fuel source).1 := by
  have hread : ρ.Relates { s with readings := s.readings + 1 }
      { t with readings := t.readings + 1 } :=
    { hr with readings := congrArg (· + 1) hr.readings }
  simp only [Session.evalSourceWith, Session.read, hr.readings]
  cases Program.parse source s.readings with
  | error e => exact ⟨⟨ρ, hr.readings ▸ hread⟩, .failed _⟩
  | ok p =>
    simp only [Session.evalProgramWith, Session.perform]
    rw [hr.readings] at hread
    have hprogram := Eval.agrees_evalProgram due due' fuel p hread
    generalize Eval.evalProgram due fuel p { s with readings := s.readings + 1 } = x at hprogram
    generalize Eval.evalProgram due' fuel p { t with readings := s.readings + 1 } = y at hprogram
    obtain ⟨r, s'⟩ := x
    obtain ⟨r', t'⟩ := y
    obtain ⟨ρ', hr', -, -, hend⟩ := hprogram
    cases hend with
    | ok hvs => exact ⟨⟨ρ', hr'⟩, .ok ⟨ρ'.map, ρ'.injOn.mono hvs.2, hvs.1⟩⟩
    | stop e =>
      cases e with
      | error e => exact ⟨⟨ρ', hr'⟩, .failed _⟩
      | outOfFuel => exact ⟨⟨ρ', hr'⟩, .outOfFuel⟩

/-- Related sessions converse in the same way under any two policies. -/
theorem converses (hr : ρ.Relates s t) {π : Policy} (π' : Policy) {sources : List String}
    {replies : List Session.Reply} (h : Session.Converses π s sources replies) :
    ∃ replies', Session.Converses π' t sources replies' ∧
      List.Forall₂ Session.Reply.Same replies replies' := by
  induction h generalizing t ρ with
  | nil s => exact ⟨[], .nil t, .nil⟩
  | @cons s s' source outcome sources replies hends _ ih =>
    obtain ⟨fuel, heval, hne⟩ := hends
    -- Between two texts either session may collect.
    obtain ⟨ρ₁, hr₁⟩ := hr.trim (π.trimmed_prepare s) (π'.trimmed_prepare t)
    obtain ⟨⟨ρ₂, hr₂⟩, hsame⟩ := hr₁.evalSourceWith π.atSafePoint π'.atSafePoint fuel source
    rw [heval] at hr₂ hsame
    have hends' : Session.Ends π'.atSafePoint (π'.prepare t) source
        ((π'.prepare t).evalSourceWith π'.atSafePoint fuel source).1
        ((π'.prepare t).evalSourceWith π'.atSafePoint fuel source).2 := by
      refine ⟨fuel, rfl, fun hout => ?_⟩
      rw [hout] at hsame
      cases hsame
      exact hne rfl
    obtain ⟨replies', hconv, hrest⟩ := ih hr₂
    exact ⟨_, .cons hends' hconv, .cons ⟨hsame, hr₂.sink⟩ hrest⟩

end Renaming.Relates

/-! ## New sessions -/

namespace Session

/-- A session without definitions is related to itself. -/
theorem relates_empty (sink : Sink) : ∃ ρ : Renaming, ρ.Relates (empty sink) (empty sink) := by
  have hframe : (empty sink).arena.frame? (empty sink).global = some ⟨none, []⟩ := rfl
  refine ⟨⟨id, {(empty sink).global}, Function.injective_id.injOn⟩, ?_⟩
  exact {
    wellFormed_left := Arena.wellFormed_empty.create none
    wellFormed_right := Arena.wellFormed_empty.create none
    frame := by
      rintro h rfl
      exact ⟨_, hframe, by simp [Frame.links], hframe⟩
    depth := by
      rintro h rfl
      exact ⟨_, .outermost hframe rfl⟩
    roots := by
      intro h hh
      rcases Session.mem_roots.1 hh with rfl | hactive | ⟨v, hv, -⟩
      · rfl
      · cases hactive
      · cases hv
    global := rfl
    active := rfl
    held := rfl
    sink := rfl
    readings := rfl
    lost_left := rfl
    lost_right := rfl }

/-- Defining the built-in functions leaves a session related to itself. -/
theorem relates_defines {s : Session} (hs : ∃ ρ : Renaming, ρ.Relates s s) (bs : List Builtin) :
    ∃ ρ : Renaming, ρ.Relates (bs.foldl (fun s b => s.define b.name (.function b)) s)
      (bs.foldl (fun s b => s.define b.name (.function b)) s) := by
  induction bs generalizing s with
  | nil => exact hs
  | cons b bs ih =>
    obtain ⟨ρ, hr⟩ := hs
    have hglobal := hr.onScope (.inl ⟨rfl, rfl⟩)
    exact ih ⟨ρ, hr.assign hglobal (.of_captured_eq_nil rfl) b.name⟩

/-- A new session is related to itself. -/
theorem relates_new (sink : Sink) : ∃ ρ : Renaming, ρ.Relates (new sink) (new sink) := by
  obtain ⟨ρ, hr⟩ := relates_defines (relates_empty sink) Builtin.all
  exact (hr.evalSourceWith isCrowded isCrowded ampleFuel startupSource).1

/-- **Collections do not show.** When a new session evaluates some source texts to the end under
one policy, then under every other policy it evaluates them to the end too, and its replies are the
same: values that differ only in the names of scopes and have the same texts, the same failures at
the same places, and the same output. -/
theorem collections_unobservable {π : Policy} {sink : Sink} {sources : List String}
    {replies : List Reply} (h : Converses π (new sink) sources replies) (π' : Policy) :
    (∃ replies', Converses π' (new sink) sources replies') ∧
    ∀ replies', Converses π' (new sink) sources replies' →
      List.Forall₂ Reply.Same replies replies' ∧
      ∀ style, replies'.map (Reply.texts style) = replies.map (Reply.texts style) := by
  obtain ⟨ρ, hr⟩ := relates_new sink
  obtain ⟨replies₁, hconv, hsame⟩ := hr.converses π' h
  refine ⟨⟨replies₁, hconv⟩, fun replies' hconv' => ?_⟩
  obtain rfl := hconv.unique hconv'
  exact ⟨hsame, Reply.map_texts hsame⟩

/-- A function that remembers a scope, used by a later source text. -/
theorem collections_unobservable_remembered :
    ∃ replies, Converses .always (new {})
        ["(def! add (let* (x 7) (fn* (y) (+ x y))))", "(add 35)"] replies ∧
      replies.map (Reply.texts .plain) = [["#<function>"], ["42"]] := by
  have hdemand : (converse .onDemand 10 (new {})
      ["(def! add (let* (x 7) (fn* (y) (+ x y))))", "(add 35)"]).map
        (List.map (Reply.texts .plain)) = some [["#<function>"], ["42"]] := by decide +kernel
  obtain ⟨replies, hreplies, htexts⟩ := Option.map_eq_some_iff.1 hdemand
  obtain ⟨⟨replies', hconv⟩, hsame⟩ :=
    collections_unobservable (converses_iff.2 ⟨10, hreplies⟩) .always
  exact ⟨replies', hconv, ((hsame replies' hconv).2 .plain).trans htexts⟩

end Session

end Lisp
