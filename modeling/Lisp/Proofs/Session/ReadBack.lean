import Lisp.Proofs.Scope.Reachable
import Lisp.Proofs.Value.Data
import Lisp.Session.Source

/-!
# Printed data are read back

- `Session.SameBindings`: a session in which everything that is bound is bound as in another one.
  Only frames that were not in use may be missing.
- `Session.sameBindings_passSafePoint`: safe points do not touch bindings.
- `Session.evalSource_prStr`: the readable text of data evaluates to these data, in every session,
  and changes no binding.
-/

namespace Lisp

namespace Session

/-- Everything that is bound in a later session was bound so before, and all scopes that were in
use have their frames as before, so that all names in them mean the same. -/
structure SameBindings (s s' : Session) : Prop where
  global : s'.global = s.global
  no_more : ∀ scope f, s'.arena.frame? scope = some f → s.arena.frame? scope = some f
  frame : ∀ scope, s.arena.Reachable s.roots scope →
    s'.arena.frame? scope = s.arena.frame? scope
  find : ∀ scope, s.arena.Reachable s.roots scope → ∀ name,
    s'.arena.find? scope name = s.arena.find? scope name

theorem sameBindings_passSafePoint (due : Session → Bool) (s : Session) :
    s.SameBindings (s.passSafePoint due) := by
  unfold passSafePoint
  cases due s with
  | true =>
    exact ⟨rfl, fun _ _ hf => Arena.frame?_of_collect hf, fun _ h => Arena.frame?_collect_eq h,
      fun _ h => Arena.find?_collect h⟩
  | false => exact ⟨rfl, fun _ _ hf => hf, fun _ _ => rfl, fun _ _ _ => rfl⟩

/-- The readable text of data evaluates to the data, and all that a session does on the way is to
count the reading and to pass a safe point. -/
theorem evalSourceWith_joined {vs : List Value} (hvs : ∀ v ∈ vs, v.IsData) (s : Session) :
    ∃ n, ∀ fuel, n ≤ fuel → ∀ due,
      s.evalSourceWith due fuel (Builtin.joined " " .readable vs) =
        (.ok vs, { s with readings := s.readings + 1 }.passSafePoint due) := by
  obtain ⟨fs, hfs⟩ := Value.exists_forall₂_writes fun v hv => (hvs v hv).exists_writes
  obtain ⟨p, hparse, hbare⟩ :=
    Program.parse_intercalate " " ' ' rfl (by decide) (Form.lexical_of_writes hfs) s.readings
  rw [Form.normals_of_writes hfs] at hbare
  obtain ⟨n, hn⟩ := Eval.evalProgram_constant (Form.constant_of_writes hfs hbare)
  refine ⟨n, fun fuel hfuel due => ?_⟩
  have htext : Builtin.joined " " .readable vs = " ".intercalate (Form.texts fs) := by
    rw [Builtin.joined, Value.texts_eq_map, Form.texts_of_writes hfs]
  rw [htext, evalSourceWith, read, hparse]
  show evalProgramWith _ _ _ _ = _
  rw [evalProgramWith, perform, hn fuel hfuel]

/-- **Printed data are read back.** The text that `pr-str` gives for data evaluates to these data,
in every session and whenever collections are due, and no binding changes. -/
theorem evalSource_prStr {vs : List Value} (hvs : ∀ v ∈ vs, v.IsData) (span : Span) (sink : Sink)
    (s : Session) (due : Session → Bool) :
    ∃ text, Builtin.prStr.call span vs sink = (.ok (.string text), sink) ∧
      ∃ s', s.SameBindings s' ∧
        ∃ n, ∀ fuel, n ≤ fuel → s.evalSourceWith due fuel text = (.ok vs, s') := by
  obtain ⟨n, hn⟩ := s.evalSourceWith_joined hvs
  have hsame := sameBindings_passSafePoint due { s with readings := s.readings + 1 }
  exact ⟨_, rfl, _, ⟨hsame.global, hsame.no_more, hsame.frame, hsame.find⟩, n,
    fun fuel hfuel => hn fuel hfuel due⟩

/-- Strings that end in a backslash and in a quote, the least integer, a map with keys of both kinds
in a vector, and the keyword without a name. -/
theorem evalSource_prStr_nested :
    let es : List (Key × Value) := [(.keyword "k", .vector []), (.string "k", .nil)]
    let vs : List Value := [.string "\\\"\\", .string "a\nb\"", .int (-9223372036854775808),
      .vector [.map (Entries.ofList es), .bool false], .keyword ""]
    (∀ v ∈ vs, v.IsData) ∧ ∃ s', (new {}).SameBindings s' ∧
      ∃ n, ∀ fuel, n ≤ fuel → (new {}).evalSourceWith isCrowded fuel
        ("\"\\\\\\\"\\\\\" \"a\\nb\\\"\" -9223372036854775808 " ++
          "[\x7b\"k\" nil :k []\x7d false] :") = (.ok vs, s') := by
  intro es vs
  have hmap : (Value.map (Entries.ofList es)).IsData := by
    refine .map ?_ ?_
    · exact List.forall_mem_cons.2 ⟨.keyword (List.all_eq_true.1 rfl),
        List.forall_mem_cons.2 ⟨.string _, List.forall_mem_nil _⟩⟩
    · exact List.forall_mem_cons.2 ⟨.vector (List.forall_mem_nil _),
        List.forall_mem_cons.2 ⟨.nil, List.forall_mem_nil _⟩⟩
  have hvector : (Value.vector [.map (Entries.ofList es), .bool false]).IsData :=
    .vector (List.forall_mem_cons.2
      ⟨hmap, List.forall_mem_cons.2 ⟨.bool false, List.forall_mem_nil _⟩⟩)
  have hvs : ∀ v ∈ vs, v.IsData := by
    intro v hv
    simp only [vs, List.mem_cons, List.not_mem_nil, or_false] at hv
    rcases hv with rfl | rfl | rfl | rfl | rfl
    · exact .string _
    · exact .string _
    · exact .int _
    · exact hvector
    · exact .keyword (List.all_eq_true.1 rfl)
  obtain ⟨text, htext, hread⟩ := evalSource_prStr hvs .origin {} (new {}) isCrowded
  have hwritten : Builtin.prStr.call .origin vs {} = (.ok (.string <|
      "\"\\\\\\\"\\\\\" \"a\\nb\\\"\" -9223372036854775808 " ++
        "[\x7b\"k\" nil :k []\x7d false] :"), {}) := by
    cbv
  rw [hwritten] at htext
  cases htext
  exact ⟨hvs, hread⟩

end Session

end Lisp
