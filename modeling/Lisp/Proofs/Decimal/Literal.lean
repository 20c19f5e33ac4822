import Lisp.Eval.Literal
import Lisp.Proofs.Form.Relocation

/-!
# The literals of a text have values

- `Literal.isSome_value?`: the literals that are read are those that have a value.
- `Program.isSome_value?`: so every literal of a program has a value.
- `Program.int_value?`: that of an integer is the integer that its text stands for.
-/

namespace Lisp

/-- A literal has a value exactly if its text can stand for one. -/
theorem Literal.isSome_value? (kind : Literal) (raw : String) :
    (kind.value? raw).isSome = kind.admits raw := by
  cases kind <;> simp [value?, admits]

namespace Program

variable {source : String} {reading : Nat} {p : Program} {f : Form} {site : Site} {kind : Literal}
  {raw : String}

/-- Every literal of a program has a value. -/
theorem isSome_value? (h : parse source reading = .ok p) (hf : f ∈ p.forms)
    (hg : (Form.literal site kind raw).PartOf f) : (kind.value? raw).isSome = true := by
  obtain ⟨us, hus, hsub⟩ := derives_of_part h hf hg
  cases hus with
  | literal hk hint =>
    have hscanned := Scanner.scanned_of_mem_tokens (hsub.subset List.mem_cons_self)
    rw [Literal.isSome_value?]
    exact (hscanned.numerical.admits_iff hk).2 hint

/-- An integer of a program has the value that its text stands for. -/
theorem int_value? (h : parse source reading = .ok p) (hf : f ∈ p.forms)
    (hg : (Form.literal site .int raw).PartOf f) :
    ∃ n : Int64, Numeral.Denotes raw.toList n.toInt ∧
      Literal.value? .int raw = some (.int n) := by
  obtain ⟨us, hus, -⟩ := derives_of_part h hf hg
  cases hus with
  | literal _ hint =>
    obtain ⟨n, hn, hfits⟩ := hint rfl
    have hword : Integer.ofInt? n = some (Int64.ofInt n) := if_pos hfits
    refine ⟨Int64.ofInt n, ?_, ?_⟩
    · rwa [Integer.toInt_of_ofInt? hword]
    · rw [Literal.value?, Numeral.int?_of_denotes hn, hword]
      rfl

end Program

end Lisp
