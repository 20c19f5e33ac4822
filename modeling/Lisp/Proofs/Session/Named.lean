import Lisp.Proofs.Eval.Operations
import Lisp.Proofs.Form.Canonical
import Lisp.Proofs.Scope.Chain
import Lisp.Proofs.Session.Sites

/-!
# The names of a session are symbols

A name gets bound in the global scope only by a form that has it as a symbol, whatever is evaluated.

- `Form.Defines.stands`: what a form may define is a symbol of it.
- `Session.Named`: the names in the global scope are symbols wherever they stand in a text. Bindings
  of symbols keep it, and so do programs and collections.
- `named_of_reached`: so all sessions are named.
-/

namespace Lisp

/-! ## Names -/

namespace Form

theorem Lexical.of_mem_elements {f g : Form} (hf : f.Lexical) (hg : g ∈ f.elements) :
    g.Lexical := by
  cases hf with
  | comment _ _ => cases hg
  | symbol _ _ => cases hg
  | literal _ _ _ => cases hg
  | vector _ h => exact h g hg
  | map _ h => exact h g hg
  | list _ _ h => exact h g hg

/-- The name of a symbol is a token of its class. -/
theorem Lexical.stands_of_symbol? {f : Form} {name : String} (hf : f.Lexical)
    (h : f.symbol? = some name) : Lexeme.Stands .symbol name.toList := by
  cases hf with
  | symbol _ hstands =>
    cases h
    exact hstands
  | _ => cases h

/-- The names that a form may define are symbols. -/
theorem Defines.stands {f : Form} {name : String} (h : f.Defines name) (hf : f.Lexical) :
    Lexeme.Stands .symbol name.toList := by
  induction h with
  | here _ hname =>
    obtain ⟨g, hg, hsymbol⟩ := Option.bind_eq_some_iff.1 hname
    have hmem := mem_of_mem_significant (List.mem_of_getElem? hg)
    exact (hf.of_mem_elements hmem).stands_of_symbol? hsymbol
  | inside _ _ hg _ ih => exact ih (hf.of_mem_elements hg)

end Form

theorem Builtin.stands_name (b : Builtin) : Lexeme.Stands .symbol b.name.toList := by
  cases b <;> simp only [name, String.reduceToList] <;>
    exact Lexeme.stands_self rfl rfl nofun nofun

theorem SpecialForm.stands_name (form : SpecialForm) :
    Lexeme.Stands .symbol form.name.toList := by
  cases form <;> simp only [name, String.reduceToList] <;>
    exact Lexeme.stands_self rfl rfl nofun nofun

/-! ## Sessions -/

namespace Session

variable {s t : Session} {f : Frame} {sink : Sink}

/-- The names of the global scope, which is within no other, are symbols. -/
structure Named (s : Session) : Prop where
  wellFormed : s.arena.WellFormed
  frame : ∃ f, s.arena.frame? s.global = some f ∧ f.outer = none ∧
    ∀ name, (f.bindings.lookup name).isSome = true → Lexeme.Stands .symbol name.toList

/-- Nothing but its own frame is searched for a name in the global scope. -/
theorem lookup_eq (hf : s.arena.frame? s.global = some f) (ho : f.outer = none) (name : String) :
    s.lookup name = f.bindings.lookup name := by
  rw [lookup, Arena.find?_eq_findWithin (.outermost hf ho)]
  simp only [Arena.findWithin, hf, ho]
  cases f.bindings.lookup name <;> rfl

namespace Named

theorem stands (hs : s.Named) {name : String} (h : (s.lookup name).isSome = true) :
    Lexeme.Stands .symbol name.toList := by
  obtain ⟨f, hf, ho, hnames⟩ := hs.frame
  rw [lookup_eq hf ho] at h
  exact hnames name h

/-- What keeps the global frame, but for names that are symbols. -/
theorem of_kept (hs : s.Named) (names : String → Prop) (hst : s.Operates t)
    (hkept : ∀ f, s.arena.frame? s.global = some f → ∃ g, t.arena.frame? s.global = some g ∧
      f.Kept names g)
    (hnames : ∀ name, names name → Lexeme.Stands .symbol name.toList) : t.Named := by
  obtain ⟨f, hf, ho, hsymbols⟩ := hs.frame
  obtain ⟨g, hg, hfg⟩ := hkept f hf
  refine ⟨hst.wellFormed hs.wellFormed, g, by rw [hst.global, hg], hfg.outer.trans ho, ?_⟩
  intro name hname
  by_cases hn : names name
  · exact hnames name hn
  · rw [hfg.lookup name hn] at hname
    exact hsymbols name hname

theorem empty (sink : Sink) : (Session.empty sink).Named := by
  have hw : (Session.empty sink).arena.WellFormed := Arena.wellFormed_empty.create none
  refine ⟨hw, ⟨none, []⟩, ?_, rfl, fun name hname => by cases hname⟩
  exact (Arena.wellFormed_empty.frame?_create none _).trans (if_pos rfl)

theorem define (hs : s.Named) {name : String} (hname : Lexeme.Stands .symbol name.toList)
    (v : Value) : (s.define name v).Named := by
  refine hs.of_kept (· = name) (.define s name v) (fun f hf => ⟨f.set name v, ?_, .set f name v⟩) ?_
  · exact (Arena.frame?_set s.arena s.global name v s.global).trans (by rw [if_pos rfl, hf]; rfl)
  · rintro _ rfl
    exact hname

theorem collect (hs : s.Named) : s.collect.2.Named := by
  refine hs.of_kept (fun _ => False) (.collect s) (fun f hf => ⟨f, ?_, .refl f⟩) nofun
  exact Arena.frame?_collect (.root List.mem_cons_self) hf

/-- A source text binds only names that are symbols of it. -/
theorem evalSourceWith (hs : s.Named) (due : Session → Bool) (fuel : Nat) (source : String) :
    (s.evalSourceWith due fuel source).2.Named := by
  have hread : (s.read source).2.Named := ⟨hs.wellFormed, hs.frame⟩
  cases hp : Program.parse source s.readings with
  | error e =>
    rw [Session.evalSourceWith]
    rw [read, hp] at hread ⊢
    exact hread
  | ok p =>
    rw [evalSourceWith_eq due fuel hp, perform_snd]
    refine hread.of_kept p.Defines (Eval.steady_operates.evalProgram due fuel p _)
      (fun f hf => Eval.global_of_evalProgram due fuel p hread.wellFormed hf) ?_
    rintro name ⟨f, hf, hname⟩
    exact hname.stands (Program.lexical_of_parse hp f hf)

theorem new (sink : Sink) : (Session.new sink).Named := by
  have hdefines : ∀ (bs : List Builtin) (s : Session), s.Named →
      (bs.foldl (fun s b => s.define b.name (.function b)) s).Named := by
    intro bs
    induction bs with
    | nil => exact fun s hs => hs
    | cons b bs ih => exact fun s hs => ih _ (hs.define b.stands_name _)
  exact (hdefines Builtin.all _ (empty sink)).evalSourceWith _ _ _

end Named

/-- The global names of a session are symbols. -/
theorem named_of_reached (hs : Reached sink s) : s.Named := by
  induction hs with
  | new => exact .new sink
  | evalSource due fuel source _ ih => exact ih.evalSourceWith due fuel source
  | collect _ ih => exact ih.collect

end Session

end Lisp
