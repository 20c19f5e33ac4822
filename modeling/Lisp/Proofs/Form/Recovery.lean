import Lisp.Form.Parser
import Lisp.Proofs.Form.Grammar
import Lisp.Proofs.Token.Tiling

/-!
# Reading goes on behind faults

- `Lookahead.left`: the tokens of a text that are not taken yet. A token that was looked at and not
  taken is one of them.
- `Parser.Follows`: a step on a scanner does what a step of reading does on the tokens left. Each
  step of `Parser` follows the one of `Form` that it is named for (`Parser.follows_steps`).
- `Form.Uses`: every step of reading takes the first of its tokens and leaves the others, whatever
  its outcome is. `Form.exists_used`: a call takes at least one.
- `Parser.form_repeated`: call after call takes segment after segment of the tokens of a text.
-/

namespace Lisp

/-! ## Tokens left -/

/-- Behind the end mark there are no tokens. -/
theorem Scanner.tokens_next_of_eof {s : Scanner} (h : s.next.1.kind = .eof) :
    s.next.2.tokens = [] := by
  have hnil : s.tokens = [] := by rw [tokens, dif_pos h]
  rw [next_of_tokens_eq_nil hnil]
  exact tokens_nil _

namespace Lookahead

/-- The tokens that are not taken yet. -/
def left (l : Lookahead) : List Token :=
  match l.peeked with
  | none => l.scanner.tokens
  | some t => if t.kind = .eof then [] else t :: l.scanner.tokens

/-- The tokens that are to be taken are these. Nothing comes behind the end of the text. -/
structure Holds (l : Lookahead) (ts : List Token) : Prop where
  left : l.left = ts
  ended : ∀ t, l.peeked = some t → t.kind = .eof → l.scanner.tokens = []

variable {l : Lookahead} {t : Token} {ts : List Token}

theorem holds_none {s : Scanner} (h : s.tokens = ts) : Holds ⟨s, none⟩ ts :=
  ⟨h, fun _ hpeeked => by cases hpeeked⟩

theorem holds_ofString (source : String) : (ofString source).Holds (tokenize source) :=
  holds_none rfl

/-- At the end of a text there is the end mark, which does not change anything. -/
theorem Holds.next_nil (h : l.Holds []) : l.next.1.kind = .eof ∧ l.next.2.Holds [] := by
  obtain ⟨scanner, _ | t⟩ := l
  · have hnext := Scanner.next_of_tokens_eq_nil (h.left : scanner.tokens = [])
    have hk : scanner.next.1.kind = .eof := by rw [hnext]; rfl
    exact ⟨hk, holds_none (Scanner.tokens_next_of_eof hk)⟩
  · by_cases hk : t.kind = .eof
    · exact ⟨hk, holds_none (h.ended t rfl hk)⟩
    · have hleft : (if t.kind = .eof then [] else t :: scanner.tokens) = [] := h.left
      rw [if_neg hk] at hleft
      cases hleft

/-- Taking a token leaves the others. -/
theorem Holds.next_cons (h : l.Holds (t :: ts)) :
    l.next.1 = t ∧ t.kind ≠ .eof ∧ l.next.2.Holds ts := by
  obtain ⟨scanner, _ | u⟩ := l
  · have htokens : scanner.tokens = t :: ts := h.left
    rw [Scanner.tokens] at htokens
    split at htokens
    next => cases htokens
    next hk =>
      obtain ⟨rfl, hrest⟩ := List.cons.inj htokens
      exact ⟨rfl, hk, holds_none hrest⟩
  · have hleft : (if u.kind = .eof then [] else u :: scanner.tokens) = t :: ts := h.left
    split at hleft
    next => cases hleft
    next hk =>
      obtain ⟨rfl, hrest⟩ := List.cons.inj hleft
      exact ⟨rfl, hk, holds_none hrest⟩

/-- Looking at a token leaves it there. -/
theorem Holds.peek (h : l.Holds ts) : l.peek.1 = l.next.1 ∧ l.peek.2.Holds ts := by
  obtain ⟨scanner, _ | u⟩ := l
  · refine ⟨rfl, ?_, fun t ht hk => ?_⟩
    · have htokens : scanner.tokens = ts := h.left
      rw [Scanner.tokens] at htokens
      exact htokens
    · obtain rfl := Option.some.inj ht
      exact Scanner.tokens_next_of_eof hk
  · exact ⟨rfl, h⟩

end Lookahead

/-! ## Steps that follow a step of reading -/

/-- A form that was read is a comment if its first token is one. -/
theorem Form.isComment_of_result_read {r : Nat} {t : Token} {ts rest : List Token} {f : Form}
    (h : (read r t ts).result = (.ok f, rest)) : f.isComment = true ↔ t.kind = .comment := by
  cases hk : t.kind with
  | illegal => simp [result_read_illegal hk] at h
  | closing b => simp [result_read_closing hk] at h
  | eof => simp [result_read_eof hk] at h
  | comment =>
    rw [result_read_comment hk] at h
    cases h
    simp [isComment]
  | symbol =>
    rw [result_read_symbol hk] at h
    cases h
    simp [isComment]
  | literal kind =>
    rw [result_read_literal hk] at h
    obtain ⟨rfl, -⟩ := ofLiteral_eq_ok (Prod.mk.inj h).1
    simp [isComment]
  | opening b =>
    rw [result_read_opening hk] at h
    obtain ⟨p, rest', -, heq⟩ := Reading.andThen_eq_ok h
    cases heq
    cases b <;> simp [ofBracket, isComment]
  | shorthand mark =>
    by_cases hmark : mark = .withMeta
    · subst hmark
      rw [result_read_withMeta hk] at h
      obtain ⟨note, rest', -, h⟩ := Reading.andThen_eq_ok h
      obtain ⟨target, rest'', -, heq⟩ := Reading.andThen_eq_ok h
      cases heq
      simp [ofShorthand, isComment]
    · rw [result_read_shorthand hk hmark] at h
      obtain ⟨operand, rest', -, heq⟩ := Reading.andThen_eq_ok h
      cases heq
      simp [ofShorthand, isComment]

namespace Parser

open Reading

variable {α β : Type} {r : Nat} {l l' rest : Lookahead} {t : Token} {ts : List Token}
  {e : ReadError} {a : α} {p : Parsed α l} {x : Result α}

/-- The result of a step that read something. -/
def found (x : Result α) : Result (Option α) := andThen x fun a rest => (.ok (some a), rest)

/-- A step has the outcome of a step of reading, and leaves the tokens that it leaves. -/
structure Follows (p : Parsed α l) (x : Result (Option α)) : Prop where
  outcome : p.outcome = x.1
  rest : p.rest.Holds x.2

theorem follows_fault (h : rest.Holds ts) : Follows (.fault e rest : Parsed α l) (.error e, ts) :=
  ⟨rfl, h⟩

theorem follows_done (h : rest.Holds ts) (less : rest.size < l.size) :
    Follows (.done a rest less : Parsed α l) (.ok (some a), ts) := ⟨rfl, h⟩

theorem Follows.weaken {p : Parsed α l'} {x : Result (Option α)} (h : Follows p x)
    (hle : l'.size ≤ l.size) : Follows (p.weaken hle) x := by
  cases p <;> exact ⟨h.outcome, h.rest⟩

theorem Follows.orFault_ok (h : Follows p (.ok (some a), ts)) :
    Follows (p.orFault e) (.ok (some a), ts) := by
  cases p with
  | ended rest => cases h.outcome
  | _ => exact ⟨h.outcome, h.rest⟩

/-- A form is looked for, and there is one or a fault. -/
theorem Follows.orFault (h : Follows p (found x)) : Follows (p.orFault e) (found x) := by
  obtain ⟨e' | a, ts⟩ := x
  · cases p with
    | ended rest => cases h.outcome
    | _ => exact ⟨h.outcome, h.rest⟩
  · exact h.orFault_ok

theorem Follows.orFault_ended (h : Follows p (.ok none, ts)) :
    Follows (p.orFault e) (.error e, ts) := by
  cases p with
  | ended rest => exact ⟨rfl, h.rest⟩
  | fault e' rest => cases h.outcome
  | done a rest less => cases h.outcome

theorem Follows.andThen_error {g : α → (rest : Lookahead) → rest.size < l.size → Parsed β l}
    (h : Follows p (.error e, ts)) : Follows (p.andThen g) (.error e, ts) := by
  cases p with
  | fault e' rest =>
    cases h.outcome
    exact ⟨rfl, h.rest⟩
  | ended rest => cases h.outcome
  | done a rest less => cases h.outcome

theorem Follows.andThen_ok {g : α → (rest : Lookahead) → rest.size < l.size → Parsed β l}
    {y : Result (Option β)} (h : Follows p (.ok (some a), ts))
    (hg : ∀ rest less, rest.Holds ts → Follows (g a rest less) y) : Follows (p.andThen g) y := by
  cases p with
  | fault e rest => cases h.outcome
  | ended rest => cases h.outcome
  | done a' rest less =>
    obtain rfl := Option.some.inj (Except.ok.inj h.outcome)
    exact hg rest less h.rest

/-- One step after another. -/
theorem Follows.andThen {g : α → (rest : Lookahead) → rest.size < l.size → Parsed β l}
    {k : α → List Token → Result β} (h : Follows p (found x))
    (hg : ∀ a ts rest less, x = (.ok a, ts) → rest.Holds ts →
      Follows (g a rest less) (found (k a ts))) :
    Follows (p.andThen g) (found (andThen x k)) := by
  obtain ⟨e | a, ts⟩ := x
  · exact h.andThen_error
  · exact h.andThen_ok fun rest less hrest => hg a ts rest less rfl hrest

/-- A step whose result is only worked on. -/
theorem Follows.map {g : α → β} (h : Follows p (found x)) :
    Follows (p.map g) (found (Reading.andThen x fun a rest => (.ok (g a), rest))) :=
  h.andThen fun _ _ _ less _ hrest => follows_done hrest less

/-- At the end of a text there is no form. -/
theorem follows_form_nil (r : Nat) (h : l.Holds []) : Follows (form r l) (.ok none, []) := by
  obtain ⟨hk, hrest⟩ := h.next_nil
  rw [form, dif_pos hk]
  exact ⟨rfl, hrest⟩

/-- A comment is read as it is. -/
theorem follows_form_comment (r : Nat) (hk : t.kind = .comment) (h : l.Holds (t :: ts)) :
    Follows (form r l) (.ok (some (.comment (.ofSpan r t.span) t.text)), ts) := by
  obtain ⟨rfl, hend, hrest⟩ := h.next_cons
  rw [form, dif_neg hend]
  simp only [hk]
  exact follows_done hrest _

/-- Each step follows the step of reading on the tokens left. Where a step goes on behind another
one, the scanner is the one that the other step left. -/
theorem follows_steps (r : Nat) :
    (∀ t ts l, l.Holds (t :: ts) → Follows (form r l) (found (Form.read r t ts).result)) ∧
    (∀ t mark ts l, l.Holds ts →
      Follows (operand r t mark l) (found (Form.readOperand r t mark ts).result)) ∧
    ∀ opener b ts l, l.Holds ts →
      Follows (sequence r opener b l) (found (Form.readSequence r opener b ts).result) := by
  apply Form.reading_induction r
  case illegal =>
    intro t ts hk l h
    obtain ⟨rfl, hend, hrest⟩ := h.next_cons
    rw [Form.result_read_illegal hk, form, dif_neg hend]
    simp only [hk]
    exact follows_fault hrest
  case comment =>
    intro t ts hk l h
    rw [Form.result_read_comment hk]
    exact follows_form_comment r hk h
  case symbol =>
    intro t ts hk l h
    obtain ⟨rfl, hend, hrest⟩ := h.next_cons
    rw [Form.result_read_symbol hk, form, dif_neg hend]
    simp only [hk]
    exact follows_done hrest _
  case literal =>
    intro t ts kind hk l h
    obtain ⟨rfl, hend, hrest⟩ := h.next_cons
    rw [Form.result_read_literal hk, form, dif_neg hend]
    simp only [hk]
    cases Form.ofLiteral r kind l.next.1 with
    | ok f => exact follows_done hrest _
    | error e => exact follows_fault hrest
  case closing =>
    intro t ts b hk l h
    obtain ⟨rfl, hend, hrest⟩ := h.next_cons
    rw [Form.result_read_closing hk, form, dif_neg hend]
    simp only [hk]
    exact follows_fault hrest
  case eof =>
    intro t ts hk l h
    exact absurd hk h.next_cons.2.1
  case opening =>
    intro t ts b hk ih l h
    obtain ⟨rfl, hend, hrest⟩ := h.next_cons
    rw [Form.result_read_opening hk, form, dif_neg hend]
    simp only [hk]
    exact (ih _ hrest).map.weaken _
  case shorthand =>
    intro t ts mark hk hmark ih l h
    obtain ⟨rfl, hend, hrest⟩ := h.next_cons
    rw [Form.result_read_shorthand hk hmark, form, dif_neg hend]
    simp only [hk]
    refine Follows.weaken ?_ _
    rw [shorthand, if_neg hmark]
    exact (ih _ hrest).map
  case withMeta =>
    intro t ts hk ihNote ihTarget l h
    obtain ⟨rfl, hend, hrest⟩ := h.next_cons
    rw [Form.result_read_withMeta hk, form, dif_neg hend]
    simp only [hk]
    refine Follows.weaken ?_ _
    rw [shorthand, if_pos rfl]
    exact (ihNote _ hrest).andThen fun note ts' rest less heq h' =>
      (ihTarget note ts' heq rest h').map.weaken _
  case operandEnd =>
    intro t mark l h
    rw [Form.result_readOperand_nil, operand]
    exact (follows_form_nil r h).orFault_ended.andThen_error
  case operandComment =>
    intro t mark u us hk ih l h
    rw [Form.result_readOperand_cons, if_pos hk, operand]
    refine Follows.andThen_ok (follows_form_comment r hk h).orFault_ok fun rest less h' => ?_
    exact (ih rest h').weaken (Nat.le_of_lt less)
  case operandForm =>
    intro t mark u us hk ih l h
    rw [Form.result_readOperand_cons, if_neg hk, operand]
    have hform := ih l h
    generalize hread : (Form.read r u us).result = x at hform
    obtain ⟨e | f, ts⟩ := x
    · exact hform.orFault.andThen_error
    · refine hform.orFault.andThen_ok fun rest less h' => ?_
      -- The scanner's step looks at the form, and the other one at the first token of it.
      have hcomment : ¬f.isComment = true := by
        rw [Form.isComment_of_result_read hread]
        exact hk
      rw [if_neg hcomment]
      exact follows_done h' less
  case sequenceEnd =>
    intro opener b l h
    rw [Form.result_readSequence_nil, sequence]
    obtain ⟨heq, hrest⟩ := h.peek
    have hk := h.next_nil.1
    rw [← heq] at hk
    rw [dif_neg (by simp [hk]), if_pos hk]
    exact follows_fault hrest
  case sequenceClose =>
    intro opener b t ts hk l h
    rw [Form.result_readSequence_cons, if_pos hk, sequence]
    obtain ⟨heq, hrest⟩ := h.peek
    rw [h.next_cons.1] at heq
    obtain ⟨hcloser, -, hrest⟩ := hrest.next_cons
    rw [dif_pos (by rw [heq, hk])]
    refine ⟨?_, hrest⟩
    rw [Parsed.outcome, hcloser]
    rfl
  case sequenceForm =>
    intro opener b t ts hk ihFirst ihRest l h
    rw [Form.result_readSequence_cons, if_neg hk, sequence]
    obtain ⟨heq, hrest⟩ := h.peek
    obtain ⟨hfirst, hend, -⟩ := h.next_cons
    rw [hfirst] at heq
    rw [dif_neg (by rwa [heq]), if_neg (by rwa [heq])]
    refine Follows.weaken ?_ _
    exact (ihFirst _ hrest).orFault.andThen fun f ts' rest less heq h' =>
      (ihRest f ts' heq rest h').map.weaken _

/-- A call reads the next top-level form of the tokens left. -/
theorem follows_form (r : Nat) (h : l.Holds ts) : Follows (form r l) (Form.next r ts).result := by
  cases ts with
  | nil =>
    rw [Form.next]
    exact follows_form_nil r h
  | cons t ts =>
    rw [Form.next, result_weaken, result_map]
    exact (follows_steps r).1 t ts l h

end Parser

/-! ## Tokens that are used -/

namespace Form

open Reading

variable {r : Nat} {α β : Type} {t : Token} {ts : List Token} {x : Result α}

/-- A step takes the first of its tokens and leaves the others. -/
def Uses (ts : List Token) (x : Result α) : Prop := ∃ used, ts = used ++ x.2

theorem uses_all (outcome : Except ReadError α) : Uses ts (outcome, ts) := ⟨[], rfl⟩

theorem Uses.cons (h : Uses ts x) (t : Token) : Uses (t :: ts) x := by
  obtain ⟨used, hused⟩ := h
  exact ⟨t :: used, congrArg (t :: ·) hused⟩

theorem Uses.andThen {g : α → List Token → Result β} (hx : Uses ts x)
    (hg : ∀ a rest, x = (.ok a, rest) → Uses rest (g a rest)) : Uses ts (andThen x g) := by
  obtain ⟨used, hused⟩ := hx
  obtain ⟨e | a, rest⟩ := x
  · exact ⟨used, hused⟩
  · obtain ⟨used', hused'⟩ := hg a rest rfl
    refine ⟨used ++ used', ?_⟩
    rw [hused, List.append_assoc]
    exact congrArg (used ++ ·) hused'

/-- At each step, also where it finds a fault, the first tokens are taken and the others are
left. -/
theorem uses_steps (r : Nat) :
    (∀ t ts, Uses ts (read r t ts).result) ∧
    (∀ t mark ts, Uses ts (readOperand r t mark ts).result) ∧
    ∀ opener b ts, Uses ts (readSequence r opener b ts).result := by
  apply reading_induction r
  case illegal =>
    intro t ts hk
    rw [result_read_illegal hk]
    exact uses_all _
  case comment =>
    intro t ts hk
    rw [result_read_comment hk]
    exact uses_all _
  case symbol =>
    intro t ts hk
    rw [result_read_symbol hk]
    exact uses_all _
  case literal =>
    intro t ts kind hk
    rw [result_read_literal hk]
    exact uses_all _
  case closing =>
    intro t ts b hk
    rw [result_read_closing hk]
    exact uses_all _
  case eof =>
    intro t ts hk
    rw [result_read_eof hk]
    exact uses_all _
  case opening =>
    intro t ts b hk ih
    rw [result_read_opening hk]
    exact ih.andThen fun p rest _ => uses_all _
  case shorthand =>
    intro t ts mark hk hmark ih
    rw [result_read_shorthand hk hmark]
    exact ih.andThen fun f rest _ => uses_all _
  case withMeta =>
    intro t ts hk ihNote ihTarget
    rw [result_read_withMeta hk]
    exact ihNote.andThen fun note rest heq =>
      (ihTarget note rest heq).andThen fun target rest _ => uses_all _
  case operandEnd =>
    intro t mark
    rw [result_readOperand_nil]
    exact uses_all _
  case operandComment =>
    intro t mark u us hk ih
    rw [result_readOperand_cons, if_pos hk]
    exact ih.cons u
  case operandForm =>
    intro t mark u us hk ih
    rw [result_readOperand_cons, if_neg hk]
    exact ih.cons u
  case sequenceEnd =>
    intro opener b
    rw [result_readSequence_nil]
    exact uses_all _
  case sequenceClose =>
    intro opener b t ts hk
    rw [result_readSequence_cons, if_pos hk]
    exact (uses_all _).cons t
  case sequenceForm =>
    intro opener b t ts hk ihFirst ihRest
    rw [result_readSequence_cons, if_neg hk]
    exact (ihFirst.andThen fun f rest heq =>
      (ihRest f rest heq).andThen fun p rest _ => uses_all _).cons t

/-- What a call comes to that takes some tokens and leaves the rest. It gives the form that is
derived from what it takes, or it finds a fault, and then no form is derived from what begins
there. -/
def Accounts (r : Nat) (used : List Token) (x : Result (Option Form)) : Prop :=
  (∃ f, x.1 = .ok (some f) ∧ ∀ g, Derives r used g ↔ g = f) ∨
    ∃ e, x.1 = .error e ∧ ∀ us f, us <+: used ++ x.2 → ¬Derives r us f

/-- A form that is derived from the first of some tokens is read from them. -/
theorem Derives.result_read {us rest : List Token} {f : Form} (hd : Derives r us f)
    (hreg : Token.Regular (t :: ts)) (hts : us ++ rest = t :: ts) :
    (read r t ts).result = (.ok f, rest) := by
  obtain ⟨u, us, rfl⟩ := List.exists_cons_of_ne_nil hd.ne_nil
  obtain ⟨rfl, rfl⟩ := List.cons.inj hts
  have hused := hreg.sublist (.cons_cons u (List.sublist_append_left us rest))
  exact hd.reads hused u us rfl rest

/-- A call that finds a token takes it, and maybe others behind it. -/
theorem exists_used (r : Nat) (hreg : Token.Regular (t :: ts)) :
    ∃ used, t :: ts = t :: used ++ (next r (t :: ts)).rest ∧
      Accounts r (t :: used) (next r (t :: ts)).result := by
  obtain ⟨used, hused⟩ := (uses_steps r).1 t ts
  have hresult : (next r (t :: ts)).result =
      andThen (read r t ts).result fun f rest => (.ok (some f), rest) := by
    rw [next, result_weaken, result_map]
  have hrest : (next r (t :: ts)).rest = (read r t ts).rest := by
    rw [next]
    rfl
  rw [hresult, hrest]
  refine ⟨used, congrArg (t :: ·) hused, ?_⟩
  generalize hread : (read r t ts).result = x at hused
  obtain ⟨e | f, rest⟩ := x
  · -- A form that is derived from the first of the tokens would have been read.
    refine .inr ⟨e, rfl, fun us f hus hd => ?_⟩
    obtain ⟨more, hmore⟩ := hus
    have hok := hd.result_read hreg (hmore.trans (congrArg (t :: ·) hused).symm)
    rw [hread] at hok
    cases hok
  · refine .inl ⟨f, rfl, fun g => ⟨fun hd => ?_, ?_⟩⟩
    · have hok := hd.result_read hreg (congrArg (t :: ·) hused).symm
      rw [hread] at hok
      cases hok
      rfl
    · rintro rfl
      obtain ⟨used', hused', hd⟩ := (sound r).1 t ts g rest hread hreg
      obtain rfl := List.append_cancel_right (hused.symm.trans hused')
      exact hd

theorem length_le_length_flatten {segments : List (List Token)} (h : ∀ s ∈ segments, s ≠ []) :
    segments.length ≤ segments.flatten.length := by
  induction segments with
  | nil => exact Nat.le_refl _
  | cons s segments ih =>
    obtain ⟨hs, hothers⟩ := List.forall_mem_cons.1 h
    have hpos := List.length_pos_iff.2 hs
    have hle := ih hothers
    rw [List.length_cons, List.flatten_cons, List.length_append]
    omega

/-- What some calls leave, one after the other. -/
def leaves (r : Nat) (ts : List Token) (n : Nat) : List Token := (fun us => (next r us).rest)^[n] ts

theorem exists_segments (r : Nat) (hreg : Token.Regular ts) :
    ∃ segments : List (List Token), (∀ s ∈ segments, s ≠ []) ∧
      ∀ n, leaves r ts n = (segments.drop n).flatten ∧
        ∀ hn : n < segments.length, Accounts r segments[n] (next r (leaves r ts n)).result := by
  -- The induction is on the number of tokens left, for a call may take many of them.
  induction hlen : ts.length using Nat.strong_induction_on generalizing ts with
  | _ size ih =>
    cases ts with
    | nil =>
      refine ⟨[], by simp, fun n => ⟨?_, fun hn => absurd hn (Nat.not_lt_zero n)⟩⟩
      rw [leaves, Function.iterate_fixed]
      · simp
      · rw [next]
        rfl
    | cons t ts =>
      obtain ⟨used, hsplit, haccounts⟩ := exists_used r hreg
      have hsub : (next r (t :: ts)).rest.Sublist (t :: ts) := by
        conv => rhs; rw [hsplit]
        exact List.sublist_append_right _ _
      have hlength := congrArg List.length hsplit
      rw [hlen, List.length_append, List.length_cons] at hlength
      have hlt : (next r (t :: ts)).rest.length < size := by omega
      obtain ⟨segments, hne, hleaves⟩ := ih _ hlt (hreg.sublist hsub) rfl
      refine ⟨(t :: used) :: segments, List.forall_mem_cons.2 ⟨List.cons_ne_nil _ _, hne⟩,
        fun n => ?_⟩
      cases n with
      | zero =>
        refine ⟨?_, fun _ => haccounts⟩
        rw [List.drop_zero, List.flatten_cons, ← List.drop_zero (l := segments), ← (hleaves 0).1]
        exact hsplit
      | succ n =>
        obtain ⟨hleft, hrest⟩ := hleaves n
        exact ⟨hleft, fun hn => hrest (Nat.lt_of_succ_lt_succ hn)⟩

end Form

/-! ## Call after call -/

namespace Parser

/-- What some calls leave of a text. -/
def afterCalls (reading : Nat) (source : String) : Nat → Lookahead
  | 0 => .ofString source
  | n + 1 => (form reading (afterCalls reading source n)).rest

/-- Calls leave the tokens that the steps of reading leave. -/
theorem holds_afterCalls (reading : Nat) (source : String) (n : Nat) :
    (afterCalls reading source n).Holds (Form.leaves reading (tokenize source) n) := by
  induction n with
  | zero => exact Lookahead.holds_ofString source
  | succ n ih =>
    rw [Form.leaves, Function.iterate_succ_apply']
    exact (follows_form reading ih).rest

/-- **Reading goes on behind faults and loses no token.** The tokens of a text fall into segments,
none of them empty. Call after call, whatever the outcomes are, takes segment after segment. A call
with a segment to take gives the form that is derived from that segment, or finds a fault where no
form begins. There are no more segments than tokens, and every call behind them finds the end of the
text. -/
theorem form_repeated (source : String) (reading : Nat) :
    ∃ segments : List (List Token), segments.flatten = tokenize source ∧
      (∀ s ∈ segments, s ≠ []) ∧ segments.length ≤ (tokenize source).length ∧
      ∀ n, (afterCalls reading source n).left = (segments.drop n).flatten ∧
        (∀ hn : n < segments.length,
          Form.Accounts reading segments[n] ((form reading (afterCalls reading source n)).outcome,
            (afterCalls reading source (n + 1)).left)) ∧
        (segments.length ≤ n →
          (form reading (afterCalls reading source n)).outcome = .ok none) := by
  obtain ⟨segments, hne, hleaves⟩ := Form.exists_segments reading (tokenize_regular source)
  have hflatten : segments.flatten = tokenize source := (hleaves 0).1.symm
  refine ⟨segments, hflatten, hne, ?_, fun n => ?_⟩
  · rw [← hflatten]
    exact Form.length_le_length_flatten hne
  · have hholds := holds_afterCalls reading source n
    have hcall := follows_form reading hholds
    refine ⟨hholds.left.trans (hleaves n).1, fun hn => ?_, fun hn => ?_⟩
    · rw [hcall.outcome, afterCalls, hcall.rest.left]
      exact (hleaves n).2 hn
    · rw [hcall.outcome, (hleaves n).1, List.drop_eq_nil_of_le hn, List.flatten_nil, Form.next]
      rfl

end Parser

end Lisp
