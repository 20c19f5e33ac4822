import Lisp.Form.Reader

/-!
# What each step of reading does

A step gives an outcome and the tokens that it leaves. The lemmas here say for each step what both
of them are, so that nothing later has to look into a step again.

- `Reading.result`: the outcome of a step and the tokens left.
- `Reading.andThen`: a step that goes on with what another has read, or fails with it.
- `Form.result_read`, `result_readSequence_cons`, `result_readOperand_cons`, `readAll_cons_ok`: the
  steps in these terms.
-/

namespace Lisp

namespace Reading

variable {α β : Type} {tokens earlier : List Token}

/-- What a step comes to. -/
abbrev Result (α : Type) := Except ReadError α × List Token

/-- The outcome of a step and the tokens that it leaves. -/
def result (r : Reading α tokens) : Result α := (r.outcome, r.rest)

/-- Goes on with what was read, or fails with it. -/
def andThen (x : Result α) (g : α → List Token → Result β) : Result β :=
  match x with
  | (.ok a, rest) => g a rest
  | (.error e, rest) => (.error e, rest)

@[simp] theorem andThen_ok (a : α) (rest : List Token) (g : α → List Token → Result β) :
    andThen (.ok a, rest) g = g a rest := rfl

@[simp] theorem andThen_error (e : ReadError) (rest : List Token)
    (g : α → List Token → Result β) : andThen (.error e, rest) g = (.error e, rest) := rfl

theorem andThen_eq_ok {x : Result α} {g : α → List Token → Result β} {b : β} {rest : List Token}
    (h : andThen x g = (.ok b, rest)) :
    ∃ a rest', x = (.ok a, rest') ∧ g a rest' = (.ok b, rest) := by
  obtain ⟨outcome, rest'⟩ := x
  cases outcome with
  | ok a => exact ⟨a, rest', rfl, h⟩
  | error e => cases h

@[simp] theorem result_stay (outcome : Except ReadError α) :
    (stay outcome : Reading α tokens).result = (outcome, tokens) := rfl

@[simp] theorem result_weaken (h : tokens.length ≤ earlier.length) (r : Reading α tokens) :
    (r.weaken h).result = r.result := rfl

@[simp] theorem result_map (f : α → β) (r : Reading α tokens) :
    (r.map f).result = andThen r.result fun a rest => (.ok (f a), rest) := by
  obtain ⟨outcome, rest, h⟩ := r
  cases outcome with
  | ok a => rfl
  | error e => rfl

end Reading

namespace Form

open Reading

variable {r : Nat} {t u opener : Token} {ts us : List Token} {bracket : Bracket} {mark : Shorthand}

theorem result_read_illegal (h : t.kind = .illegal) :
    (read r t ts).result = (.error (.illegalToken t.text t.span), ts) := by
  simp only [read, h, result_stay]

theorem result_read_comment (h : t.kind = .comment) :
    (read r t ts).result = (.ok (.comment (.ofSpan r t.span) t.text), ts) := by
  simp only [read, h, result_stay]

theorem result_read_symbol (h : t.kind = .symbol) :
    (read r t ts).result = (.ok (.symbol (.ofSpan r t.span) t.text), ts) := by
  simp only [read, h, result_stay]

theorem result_read_literal {kind : Literal} (h : t.kind = .literal kind) :
    (read r t ts).result = (ofLiteral r kind t, ts) := by
  simp only [read, h, result_stay]

theorem result_read_closing (h : t.kind = .closing bracket) :
    (read r t ts).result = (.error (.unexpectedToken t.kind t.span), ts) := by
  simp only [read, h, result_stay]

theorem result_read_eof (h : t.kind = .eof) :
    (read r t ts).result = (.error (.unexpectedToken t.kind t.span), ts) := by
  simp only [read, h, result_stay]

theorem result_read_opening (h : t.kind = .opening bracket) :
    (read r t ts).result = andThen (readSequence r t bracket ts).result fun p rest =>
      (.ok (ofBracket (.ofSpan r ⟨t.span.start, p.2⟩) p.1 bracket), rest) := by
  simp only [read, h, result_map]

theorem result_read_shorthand (h : t.kind = .shorthand mark) (hmark : mark ≠ .withMeta) :
    (read r t ts).result = andThen (readOperand r t mark ts).result fun operand rest =>
      (.ok (ofShorthand r t mark [operand]), rest) := by
  rw [read]
  simp only [h]
  rw [result_map]

theorem result_read_withMeta (h : t.kind = .shorthand .withMeta) :
    (read r t ts).result =
      andThen (readOperand r t .withMeta ts).result fun annotation rest =>
        andThen (readOperand r t .withMeta rest).result fun target rest =>
          (.ok (ofShorthand r t .withMeta [target, annotation]), rest) := by
  simp only [read, h]
  cases readOperand r t .withMeta ts with
  | mk outcome rest hle =>
    cases outcome with
    | error e => rfl
    | ok annotation =>
      show result (Reading.weaken hle _) = _
      rw [result_weaken, result_map]
      rfl

theorem result_readSequence_nil (r : Nat) (opener : Token) (bracket : Bracket) :
    (readSequence r opener bracket []).result =
      (.error (.unexpectedEnd opener.span bracket), []) := by
  rw [readSequence, result_stay]

theorem result_readSequence_cons (r : Nat) (opener : Token) (bracket : Bracket) (t : Token)
    (ts : List Token) :
    (readSequence r opener bracket (t :: ts)).result =
      if t.kind = .closing bracket then (.ok ([], t.span.stop), ts)
      else andThen (read r t ts).result fun f rest =>
        andThen (readSequence r opener bracket rest).result fun p rest =>
          (.ok (f :: p.1, p.2), rest) := by
  rw [readSequence]
  split
  · rfl
  · cases read r t ts with
    | mk outcome rest h =>
      cases outcome with
      | error e => rfl
      | ok f =>
        show result (Reading.weaken _ _) = _
        rw [result_weaken, result_map]
        rfl

theorem result_readOperand_nil (r : Nat) (t : Token) (mark : Shorthand) :
    (readOperand r t mark []).result = (.error (.missingOperand mark t.span), []) := by
  rw [readOperand, result_stay]

theorem result_readOperand_cons (r : Nat) (t : Token) (mark : Shorthand) (u : Token)
    (us : List Token) :
    (readOperand r t mark (u :: us)).result =
      if u.kind = .comment then (readOperand r t mark us).result else (read r u us).result := by
  rw [readOperand]
  split
  · rw [result_weaken]
  · rw [result_weaken]

/-- Induction along the steps of reading. Where a step goes on with what another one left, this is
known to be shorter only if that one succeeded. -/
theorem reading_induction (r : Nat) {P : Token → List Token → Prop}
    {Q : Token → Shorthand → List Token → Prop} {S : Token → Bracket → List Token → Prop}
    (illegal : ∀ (t : Token) (ts : List Token), t.kind = .illegal → P t ts)
    (comment : ∀ (t : Token) (ts : List Token), t.kind = .comment → P t ts)
    (symbol : ∀ (t : Token) (ts : List Token), t.kind = .symbol → P t ts)
    (literal : ∀ (t : Token) (ts : List Token) (kind : Literal), t.kind = .literal kind → P t ts)
    (closing : ∀ (t : Token) (ts : List Token) (bracket : Bracket), t.kind = .closing bracket →
      P t ts)
    (eof : ∀ (t : Token) (ts : List Token), t.kind = .eof → P t ts)
    (opening : ∀ (t : Token) (ts : List Token) (bracket : Bracket), t.kind = .opening bracket →
      S t bracket ts → P t ts)
    (shorthand : ∀ (t : Token) (ts : List Token) (mark : Shorthand), t.kind = .shorthand mark →
      mark ≠ .withMeta → Q t mark ts → P t ts)
    (withMeta : ∀ (t : Token) (ts : List Token), t.kind = .shorthand .withMeta →
      Q t .withMeta ts →
      (∀ (f : Form) (rest : List Token), (readOperand r t .withMeta ts).result = (.ok f, rest) →
        Q t .withMeta rest) → P t ts)
    (operandEnd : ∀ (t : Token) (mark : Shorthand), Q t mark [])
    (operandComment : ∀ (t : Token) (mark : Shorthand) (u : Token) (us : List Token),
      u.kind = .comment → Q t mark us → Q t mark (u :: us))
    (operandForm : ∀ (t : Token) (mark : Shorthand) (u : Token) (us : List Token),
      u.kind ≠ .comment → P u us → Q t mark (u :: us))
    (sequenceEnd : ∀ (opener : Token) (bracket : Bracket), S opener bracket [])
    (sequenceClose : ∀ (opener : Token) (bracket : Bracket) (t : Token) (ts : List Token),
      t.kind = .closing bracket → S opener bracket (t :: ts))
    (sequenceForm : ∀ (opener : Token) (bracket : Bracket) (t : Token) (ts : List Token),
      t.kind ≠ .closing bracket → P t ts →
      (∀ (f : Form) (rest : List Token), (read r t ts).result = (.ok f, rest) →
        S opener bracket rest) → S opener bracket (t :: ts)) :
    (∀ t ts, P t ts) ∧ (∀ t mark ts, Q t mark ts) ∧ ∀ opener bracket ts, S opener bracket ts := by
  refine read.mutual_induct r P Q S illegal comment symbol literal closing eof opening ?_ ?_
    (fun t ts mark hmark hk => shorthand t ts mark hk hmark) operandEnd operandComment operandForm
    sequenceEnd sequenceClose ?_ ?_
  · intro t ts hk e rest hle heq ih
    refine withMeta t ts hk ih fun f rest' h => ?_
    rw [heq] at h
    cases h
  · intro t ts hk annotation rest hle heq ih ihTarget
    refine withMeta t ts hk ih fun f rest' h => ?_
    rw [heq] at h
    cases h
    exact ihTarget
  · intro opener bracket t ts hk e rest hle heq ih
    refine sequenceForm opener bracket t ts hk ih fun f rest' h => ?_
    rw [heq] at h
    cases h
  · intro opener bracket t ts hk f rest hle heq ih ihRest
    refine sequenceForm opener bracket t ts hk ih fun f rest' h => ?_
    rw [heq] at h
    cases h
    exact ihRest

theorem readAll_cons_ok {f : Form} {rest : List Token}
    (h : (read r t ts).result = (.ok f, rest)) :
    readAll r (t :: ts) = (readAll r rest).map (f :: ·) := by
  rw [readAll]
  revert h
  cases read r t ts with
  | mk outcome rest hle =>
    intro h
    cases h
    rfl

theorem readAll_cons_error {e : ReadError} {rest : List Token}
    (h : (read r t ts).result = (.error e, rest)) : readAll r (t :: ts) = .error e := by
  rw [readAll]
  revert h
  cases read r t ts with
  | mk outcome rest hle =>
    intro h
    cases h
    rfl

/-- Induction along the top-level forms of some tokens. -/
@[elab_as_elim]
theorem readAll_induction (r : Nat) {P : List Token → Prop} (nil : P [])
    (cons : ∀ (t : Token) (ts : List Token),
      (∀ (f : Form) (rest : List Token), (read r t ts).result = (.ok f, rest) → P rest) →
      P (t :: ts))
    (ts : List Token) : P ts := by
  refine readAll.induct r P nil ?_ ?_ ts
  · intro t ts e rest hle heq
    refine cons t ts fun f rest' h => ?_
    rw [heq] at h
    cases h
  · intro t ts f rest hle heq ih
    refine cons t ts fun f rest' h => ?_
    rw [heq] at h
    cases h
    exact ih

end Form

end Lisp
