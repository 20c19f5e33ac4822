import Lisp.Proofs.Form.Grammar

/-!
# Faults found by one scan with a stack

Reading by recursive descent finds the same faults as a scan of the tokens that only keeps a stack
of what it has begun and not finished.

- `Pending`: what is begun and not finished, which is a bracket that is open or a mark that waits
  for operands. `Pending.push` is what a token does to the stack.
- `Pending.Refuses`: the tokens that no stack, or not this stack, can take.
- `Pending.Scan`: a scan of some tokens, and the fault that it ends with, if any.
- `Form.scans_steps`: at each step, reading and scanning come to the same.
- `Program.parse_iff_scan`: so they do for whole texts.
-/

namespace Lisp

/-- The number of operands of a mark. -/
def Shorthand.operands : Shorthand → Nat
  | withMeta => 2
  | _ => 1

/-- What is begun and not finished. -/
inductive Pending where
  /-- A bracket that is open. -/
  | bracket (opener : Token) (bracket : Bracket)
  /-- A mark that waits for so many operands. -/
  | mark (token : Token) (mark : Shorthand) (missing : Nat)

namespace Pending

/-- The fault of a text that ends here. -/
def fault : Pending → ReadError
  | bracket opener b => .unexpectedEnd opener.span b
  | mark t m _ => .missingOperand m t.span

/-- The stack after a whole form. It may be the last operand of a mark, which makes up a form with
it. -/
def complete : List Pending → List Pending
  | mark t m (n + 2) :: stack => mark t m (n + 1) :: stack
  | mark _ _ _ :: stack => complete stack
  | stack => stack

/-- The stack after a token that was not refused. -/
def push (stack : List Pending) (t : Token) : List Pending :=
  match t.kind with
  | .opening b => bracket t b :: stack
  | .shorthand m => mark t m m.operands :: stack
  | .closing _ => complete stack.tail
  | .symbol | .literal _ => complete stack
  | .comment | .illegal | .eof => stack

/-- A token is refused: it is illegal, or closes a bracket that is not the last thing begun, or is
an integer that is out of range. -/
inductive Refuses (stack : List Pending) (t : Token) : ReadError → Prop
  | illegal : t.kind = .illegal → Refuses stack t (.illegalToken t.text t.span)
  | closing {b : Bracket} : t.kind = .closing b →
      (∀ opener rest, stack ≠ bracket opener b :: rest) →
      Refuses stack t (.unexpectedToken t.kind t.span)
  | integer : t.kind = .literal .int → ¬Token.InRange t.text →
      Refuses stack t (.invalidNumber t.text t.span)

/-- A scan of some tokens that begins with a stack, and the fault that it ends with: that of the
first token that is refused, or else that of what was begun last and not finished. -/
inductive Scan : List Pending → List Token → Option ReadError → Prop
  | finished : Scan [] [] none
  | pending (top : Pending) (stack : List Pending) : Scan (top :: stack) [] (some top.fault)
  | refused {stack : List Pending} {t : Token} {ts : List Token} {e : ReadError} :
      Refuses stack t e → Scan stack (t :: ts) (some e)
  | taken {stack : List Pending} {t : Token} {ts : List Token} {e : Option ReadError} :
      (∀ e, ¬Refuses stack t e) → Scan (push stack t) ts e → Scan stack (t :: ts) e

variable {stack : List Pending} {t : Token} {ts : List Token} {e e' : ReadError}
  {o : Option ReadError}

theorem Refuses.unique (h : Refuses stack t e) (h' : Refuses stack t e') : e = e' := by
  cases h with
  | illegal hk => cases h' <;> simp_all
  | closing hk _ => cases h' <;> simp_all
  | integer hk _ => cases h' <;> simp_all

/-- A scan has one end. -/
theorem Scan.unique {o' : Option ReadError} (h : Scan stack ts o) (h' : Scan stack ts o') :
    o = o' := by
  induction h with
  | finished =>
    cases h'
    rfl
  | pending =>
    cases h'
    rfl
  | refused hr =>
    cases h' with
    | refused hr' => rw [hr.unique hr']
    | taken hno _ => exact absurd hr (hno _)
  | taken hno _ ih =>
    cases h' with
    | refused hr => exact absurd hr (hno _)
    | taken _ hscan => exact ih hscan

/-- Only three kinds of tokens are ever refused. -/
theorem not_refuses (hillegal : t.kind ≠ .illegal) (hclosing : ∀ b, t.kind ≠ .closing b)
    (hint : t.kind = .literal .int → Token.InRange t.text) (e : ReadError) :
    ¬Refuses stack t e := by
  intro h
  cases h with
  | illegal hk => exact hillegal hk
  | closing hk _ => exact hclosing _ hk
  | integer hk hrange => exact hrange (hint hk)

/-- A token that closes the bracket begun last is taken. -/
theorem not_refuses_closer {opener : Token} {b : Bracket} (hk : t.kind = .closing b)
    (e : ReadError) : ¬Refuses (bracket opener b :: stack) t e := by
  intro h
  cases h with
  | illegal hk' => simp [hk] at hk'
  | closing hk' hopen =>
    rw [hk] at hk'
    cases hk'
    exact hopen _ _ rfl
  | integer hk' _ => simp [hk] at hk'

/-! ## Where the fault of a scan comes from -/

/-- No token is refused, if a scan of them begins with a stack. -/
def Accepts (stack : List Pending) (ts : List Token) : Prop :=
  ∀ before t after, ts = before ++ t :: after → ∀ e, ¬Refuses (before.foldl push stack) t e

theorem accepts_cons :
    Accepts stack (t :: ts) ↔ (∀ e, ¬Refuses stack t e) ∧ Accepts (push stack t) ts := by
  constructor
  · intro h
    refine ⟨h [] t ts rfl, fun before u after heq => ?_⟩
    exact h (t :: before) u after (by rw [heq]; rfl)
  · rintro ⟨hfirst, hrest⟩ before u after heq
    cases before with
    | nil =>
      cases heq
      exact hfirst
    | cons v before =>
      cases heq
      exact hrest before u after rfl

/-- The first token that is refused gives the fault. -/
theorem Scan.eq_of_refuses {before after : List Token} (h : Scan stack (before ++ t :: after) o)
    (hbefore : Accepts stack before) (ht : Refuses (before.foldl push stack) t e) :
    o = some e := by
  induction before generalizing stack with
  | nil =>
    cases h with
    | refused hr => rw [hr.unique ht]
    | taken hno _ => exact absurd ht (hno e)
  | cons u before ih =>
    obtain ⟨hu, hrest⟩ := accepts_cons.1 hbefore
    cases h with
    | refused hr => exact absurd hr (hu _)
    | taken _ hscan => exact ih hscan hrest ht

/-- If no token is refused, what is left on the stack gives the fault. -/
theorem Scan.eq_of_accepts (h : Scan stack ts o) (hts : Accepts stack ts) :
    o = (ts.foldl push stack).head?.map fault := by
  induction h with
  | finished => rfl
  | pending top stack => rfl
  | refused hr => exact absurd hr ((accepts_cons.1 hts).1 _)
  | taken _ _ ih => exact ih (accepts_cons.1 hts).2

/-- Either no token is refused, or there is a first one that is. -/
theorem Scan.accepts_or_refuses (h : Scan stack ts o) :
    Accepts stack ts ∨ ∃ before t after e, ts = before ++ t :: after ∧ Accepts stack before ∧
      Refuses (before.foldl push stack) t e := by
  have hnil : ∀ stack, Accepts stack [] := fun stack before t after heq => by simp at heq
  induction h with
  | finished => exact .inl (hnil _)
  | pending top stack => exact .inl (hnil _)
  | @refused stack t ts e hr => exact .inr ⟨[], t, ts, e, rfl, hnil _, hr⟩
  | @taken stack t ts o hno _ ih =>
    rcases ih with hall | ⟨before, u, after, e, rfl, hbefore, hu⟩
    · exact .inl (accepts_cons.2 ⟨hno, hall⟩)
    · exact .inr ⟨t :: before, u, after, e, rfl, accepts_cons.2 ⟨hno, hbefore⟩, hu⟩

/-- The fault that a scan ends with. -/
theorem scan_some_iff (h : Scan stack ts o) :
    o = some e ↔
      (∃ before t after, ts = before ++ t :: after ∧ Accepts stack before ∧
        Refuses (before.foldl push stack) t e) ∨
      (Accepts stack ts ∧ ∃ top rest, ts.foldl push stack = top :: rest ∧ e = top.fault) := by
  constructor
  · rintro rfl
    rcases h.accepts_or_refuses with hall | ⟨before, t, after, e', rfl, hbefore, ht⟩
    · obtain ⟨top, htop, hfault⟩ := Option.map_eq_some_iff.1 (h.eq_of_accepts hall).symm
      obtain ⟨rest, hstack⟩ := List.head?_eq_some_iff.1 htop
      exact .inr ⟨hall, top, rest, hstack, hfault.symm⟩
    · obtain rfl := Option.some.inj (h.eq_of_refuses hbefore ht)
      exact .inl ⟨before, t, after, rfl, hbefore, ht⟩
  · rintro (⟨before, t, after, rfl, hbefore, ht⟩ | ⟨hall, top, rest, hstack, rfl⟩)
    · exact h.eq_of_refuses hbefore ht
    · rw [h.eq_of_accepts hall, hstack]
      rfl

/-- When a scan ends without a fault. -/
theorem scan_none_iff (h : Scan stack ts o) :
    o = none ↔ Accepts stack ts ∧ ts.foldl push stack = [] := by
  constructor
  · rintro rfl
    rcases h.accepts_or_refuses with hall | ⟨before, t, after, e, rfl, hbefore, ht⟩
    · exact ⟨hall, List.head?_eq_none_iff.1 (Option.map_eq_none_iff.1 (h.eq_of_accepts hall).symm)⟩
    · cases h.eq_of_refuses hbefore ht
  · rintro ⟨hall, hstack⟩
    rw [h.eq_of_accepts hall, hstack]
    rfl

end Pending

/-! ## Reading and scanning -/

/-- A token as it stands in a text: not the mark of its end, and if it is one of numbers, it stands
for one. -/
structure Token.Proper (t : Token) : Prop where
  not_eof : t.kind ≠ .eof
  numerical : t.Numerical

theorem tokenize_proper (source : String) : ∀ t ∈ tokenize source, t.Proper := by
  intro t ht
  obtain ⟨c, cs, -, hk, -⟩ := Scanner.scanned_of_mem_tokens ht
  exact ⟨hk ▸ Lexeme.scan_kind_ne_eof c cs, (tokenize_regular source).numerical t ht⟩

namespace Reading

open Pending

variable {α β : Type} {stack : List Pending} {t : Token} {ts : List Token} {x : Result α}
  {after : α → List Pending}

/-- A step comes to what a scan of its tokens comes to: to the same fault, or it leaves the rest of
the tokens to a scan that goes on with another stack. -/
def Scans (stack : List Pending) (ts : List Token) (after : α → List Pending) :
    Result α → Prop
  | (.ok a, rest) => (∀ u ∈ rest, u.Proper) ∧ ∀ o, Scan (after a) rest o → Scan stack ts o
  | (.error e, _) => Scan stack ts (some e)

/-- A token before a step is taken if it is not refused. -/
theorem Scans.taken (h : Scans (push stack t) ts after x) (ht : ∀ e, ¬Refuses stack t e) :
    Scans stack (t :: ts) after x := by
  obtain ⟨e | a, rest⟩ := x
  · exact .taken ht h
  · exact ⟨h.1, fun o ho => .taken ht (h.2 o ho)⟩

/-- A step that gives a result and leaves the tokens after the one that it was given. -/
theorem scans_single {a : α} (hts : ∀ u ∈ ts, u.Proper) (ht : ∀ e, ¬Refuses stack t e)
    (hpush : push stack t = after a) : Scans stack (t :: ts) after (.ok a, ts) :=
  ⟨hts, fun _ ho => .taken ht (hpush ▸ ho)⟩

/-- One step after another. -/
theorem Scans.andThen {g : α → List Token → Result β} {after' : β → List Pending}
    (hx : Scans stack ts after x)
    (hg : ∀ a rest, x = (.ok a, rest) → (∀ u ∈ rest, u.Proper) →
      Scans (after a) rest after' (g a rest)) :
    Scans stack ts after' (Reading.andThen x g) := by
  obtain ⟨e | a, rest⟩ := x
  · exact hx
  · have hrest := hg a rest rfl hx.1
    show Scans stack ts after' (g a rest)
    generalize g a rest = y at hrest
    obtain ⟨e | b, rest'⟩ := y
    · exact hx.2 _ hrest
    · exact ⟨hrest.1, fun o ho => hx.2 o (hrest.2 o ho)⟩

/-- A step whose result is only worked on. -/
theorem Scans.last {h : α → β} {after' : β → List Pending} (hx : Scans stack ts after x)
    (hafter : ∀ a, after a = after' (h a)) :
    Scans stack ts after' (Reading.andThen x fun a rest => (.ok (h a), rest)) :=
  hx.andThen fun a _ _ hrest => ⟨hrest, fun _ ho => hafter a ▸ ho⟩

end Reading

namespace Form

open Reading Pending

/-- The stack after a form that begins with a token. A comment is no form that counts. -/
def stackAfter (stack : List Pending) (t : Token) : List Pending :=
  if t.kind = .comment then stack else complete stack

theorem scans_literal {r : Nat} {kind : Literal} {t : Token} {ts : List Token}
    (hk : t.kind = .literal kind) (hts : ∀ u ∈ t :: ts, u.Proper) (stack : List Pending) :
    Scans stack (t :: ts) (fun _ => stackAfter stack t) (ofLiteral r kind t, ts) := by
  have hadmits := (hts t List.mem_cons_self).numerical.admits_iff hk
  unfold ofLiteral
  split
  next hin =>
    refine scans_single (fun u hu => hts u (List.mem_cons_of_mem _ hu)) ?_ ?_
    · refine not_refuses (by simp [hk]) (by simp [hk]) fun hint => ?_
      rw [hk] at hint
      cases hint
      exact hadmits.1 hin rfl
    · simp [push, stackAfter, hk]
  next hout =>
    obtain ⟨rfl, hrange⟩ := Classical.not_imp.1 (mt hadmits.2 hout)
    exact .refused (.integer hk hrange)

/-- At each step, reading comes to what a scan comes to. A form is read where no bracket can be
closed, for a closing bracket is looked for before a form is. -/
theorem scans_steps (r : Nat) :
    (∀ t ts, (∀ u ∈ t :: ts, u.Proper) → ∀ stack,
      (∀ opener b rest, t.kind = .closing b → stack ≠ bracket opener b :: rest) →
      Scans stack (t :: ts) (fun _ => stackAfter stack t) (read r t ts).result) ∧
    (∀ t m ts, (∀ u ∈ ts, u.Proper) → ∀ n stack,
      Scans (mark t m n :: stack) ts (fun _ => complete (mark t m n :: stack))
        (readOperand r t m ts).result) ∧
    ∀ opener b ts, (∀ u ∈ ts, u.Proper) → ∀ stack,
      Scans (bracket opener b :: stack) ts (fun _ => complete stack)
        (readSequence r opener b ts).result := by
  apply reading_induction r
  case illegal =>
    intro t ts hk hts stack _
    rw [result_read_illegal hk]
    exact .refused (.illegal hk)
  case comment =>
    intro t ts hk hts stack _
    rw [result_read_comment hk]
    refine scans_single (fun u hu => hts u (List.mem_cons_of_mem _ hu)) ?_ ?_
    · exact not_refuses (by simp [hk]) (by simp [hk]) (by simp [hk])
    · simp [push, stackAfter, hk]
  case symbol =>
    intro t ts hk hts stack _
    rw [result_read_symbol hk]
    refine scans_single (fun u hu => hts u (List.mem_cons_of_mem _ hu)) ?_ ?_
    · exact not_refuses (by simp [hk]) (by simp [hk]) (by simp [hk])
    · simp [push, stackAfter, hk]
  case literal =>
    intro t ts kind hk hts stack _
    rw [result_read_literal hk]
    exact scans_literal hk hts stack
  case closing =>
    intro t ts b hk hts stack hstack
    rw [result_read_closing hk]
    exact .refused (.closing hk fun opener rest => hstack opener b rest hk)
  case eof =>
    intro t ts hk hts
    exact absurd hk (hts t List.mem_cons_self).not_eof
  case opening =>
    intro t ts b hk ih hts stack _
    rw [result_read_opening hk]
    have hseq := ih (fun u hu => hts u (List.mem_cons_of_mem _ hu)) stack
    have hpush : push stack t = bracket t b :: stack := by simp [push, hk]
    rw [← hpush] at hseq
    refine (hseq.taken ?_).last fun p => ?_
    · exact not_refuses (by simp [hk]) (by simp [hk]) (by simp [hk])
    · simp [stackAfter, hk]
  case shorthand =>
    intro t ts m hk hm ih hts stack _
    rw [result_read_shorthand hk hm]
    have hoperand := ih (fun u hu => hts u (List.mem_cons_of_mem _ hu)) 1 stack
    have hpush : push stack t = mark t m 1 :: stack := by
      cases m <;> simp_all [push, Shorthand.operands]
    rw [← hpush] at hoperand
    refine (hoperand.taken ?_).last fun f => ?_
    · exact not_refuses (by simp [hk]) (by simp [hk]) (by simp [hk])
    · simp [hpush, stackAfter, hk, complete]
  case withMeta =>
    intro t ts hk ihNote ihTarget hts stack _
    rw [result_read_withMeta hk]
    have hnote := ihNote (fun u hu => hts u (List.mem_cons_of_mem _ hu)) 2 stack
    have hpush : push stack t = mark t .withMeta 2 :: stack := by
      simp [push, hk, Shorthand.operands]
    rw [← hpush] at hnote
    refine (hnote.taken ?_).andThen fun note rest h hrest => ?_
    · exact not_refuses (by simp [hk]) (by simp [hk]) (by simp [hk])
    · -- The mark waits for one operand less.
      have htarget := ihTarget note rest h hrest 1 stack
      rw [hpush]
      exact htarget.last fun f => by simp [stackAfter, hk, complete]
  case operandEnd =>
    intro t m hts n stack
    rw [result_readOperand_nil]
    exact .pending _ _
  case operandComment =>
    intro t m u us hk ih hts n stack
    rw [result_readOperand_cons, if_pos hk]
    have hrest := ih (fun v hv => hts v (List.mem_cons_of_mem _ hv)) n stack
    have hpush : push (mark t m n :: stack) u = mark t m n :: stack := by simp [push, hk]
    refine Scans.taken (hpush.symm ▸ hrest) ?_
    exact not_refuses (by simp [hk]) (by simp [hk]) (by simp [hk])
  case operandForm =>
    intro t m u us hk ih hts n stack
    rw [result_readOperand_cons, if_neg hk]
    have hform := ih hts (mark t m n :: stack) nofun
    simpa only [stackAfter, if_neg hk] using hform
  case sequenceEnd =>
    intro opener b hts stack
    rw [result_readSequence_nil]
    exact .pending _ _
  case sequenceClose =>
    intro opener b t ts hk hts stack
    rw [result_readSequence_cons, if_pos hk]
    refine scans_single (fun u hu => hts u (List.mem_cons_of_mem _ hu)) ?_ ?_
    · exact not_refuses_closer hk
    · simp [push, hk]
  case sequenceForm =>
    intro opener b t ts hk ihFirst ihRest hts stack
    rw [result_readSequence_cons, if_neg hk]
    have hfirst := ihFirst hts (bracket opener b :: stack) (by
      rintro opener' b' rest hk' heq
      cases heq
      exact hk hk')
    -- Whether the element is a comment or not, the bracket is still what was begun last.
    have hstack : stackAfter (bracket opener b :: stack) t = bracket opener b :: stack := by
      simp [stackAfter, complete]
    rw [hstack] at hfirst
    exact hfirst.andThen fun f rest h hrest =>
      (ihRest f rest h hrest stack).last fun p => rfl

/-- Top-level forms are read as a scan goes that begins with nothing. -/
theorem scan_readAll (r : Nat) {ts : List Token} (hts : ∀ u ∈ ts, u.Proper) :
    Scan [] ts (match readAll r ts with | .ok _ => none | .error e => some e) := by
  induction ts using readAll_induction (r := r) with
  | nil =>
    rw [readAll]
    exact .finished
  | cons t ts ih =>
    have hstep := (scans_steps r).1 t ts hts [] (fun _ _ _ _ h => by cases h)
    have hstack : stackAfter [] t = [] := by simp [stackAfter, complete]
    rw [hstack] at hstep
    generalize hread : (read r t ts).result = x at hstep
    obtain ⟨e | f, rest⟩ := x
    · rw [readAll_cons_error hread]
      exact hstep
    · have hrest := hstep.2 _ (ih f rest hread hstep.1)
      rw [readAll_cons_ok hread]
      cases hall : readAll r rest with
      | ok fs =>
        rw [hall] at hrest
        exact hrest
      | error e =>
        rw [hall] at hrest
        exact hrest

end Form

namespace Program

open Pending

/-- **Faults are those of a scan with a stack.** A text has a fault exactly if some token is
refused, and then the first one that is, with the stack that the tokens before it leave, gives the
fault; or if no token is refused but something is begun and not finished, and then what was begun
last gives it. A text is a program exactly if neither is so. -/
theorem parse_iff_scan (source : String) (reading : Nat) :
    (∀ e, parse source reading = .error e ↔
      (∃ before t after, tokenize source = before ++ t :: after ∧ Accepts [] before ∧
        Refuses (before.foldl push []) t e) ∨
      (Accepts [] (tokenize source) ∧
        ∃ top rest, (tokenize source).foldl push [] = top :: rest ∧ e = top.fault)) ∧
    ((∃ p, parse source reading = .ok p) ↔
      Accepts [] (tokenize source) ∧ (tokenize source).foldl push [] = []) := by
  have hscan := Form.scan_readAll reading (tokenize_proper source)
  rw [parse]
  generalize tokenize source = ts at hscan
  constructor
  · intro e
    rw [← scan_some_iff hscan]
    cases Form.readAll reading ts with
    | ok fs => exact ⟨nofun, nofun⟩
    | error e' =>
      constructor
      · intro h
        cases h
        rfl
      · intro h
        cases h
        rfl
  · rw [← scan_none_iff hscan]
    cases Form.readAll reading ts with
    | ok fs => exact ⟨fun _ => rfl, fun _ => ⟨_, rfl⟩⟩
    | error e => exact ⟨nofun, nofun⟩

end Program

end Lisp
