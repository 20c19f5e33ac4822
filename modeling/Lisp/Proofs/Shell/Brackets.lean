import Lisp.Proofs.Form.Pushdown
import Lisp.Proofs.Shell.Pieces
import Lisp.Proofs.Token.Sequence

/-!
# Red brackets and faults

The brackets that are shown in red while a line is typed are those that its reading stumbles over.

- `IsShown`: a piece of a line that is shown in some paint.
- `isShown_badCloser_iff`: the closing brackets in red are those that close nothing.
- `Pending.brackets`: the brackets among what is begun and not finished. As long as no token is
  refused, they are the brackets that highlighting keeps open (`Accepts.openAfter_eq`), and no
  closing bracket is red (`Accepts.strays_eq_nil`).
- `highlight_agrees_with_parse`: so a red closing bracket comes with a fault, and a closing bracket
  with a fault is red.
-/

namespace Lisp

/-! ## Red closing brackets -/

/-- A piece of a line is shown in a paint. It begins at an offset and has a text. -/
def IsShown (line : String) (cursor : Nat) (paint : Paint) (offset : Nat) (text : String) : Prop :=
  ∃ pieces before p behind, highlightPieces? line cursor = some pieces ∧
    pieces.toList = before ++ p :: behind ∧ paint ∈ p.paints ∧ p.text = text ∧
    (String.join (before.map Piece.text)).utf8ByteSize = offset

variable {line text : String} {cursor reading offset : Nat} {opened : List Token.Kind} {b : Bracket}
  {t : Token} {ts before after : List Token}

/-- Where a token begins. -/
theorem Part.Tiles.start_eq {done : List Char} {parts behind : List Part}
    (h : Tiles done (parts ++ .token t :: behind)) :
    (String.join (parts.map Part.text)).utf8ByteSize = t.span.start.offset := by
  -- Parts are added at the end, and so the list is taken apart from there.
  generalize hall : parts ++ .token t :: behind = all at h
  induction h generalizing behind with
  | nil => simp at hall
  | blanks skipped htiles ih =>
    rcases List.eq_nil_or_concat behind with rfl | ⟨behind, part, rfl⟩
    · obtain ⟨-, hlast⟩ := List.append_inj' hall rfl
      simp at hlast
    · rw [List.concat_eq_append, ← List.cons_append, ← List.append_assoc] at hall
      exact ih (List.append_inj' hall rfl).1
  | @token done parts' u htiles hstart ih =>
    rcases List.eq_nil_or_concat behind with rfl | ⟨behind, part, rfl⟩
    · obtain ⟨rfl, hlast⟩ := List.append_inj' hall rfl
      simp only [List.cons.injEq, and_true, token.injEq] at hlast
      rw [hlast, hstart, Position.offset_advanceOver_start, htiles.text_eq, length_bytesOf]
    · rw [List.concat_eq_append, ← List.cons_append, ← List.append_assoc] at hall
      exact ih (List.append_inj' hall rfl).1

/-- Only closing brackets are shown as closing brackets. -/
theorem Part.exists_token_of_badCloser {part : Part} (h : some .badCloser ∈ part.paints) :
    ∃ t, part = .token t := by
  cases part with
  | blanks cs skipped => simp [paints] at h
  | token t => exact ⟨t, rfl⟩

/-- The closing brackets in red are those that close nothing. -/
theorem isShown_badCloser_iff :
    IsShown line cursor .badCloser offset text ↔
      ∃ t ∈ strays [] (tokenize line), t.span.start.offset = offset ∧ t.text = text := by
  obtain ⟨shown, hpieces, hpaints, htiles, -, hreds, -⟩ := exists_highlighted line cursor
  rw [← hreds]
  constructor
  · rintro ⟨pieces, before, p, behind, hsome, hsplit, hpaint, rfl, rfl⟩
    obtain rfl := Option.some.inj (hpieces.symm.trans hsome)
    obtain ⟨shown₁, rest, rfl, rfl, hrest⟩ := List.map_eq_append_iff.1 hsplit
    obtain ⟨⟨part, colour⟩, shown₂, rfl, rfl, -⟩ := List.map_eq_cons_iff.1 hrest
    obtain rfl : colour = some .badCloser := by simpa [Showing.piece] using hpaint
    obtain ⟨t, rfl⟩ := Part.exists_token_of_badCloser (hpaints (part, _) (by simp))
    refine ⟨t, List.mem_filterMap.2 ⟨_, List.mem_append_right _ List.mem_cons_self, rfl⟩, ?_, rfl⟩
    rw [Showing.parts, List.map_append, List.map_cons] at htiles
    rw [← htiles.start_eq, List.map_map, List.map_map]
    rfl
  · rintro ⟨t, ht, rfl, rfl⟩
    obtain ⟨⟨part, colour⟩, hq, hred⟩ := List.mem_filterMap.1 ht
    obtain ⟨rfl, htoken⟩ := Option.ite_none_right_eq_some.1 hred
    obtain ⟨u, rfl⟩ := Part.exists_token_of_badCloser (hpaints _ hq)
    obtain rfl := Option.some.inj htoken
    obtain ⟨shown₁, shown₂, rfl⟩ := List.append_of_mem hq
    refine ⟨_, _, _, _, hpieces, List.map_append, List.mem_singleton.2 rfl, rfl, ?_⟩
    rw [Showing.parts, List.map_append, List.map_cons] at htiles
    rw [← htiles.start_eq, List.map_map, List.map_map]
    rfl

/-- A line without closing brackets that close nothing shows no bracket in red. -/
theorem not_red_of_strays_eq_nil (h : strays [] (tokenize line) = []) :
    ∃ pieces, highlightPieces? line cursor = some pieces ∧
      ∀ p ∈ pieces.toList, .badOpener ∉ p.paints ∧ .badCloser ∉ p.paints := by
  obtain ⟨shown, hpieces, -, -, -, hreds, hsound⟩ := exists_highlighted line cursor
  refine ⟨_, hpieces, fun p hp => ⟨fun hopener => ?_, fun hcloser => ?_⟩⟩
  · obtain ⟨q, hq, rfl⟩ := List.mem_map.1 hp
    exact hsound h q hq (Option.mem_toList.1 hopener)
  · obtain ⟨before, behind, hsplit⟩ := List.append_of_mem hp
    obtain ⟨t, ht, -⟩ := isShown_badCloser_iff.1
      ⟨_, before, p, behind, hpieces, hsplit, hcloser, rfl, rfl⟩
    rw [h] at ht
    cases ht

/-! ## Brackets and what else is begun -/

theorem mem_of_mem_strays (h : t ∈ strays opened ts) : t ∈ ts := by
  induction ts generalizing opened with
  | nil => cases h
  | cons u ts ih =>
    rw [strays] at h
    split at h
    next =>
      rcases List.mem_cons.1 h with rfl | h
      · exact List.mem_cons_self
      · exact List.mem_cons_of_mem u (ih h)
    next => exact List.mem_cons_of_mem u (ih h)

namespace Pending

variable {stack : List Pending}

/-- The bracket that is open. -/
def bracket? : Pending → Option Token.Kind
  | bracket _ b => some (.opening b)
  | mark _ _ _ => none

/-- The brackets among what is begun and not finished. -/
def brackets (stack : List Pending) : List Token.Kind := stack.filterMap bracket?

@[simp] theorem brackets_bracket (opener : Token) (b : Bracket) (stack : List Pending) :
    brackets (bracket opener b :: stack) = .opening b :: brackets stack := rfl

@[simp] theorem brackets_mark (t : Token) (m : Shorthand) (n : Nat) (stack : List Pending) :
    brackets (mark t m n :: stack) = brackets stack := rfl

@[simp] theorem brackets_complete (stack : List Pending) :
    brackets (complete stack) = brackets stack := by
  induction stack with
  | nil => rfl
  | cons top rest ih =>
    match top with
    | bracket _ _ => rfl
    | mark _ _ (_ + 2) => rfl
    | mark _ _ 0 => exact ih
    | mark _ _ 1 => exact ih

/-- A closing bracket that is not refused closes what was begun last. -/
theorem exists_of_not_refuses (h : ∀ e, ¬Refuses stack t e) (hk : t.kind = .closing b) :
    ∃ opener rest, stack = bracket opener b :: rest := by
  by_contra hnone
  exact h _ (.closing hk fun opener rest heq => hnone ⟨opener, rest, heq⟩)

/-- A token that is not refused closes no bracket that does not match it, and leaves the same
brackets open in both ways. -/
theorem brackets_push (h : ∀ e, ¬Refuses stack t e) :
    isStray (brackets stack) t = false ∧
      openAfter (brackets stack) t = brackets (push stack t) := by
  cases hk : t.kind with
  | closing b =>
    obtain ⟨opener, rest, rfl⟩ := exists_of_not_refuses h hk
    simp [isStray, openAfter, push, Token.Kind.closing?, Token.Kind.isClosing, hk]
  | _ => simp [isStray, openAfter, push, Token.Kind.closing?, Token.Kind.isClosing, hk]

/-- Where a token is refused because no form begins with it. -/
theorem Refuses.exists_closing {kind : Token.Kind} {span : Span}
    (h : Refuses stack t (.unexpectedToken kind span)) :
    ∃ b, kind = t.kind ∧ span = t.span ∧ t.kind = .closing b ∧
      ∀ opener rest, stack ≠ bracket opener b :: rest := by
  cases h with
  | closing hk hstack => exact ⟨_, rfl, rfl, hk, hstack⟩

/-- As long as no token is refused, the brackets that are open are those begun and not finished. -/
theorem Accepts.openAfter_eq (h : Accepts stack ts) :
    ts.foldl openAfter (brackets stack) = brackets (ts.foldl push stack) := by
  induction ts generalizing stack with
  | nil => rfl
  | cons t ts ih =>
    obtain ⟨ht, hts⟩ := accepts_cons.1 h
    rw [List.foldl_cons, (brackets_push ht).2, ih hts, List.foldl_cons]

/-- As long as no token is refused, every closing bracket matches. -/
theorem Accepts.strays_eq_nil (h : Accepts stack ts) : strays (brackets stack) ts = [] := by
  induction ts generalizing stack with
  | nil => rfl
  | cons t ts ih =>
    obtain ⟨ht, hts⟩ := accepts_cons.1 h
    obtain ⟨hmatch, hopen⟩ := brackets_push ht
    rw [strays, if_neg (by simp [hmatch]), hopen, ih hts]

/-- A closing bracket where no operand is looked for is refused only if it does not match. -/
theorem isStray_of_refuses (hk : t.kind = .closing b)
    (hstack : ∀ opener rest, stack ≠ bracket opener b :: rest)
    (htop : ∀ u m n rest, stack ≠ mark u m n :: rest) : isStray (brackets stack) t = true := by
  cases stack with
  | nil => simp [isStray, Token.Kind.isClosing, hk, brackets]
  | cons top rest =>
    cases top with
    | mark u m n => exact absurd rfl (htop u m n rest)
    | bracket opener b' =>
      have hne : b' ≠ b := fun heq => hstack opener rest (heq ▸ rfl)
      simp [isStray, Token.Kind.closing?, Token.Kind.isClosing, hk, hne]

end Pending

/-! ## Red brackets and faults -/

/-- Reading some tokens ends where an operand is looked for. -/
def AwaitsOperand (reading : Nat) (ts : List Token) : Prop :=
  ∃ m span, Form.readAll reading ts = .error (.missingOperand m span)

/-- After tokens of which none is refused, an operand is looked for exactly if what was begun last
is a mark. -/
theorem awaitsOperand_iff (hts : ∀ t ∈ ts, t.Proper) (haccepts : Pending.Accepts [] ts) :
    AwaitsOperand reading ts ↔ ∃ u m n rest, ts.foldl Pending.push [] = .mark u m n :: rest := by
  have hend := (Form.scan_readAll reading hts).eq_of_accepts haccepts
  constructor
  · rintro ⟨m, span, hread⟩
    rw [hread] at hend
    obtain ⟨top, htop, hfault⟩ := Option.map_eq_some_iff.1 hend.symm
    obtain ⟨rest, hstack⟩ := List.head?_eq_some_iff.1 htop
    cases top with
    | bracket opener b => cases hfault
    | mark u m' n => exact ⟨u, m', n, rest, hstack⟩
  · rintro ⟨u, m, n, rest, hstack⟩
    rw [hstack] at hend
    cases hread : Form.readAll reading ts with
    | ok fs => simp [hread] at hend
    | error e =>
      rw [hread] at hend
      exact ⟨m, u.span, hread.trans (congrArg Except.error (Option.some.inj hend))⟩

/-- No closing bracket is red before the first token that is refused. -/
theorem le_of_isShown (hline : tokenize line = before ++ t :: after)
    (hbefore : Pending.Accepts [] before) (h : IsShown line cursor .badCloser offset text) :
    t.span.start.offset ≤ offset := by
  obtain ⟨u, hu, rfl, -⟩ := isShown_badCloser_iff.1 h
  have hnone : strays [] before = [] := hbefore.strays_eq_nil
  rw [hline, strays_append, hnone] at hu
  have hordered := (tokenize_ordered line).sublist (hline ▸ List.sublist_append_right before _)
  rcases List.mem_cons.1 (mem_of_mem_strays hu) with rfl | hu
  · exact Nat.le_refl _
  · have hlt := hordered.nonempty t List.mem_cons_self
    have hle := (List.pairwise_cons.1 hordered.apart).1 u hu
    omega

/-- **Red brackets are what the reading of a line stumbles over.** If a closing bracket is red, then
the line has a fault, which is a token that cannot stand where it is, no later than that bracket. If
the fault is a token that begins no form, it is a closing bracket, and unless an operand is looked
for there, it is red and the first one that is. A line without faults shows no bracket in red. -/
theorem highlight_agrees_with_parse (line : String) (cursor reading : Nat) :
    (∀ offset text, IsShown line cursor .badCloser offset text →
      ∃ u ∈ tokenize line, u.span.start.offset ≤ offset ∧
        (Program.parse line reading = .error (.illegalToken u.text u.span) ∨
          Program.parse line reading = .error (.invalidNumber u.text u.span) ∨
          Program.parse line reading = .error (.unexpectedToken u.kind u.span))) ∧
    (∀ kind span, Program.parse line reading = .error (.unexpectedToken kind span) →
      ∃ before t after b, tokenize line = before ++ t :: after ∧ t.kind = kind ∧ t.span = span ∧
        kind = .closing b ∧
        (¬AwaitsOperand reading before →
          IsShown line cursor .badCloser t.span.start.offset t.text ∧
          ∀ offset text, IsShown line cursor .badCloser offset text →
            t.span.start.offset ≤ offset)) ∧
    ((∃ p, Program.parse line reading = .ok p) →
      ∃ pieces, highlightPieces? line cursor = some pieces ∧
        ∀ p ∈ pieces.toList, .badOpener ∉ p.paints ∧ .badCloser ∉ p.paints) := by
  obtain ⟨herror, hok⟩ := Program.parse_iff_scan line reading
  have hscan := Form.scan_readAll reading (tokenize_proper line)
  refine ⟨fun offset text hred => ?_, fun kind span hfault => ?_, fun hparses => ?_⟩
  · rcases hscan.accepts_or_refuses with hall | ⟨before, u, after, e, hline, hbefore, hu⟩
    · -- Some token is refused, for otherwise every closing bracket matches.
      obtain ⟨t, ht, -⟩ := isShown_badCloser_iff.1 hred
      have hnone : strays [] (tokenize line) = [] := hall.strays_eq_nil
      rw [hnone] at ht
      cases ht
    · have hfault := (herror e).2 (.inl ⟨before, u, after, hline, hbefore, hu⟩)
      refine ⟨u, by simp [hline], le_of_isShown hline hbefore hred, ?_⟩
      cases hu with
      | illegal => exact .inl hfault
      | integer => exact .inr (.inl hfault)
      | closing => exact .inr (.inr hfault)
  · rcases (herror _).1 hfault with ⟨before, t, after, hline, hbefore, ht⟩ | ⟨-, top, _, -, htop⟩
    · obtain ⟨b, rfl, rfl, hk, hstack⟩ := ht.exists_closing
      refine ⟨before, t, after, b, hline, rfl, rfl, hk, fun hawaits => ⟨?_, fun offset text =>
        le_of_isShown hline hbefore⟩⟩
      have hproper : ∀ u ∈ before, u.Proper := fun u hu =>
        tokenize_proper line u (by rw [hline]; exact List.mem_append_left _ hu)
      have hopen : before.foldl openAfter [] = Pending.brackets (before.foldl Pending.push []) :=
        hbefore.openAfter_eq
      have hstray := Pending.isStray_of_refuses hk hstack fun u m n rest htop =>
        hawaits ((awaitsOperand_iff hproper hbefore).2 ⟨u, m, n, rest, htop⟩)
      rw [← hopen] at hstray
      refine isShown_badCloser_iff.2 ⟨t, ?_, rfl, rfl⟩
      rw [hline, strays_append]
      refine List.mem_append_right _ ?_
      rw [strays, if_pos hstray]
      exact List.mem_cons_self
    · cases top <;> cases htop
  · exact not_red_of_strays_eq_nil (hok.1 hparses).1.strays_eq_nil

end Lisp
