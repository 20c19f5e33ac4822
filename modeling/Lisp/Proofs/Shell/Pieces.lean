import Lisp.Proofs.Token.Place
import Lisp.Shell.Highlight

/-!
# The pieces of a highlighted line

- `Part`: a token of a line or the blanks between two tokens, and the paints it can be shown in.
- `strays`: the closing brackets of a line that close nothing.
- `Highlighting.Shows`: what the pieces made so far show. Each open bracket is in a piece without
  paint yet, so that no piece is ever painted twice. `Shows.skipTo` and `Shows.place?` keep it.
- `exists_highlighted`: so every line has its pieces, and the red closing brackets are the strays.
- `highlight_keeps_text`: highlighting leaves the text as it is.
-/

namespace Lisp

/-! ## Slices -/

theorem splitAt?_append (before behind : List Char) :
    splitAt? (bytesOf before).length (before ++ behind) = some (before, behind) := by
  induction before with
  | nil => cases behind <;> rfl
  | cons c before ih =>
    have hsize : (bytesOf (c :: before)).length = c.utf8Size + (bytesOf before).length := by
      rw [← List.singleton_append, bytesOf_append, bytesOf_singleton, List.length_append,
        String.length_utf8EncodeChar]
    obtain ⟨n, hn⟩ := Nat.exists_eq_add_of_lt (Char.utf8Size_pos c)
    rw [Nat.zero_add] at hn
    have hsucc : (bytesOf (c :: before)).length = n + (bytesOf before).length + 1 := by omega
    rw [hsucc, List.cons_append, splitAt?, if_pos (by omega)]
    have hrest : n + (bytesOf before).length + 1 - c.utf8Size = (bytesOf before).length := by omega
    rw [hrest, ih]
    rfl

/-- The text between two places of a line. -/
theorem slice?_middle {line : String} {before middle behind : List Char}
    (h : line.toList = before ++ (middle ++ behind)) :
    slice? line (bytesOf before).length (bytesOf (before ++ middle)).length =
      some (String.ofList middle) := by
  have hsize : (bytesOf (before ++ middle)).length - (bytesOf before).length =
      (bytesOf middle).length := by
    rw [bytesOf_append, List.length_append, Nat.add_sub_cancel_left]
  have hle : ¬(bytesOf (before ++ middle)).length < (bytesOf before).length := by
    rw [bytesOf_append, List.length_append]
    omega
  rw [slice?, if_neg hle, hsize, h, splitAt?_append]
  show (splitAt? _ (middle ++ behind)).bind _ = _
  rw [splitAt?_append]
  rfl

/-! ## The tokens of a line -/

namespace Scanner

variable {cs : List Char} {p : Position} {t : Token} {ts : List Token}

/-- A text without tokens is blank. -/
theorem isSkipped_of_tokens_eq_nil (h : tokens ⟨cs, p⟩ = []) : ∀ c ∈ cs, isSkipped c = true := by
  induction cs using text_induction generalizing p with
  | nil => exact nofun
  | skipped c cs hc ih =>
    rw [tokens_skipped hc] at h
    exact List.forall_mem_cons.2 ⟨hc, ih h⟩
  | token c cs hc _ =>
    rw [tokens_cons hc] at h
    cases h

/-- The blanks before the first token of a text, the token, and the text behind it. -/
theorem split_of_tokens_eq_cons (h : tokens ⟨cs, p⟩ = t :: ts) :
    ∃ gap behind, cs = gap ++ (t.text.toList ++ behind) ∧ (∀ c ∈ gap, isSkipped c = true) ∧
      t.span = ⟨p.advanceOver gap, p.advanceOver (gap ++ t.text.toList)⟩ ∧
      tokens ⟨behind, p.advanceOver (gap ++ t.text.toList)⟩ = ts := by
  induction cs using text_induction generalizing p with
  | nil =>
    rw [tokens_nil] at h
    cases h
  | skipped c cs hc ih =>
    rw [tokens_skipped hc] at h
    obtain ⟨gap, behind, rfl, hgap, hspan, hrest⟩ := ih h
    exact ⟨c :: gap, behind, rfl, List.forall_mem_cons.2 ⟨hc, hgap⟩, hspan, hrest⟩
  | token c cs hc _ =>
    rw [tokens_cons hc] at h
    obtain ⟨rfl, hrest⟩ := List.cons.inj h
    obtain ⟨u, htext, hsplit⟩ := Lexeme.scan_split c cs
    have hword : ((Lexeme.scan c cs).token p).text.toList = (Lexeme.scan c cs).text :=
      String.toList_ofList
    refine ⟨[], (Lexeme.scan c cs).rest, ?_, nofun, ?_, ?_⟩
    · rw [hword, htext, List.nil_append, List.cons_append, hsplit]
    · rw [hword]
      rfl
    · rwa [hword]

end Scanner

/-! ## Parts -/

/-- A part of a line: blanks, or a token. -/
inductive Part where
  | blanks (cs : List Char) (skipped : ∀ c ∈ cs, isSkipped c = true)
  | token (t : Token)

namespace Part

/-- The text of a part. -/
def text : Part → String
  | blanks cs _ => String.ofList cs
  | token t => t.text

/-- The token that a part is. -/
def token? : Part → Option Token
  | blanks _ _ => none
  | token t => some t

/-- The paints that a part can be shown in. -/
def paints : Part → List (Option Paint)
  | blanks _ _ => [none]
  | token t =>
    match t.kind with
    | .literal .string => [some .string]
    | .comment => [some .comment]
    | .literal .keyword => [some .keyword]
    | .opening _ => [none, some .touchedOpener, some .badOpener]
    | .closing _ => [none, some .touchedCloser, some .badCloser]
    | _ => [none]

/-- Parts that make up a text, one after the other. Each token begins where the parts before it
end. -/
inductive Tiles : List Char → List Part → Prop
  | nil : Tiles [] []
  | blanks {done : List Char} {parts : List Part} {cs : List Char}
      (skipped : ∀ c ∈ cs, isSkipped c = true) :
      Tiles done parts → Tiles (done ++ cs) (parts ++ [.blanks cs skipped])
  | token {done : List Char} {parts : List Part} {t : Token} :
      Tiles done parts → t.span.start = Position.start.advanceOver done →
      Tiles (done ++ t.text.toList) (parts ++ [.token t])

end Part

theorem Part.Tiles.text_eq {done : List Char} {parts : List Part} (h : Tiles done parts) :
    String.join (parts.map Part.text) = String.ofList done := by
  induction h with
  | nil => rfl
  | blanks skipped _ ih =>
    rw [List.map_append, String.join_append, ih, String.ofList_append]
    simp [Part.text]
  | token _ _ ih =>
    rw [List.map_append, String.join_append, ih, String.ofList_append, String.ofList_toList]
    simp [Part.text]

/-! ## Closing brackets that close nothing -/

/-- The brackets that are open after a token. A closing bracket closes the innermost one, even if it
does not match it. -/
def openAfter (opened : List Token.Kind) (t : Token) : List Token.Kind :=
  if t.kind.closing?.isSome then t.kind :: opened
  else if t.kind.isClosing then opened.tail
  else opened

/-- Whether a token is a closing bracket that does not match the innermost bracket that is open. -/
def isStray (opened : List Token.Kind) (t : Token) : Bool :=
  t.kind.isClosing && opened.head?.bind Token.Kind.closing? != some t.kind

/-- The closing brackets that do not match, where some brackets are already open. -/
def strays (opened : List Token.Kind) : List Token → List Token
  | [] => []
  | t :: ts =>
    if isStray opened t then t :: strays (openAfter opened t) ts
    else strays (openAfter opened t) ts

theorem strays_append (opened : List Token.Kind) (ts us : List Token) :
    strays opened (ts ++ us) = strays opened ts ++ strays (ts.foldl openAfter opened) us := by
  induction ts generalizing opened with
  | nil => rfl
  | cons t ts ih =>
    rw [List.cons_append, strays, strays, ih]
    split <;> rfl

/-- A token that can only be shown in one way is no bracket. -/
theorem Part.plain_of_paints {t : Token} {paint : Option Paint}
    (h : (Part.token t).paints = [paint]) :
    (∀ opened, isStray opened t = false) ∧ (∀ opened, openAfter opened t = opened) ∧
      paint ≠ some .badCloser ∧ paint ≠ some .badOpener := by
  cases hk : t.kind with
  | opening b => simp [Part.paints, hk] at h
  | closing b => simp [Part.paints, hk] at h
  | literal kind =>
    cases kind <;> simp only [Part.paints, hk, List.cons.injEq] at h <;>
      simp [isStray, openAfter, Token.Kind.closing?, Token.Kind.isClosing, hk, ← h.1]
  | _ =>
    simp only [Part.paints, hk, List.cons.injEq] at h
    simp [isStray, openAfter, Token.Kind.closing?, Token.Kind.isClosing, hk, ← h.1]

/-! ## What pieces show -/

/-- Parts with the paint that each of them is shown in. -/
abbrev Showing := List (Part × Option Paint)

namespace Showing

/-- The piece that shows a part. -/
def piece (q : Part × Option Paint) : Piece := ⟨q.1.text, q.2.toList⟩

/-- The parts that are shown. -/
def parts (shown : Showing) : List Part := shown.map Prod.fst

/-- The tokens that are shown. -/
def tokens (shown : Showing) : List Token := shown.parts.filterMap Part.token?

/-- The token of a closing bracket that is shown in red. -/
def red? (q : Part × Option Paint) : Option Token :=
  if q.2 = some .badCloser then q.1.token? else none

/-- The closing brackets that are shown in red. -/
def reds (shown : Showing) : List Token := shown.filterMap red?

theorem tokens_concat (shown : Showing) (q : Part × Option Paint) :
    (shown ++ [q]).tokens = shown.tokens ++ q.1.token?.toList := by
  obtain ⟨part, paint⟩ := q
  cases part <;> simp [tokens, parts, Part.token?]

theorem reds_concat (shown : Showing) (q : Part × Option Paint) :
    (shown ++ [q]).reds = shown.reds ++ (red? q).toList := by
  rw [reds, List.filterMap_append]
  cases hq : red? q <;> simp [reds, hq]

/-- No opening bracket is shown in red. -/
def Sound (shown : Showing) : Prop := ∀ q ∈ shown, q.2 ≠ some .badOpener

/-- The same tokens are shown, and the same closing brackets are red. -/
structure Keeps (shown shown' : Showing) : Prop where
  parts : shown.parts = shown'.parts
  reds : shown.reds = shown'.reds

theorem Keeps.tokens {shown shown' : Showing} (h : Keeps shown shown') :
    shown.tokens = shown'.tokens := congrArg (List.filterMap Part.token?) h.parts

theorem map_set_eq_self {β : Type} {f : Part × Option Paint → β} {q q' : Part × Option Paint}
    {shown : Showing} {i : Nat} (hat : shown[i]? = some q) (hf : f q' = f q) :
    (shown.set i q').map f = shown.map f := by
  obtain ⟨hi, rfl⟩ := List.getElem?_eq_some_iff.1 hat
  rw [List.map_set, hf]
  refine List.ext_getElem (List.length_set ..) fun j hj hj' => ?_
  rw [List.getElem_set]
  split
  next hij =>
    subst hij
    exact (List.getElem_map f).symm
  next => rfl

/-- A part that is not red and then has another paint, which does not make it red. -/
theorem keeps_set {q q' : Part × Option Paint} {shown : Showing} {i : Nat}
    (hat : shown[i]? = some q) (hpart : q'.1 = q.1) (hred : red? q' = red? q) :
    Keeps shown (shown.set i q') where
  parts := (map_set_eq_self hat hpart).symm
  reds := by
    have hmap := map_set_eq_self hat hred
    have hid : ∀ xs : Showing, xs.reds = (xs.map red?).filterMap id := fun xs => by
      rw [List.filterMap_map]
      rfl
    rw [hid, hid, hmap]

end Showing

namespace Highlighting

/-- The brackets that are open, the innermost first. -/
def opened (h : Highlighting) : List Token.Kind := h.openings.map OpenBracket.kind

/-- The pieces made so far show some parts, which make up a text. Each open bracket is in a piece of
its own, which has no paint yet. -/
structure Shows (h : Highlighting) (done : List Char) (shown : Showing) : Prop where
  pieces : h.pieces.toList = shown.map Showing.piece
  tiles : Part.Tiles done shown.parts
  paints : ∀ q ∈ shown, q.2 ∈ q.1.paints
  openings : ∀ o ∈ h.openings, ∃ t b, shown[o.piece]? = some (.token t, none) ∧
    t.kind = .opening b ∧ o.kind = .opening b
  apart : h.openings.Pairwise fun o o' => o.piece ≠ o'.piece

/-- What some more tokens add: those of them that close nothing are red. -/
structure Adds (h : Highlighting) (shown : Showing) (ts : List Token) (h' : Highlighting)
    (shown' : Showing) : Prop where
  tokens : shown'.tokens = shown.tokens ++ ts
  opened : h'.opened = ts.foldl openAfter h.opened
  reds : shown'.reds = shown.reds ++ strays h.opened ts
  sound : strays h.opened ts = [] → shown.Sound → shown'.Sound

variable {h h' h'' : Highlighting} {done gap rest : List Char} {shown shown' shown'' : Showing}
  {t : Token} {ts us : List Token} {o : OpenBracket} {outer : List OpenBracket}
  {part : Part} {paint : Option Paint}

theorem Adds.refl : Adds h shown [] h shown :=
  ⟨(List.append_nil _).symm, rfl, (List.append_nil _).symm, fun _ => id⟩

theorem Adds.trans (hts : Adds h shown ts h' shown') (hus : Adds h' shown' us h'' shown'') :
    Adds h shown (ts ++ us) h'' shown'' where
  tokens := by rw [hus.tokens, hts.tokens, List.append_assoc]
  opened := by rw [hus.opened, hts.opened, List.foldl_append]
  reds := by rw [hus.reds, hts.reds, hts.opened, strays_append, List.append_assoc]
  sound hnone hsound := by
    rw [strays_append, List.append_eq_nil_iff] at hnone
    exact hus.sound (hts.opened ▸ hnone.2) (hts.sound hnone.1 hsound)

/-- What has been reached does not matter to what tokens add. -/
theorem Adds.of_reach {offset : Nat}
    (hadds : Adds { h with reached := offset } shown ts h' shown') : Adds h shown ts h' shown' :=
  ⟨hadds.tokens, hadds.opened, hadds.reds, hadds.sound⟩

theorem Shows.size (hs : h.Shows done shown) : h.pieces.size = shown.length := by
  rw [← Array.length_toList, hs.pieces, List.length_map]

/-- What has been reached does not matter to what is shown. -/
theorem Shows.reach (hs : h.Shows done shown) (offset : Nat) :
    { h with reached := offset }.Shows done shown :=
  ⟨hs.pieces, hs.tiles, hs.paints, hs.openings, hs.apart⟩

/-- One more piece. -/
theorem Shows.push {done' : List Char} (hs : h.Shows done shown)
    (htiles : Part.Tiles done' (shown.parts ++ [part])) (hpaint : paint ∈ part.paints) :
    (h.push part.text paint.toList).Shows done' (shown ++ [(part, paint)]) where
  pieces := by
    show (h.pieces.push _).toList = _
    rw [Array.toList_push, hs.pieces, List.map_append]
    rfl
  tiles := by
    show Part.Tiles done' ((shown ++ [(part, paint)]).map Prod.fst)
    rw [List.map_append]
    exact htiles
  paints q hq := by
    rcases List.mem_append.1 hq with hq | hq
    · exact hs.paints q hq
    · obtain rfl := List.mem_singleton.1 hq
      exact hpaint
  openings o ho := by
    obtain ⟨t, b, hat, hk⟩ := hs.openings o ho
    exact ⟨t, b, List.getElem?_append_left (List.getElem?_eq_some_iff.1 hat).1 ▸ hat, hk⟩
  apart := hs.apart

/-- Blanks before a place are added as they are. -/
theorem Shows.skipTo {line : String} (hs : h.Shows done shown)
    (hreached : h.reached = (bytesOf done).length) (hline : line.toList = done ++ (gap ++ rest))
    (hgap : ∀ c ∈ gap, isSkipped c = true) :
    ∃ h' shown', h.skipTo? line (bytesOf (done ++ gap)).length = some h' ∧
      h'.Shows (done ++ gap) shown' ∧ Adds h shown [] h' shown' := by
  cases gap with
  | nil =>
    refine ⟨h, shown, ?_, by rwa [List.append_nil], .refl⟩
    rw [skipTo?, hreached, List.append_nil, if_neg (Nat.lt_irrefl _)]
  | cons c gap =>
    have hlt : (bytesOf done).length < (bytesOf (done ++ c :: gap)).length := by
      have hpos := Char.utf8Size_pos c
      rw [bytesOf_append, ← List.singleton_append, bytesOf_append, bytesOf_singleton,
        List.length_append, List.length_append, String.length_utf8EncodeChar]
      omega
    have hshows := (hs.push (hs.tiles.blanks hgap) List.mem_cons_self).reach
      (bytesOf (done ++ c :: gap)).length
    refine ⟨_, _, ?_, hshows, ?_, ?_, ?_, fun _ hsound => ?_⟩
    · rw [skipTo?, hreached, if_pos hlt, slice?_middle hline]
      rfl
    · rw [Showing.tokens_concat, List.append_nil]
      exact List.append_nil _
    · rfl
    · rw [Showing.reds_concat]
      rfl
    · exact List.forall_mem_append.2 ⟨hsound, List.forall_mem_singleton.2 nofun⟩

/-! ## Adding a token -/

/-- What a token adds, if at most the paint of an earlier opening bracket is changed. -/
theorem Adds.token (hkept : Showing.Keeps shown shown')
    (hsound : isStray h.opened t = false → shown.Sound → shown'.Sound)
    (hred : paint = some .badCloser ↔ isStray h.opened t = true)
    (hopener : paint ≠ some .badOpener) (hopened : h'.opened = openAfter h.opened t) :
    Adds h shown [t] h' (shown' ++ [(.token t, paint)]) where
  tokens := by
    rw [Showing.tokens_concat, hkept.tokens]
    rfl
  opened := hopened
  reds := by
    rw [Showing.reds_concat, hkept.reds]
    by_cases hstray : isStray h.opened t = true
    · simp [Showing.red?, strays, Part.token?, hred.2 hstray, hstray]
    · simp [Showing.red?, strays, mt hred.1 hstray, hstray]
  sound hnone hs := by
    have hstray : isStray h.opened t = false := by
      by_contra hstray
      simp [strays, hstray] at hnone
    exact List.forall_mem_append.2 ⟨hsound hstray hs, List.forall_mem_singleton.2 hopener⟩

/-- A token that changes nothing before it. -/
theorem Adds.plain (hred : paint = some .badCloser ↔ isStray h.opened t = true)
    (hopener : paint ≠ some .badOpener) (hopened : h'.opened = openAfter h.opened t) :
    Adds h shown [t] h' (shown ++ [(.token t, paint)]) :=
  .token ⟨rfl, rfl⟩ (fun _ => id) hred hopener hopened

/-- An opening bracket without paint, which is not open any more, gets one. -/
theorem Shows.repaint? {i : Nat} (hs : h.Shows done shown) (paint : Paint)
    (hat : shown[i]? = some (.token t, none)) (hpaint : some paint ∈ (Part.token t).paints)
    (hcloser : paint ≠ .badCloser) (hclosed : ∀ o ∈ h.openings, o.piece ≠ i) :
    ∃ h' shown', h.repaint? i paint = some h' ∧ h'.Shows done shown' ∧
      h'.openings = h.openings ∧ h'.reached = h.reached ∧ Showing.Keeps shown shown' ∧
      (paint ≠ .badOpener → shown.Sound → shown'.Sound) := by
  have hpiece : h.pieces[i]? = some (Showing.piece (.token t, none)) := by
    rw [← Array.getElem?_toList, hs.pieces, List.getElem?_map, hat]
    rfl
  have hkeeps : Showing.Keeps shown (shown.set i (.token t, some paint)) :=
    Showing.keeps_set hat rfl (if_neg fun heq => hcloser (Option.some.inj heq))
  refine ⟨{ h with pieces := h.pieces.setIfInBounds i ⟨t.text, [paint]⟩ },
    shown.set i (.token t, some paint), by rw [Highlighting.repaint?, hpiece]; rfl,
    ⟨?_, ?_, fun q hq => ?_, fun o ho => ?_, hs.apart⟩, rfl, rfl, hkeeps,
    fun hopener hsound q hq => ?_⟩
  · rw [Array.toList_setIfInBounds, hs.pieces, List.map_set]
    rfl
  · exact hkeeps.parts ▸ hs.tiles
  · rcases List.mem_or_eq_of_mem_set hq with hq | rfl
    · exact hs.paints q hq
    · exact hpaint
  · obtain ⟨u, b, hu, hk⟩ := hs.openings o ho
    exact ⟨u, b, by rw [List.getElem?_set_ne (hclosed o ho).symm, hu], hk⟩
  · rcases List.mem_or_eq_of_mem_set hq with hq | rfl
    · exact hsound q hq
    · exact fun heq => hopener (Option.some.inj heq)

/-- The innermost bracket is not open any more. -/
theorem Shows.pop (hs : h.Shows done shown) (hopen : h.openings = o :: outer) :
    { h with openings := outer }.Shows done shown ∧
      (∃ t b, shown[o.piece]? = some (.token t, none) ∧ t.kind = .opening b ∧
        o.kind = .opening b) ∧
      ∀ o' ∈ outer, o'.piece ≠ o.piece := by
  have hmem : ∀ o' ∈ o :: outer, o' ∈ h.openings := fun _ => hopen ▸ id
  obtain ⟨hfirst, hapart⟩ := List.pairwise_cons.1 (hopen ▸ hs.apart)
  exact ⟨⟨hs.pieces, hs.tiles, hs.paints,
      fun o' ho' => hs.openings o' (hmem o' (List.mem_cons_of_mem o ho')), hapart⟩,
    hs.openings o (hmem o List.mem_cons_self), fun o' ho' heq => hfirst o' ho' heq.symm⟩

/-- A closing bracket is shown, after what it says about the bracket that it closes. -/
theorem Shows.pushCloser {h₁ : Highlighting} {shown₁ : Showing} {b : Bracket}
    (hs : h₁.Shows done shown₁) (paint : Option Paint)
    (ht : t.span.start = Position.start.advanceOver done) (hk : t.kind = .closing b)
    (hkept : Showing.Keeps shown shown₁) (hopened : h₁.opened = h.opened.tail)
    (hsound : isStray h.opened t = false → shown.Sound → shown₁.Sound)
    (hred : paint = some .badCloser ↔ isStray h.opened t = true)
    (hpaint : paint ∈ [none, some .touchedCloser, some .badCloser]) :
    ∃ shown', (h₁.push t.text paint.toList).Shows (done ++ t.text.toList) shown' ∧
      Adds h shown [t] (h₁.push t.text paint.toList) shown' := by
  refine ⟨_, hs.push (hs.tiles.token ht) ?_, .token hkept hsound hred ?_ ?_⟩
  · rw [Part.paints, hk]
    exact hpaint
  · rintro rfl
    simp at hpaint
  · rw [openAfter, hk]
    exact hopened

/-- A closing bracket is shown, and its opening bracket is painted. -/
theorem Shows.close? {b : Bracket} (hs : h.Shows done shown)
    (ht : t.span.start = Position.start.advanceOver done) (hk : t.kind = .closing b)
    (cursor : Nat) :
    ∃ h' shown', h.close? cursor t = some h' ∧ h'.Shows (done ++ t.text.toList) shown' ∧
      h'.reached = h.reached ∧ Adds h shown [t] h' shown' := by
  have hstray : isStray h.opened t = true ↔
      h.opened.head?.bind Token.Kind.closing? ≠ some t.kind := by
    simp [isStray, Token.Kind.isClosing, hk]
  cases hopen : h.openings with
  | nil =>
    have hopened : h.opened = [] := by rw [opened, hopen, List.map_nil]
    have hred : isStray h.opened t = true := by rw [hstray, hopened]; simp
    obtain ⟨shown', hshows, hadds⟩ := hs.pushCloser (h := h) (some .badCloser) ht hk ⟨rfl, rfl⟩
      (by rw [hopened]; rfl) (fun _ => id) (iff_of_true rfl hred) (by simp)
    exact ⟨_, shown', by rw [Highlighting.close?, hopen]; rfl, hshows, rfl, hadds⟩
  | cons o outer =>
    have hopened : h.opened = o.kind :: outer.map OpenBracket.kind := by
      rw [opened, hopen, List.map_cons]
    have hcloses : isStray h.opened t = true ↔ o.kind.closing? ≠ some t.kind := by
      rw [hstray, hopened]
      rfl
    -- The piece of the opening bracket has no paint yet, for the bracket was open until now.
    obtain ⟨hpopped, ⟨u, b', hu, huk, -⟩, hclosed⟩ := hs.pop hopen
    have hupaints : (Part.token u).paints = [none, some .touchedOpener, some .badOpener] := by
      rw [Part.paints, huk]
    rw [Highlighting.close?, hopen]
    dsimp only
    split
    next heq =>
      have hred := mt hcloses.1 (not_not.2 heq)
      split
      next =>
        obtain ⟨h₁, shown₁, hrepaint, hs₁, hopen₁, hreached₁, hkept, hsound⟩ :=
          hpopped.repaint? .touchedOpener hu (by simp [hupaints]) (by decide) hclosed
        obtain ⟨shown', hshows, hadds⟩ := hs₁.pushCloser (h := h) (some .touchedCloser) ht hk hkept
          (by rw [opened, hopen₁, hopened]; rfl) (fun _ => hsound (by decide))
          (iff_of_false (by decide) hred) (by simp)
        exact ⟨_, shown', by rw [hrepaint]; rfl, hshows, hreached₁, hadds⟩
      next =>
        obtain ⟨shown', hshows, hadds⟩ := hpopped.pushCloser (h := h) none ht hk ⟨rfl, rfl⟩
          (by rw [hopened]; rfl) (fun _ => id) (iff_of_false (by decide) hred) (by simp)
        exact ⟨_, shown', rfl, hshows, rfl, hadds⟩
    next hne =>
      obtain ⟨h₁, shown₁, hrepaint, hs₁, hopen₁, hreached₁, hkept, -⟩ :=
        hpopped.repaint? .badOpener hu (by simp [hupaints]) (by decide) hclosed
      have hred := hcloses.2 hne
      obtain ⟨shown', hshows, hadds⟩ := hs₁.pushCloser (h := h) (some .badCloser) ht hk hkept
        (by rw [opened, hopen₁, hopened]; rfl) (fun hno => absurd hred (by simp [hno]))
        (iff_of_true rfl hred) (by simp)
      exact ⟨_, shown', by rw [hrepaint]; rfl, hshows, hreached₁, hadds⟩

/-- A token that is no bracket is shown. -/
theorem Shows.pushPlain (hs : h.Shows done shown) (paint : Option Paint)
    (ht : t.span.start = Position.start.advanceOver done)
    (hpaint : (Part.token t).paints = [paint]) :
    ∃ h' shown', some (h.push t.text paint.toList) = some h' ∧
      h'.Shows (done ++ t.text.toList) shown' ∧ h'.reached = h.reached ∧
      Adds h shown [t] h' shown' := by
  obtain ⟨hstray, hopened, hcloser, hopener⟩ := Part.plain_of_paints hpaint
  exact ⟨_, _, rfl, hs.push (hs.tiles.token ht) (hpaint ▸ List.mem_singleton.2 rfl), rfl,
    .plain (iff_of_false hcloser (by simp [hstray])) hopener (hopened h.opened).symm⟩

/-- An opening bracket is shown, and is open from there on. -/
theorem Shows.pushOpening {b : Bracket} (hs : h.Shows done shown)
    (ht : t.span.start = Position.start.advanceOver done) (hk : t.kind = .opening b)
    (offset : Nat) :
    ∃ shown', { h.push t.text [] with
          openings := ⟨t.kind, h.pieces.size, offset⟩ :: h.openings }.Shows
        (done ++ t.text.toList) shown' ∧
      Adds h shown [t] { h.push t.text [] with
        openings := ⟨t.kind, h.pieces.size, offset⟩ :: h.openings } shown' := by
  have hpaint : none ∈ (Part.token t).paints := by simp [Part.paints, hk]
  have hpushed := hs.push (hs.tiles.token ht) hpaint
  refine ⟨_, ⟨hpushed.pieces, hpushed.tiles, hpushed.paints, ?_, ?_⟩, .plain ?_ nofun ?_⟩
  · refine List.forall_mem_cons.2 ⟨⟨t, b, ?_, hk, hk⟩, hpushed.openings⟩
    rw [hs.size, List.getElem?_concat_length]
  · refine List.pairwise_cons.2 ⟨fun o ho heq => ?_, hs.apart⟩
    -- The piece is a new one, and the brackets that are open are in pieces that are there.
    obtain ⟨u, -, hu, -⟩ := hs.openings o ho
    have hlt := (List.getElem?_eq_some_iff.1 hu).1
    rw [← heq, hs.size] at hlt
    exact Nat.lt_irrefl _ hlt
  · simp [isStray, Token.Kind.isClosing, hk]
  · simp [opened, openAfter, Token.Kind.closing?, hk]

/-- A token is shown. -/
theorem Shows.place? (hs : h.Shows done shown)
    (ht : t.span.start = Position.start.advanceOver done) (cursor : Nat) :
    ∃ h' shown', h.place? cursor t = some h' ∧ h'.Shows (done ++ t.text.toList) shown' ∧
      h'.reached = h.reached ∧ Adds h shown [t] h' shown' := by
  rw [Highlighting.place?]
  split
  next hk => exact hs.pushPlain (some .string) ht (by simp [Part.paints, hk])
  next hk => exact hs.pushPlain (some .comment) ht (by simp [Part.paints, hk])
  next hk => exact hs.pushPlain (some .keyword) ht (by simp [Part.paints, hk])
  next =>
    split
    next hopens =>
      obtain ⟨_, hcloser⟩ := Option.isSome_iff_exists.1 hopens
      obtain ⟨b, hk, -⟩ := Token.Kind.closing?_eq_some_iff.1 hcloser
      obtain ⟨shown', hshows, hadds⟩ := hs.pushOpening ht hk t.span.start.offset
      exact ⟨_, shown', rfl, hshows, rfl, hadds⟩
    next hopens =>
      split
      next hcloses =>
        obtain ⟨b, hk⟩ := Token.Kind.isClosing_iff.1 hcloses
        exact hs.close? ht hk cursor
      next hcloses =>
        have hopening : ∀ b, t.kind ≠ .opening b := fun b hk => hopens (by rw [hk]; rfl)
        have hclosing : ∀ b, t.kind ≠ .closing b := fun b hk => hcloses (by rw [hk]; rfl)
        exact hs.pushPlain none ht (by simp [Part.paints, *])

/-- A token and the blanks before it are shown. -/
theorem Shows.add? {line : String} {behind : List Char} (hs : h.Shows done shown)
    (hreached : h.reached = (bytesOf done).length)
    (hline : line.toList = done ++ (gap ++ (t.text.toList ++ behind)))
    (hgap : ∀ c ∈ gap, isSkipped c = true)
    (hspan : t.span = ⟨Position.start.advanceOver (done ++ gap),
      Position.start.advanceOver (done ++ gap ++ t.text.toList)⟩) (cursor : Nat) :
    ∃ h' shown', h.add? line cursor t = some h' ∧
      h'.Shows (done ++ gap ++ t.text.toList) shown' ∧
      h'.reached = (bytesOf (done ++ gap ++ t.text.toList)).length ∧
      Adds h shown [t] h' shown' := by
  obtain ⟨h₁, shown₁, hskip, hs₁, hadds₁⟩ := hs.skipTo hreached hline hgap
  have hstart : t.span.start.offset = (bytesOf (done ++ gap)).length := by
    rw [hspan, Position.offset_advanceOver_start]
  have hstop : t.span.stop.offset = (bytesOf (done ++ gap ++ t.text.toList)).length := by
    rw [hspan, Position.offset_advanceOver_start]
  obtain ⟨h', shown', hplace, hs', hreached', hadds⟩ :=
    (hs₁.reach t.span.stop.offset).place? (t := t) (by rw [hspan]) cursor
  refine ⟨h', shown', ?_, hs', hreached'.trans hstop, hadds₁.trans hadds.of_reach⟩
  rw [Highlighting.add?, hstart, hskip]
  exact hplace

/-- All tokens from a place on are shown. -/
theorem Shows.foldlM {line : String} (cursor : Nat) (hs : h.Shows done shown)
    (hreached : h.reached = (bytesOf done).length) (hline : line.toList = done ++ rest)
    (htokens : Scanner.tokens ⟨rest, Position.start.advanceOver done⟩ = ts) :
    ∃ h' shown' done' gap, ts.foldlM (Highlighting.add? line cursor) h = some h' ∧
      h'.Shows done' shown' ∧ h'.reached = (bytesOf done').length ∧ Adds h shown ts h' shown' ∧
      line.toList = done' ++ gap ∧ ∀ c ∈ gap, isSkipped c = true := by
  induction ts generalizing h done shown rest with
  | nil =>
    exact ⟨h, shown, done, rest, rfl, hs, hreached, .refl, hline,
      Scanner.isSkipped_of_tokens_eq_nil htokens⟩
  | cons t ts ih =>
    obtain ⟨gap, behind, rfl, hgap, hspan, hbehind⟩ := Scanner.split_of_tokens_eq_cons htokens
    rw [← Position.advanceOver_append, ← Position.advanceOver_append, ← List.append_assoc] at hspan
    obtain ⟨h₁, shown₁, hadd, hs₁, hreached₁, hadds₁⟩ := hs.add? hreached hline hgap hspan cursor
    have hbehindLine : line.toList = done ++ gap ++ t.text.toList ++ behind := by
      rw [hline, List.append_assoc, List.append_assoc]
    obtain ⟨h', shown', done', gap', hrun, hs', hreached', hadds, hline', hgap'⟩ :=
      ih hs₁ hreached₁ hbehindLine
        (by rw [List.append_assoc, Position.advanceOver_append, hbehind])
    refine ⟨h', shown', done', gap', ?_, hs', hreached', hadds₁.trans hadds, hline', hgap'⟩
    rw [List.foldlM_cons, hadd]
    exact hrun

end Highlighting

/-! ## Whole lines -/

/-- Every line is shown in pieces that make it up, and the closing brackets that close nothing are
red. -/
theorem exists_highlighted (line : String) (cursor : Nat) :
    ∃ shown : Showing, highlightPieces? line cursor = some (shown.map Showing.piece).toArray ∧
      (∀ q ∈ shown, q.2 ∈ q.1.paints) ∧ Part.Tiles line.toList shown.parts ∧
      shown.tokens = tokenize line ∧ shown.reds = strays [] (tokenize line) ∧
      (strays [] (tokenize line) = [] → shown.Sound) := by
  have hempty : Highlighting.Shows {} [] [] :=
    ⟨rfl, .nil, by simp, by simp, List.Pairwise.nil⟩
  obtain ⟨h, shown, done, gap, hrun, hs, hreached, hadds, hline, hgap⟩ :=
    hempty.foldlM cursor rfl (List.nil_append _).symm (rfl : _ = tokenize line)
  have hend : line.toList = done ++ (gap ++ []) := by rw [hline, List.append_nil]
  -- Behind the last token there are only blanks.
  obtain ⟨h', shown', hskip, hs', hadds'⟩ := hs.skipTo hreached hend hgap
  have hsize : line.utf8ByteSize = (bytesOf (done ++ gap)).length := by
    rw [← hline, length_bytesOf, String.ofList_toList]
  have hall := hadds.trans hadds'
  rw [List.append_nil] at hall
  refine ⟨shown', ?_, hs'.paints, hline ▸ hs'.tiles, hall.tokens, hall.reds,
    fun hnone => hall.sound hnone nofun⟩
  rw [highlightPieces?, hrun]
  show (h.skipTo? line line.utf8ByteSize).bind _ = _
  rw [hsize, hskip, ← hs'.pieces]
  rfl

/-- **Highlighting leaves the text as it is.** Wherever the cursor is, a line is cut into its tokens
and the blanks between them, and no cut is inside of a character. The pieces are shown in their
order, each as it is or with the terminal codes of one paint around it. -/
theorem highlight_keeps_text (line : String) (cursor : Nat) :
    ∃ shown : List (Part × Option Paint),
      highlightPieces? line cursor =
        some (shown.map fun q => ⟨q.1.text, q.2.toList⟩).toArray ∧
      String.join (shown.map fun q => q.1.text) = line ∧
      shown.filterMap (fun q => q.1.token?) = tokenize line ∧
      (∀ q ∈ shown, q.2 ∈ q.1.paints) ∧
      (∀ q ∈ shown, ∀ paint, q.2 = some paint →
        paint.code ∈ ["32", "90", "35", "34", "1;34", "31", "1;31"]) ∧
      highlight line cursor = String.join (shown.map fun q =>
        match q.2 with
        | none => q.1.text
        | some paint => "\x1b[" ++ paint.code ++ "m" ++ q.1.text ++ "\x1b[0m") := by
  obtain ⟨shown, hpieces, hpaints, htiles, htokens, -⟩ := exists_highlighted line cursor
  refine ⟨shown, hpieces, ?_, ?_, hpaints, ?_, ?_⟩
  · have htext := htiles.text_eq
    rwa [Showing.parts, List.map_map, String.ofList_toList] at htext
  · rwa [Showing.tokens, Showing.parts, List.filterMap_map] at htokens
  · rintro q - paint -
    cases paint <;> decide
  · rw [highlight, hpieces]
    show String.join (List.map _ (shown.map _)) = _
    rw [List.map_map]
    refine congrArg String.join (List.map_congr_left fun q _ => ?_)
    obtain ⟨part, paint⟩ := q
    cases paint <;> rfl

end Lisp
