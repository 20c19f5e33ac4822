import Mathlib
import Lisp.Proofs.Decimal.Integer
import Lisp.Proofs.Token.Quoted
import Lisp.Proofs.Token.Tiling

/-!
# Tokens are the longest matches of their patterns

The words of the language are given by patterns: a regular language for each class of tokens, where
a string goes on after its quote to where it is closed or cut short.

- `Pattern.language`, `Pattern.Matches`: the patterns, and the texts that they match.
- `Lexeme.scan_of_matches`: a text that a pattern matches is one token on its own, and
  `Lexeme.text_scan_prefix`: what is a token on its own begins the token of any longer text. So no
  pattern matches more than the scanner takes.
- `Pattern.exists_matches`: what the scanner takes is matched by a pattern.
- `tokenize_longest`: each token of a text is the longest match at its place.
-/

namespace Lisp

open scoped Computability

/-! ## Languages -/

/-- The texts of one character of a class. -/
def oneOf (p : Char → Bool) : Language Char := {w | ∃ c, p c = true ∧ w = [c]}

/-- A single text. -/
def exactly (w : List Char) : Language Char := {w}

section Languages

variable {p : Char → Bool} {v w : List Char} {l : Language Char}

theorem mem_exactly_mul : w ∈ exactly v * l ↔ ∃ u ∈ l, w = v ++ u := by
  rw [Language.mem_mul]
  constructor
  · rintro ⟨_, rfl, u, hu, rfl⟩
    exact ⟨u, hu, rfl⟩
  · rintro ⟨u, hu, rfl⟩
    exact ⟨v, rfl, u, hu, rfl⟩

theorem mem_oneOf_mul : w ∈ oneOf p * l ↔ ∃ c, p c = true ∧ ∃ u ∈ l, w = c :: u := by
  rw [Language.mem_mul]
  constructor
  · rintro ⟨_, ⟨c, hc, rfl⟩, u, hu, rfl⟩
    exact ⟨c, hc, u, hu, rfl⟩
  · rintro ⟨c, hc, u, hu, rfl⟩
    exact ⟨[c], ⟨c, hc, rfl⟩, u, hu, rfl⟩

/-- Characters of a class, as many as there are. -/
theorem mem_kstar_oneOf : w ∈ (oneOf p)∗ ↔ ∀ c ∈ w, p c = true := by
  rw [Language.mem_kstar]
  constructor
  · rintro ⟨ws, rfl, hws⟩ c hc
    obtain ⟨u, hu, hc⟩ := List.mem_flatten.1 hc
    obtain ⟨d, hd, rfl⟩ := hws u hu
    rw [List.mem_singleton.1 hc]
    exact hd
  · intro hw
    refine ⟨w.map fun c => [c], (List.flatMap_singleton' w).symm, fun u hu => ?_⟩
    obtain ⟨c, hc, rfl⟩ := List.mem_map.1 hu
    exact ⟨c, hw c hc, rfl⟩

end Languages

/-! ## Patterns -/

/-- The characters that a symbol begins with. A minus is none of them, for a digit may follow. -/
def isInitial (c : Char) : Bool :=
  isWord c && !(c.isDigit ||
    ['\x22', '\x27', ';', ':', '\x60', '~', '^', '@', '-'].contains c)

/-- Digits, and maybe a minus before them. -/
def numeral : Language Char :=
  (1 + exactly ['-']) * (oneOf Char.isDigit * (oneOf Char.isDigit)∗)

/-- A text with which a string goes on, after another part of it: it stays on its line, and each
quote in it is escaped, since the backslashes before the quote do not pair up. -/
structure GoesOn (before body : List Char) : Prop where
  line : '\n' ∉ body
  escaped : ∀ front behind, body = front ++ '\x22' :: behind →
    Quoted.endsUnescaped (before ++ front) = false

/-- What a string has after its opening quote, and the text behind it: the string is closed by the
first quote that is not escaped, or is cut short by the end of the line or of the text. -/
inductive StringTail : List Char → List Char → Prop
  | closed {body behind : List Char} : GoesOn [] body → Quoted.endsUnescaped body = true →
      StringTail (body ++ ['\x22']) behind
  | cut {body behind : List Char} : GoesOn [] body → Stops (· != '\n') behind →
      StringTail body behind

/-- The patterns of tokens. -/
inductive Pattern where
  | comment
  | opening (bracket : Bracket)
  | closing (bracket : Bracket)
  | shorthand (mark : Shorthand)
  | int
  | float
  | string
  | keyword
  | symbol
  deriving DecidableEq, Repr

namespace Pattern

/-- The regular language of a pattern. For a string it is only the quote that begins it. -/
def language : Pattern → Language Char
  | comment => exactly [';'] * (oneOf (· != '\n'))∗
  | opening b => exactly [b.opener]
  | closing b => exactly [b.closer]
  | shorthand m => exactly m.mark.toList
  | int => numeral
  | float => numeral * (exactly ['.'] * (oneOf Char.isDigit)∗)
  | string => exactly ['\x22']
  | keyword => exactly [':'] * (oneOf isWord)∗
  | symbol =>
    oneOf isInitial * (oneOf isWord)∗ +
      exactly ['-'] * (1 + oneOf (fun c => isWord c && !c.isDigit) * (oneOf isWord)∗)

/-- A pattern matches a text that another text follows. Only a string depends on what follows. -/
def Matches : Pattern → List Char → List Char → Prop
  | string, text, behind =>
    ∃ quote ∈ language string, ∃ tail, text = quote ++ tail ∧ StringTail tail behind
  | p, text, _ => text ∈ p.language

/-- The class of a text that a pattern matches. -/
def kind : Pattern → List Char → Token.Kind
  | comment, _ => .comment
  | opening b, _ => .opening b
  | closing b, _ => .closing b
  | shorthand m, _ => .shorthand m
  | int, _ => .literal .int
  | float, _ => .literal .float
  | string, _ => .literal .string
  | keyword, _ => .literal .keyword
  | symbol, text => Lexeme.wordKind text

/-- A token of a class has the longest text that a pattern matches, or a character with which no
such text begins. -/
structure Munch (kind : Token.Kind) (text behind : List Char) : Prop where
  /-- No pattern matches more. -/
  longest : ∀ p w after, w ++ after = text ++ behind → Matches p w after →
    w.length ≤ text.length
  /-- One pattern matches the text, and no other does. -/
  matched : kind ≠ .illegal → ∃ p, p.Matches text behind ∧ kind = p.kind text ∧
    ∀ q : Pattern, q.Matches text behind → q = p
  /-- A string goes on to where it is closed or cut short. -/
  string : kind = .literal .string → ∃ tail, text = '\x22' :: tail ∧ StringTail tail behind
  illegal_iff : kind = .illegal ↔
    ∀ (p : Pattern) (w after : List Char), w ++ after = text ++ behind → ¬p.Matches w after
  illegal : kind = .illegal → ∃ c, text = [c] ∧ isControl c = true ∧ isSkipped c = false

/-! ## Membership -/

section Membership

variable {w behind : List Char}

theorem mem_numeral : w ∈ numeral ↔
    ∃ ds, ds ≠ [] ∧ (∀ d ∈ ds, d.isDigit = true) ∧ (w = ds ∨ w = '-' :: ds) := by
  rw [numeral, Language.mem_mul]
  constructor
  · rintro ⟨sign, hsign, ds, hds, rfl⟩
    obtain ⟨d, hd, es, hes, rfl⟩ := mem_oneOf_mul.1 hds
    refine ⟨d :: es, List.cons_ne_nil d es, ?_, ?_⟩
    · exact List.forall_mem_cons.2 ⟨hd, mem_kstar_oneOf.1 hes⟩
    · rcases hsign with rfl | rfl
      · exact .inl rfl
      · exact .inr rfl
  · rintro ⟨ds, hne, hds, hw⟩
    obtain ⟨d, es, rfl⟩ := List.exists_cons_of_ne_nil hne
    obtain ⟨hd, hes⟩ := List.forall_mem_cons.1 hds
    have hmem : d :: es ∈ oneOf Char.isDigit * (oneOf Char.isDigit)∗ :=
      mem_oneOf_mul.2 ⟨d, hd, es, mem_kstar_oneOf.2 hes, rfl⟩
    rcases hw with rfl | rfl
    · exact ⟨[], .inl rfl, d :: es, hmem, rfl⟩
    · exact ⟨['-'], .inr rfl, d :: es, hmem, rfl⟩

theorem mem_symbol : w ∈ language symbol ↔
    (∃ c t, w = c :: t ∧ isInitial c = true ∧ ∀ d ∈ t, isWord d = true) ∨
    ∃ t, w = '-' :: t ∧ (∀ d ∈ t, isWord d = true) ∧ Stops Char.isDigit t := by
  rw [language, Language.mem_add, mem_oneOf_mul, mem_exactly_mul]
  refine or_congr ?_ ?_
  · constructor
    · rintro ⟨c, hc, t, ht, rfl⟩
      exact ⟨c, t, rfl, hc, mem_kstar_oneOf.1 ht⟩
    · rintro ⟨c, t, rfl, hc, ht⟩
      exact ⟨c, hc, t, mem_kstar_oneOf.2 ht, rfl⟩
  · constructor
    · rintro ⟨t, ht | ht, rfl⟩
      · obtain rfl := (Language.mem_one t).1 ht
        exact ⟨[], rfl, nofun, .nil _⟩
      · obtain ⟨d, hd, u, hu, rfl⟩ := mem_oneOf_mul.1 ht
        obtain ⟨hword, hdigit⟩ : isWord d = true ∧ d.isDigit = false := by simpa using hd
        exact ⟨d :: u, rfl, List.forall_mem_cons.2 ⟨hword, mem_kstar_oneOf.1 hu⟩, .cons hdigit _⟩
    · rintro ⟨t, rfl, ht, hstop⟩
      refine ⟨t, ?_, rfl⟩
      cases t with
      | nil => exact .inl ((Language.mem_one _).2 rfl)
      | cons d u =>
        obtain ⟨hd, hu⟩ := List.forall_mem_cons.1 ht
        exact .inr (mem_oneOf_mul.2 ⟨d, by simp [hd, hstop d rfl], u, mem_kstar_oneOf.2 hu, rfl⟩)

theorem matches_string :
    Matches string w behind ↔ ∃ tail, w = '\x22' :: tail ∧ StringTail tail behind := by
  constructor
  · rintro ⟨_, rfl, tail, rfl, htail⟩
    exact ⟨tail, rfl, htail⟩
  · rintro ⟨tail, rfl, htail⟩
    exact ⟨_, rfl, tail, rfl, htail⟩

end Membership

end Pattern

/-! ## Strings -/

theorem Quoted.endsUnescaped_backslash (cs : List Char) :
    endsUnescaped (cs ++ ['\\']) = !endsUnescaped cs := by
  have hrun : ((cs ++ ['\\']).reverse.takeWhile (· == '\\')).length =
      (cs.reverse.takeWhile (· == '\\')).length + 1 := by simp
  rw [endsUnescaped, endsUnescaped, hrun]
  rcases Nat.mod_two_eq_zero_or_one (cs.reverse.takeWhile (· == '\\')).length with h | h
  · simp [Nat.add_mod, h]
  · simp [Nat.add_mod, h]

namespace GoesOn

variable {before body : List Char} {c : Char}

theorem head_ne_line (h : GoesOn before (c :: body)) : c ≠ '\n' :=
  fun hc => h.line (by simp [hc])

/-- The next character is no quote, unless it is escaped. -/
theorem head_ne_closing (h : GoesOn before (c :: body)) :
    ¬(c = '\x22' ∧ (!Quoted.endsUnescaped before) = false) := by
  rintro ⟨rfl, hunescaped⟩
  have hescaped := h.escaped [] body rfl
  rw [List.append_nil] at hescaped
  rw [hescaped] at hunescaped
  cases hunescaped

theorem tail (h : GoesOn before (c :: body)) : GoesOn (before ++ [c]) body := by
  refine ⟨fun hmem => h.line (List.mem_cons_of_mem c hmem), fun front behind heq => ?_⟩
  rw [List.append_assoc]
  exact h.escaped (c :: front) behind (by rw [heq]; rfl)

end GoesOn

namespace Lexeme

open Quoted (endsUnescaped)

variable {c : Char} {cs t rest : List Char}

/-- Whether the next character is escaped: it is if the backslashes before it do not pair up. -/
theorem escaped_next (before : List Char) (c : Char) :
    (c == '\\' && !!endsUnescaped before) = !endsUnescaped (before ++ [c]) := by
  by_cases hc : c = '\\'
  · subst hc
    rw [Quoted.endsUnescaped_backslash]
    simp
  · rw [Quoted.endsUnescaped_concat before hc]
    simp [hc]

/-- The scan of a string goes on through what a string goes on with. -/
theorem string_of_goesOn {before body : List Char} (h : GoesOn before body) (rest : List Char) :
    string (!endsUnescaped before) (body ++ rest) =
      (body ++ (string (!endsUnescaped (before ++ body)) rest).1,
        (string (!endsUnescaped (before ++ body)) rest).2) := by
  induction body generalizing before with
  | nil => simp
  | cons c body ih =>
    rw [List.cons_append, string, if_neg h.head_ne_line, if_neg h.head_ne_closing, escaped_next,
      ih h.tail, List.append_assoc]
    rfl

/-- The scan of a string ends at the first quote that is not escaped, or where it is cut short. -/
theorem exists_goesOn_string (before cs : List Char) :
    ∃ body rest, GoesOn before body ∧
      ((string (!endsUnescaped before) cs = (body ++ ['\x22'], rest) ∧
          endsUnescaped (before ++ body) = true) ∨
        (string (!endsUnescaped before) cs = (body, rest) ∧ Stops (· != '\n') rest)) := by
  have hnothing : ∀ before, GoesOn before [] :=
    fun _ => ⟨nofun, fun front behind heq => by simp at heq⟩
  induction cs generalizing before with
  | nil => exact ⟨[], [], hnothing before, .inr ⟨rfl, .nil _⟩⟩
  | cons c cs ih =>
    by_cases hline : c = '\n'
    · subst hline
      exact ⟨[], '\n' :: cs, hnothing before, .inr ⟨by simp [string], .cons (by decide) cs⟩⟩
    by_cases hquote : c = '\x22' ∧ (!endsUnescaped before) = false
    · refine ⟨[], cs, hnothing before, .inl ⟨?_, ?_⟩⟩
      · rw [string, if_neg hline, if_pos hquote, hquote.1]
        rfl
      · simpa using hquote.2
    · obtain ⟨body, rest, hbody, hends⟩ := ih (before ++ [c])
      have hgoes : GoesOn before (c :: body) := by
        constructor
        case line =>
          intro hmem
          rcases List.mem_cons.1 hmem with heq | hmem
          · exact hline heq.symm
          · exact hbody.line hmem
        case escaped =>
          intro front behind heq
          cases front with
          | nil =>
            obtain ⟨rfl, -⟩ := List.cons.inj heq
            rw [List.append_nil]
            simpa using hquote
          | cons d front =>
            obtain ⟨rfl, hrest⟩ := List.cons.inj heq
            have := hbody.escaped front behind hrest
            rwa [List.append_assoc] at this
      have hstep : string (!endsUnescaped before) (c :: cs) =
          (c :: (string (!endsUnescaped (before ++ [c])) cs).1,
            (string (!endsUnescaped (before ++ [c])) cs).2) := by
        rw [string, if_neg hline, if_neg hquote, escaped_next]
      refine ⟨c :: body, rest, hgoes, ?_⟩
      rw [List.append_assoc] at hends
      rcases hends with ⟨hscan, hclosed⟩ | ⟨hscan, hcut⟩
      · refine .inl ⟨?_, hclosed⟩
        rw [hstep, hscan]
        rfl
      · refine .inr ⟨?_, hcut⟩
        rw [hstep, hscan]

/-- What the scan of a string takes is what a string has after its opening quote. -/
theorem stringTail_string (cs : List Char) :
    StringTail (string false cs).1 (string false cs).2 := by
  obtain ⟨body, rest, hbody, ⟨hscan, hclosed⟩ | ⟨hscan, hcut⟩⟩ := exists_goesOn_string [] cs
  · rw [show string false cs = _ from hscan]
    exact .closed hbody hclosed
  · rw [show string false cs = _ from hscan]
    exact .cut hbody hcut

/-- A string is scanned on its own, whatever followed it. -/
theorem string_of_stringTail {tail behind : List Char} (h : StringTail tail behind) :
    string false tail = (tail, []) := by
  cases h with
  | @closed body behind hbody hclosed =>
    have hscan := string_of_goesOn hbody ['\x22']
    rw [List.nil_append, hclosed] at hscan
    exact hscan
  | cut hbody _ =>
    have hscan := string_of_goesOn hbody []
    rw [List.append_nil] at hscan
    rw [show string false tail = _ from hscan]
    simp [string]

/-! ## What a pattern matches is scanned -/

theorem run_self {kind : Token.Kind} {p : Char → Bool} (c : Char) (ht : ∀ d ∈ t, p d = true) :
    run kind p c t = ⟨kind, c :: t, []⟩ := by
  rw [run, List.takeWhile_eq_self_iff.2 ht, List.dropWhile_eq_nil_iff.2 ht]

theorem word_self (c : Char) (ht : ∀ d ∈ t, isWord d = true) :
    word c t = ⟨wordKind (c :: t), c :: t, []⟩ := by
  rw [word, List.takeWhile_eq_self_iff.2 ht, List.dropWhile_eq_nil_iff.2 ht]

/-- A character that a symbol begins with begins nothing else. -/
theorem isPlain_of_isInitial (hc : isInitial c = true) : IsPlain c := by
  have hne : ∀ d, isInitial d = false → c ≠ d := by
    rintro d hd rfl
    rw [hc] at hd
    cases hd
  refine ⟨?_, hne _ (by decide), hne _ (by decide), hne _ (by decide), hne _ (by decide)⟩
  cases hsingle : single? c with
  | none => rfl
  | some kind =>
    obtain ⟨before, after, hs, -⟩ := List.lookup_eq_some_iff.1 hsingle
    have hmem : (c, kind) ∈ singles := by simp [hs]
    have hall : ∀ p ∈ singles, isInitial p.1 = false := by decide
    exact absurd rfl (hne c (hall _ hmem))

theorem isControl_of_isWord (hc : isWord c = true) : isControl c = false := by
  simp only [isWord, Bool.not_eq_true', Bool.or_eq_false_iff] at hc
  exact hc.2

/-- Digits with a point after them are a float, with any digits after the point. -/
theorem number_of_point {ds es : List Char} (hds : ∀ d ∈ ds, d.isDigit = true)
    (hes : ∀ d ∈ es, d.isDigit = true) :
    number c (ds ++ '.' :: es) = ⟨.literal .float, c :: (ds ++ '.' :: es), []⟩ := by
  have hpoint : Stops Char.isDigit ('.' :: es) := .cons (by decide) es
  rw [number, Stops.dropWhile_append hds hpoint]
  show Lexeme.mk _ _ _ = _
  rw [Stops.takeWhile_append hds hpoint, List.takeWhile_eq_self_iff.2 hes,
    List.dropWhile_eq_nil_iff.2 hes]

/-- Digits, maybe after a minus, begin a number. -/
theorem scan_of_numeral {w u : List Char} (hw : w ∈ numeral) (h : w ++ u = c :: t) :
    scan c t = number c t ∧ ∃ ds, (∀ d ∈ ds, d.isDigit = true) ∧ t = ds ++ u := by
  obtain ⟨ds, hne, hds, rfl | rfl⟩ := Pattern.mem_numeral.1 hw
  · obtain ⟨d, ds, rfl⟩ := List.exists_cons_of_ne_nil hne
    obtain ⟨rfl, rfl⟩ := List.cons.inj h
    obtain ⟨hd, hds⟩ := List.forall_mem_cons.1 hds
    exact ⟨by rw [scan_plain (isPlain_of_isDigit hd), if_pos (by simp [hd])], ds, hds, rfl⟩
  · obtain ⟨d, ds', rfl⟩ := List.exists_cons_of_ne_nil hne
    obtain ⟨rfl, rfl⟩ := List.cons.inj h
    have hd := hds d List.mem_cons_self
    exact ⟨by rw [scan_plain isPlain_minus, if_pos (by simp [hd])], d :: ds', hds, rfl⟩

/-- A text that a pattern matches is a token of its class on its own. -/
theorem scan_of_matches {p : Pattern} {behind : List Char} (h : p.Matches (c :: t) behind) :
    scan c t = ⟨p.kind (c :: t), c :: t, []⟩ := by
  cases p with
  | comment =>
    obtain ⟨u, hu, heq⟩ := mem_exactly_mul.1 h
    cases heq
    exact run_self ';' (mem_kstar_oneOf.1 hu)
  | opening b =>
    cases b <;> cases h <;> rfl
  | closing b =>
    cases b <;> cases h <;> rfl
  | shorthand m =>
    cases m <;> cases h <;> rfl
  | int =>
    obtain ⟨hscan, ds, hds, rfl⟩ := scan_of_numeral (u := []) h (List.append_nil _)
    rw [hscan, number_of_digits hds (.nil _), List.append_nil]
    rfl
  | float =>
    obtain ⟨w, hw, u, hu, heq⟩ := (Language.mem_mul).1 h
    obtain ⟨es, hes, rfl⟩ := mem_exactly_mul.1 hu
    obtain ⟨hscan, ds, hds, rfl⟩ := scan_of_numeral hw heq
    rw [hscan]
    exact number_of_point hds (mem_kstar_oneOf.1 hes)
  | string =>
    obtain ⟨tail, heq, htail⟩ := Pattern.matches_string.1 h
    cases heq
    show Lexeme.mk _ _ _ = _
    rw [string_of_stringTail htail]
    rfl
  | keyword =>
    obtain ⟨u, hu, heq⟩ := mem_exactly_mul.1 h
    cases heq
    exact run_self ':' (mem_kstar_oneOf.1 hu)
  | symbol =>
    rcases Pattern.mem_symbol.1 h with ⟨c, t, heq, hc, ht⟩ | ⟨t, heq, ht, hdigit⟩
    · cases heq
      obtain ⟨hword, hdigit, hminus⟩ :
          isWord c = true ∧ c.isDigit = false ∧ c ≠ '-' := by
        simp only [isInitial, Bool.and_eq_true, Bool.not_eq_true', Bool.or_eq_false_iff] at hc
        refine ⟨hc.1, hc.2.1, ?_⟩
        rintro rfl
        exact absurd hc.2.2 (by decide)
      rw [scan_plain (isPlain_of_isInitial hc), hdigit, if_neg (by simp [hminus]),
        if_neg (by simp [isControl_of_isWord hword])]
      exact word_self c ht
    · cases heq
      have hhead : t.head?.any Char.isDigit = false := by
        cases t with
        | nil => rfl
        | cons d t => exact hdigit d rfl
      rw [scan_plain isPlain_minus, if_neg (by simp [hhead]), if_neg (by decide)]
      exact word_self '-' ht

/-! ## A longer text has a longer token -/

theorem takeWhile_prefix_append (p : Char → Bool) (cs rest : List Char) :
    cs.takeWhile p <+: (cs ++ rest).takeWhile p := by
  rw [List.takeWhile_append]
  split
  next hall =>
    have hself : cs.takeWhile p = cs := (List.takeWhile_prefix p).eq_of_length hall
    rw [hself]
    exact List.prefix_append _ _
  next => exact List.prefix_refl _

/-- A number begins with its digits. -/
theorem digits_prefix_number (c : Char) (cs : List Char) :
    c :: cs.takeWhile Char.isDigit <+: (number c cs).text := by
  unfold number
  split
  · exact ⟨_, rfl⟩
  · exact List.prefix_refl _

theorem number_prefix (c : Char) (cs rest : List Char) :
    (number c cs).text <+: (number c (cs ++ rest)).text := by
  have hdigits : ∀ d ∈ cs.takeWhile Char.isDigit, d.isDigit = true :=
    fun _ => List.mem_takeWhile_imp
  have hsplit := List.takeWhile_append_dropWhile (p := Char.isDigit) (l := cs)
  unfold number
  split
  next after hdrop =>
    -- The point is still there, and more digits may follow it.
    have hpoint : Stops Char.isDigit ('.' :: (after ++ rest)) := .cons (by decide) _
    have hlonger : cs ++ rest = cs.takeWhile Char.isDigit ++ '.' :: (after ++ rest) := by
      conv_lhs => rw [← hsplit, hdrop]
      simp
    rw [hlonger, Stops.dropWhile_append hdigits hpoint]
    show _ <+: c :: _
    rw [Stops.takeWhile_append hdigits hpoint, List.cons_prefix_cons]
    refine ⟨rfl, (List.prefix_append_right_inj _).2 ?_⟩
    rw [List.cons_prefix_cons]
    exact ⟨rfl, takeWhile_prefix_append _ _ _⟩
  next =>
    refine List.IsPrefix.trans ?_ (digits_prefix_number c (cs ++ rest))
    rw [List.cons_prefix_cons]
    exact ⟨rfl, takeWhile_prefix_append _ _ _⟩

theorem string_prefix (escaped : Bool) (cs rest : List Char) :
    (string escaped cs).1 <+: (string escaped (cs ++ rest)).1 := by
  fun_induction string escaped cs with
  | case1 => exact List.nil_prefix
  | case2 => exact List.nil_prefix
  | case3 escaped c cs hc hquote => simp [string, hquote]
  | case4 escaped c cs hc hquote text after hscan ih =>
    rw [List.cons_append, string, if_neg hc, if_neg hquote]
    rw [hscan] at ih
    exact List.cons_prefix_cons.2 ⟨rfl, ih⟩

theorem tilde_text (cs : List Char) :
    (scan '~' cs).text = if cs.head? = some '@' then ['~', '@'] else ['~'] := by
  have hsingle : single? '~' = none := by decide
  unfold scan
  simp only [hsingle, if_pos]
  split
  · rfl
  next hat =>
    rw [if_neg]
    intro hhead
    obtain ⟨rest, hrest⟩ := List.head?_eq_some_iff.1 hhead
    exact hat rest hrest

theorem plain_prefix (hc : IsPlain c) (d : Char) (cs rest : List Char) :
    (scan c (d :: cs)).text <+: (scan c (d :: (cs ++ rest))).text := by
  -- Whether a number begins here is seen from the next character.
  rw [scan_plain hc (d :: cs), scan_plain hc (d :: (cs ++ rest)), List.head?_cons, List.head?_cons]
  split
  · exact number_prefix c (d :: cs) rest
  split
  · exact List.prefix_refl _
  · exact List.cons_prefix_cons.2 ⟨rfl, takeWhile_prefix_append isWord (d :: cs) rest⟩

/-- The token of a text begins the token of any longer text. -/
theorem text_scan_prefix (c : Char) (cs rest : List Char) :
    (scan c cs).text <+: (scan c (cs ++ rest)).text := by
  cases cs with
  | nil =>
    obtain ⟨t, ht, hsplit⟩ := scan_split c []
    obtain ⟨u, hu, -⟩ := scan_split c ([] ++ rest)
    rw [ht, hu, (List.append_eq_nil_iff.1 hsplit).1]
    exact List.cons_prefix_cons.2 ⟨rfl, List.nil_prefix⟩
  | cons d cs =>
    cases hsingle : single? c with
    | some kind =>
      have hscan : ∀ cs, (scan c cs).text = [c] := fun cs => by simp only [scan, hsingle]
      rw [hscan, hscan]
    | none =>
      by_cases htilde : c = '~'
      · subst htilde
        rw [tilde_text, tilde_text]
        exact List.prefix_refl _
      by_cases hcomment : c = ';'
      · subst hcomment
        exact List.cons_prefix_cons.2 ⟨rfl, takeWhile_prefix_append _ _ _⟩
      by_cases hquote : c = '\x22'
      · subst hquote
        exact List.cons_prefix_cons.2 ⟨rfl, string_prefix _ _ _⟩
      by_cases hcolon : c = ':'
      · subst hcolon
        exact List.cons_prefix_cons.2 ⟨rfl, takeWhile_prefix_append _ _ _⟩
      exact plain_prefix ⟨hsingle, htilde, hcomment, hquote, hcolon⟩ d cs rest

end Lexeme

/-! ## What is scanned is matched -/

namespace Pattern

open Lexeme

variable {c : Char} {cs : List Char}

/-- A number is matched by the pattern of its class. -/
theorem exists_matches_number
    (h : (c.isDigit || (c = '-' && (cs.head?.any Char.isDigit))) = true) (behind : List Char) :
    ∃ p : Pattern, p.Matches (number c cs).text behind ∧
      (number c cs).kind = p.kind (number c cs).text := by
  have hdigits : ∀ d ∈ cs.takeWhile Char.isDigit, d.isDigit = true :=
    fun _ => List.mem_takeWhile_imp
  have hwhole : c :: cs.takeWhile Char.isDigit ∈ numeral := by
    rw [mem_numeral]
    rcases Bool.or_eq_true_iff.1 h with hc | hminus
    · exact ⟨_, List.cons_ne_nil _ _, List.forall_mem_cons.2 ⟨hc, hdigits⟩, .inl rfl⟩
    · obtain ⟨hc, hhead⟩ := Bool.and_eq_true_iff.1 hminus
      obtain rfl := of_decide_eq_true hc
      refine ⟨_, ?_, hdigits, .inr rfl⟩
      cases cs with
      | nil => cases hhead
      | cons d cs =>
        rw [List.takeWhile_cons, if_pos (show d.isDigit = true from hhead)]
        exact List.cons_ne_nil _ _
  unfold number
  split
  next after _ =>
    refine ⟨float, (Language.mem_mul).2 ⟨_, hwhole, '.' :: after.takeWhile Char.isDigit, ?_, rfl⟩,
      rfl⟩
    exact mem_exactly_mul.2 ⟨_, mem_kstar_oneOf.2 fun _ => List.mem_takeWhile_imp, rfl⟩
  next => exact ⟨int, hwhole, rfl⟩

theorem isInitial_of_isPlain (hc : IsPlain c) (hskipped : isSkipped c = false)
    (hcontrol : isControl c = false) (hdigit : c.isDigit = false) (hminus : c ≠ '-') :
    isInitial c = true := by
  have hsingles : ∀ q ∈ singles, c ≠ q.1 := by
    intro q hq
    exact bne_iff_ne.1 (List.lookup_eq_none_iff.1 hc.single q hq)
  simp only [singles, List.forall_mem_cons] at hsingles
  have hblank : c ≠ ' ' ∧ c ≠ ',' := by
    constructor
    · rintro rfl
      exact absurd hskipped (by decide)
    · rintro rfl
      exact absurd hskipped (by decide)
  have hword : isWord c = true := by simp [isWord, isBracket, hcontrol, hblank, hsingles]
  simp [isInitial, hword, hdigit, hminus, hc.tilde, hc.comment, hc.quote, hc.colon, hsingles]

/-- A word is matched by the pattern of symbols. -/
theorem matches_word (hc : IsPlain c) (hskipped : isSkipped c = false)
    (hcontrol : isControl c = false)
    (hnumber : (c.isDigit || (c = '-' && (cs.head?.any Char.isDigit))) = false)
    (behind : List Char) : symbol.Matches (word c cs).text behind := by
  have hrest : ∀ d ∈ cs.takeWhile isWord, isWord d = true := fun _ => List.mem_takeWhile_imp
  obtain ⟨hdigit, hsign⟩ := Bool.or_eq_false_iff.1 hnumber
  refine mem_symbol.2 ?_
  by_cases hminus : c = '-'
  · subst hminus
    refine .inr ⟨_, rfl, hrest, ?_⟩
    cases cs with
    | nil => exact .nil _
    | cons d cs =>
      have hd : d.isDigit = false := by simpa using hsign
      intro e he
      rw [List.takeWhile_cons] at he
      split at he
      · cases he
        exact hd
      · cases he
  · exact .inl ⟨c, _, rfl, isInitial_of_isPlain hc hskipped hcontrol hdigit hminus, hrest⟩

/-- A character that is a token on its own is matched. -/
theorem exists_matches_single {kind : Token.Kind} (h : single? c = some kind)
    (behind : List Char) : ∃ p : Pattern, p.Matches [c] behind ∧ kind = p.kind [c] := by
  obtain ⟨before, after, hs, -⟩ := List.lookup_eq_some_iff.1 h
  have hmem : (c, kind) ∈ singles := by simp [hs]
  simp only [singles, List.mem_cons, Prod.mk.injEq, List.not_mem_nil, or_false] at hmem
  rcases hmem with ⟨rfl, rfl⟩ | ⟨rfl, rfl⟩ | ⟨rfl, rfl⟩ | ⟨rfl, rfl⟩ | ⟨rfl, rfl⟩ | ⟨rfl, rfl⟩ |
    ⟨rfl, rfl⟩ | ⟨rfl, rfl⟩ | ⟨rfl, rfl⟩ | ⟨rfl, rfl⟩
  · exact ⟨opening .paren, rfl, rfl⟩
  · exact ⟨closing .paren, rfl, rfl⟩
  · exact ⟨opening .square, rfl, rfl⟩
  · exact ⟨closing .square, rfl, rfl⟩
  · exact ⟨opening .brace, rfl, rfl⟩
  · exact ⟨closing .brace, rfl, rfl⟩
  · exact ⟨shorthand .quote, rfl, rfl⟩
  · exact ⟨shorthand .quasiquote, rfl, rfl⟩
  · exact ⟨shorthand .withMeta, rfl, rfl⟩
  · exact ⟨shorthand .deref, rfl, rfl⟩

theorem exists_matches_plain (hplain : IsPlain c) (hc : isSkipped c = false)
    (h : (scan c cs).kind ≠ .illegal) :
    ∃ p : Pattern, p.Matches (scan c cs).text (scan c cs).rest ∧
      (scan c cs).kind = p.kind (scan c cs).text := by
  rw [scan_plain hplain] at h ⊢
  split
  next hnumber => exact exists_matches_number hnumber _
  next hnumber =>
    rw [if_neg hnumber] at h
    split
    next hcontrol => exact absurd (by rw [if_pos hcontrol]) h
    next hcontrol =>
      exact ⟨symbol, matches_word hplain hc (by simpa using hcontrol) (by simpa using hnumber) _,
        rfl⟩

/-- What the scanner takes is matched by a pattern, unless it is illegal. -/
theorem exists_matches (hc : isSkipped c = false) (h : (scan c cs).kind ≠ .illegal) :
    ∃ p : Pattern, p.Matches (scan c cs).text (scan c cs).rest ∧
      (scan c cs).kind = p.kind (scan c cs).text := by
  have hrun : ∀ p : Char → Bool, cs.takeWhile p ∈ (oneOf p)∗ :=
    fun p => mem_kstar_oneOf.2 fun _ => List.mem_takeWhile_imp
  cases hsingle : single? c with
  | some kind =>
    have hscan : scan c cs = ⟨kind, [c], cs⟩ := by simp only [scan, hsingle]
    rw [hscan]
    exact exists_matches_single hsingle cs
  | none =>
    by_cases htilde : c = '~'
    · subst htilde
      unfold scan
      simp only [hsingle, if_pos]
      split
      · exact ⟨shorthand .spliceUnquote, rfl, rfl⟩
      · exact ⟨shorthand .unquote, rfl, rfl⟩
    by_cases hcomment : c = ';'
    · subst hcomment
      exact ⟨comment, mem_exactly_mul.2 ⟨_, hrun _, rfl⟩, rfl⟩
    by_cases hquote : c = '\x22'
    · subst hquote
      exact ⟨string, matches_string.2 ⟨_, rfl, stringTail_string cs⟩, rfl⟩
    by_cases hcolon : c = ':'
    · subst hcolon
      exact ⟨keyword, mem_exactly_mul.2 ⟨_, hrun _, rfl⟩, rfl⟩
    exact exists_matches_plain ⟨hsingle, htilde, hcomment, hquote, hcolon⟩ hc h

/-- The class of a text tells which pattern matches it. -/
theorem kind_injective {p q : Pattern} {text : List Char} (h : p.kind text = q.kind text) :
    p = q := by
  have hword : ∀ {k : Token.Kind}, wordKind text = k →
      k = .symbol ∨ k = .literal .nil ∨ k = .literal .bool := by
    rintro _ rfl
    grind [wordKind]
  cases p <;> cases q <;> simp [kind] at h ⊢ <;> grind

theorem kind_ne_illegal (p : Pattern) (text : List Char) : p.kind text ≠ .illegal := by
  cases p with
  | symbol => grind [kind, wordKind]
  | _ => simp [kind]

theorem ne_nil_of_matches {p : Pattern} {w behind : List Char} (h : p.Matches w behind) :
    w ≠ [] := by
  rintro rfl
  cases p with
  | comment | keyword =>
    obtain ⟨u, -, heq⟩ := mem_exactly_mul.1 h
    cases heq
  | opening | closing => cases h
  | shorthand m => cases m <;> cases h
  | int =>
    obtain ⟨ds, hne, -, rfl | heq⟩ := mem_numeral.1 h
    · exact hne rfl
    · cases heq
  | float =>
    obtain ⟨w, -, u, hu, heq⟩ := (Language.mem_mul).1 h
    obtain ⟨es, -, rfl⟩ := mem_exactly_mul.1 hu
    simp at heq
  | string =>
    obtain ⟨tail, heq, -⟩ := matches_string.1 h
    cases heq
  | symbol =>
    rcases mem_symbol.1 h with ⟨c, t, heq, -⟩ | ⟨t, heq, -⟩
    · cases heq
    · cases heq

/-- An illegal token is a control character, and is illegal whatever follows it. -/
theorem scan_of_illegal (h : (scan c cs).kind = .illegal) :
    isControl c = true ∧ ∀ ds, scan c ds = ⟨.illegal, [c], ds⟩ := by
  have hplain : IsPlain c := by
    refine ⟨?_, ?_, ?_, ?_, ?_⟩
    · cases hsingle : single? c with
      | none => rfl
      | some kind =>
        obtain ⟨p, -, hp⟩ := exists_matches_single hsingle []
        have hkind : kind = .illegal := by simpa only [scan, hsingle] using h
        exact absurd (hp.symm.trans hkind) (kind_ne_illegal p [c])
    · rintro rfl
      unfold scan at h
      simp only [show single? '~' = none from by decide, if_pos] at h
      split at h <;> cases h
    all_goals
      rintro rfl
      cases h
  rw [scan_plain hplain] at h
  split at h
  next hnumber =>
    obtain ⟨p, -, hp⟩ := exists_matches_number hnumber []
    exact absurd (hp.symm.trans h) (kind_ne_illegal p _)
  next hnumber =>
    split at h
    next hcontrol =>
      refine ⟨hcontrol, fun ds => ?_⟩
      have hdigit : c.isDigit = false := by simp_all
      have hminus : c ≠ '-' := by
        rintro rfl
        exact absurd hcontrol (by decide)
      rw [scan_plain hplain, if_neg (by simp [hdigit, hminus]), if_pos hcontrol]
    next => exact absurd h (kind_ne_illegal symbol _)

/-- What the scanner takes is the longest match of the patterns. -/
theorem munch_scan (hc : isSkipped c = false) :
    Munch (scan c cs).kind (scan c cs).text (scan c cs).rest := by
  obtain ⟨t, htext, hsplit⟩ := scan_split c cs
  have hwhole : (scan c cs).text ++ (scan c cs).rest = c :: cs := by
    rw [htext, List.cons_append, hsplit]
  -- A text that a pattern matches begins with the same character, and is a token on its own.
  have hmatched : ∀ (p : Pattern) (w after : List Char), w ++ after = c :: cs →
      p.Matches w after → ∃ u, w = c :: u ∧ cs = u ++ after ∧ scan c u = ⟨p.kind w, w, []⟩ := by
    intro p w after heq hw
    obtain ⟨d, u, rfl⟩ := List.exists_cons_of_ne_nil (ne_nil_of_matches hw)
    obtain ⟨rfl, rfl⟩ := List.cons.inj heq
    exact ⟨u, rfl, rfl, scan_of_matches hw⟩
  have hone : ∀ p : Pattern, p.Matches (scan c cs).text (scan c cs).rest →
      (scan c t).kind = p.kind (scan c cs).text := by
    intro p hp
    obtain ⟨u, hu, -, hscan⟩ := hmatched p _ _ hwhole hp
    rw [htext] at hu
    obtain ⟨-, rfl⟩ := List.cons.inj hu
    rw [hscan]
  have hillegal : ∀ (p : Pattern) (w after : List Char), (scan c cs).kind = .illegal →
      w ++ after = c :: cs → ¬p.Matches w after := by
    intro p w after hk heq hw
    obtain ⟨u, -, -, hscan⟩ := hmatched p w after heq hw
    rw [(scan_of_illegal hk).2 u] at hscan
    exact kind_ne_illegal p w (congrArg Lexeme.kind hscan).symm
  constructor
  case longest =>
    intro p w after heq hw
    obtain ⟨u, rfl, rfl, hscan⟩ := hmatched p w after (heq.trans hwhole) hw
    have hprefix := text_scan_prefix c u after
    rw [hscan] at hprefix
    exact hprefix.length_le
  case matched =>
    intro hk
    obtain ⟨p, hp, hkind⟩ := exists_matches hc hk
    refine ⟨p, hp, hkind, fun q hq => ?_⟩
    exact kind_injective ((hone q hq).symm.trans (hone p hp))
  case string =>
    intro hk
    have hlegal : (scan c cs).kind ≠ .illegal := by
      rw [hk]
      exact nofun
    obtain ⟨p, hp, hkind⟩ := exists_matches hc hlegal
    have hp' : p = string := kind_injective (hkind.symm.trans hk)
    rw [hp'] at hp
    exact matches_string.1 hp
  case illegal_iff =>
    rw [hwhole]
    constructor
    · exact fun hk p w after => hillegal p w after hk
    · intro hnone
      by_contra hk
      obtain ⟨p, hp, -⟩ := exists_matches hc hk
      exact hnone p _ _ hwhole hp
  case illegal =>
    intro hk
    obtain ⟨hcontrol, hscan⟩ := scan_of_illegal hk
    exact ⟨c, by rw [hscan cs], hcontrol, hc⟩

end Pattern

/-! ## The tokens of a text -/

/-- **Tokens are the longest matches of their patterns.** At the place of a token, no pattern
matches more than its text. If any pattern matches there, then one and only one matches this text,
and gives the token its class; a string goes on to the first quote that is not escaped, or to where
its line or the text ends. If none does, and only then, the token is illegal, which is a control
character that is not skipped. -/
theorem tokenize_longest (source : String) (t : Token) (ht : t ∈ tokenize source) :
    ∃ before behind, source.toList = before ++ (t.text.toList ++ behind) ∧
      t.span = ⟨Position.start.advanceOver before,
        Position.start.advanceOver (before ++ t.text.toList)⟩ ∧
      Pattern.Munch t.kind t.text.toList behind := by
  obtain ⟨before, c, rest, hsource, hc, rfl⟩ := Scanner.exists_scan_of_mem_tokens ht
  obtain ⟨u, htext, hsplit⟩ := Lexeme.scan_split c rest
  refine ⟨before, (Lexeme.scan c rest).rest, ?_, ?_, ?_⟩
  · simpa [Lexeme.token, htext, hsplit] using hsource
  · simp [Lexeme.token, Position.advanceOver_append]
  · simpa [Lexeme.token] using Pattern.munch_scan hc

/-- A minus and digits, a point without digits after it, and what is glued to them. -/
theorem tokenize_longest_float :
    (⟨.literal .float, "-1.", ⟨⟨2, 1, 2⟩, ⟨5, 1, 5⟩⟩⟩ : Token) ∈ tokenize "~@-1.-x" ∧
      ∃ before behind, "~@-1.-x".toList = before ++ ("-1.".toList ++ behind) ∧
        (⟨⟨2, 1, 2⟩, ⟨5, 1, 5⟩⟩ : Span) = ⟨Position.start.advanceOver before,
          Position.start.advanceOver (before ++ "-1.".toList)⟩ ∧
        Pattern.Munch (.literal .float) "-1.".toList behind := by
  have hmem : (⟨.literal .float, "-1.", ⟨⟨2, 1, 2⟩, ⟨5, 1, 5⟩⟩⟩ : Token) ∈ tokenize "~@-1.-x" := by
    have htokens : tokenize "~@-1.-x" =
        [⟨.shorthand .spliceUnquote, "~@", ⟨⟨0, 1, 0⟩, ⟨2, 1, 2⟩⟩⟩,
          ⟨.literal .float, "-1.", ⟨⟨2, 1, 2⟩, ⟨5, 1, 5⟩⟩⟩,
          ⟨.symbol, "-x", ⟨⟨5, 1, 5⟩, ⟨7, 1, 7⟩⟩⟩] := by cbv
    rw [htokens]
    simp
  exact ⟨hmem, tokenize_longest _ _ hmem⟩

end Lisp
