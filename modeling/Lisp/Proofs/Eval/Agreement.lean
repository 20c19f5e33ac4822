import Lisp.Proofs.Eval.Equations
import Lisp.Proofs.Session.Renaming

/-!
# Actions that agree up to the names of scopes

Two runs of an action in related sessions end in the same way, with results that are names of each
other, in related sessions whose roots are those that the runs began with.

- `Eval.Agrees`: how two runs end.
- `Agrees.bind`: one action after the other.
- `agrees_lookup`, `agrees_assign`, `agrees_newScope`, `agrees_newFrame`, `agrees_callBuiltin`,
  `agrees_safePoint`: the actions that evaluation is made of.
- `agrees_entering`, `agrees_holding`: what is kept in use during an action still has a
  corresponding name after it, whatever was collected in between.
-/

namespace Lisp.Eval

open Session (SameRoots Paired)

variable {α β : Type} {s t s' t' : Session} {ρ : Renaming}

/-- Two actions end in the same way: with results that are related, or stopped by the same
cause. -/
inductive SameEnd (R : α → α → Prop) : Except Stop α → Except Stop α → Prop
  | ok {a b : α} : R a b → SameEnd R (.ok a) (.ok b)
  | stop (e : Stop) : SameEnd R (.error e) (.error e)

theorem SameEnd.mono {R R' : α → α → Prop} {p q : Except Stop α} (h : SameEnd R p q)
    (hR : ∀ a b, R a b → R' a b) : SameEnd R' p q := by
  cases h with
  | ok hab => exact .ok (hR _ _ hab)
  | stop e => exact .stop e

/-- Two runs, begun in two sessions, agree up to the names of scopes. -/
def Agrees (Q : Renaming → α → α → Prop) (s t : Session) (x y : Except Stop α × Session) : Prop :=
  ∃ ρ : Renaming, ρ.Relates x.2 y.2 ∧ s.SameRoots x.2 ∧ t.SameRoots y.2 ∧ SameEnd (Q ρ) x.1 y.1

variable {Q : Renaming → α → α → Prop} {R : Renaming → β → β → Prop}

theorem agrees_pure (hr : ρ.Relates s t) {a b : α} (hab : Q ρ a b) :
    Agrees Q s t ((pure a : Eval α) s) ((pure b : Eval α) t) :=
  ⟨ρ, hr, .refl s, .refl t, .ok hab⟩

theorem agrees_fail (hr : ρ.Relates s t) (e : EvalError) :
    Agrees Q s t ((fail e : Eval α) s) ((fail e : Eval α) t) :=
  ⟨ρ, hr, .refl s, .refl t, .stop _⟩

/-- One action after the other. The second one finds related sessions with the roots that the first
one was given. -/
theorem Agrees.bind {x y : Eval α} {g k : α → Eval β} (hx : Agrees Q s t (x s) (y t))
    (hg : ∀ (ρ : Renaming) (a b : α) (s' t' : Session), ρ.Relates s' t' → s.SameRoots s' →
      t.SameRoots t' → Q ρ a b → Agrees R s' t' (g a s') (k b t')) :
    Agrees R s t ((x >>= g) s) ((y >>= k) t) := by
  rw [bind_apply, bind_apply]
  generalize x s = p at hx
  generalize y t = q at hx
  obtain ⟨r, s'⟩ := p
  obtain ⟨r', t'⟩ := q
  obtain ⟨ρ, hr, hs, ht, hend⟩ := hx
  cases hend with
  | ok hab =>
    obtain ⟨ρ', hr', hs', ht', hend'⟩ := hg ρ _ _ s' t' hr hs ht hab
    exact ⟨ρ', hr', hs.trans hs', ht.trans ht', hend'⟩
  | stop e => exact ⟨ρ, hr, hs, ht, .stop e⟩

/-! ## What is kept in use -/

theorem sameRoots_leave {scope : Scope} (h : (s.enter scope).SameRoots s') :
    s.SameRoots s'.leave :=
  ⟨h.global, congrArg List.tail h.active, h.held⟩

theorem sameRoots_letGo {v : Value} (h : (s.hold v).SameRoots s') : s.SameRoots s'.letGo :=
  ⟨h.global, h.active, congrArg List.tail h.held⟩

/-- A scope that is kept in use during an action still has its name after it. -/
theorem agrees_entering {a b : Scope} {x y : Eval α}
    (hx : Agrees Q (s.enter a) (t.enter b) (x (s.enter a)) (y (t.enter b))) :
    Agrees (fun ρ p q => Q ρ p q ∧ ρ.OnScope a b) s t (entering a x s) (entering b y t) := by
  rw [entering_apply, entering_apply]
  obtain ⟨ρ, hr, hs, ht, hend⟩ := hx
  have hab : ρ.OnScope a b := hr.onScope ((Session.paired_enter s t a b).congr hs ht)
  exact ⟨ρ, hr.leave, sameRoots_leave hs, sameRoots_leave ht, hend.mono fun _ _ h => ⟨h, hab⟩⟩

/-- A value that is kept in use during an action still has its name after it. -/
theorem agrees_holding {v w : Value} {x y : Eval α}
    (hx : Agrees Q (s.hold v) (t.hold w) (x (s.hold v)) (y (t.hold w))) :
    Agrees (fun ρ p q => Q ρ p q ∧ ρ.OnValue v w) s t (holding v x s) (holding w y t) := by
  rw [holding_apply, holding_apply]
  obtain ⟨ρ, hr, hs, ht, hend⟩ := hx
  have hvw : ρ.OnValue v w := hr.onValue_of_held hs.held ht.held
  exact ⟨ρ, hr.letGo, sameRoots_letGo hs, sameRoots_letGo ht, hend.mono fun _ _ h => ⟨h, hvw⟩⟩

/-! ## Variables and built-in functions -/

theorem agrees_lookup (hr : ρ.Relates s t) {h k : Scope} (hp : s.Paired t h k) (name : String)
    (span : Span) :
    Agrees Renaming.OnValue s t (lookup h name span s) (lookup k name span t) := by
  have hfind := hr.find? hp name
  unfold lookup
  cases hs : s.arena.find? h name with
  | none =>
    rw [hs] at hfind
    simp only [hfind, Option.map_none]
    exact ⟨ρ, hr, .refl s, .refl t, .stop _⟩
  | some v =>
    rw [hs] at hfind
    simp only [hfind, Option.map_some]
    have hcap := hr.mem_dom_of_find? (hr.onScope hp).2 hs
    exact ⟨ρ, hr, .refl s, .refl t, .ok ⟨rfl, hcap⟩⟩

theorem agrees_assign (hr : ρ.Relates s t) {h k : Scope} (hp : s.Paired t h k) (name : String)
    {v w : Value} (hvw : ρ.OnValue v w) :
    Agrees (fun ρ _ _ => ρ.OnValue v w) s t (assign h name v s) (assign k name w t) :=
  ⟨ρ, hr.assign (hr.onScope hp) hvw name, ⟨rfl, rfl, rfl⟩, ⟨rfl, rfl, rfl⟩, .ok hvw⟩

theorem agrees_newScope (hr : ρ.Relates s t) {h k : Scope} (hp : s.Paired t h k) :
    Agrees Renaming.OnScope s t (newScope h s) (newScope k t) := by
  obtain ⟨ρ', hr', hscope⟩ := hr.create (hr.onScope hp)
  exact ⟨ρ', hr', ⟨rfl, rfl, rfl⟩, ⟨rfl, rfl, rfl⟩, .ok hscope⟩

theorem agrees_newFrame (hr : ρ.Relates s t) {h k : Scope} (hhk : ρ.OnScope h k)
    (params : List String) {vs ws : List Value} (hvs : ρ.OnValues vs ws) :
    Agrees Renaming.OnScope s t (newFrame h params vs s) (newFrame k params ws t) := by
  obtain ⟨ρ', hr', hscope⟩ := hr.bind hhk hvs params
  exact ⟨ρ', hr', ⟨rfl, rfl, rfl⟩, ⟨rfl, rfl, rfl⟩, .ok hscope⟩

theorem agrees_callBuiltin (hr : ρ.Relates s t) (b : Builtin) (span : Span) {vs ws : List Value}
    (hvs : ρ.OnValues vs ws) :
    Agrees Renaming.OnValue s t (callBuiltin b span vs s) (callBuiltin b span ws t) := by
  obtain ⟨rfl, hcap⟩ := hvs
  have hcall := b.call_rename ρ.map span vs s.sink
  have hscopes : ∀ v, (b.call span vs s.sink).1 = .ok v → ∀ c ∈ v.captured, c ∈ ρ.dom :=
    fun v hv c hc => hcap c (Builtin.mem_captured_of_call hv hc)
  unfold callBuiltin
  rw [hr.sink, hcall]
  generalize b.call span vs s.sink = result at hscopes
  obtain ⟨r, sink⟩ := result
  have hr' : ρ.Relates { s with sink } { t with sink } := { hr with sink := rfl }
  cases r with
  | ok v => exact ⟨ρ, hr', ⟨rfl, rfl, rfl⟩, ⟨rfl, rfl, rfl⟩, .ok ⟨rfl, hscopes v rfl⟩⟩
  | error e => exact ⟨ρ, hr', ⟨rfl, rfl, rfl⟩, ⟨rfl, rfl, rfl⟩, .stop _⟩

/-- Whichever of the two sessions collects at a safe point, they stay related. -/
theorem agrees_safePoint (hr : ρ.Relates s t) (due due' : Session → Bool) :
    Agrees (fun _ => Eq) s t (safePoint due s) (safePoint due' t) := by
  have hs := s.trimmed_passSafePoint due
  have ht := t.trimmed_passSafePoint due'
  obtain ⟨ρ', hr'⟩ := hr.trim hs ht
  exact ⟨ρ', hr', hs.sameRoots, ht.sameRoots, .ok rfl⟩

end Lisp.Eval
