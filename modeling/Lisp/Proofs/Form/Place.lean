import Lisp.Proofs.Form.Pushdown
import Lisp.Proofs.Form.Relocation
import Lisp.Proofs.Token.Tiling

/-!
# Where forms and faults of a text stand in it

- `Program.isIn_of_part`: every part of a program covers a stretch of its text.
- `Pending.Scan.exists_token`: the fault that a scan ends with blames a token.
- `Program.parse_error_iff_scan`: the fault of a text is the one of the scan of its tokens.
- `Program.exists_token_of_parse`: so a text that is no program has a token to blame for it.
-/

namespace Lisp

/-- Tokens of a text cover a stretch of it. -/
theorem Token.Ordered.isIn_cover {source : String} {ts : List Token} (ho : Token.Ordered ts)
    (hne : ts ≠ []) (hts : ∀ t ∈ ts, t.span.IsIn source) : (Token.cover ts).IsIn source := by
  obtain ⟨t, us, rfl⟩ := List.exists_cons_of_ne_nil hne
  have hlast : us.getLastD t ∈ t :: us := List.getLastD_mem_cons
  have hle : t.span.start.offset ≤ (us.getLastD t).span.stop.offset := by
    rcases List.mem_cons.1 hlast with heq | hmem
    · rw [heq]
      exact (hts t List.mem_cons_self).le
    · have hapart := (List.pairwise_cons.1 ho.apart).1 _ hmem
      have hfirst := ho.nonempty t List.mem_cons_self
      have hend := ho.nonempty _ hlast
      omega
  exact ⟨(hts t List.mem_cons_self).start, (hts _ hlast).stop, hle⟩

/-- Every part of a program covers a stretch of its text. -/
theorem Program.isIn_of_part {source : String} {reading : Nat} {p : Program} {f g : Form}
    (h : parse source reading = .ok p) (hf : f ∈ p.forms) (hg : g.PartOf f) :
    g.span.IsIn source := by
  obtain ⟨us, hus, hsub⟩ := derives_of_part h hf hg
  rw [hus.span_eq]
  exact ((tokenize_ordered source).sublist hsub.sublist).isIn_cover hus.ne_nil fun t ht =>
    (tiles_tokenize source).place t (hsub.subset ht)

/-! ## Faults -/

namespace Pending

variable {stack : List Pending} {t : Token} {ts : List Token} {e : ReadError}

/-- The token with which something was begun. -/
def token : Pending → Token
  | bracket opener _ => opener
  | mark t _ _ => t

theorem span_fault (top : Pending) : top.fault.span = top.token.span := by
  cases top <;> rfl

/-- Whatever is completed, the other things were begun with the same tokens. -/
theorem tokens_complete (stack : List Pending) :
    (complete stack).map token ⊆ stack.map token := by
  fun_induction complete stack with
  | case1 t m n stack => exact List.Subset.refl _
  | case2 t m n stack _ ih => exact fun u hu => List.mem_cons_of_mem _ (ih hu)
  | case3 stack => exact List.Subset.refl _

theorem tokens_push (stack : List Pending) (t : Token) :
    (push stack t).map token ⊆ t :: stack.map token := by
  have hcomplete : ∀ rest : List Pending, rest ⊆ stack →
      (complete rest).map token ⊆ t :: stack.map token := by
    intro rest hrest u hu
    exact List.mem_cons_of_mem _ (List.map_subset _ hrest (tokens_complete rest hu))
  unfold push
  split
  · exact List.Subset.refl _
  · exact List.Subset.refl _
  · exact hcomplete stack.tail fun _ => List.mem_of_mem_tail
  · exact hcomplete stack (List.Subset.refl stack)
  · exact hcomplete stack (List.Subset.refl stack)
  · exact List.subset_cons_self _ _
  · exact List.subset_cons_self _ _
  · exact List.subset_cons_self _ _

/-- The fault that a scan ends with blames a token: one that was scanned, or one with which
something was begun before. -/
theorem Scan.exists_token (h : Scan stack ts (some e)) :
    ∃ t ∈ stack.map token ++ ts, e.span = t.span := by
  generalize ho : some e = o at h
  induction h with
  | finished => cases ho
  | pending top stack =>
    cases ho
    exact ⟨top.token, by simp, top.span_fault⟩
  | refused hrefuses =>
    cases ho
    refine ⟨_, List.mem_append_right _ List.mem_cons_self, ?_⟩
    cases hrefuses <;> rfl
  | @taken stack t ts o _ _ ih =>
    obtain ⟨u, hu, hspan⟩ := ih ho
    refine ⟨u, ?_, hspan⟩
    rcases List.mem_append.1 hu with hu | hu
    · rcases List.mem_cons.1 (tokens_push stack t hu) with rfl | hu
      · exact List.mem_append_right _ List.mem_cons_self
      · exact List.mem_append_left _ hu
    · exact List.mem_append_right _ (List.mem_cons_of_mem _ hu)

end Pending

/-- A text has a fault exactly if the scan of its tokens ends with it. -/
theorem Program.parse_error_iff_scan {source : String} {reading : Nat} {e : ReadError} :
    parse source reading = .error e ↔ Pending.Scan [] (tokenize source) (some e) := by
  have hscan := Form.scan_readAll reading (tokenize_proper source)
  rw [parse_eq_error_iff]
  cases hall : Form.readAll reading (tokenize source) with
  | ok fs =>
    rw [hall] at hscan
    exact ⟨nofun, fun h => absurd (hscan.unique h) nofun⟩
  | error e' =>
    rw [hall] at hscan
    constructor
    · intro h
      rwa [← Except.error.inj h]
    · intro h
      rw [Option.some.inj (hscan.unique h)]

/-- A text that is no program has a token to blame for it. -/
theorem Program.exists_token_of_parse {source : String} {reading : Nat} {e : ReadError}
    (h : parse source reading = .error e) : ∃ t ∈ tokenize source, e.span = t.span :=
  (parse_error_iff_scan.1 h).exists_token

end Lisp
