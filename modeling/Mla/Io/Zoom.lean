import Mla.Io.Yields

/-!
# Readers that pass their calls on

A reader that does each call on a component of its state stands where this component does.
-/

namespace Io

section Zoom

variable {ε σ τ : Type} [Read ε σ] [Read ε τ] {S : Bytes} {At : τ → ℕ → Prop} {closed : Prop}

/-- The reads of the one reader are those of the other. -/
structure ReadsThrough (ε : Type) {σ τ : Type} [Read ε σ] [Read ε τ] (get : σ → τ)
    (set : τ → σ → σ) : Prop where
  get_set : ∀ t s, get (set t s) = t
  read : ∀ n, (Read.read n : Op ε σ Bytes) = Io.zoom get set (Read.read n)

namespace ReadsThrough

variable {get : σ → τ} {set : τ → σ → σ}

theorem delivers (hthrough : ReadsThrough ε get set) (h : Delivers closed S At) :
    Delivers closed S (fun s p => At (get s) p) where
  le hs := h.le hs
  progress {s p n} hs hp hn := by
    obtain ⟨k, t, hread, hk, hkn, hpk, ht⟩ := h.progress hs hp hn
    refine ⟨k, set t s, ?_, hk, hkn, hpk, ?_⟩
    · rw [hthrough.read]
      exact zoom_eq_ok.mpr ⟨t, hread, rfl⟩
    · rwa [hthrough.get_set]
  stop {s p n} hclosed hs hstop := by
    obtain ⟨t, hread, ht⟩ := h.stop hclosed hs hstop
    refine ⟨set t s, ?_, ?_⟩
    · rw [hthrough.read]
      exact zoom_eq_ok.mpr ⟨t, hread, rfl⟩
    · rwa [hthrough.get_set]

theorem yields (hthrough : ReadsThrough ε get set) (h : Yields S At) :
    Yields S (fun s p => At (get s) p) where
  read {s s' p n bs} hs hread := by
    rw [hthrough.read] at hread
    obtain ⟨t, hrun, rfl⟩ := zoom_eq_ok.mp hread
    rw [hthrough.get_set]
    exact h.read hs hrun
  interrupted {s s' p n e} hs hread hint := by
    rw [hthrough.read] at hread
    obtain ⟨t, hrun, rfl⟩ := zoom_eq_error.mp hread
    rw [hthrough.get_set]
    exact h.interrupted hs hrun hint

variable [Seek ε σ] [Seek ε τ]

theorem moves (hthrough : ReadsThrough ε get set)
    (hseek : ∀ w, (Seek.seek w : Op ε σ ℕ) = Io.zoom get set (Seek.seek w))
    (h : Moves S At) : Moves S (fun s p => At (get s) p) where
  toYields := hthrough.yields h.toYields
  seekStart {s s' p t u} hs hrun := by
    rw [hseek] at hrun
    obtain ⟨t', hinner, rfl⟩ := zoom_eq_ok.mp hrun
    rw [hthrough.get_set]
    exact h.seekStart hs hinner
  seekCurrent {s s' p d u} hs hrun := by
    rw [hseek] at hrun
    obtain ⟨t', hinner, rfl⟩ := zoom_eq_ok.mp hrun
    rw [hthrough.get_set]
    exact h.seekCurrent hs hinner
  seekEnd {s s' p d u} hs hrun := by
    rw [hseek] at hrun
    obtain ⟨t', hinner, rfl⟩ := zoom_eq_ok.mp hrun
    rw [hthrough.get_set]
    exact h.seekEnd hs hinner

theorem isCursor (hthrough : ReadsThrough ε get set)
    (hseek : ∀ w, (Seek.seek w : Op ε σ ℕ) = Io.zoom get set (Seek.seek w)) {Live : τ → Prop}
    (h : IsCursor closed S At Live) :
    IsCursor closed S (fun s p => At (get s) p) (fun s => Live (get s)) where
  toDelivers := hthrough.delivers h.toDelivers
  live hs := h.live hs
  seekStart {s t} hs ht := by
    obtain ⟨t', hrun, ht'⟩ := h.seekStart hs ht
    refine ⟨set t' s, ?_, ?_⟩
    · rw [hseek]
      exact zoom_eq_ok.mpr ⟨t', hrun, rfl⟩
    · rwa [hthrough.get_set]
  seekEnd {s t} hs ht := by
    obtain ⟨t', hrun, ht'⟩ := h.seekEnd hs ht
    refine ⟨set t' s, ?_, ?_⟩
    · rw [hseek]
      exact zoom_eq_ok.mpr ⟨t', hrun, rfl⟩
    · rwa [hthrough.get_set]
  seekCurrent {s p t} hs ht := by
    obtain ⟨t', hrun, ht'⟩ := h.seekCurrent hs ht
    refine ⟨set t' s, ?_, ?_⟩
    · rw [hseek]
      exact zoom_eq_ok.mpr ⟨t', hrun, rfl⟩
    · rwa [hthrough.get_set]

end ReadsThrough

end Zoom

/-! ## What reading keeps -/

section Keep

variable {ε σ : Type} [Patience] [Read ε σ] {I : σ → Prop}

omit [Patience] in
theorem Preserves.readExactLoop (h : ∀ n, Preserves I (Read.read n : Op ε σ Bytes)) :
    ∀ fuel n : ℕ, Preserves I (readExactLoop fuel n : Op ε σ Bytes) := by
  intro fuel
  induction fuel with
  | zero =>
      intro n s hs
      cases n with
      | zero => exact hs
      | succ n => exact hs
  | succ fuel ih =>
      intro n s hs
      cases n with
      | zero => exact hs
      | succ n =>
          have hread := h (n + 1) s hs
          rw [readExactLoop_succ]
          cases hrun : Read.read (n + 1) s with
          | error e s₁ =>
              rw [hrun] at hread
              dsimp only
              split
              · exact ih (n + 1) s₁ hread
              · exact hread
          | ok bs s₁ =>
              rw [hrun] at hread
              dsimp only
              split
              · exact hread
              · have hrest := ih (n + 1 - bs.length) s₁ hread
                cases hloop : Io.readExactLoop fuel (n + 1 - bs.length) s₁ with
                | ok rest s₂ =>
                    rw [hloop] at hrest
                    exact hrest
                | error e s₂ =>
                    rw [hloop] at hrest
                    exact hrest

theorem Preserves.readExact (h : ∀ n, Preserves I (Read.read n : Op ε σ Bytes)) (n : ℕ) :
    Preserves I (readExact n : Op ε σ Bytes) :=
  Preserves.readExactLoop h _ n

end Keep

/-! ## Readers that stand nowhere -/

section Never

variable {ε σ : Type} [Read ε σ] (S : Bytes)

theorem Delivers.never (closed : Prop) : Delivers (ε := ε) closed S (fun (_ : σ) (_ : ℕ) => False) :=
  ⟨fun hs => hs.elim, fun hs => hs.elim, fun _ hs => hs.elim⟩

theorem Yields.never : Yields (ε := ε) S (fun (_ : σ) (_ : ℕ) => False) :=
  ⟨fun hs => hs.elim, fun hs => hs.elim⟩

variable [Seek ε σ]

theorem Moves.never : Moves (ε := ε) S (fun (_ : σ) (_ : ℕ) => False) :=
  ⟨Yields.never S, fun hs => hs.elim, fun hs => hs.elim, fun hs => hs.elim⟩

theorem IsCursor.never (closed : Prop) :
    IsCursor (ε := ε) closed S (fun (_ : σ) (_ : ℕ) => False) (fun _ => False) :=
  ⟨Delivers.never S closed, fun hs => hs.elim, fun hs => hs.elim, fun hs => hs.elim, fun hs => hs.elim⟩

end Never

end Io
