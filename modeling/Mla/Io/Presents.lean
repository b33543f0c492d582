import Mla.Io.Zoom

/-!
# Readers that may misbehave at the end

Of a reader that presents `P` nothing is said once it stands at the end of `P`, except that it reads
nothing when it is asked for nothing. Up to there it is a cursor.
-/

namespace Io

section Presents

variable {ε σ τ : Type} [Read ε σ] [Seek ε σ] {closed : Prop} {P : Bytes} {At : σ → ℕ → Prop}
  {Live : σ → Prop}

structure Presents (P : Bytes) (At : σ → ℕ → Prop) (Live : σ → Prop) : Prop
    extends IsCursor False P At Live where
  nothing : ∀ {s p}, At s p → ∃ s', Read.read 0 s = .ok [] s' ∧ At s' p

/-- What is a cursor to the end is one up to there. -/
theorem IsCursor.opened (h : IsCursor closed P At Live) : IsCursor False P At Live where
  le := h.le
  progress := h.progress
  stop hfalse := hfalse.elim
  live := h.live
  seekStart hs ht := h.seekStart hs (ht.imp id fun h => h.1.elim)
  seekEnd hs ht := h.seekEnd hs (ht.imp id fun h => h.1.elim)
  seekCurrent hs ht := h.seekCurrent hs (ht.imp id fun h => h.1.elim)

/-- A reader that stands somewhere can be moved. -/
theorem IsCursor.standing (h : IsCursor closed P At Live) : IsCursor closed P At fun s => ∃ p, At s p where
  toDelivers := h.toDelivers
  live hs := ⟨_, hs⟩
  seekStart hs ht := h.seekStart (h.live hs.choose_spec) ht
  seekEnd hs ht := h.seekEnd (h.live hs.choose_spec) ht
  seekCurrent := h.seekCurrent

theorem IsCursor.tellsLength (h : IsCursor True P At Live) : TellsLength P Live := by
  intro s hs
  obtain ⟨s', hrun, hs'⟩ := h.seekEnd (t := P.length) hs (.inr ⟨trivial, rfl⟩)
  rw [Int.sub_self] at hrun
  exact ⟨s', hrun, h.live hs'⟩

theorem IsCursor.presents (h : IsCursor True P At Live) : Presents P At Live where
  toIsCursor := h.opened
  nothing hs := h.stop trivial hs (.inl rfl)

namespace ReadsThrough

variable [Read ε τ] [Seek ε τ] {get : τ → σ} {set : σ → τ → τ}

theorem presents (hthrough : ReadsThrough ε get set)
    (hseek : ∀ w, (Seek.seek w : Op ε τ ℕ) = Io.zoom get set (Seek.seek w))
    (h : Presents P At Live) : Presents P (fun s p => At (get s) p) (fun s => Live (get s)) where
  toIsCursor := hthrough.isCursor hseek h.toIsCursor
  nothing {s p} hs := by
    obtain ⟨t, hrun, ht⟩ := h.nothing hs
    refine ⟨set t s, ?_, ?_⟩
    · rw [hthrough.read]
      exact zoom_eq_ok.mpr ⟨t, hrun, rfl⟩
    · rwa [hthrough.get_set]

theorem tellsLength (hthrough : ReadsThrough ε get set)
    (hseek : ∀ w, (Seek.seek w : Op ε τ ℕ) = Io.zoom get set (Seek.seek w))
    (h : TellsLength P Live) : TellsLength P fun s => Live (get s) := by
  intro s hs
  obtain ⟨t, hrun, ht⟩ := h hs
  refine ⟨set t s, ?_, ?_⟩
  · rw [hseek]
    exact zoom_eq_ok.mpr ⟨t, hrun, rfl⟩
  · change Live (get (set t s))
    rwa [hthrough.get_set]

end ReadsThrough

variable (σ) in
theorem Presents.never (P : Bytes) : Presents P (fun (_ : σ) (_ : ℕ) => False) (fun _ => False) :=
  ⟨IsCursor.never P False, fun hs => hs.elim⟩

end Presents

end Io
