import Mla.Io.Rules

/-!
# Readers of a window

A cursor over a window refuses to be moved out of it, and is not changed when it refuses.
-/

namespace Io

variable {ε σ : Type} [Read ε σ] [Seek ε σ]

/-- A seek from position `p` would leave `D`. -/
def SeekFrom.Leaves (D : Bytes) (p : ℕ) (w : SeekFrom) : Prop :=
  w.target D p < 0 ∨ (D.length : ℤ) < w.target D p

/-- The reader answers `calls` as a cursor over `D` at position `p` that refuses to be moved out
of `D`, and `At` holds of every state that it comes by. -/
def FollowsWindow (D : Bytes) (At : σ → ℕ → Prop) : ℕ → σ → List ReaderCall → Prop
  | p, s, [] => At s p
  | p, s, .read n :: calls =>
      At s p ∧ ∃ k s', Read.read n s = .ok (slice D p k) s' ∧ k ≤ n ∧ p + k ≤ D.length ∧
        (k = 0 → n = 0 ∨ p = D.length) ∧ FollowsWindow D At (p + k) s' calls
  | p, s, .seek w :: calls =>
      At s p ∧
        ((∃ (t : ℕ) (s' : σ), w.target D p = t ∧ t ≤ D.length ∧ Seek.seek w s = .ok t s' ∧
            FollowsWindow D At t s' calls) ∨
          (w.Leaves D p ∧ ∃ e, Seek.seek w s = .error e s ∧ FollowsWindow D At p s calls))

/-- A seekable reader of `D` that refuses what leaves `D` is a cursor over the window `D`. -/
theorem IsCursor.toFollowsWindow {D : Bytes} {At : σ → ℕ → Prop} {Live : σ → Prop}
    (h : IsCursor True D At Live)
    (hrefuses : ∀ {s p} {w : SeekFrom}, At s p → w.Leaves D p → ∃ e, Seek.seek w s = .error e s) :
    ∀ (calls : List ReaderCall) {s : σ} {p : ℕ}, At s p → FollowsWindow D At p s calls := by
  intro calls
  induction calls with
  | nil => exact fun hs => hs
  | cons call calls ih =>
      intro s p hs
      cases call with
      | read n =>
          obtain ⟨k, s', hread, hk, hpk, hend, hs'⟩ := h.read_at hs n
          exact ⟨hs, k, s', hread, hk, hpk, hend, ih hs'⟩
      | seek w =>
          by_cases hleaves : w.Leaves D p
          · obtain ⟨e, hseek⟩ := hrefuses hs hleaves
            exact ⟨hs, Or.inr ⟨hleaves, e, hseek, ih hs⟩⟩
          · rw [SeekFrom.Leaves, not_or, not_lt, not_lt] at hleaves
            obtain ⟨t, ht⟩ := Int.eq_ofNat_of_zero_le hleaves.1
            have htD : t ≤ D.length := by omega
            obtain ⟨s', hseek, hs'⟩ := h.seek_at hs ht htD
            exact ⟨hs, Or.inl ⟨t, s', ht, htD, hseek, ih hs'⟩⟩

end Io
