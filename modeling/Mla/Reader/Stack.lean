import Mla.Io.Zoom
import Mla.Reader.Open

/-!
# Where a stack of layers stands

A stack stands where the layer on top of it does, or the one below when that layer was left out.
-/

namespace Mla

open Io

namespace OptionalLayer

variable {σ τ ε α : Type} {x : EStateM ε σ α} {y : EStateM ε τ α} {s s' : OptionalLayer σ τ} {a : α}
  {e : ε}

theorem onTop_eq_ok : onTop x y s = .ok a s' ↔
    (∃ t t', s = .absent t ∧ x t = .ok a t' ∧ s' = .absent t') ∨
      ∃ t t', s = .present t ∧ y t = .ok a t' ∧ s' = .present t' := by
  cases s with
  | absent inner => cases hrun : x inner <;> simp [onTop, hrun, eq_comm]
  | present layer => cases hrun : y layer <;> simp [onTop, hrun, eq_comm]

theorem onTop_eq_error : onTop x y s = .error e s' ↔
    (∃ t t', s = .absent t ∧ x t = .error e t' ∧ s' = .absent t') ∨
      ∃ t t', s = .present t ∧ y t = .error e t' ∧ s' = .present t' := by
  cases s with
  | absent inner => cases hrun : x inner <;> simp [onTop, hrun, eq_comm]
  | present layer => cases hrun : y layer <;> simp [onTop, hrun, eq_comm]

/-- What is on top stands at a position of its own. -/
def At (below : σ → ℕ → Prop) (above : τ → ℕ → Prop) : OptionalLayer σ τ → ℕ → Prop
  | .absent inner, p => below inner p
  | .present layer, p => above layer p

def Live (below : σ → Prop) (above : τ → Prop) : OptionalLayer σ τ → Prop
  | .absent inner => below inner
  | .present layer => above layer

section Contracts

variable {S : Bytes} {below : σ → ℕ → Prop} {above : τ → ℕ → Prop} {closed : Prop}

theorem yields [Read ε σ] [Read ε τ] (h : Yields S below) (h' : Yields S above) :
    Yields S (At below above) where
  read {s s' p n bs} hs hread := by
    rcases onTop_eq_ok.mp hread with ⟨t, t', rfl, hrun, rfl⟩ | ⟨t, t', rfl, hrun, rfl⟩
    · exact h.read hs hrun
    · exact h'.read hs hrun
  interrupted {s s' p n e} hs hread hint := by
    rcases onTop_eq_error.mp hread with ⟨t, t', rfl, hrun, rfl⟩ | ⟨t, t', rfl, hrun, rfl⟩
    · exact h.interrupted hs hrun hint
    · exact h'.interrupted hs hrun hint

theorem delivers [Read ε σ] [Read ε τ] (h : Delivers closed S below) (h' : Delivers closed S above) :
    Delivers closed S (At below above) where
  le {s p} hs := by
    cases s with
    | absent inner => exact h.le hs
    | present layer => exact h'.le hs
  progress {s p n} hs hp hn := by
    cases s with
    | absent inner =>
        obtain ⟨k, t, hread, hk, hkn, hpk, ht⟩ := h.progress hs hp hn
        exact ⟨k, .absent t, onTop_eq_ok.mpr (.inl ⟨inner, t, rfl, hread, rfl⟩), hk, hkn, hpk, ht⟩
    | present layer =>
        obtain ⟨k, t, hread, hk, hkn, hpk, ht⟩ := h'.progress hs hp hn
        exact ⟨k, .present t, onTop_eq_ok.mpr (.inr ⟨layer, t, rfl, hread, rfl⟩), hk, hkn, hpk, ht⟩
  stop {s p n} hclosed hs hstop := by
    cases s with
    | absent inner =>
        obtain ⟨t, hread, ht⟩ := h.stop hclosed hs hstop
        exact ⟨.absent t, onTop_eq_ok.mpr (.inl ⟨inner, t, rfl, hread, rfl⟩), ht⟩
    | present layer =>
        obtain ⟨t, hread, ht⟩ := h'.stop hclosed hs hstop
        exact ⟨.present t, onTop_eq_ok.mpr (.inr ⟨layer, t, rfl, hread, rfl⟩), ht⟩

variable [LayerReader σ] [LayerReader τ]

theorem moves (h : Moves S below) (h' : Moves S above) : Moves S (At below above) where
  toYields := yields h.toYields h'.toYields
  seekStart {s s' p t u} hs hseek := by
    rcases onTop_eq_ok.mp hseek with ⟨i, i', rfl, hrun, rfl⟩ | ⟨i, i', rfl, hrun, rfl⟩
    · exact h.seekStart hs hrun
    · exact h'.seekStart hs hrun
  seekCurrent {s s' p d u} hs hseek := by
    rcases onTop_eq_ok.mp hseek with ⟨i, i', rfl, hrun, rfl⟩ | ⟨i, i', rfl, hrun, rfl⟩
    · exact h.seekCurrent hs hrun
    · exact h'.seekCurrent hs hrun
  seekEnd {s s' p d u} hs hseek := by
    rcases onTop_eq_ok.mp hseek with ⟨i, i', rfl, hrun, rfl⟩ | ⟨i, i', rfl, hrun, rfl⟩
    · exact h.seekEnd hs hrun
    · exact h'.seekEnd hs hrun

theorem isCursor {liveBelow : σ → Prop} {liveAbove : τ → Prop} (h : IsCursor closed S below liveBelow)
    (h' : IsCursor closed S above liveAbove) :
    IsCursor closed S (At below above) (Live liveBelow liveAbove) where
  toDelivers := delivers h.toDelivers h'.toDelivers
  live {s p} hs := by
    cases s with
    | absent inner => exact h.live hs
    | present layer => exact h'.live hs
  seekStart {s t} hs ht := by
    cases s with
    | absent inner =>
        obtain ⟨i, hrun, hi⟩ := h.seekStart hs ht
        exact ⟨.absent i, onTop_eq_ok.mpr (.inl ⟨inner, i, rfl, hrun, rfl⟩), hi⟩
    | present layer =>
        obtain ⟨i, hrun, hi⟩ := h'.seekStart hs ht
        exact ⟨.present i, onTop_eq_ok.mpr (.inr ⟨layer, i, rfl, hrun, rfl⟩), hi⟩
  seekEnd {s t} hs ht := by
    cases s with
    | absent inner =>
        obtain ⟨i, hrun, hi⟩ := h.seekEnd hs ht
        exact ⟨.absent i, onTop_eq_ok.mpr (.inl ⟨inner, i, rfl, hrun, rfl⟩), hi⟩
    | present layer =>
        obtain ⟨i, hrun, hi⟩ := h'.seekEnd hs ht
        exact ⟨.present i, onTop_eq_ok.mpr (.inr ⟨layer, i, rfl, hrun, rfl⟩), hi⟩
  seekCurrent {s p t} hs ht := by
    cases s with
    | absent inner =>
        obtain ⟨i, hrun, hi⟩ := h.seekCurrent hs ht
        exact ⟨.absent i, onTop_eq_ok.mpr (.inl ⟨inner, i, rfl, hrun, rfl⟩), hi⟩
    | present layer =>
        obtain ⟨i, hrun, hi⟩ := h'.seekCurrent hs ht
        exact ⟨.present i, onTop_eq_ok.mpr (.inr ⟨layer, i, rfl, hrun, rfl⟩), hi⟩

end Contracts

end OptionalLayer

namespace SignatureLayerReader

variable {σ : Type} [LayerReader σ] {S : Bytes} {At : StripHeadTailReader σ → ℕ → Prop} {closed : Prop}
  {Live : StripHeadTailReader σ → Prop}

theorem readsThrough : ReadsThrough Error (σ := SignatureLayerReader σ) SignatureLayerReader.inner
    (fun inner _ => ⟨inner⟩) where
  get_set _ _ := rfl
  read _ := rfl

/-- The layer of signatures shows what its view does. -/
theorem moves (h : Moves S At) : Moves S (fun (s : SignatureLayerReader σ) p => At s.inner p) :=
  ReadsThrough.moves readsThrough (fun _ => rfl) h

theorem isCursor (h : IsCursor closed S At Live) :
    IsCursor closed S (fun (s : SignatureLayerReader σ) p => At s.inner p) (fun s => Live s.inner) :=
  ReadsThrough.isCursor readsThrough (fun _ => rfl) h

end SignatureLayerReader

end Mla
