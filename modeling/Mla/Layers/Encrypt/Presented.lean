import Mla.Io.Presents
import Mla.Layers.Encrypt.Cursor
import Mla.Layers.Encrypt.Layer

/-!
# The encryption reader over the whole plaintext

Up to the end of the plaintext the reader is a cursor whatever its last chunk. At the end of a
full last chunk, a read of nothing takes up the slot that follows: the reader is `Spent`, from
where a seek still goes back into the plaintext.
-/

namespace Mla

open Io
open InternalEncryptionConfig (chunkHead)

namespace InternalEncryptionLayerReader

section Offers

variable {σ : Type} [Patience] [AesGcm] [Read Error σ] {P : Bytes} {At : σ → ℕ → Prop}
  {Live : σ → Prop} {config : InternalEncryptionConfig} {s : InternalEncryptionLayerReader σ} {p t : ℕ}

structure Spent (config : InternalEncryptionConfig) (P : Bytes) (Live : σ → Prop)
    (s : InternalEncryptionLayerReader σ) : Prop where
  ready : Ready Live config P.length s
  position : s.currentPositionInThisLayer = P.length
  cache : s.chunkCache.pos < 131088

def Offers (config : InternalEncryptionConfig) (P : Bytes) (At : σ → ℕ → Prop) (Live : σ → Prop)
    (s : InternalEncryptionLayerReader σ) (p : ℕ) : Prop :=
  Stands config P At s p ∨ p = P.length ∧ Spent config P Live s

/-- A read of nothing leaves the reader as it is, unless the cache is used up. -/
theorem read_zero_of_lt (hpos : s.chunkCache.pos < 131088)
    (hposition : s.currentPositionInThisLayer < u64Size) : Read.read 0 s = .ok [] s := by
  have hread := read_of_lt (n := 0) (k := 0) (s := s) (by omega) hpos hposition
  rwa [slice_zero_length, advance_zero] at hread

end Offers

section Presents

variable {σ : Type} [Patience] [AesGcm] [Read Error σ] [Seek Error σ] {P : Bytes} {At : σ → ℕ → Prop}
  {Live : σ → Prop} {config : InternalEncryptionConfig} {s : InternalEncryptionLayerReader σ} {p t : ℕ}

/-- At the end of a full last chunk there is nothing to load. -/
theorem Stands.read_zero_spent (hS : (config.encBody P).length < i64Size)
    (hcursor : IsCursor True (config.encBody P) At Live) (hne : P ≠ []) (hdvd : 131072 ∣ P.length)
    (h : Stands config P At s P.length) :
    ∃ s', Read.read 0 s = .ok [] s' ∧ Spent config P Live s' := by
  obtain ⟨s₂, c, x, hin, hp, rfl⟩ := h
  obtain ⟨hfirst, hlast, hinside⟩ := lastChunk_spec P
  have hinside := hinside hne
  have hword := i64Size_lt_u64Size
  have hlen := config.length_encBody P
  have hplace := hin.place
  have hdata := length_chunkData_le P c
  have hchunk := hin.chunk
  obtain ⟨q, hq⟩ := hdvd
  obtain rfl : x = 131072 := by omega
  obtain rfl : q = c + 1 := by omega
  have hbehind : Behind (config.encBody P) At config none P.length
      ((s₂.holding (chunkHead c ++ chunkData P c)).advance 131072) (c + 1) :=
    hin.behind.holding.advance
  obtain ⟨bytes, inner, hload, hnext, hopened⟩ := hbehind.load hcursor.toDelivers
  have hposition : ((s₂.holding (chunkHead c ++ chunkData P c)).advance
      131072).currentPositionInThisLayer = P.length := by
    rw [position_stands, hin.position, hp]
  have hslot : slotOpened none config P.length (config.encBody P) (c + 1) = .nothing :=
    slotOpened_behind (by omega) hq.le
  have hat : ((s₂.holding (chunkHead c ++ chunkData P c)).advance
      131072).currentPositionInThisLayer = 131072 * (c + 1) := hposition.trans hq
  rw [hat] at hopened
  have hopen := hopened.trans hslot
  have hread : readInternal 0 ((s₂.holding (chunkHead c ++ chunkData P c)).advance 131072) =
      ([], .ok () (((s₂.holding (chunkHead c ++ chunkData P c)).advance 131072).loaded bytes inner)) := by
    rw [readInternal_of_eq (by rw [chunkCache_stands]), hload, openInCache, hopen]
  refine ⟨_, ?_, hnext.ready hcursor, (position_loaded bytes inner).trans hposition,
    show 0 < 131088 by decide⟩
  simp only [Read.read, hread]

theorem Offers.read_zero (hcorrect : AesGcm.Correct) (hS : (config.encBody P).length < i64Size)
    (hcursor : IsCursor True (config.encBody P) At Live) (hne : P ≠ [])
    (h : Offers config P At Live s p) :
    ∃ s', Read.read 0 s = .ok [] s' ∧ Offers config P At Live s' p := by
  have hword := i64Size_lt_u64Size
  have hlen := config.length_encBody P
  rcases h with h | ⟨rfl, h⟩
  · by_cases hp : p < P.length ∨ ¬ 131072 ∣ P.length
    · obtain ⟨k, s', hread, hk, -, -, hs'⟩ := h.read hcorrect hS hcursor.toDelivers hne hp 0
      obtain rfl := Nat.le_zero.mp hk
      rw [slice_zero_length] at hread
      exact ⟨s', hread, .inl hs'⟩
    · rw [not_or, not_not] at hp
      have hle := (isCursor hcorrect hS hcursor hne).le h
      obtain rfl : p = P.length := by omega
      obtain ⟨s', hread, hs'⟩ := h.read_zero_spent hS hcursor hne hp.2
      exact ⟨s', hread, .inr ⟨rfl, hs'⟩⟩
  · exact ⟨s, read_zero_of_lt h.cache (by rw [h.position]; omega), .inr ⟨rfl, h⟩⟩

/-- A seek to the end tells the size of the plaintext. -/
theorem Ready.tellsLength (hcorrect : AesGcm.Correct) (hS : (config.encBody P).length < i64Size)
    (hcursor : IsCursor True (config.encBody P) At Live) (hne : P ≠ []) :
    TellsLength P (Ready Live config P.length : InternalEncryptionLayerReader σ → Prop) := by
  intro s h
  have hopen := isCursor hcorrect hS hcursor hne
  by_cases hdvd : 131072 ∣ P.length
  · have hlen := config.length_encBody P
    have hword := i64Size_lt_u64Size
    obtain ⟨c, hc⟩ := hdvd
    obtain ⟨hfirst, hlast, -⟩ := lastChunk_spec P
    have hasked := askedPosition_fromEnd (s := s) (t := P.length) (by rw [h.all_eq]; omega)
      h.all_eq.ge
    rw [h.all_eq, Int.sub_self] at hasked
    have hslot : slotOpened none config P.length (config.encBody P) c = .nothing :=
      slotOpened_behind (by omega) hc.le
    obtain ⟨s₂, hbehind, -, -, hnothing, -⟩ := h.seekStart hcursor hS
      (show P.length = 131072 * c + 0 from hc) (by decide) (by omega)
    have hseek := (seek_of_askedPosition (by simp) hasked).trans (hnothing hslot)
    exact ⟨_, hseek, hbehind.holding.advance.ready hcursor⟩
  · obtain ⟨s', hseek, hs'⟩ := hopen.seekEnd h (t := P.length) (.inr ⟨hdvd, rfl⟩)
    rw [Int.sub_self] at hseek
    exact ⟨s', hseek, hopen.live hs'⟩

/-- From behind a full last chunk a seek goes back into the plaintext. -/
theorem Spent.seekCurrent (hcorrect : AesGcm.Correct) (hS : (config.encBody P).length < i64Size)
    (hcursor : IsCursor True (config.encBody P) At Live) (hne : P ≠ []) (h : Spent config P Live s)
    (ht : t < P.length) :
    ∃ s', Seek.seek (.current (t - P.length)) s = .ok t s' ∧ Stands config P At s' t := by
  have hlen := config.length_encBody P
  have hasked := askedPosition_current (s := s) (t := t) (by rw [h.position]; omega) (by omega)
  rw [h.position] at hasked
  rw [seek_of_askedPosition _ hasked]
  · exact h.ready.seekStart_stands hcorrect hS hcursor hne (.inl ht)
  · intro hzero
    have hsame := SeekFrom.current.inj hzero
    omega

theorem presents (hcorrect : AesGcm.Correct) (hS : (config.encBody P).length < i64Size)
    (hcursor : IsCursor True (config.encBody P) At Live) (hne : P ≠ []) :
    Presents P (Offers config P At Live) (Ready Live config P.length) where
  toIsCursor :=
    have hopen := isCursor hcorrect hS hcursor hne
    { le := by
        intro s p h
        rcases h with h | ⟨rfl, -⟩
        · exact hopen.le h
        · exact Nat.le_refl _
      progress := by
        intro s p n h hp hn
        rcases h with h | ⟨rfl, -⟩
        · obtain ⟨k, s', hread, hk, hkn, hle, hs'⟩ := hopen.progress h hp hn
          exact ⟨k, s', hread, hk, hkn, hle, .inl hs'⟩
        · exact absurd hp (Nat.lt_irrefl _)
      stop := fun h => h.elim
      live := by
        intro s p h
        rcases h with h | ⟨-, h⟩
        · exact hopen.live h
        · exact h.ready
      seekStart := by
        intro s t h ht
        obtain ⟨s', hseek, hs'⟩ := hopen.seekStart h (ht.imp id fun h => h.1.elim)
        exact ⟨s', hseek, .inl hs'⟩
      seekEnd := by
        intro s t h ht
        obtain ⟨s', hseek, hs'⟩ := hopen.seekEnd h (ht.imp id fun h => h.1.elim)
        exact ⟨s', hseek, .inl hs'⟩
      seekCurrent := by
        intro s p t h ht
        rcases h with h | ⟨rfl, h⟩
        · obtain ⟨s', hseek, hs'⟩ := hopen.seekCurrent h (ht.imp id fun h => h.1.elim)
          exact ⟨s', hseek, .inl hs'⟩
        · rcases ht with ht | ⟨hfalse, -⟩
          · obtain ⟨s', hseek, hs'⟩ := h.seekCurrent hcorrect hS hcursor hne ht
            exact ⟨s', hseek, .inl hs'⟩
          · exact hfalse.elim }
  nothing h := h.read_zero hcorrect hS hcursor hne

end Presents

end InternalEncryptionLayerReader

end Mla
