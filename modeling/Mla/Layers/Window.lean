import Mla.Io.Window
import Mla.Layers.StripHeadTail

/-!
# A view is a window

What a `StripHeadTailReader` shows of the layer below is a window: it is never left, neither by a
read nor by a seek, and a seek that would leave it is refused before anything is done.
-/

namespace Mla

open Io

namespace StripHeadTailReader

variable {σ : Type} [LayerReader σ] {S : Bytes} {At : σ → ℕ → Prop} {Live : σ → Prop}
  {headLen tailLen p : ℕ} {s : StripHeadTailReader σ}

/-- A seek out of the window is refused, and nothing is moved. -/
theorem seek_refused (hs : Shows S At headLen tailLen s p) (hlen : headLen + tailLen ≤ S.length)
    {w : SeekFrom} (hleaves : w.Leaves (strip S headLen tailLen) p) :
    Seek.seek w s = .error invalidInput s := by
  have hposition := hs.le
  rw [SeekFrom.Leaves, length_strip] at hleaves
  change seek w s = _
  cases w with
  | start t =>
      rw [SeekFrom.target] at hleaves
      rw [seek, get_bind, tailOffsetFromInnerStart, hs.innerLen, hs.tailLen_eq, hs.headLen_eq,
        checkedSub_of_le (by omega)]
      cases hsum : checkedAdd t headLen with
      | none => rfl
      | some innerPosition =>
          have hpos := checkedAdd_eq hsum
          rw [okOr_some, okOr_some, pure_bind, pure_bind, if_pos (by omega)]
          rfl
  | current d =>
      rw [SeekFrom.target] at hleaves
      rw [seek, get_bind, hs.thisLayerLength hlen, hs.position]
      cases hsum : checkedAddSigned p d with
      | none => rfl
      | some position =>
          have hpos := checkedAddSigned_eq hsum
          rw [okOr_some, okOr_some, pure_bind, pure_bind, if_pos (by omega)]
          rfl
  | fromEnd d =>
      rw [SeekFrom.target, length_strip] at hleaves
      rw [seek, get_bind, hs.thisLayerLength hlen, okOr_some, pure_bind]
      cases hsum : checkedAddSigned (S.length - headLen - tailLen) d with
      | none => rfl
      | some position =>
          have hpos := checkedAddSigned_eq hsum
          rw [okOr_some, pure_bind, if_pos (by omega)]
          rfl

/-- A view on a cursor is a cursor over the window, whatever it is asked for. -/
theorem followsWindow (h : IsCursor True S At Live) (hS : S.length < i64Size)
    (hlen : headLen + tailLen ≤ S.length) {inner : σ} (hinner : At inner (headLen + p))
    (hp : headLen + p ≤ S.length - tailLen) :
    ∃ s, new inner headLen tailLen S.length p = .ok s ∧
      ∀ calls, FollowsWindow (strip S headLen tailLen) (Shows S At headLen tailLen) p s calls := by
  have hword := i64Size_lt_u64Size
  refine ⟨⟨inner, headLen, tailLen, S.length, p⟩, ?_, fun calls => ?_⟩
  · rw [new, checkedAdd_of_lt (by omega)]
    exact if_neg (by omega)
  · have hshows : Shows S At headLen tailLen ⟨inner, headLen, tailLen, S.length, p⟩ p :=
      ⟨hinner, rfl, rfl, rfl, rfl, by omega⟩
    exact (isCursor h hlen hS).toFollowsWindow
      (fun hs hleaves => ⟨invalidInput, seek_refused hs hlen hleaves⟩) calls hshows

/-- Five bytes without the first and the last, of which more is asked than they are. -/
theorem followsWindow_three :
    ∃ s, new (⟨⟨[1, 2, 3, 4, 5], 1⟩, 0⟩ : RawLayerReader (Cursor Error)) 1 1 5 0 = .ok s ∧
      FollowsWindow [2, 3, 4]
        (Shows [1, 2, 3, 4, 5] (RawLayerReader.Behind (fun c q => Cursor.At [1, 2, 3, 4, 5] c q ∧
          q ≤ 5) 0) 1 1) 0 s [.seek (.current (-1)), .read 10, .seek (.fromEnd 1)] := by
  have hcursor := RawLayerReader.isCursor (Cursor.isCursor (D := [1, 2, 3, 4, 5]) (ε := Error)
    (by decide)) (Nat.zero_le 5) (by decide)
  have hinner : RawLayerReader.Behind (fun c q => Cursor.At [1, 2, 3, 4, 5] c q ∧ q ≤ 5) 0
      (⟨⟨[1, 2, 3, 4, 5], 1⟩, 0⟩ : RawLayerReader (Cursor Error)) (1 + 0) :=
    ⟨⟨⟨rfl, rfl⟩, by decide⟩, rfl⟩
  obtain ⟨s, hnew, hfollows⟩ := followsWindow hcursor (by decide) (show 1 + 1 ≤ 5 by decide) hinner
    (by decide)
  exact ⟨s, hnew, hfollows _⟩

end StripHeadTailReader

end Mla
