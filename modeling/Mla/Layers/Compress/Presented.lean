import Mla.Layers.Compress.Opened

/-!
# The compression layer over a reader that presents it

The reader of the layer never goes to the end of what is below, so that it is opened over one that
misbehaves there; and it is itself a reader that presents the data.
-/

namespace Mla

open Io

section View

variable {σ : Type} [LayerReader σ] {S : Bytes} {At : σ → ℕ → Prop} {Live : σ → Prop}
  {headLen tailLen p : ℕ} {s : StripHeadTailReader σ}

/-- A view that is used up does not ask what is below. -/
theorem StripHeadTailReader.Shows.read_zero
    (hzero : ∀ {t : σ} {q}, At t q → ∃ t', Read.read 0 t = .ok [] t' ∧ At t' q)
    (hlen : headLen + tailLen ≤ S.length) (hS : S.length < u64Size)
    (hs : StripHeadTailReader.Shows S At headLen tailLen s p) :
    ∃ s', Read.read 0 s = .ok [] s' ∧ StripHeadTailReader.Shows S At headLen tailLen s' p := by
  have hle := hs.le
  obtain ⟨t, hread, ht⟩ : ∃ t, StripHeadTailReader.takeRead (S.length - headLen - tailLen - p) 0 s.inner =
      .ok [] t ∧ At t (headLen + p) := by
    rw [StripHeadTailReader.takeRead, Nat.zero_min]
    split
    · exact ⟨s.inner, rfl, hs.inner⟩
    · exact hzero hs.inner
  refine ⟨{ s with inner := t }, ?_, ⟨ht, hs.headLen_eq, hs.tailLen_eq, hs.innerLen, hs.position, hs.le⟩⟩
  change StripHeadTailReader.read 0 s = _
  rw [StripHeadTailReader.read_apply hs hlen]
  refine bind_eq_ok.mpr ⟨[], { s with inner := t }, zoom_eq_ok.mpr ⟨t, hread, rfl⟩, ?_⟩
  rw [checkedAdd_of_lt (by rw [List.length_nil]; omega), ← hs.position]
  rfl

end View

namespace CompressionLayerReader

open CompressionLayerWriter (sizesInfoOf)
open StripHeadTailReader (Shows Usable strip)

section Presents

variable {σ : Type} [Patience] [Brotli] [BrotliDecompressor] [LayerReader σ] {D L P : Bytes} {At : σ → ℕ → Prop}
  {Live : σ → Prop} {level p : ℕ} {blocks : List (List Bytes)} {s : CompressionLayerReader σ}

/-- A read of nothing stays where it is, in a block or at the end. -/
theorem presents (hpacked : Packed level L P blocks) (hinverts : Brotli.Inverts)
    (h : Presents L At Live) :
    Presents P (Stands level P blocks Live : CompressionLayerReader σ → ℕ → Prop)
      (Seekable (sizesInfoOf level blocks) Live) where
  toIsCursor := (isCursor hpacked hinverts h.toIsCursor h.nothing).opened
  nothing {s p} hs := by
    have hle := (isCursor hpacked hinverts h.toIsCursor h.nothing).le hs
    change ∃ s', panicAs panicError (read 0) s = .ok [] s' ∧ _
    rcases hle.lt_or_eq with hp | rfl
    · obtain ⟨j, s', hrun, hj, -, -, hs'⟩ :=
        read_stands hpacked hinverts h.toIsCursor h.nothing hs hp 0
      obtain rfl := Nat.le_zero.mp hj
      rw [slice_zero_length] at hrun
      exact ⟨s', by rw [panicAs, hrun], hs'⟩
    · exact ⟨s, by rw [panicAs, read_end hpacked hs 0], hs⟩

/-- Opened on what the writer made, over a reader that presents it. -/
theorem opened {cap : ℕ} (hcap : Brotli.Bounded cap) (hinverts : Brotli.Inverts)
    (h : Presents D At Live) (htells : TellsLength D Live) (hD : D.length < i64Size)
    (hL : L = blocks.flatMap (Brotli.compressBlock level) ++ (sizesInfoOf level blocks).footer)
    (hpacked : Packed level L P blocks) (hdrop : D.drop p = emptyOptsSerialization ++ L) {inner : σ}
    (hinner : At inner p) :
    ∃ layer layer₀ View LiveView, newSkipMagic inner = .ok layer ∧
      LayerReader.initializeLayer layer = .ok () layer₀ ∧ Presents P View LiveView ∧ View layer₀ 0 := by
  have hword := i64Size_lt_u64Size
  have hlength := congrArg List.length hdrop
  rw [List.length_drop, List.length_append, emptyOptsSerialization, List.length_singleton] at hlength
  have hfooter := (sizesInfoOf level blocks).length_footer
  have hLlen : 0 < L.length := by
    rw [hL, List.length_append]
    omega
  obtain ⟨view, hnew, hview, hstrip, hlen⟩ := newSkipMagic_of_tells h.toIsCursor htells hD hdrop
    (.inl (by omega)) hinner
  have hbelow := StripHeadTailReader.isCursor h.toIsCursor (show p + 1 + 0 ≤ D.length from hlen) hD
  rw [hstrip] at hbelow
  have hzero : ∀ {t : StripHeadTailReader σ} {q}, Shows D At (p + 1) 0 t q →
      ∃ t', Read.read 0 t = .ok [] t' ∧ Shows D At (p + 1) 0 t' q :=
    fun ht => ht.read_zero h.nothing hlen (hD.trans hword)
  obtain ⟨view', q, hfooter, hview'⟩ := readFooter_of_zero hbelow hzero (hpacked.fits hcap) hL
    (hbelow.live hview)
  refine ⟨_, ⟨.ready view', some (sizesInfoOf level blocks), 0⟩, _, _, hnew, ?_,
    presents hpacked hinverts ⟨hbelow, hzero⟩, rfl, rfl, Nat.zero_le _,
    Or.inl ⟨view', 0, rfl, hbelow.live hview', rfl⟩⟩
  change initializeLayer _ = _
  rw [initializeLayer]
  dsimp only
  rw [hfooter]

end Presents

end CompressionLayerReader

end Mla
