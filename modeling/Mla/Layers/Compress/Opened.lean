import Mla.Io.Presents
import Mla.Layers.Compress.Cursor
import Mla.Reads

/-!
# Opening the compression layer

The layer begins with its options and ends with the index, which is found from its length in
the last 8 bytes. Opened on what the writer produced, the reader stands at the start of the
data.
-/

namespace Mla

open Io

/-! ## The index -/

namespace SizesInfo

/-- The numbers of the index fit their fields. -/
structure Fits (info : SizesInfo) : Prop where
  count : 4 * info.compressedSizes.length + 12 < u64Size
  size : ∀ v ∈ info.compressedSizes, v < u32Size
  last : info.lastBlockSize < u32Size

theorem Fits.decodes {σ : Type} [Patience] [Read Error σ] {info : SizesInfo} (h : info.Fits) :
    Decodes (deserialize : EStateM Error σ SizesInfo) info.encode info := by
  have hcount := h.count
  have hword : u32Size = 256 ^ 4 := rfl
  have hsizes : Decodes (deserializeVec deserializeU32 : EStateM Error σ (List ℕ))
      (encodeVec (leBytes 4) info.compressedSizes) info.compressedSizes :=
    decodes_vec (by omega) fun v hv => decodes_u32 (hword ▸ h.size v hv)
  have hlast : Decodes (deserializeU32 : EStateM Error σ ℕ) (leBytes 4 info.lastBlockSize)
      info.lastBlockSize := decodes_u32 (hword ▸ h.last)
  exact hsizes.bind (hlast.map (SizesInfo.mk info.compressedSizes))

end SizesInfo

/-! ## What the writer produces -/

namespace CompressionLayerWriter

variable [Patience] [Brotli] {config : CompressionConfig} {P D : Bytes} {cap : ℕ}
  {s : CompressionLayerWriter (RawLayerWriter (VecWriter Error))}

/-- The start of the layer. -/
def header : Bytes := compressionLayerMagic ++ emptyOptsSerialization

/-- `D` is what the layer writes for `P`. -/
def Produced (config : CompressionConfig) (P D : Bytes) : Prop :=
  ∃ (s s' : CompressionLayerWriter (RawLayerWriter (VecWriter Error))) (w : VecWriter Error),
    new ⟨⟨[]⟩⟩ config = .ok s ∧ Taken s P s' ∧ LayerWriter.finalize s' = .ok w ∧ w.data = D

omit [Brotli] in
theorem emits_header :
    Emits (do put compressionLayerMagic; Opts.dump :
      EStateM Error (RawLayerWriter (VecWriter Error)) ℕ) header 1 :=
  (Emits.put compressionLayerMagic).seq emits_opts

theorem keeps_new (hnew : new ⟨⟨[]⟩⟩ config = .ok s) :
    Keeps config.compressionLevel RawLayerWriter.Got header s [] := by
  rw [new] at hnew
  split at hnew
  · rename_i inner hrun
    obtain rfl := Except.ok.inj hnew
    obtain ⟨-, hgot⟩ := emits_header.ok RawLayerWriter.appends_got RawLayerWriter.got_nil hrun
    exact keeps_newSkipHeader hgot config
  · cases hnew

/-- The layer writes any data. -/
theorem exists_produced (hcap : Brotli.Bounded cap) (config : CompressionConfig)
    (hP : P.length < u64Size) : ∃ D, Produced config P D := by
  obtain ⟨inner, hrun⟩ := emits_header.accept RawLayerWriter.appends_got
    (RawLayerWriter.accepts_got 9) RawLayerWriter.got_nil (by decide) (by decide)
  have hnew : new ⟨⟨[]⟩⟩ config = .ok (newSkipHeader inner config) := by
    rw [new, hrun]
  have hkeeps := keeps_new hnew
  have happ : Appends (Keeps config.compressionLevel RawLayerWriter.Got header) :=
    appends RawLayerWriter.appends_got hcap RawLayerWriter.accepts_got
  obtain ⟨s, htaken⟩ := happ.exists_taken
    (accepts RawLayerWriter.appends_got hcap RawLayerWriter.accepts_got P.length) hkeeps P
    (Nat.zero_add _).le
  obtain ⟨blocks, inner', hend, -⟩ := Keeps.laysOut RawLayerWriter.appends_got hcap
    RawLayerWriter.accepts_got (happ.taken hkeeps htaken) hP
  exact ⟨_, _, s, _, hnew, htaken, Except.bind_eq_ok.mpr ⟨inner', hend, rfl⟩, rfl⟩

end CompressionLayerWriter

namespace CompressionLayerReader

open CompressionLayerWriter (sizesInfoOf)

section Packed

variable [Brotli] {P L D : Bytes} {cap level : ℕ} {blocks : List (List Bytes)}

/-- The bytes of the layer are those of its blocks between header and footer. -/
theorem packed_of_produced [Patience] {config : CompressionConfig} (hcap : Brotli.Bounded cap)
    (h : CompressionLayerWriter.Produced config P D) (hne : P ≠ []) (hP : P.length < i64Size) :
    ∃ blocks L, L = blocks.flatMap (Brotli.compressBlock config.compressionLevel) ++
        (sizesInfoOf config.compressionLevel blocks).footer ∧
      Packed config.compressionLevel L P blocks ∧ D = CompressionLayerWriter.header ++ L := by
  have hword := i64Size_lt_u64Size
  obtain ⟨s, s', w, hnew, htaken, hfinalize, rfl⟩ := h
  have happ : Appends (CompressionLayerWriter.Keeps config.compressionLevel RawLayerWriter.Got
      CompressionLayerWriter.header) :=
    CompressionLayerWriter.appends RawLayerWriter.appends_got hcap RawLayerWriter.accepts_got
  obtain ⟨blocks, inner, hrun, hgot, hpieces, hlast, -, hle⟩ :=
    CompressionLayerWriter.Keeps.laysOut RawLayerWriter.appends_got hcap RawLayerWriter.accepts_got
      (happ.taken (CompressionLayerWriter.keeps_new hnew) htaken) (hP.trans hword)
  obtain ⟨inner', hrun', hw⟩ := Except.bind_eq_ok.mp hfinalize
  obtain rfl := Except.ok.inj (hrun.symm.trans hrun')
  obtain rfl := Except.ok.inj hw
  refine ⟨blocks, _, rfl, ⟨hne, hpieces, ⟨_, fun h => ?_, rfl⟩, hlast, hle, hP⟩, hgot⟩
  have hlength := congrArg List.length h
  rw [SizesInfo.length_footer, List.length_nil] at hlength
  omega

theorem Packed.length_flatten_le (hpacked : Packed level L P blocks) {b : List Bytes}
    (hb : b ∈ blocks) : b.flatten.length ≤ uncompressedDataSize := by
  have hpiece : b.flatten ∈ piecesOf uncompressedDataSize P := by
    rw [← hpacked.pieces]
    exact List.mem_map_of_mem hb
  obtain ⟨i, -, hi⟩ := List.mem_map.mp hpiece
  rw [← hi, length_slice]
  exact Nat.min_le_left _ _

/-- The index of the writer fits its fields. -/
theorem Packed.fits (hpacked : Packed level L P blocks) (hcap : Brotli.Bounded cap) :
    (sizesInfoOf level blocks).Fits where
  count := by
    have hcount := hpacked.length_eq
    have hlt := hpacked.lt
    have hword : u64Size = 18446744073709551616 := rfl
    have hword' : i64Size = 9223372036854775808 := rfl
    rw [Packed.length_sizes, hword]
    rw [uncompressedDataSize_eq] at hcount
    omega
  size v hv := by
    obtain ⟨b, hb, rfl⟩ := List.mem_map.mp hv
    exact (hcap.le level (hpacked.length_flatten_le hb)).trans_lt hcap.lt
  last := hpacked.le.trans_lt (by decide)

theorem Packed.length_layer_le (hpacked : Packed level L P blocks) (hcap : Brotli.Bounded cap)
    (hL : L = blocks.flatMap (Brotli.compressBlock level) ++ (sizesInfoOf level blocks).footer) :
    L.length ≤ (cap + 4) * ((P.length + (uncompressedDataSize - 1)) / uncompressedDataSize) + 29 := by
  have hbody := Brotli.length_flatMap_compressBlock_le hcap level fun b hb =>
    hpacked.length_flatten_le hb
  rw [← hpacked.length_eq, hL, List.length_append, SizesInfo.length_footer, Packed.length_sizes,
    Nat.add_mul]
  omega

end Packed

/-! ## Opening -/

section Opening

variable {σ : Type} [Patience] [BrotliDecompressor]

omit [BrotliDecompressor] in
/-- The index is found at the end of the layer, where a read of nothing returns nothing. -/
theorem readFooter_of_zero [Read Error σ] [Seek Error σ] {closed : Prop} {S body : Bytes}
    {info : SizesInfo} {At : σ → ℕ → Prop} {Live : σ → Prop} (hcursor : IsCursor closed S At Live)
    (hzero : ∀ {s p}, At s p → ∃ s', Read.read 0 s = .ok [] s' ∧ At s' p) (hfits : info.Fits)
    (hS : S = body ++ info.footer) {inner : σ} (hinner : Live inner) :
    ∃ inner' q, readFooter inner = .ok info inner' ∧ At inner' q := by
  have hlen : S.length = body.length + (9 + (info.encode.length + 8)) := by
    rw [hS, SizesInfo.footer, List.length_append, List.length_append, List.length_append,
      length_emptyTailOptsSerialization, length_leBytes]
  have hsmall : info.encode.length < u64Size := by
    rw [SizesInfo.length_encode]
    exact hfits.count
  have hindex : S = (body ++ emptyTailOptsSerialization) ++ info.encode ++
      leBytes 8 info.encode.length := by
    rw [hS, SizesInfo.footer]
    simp only [List.append_assoc]
  have hbefore : (body ++ emptyTailOptsSerialization).length = body.length + 9 := by
    rw [List.length_append, length_emptyTailOptsSerialization]
  obtain ⟨s₁, hseek, hat₁⟩ := hcursor.seekEnd hinner (t := S.length - 8) (Or.inl (by omega))
  have hoffset : ((S.length - 8 : ℕ) : ℤ) - S.length = -8 := by omega
  rw [hoffset] at hseek
  have hlast : S.drop (S.length - 8) = leBytes 8 info.encode.length := by
    rw [hindex, List.drop_left']
    rw [← hindex, List.length_append, hbefore]
    omega
  obtain ⟨s₂, hu64, hat₂⟩ := (decodes_u64 hsmall).ok hcursor.toDelivers hat₁
    (hlast ▸ List.prefix_rfl)
  obtain ⟨s₃, hback, hat₃⟩ := hcursor.seekStart (hcursor.live hat₂) (t := body.length + 9)
    (Or.inl (by omega))
  have htake := Take.delivers hcursor.toDelivers hzero
    (show body.length + 9 + info.encode.length ≤ S.length by omega)
  have hslice : slice S (body.length + 9) info.encode.length = info.encode :=
    slice_eq_mid hindex hbefore.symm rfl
  rw [hslice] at htake
  have hwithin : Take.Within At (body.length + 9) info.encode.length
      (Take.new s₃ info.encode.length) 0 := ⟨hat₃, Nat.add_zero _⟩
  obtain ⟨t, hrun, ht⟩ := hfits.decodes.ok htake hwithin List.prefix_rfl
  have hstart : checkedSub (S.length - 8) info.encode.length = some (body.length + 9) := by
    rw [checkedSub_of_le (by omega)]
    congr 1
    omega
  refine ⟨t.inner, _, ?_, ht.1⟩
  refine bind_eq_ok.mpr ⟨_, s₁, liftIo_eq_ok.mpr hseek, bind_eq_ok.mpr ⟨_, s₂, hu64,
    bind_eq_ok.mpr ⟨_, s₂, okOr_eq_ok.mpr ⟨hstart, rfl⟩, bind_eq_ok.mpr ⟨_, s₃,
      liftIo_eq_ok.mpr hback, ?_⟩⟩⟩⟩
  rw [hrun]

omit [BrotliDecompressor] in
theorem readFooter_eq [Read Error σ] [Seek Error σ] {S body : Bytes} {info : SizesInfo}
    {At : σ → ℕ → Prop} {Live : σ → Prop} (hcursor : IsCursor True S At Live) (hfits : info.Fits)
    (hS : S = body ++ info.footer) {inner : σ} (hinner : Live inner) :
    ∃ inner' q, readFooter inner = .ok info inner' ∧ At inner' q :=
  readFooter_of_zero hcursor (fun hat => hcursor.stop trivial hat (Or.inl rfl)) hfits hS hinner

open StripHeadTailReader (strip Shows)

variable [LayerReader σ] {D L P : Bytes} {At : σ → ℕ → Prop} {Live : σ → Prop} {inner : σ} {p : ℕ}

/-- Behind the options the reader shows the rest of the layer. -/
theorem newSkipMagic_of_tells {closed : Prop} (hcursor : IsCursor closed D At Live)
    (htells : TellsLength D Live) (hD : D.length < i64Size)
    (hdrop : D.drop p = emptyOptsSerialization ++ L) (hthere : Target closed D (p + 1))
    (hinner : At inner p) :
    ∃ view, newSkipMagic inner = .ok ⟨.ready view, none, 0⟩ ∧
      Shows D At (p + 1) 0 view 0 ∧ strip D (p + 1) 0 = L ∧ p + 1 ≤ D.length := by
  have hword := i64Size_lt_u64Size
  have hlength := congrArg List.length hdrop
  rw [List.length_drop, List.length_append, emptyOptsSerialization, List.length_singleton]
    at hlength
  have hlen : p + 1 ≤ D.length := by omega
  have hstrip : strip D (p + 1) 0 = L := by
    rw [strip, slice, ← List.drop_drop, hdrop]
    change List.take _ L = L
    exact List.take_of_length_le (by omega)
  obtain ⟨s₁, hopts, hat₁⟩ := decodes_opts.ok hcursor.toDelivers hinner
    (hdrop ▸ List.prefix_append _ _)
  obtain ⟨s₂, hcurrent, hat₂⟩ := hcursor.seekCurrent hat₁ hthere
  obtain ⟨s₃, hend, hlive₃⟩ := htells (hcursor.live hat₂)
  obtain ⟨s₄, hback, hat₄⟩ := hcursor.seekStart hlive₃ hthere
  have hzero : ((p + 1 : ℕ) : ℤ) - (p + emptyOptsSerialization.length : ℕ) = 0 := sub_self _
  rw [hzero] at hcurrent
  have hnew : StripHeadTailReader.new s₄ (p + 1) 0 D.length 0 =
      .ok ⟨s₄, p + 1, 0, D.length, 0⟩ := by
    rw [StripHeadTailReader.new, checkedAdd_of_lt (by omega)]
    change (if D.length < p + 1 + 0 then _ else _) = _
    rw [if_neg (by omega)]
    rfl
  refine ⟨⟨s₄, p + 1, 0, D.length, 0⟩, ?_, ⟨hat₄, rfl, rfl, rfl, rfl, Nat.zero_le _⟩, hstrip, hlen⟩
  refine Except.bind_eq_ok.mpr ⟨_, runOn_eq_ok.mpr hopts, Except.bind_eq_ok.mpr ⟨_,
    runOn_eq_ok.mpr (liftIo_eq_ok.mpr hcurrent), Except.bind_eq_ok.mpr ⟨_,
      runOn_eq_ok.mpr (liftIo_eq_ok.mpr hend), Except.bind_eq_ok.mpr ⟨_,
        runOn_eq_ok.mpr (liftIo_eq_ok.mpr hback), Except.bind_eq_ok.mpr ⟨_, hnew, rfl⟩⟩⟩⟩⟩

theorem newSkipMagic_shows (hcursor : IsCursor True D At Live) (hD : D.length < i64Size)
    (hdrop : D.drop p = emptyOptsSerialization ++ L) (hinner : At inner p) :
    ∃ view, newSkipMagic inner = .ok ⟨.ready view, none, 0⟩ ∧
      Shows D At (p + 1) 0 view 0 ∧ strip D (p + 1) 0 = L ∧ p + 1 ≤ D.length := by
  have hlength := congrArg List.length hdrop
  rw [List.length_drop, List.length_append, emptyOptsSerialization, List.length_singleton]
    at hlength
  have hlen : p + 1 ≤ D.length := by omega
  exact newSkipMagic_of_tells hcursor hcursor.tellsLength hD hdrop
    (hlen.lt_or_eq.imp id fun h => ⟨trivial, h⟩) hinner

variable [Brotli] {cap : ℕ}

/-- Opened on what the writer produced, the reader stands at the start of the data. -/
theorem initializeLayer_stands (hcursor : IsCursor True D At Live) (hD : D.length < i64Size)
    (hcap : Brotli.Bounded cap) {blocks : List (List Bytes)} {level : ℕ}
    (hL : L = blocks.flatMap (Brotli.compressBlock level) ++ (sizesInfoOf level blocks).footer)
    (hpacked : Packed level L P blocks) (hdrop : D.drop p = emptyOptsSerialization ++ L)
    (hinner : At inner p) :
    ∃ s s₀, newSkipMagic inner = .ok s ∧
      CompressionLayerReader.initializeLayer s = .ok () s₀ ∧
      IsCursor True L (Shows D At (p + 1) 0) (StripHeadTailReader.Usable D Live (p + 1) 0) ∧
      Stands level P blocks (StripHeadTailReader.Usable D Live (p + 1) 0) s₀ 0 := by
  obtain ⟨view, hnew, hview, hstrip, hlen⟩ := newSkipMagic_shows hcursor hD hdrop hinner
  have hbelow := StripHeadTailReader.isCursor hcursor (show p + 1 + 0 ≤ D.length from hlen) hD
  rw [hstrip] at hbelow
  obtain ⟨view', q, hfooter, hview'⟩ := readFooter_eq hbelow (hpacked.fits hcap) hL
    (hbelow.live hview)
  refine ⟨_, ⟨.ready view', some (sizesInfoOf level blocks), 0⟩, hnew, ?_, hbelow, rfl, rfl,
    Nat.zero_le _, Or.inl ⟨view', 0, rfl, hbelow.live hview', rfl⟩⟩
  rw [CompressionLayerReader.initializeLayer]
  dsimp only
  rw [hfooter]

/-- Where the data end with a full block, a seek to their end is refused. -/
theorem Stands.not_followsCursor {level : ℕ}
    {blocks : List (List Bytes)} {s : CompressionLayerReader σ}
    (hs : Stands level P blocks Live s 0) (hpacked : Packed level L P blocks)
    (hdvd : uncompressedDataSize ∣ P.length) : ¬ ∀ calls, FollowsCursor P 0 s calls := by
  intro hfollows
  obtain ⟨s', hseek, -⟩ := hfollows [.seek (.start P.length)] P.length rfl (Nat.le_refl _)
  have hrefused := seekStart_refused hpacked hs.seekable hdvd
  rw [← seek_eq hs.info (w := .start P.length) nofun rfl] at hrefused
  change panicAs panicError (seek _) s = _ at hseek
  rw [panicAs, hrefused] at hseek
  cases hseek

/-- Opened on what the writer produced, the reader is a cursor over the data, if and only if
these do not end with a full block. -/
theorem readsAsCursor_iff {config : CompressionConfig} (hcap : Brotli.Bounded cap)
    (hinverts : Brotli.Inverts) (hne : P ≠ [])
    (hproduced : CompressionLayerWriter.Produced config P D) (hP : P.length < i64Size)
    (hD : D.length < i64Size) (hcursor : IsCursor True D At Live) (hinner : At inner 8) :
    ∃ s s₀, newSkipMagic inner = .ok s ∧ CompressionLayerReader.initializeLayer s = .ok () s₀ ∧
      ((∀ calls, FollowsCursor P 0 s₀ calls) ↔ ¬ uncompressedDataSize ∣ P.length) := by
  obtain ⟨blocks, L, hL, hpacked, hdata⟩ := packed_of_produced hcap hproduced hne hP
  have hdrop : D.drop 8 = emptyOptsSerialization ++ L := by
    rw [hdata, CompressionLayerWriter.header, List.append_assoc]
    rfl
  obtain ⟨s, s₀, hnew, hinit, hbelow, hstands⟩ :=
    initializeLayer_stands hcursor hD hcap hL hpacked hdrop hinner
  refine ⟨s, s₀, hnew, hinit, fun hfollows hdvd => hstands.not_followsCursor hpacked hdvd hfollows,
    fun hdvd calls => ?_⟩
  have hopen := isCursor hpacked hinverts hbelow
    fun hat => hbelow.stop (n := 0) trivial hat (Or.inl rfl)
  rw [eq_true hdvd] at hopen
  exact hopen.followsCursor calls hstands

end Opening

section Example

open StoredBrotli

/-- A layer over memory that its writer has produced, and a reader at its options. -/
theorem exists_stored {P : Bytes} (hne : P ≠ []) (hP : P.length ≤ uncompressedDataSize) :
    ∃ D : Bytes, CompressionLayerWriter.Produced .defaultConfig P D ∧ D.length < i64Size ∧
      IsCursor True (D.drop 0)
        (RawLayerReader.Behind (fun (c : Cursor Error) p => Cursor.At D c p ∧ p ≤ D.length) 0)
        (fun s => s.inner.data = D ∧ s.offsetPos = 0) ∧
      RawLayerReader.Behind (fun (c : Cursor Error) p => Cursor.At D c p ∧ p ≤ D.length) 0
        ⟨⟨D, 8⟩, 0⟩ 8 := by
  have hword : i64Size = 9223372036854775808 := rfl
  have hword' := i64Size_lt_u64Size
  have hunit := uncompressedDataSize_eq
  have hsmall : P.length < i64Size := by omega
  obtain ⟨D, hproduced⟩ :=
    CompressionLayerWriter.exists_produced bounded .defaultConfig (hsmall.trans hword')
  obtain ⟨blocks, L, hL, hpacked, hdata⟩ := packed_of_produced bounded hproduced hne hsmall
  have hlayer := hpacked.length_layer_le bounded hL
  have hlength : D.length = 9 + L.length := by
    rw [hdata, List.length_append]
    rfl
  have hD : D.length < i64Size := by
    rw [uncompressedDataSize_eq] at hlayer
    omega
  exact ⟨D, hproduced, hD, RawLayerReader.isCursor (Cursor.isCursor (hD.trans hword'))
    (Nat.zero_le _) (hD.trans hword'), ⟨⟨rfl, rfl⟩, by omega⟩, rfl⟩

/-- Three bytes, stored in memory and read from there. -/
theorem readsAsCursor_iff_stored :
    ∃ (D : Bytes) (s s₀ : CompressionLayerReader (StripHeadTailReader (RawLayerReader (Cursor Error)))),
      CompressionLayerWriter.Produced .defaultConfig [1, 2, 3] D ∧
      newSkipMagic ⟨⟨D, 8⟩, 0⟩ = .ok s ∧ CompressionLayerReader.initializeLayer s = .ok () s₀ ∧
      ((∀ calls, FollowsCursor [1, 2, 3] 0 s₀ calls) ↔
        ¬ uncompressedDataSize ∣ ([1, 2, 3] : Bytes).length) := by
  obtain ⟨D, hproduced, hD, hcursor, hinner⟩ := exists_stored (List.cons_ne_nil 1 [2, 3]) (by decide)
  obtain ⟨s, s₀, hnew, hinit, hiff⟩ := readsAsCursor_iff bounded inverts (List.cons_ne_nil _ _) hproduced
    (by decide) hD hcursor hinner
  exact ⟨D, s, s₀, hproduced, hnew, hinit, hiff⟩

/-- In a full block of zeros the end of the data cannot be sought. -/
theorem fullBlock_not_followsCursor :
    Brotli.Bounded 4194498 ∧ Brotli.Inverts ∧
    ∃ (D : Bytes) (s s₀ : CompressionLayerReader (StripHeadTailReader (RawLayerReader (Cursor Error)))),
      CompressionLayerWriter.Produced .defaultConfig (List.replicate uncompressedDataSize 0) D ∧
      newSkipMagic ⟨⟨D, 8⟩, 0⟩ = .ok s ∧ CompressionLayerReader.initializeLayer s = .ok () s₀ ∧
      ¬ ∀ calls, FollowsCursor (List.replicate uncompressedDataSize 0) 0 s₀ calls := by
  have hlen : (List.replicate uncompressedDataSize (0 : UInt8)).length = uncompressedDataSize :=
    List.length_replicate
  generalize List.replicate uncompressedDataSize (0 : UInt8) = P at hlen ⊢
  have hne : P ≠ [] := by
    rintro rfl
    cases hlen
  obtain ⟨D, hproduced, hD, hcursor, hinner⟩ := exists_stored hne hlen.le
  obtain ⟨blocks, L, hL, hpacked, hdata⟩ :=
    packed_of_produced bounded hproduced hne (hlen.trans_lt (by decide))
  have hdrop : D.drop 8 = emptyOptsSerialization ++ L := by
    rw [hdata, CompressionLayerWriter.header, List.append_assoc]
    rfl
  obtain ⟨s, s₀, hnew, hinit, -, hstands⟩ :=
    initializeLayer_stands hcursor hD bounded hL hpacked hdrop hinner
  exact ⟨bounded, inverts, D, s, s₀, hproduced, hnew, hinit,
    hstands.not_followsCursor hpacked (hlen ▸ Nat.dvd_refl _)⟩

end Example

end CompressionLayerReader

end Mla
