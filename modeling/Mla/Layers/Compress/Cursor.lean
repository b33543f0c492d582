import Mla.Io.Yields
import Mla.Layers.Compress.Reader
import Mla.Layers.Compress.Written

/-!
# The compression reader as a cursor

On what the writer produced, the reader is a cursor over the data, as long as these do not
end with a full block. When they do, a seek to their end is refused and leaves the reader
without a state.
-/

namespace Mla

open Io

/-! ## The index -/

namespace SizesInfo

variable {info : SizesInfo} {k : ℕ}

/-- The length of the data, as the index has it. -/
def dataLength (info : SizesInfo) : ℕ :=
  uncompressedDataSize * (info.compressedSizes.length - 1) + info.lastBlockSize

/-- The size of block `k`, as the index has it. -/
def blockSize (info : SizesInfo) (k : ℕ) : ℕ :=
  if k < info.compressedSizes.length - 1 then uncompressedDataSize else info.lastBlockSize

/-- The place of block `k` in the layer below. -/
def blockStart (info : SizesInfo) (k : ℕ) : ℕ := (info.compressedSizes.take k).sum

theorem maxUncompressedPos_eq_ok {m : ℕ} :
    info.maxUncompressedPos = .ok m ↔
      0 < info.compressedSizes.length ∧ m = info.dataLength ∧ m < u64Size := by
  rw [maxUncompressedPos]
  by_cases hlen : 0 < info.compressedSizes.length
  · rw [checkedSub_of_le hlen]
    constructor
    · intro h
      obtain ⟨full, hfull, h⟩ := Except.bind_eq_ok.mp h
      obtain rfl := Except.ok.inj hfull
      obtain ⟨len, hmul, h⟩ := Except.bind_eq_ok.mp h
      have hmul := checkedMul_eq (orError_eq_ok.mp hmul)
      have hsum := orError_eq_ok.mp h
      refine ⟨hlen, ?_, checkedAdd_lt hsum⟩
      rw [checkedAdd_eq hsum, hmul, dataLength]
    · rintro ⟨-, rfl, hlt⟩
      rw [dataLength] at hlt ⊢
      have hmul : checkedMul (info.compressedSizes.length - 1) uncompressedDataSize =
          some (uncompressedDataSize * (info.compressedSizes.length - 1)) :=
        checkedMul_of_lt (by omega)
      exact Except.bind_eq_ok.mpr ⟨_, rfl, Except.bind_eq_ok.mpr ⟨_, orError_eq_ok.mpr hmul,
        orError_eq_ok.mpr (checkedAdd_of_lt hlt)⟩⟩
  · constructor
    · intro h
      obtain ⟨full, hfull, -⟩ := Except.bind_eq_ok.mp h
      rw [orError_eq_ok, checkedSub, if_neg (by omega)] at hfull
      cases hfull
    · exact fun h => absurd h.1 hlen

theorem uncompressedBlockSizeAt_eq (hlen : 0 < info.compressedSizes.length) :
    info.uncompressedBlockSizeAt k = .ok (info.blockSize k) := by
  rw [uncompressedBlockSizeAt, checkedSub_of_le hlen, blockSize]
  split <;> rename_i hk <;> simp [orError, bind, Except.bind, hk, pure, Except.pure]

end SizesInfo

namespace CompressionLayerReader

variable {σ : Type} [BrotliDecompressor] {s : CompressionLayerReader σ} {info : SizesInfo}
  {k m n : ℕ} {inner : σ}

/-! ## Opening a block -/

theorem posInStream_eq (hinfo : s.sizesInfo = some info) (hmax : info.maxUncompressedPos = .ok m)
    (pos : ℕ) : s.posInStream pos = .ok (decide (pos < m)) := by
  rw [posInStream, hinfo]
  dsimp only
  rw [hmax]
  rfl

theorem checkStart_eq (hinfo : s.sizesInfo = some info) (hmax : info.maxUncompressedPos = .ok m)
    (msg : String) (k : ℕ) :
    s.checkStart (uncompressedDataSize * k) msg =
      if uncompressedDataSize * k < m then .ok () else .error .endOfStream := by
  rw [checkStart, Nat.mul_mod_right, if_neg (not_not_intro rfl), posInStream_eq hinfo hmax]
  by_cases hk : uncompressedDataSize * k < m
  · simp [hk, bind, Except.bind, pure, Except.pure]
  · simp [hk, bind, Except.bind, throw, throwThe, MonadExceptOf.throw]

/-- The block at a position is opened by a seek of the layer below to its place. -/
theorem openBlock_eq [Seek Error σ] (hinfo : s.sizesInfo = some info)
    (hmax : info.maxUncompressedPos = .ok m) (hk : uncompressedDataSize * k < m)
    (hlen : k < info.compressedSizes.length) :
    s.openBlock inner (uncompressedDataSize * k) =
      match Seek.seek (.start (info.blockStart k)) inner with
      | .ok _ inner' => .ok (Decompressor.new inner' info.compressedSizes[k], info.blockSize k)
      | .error e _ => .error (.ioError e) := by
  have hdiv : uncompressedDataSize * k / uncompressedDataSize = k :=
    Nat.mul_div_cancel_left k uncompressedDataSize_pos
  rw [openBlock, syncInnerWithUncompressedPos, checkStart_eq hinfo hmax, if_pos hk, hinfo]
  dsimp only [bind, Except.bind]
  rw [hdiv, runOn, liftIo_apply, SizesInfo.blockStart]
  cases Seek.seek (SeekFrom.start (info.compressedSizes.take k).sum) inner with
  | error e inner' => rfl
  | ok u inner' =>
      have hsize : info.compressedBlockSizeAt (uncompressedDataSize * k) =
          .ok info.compressedSizes[k] := by
        rw [SizesInfo.compressedBlockSizeAt, hdiv, List.getElem?_eq_getElem hlen]
        rfl
      have hdecompressor : s.newDecompressorAt inner' (uncompressedDataSize * k) =
          .ok (.new inner' info.compressedSizes[k]) := by
        rw [newDecompressorAt, checkStart_eq hinfo hmax, if_pos hk, hinfo]
        dsimp only [bind, Except.bind]
        rw [hsize]
        rfl
      have hblock : s.uncompressedBlockSizeAt (uncompressedDataSize * k) =
          .ok (info.blockSize k) := by
        rw [uncompressedBlockSizeAt, checkStart_eq hinfo hmax, if_pos hk, hinfo]
        dsimp only [bind, Except.bind]
        rw [hdiv, SizesInfo.uncompressedBlockSizeAt_eq (by omega)]
      dsimp only [pure, Except.pure]
      rw [hdecompressor]
      dsimp only
      rw [hblock]

/-- At a position outside the stream no block is opened. -/
theorem openBlock_refused [Seek Error σ] (hinfo : s.sizesInfo = some info)
    (hmax : info.maxUncompressedPos = .ok m) (hk : m ≤ uncompressedDataSize * k) :
    s.openBlock inner (uncompressedDataSize * k) = .error .endOfStream := by
  rw [openBlock, syncInnerWithUncompressedPos, checkStart_eq hinfo hmax, if_neg (by omega)]
  rfl

/-! ## Reading -/

section Read

variable [Read Error σ] [Seek Error σ] {fuel : ℕ}

/-- Behind the data there is nothing to read. -/
theorem readLoop_end (hinfo : s.sizesInfo = some info) (hmax : info.maxUncompressedPos = .ok m)
    (hpos : m ≤ s.underlayerPos) : readLoop n (fuel + 1) s = .ok [] s := by
  rw [readLoop]
  dsimp only
  rw [posInStream_eq hinfo hmax, decide_eq_false (by omega)]

/-- Between two blocks the next one is opened. -/
theorem readLoop_ready (hinfo : s.sizesInfo = some info) (hmax : info.maxUncompressedPos = .ok m)
    (hpos : s.underlayerPos < m) (hstate : s.state = .ready inner) :
    readLoop n (fuel + 1) s =
      match s.openBlock inner s.underlayerPos with
      | .error e => .error (.error (.other e)) { s with state := .empty }
      | .ok (decompressor, uncompressedSize) =>
          readLoop n fuel { s with state := .inData 0 uncompressedSize decompressor } := by
  rw [readLoop]
  dsimp only
  rw [posInStream_eq hinfo hmax, decide_eq_true hpos, hstate]
  all_goals rfl

/-- A block that has been read is closed. -/
theorem readLoop_full (hinfo : s.sizesInfo = some info) (hmax : info.maxUncompressedPos = .ok m)
    (hpos : s.underlayerPos < m) {size : ℕ} {d : Decompressor σ}
    (hstate : s.state = .inData size size d) :
    readLoop n (fuel + 1) s = readLoop n fuel { s with state := .ready d.intoInner } := by
  rw [readLoop]
  dsimp only
  rw [posInStream_eq hinfo hmax, decide_eq_true hpos, hstate]
  dsimp only
  rw [if_neg (Nat.lt_irrefl _), if_pos rfl]

theorem readLoop_inData (hinfo : s.sizesInfo = some info)
    (hmax : info.maxUncompressedPos = .ok m) (hpos : s.underlayerPos < m) {read size : ℕ}
    {d : Decompressor σ} (hstate : s.state = .inData read size d) (hread : read < size) :
    readLoop n (fuel + 1) s = noPanic (readInData read size d n) s := by
  rw [readLoop]
  dsimp only
  rw [posInStream_eq hinfo hmax, decide_eq_true hpos, hstate]
  dsimp only
  rw [if_neg (by omega), if_neg (by omega)]

omit [Seek Error σ] in
/-- Within a block the bytes that the decompressor returns are counted. -/
theorem readInData_eq {read size : ℕ} {d d' : Decompressor σ} {bs : Bytes}
    (hrun : Read.read (min (size - read) n) d = .ok bs d')
    (hpos : s.underlayerPos + bs.length < u64Size) (hsize : read + bs.length < u32Size) :
    readInData read size d n s =
      .ok bs { s with
        state := .inData (read + bs.length) size d'
        underlayerPos := s.underlayerPos + bs.length } := by
  rw [readInData, hrun]
  dsimp only
  rw [checkedAdd_of_lt hpos]
  dsimp only
  rw [if_pos hsize]

end Read

/-! ## The blocks of the writer -/

section Packed

variable [Brotli] [Read Error σ] [Seek Error σ]

/-- Below the reader lie the blocks of `P` and their index. -/
structure Packed (level : ℕ) (L P : Bytes) (blocks : List (List Bytes)) : Prop where
  nonempty : P ≠ []
  pieces : blocks.map List.flatten = piecesOf uncompressedDataSize P
  body : ∃ rest, rest ≠ [] ∧ L = blocks.flatMap (Brotli.compressBlock level) ++ rest
  lastBlockSize : (CompressionLayerWriter.sizesInfoOf level blocks).lastBlockSize +
    uncompressedDataSize * (blocks.length - 1) = P.length
  le : (CompressionLayerWriter.sizesInfoOf level blocks).lastBlockSize ≤ uncompressedDataSize
  lt : P.length < i64Size

open CompressionLayerWriter (sizesInfoOf)

variable {level : ℕ} {L P : Bytes} {blocks : List (List Bytes)} {p t : ℕ}

namespace Packed

omit [Read Error σ] [Seek Error σ] [BrotliDecompressor]

theorem length_eq (h : Packed level L P blocks) :
    blocks.length = (P.length + (uncompressedDataSize - 1)) / uncompressedDataSize := by
  rw [← length_piecesOf, ← h.pieces, List.length_map]

theorem length_pos (h : Packed level L P blocks) : 0 < blocks.length := by
  have hlength := h.length_eq
  have hpos := List.length_pos_iff.mpr h.nonempty
  rw [uncompressedDataSize_eq] at hlength
  omega

theorem length_sizes (level : ℕ) (blocks : List (List Bytes)) :
    (sizesInfoOf level blocks).compressedSizes.length = blocks.length := List.length_map ..

/-- A block holds some of the data, and none lies behind the last block. -/
theorem lt_iff (h : Packed level L P blocks) (k : ℕ) :
    k < blocks.length ↔ uncompressedDataSize * k < P.length := by
  have hlength := h.length_eq
  rw [uncompressedDataSize_eq] at hlength ⊢
  omega

theorem dataLength_eq (h : Packed level L P blocks) :
    (sizesInfoOf level blocks).dataLength = P.length := by
  rw [SizesInfo.dataLength, length_sizes, ← h.lastBlockSize, Nat.add_comm]

theorem maxUncompressedPos_eq (h : Packed level L P blocks) :
    (sizesInfoOf level blocks).maxUncompressedPos = .ok P.length := by
  refine SizesInfo.maxUncompressedPos_eq_ok.mpr ⟨?_, h.dataLength_eq.symm, ?_⟩
  · rw [length_sizes]
    exact h.length_pos
  · have hword := i64Size_lt_u64Size
    exact h.lt.trans hword

theorem blockSize_eq (h : Packed level L P blocks) (hk : k < blocks.length) :
    (sizesInfoOf level blocks).blockSize k =
      min uncompressedDataSize (P.length - uncompressedDataSize * k) := by
  have hlast := h.lastBlockSize
  have hle := h.le
  rw [SizesInfo.blockSize, length_sizes]
  split
  · rename_i hfull
    have hmul : uncompressedDataSize * (k + 1) ≤ uncompressedDataSize * (blocks.length - 1) :=
      Nat.mul_le_mul_left _ (by omega)
    rw [Nat.mul_succ] at hmul
    omega
  · rename_i hfull
    obtain rfl : k = blocks.length - 1 := by omega
    omega

theorem flatten_eq (h : Packed level L P blocks) (hk : k < blocks.length) :
    blocks[k].flatten = slice P (uncompressedDataSize * k) uncompressedDataSize := by
  have hget : (blocks.map List.flatten)[k]? = (piecesOf uncompressedDataSize P)[k]? :=
    congrArg (·[k]?) h.pieces
  rw [List.getElem?_map, List.getElem?_eq_getElem hk, piecesOf, List.getElem?_map,
    List.getElem?_range (by rw [← h.length_eq]; exact hk)] at hget
  exact Option.some.inj hget

theorem length_flatten (h : Packed level L P blocks) (hk : k < blocks.length) :
    blocks[k].flatten.length = (sizesInfoOf level blocks).blockSize k := by
  rw [h.flatten_eq hk, h.blockSize_eq hk, length_slice]

theorem blockStart_eq (level : ℕ) (blocks : List (List Bytes)) (k : ℕ) :
    (sizesInfoOf level blocks).blockStart k =
      ((blocks.take k).flatMap (Brotli.compressBlock level)).length := by
  rw [SizesInfo.blockStart, sizesInfoOf, ← List.map_take, List.length_flatMap]

/-- The place of a block in the layer below holds what it was compressed to. -/
theorem slice_eq (h : Packed level L P blocks) (hk : k < blocks.length)
    (hlen : k < (sizesInfoOf level blocks).compressedSizes.length) :
    slice L ((sizesInfoOf level blocks).blockStart k) (sizesInfoOf level blocks).compressedSizes[k] =
      Brotli.compressBlock level blocks[k] ∧
    (sizesInfoOf level blocks).blockStart k + (sizesInfoOf level blocks).compressedSizes[k] <
      L.length := by
  obtain ⟨rest, hne, hrest⟩ := h.body
  have hpos := List.length_pos_iff.mpr hne
  have hsize : (sizesInfoOf level blocks).compressedSizes[k] =
      (Brotli.compressBlock level blocks[k]).length := List.getElem_map ..
  have hsplit : L = (blocks.take k).flatMap (Brotli.compressBlock level) ++
      Brotli.compressBlock level blocks[k] ++
        ((blocks.drop (k + 1)).flatMap (Brotli.compressBlock level) ++ rest) := by
    rw [hrest]
    conv_lhs => rw [← List.take_append_drop k blocks, List.drop_eq_getElem_cons hk]
    simp only [List.flatMap_append, List.flatMap_cons, List.append_assoc]
  constructor
  · exact slice_eq_mid hsplit (blockStart_eq level blocks k) hsize
  · rw [blockStart_eq, hsize]
    conv_rhs => rw [hsplit]
    simp only [List.length_append]
    omega

end Packed

/-! ## Standing in a block -/

/-- The decompressor has handed out `r` bytes of the data of its block. -/
def AtBlock (Live : σ → Prop) (data : Bytes) (d : Decompressor σ) (r : ℕ) : Prop :=
  ∃ At : BrotliDecompressor.Decoder × Take σ → ℕ → Prop, Delivers True data At ∧
    At (d.decoder, d.source) r ∧ ∀ {e t q}, At (e, t) q → Live t.inner

omit [Brotli] [Seek Error σ] in
theorem delivers_atBlock (Live : σ → Prop) (data : Bytes) :
    Delivers True data (AtBlock Live data) where
  le := by
    rintro d r ⟨At, hdelivers, hat, -⟩
    exact hdelivers.le hat
  progress := by
    rintro d r n ⟨At, hdelivers, hat, hlive⟩ hr hn
    obtain ⟨k, ⟨e, t⟩, hread, hk, hkn, hrk, hat'⟩ := hdelivers.progress hat hr hn
    refine ⟨k, ⟨e, t⟩, ?_, hk, hkn, hrk, At, hdelivers, hat', hlive⟩
    rw [Decompressor.read_eq, hread]
  stop := by
    rintro d r n - ⟨At, hdelivers, hat, hlive⟩ hstop
    obtain ⟨⟨e, t⟩, hread, hat'⟩ := hdelivers.stop trivial hat hstop
    refine ⟨⟨e, t⟩, ?_, At, hdelivers, hat', hlive⟩
    rw [Decompressor.read_eq, hread]

/-- The reader stands at position `p` of `P`, between two blocks or in one. -/
structure Stands (level : ℕ) (P : Bytes) (blocks : List (List Bytes)) (Live : σ → Prop)
    (s : CompressionLayerReader σ) (p : ℕ) : Prop where
  info : s.sizesInfo = some (sizesInfoOf level blocks)
  pos : s.underlayerPos = p
  le : p ≤ P.length
  state : (∃ inner k, s.state = .ready inner ∧ Live inner ∧ p = uncompressedDataSize * k) ∨
    ∃ k r d, s.state = .inData r ((sizesInfoOf level blocks).blockSize k) d ∧
      k < blocks.length ∧ p = uncompressedDataSize * k + r ∧
      r ≤ (sizesInfoOf level blocks).blockSize k ∧
      AtBlock Live (slice P (uncompressedDataSize * k) uncompressedDataSize) d r

section Steps

variable {closed : Prop} {At : σ → ℕ → Prop} {Live : σ → Prop}
  (hpacked : Packed level L P blocks) (hinverts : Brotli.Inverts)
  (hcursor : IsCursor closed L At Live)
  (hzero : ∀ {inner : σ} {q}, At inner q → ∃ inner', Read.read 0 inner = .ok [] inner' ∧ At inner' q)
include hpacked hinverts hcursor hzero

/-- A block is opened at its start. -/
theorem openBlock_atBlock (hinfo : s.sizesInfo = some (sizesInfoOf level blocks))
    (hinner : Live inner) (hk : k < blocks.length) :
    ∃ d, s.openBlock inner (uncompressedDataSize * k) =
        .ok (d, (sizesInfoOf level blocks).blockSize k) ∧
      AtBlock Live (slice P (uncompressedDataSize * k) uncompressedDataSize) d 0 := by
  have hlen : k < (sizesInfoOf level blocks).compressedSizes.length := by
    rwa [Packed.length_sizes]
  obtain ⟨hslice, hend⟩ := hpacked.slice_eq hk hlen
  obtain ⟨inner', hseek, hat⟩ := hcursor.seekStart hinner
    (t := (sizesInfoOf level blocks).blockStart k) (Or.inl (by omega))
  refine ⟨.new inner' (sizesInfoOf level blocks).compressedSizes[k], ?_, ?_⟩
  · rw [openBlock_eq hinfo hpacked.maxUncompressedPos_eq ((hpacked.lt_iff k).mp hk)
      hlen, hseek]
  · have hdelivers := Take.delivers hcursor.toDelivers hzero hend.le
    rw [hslice] at hdelivers
    have hle : blocks[k].flatten.length ≤ uncompressedDataSize := by
      rw [hpacked.flatten_eq hk, length_slice]
      exact Nat.min_le_left _ _
    obtain ⟨At', hdata, hstart, hsource⟩ := hinverts level hle hdelivers
      (sizesInfoOf level blocks).compressedSizes[k]
    rw [hpacked.flatten_eq hk] at hdata
    refine ⟨At', hdata, hstart ⟨hat, Nat.add_zero _⟩, fun h => ?_⟩
    obtain ⟨q, hq⟩ := hsource h
    exact hcursor.live hq.1

omit hinverts hcursor hzero [Seek Error σ] in
/-- A read in a block that has not been read to its end. -/
theorem readInData_stands {r : ℕ} {d : Decompressor σ}
    (hinfo : s.sizesInfo = some (sizesInfoOf level blocks)) (hk : k < blocks.length)
    (hpos : s.underlayerPos = uncompressedDataSize * k + r)
    (hr : r < (sizesInfoOf level blocks).blockSize k)
    (hd : AtBlock Live (slice P (uncompressedDataSize * k) uncompressedDataSize) d r) (n : ℕ) :
    ∃ j s', readInData r ((sizesInfoOf level blocks).blockSize k) d n s =
        .ok (slice P s.underlayerPos j) s' ∧ j ≤ n ∧ (j = 0 → n = 0) ∧
      s.underlayerPos + j ≤ P.length ∧ Stands level P blocks Live s' (s.underlayerPos + j) := by
  have hsize := hpacked.blockSize_eq hk
  have hlen : (slice P (uncompressedDataSize * k) uncompressedDataSize).length =
      (sizesInfoOf level blocks).blockSize k := by rw [hsize, length_slice]
  obtain ⟨j, d', hread, hj, hjn, hrj, hd'⟩ : ∃ j d',
      Read.read (min ((sizesInfoOf level blocks).blockSize k - r) n) d =
        .ok (slice (slice P (uncompressedDataSize * k) uncompressedDataSize) r j) d' ∧
      j ≤ n ∧ (j = 0 → n = 0) ∧ r + j ≤ (sizesInfoOf level blocks).blockSize k ∧
      AtBlock Live (slice P (uncompressedDataSize * k) uncompressedDataSize) d' (r + j) := by
    rcases Nat.eq_zero_or_pos n with rfl | hn
    · obtain ⟨d', hread, hd'⟩ := (delivers_atBlock Live _).stop (n := 0) trivial hd (Or.inl rfl)
      refine ⟨0, d', ?_, Nat.le_refl _, fun _ => rfl, by omega, hd'⟩
      rw [Nat.min_zero, hread, slice_zero_length]
    · obtain ⟨j, d', hread, hj, hjn, hrj, hd'⟩ := (delivers_atBlock Live _).progress hd
        (by rw [hlen]; exact hr)
        (show 0 < min ((sizesInfoOf level blocks).blockSize k - r) n by omega)
      rw [hlen] at hrj
      exact ⟨j, d', hread, by omega, by omega, hrj, hd'⟩
  have hcut : slice (slice P (uncompressedDataSize * k) uncompressedDataSize) r j =
      slice P s.underlayerPos j := by
    rw [slice_slice_of_le (by omega), hpos]
  have hbytes : (slice P s.underlayerPos j).length = j := length_slice_of_le (by omega)
  have hlt := hpacked.lt
  have hword := i64Size_lt_u64Size
  have hunit := uncompressedDataSize_lt_u32Size
  rw [hcut] at hread
  refine ⟨j, _, readInData_eq hread (by omega) (by omega), hj, hjn, by omega, hinfo, ?_,
    by omega, Or.inr ⟨k, r + j, d', ?_, hk, by omega, by omega, hd'⟩⟩
  · change s.underlayerPos + (slice P s.underlayerPos j).length = _
    rw [hbytes]
  · change CompressionLayerReaderState.inData (r + (slice P s.underlayerPos j).length) _ d' = _
    rw [hbytes]

/-- From between two blocks a read opens the block that begins there. -/
theorem readLoop_ready_stands (fuel : ℕ) (hinfo : s.sizesInfo = some (sizesInfoOf level blocks))
    (hstate : s.state = .ready inner) (hinner : Live inner)
    (hpos : s.underlayerPos = uncompressedDataSize * k) (hlt : s.underlayerPos < P.length) (n : ℕ) :
    ∃ j s', readLoop n (fuel + 2) s = .ok (slice P s.underlayerPos j) s' ∧ j ≤ n ∧
      (j = 0 → n = 0) ∧ s.underlayerPos + j ≤ P.length ∧
      Stands level P blocks Live s' (s.underlayerPos + j) := by
  have hmax := hpacked.maxUncompressedPos_eq
  have hk : k < blocks.length := (hpacked.lt_iff k).mpr (by rwa [← hpos])
  have hsize : 0 < (sizesInfoOf level blocks).blockSize k := by
    rw [hpacked.blockSize_eq hk, ← hpos, uncompressedDataSize_eq]
    omega
  obtain ⟨d, hopen, hd⟩ := openBlock_atBlock hpacked hinverts hcursor hzero hinfo hinner hk
  rw [← hpos] at hopen
  obtain ⟨j, s', hrun, hj⟩ := readInData_stands
    (s := { s with state := .inData 0 ((sizesInfoOf level blocks).blockSize k) d }) hpacked hinfo
    hk hpos hsize hd n
  refine ⟨j, s', ?_, hj⟩
  rw [readLoop_ready hinfo hmax hlt hstate, hopen]
  refine (readLoop_inData (s := { s with state := .inData 0 _ d }) hinfo hmax hlt rfl hsize).trans ?_
  rw [noPanic, hrun]

/-- Reads hand the data out. -/
theorem read_stands (hs : Stands level P blocks Live s p) (hp : p < P.length) (n : ℕ) :
    ∃ j s', read n s = .ok (slice P p j) s' ∧ j ≤ n ∧ (j = 0 → n = 0) ∧ p + j ≤ P.length ∧
      Stands level P blocks Live s' (p + j) := by
  obtain rfl := hs.pos
  have hmax := hpacked.maxUncompressedPos_eq
  rcases hs.state with ⟨inner, k, hstate, hinner, hpos⟩ | ⟨k, r, d, hstate, hk, hpos, hr, hd⟩
  · exact readLoop_ready_stands hpacked hinverts hcursor hzero 1 hs.info hstate hinner hpos hp n
  · by_cases hfull : r = (sizesInfoOf level blocks).blockSize k
    · have hsize := hpacked.blockSize_eq hk
      obtain ⟨At', hdelivers, hat, hlive⟩ := hd
      have hnext : s.underlayerPos = uncompressedDataSize * (k + 1) := by
        rw [Nat.mul_succ]
        omega
      rw [read, readLoop_full hs.info hmax hp (by rw [hstate, hfull])]
      exact readLoop_ready_stands (s := { s with state := .ready d.intoInner }) hpacked hinverts
        hcursor hzero 0 hs.info rfl (hlive hat) hnext hp n
    · obtain ⟨j, s', hrun, hj⟩ := readInData_stands hpacked hs.info hk hpos (by omega) hd n
      refine ⟨j, s', ?_, hj⟩
      rw [read, readLoop_inData hs.info hmax hp hstate (by omega), noPanic, hrun]

omit hinverts hcursor hzero in
theorem read_end (hs : Stands level P blocks Live s P.length) (n : ℕ) : read n s = .ok [] s :=
  readLoop_end hs.info hpacked.maxUncompressedPos_eq hs.pos.ge

/-! ## Seeking -/

variable [Patience]

/-- What a seek needs of the reader. -/
def Seekable (info : SizesInfo) (Live : σ → Prop) (s : CompressionLayerReader σ) : Prop :=
  s.sizesInfo = some info ∧ ∃ inner, s.state.intoInner = some inner ∧ Live inner

omit hpacked hinverts hcursor hzero [Seek Error σ] [Patience] in
theorem Stands.seekable (hs : Stands level P blocks Live s p) :
    Seekable (sizesInfoOf level blocks) Live s := by
  refine ⟨hs.info, ?_⟩
  rcases hs.state with ⟨inner, k, hstate, hinner, -⟩ | ⟨k, r, d, hstate, -, -, -, At', -, hat, hlive⟩
  · exact ⟨inner, by rw [hstate]; rfl, hinner⟩
  · exact ⟨d.intoInner, by rw [hstate]; rfl, hlive hat⟩

/-- A seek to a place before the end of the data, or to their end within a block. -/
theorem seekStart_stands (hs : Seekable (sizesInfoOf level blocks) Live s) (ht : t ≤ P.length)
    (hblock : uncompressedDataSize * (t / uncompressedDataSize) < P.length) :
    ∃ s', seekStart t s = .ok t s' ∧ Stands level P blocks Live s' t := by
  obtain ⟨hinfo, inner, hstate, hinner⟩ := hs
  have hk := (hpacked.lt_iff _).mpr hblock
  have hsplit := Nat.div_add_mod t uncompressedDataSize
  have hrounded : t - t % uncompressedDataSize =
      uncompressedDataSize * (t / uncompressedDataSize) := by omega
  have hsize := hpacked.blockSize_eq hk
  have hmod : t % uncompressedDataSize < uncompressedDataSize := Nat.mod_lt _ uncompressedDataSize_pos
  obtain ⟨d, hopen, hd⟩ := openBlock_atBlock hpacked hinverts hcursor hzero hinfo hinner hk
  have hinside : 0 + t % uncompressedDataSize ≤ (slice P
      (uncompressedDataSize * (t / uncompressedDataSize)) uncompressedDataSize).length := by
    rw [length_slice]
    omega
  have hroom : ([] : Bytes).length + t % uncompressedDataSize ≤ t % uncompressedDataSize :=
    (Nat.zero_add _).le
  obtain ⟨d', sink, hcopy, hd', -⟩ := (delivers_atBlock Live _).copyTake_eq Sink.appends
    (Sink.accepts (t % uncompressedDataSize)) hd trivial hinside hroom
  rw [Nat.zero_add] at hd'
  refine ⟨{ s with
      state := .inData (t % uncompressedDataSize)
        ((sizesInfoOf level blocks).blockSize (t / uncompressedDataSize)) d'
      underlayerPos := t }, ?_, hinfo, rfl, ht,
    Or.inr ⟨t / uncompressedDataSize, t % uncompressedDataSize, d', rfl, hk, ?_, ?_, hd'⟩⟩
  · rw [seekStart, hstate]
    dsimp only
    rw [hrounded, hopen]
    dsimp only
    rw [hcopy]
  · exact hsplit.symm
  · omega

omit hinverts hcursor hzero in
/-- A seek to data that end with a full block is refused at their end. -/
theorem seekStart_refused (hs : Seekable (sizesInfoOf level blocks) Live s)
    (hdvd : uncompressedDataSize ∣ P.length) :
    seekStart P.length s = .error (.error (.other .endOfStream)) { s with state := .empty } := by
  obtain ⟨hinfo, inner, hstate, -⟩ := hs
  obtain ⟨k, hk⟩ := hdvd
  have hrounded : P.length - P.length % uncompressedDataSize = uncompressedDataSize * k := by
    rw [hk, Nat.mul_mod_right, Nat.sub_zero]
  rw [seekStart, hstate]
  dsimp only
  rw [hrounded, openBlock_refused hinfo hpacked.maxUncompressedPos_eq hk.le]

omit hinverts hcursor hzero [Brotli] hpacked in
theorem seek_eq (hinfo : s.sizesInfo = some info) {w : SeekFrom} (hw : w ≠ .current 0)
    (hasked : s.askedPosition info w = .ok t) : seek w s = seekStart t s := by
  rw [seek, hinfo]
  dsimp only
  rw [if_neg hw, hasked]

/-- The reader is a cursor over the data, which is closed unless they end with a full block. -/
theorem isCursor :
    IsCursor (¬ uncompressedDataSize ∣ P.length) P (Stands level P blocks Live)
      (Seekable (sizesInfoOf level blocks) Live) := by
  -- A place where a block begins or goes on.
  have hblock : ∀ {t : ℕ}, Target (¬ uncompressedDataSize ∣ P.length) P t →
      uncompressedDataSize * (t / uncompressedDataSize) < P.length := by
    intro t ht
    have hsplit := Nat.div_add_mod t uncompressedDataSize
    rcases ht with ht | ⟨hdvd, ht⟩
    · omega
    · have hmod : t % uncompressedDataSize ≠ 0 := fun h =>
        hdvd (ht ▸ Nat.dvd_of_mod_eq_zero h)
      omega
  have hgo : ∀ {s : CompressionLayerReader σ} {w : SeekFrom} {t : ℕ},
      Seekable (sizesInfoOf level blocks) Live s → w ≠ .current 0 →
      s.askedPosition (sizesInfoOf level blocks) w = .ok t →
      Target (¬ uncompressedDataSize ∣ P.length) P t →
      ∃ s', Seek.seek w s = .ok t s' ∧ Stands level P blocks Live s' t := by
    intro s w t hs hw hasked ht
    obtain ⟨s', hrun, hs'⟩ :=
      seekStart_stands hpacked hinverts hcursor hzero hs ht.le (hblock ht)
    refine ⟨s', ?_, hs'⟩
    change panicAs panicError (seek w) s = _
    rw [panicAs, seek_eq hs.1 hw hasked, hrun]
  have hlt := hpacked.lt
  constructor
  · exact
    { le := fun hs => hs.le
      progress := by
        intro s p n hs hp hn
        obtain ⟨j, s', hrun, hjn, hj, hpj, hs'⟩ :=
          read_stands hpacked hinverts hcursor hzero hs hp n
        refine ⟨j, s', ?_, by omega, hjn, hpj, hs'⟩
        change panicAs panicError (read n) s = _
        rw [panicAs, hrun]
      stop := by
        intro s p n _ hs hstop
        change ∃ s', panicAs panicError (read n) s = .ok [] s' ∧ _
        by_cases hend : p = P.length
        · subst hend
          exact ⟨s, by rw [panicAs, read_end hpacked hs], hs⟩
        · have hle := hs.le
          obtain ⟨j, s', hrun, hjn, -, -, hs'⟩ :=
            read_stands hpacked hinverts hcursor hzero hs (by omega) n
          obtain rfl : j = 0 := by omega
          refine ⟨s', ?_, hs'⟩
          rw [panicAs, hrun, slice_zero_length] }
  · exact fun hs => hs.seekable
  · exact fun hs ht => hgo hs nofun rfl ht
  · intro s t hs ht
    have hle := ht.le
    refine hgo hs nofun ?_ ht
    rw [askedPosition, if_neg (by omega), hpacked.maxUncompressedPos_eq]
    have hd : P.length - (-((t : ℤ) - P.length)).toNat = t := by omega
    dsimp only
    rw [if_neg (by omega), checkedSub_of_le (by omega), hd]
    rfl
  · intro s p t hs ht
    have hle := ht.le
    have hp := hs.le
    by_cases hsame : t = p
    · refine ⟨s, ?_, hsame ▸ hs⟩
      change panicAs panicError (seek _) s = _
      have hzero' : (t : ℤ) - p = 0 := by omega
      rw [panicAs, seek, hs.info]
      dsimp only
      rw [hzero', if_pos rfl, hs.pos, hsame]
    · refine hgo hs.seekable (fun h => hsame ?_) ?_ ht
      · have := SeekFrom.current.inj h
        omega
      · have hsum : (p : ℤ) + ((t : ℤ) - p) = t := by omega
        rw [askedPosition, hs.pos, toI64_of_lt (by omega)]
        change orError (i64CheckedAdd _ _) _ >>= _ = _
        rw [i64CheckedAdd_of_eq hsum (by omega)]
        change orError (toU64 (t : ℤ)) (ioOther "Negative position after seek is not allowed") = _
        rw [toU64_natCast]
        rfl

end Steps

end Packed

end CompressionLayerReader

end Mla
