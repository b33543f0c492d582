import Mla.Layers.Compress.Writer

/-!
# What the compression layer has written

However the data is cut into buffers, the layer writes its blocks of 4 MiB, each compressed
on its own: `Holds s blocks` says that the writer has been given the blocks, the last of
which may still be open, and holds from one call to the next.
-/

namespace Mla

open Io

/-! ## The index -/

namespace SizesInfo

def encode (info : SizesInfo) : Bytes :=
  encodeVec (leBytes 4) info.compressedSizes ++ leBytes 4 info.lastBlockSize

theorem length_encode (info : SizesInfo) :
    info.encode.length = 4 * info.compressedSizes.length + 12 := by
  have hflat : ∀ l : List ℕ, (l.flatMap (leBytes 4)).length = 4 * l.length := by
    intro l
    induction l with
    | nil => rfl
    | cons v l ih =>
        rw [List.flatMap_cons, List.length_append, ih, length_leBytes, List.length_cons]
        omega
  rw [encode, encodeVec, List.length_append, List.length_append, hflat, length_leBytes,
    length_leBytes]
  omega

theorem emits {ω : Type} [Patience] [Write Error ω] (info : SizesInfo) :
    Emits (info.serialize : EStateM Error ω ℕ) info.encode info.encode.length := by
  have hlen : ∀ v, (leBytes 4 v).length = 4 := length_leBytes 4
  exact Emits.addLength (emits_vec fun v _ => (emits_u32 v).cast rfl (hlen v).symm)
    ((emits_u32 _).cast rfl (hlen _).symm)

/-- The end of the layer: tail options, the index and its length. -/
def footer (info : SizesInfo) : Bytes :=
  emptyTailOptsSerialization ++ (info.encode ++ leBytes 8 info.encode.length)

theorem length_footer (info : SizesInfo) :
    info.footer.length = 4 * info.compressedSizes.length + 29 := by
  rw [footer, List.length_append, List.length_append, length_emptyTailOptsSerialization,
    length_leBytes, length_encode]
  omega

end SizesInfo

/-! ## Counting -/

namespace WriterWithCount

variable {ω : Type} [Write Error ω] {Got : ω → Bytes → Prop} {base : Bytes}

/-- The writer has passed on `acc`, and counted it. -/
def Counted (Got : ω → Bytes → Prop) (base : Bytes) (s : WriterWithCount ω) (acc : Bytes) : Prop :=
  Got s.inner (base ++ acc) ∧ s.pos = acc.length

theorem write_eq (buf : Bytes) (s : WriterWithCount ω) :
    Write.write buf s =
      match Write.write buf s.inner with
      | .ok written inner =>
          if u32Size ≤ written then
            .error (ioOther "Failed to convert written data size to u32") { s with inner := inner }
          else if u32Size ≤ s.pos + written then
            .error (ioOther "Overflow in WriterWithCount") { s with inner := inner }
          else .ok written ⟨inner, s.pos + written⟩
      | .error e inner => .error e { s with inner := inner } := by
  change write buf s = _
  rw [write, bind_apply, zoom]
  cases Write.write buf s.inner with
  | error e inner => rfl
  | ok written inner =>
      dsimp only
      by_cases hbig : u32Size ≤ written
      · rw [if_pos hbig, if_pos hbig]
        rfl
      · rw [if_neg hbig, if_neg hbig, get_bind]
        by_cases hover : u32Size ≤ s.pos + written
        · rw [if_pos hover, if_pos hover]
          rfl
        · rw [if_neg hover, if_neg hover]
          rfl

theorem appends (happ : Appends Got) : Appends (Counted Got base) where
  ok {s s' acc buf k} hs hne hrun := by
    rw [write_eq] at hrun
    cases hwrite : Write.write buf s.inner with
    | error e inner =>
        rw [hwrite] at hrun
        cases hrun
    | ok written inner =>
        simp only [hwrite] at hrun
        split at hrun
        · cases hrun
        · split at hrun
          · cases hrun
          · obtain ⟨rfl, rfl⟩ := EStateM.Result.ok.inj hrun
            obtain ⟨hle, hgot⟩ := happ.ok hs.1 hne hwrite
            refine ⟨hle, by rwa [← List.append_assoc], ?_⟩
            rw [List.length_append, List.length_take, min_eq_left hle, hs.2]
  interrupted {s s' acc buf e} hs hne hrun hint := by
    rw [write_eq] at hrun
    cases hwrite : Write.write buf s.inner with
    | error e' inner =>
        rw [hwrite] at hrun
        obtain ⟨rfl, rfl⟩ := EStateM.Result.error.inj hrun
        exact ⟨happ.interrupted hs.1 hne hwrite hint, hs.2⟩
    | ok written inner =>
        simp only [hwrite] at hrun
        split at hrun
        · obtain ⟨rfl, -⟩ := EStateM.Result.error.inj hrun
          cases hint
        · split at hrun
          · obtain ⟨rfl, -⟩ := EStateM.Result.error.inj hrun
            cases hint
          · cases hrun

theorem accepts (happ : Appends Got) {m n : ℕ} (haccepts : Accepts n Got) (hm : m < u32Size)
    (hn : base.length + m ≤ n) : Accepts m (Counted Got base) := by
  intro s acc buf hs hne hlen
  obtain ⟨k, inner, hwrite, hk⟩ := haccepts hs.1 hne (by rw [List.length_append]; omega)
  obtain ⟨hle, -⟩ := happ.ok hs.1 hne hwrite
  have hpos := hs.2
  refine ⟨k, ⟨inner, s.pos + k⟩, ?_, hk⟩
  rw [write_eq, hwrite]
  dsimp only
  rw [if_neg (by omega), if_neg (by omega)]

end WriterWithCount

/-! ## The open block -/

namespace CompressorWriter

open WriterWithCount (Counted)

variable {ω : Type} [Brotli] [Patience] [Write Error ω] {Got : ω → Bytes → Prop}
  {base buf : Bytes} {level cap n : ℕ} {s : CompressorWriter ω} {bufs : List Bytes}

/-- The compressor of a block has been given `bufs`. -/
structure Given (level : ℕ) (Got : ω → Bytes → Prop) (base : Bytes) (s : CompressorWriter ω)
    (bufs : List Bytes) : Prop where
  encoder : s.encoder = (Brotli.feed (Brotli.encoder level) bufs).2
  output : Counted Got base s.output (Brotli.feed (Brotli.encoder level) bufs).1

omit [Patience] [Write Error ω] in
theorem given_new {inner : ω} (hinner : Got inner base) :
    Given level Got base (new (.new inner) level) [] where
  encoder := rfl
  output := ⟨by rwa [Brotli.feed, List.append_nil], rfl⟩

theorem Given.write_eq (happ : Appends Got) (hcap : Brotli.Bounded cap) (haccepts : Accepts n Got)
    (hn : base.length + cap ≤ n) (h : Given level Got base s bufs)
    (hlen : (bufs ++ [buf]).flatten.length ≤ uncompressedDataSize) :
    ∃ s', s.write buf = .ok buf.length s' ∧ Given level Got base s' (bufs ++ [buf]) := by
  have hfeed := Brotli.length_feed_le hcap level hlen
  rw [Brotli.feed_append, ← h.encoder] at hfeed
  obtain ⟨output, hwrite, houtput⟩ := (WriterWithCount.appends happ).writeAll_eq
    (WriterWithCount.accepts happ haccepts hcap.lt hn) h.output
    (by rwa [← List.length_append])
  refine ⟨⟨output, (Brotli.encode s.encoder buf).2⟩, ?_, ?_, ?_⟩
  · rw [write, hwrite]
  · rw [Brotli.feed_append, ← h.encoder]
  · rw [Brotli.feed_append, ← h.encoder]
    exact houtput

/-- What is written when a block is closed is the block. -/
theorem Given.intoInner (happ : Appends Got) (hcap : Brotli.Bounded cap)
    (haccepts : Accepts n Got) (hn : base.length + cap ≤ n) (h : Given level Got base s bufs)
    (hlen : bufs.flatten.length ≤ uncompressedDataSize) :
    Counted Got base s.intoInner (Brotli.compressBlock level bufs) := by
  have hblock := hcap.le level hlen
  rw [Brotli.compressBlock, ← h.encoder, List.length_append] at hblock
  obtain ⟨output, hwrite, houtput⟩ := (WriterWithCount.appends happ).writeAll_eq
    (WriterWithCount.accepts happ haccepts hcap.lt hn) h.output hblock
  rw [CompressorWriter.intoInner, hwrite, Brotli.compressBlock, ← h.encoder]
  exact houtput

end CompressorWriter

/-! ## Calls -/

namespace CompressionLayerWriter

open WriterWithCount (Counted)
open CompressorWriter (Given)

variable {ω W : Type} [Brotli] {Got : ω → Bytes → Prop} {base buf : Bytes} {level cap n : ℕ}
  {s : CompressionLayerWriter ω} {blocks closed : List (List Bytes)} {bufs : List Bytes}

/-- The writer has closed the blocks `closed`. -/
structure Closed (level : ℕ) (s : CompressionLayerWriter ω) (closed : List (List Bytes)) : Prop where
  level_eq : s.compressionLevel = level
  sizes : s.compressedSizes = closed.map fun b => (Brotli.compressBlock level b).length
  full : ∀ b ∈ closed, b.flatten.length = uncompressedDataSize

/-- The writer has been given the blocks, and the last one is open. -/
inductive Holds (level : ℕ) (Got : ω → Bytes → Prop) (base : Bytes) :
    CompressionLayerWriter ω → List (List Bytes) → Prop
  | ready {s : CompressionLayerWriter ω} {inner : ω} (hstate : s.state = .ready inner)
      (hclosed : Closed level s []) (hinner : Got inner base) : Holds level Got base s []
  | inData {s : CompressionLayerWriter ω} {compress : CompressorWriter ω}
      {closed : List (List Bytes)} {bufs : List Bytes}
      (hstate : s.state = .inData bufs.flatten.length compress) (hclosed : Closed level s closed)
      (hne : bufs.flatten ≠ []) (hle : bufs.flatten.length ≤ uncompressedDataSize)
      (hgiven : Given level Got (base ++ closed.flatMap (Brotli.compressBlock level)) compress bufs) :
      Holds level Got base s (closed ++ [bufs])

omit [Brotli] in
theorem flatten_le_of_full {closed : List (List Bytes)}
    (hfull : ∀ b ∈ closed, b.flatten.length = uncompressedDataSize) :
    ∀ b ∈ closed, b.flatten.length ≤ uncompressedDataSize :=
  fun b hb => (hfull b hb).le

/-- Closed blocks leave room for one more. -/
theorem Closed.room (hclosed : Closed level s closed) (hcap : Brotli.Bounded cap)
    (hn : base.length + cap * (closed.length + 1) ≤ n) :
    (base ++ closed.flatMap (Brotli.compressBlock level)).length + cap ≤ n := by
  have hlen := Brotli.length_flatMap_compressBlock_le hcap level
    (flatten_le_of_full hclosed.full)
  rw [Nat.mul_succ] at hn
  rw [List.length_append]
  omega

variable [Patience] [Write Error ω]

theorem writeReady_eq (happ : Appends Got) (hcap : Brotli.Bounded cap) (haccepts : Accepts n Got)
    (hclosed : Closed level s closed) {inner : ω}
    (hinner : Got inner (base ++ closed.flatMap (Brotli.compressBlock level)))
    (hn : base.length + cap * (closed.length + 1) ≤ n) (hne : buf ≠ []) :
    ∃ s', writeReady inner buf s = .ok (min uncompressedDataSize buf.length) s' ∧
      Holds level Got base s' (closed ++ [[buf.take (min uncompressedDataSize buf.length)]]) := by
  have hpos := List.length_pos_iff.mpr hne
  have hsize : 0 < uncompressedDataSize := by rw [uncompressedDataSize_eq]; omega
  have htake : (buf.take (min uncompressedDataSize buf.length)).length =
      min uncompressedDataSize buf.length := by
    rw [List.length_take, min_eq_left (Nat.min_le_right _ _)]
  have hflat : [buf.take (min uncompressedDataSize buf.length)].flatten =
      buf.take (min uncompressedDataSize buf.length) := List.flatten_singleton
  have hlen : ([] ++ [buf.take (min uncompressedDataSize buf.length)]).flatten.length ≤
      uncompressedDataSize := by
    rw [List.nil_append, hflat, htake]
    exact Nat.min_le_left _ _
  have hnew : Given level Got (base ++ closed.flatMap (Brotli.compressBlock level))
      (CompressorWriter.new (.new inner) level) [] := CompressorWriter.given_new hinner
  obtain ⟨compress, hwrite, hgiven⟩ :=
    hnew.write_eq happ hcap haccepts (hclosed.room hcap hn) hlen
  rw [htake] at hwrite
  refine ⟨{ s with state := .inData (min uncompressedDataSize buf.length) compress }, ?_, ?_⟩
  · rw [writeReady, hclosed.level_eq, hwrite]
  · refine .inData (by rw [hflat, htake]) ⟨hclosed.level_eq, hclosed.sizes, hclosed.full⟩ ?_ ?_ hgiven
    · rw [hflat, ← List.length_pos_iff, htake]
      omega
    · rw [hflat, htake]
      exact Nat.min_le_left _ _

/-- A block that is open and full is closed. -/
theorem Closed.close (happ : Appends Got) (hcap : Brotli.Bounded cap) (haccepts : Accepts n Got)
    (hclosed : Closed level s closed) {compress : CompressorWriter ω}
    (hgiven : Given level Got (base ++ closed.flatMap (Brotli.compressBlock level)) compress bufs)
    (hle : bufs.flatten.length ≤ uncompressedDataSize)
    (hn : base.length + cap * (closed.length + 1) ≤ n) :
    Got compress.intoInner.inner
        (base ++ (closed ++ [bufs]).flatMap (Brotli.compressBlock level)) ∧
      s.compressedSizes ++ [compress.intoInner.pos] =
        (closed ++ [bufs]).map fun b => (Brotli.compressBlock level b).length := by
  obtain ⟨hgot, hpos⟩ := hgiven.intoInner happ hcap haccepts (hclosed.room hcap hn) hle
  constructor
  · rwa [List.flatMap_append, List.flatMap_singleton, ← List.append_assoc]
  · rw [hpos, hclosed.sizes, List.map_append, List.map_singleton]

/-- A call takes a part of its buffer that is not empty. -/
theorem Holds.write_eq (happ : Appends Got) (hcap : Brotli.Bounded cap) (haccepts : Accepts n Got)
    (h : Holds level Got base s blocks) (hn : base.length + cap * (blocks.length + 1) ≤ n)
    (hne : buf ≠ []) :
    ∃ k s' blocks', Write.write buf s = .ok k s' ∧ 0 < k ∧ k ≤ buf.length ∧
      Holds level Got base s' blocks' ∧
      blocks'.flatten.flatten = blocks.flatten.flatten ++ buf.take k ∧
      blocks'.length ≤ blocks.length + 1 := by
  have hpos := List.length_pos_iff.mpr hne
  have hsize : 0 < uncompressedDataSize := by rw [uncompressedDataSize_eq]; omega
  change ∃ k s' blocks', write buf s = .ok k s' ∧ _
  cases h with
  | @ready inner hstate hclosed hinner =>
      obtain ⟨s', hrun, hs'⟩ := writeReady_eq happ hcap haccepts hclosed
        (by rwa [List.flatMap_nil, List.append_nil]) hn hne
      refine ⟨min uncompressedDataSize buf.length, s', _, ?_, by omega, Nat.min_le_right _ _, hs',
        by simp, by simp⟩
      rw [write, hstate]
      exact hrun
  | @inData compress closed bufs hstate hclosed hbufs hle hgiven =>
      rw [List.length_append, List.length_singleton] at hn
      have hroom : base.length + cap * (closed.length + 1) ≤ n := by
        rw [Nat.mul_succ cap (closed.length + 1)] at hn
        omega
      by_cases hfull : bufs.flatten.length = uncompressedDataSize
      · obtain ⟨hgot, hsizes⟩ := hclosed.close happ hcap haccepts hgiven hle hroom
        have hclosed' : Closed level
            { s with compressedSizes := s.compressedSizes ++ [compress.intoInner.pos] }
            (closed ++ [bufs]) := by
          refine ⟨hclosed.level_eq, hsizes, ?_⟩
          intro b hb
          rcases List.mem_append.mp hb with hb | hb
          · exact hclosed.full b hb
          · rw [List.mem_singleton.mp hb, hfull]
        obtain ⟨s', hrun, hs'⟩ := writeReady_eq happ hcap haccepts hclosed' hgot
          (by rwa [List.length_append, List.length_singleton]) hne
        refine ⟨min uncompressedDataSize buf.length, s', _, ?_, by omega, Nat.min_le_right _ _, hs',
          by simp, by simp⟩
        rw [write, hstate]
        dsimp only
        rw [if_neg (by omega), if_pos hfull]
        exact hrun
      · have htake : (buf.take (min (uncompressedDataSize - bufs.flatten.length) buf.length)).length =
            min (uncompressedDataSize - bufs.flatten.length) buf.length := by
          rw [List.length_take, min_eq_left (Nat.min_le_right _ _)]
        have hlen : (bufs ++ [buf.take (min (uncompressedDataSize - bufs.flatten.length)
            buf.length)]).flatten.length =
            bufs.flatten.length + min (uncompressedDataSize - bufs.flatten.length) buf.length := by
          rw [List.flatten_append, List.length_append, List.flatten_singleton, htake]
        have hsmall : (bufs ++ [buf.take (min (uncompressedDataSize - bufs.flatten.length)
            buf.length)]).flatten.length ≤ uncompressedDataSize := by
          rw [hlen]
          omega
        obtain ⟨compress', hwrite, hgiven'⟩ := hgiven.write_eq happ hcap haccepts
          (hclosed.room hcap hroom) hsmall
        rw [htake] at hwrite
        refine ⟨min (uncompressedDataSize - bufs.flatten.length) buf.length,
          { s with state := .inData (min (uncompressedDataSize - bufs.flatten.length) buf.length +
            bufs.flatten.length) compress' },
          closed ++ [bufs ++ [buf.take (min (uncompressedDataSize - bufs.flatten.length) buf.length)]],
          ?_, by omega, Nat.min_le_right _ _, ?_, by simp, by simp⟩
        · rw [write, hstate]
          dsimp only
          rw [if_neg (by omega), if_neg hfull, hwrite]
        · refine .inData ?_ ⟨hclosed.level_eq, hclosed.sizes, hclosed.full⟩ ?_ ?_ hgiven'
          · rw [hlen, Nat.add_comm]
          · rw [List.flatten_append]
            exact List.append_ne_nil_of_left_ne_nil hbufs _
          · rw [hlen]
            omega

omit [Patience] [Write Error ω] in
/-- The blocks that are held are those of the data. -/
theorem Holds.map_flatten (h : Holds level Got base s blocks) :
    blocks.map List.flatten = piecesOf uncompressedDataSize blocks.flatten.flatten := by
  have hsize := uncompressedDataSize_pos
  cases h with
  | ready => rw [List.map_nil, List.flatten_nil, List.flatten_nil, piecesOf_nil hsize]
  | @inData compress closed bufs _ hclosed hne hle _ =>
      have hfull : ∀ b ∈ closed.map List.flatten, b.length = uncompressedDataSize := by
        intro b hb
        obtain ⟨c, hc, rfl⟩ := List.mem_map.mp hb
        exact hclosed.full c hc
      rw [List.map_append, List.map_singleton, List.flatten_append, List.flatten_append,
        List.flatten_singleton, ← piecesOf_flatten hsize hfull hne hle, List.flatten_append,
        List.flatten_singleton, List.flatten_flatten]

/-! ## The end of the layer -/

/-- The index of some blocks. -/
def sizesInfoOf (level : ℕ) (blocks : List (List Bytes)) : SizesInfo where
  compressedSizes := blocks.map fun b => (Brotli.compressBlock level b).length
  lastBlockSize := (blocks.getLastD []).flatten.length

omit [Brotli] in
theorem emits_writeFooter (info : SizesInfo) :
    Emits (writeFooter info : EStateM Error ω Unit) info.footer () :=
  (Emits.put emptyTailOptsSerialization).seq
    (info.emits.bind (((emits_u64 _).bind (Emits.pure ())).cast (List.append_nil _) rfl))

theorem Holds.finalizeLayer_eq (happ : Appends Got) (hcap : Brotli.Bounded cap)
    (haccepts : Accepts n Got) (h : Holds level Got base s blocks)
    (hn : base.length + cap * blocks.length + 4 * blocks.length + 29 ≤ n)
    (hlen : 4 * blocks.length + 29 < u64Size) :
    ∃ inner, finalizeLayer s = .ok inner ∧
      Got inner (base ++ (blocks.flatMap (Brotli.compressBlock level) ++
        (sizesInfoOf level blocks).footer)) := by
  have hfooter : (sizesInfoOf level blocks).footer.length = 4 * blocks.length + 29 := by
    rw [SizesInfo.length_footer, sizesInfoOf, List.length_map]
  have hemits := emits_writeFooter (ω := ω) (sizesInfoOf level blocks)
  cases h with
  | @ready inner hstate hclosed hinner =>
      rw [List.length_nil] at hn
      obtain ⟨inner', hrun⟩ := hemits.accept happ haccepts hinner
        (by rw [hfooter, List.length_nil]; omega) (by rw [hfooter]; exact hlen)
      obtain ⟨-, hgot⟩ := hemits.ok happ hinner hrun
      refine ⟨inner', ?_, hgot⟩
      have hinfo : (⟨s.compressedSizes, 0⟩ : SizesInfo) = sizesInfoOf level [] := by
        rw [hclosed.sizes]
        rfl
      rw [finalizeLayer, hstate]
      dsimp only
      rw [hinfo, runOn_eq_ok.mpr hrun]
      rfl
  | @inData compress closed bufs hstate hclosed hne hle hgiven =>
      rw [List.length_append, List.length_singleton] at hn
      have hroom : base.length + cap * (closed.length + 1) ≤ n := by omega
      obtain ⟨hgot, hsizes⟩ := hclosed.close happ hcap haccepts hgiven hle hroom
      have hblocks : ∀ b ∈ closed ++ [bufs], b.flatten.length ≤ uncompressedDataSize := by
        intro b hb
        rcases List.mem_append.mp hb with hb | hb
        · exact (hclosed.full b hb).le
        · rwa [List.mem_singleton.mp hb]
      have hbody := Brotli.length_flatMap_compressBlock_le hcap level hblocks
      rw [List.length_append, List.length_singleton] at hbody
      obtain ⟨inner', hrun⟩ := hemits.accept happ haccepts hgot
        (by rw [hfooter, List.length_append, List.length_append, List.length_singleton]; omega)
        (by rw [hfooter]; exact hlen)
      obtain ⟨-, hgot'⟩ := hemits.ok happ hgot hrun
      refine ⟨inner', ?_, by rwa [← List.append_assoc]⟩
      have hinfo : (⟨s.compressedSizes ++ [compress.intoInner.pos], bufs.flatten.length⟩ : SizesInfo) =
          sizesInfoOf level (closed ++ [bufs]) := by
        rw [hsizes, sizesInfoOf, List.getLastD_concat]
      rw [finalizeLayer, hstate]
      dsimp only
      rw [hinfo, runOn_eq_ok.mpr hrun]
      rfl

end CompressionLayerWriter

/-! ## The layer as a whole -/

namespace CompressionLayerWriter

variable {ω W : Type} [Brotli] [Patience] {Got : ω → Bytes → Prop} {base P : Bytes} {level cap : ℕ}
  {s s' : CompressionLayerWriter ω} {blocks : List (List Bytes)}

/-- The writer has been given `P`. -/
def Keeps (level : ℕ) (Got : ω → Bytes → Prop) (base : Bytes) (s : CompressionLayerWriter ω)
    (P : Bytes) : Prop :=
  ∃ blocks, Holds level Got base s blocks ∧ blocks.flatten.flatten = P

omit [Patience] in
theorem keeps_newSkipHeader {inner : ω} (hinner : Got inner base) (config : CompressionConfig) :
    Keeps config.compressionLevel Got base (newSkipHeader inner config) [] :=
  ⟨[], .ready rfl ⟨rfl, rfl, by simp⟩ hinner, rfl⟩

omit [Patience] in
/-- All blocks but the last are full, and the index gives the size of the last. -/
theorem Holds.lastBlockSize (h : Holds level Got base s blocks) :
    (sizesInfoOf level blocks).lastBlockSize + uncompressedDataSize * (blocks.length - 1) =
        blocks.flatten.flatten.length ∧
      (blocks.flatten.flatten ≠ [] → 0 < (sizesInfoOf level blocks).lastBlockSize) ∧
      (sizesInfoOf level blocks).lastBlockSize ≤ uncompressedDataSize := by
  cases h with
  | ready => exact ⟨rfl, fun h => absurd rfl h, Nat.zero_le _⟩
  | @inData compress closed bufs _ hclosed hne hle _ =>
      have hlast : (sizesInfoOf level (closed ++ [bufs])).lastBlockSize = bufs.flatten.length := by
        rw [sizesInfoOf, List.getLastD_concat]
      have hfull : ∀ closed : List (List Bytes),
          (∀ b ∈ closed, b.flatten.length = uncompressedDataSize) →
          closed.flatten.flatten.length = uncompressedDataSize * closed.length := by
        intro closed hclosed
        induction closed with
        | nil => rfl
        | cons b closed ih =>
            rw [List.flatten_cons, List.flatten_append, List.length_append,
              hclosed b List.mem_cons_self, ih fun c hc => hclosed c (List.mem_cons_of_mem _ hc),
              List.length_cons, Nat.mul_succ, Nat.add_comm]
      rw [hlast, List.length_append, List.length_singleton, Nat.add_sub_cancel, List.flatten_append,
        List.flatten_append, List.flatten_singleton, List.length_append, hfull closed hclosed.full]
      exact ⟨Nat.add_comm _ _, fun _ => List.length_pos_iff.mpr hne, hle⟩

variable [Write Error ω] (happ : Appends Got) (hcap : Brotli.Bounded cap)
  (haccepts : ∀ n, Accepts n Got)
include happ hcap haccepts

theorem Keeps.write_eq {buf : Bytes} (h : Keeps level Got base s P) (hne : buf ≠ []) :
    ∃ k s', Write.write buf s = .ok k s' ∧ 0 < k ∧ k ≤ buf.length ∧
      Keeps level Got base s' (P ++ buf.take k) := by
  obtain ⟨blocks, hholds, rfl⟩ := h
  obtain ⟨k, s', blocks', hrun, hk, hle, hholds', hflat, -⟩ :=
    hholds.write_eq happ hcap (haccepts _) (Nat.le_refl _) hne
  exact ⟨k, s', hrun, hk, hle, blocks', hholds', hflat⟩

theorem appends :
    Appends (Keeps level Got base : CompressionLayerWriter ω → Bytes → Prop) where
  ok {s s' P buf k} h hne hwrite := by
    obtain ⟨k', s'', hrun, -, hle, hkeeps⟩ := h.write_eq happ hcap haccepts hne
    rw [hrun] at hwrite
    obtain ⟨rfl, rfl⟩ := EStateM.Result.ok.inj hwrite
    exact ⟨hle, hkeeps⟩
  interrupted {s s' P buf e} h hne hwrite _ := by
    obtain ⟨k', s'', hrun, -⟩ := h.write_eq happ hcap haccepts hne
    rw [hrun] at hwrite
    cases hwrite

theorem accepts (n : ℕ) :
    Accepts n (Keeps level Got base : CompressionLayerWriter ω → Bytes → Prop) := by
  intro s P buf h hne _
  obtain ⟨k, s', hrun, hk, -⟩ := h.write_eq happ hcap haccepts hne
  exact ⟨k, s', hrun, hk⟩

/-- The end of the layer finds `P` written: its blocks, each compressed on its own from
buffers of that block, then the footer with the sizes of the compressed blocks. -/
def LaysOut (level : ℕ) (Got : ω → Bytes → Prop) (base : Bytes) (s : CompressionLayerWriter ω)
    (P : Bytes) : Prop :=
  ∃ (blocks : List (List Bytes)) (inner : ω), finalizeLayer s = .ok inner ∧
    Got inner (base ++ (blocks.flatMap (Brotli.compressBlock level) ++
      (sizesInfoOf level blocks).footer)) ∧
    blocks.map List.flatten = piecesOf uncompressedDataSize P ∧
    (sizesInfoOf level blocks).lastBlockSize + uncompressedDataSize * (blocks.length - 1) =
      P.length ∧
    (P ≠ [] → 0 < (sizesInfoOf level blocks).lastBlockSize) ∧
    (sizesInfoOf level blocks).lastBlockSize ≤ uncompressedDataSize

theorem Keeps.laysOut (h : Keeps level Got base s P) (hP : P.length < u64Size) :
    LaysOut level Got base s P := by
  obtain ⟨blocks, hholds, rfl⟩ := h
  have hcount : blocks.length =
      (blocks.flatten.flatten.length + (uncompressedDataSize - 1)) / uncompressedDataSize := by
    rw [← length_piecesOf, ← hholds.map_flatten, List.length_map]
  have hsmall : 4 * blocks.length + 29 < u64Size := by
    have hwords : u64Size = 18446744073709551616 := rfl
    rw [hwords] at hP ⊢
    rw [uncompressedDataSize_eq] at hcount
    omega
  obtain ⟨inner, hrun, hgot⟩ :=
    hholds.finalizeLayer_eq happ hcap (haccepts _) (Nat.le_refl _) hsmall
  exact ⟨blocks, inner, hrun, hgot, hholds.map_flatten, hholds.lastBlockSize⟩

omit happ hcap haccepts in
/-- A call that fails leaves nothing to write to. -/
theorem state_of_write_error {buf : Bytes} {e : IoError Error}
    (hrun : Write.write buf s = .error e s') : s'.state = .empty := by
  have hready : ∀ {inner : ω} {s : CompressionLayerWriter ω},
      writeReady inner buf s = .error e s' → s'.state = .empty := by
    intro inner s hrun
    rw [writeReady] at hrun
    split at hrun
    · cases hrun
    · obtain ⟨-, rfl⟩ := EStateM.Result.error.inj hrun
      rfl
  change write buf s = _ at hrun
  rw [write] at hrun
  split at hrun
  · exact hready hrun
  · split at hrun
    · obtain ⟨-, rfl⟩ := EStateM.Result.error.inj hrun
      rfl
    · split at hrun
      · exact hready hrun
      · dsimp only at hrun
        split at hrun
        · cases hrun
        · obtain ⟨-, rfl⟩ := EStateM.Result.error.inj hrun
          rfl
  · obtain ⟨-, rfl⟩ := EStateM.Result.error.inj hrun
    assumption

omit happ hcap haccepts in
theorem write_of_empty (hstate : s.state = .empty) (buf : Bytes) :
    ∃ e, Write.write buf s = .error e s := by
  change ∃ e, write buf s = .error e s
  rw [write, hstate]
  exact ⟨_, rfl⟩

end CompressionLayerWriter

/-- However `P` is written, the layer ends with its blocks, each compressed on its own, the
index of their sizes and the length of the index; and when a call has failed, all calls that
follow fail and the layer cannot be ended. -/
theorem CompressionLayerWriter.finalize_laysOut {ω : Type} [Brotli] [Patience] [Write Error ω]
    {Got : ω → Bytes → Prop} (happ : Appends Got) {cap : ℕ} (hcap : Brotli.Bounded cap)
    (haccepts : ∀ n, Accepts n Got) {inner : ω} {base : Bytes} (hinner : Got inner base)
    (config : CompressionConfig) :
    (∀ (P : Bytes) (s : CompressionLayerWriter ω), Taken (newSkipHeader inner config) P s →
      P.length < u64Size → LaysOut config.compressionLevel Got base s P) ∧
    (∀ bufs : List Bytes, bufs.flatten.length < u64Size →
      ∃ s : CompressionLayerWriter ω, writeBuffers bufs (newSkipHeader inner config) = .ok () s ∧
        LaysOut config.compressionLevel Got base s bufs.flatten) ∧
    ∀ (s s' : CompressionLayerWriter ω) (buf : Bytes) (e : IoError Error),
      Write.write buf s = .error e s' →
      (∀ buf' : Bytes, ∃ e', Write.write buf' s' = .error e' s') ∧
        ∃ e', finalizeLayer s' = .error e' := by
  have hnew := keeps_newSkipHeader hinner config
  have happends : Appends (Keeps config.compressionLevel Got base) := appends happ hcap haccepts
  refine ⟨fun P s hrun hP => ?_, fun bufs hbufs => ?_, fun s s' buf e hrun => ?_⟩
  · exact Keeps.laysOut happ hcap haccepts (happends.taken hnew hrun) hP
  · obtain ⟨s, hrun, hs⟩ := happends.writeBuffers_eq
      (accepts happ hcap haccepts (List.length [] + bufs.flatten.length)) hnew (Nat.le_refl _)
    exact ⟨s, hrun, Keeps.laysOut happ hcap haccepts hs hbufs⟩
  · have hempty := state_of_write_error hrun
    refine ⟨write_of_empty hempty, ?_⟩
    rw [finalizeLayer, hempty]
    exact ⟨_, rfl⟩

section Example

open StoredBrotli

/-- Two buffers of one block, stored in memory. -/
theorem CompressionLayerWriter.finalize_laysOut_stored :
    ∃ s : CompressionLayerWriter (VecWriter Error),
      writeBuffers [[1], [2, 3]] (newSkipHeader ⟨[7]⟩ .defaultConfig) = .ok () s ∧
      LaysOut 5 VecWriter.Got [7] s [1, 2, 3] :=
  (finalize_laysOut VecWriter.appends StoredBrotli.bounded VecWriter.accepts rfl
    .defaultConfig).2.1 [[1], [2, 3]] (by decide)

end Example

end Mla
