import Mla.Io.Take
import Mla.Layers.Compress.Writer
import Mla.Layers.StripHeadTail

/-!
# Reading compressed blocks

The reader decompresses one block at a time. It finds the blocks with the index at the end
of the layer, from which it also knows how long the data are.

While a call is under way the state is `empty`. A call that fails then leaves it so: reads
that follow fail, and a seek that follows panics.
-/

namespace Mla

open Io

/-! ## The index -/

namespace SizesInfo

/-- Get the uncompressed block size of block `block_num` -/
def uncompressedBlockSizeAt (info : SizesInfo) (blockNum : ℕ) : Except Error ℕ := do
  let last ← orError (checkedSub info.compressedSizes.length 1) .deserializationError
  if blockNum < last then pure uncompressedDataSize else pure info.lastBlockSize

/-- Get the compressed block at position `uncompressed_pos` -/
def compressedBlockSizeAt (info : SizesInfo) (uncompressedPos : ℕ) : Except Error ℕ :=
  orError info.compressedSizes[uncompressedPos / uncompressedDataSize]? .deserializationError

/-- Maximum uncompressed available position -/
def maxUncompressedPos (info : SizesInfo) : Except Error ℕ := do
  let full ← orError (checkedSub info.compressedSizes.length 1) .deserializationError
  let len ← orError (checkedMul full uncompressedDataSize) .deserializationError
  orError (checkedAdd len info.lastBlockSize) .deserializationError

end SizesInfo

/-! ## The reader -/

/-- A decompressor on the bytes of one block. -/
structure Decompressor (σ : Type) [BrotliDecompressor] where
  decoder : BrotliDecompressor.Decoder
  source : Take σ

namespace Decompressor

variable {σ : Type} [BrotliDecompressor]

def new (inner : σ) (compressedBlockSize : ℕ) : Decompressor σ :=
  ⟨BrotliDecompressor.decoder compressedBlockSize, .new inner compressedBlockSize⟩

def intoInner (s : Decompressor σ) : σ := s.source.inner

instance instRead [Read Error σ] : Read Error (Decompressor σ) where
  read n := fun s =>
    match Read.read n (s.decoder, s.source) with
    | .ok bs t => .ok bs ⟨t.1, t.2⟩
    | .error e t => .error e ⟨t.1, t.2⟩

theorem read_eq [Read Error σ] (n : ℕ) (d : Decompressor σ) :
    Read.read n d =
      match Read.read n (d.decoder, d.source) with
      | .ok bs t => .ok bs ⟨t.1, t.2⟩
      | .error e t => .error e ⟨t.1, t.2⟩ := (rfl)

end Decompressor

inductive CompressionLayerReaderState (σ : Type) [BrotliDecompressor] where
  /-- Ready contains the real inner destination -/
  | ready (inner : σ)
  /-- How many uncompressed bytes have already been read for the current block -/
  | inData (read uncompressedSize : ℕ) (decompressor : Decompressor σ)
  /-- Empty is a placeholder to allow state replacement -/
  | empty

/-- The panic is for the state `empty`. -/
def CompressionLayerReaderState.intoInner {σ : Type} [BrotliDecompressor] :
    CompressionLayerReaderState σ → Option σ
  | .ready inner => some inner
  | .inData _ _ decompressor => some decompressor.intoInner
  | .empty => none

structure CompressionLayerReader (σ : Type) [BrotliDecompressor] where
  state : CompressionLayerReaderState σ
  sizesInfo : Option SizesInfo
  /-- Position in the under-layer (uncompressed stream) -/
  underlayerPos : ℕ

namespace CompressionLayerReader

variable {σ : Type} [BrotliDecompressor]

/-- Whether the position is in the data stream; without an index, it always is. -/
def posInStream (s : CompressionLayerReader σ) (uncompressedPos : ℕ) : Except Error Bool :=
  match s.sizesInfo with
  | some info => do
      let posMax ← info.maxUncompressedPos
      pure (decide (uncompressedPos < posMax))
  | none => pure true

/-- The checks that the three functions below begin with. -/
def checkStart (s : CompressionLayerReader σ) (uncompressedPos : ℕ) (msg : String) :
    Except Error Unit := do
  if uncompressedPos % uncompressedDataSize ≠ 0 then throw (.badAPIArgument msg)
  else do
    let inStream ← s.posInStream uncompressedPos
    if inStream then pure () else throw .endOfStream

/-- `new_decompressor_at`, at the start of a block. -/
def newDecompressorAt (s : CompressionLayerReader σ) (inner : σ) (uncompressedPos : ℕ) :
    Except Error (Decompressor σ) := do
  s.checkStart uncompressedPos "[new_decompressor_at] not a starting position"
  match s.sizesInfo with
  | some info => do
      let compressedBlockSize ← info.compressedBlockSizeAt uncompressedPos
      pure (.new inner compressedBlockSize)
  | none => throw .missingMetadata

/-- `uncompressed_block_size_at`, at the start of a block. -/
def uncompressedBlockSizeAt (s : CompressionLayerReader σ) (uncompressedPos : ℕ) :
    Except Error ℕ := do
  s.checkStart uncompressedPos "[uncompressed_block_size_at] not a starting position"
  match s.sizesInfo with
  | some info => info.uncompressedBlockSizeAt (uncompressedPos / uncompressedDataSize)
  | none => throw .missingMetadata

/-- `sync_inner_with_uncompressed_pos`: move the layer below to the start of a block. -/
def syncInnerWithUncompressedPos [Seek Error σ] (s : CompressionLayerReader σ) (inner : σ)
    (uncompressedPos : ℕ) : Except Error σ := do
  s.checkStart uncompressedPos "[sync_inner_with_uncompressed_pos] not a starting position"
  match s.sizesInfo with
  | some info => do
      let startPosition := (info.compressedSizes.take (uncompressedPos / uncompressedDataSize)).sum
      let (_, inner) ← runOn (liftIo (Seek.seek (.start startPosition))) inner
      pure inner
  | none => throw .missingMetadata

/-- The decompressor of the block that starts at a position, and the size of the block. -/
def openBlock [Seek Error σ] (s : CompressionLayerReader σ) (inner : σ) (uncompressedPos : ℕ) :
    Except Error (Decompressor σ × ℕ) := do
  let inner ← s.syncInnerWithUncompressedPos inner uncompressedPos
  let decompressor ← s.newDecompressorAt inner uncompressedPos
  let uncompressedSize ← s.uncompressedBlockSizeAt uncompressedPos
  pure (decompressor, uncompressedSize)

variable [Read Error σ]

/-- A read in a block that has `uncompressedSize - read` bytes left. -/
def readInData (read uncompressedSize : ℕ) (decompressor : Decompressor σ) (n : ℕ) :
    Op Error (CompressionLayerReader σ) Bytes := fun s =>
  match Read.read (min (uncompressedSize - read) n) decompressor with
  | .error e _ => .error e { s with state := .empty }
  | .ok bs decompressor =>
      match checkedAdd s.underlayerPos bs.length with
      | none => .error (.other .deserializationError) { s with state := .empty }
      | some underlayerPos =>
          if read + bs.length < u32Size then
            .ok bs { s with
              state := .inData (read + bs.length) uncompressedSize decompressor
              underlayerPos := underlayerPos }
          else
            .error (.other .deserializationError)
              { s with state := .empty, underlayerPos := underlayerPos }

variable [Seek Error σ]

/-- `read`, with `fuel` calls of itself left; a stack that is used up is a panic. -/
def readLoop (n : ℕ) : ℕ → EStateM (Failure (IoError Error)) (CompressionLayerReader σ) Bytes
  | 0 => throw .panicked
  | fuel + 1 => fun s =>
      match s.posInStream s.underlayerPos with
      | .error _ => .error (.error (.other .deserializationError)) s
      | .ok false => .ok [] s
      | .ok true =>
          match s.state with
          | .ready inner =>
              match s.openBlock inner s.underlayerPos with
              | .error e => .error (.error (.other e)) { s with state := .empty }
              | .ok (decompressor, uncompressedSize) =>
                  readLoop n fuel { s with state := .inData 0 uncompressedSize decompressor }
          | .inData read uncompressedSize decompressor =>
              if uncompressedSize < read then
                .error (.error (.other (.wrongReaderState "[Compression Layer] Too much data read")))
                  { s with state := .empty }
              else if read = uncompressedSize then
                readLoop n fuel { s with state := .ready decompressor.intoInner }
              else noPanic (readInData read uncompressedSize decompressor n) s
          | .empty =>
              .error (.error (.other (.wrongReaderState "[Compression Layer] Should never happens, unless an error already occurs before")))
                { s with state := .empty }

/-- A read calls itself at most twice. -/
def read (n : ℕ) : EStateM (Failure (IoError Error)) (CompressionLayerReader σ) Bytes :=
  readLoop n 3

variable [Patience]

def seekStart (pos : ℕ) :
    EStateM (Failure (IoError Error)) (CompressionLayerReader σ) ℕ := fun s =>
  let insideBlock := pos % uncompressedDataSize
  let roundedPos := pos - insideBlock
  match s.state.intoInner with
  | none => .error .panicked { s with state := .empty }
  | some inner =>
      match s.openBlock inner roundedPos with
      | .error e => .error (.error (.other e)) { s with state := .empty }
      | .ok (decompressor, uncompressedSize) =>
          match copyTake insideBlock (decompressor, (Sink.mk : Sink Error)) with
          | .error e _ => .error (.error e) { s with state := .empty }
          | .ok _ (decompressor, _) =>
              .ok pos { s with
                state := .inData insideBlock uncompressedSize decompressor
                underlayerPos := pos }

/-- The position from the start that a seek asks for. -/
def askedPosition (s : CompressionLayerReader σ) (info : SizesInfo) :
    SeekFrom → Except (IoError Error) ℕ
  | .start pos => .ok pos
  | .current d => do
      let pos ← orError (toI64 s.underlayerPos)
        (ioOther "Overflow converting current position to i64")
      let newPos ← orError (i64CheckedAdd pos d)
        (ioOther "Overflow when adding offset to current position")
      orError (toU64 newPos) (ioOther "Negative position after seek is not allowed")
  | .fromEnd d =>
      if 0 < d then .error (.other .endOfStream)
      else
        match info.maxUncompressedPos with
        | .error _ => .error (.kind .invalidInput)
        | .ok endPos =>
            if d = -(i64Size : ℤ) then .error (.kind .invalidInput)
            else orError (checkedSub endPos (-d).toNat)
              (ioOther "Seek offset goes before start of stream")

def seek (w : SeekFrom) : EStateM (Failure (IoError Error)) (CompressionLayerReader σ) ℕ := fun s =>
  match s.sizesInfo with
  | none => .error (.error (.other .missingMetadata)) s
  | some info =>
      if w = .current 0 then .ok s.underlayerPos s
      else
        match s.askedPosition info w with
        | .ok pos => seekStart pos s
        | .error e => .error (.error e) s

/-! ## Initialisation -/

omit [Patience] [Read Error σ] in
def newSkipHeader (inner : σ) : Except Error (CompressionLayerReader (StripHeadTailReader σ)) := do
  let (underlayerPos, inner) ← runOn (liftIo (Seek.seek (.current 0))) inner
  let (innerLenInclHeadTail, inner) ← runOn (liftIo (Seek.seek (.fromEnd 0))) inner
  let (_, inner) ← runOn (liftIo (Seek.seek (.start underlayerPos))) inner
  let inner ← StripHeadTailReader.new inner underlayerPos 0 innerLenInclHeadTail 0
  pure ⟨.ready inner, none, 0⟩

def newSkipMagic (inner : σ) : Except Error (CompressionLayerReader (StripHeadTailReader σ)) := do
  let (_, inner) ← runOn Opts.fromReader inner
  newSkipHeader inner

/-- The footer: the index, and its length as 8 bytes. -/
def readFooter : EStateM Error σ SizesInfo := do
  let pos ← liftIo (Seek.seek (.fromEnd (-8)))
  let len ← deserializeU64
  let start ← okOr (checkedSub pos len) .deserializationError
  let _ ← liftIo (Seek.seek (.start start))
  fun inner =>
    match (SizesInfo.deserialize : EStateM Error (Take σ) SizesInfo) (.new inner len) with
    | .ok info t => .ok info t.inner
    | .error e t => .error e t.inner

def initializeLayer : EStateM Error (CompressionLayerReader σ) Unit := fun s =>
  match s.state with
  | .ready inner =>
      match readFooter inner with
      | .ok info inner => .ok () { s with state := .ready inner, sizesInfo := some info }
      | .error e inner => .error e { s with state := .ready inner }
  | _ =>
      .error (.wrongReaderState "[Compression Layer]: on initialization, must be in Ready state") s

/-- Above the reader a panic is taken for an error. -/
def panicError : IoError Error :=
  .other (.wrongReaderState "[Reader] Empty type to inner is impossible")

instance instLayerReader : LayerReader (CompressionLayerReader σ) where
  read n := panicAs panicError (read n)
  seek w := panicAs panicError (seek w)
  initializeLayer := initializeLayer

end CompressionLayerReader

end Mla
