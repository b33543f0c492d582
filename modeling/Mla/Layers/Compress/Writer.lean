import Mla.Layers.Compress.Brotli
import Mla.Layers.Traits

/-!
# Writing compressed blocks

The writer compresses blocks of 4 MiB, each on its own. A block that is full is only closed
by the next write, which opens the block that follows; the end closes the last block. The
layer ends with an index: the compressed sizes of the blocks and the size of the last one.

While a call is under way the state is `empty`, and it stays so when the call fails.
-/

namespace Mla

open Io

def compressionLayerMagic : Bytes := ascii ['C', 'O', 'M', 'L', 'A', 'A', 'A', 'A']

structure CompressionConfig where
  compressionLevel : ℕ

namespace CompressionConfig

def defaultConfig : CompressionConfig := ⟨5⟩

def setCompressionLevel (config : CompressionConfig) (compressionLevel : ℕ) :
    Except ConfigError CompressionConfig :=
  if 11 < compressionLevel then .error .compressionLevelOutOfRange
  else .ok { config with compressionLevel := compressionLevel }

end CompressionConfig

/-! ## The index -/

structure SizesInfo where
  /-- Ordered list of chunk compressed size; only set at init -/
  compressedSizes : List ℕ
  /-- Last block uncompressed size -/
  lastBlockSize : ℕ
  deriving DecidableEq, Repr

namespace SizesInfo

def serialize {ω : Type} [Patience] [Write Error ω] (info : SizesInfo) : EStateM Error ω ℕ :=
  addLength (serializeVec serializeU32 info.compressedSizes) (serializeU32 info.lastBlockSize)

def deserialize {σ : Type} [Patience] [Read Error σ] : EStateM Error σ SizesInfo := do
  let compressedSizes ← deserializeVec deserializeU32
  let lastBlockSize ← deserializeU32
  pure ⟨compressedSizes, lastBlockSize⟩

end SizesInfo

/-! ## Counting -/

/-- Wrap a writer with counting of written bytes. -/
structure WriterWithCount (ω : Type) where
  inner : ω
  pos : ℕ

namespace WriterWithCount

variable {ω : Type}

def new (inner : ω) : WriterWithCount ω := ⟨inner, 0⟩

def write [Write Error ω] (buf : Bytes) : Op Error (WriterWithCount ω) ℕ := do
  let written ←
    zoom WriterWithCount.inner (fun inner s => { s with inner := inner }) (Write.write buf)
  if u32Size ≤ written then throw (ioOther "Failed to convert written data size to u32")
  let s ← get
  if u32Size ≤ s.pos + written then throw (ioOther "Overflow in WriterWithCount")
  modify fun s => { s with pos := s.pos + written }
  pure written

instance instWrite [Write Error ω] : Write Error (WriterWithCount ω) where
  write := write

end WriterWithCount

/-! ## The compressor on its destination -/

/-- `brotli::CompressorWriter`. -/
structure CompressorWriter (ω : Type) [Brotli] where
  output : WriterWithCount ω
  encoder : Brotli.Encoder

namespace CompressorWriter

variable {ω : Type} [Brotli] [Patience] [Write Error ω]

omit [Patience] [Write Error ω] in
def new (output : WriterWithCount ω) (compressionLevel : ℕ) : CompressorWriter ω :=
  ⟨output, Brotli.encoder compressionLevel⟩

/-- The whole buffer is compressed, and what this emits is written. -/
def write (buf : Bytes) : Op Error (CompressorWriter ω) ℕ := fun s =>
  match writeAll (Brotli.encode s.encoder buf).1 s.output with
  | .ok _ output => .ok buf.length ⟨output, (Brotli.encode s.encoder buf).2⟩
  | .error e output => .error e ⟨output, (Brotli.encode s.encoder buf).2⟩

/-- The end of the block is written; an error of this is not reported. -/
def intoInner (s : CompressorWriter ω) : WriterWithCount ω :=
  stateOf (writeAll (ε := Error) (Brotli.close s.encoder) s.output)

end CompressorWriter

/-! ## The layer -/

inductive CompressionLayerWriterState (ω : Type) [Brotli] where
  /-- Ready contains the real inner destination -/
  | ready (inner : ω)
  /-- How many uncompressed bytes have already been written for the current block -/
  | inData (written : ℕ) (compress : CompressorWriter ω)
  /-- Empty is a placeholder to allow state replacement -/
  | empty

structure CompressionLayerWriter (ω : Type) [Brotli] where
  state : CompressionLayerWriterState ω
  /-- Ordered list of compressed size of block -/
  compressedSizes : List ℕ
  compressionLevel : ℕ

namespace CompressionLayerWriter

variable {ω W : Type} [Brotli]

def newSkipHeader (inner : ω) (config : CompressionConfig) : CompressionLayerWriter ω :=
  ⟨.ready inner, [], config.compressionLevel⟩

section Write

variable [Patience] [Write Error ω]

def new (inner : ω) (config : CompressionConfig) : Except Error (CompressionLayerWriter ω) :=
  match (do put compressionLayerMagic; Opts.dump : EStateM Error ω ℕ) inner with
  | .ok _ inner => .ok (newSkipHeader inner config)
  | .error e _ => .error e

/-- The bytes go into a new block, on the destination itself. -/
def writeReady (inner : ω) (buf : Bytes) : Op Error (CompressionLayerWriter ω) ℕ := fun s =>
  let size := min uncompressedDataSize buf.length
  match (CompressorWriter.new (.new inner) s.compressionLevel).write (buf.take size) with
  | .ok written compress => .ok written { s with state := .inData written compress }
  | .error e _ => .error e { s with state := .empty }

def write (buf : Bytes) : Op Error (CompressionLayerWriter ω) ℕ := fun s =>
  match s.state with
  | .ready inner => writeReady inner buf s
  | .inData written compress =>
      if uncompressedDataSize < written then
        .error (.other (.wrongReaderState "[Compression Layer] Too much written"))
          { s with state := .empty }
      else if written = uncompressedDataSize then
        -- The block is full: it is closed, and the call is made again.
        let innerCount := compress.intoInner
        writeReady innerCount.inner buf
          { s with compressedSizes := s.compressedSizes ++ [innerCount.pos] }
      else
        let remainingWritable := uncompressedDataSize - written
        let size := min remainingWritable buf.length
        match compress.write (buf.take size) with
        | .ok writtenAdd compress =>
            .ok writtenAdd { s with state := .inData (writtenAdd + written) compress }
        | .error e _ => .error e { s with state := .empty }
  | .empty =>
      .error (.other (.wrongReaderState "[Compression Layer] On write, should never happens, unless an error already occurs before"))
        s

instance instWrite : Write Error (CompressionLayerWriter ω) where
  write := write

/-- The end of the layer, behind the last block. -/
def writeFooter (info : SizesInfo) : EStateM Error ω Unit := do
  put emptyTailOptsSerialization
  let writtenBytes ← info.serialize
  let _ ← serializeU64 writtenBytes

/-- All that `finalize` does before it ends the layer below. -/
def finalizeLayer (s : CompressionLayerWriter ω) : Except Error ω :=
  match s.state with
  | .ready inner => (·.2) <$> runOn (writeFooter ⟨s.compressedSizes, 0⟩) inner
  | .inData written compress =>
      let innerCount := compress.intoInner
      (·.2) <$> runOn (writeFooter ⟨s.compressedSizes ++ [innerCount.pos], written⟩) innerCount.inner
  | .empty =>
      .error (.wrongReaderState "[Compression Layer] bad state in finalization, an error may already occurs before")

end Write

instance instLayerWriter [Patience] [LayerWriter W ω] :
    LayerWriter W (CompressionLayerWriter ω) where
  finalize s := do
    let inner ← finalizeLayer s
    LayerWriter.finalize inner

end CompressionLayerWriter

end Mla
