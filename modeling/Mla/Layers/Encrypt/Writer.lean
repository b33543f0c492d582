import Mla.Layers.Encrypt.Config
import Mla.Layers.Traits

/-!
# Writing the encrypted stream

The writer encrypts what it is given in pieces of at most 4 KiB. A chunk that is full is
only closed by the next write, which opens the chunk that follows; the end closes the last
chunk, whatever its size, and adds the final block.

The state keeps one thing that the source has no field for: `retired` are the cipher
contexts that have given their tag. No operation reads it.
-/

namespace Mla

open Io

structure InternalEncryptionLayerWriter (ω : Type) where
  inner : ω
  cipher : AesGcm256
  key : Key
  /-- See `computeNonce`. -/
  baseNonce : Nonce
  currentChunkOffset : ℕ
  currentCtr : ℕ
  retired : List AesGcm256

namespace InternalEncryptionLayerWriter

variable {ω W : Type} [Patience] [AesGcm]

omit [Patience] [AesGcm] in
def new (inner : ω) (internalConfig : InternalEncryptionConfig) :
    InternalEncryptionLayerWriter ω where
  inner := inner
  key := internalConfig.key
  baseNonce := internalConfig.nonce
  cipher := AesGcm256.new internalConfig.key
    (computeNonce internalConfig.nonce firstDataChunkNumber) associatedData
  currentChunkOffset := 0
  currentCtr := firstDataChunkNumber
  retired := []

/-- An operation on the layer below. -/
def onInner {ε α : Type} (x : EStateM ε ω α) : EStateM ε (InternalEncryptionLayerWriter ω) α :=
  zoom InternalEncryptionLayerWriter.inner (fun inner s => { s with inner := inner }) x

def renewCipherAad (aad : Bytes) : EStateM Error (InternalEncryptionLayerWriter ω) Tag := fun s =>
  match checkedAdd s.currentCtr 1 with
  | none => .error .hpkeError s
  | some ctr =>
      .ok s.cipher.intoTag
        { s with
          currentCtr := ctr
          currentChunkOffset := 0
          cipher := AesGcm256.new s.key (computeNonce s.baseNonce ctr) aad
          retired := s.retired ++ [s.cipher] }

def renewCipher : EStateM Error (InternalEncryptionLayerWriter ω) Tag :=
  renewCipherAad associatedData

def lastRenewCipher : EStateM Error (InternalEncryptionLayerWriter ω) Tag :=
  renewCipherAad finalAssociatedData

section Write

variable [Write Error ω]

/-- Close a chunk that is full and open the next one. -/
def nextChunk : Op Error (InternalEncryptionLayerWriter ω) Unit := do
  let tag ← intoIo renewCipher
  onInner (writeAll tag.toList)
  onInner (writeAll chunkMagic)
  let s ← get
  let _ ← intoIo (onInner (serializeU64 s.currentCtr))
  pure ()

/-- Encrypt and write what fits of a buffer. -/
def writeInChunk (buf : Bytes) : Op Error (InternalEncryptionLayerWriter ω) ℕ := do
  let s ← get
  let remainingLenInChunk ← okOr (checkedSub normalChunkPtSize s.currentChunkOffset)
    (ioOther "Invalid current_chunk_offset")
  let size := min (min cipherBufSize buf.length) remainingLenInChunk
  let (bufTmp, cipher) := s.cipher.encrypt (buf.take size)
  modify fun s => { s with cipher := cipher }
  onInner (writeAll bufTmp)
  let s ← get
  let currentChunkOffset ← okOr (checkedAdd s.currentChunkOffset size)
    (ioOther "Invalid current_chunk_offset or size")
  modify fun s => { s with currentChunkOffset := currentChunkOffset }
  pure size

def write (buf : Bytes) : Op Error (InternalEncryptionLayerWriter ω) ℕ := fun s =>
  if normalChunkPtSize < s.currentChunkOffset then
    .error (.other (.wrongWriterState "[EncryptWriter] Chunk too big")) s
  else if s.currentChunkOffset = normalChunkPtSize then
    (do
      nextChunk
      writeInChunk buf) s
  else writeInChunk buf s

instance instWrite : Write Error (InternalEncryptionLayerWriter ω) where
  write := write

/-- All that `finalize` does before it ends the layer below. -/
def finalizeLayer : EStateM Error (InternalEncryptionLayerWriter ω) Unit := do
  let lastContentTag ← lastRenewCipher
  onInner (put lastContentTag.toList)
  onInner (put finalBlockMagic)
  put finalBlockContent
  -- The context that this makes encrypts nothing and gives no tag.
  let finalTag ← renewCipher
  onInner (put finalTag.toList)
  onInner (put endOfEncryptedInnerLayerMagic)
  onInner (put emptyTailOptsSerialization)

end Write

instance instLayerWriter [LayerWriter W ω] : LayerWriter W (InternalEncryptionLayerWriter ω) where
  finalize s :=
    match finalizeLayer s with
    | .ok _ s' => LayerWriter.finalize s'.inner
    | .error e _ => .error e

end InternalEncryptionLayerWriter

/-! ## The layer with its header -/

/-- `EncryptionLayerWriter` only passes on to the internal writer. -/
abbrev EncryptionLayerWriter (ω : Type) := InternalEncryptionLayerWriter ω

namespace EncryptionLayerWriter

variable {ω : Type} [Patience] [AesGcm] [Hkdf] [Kem] [Write Error ω]

/-- The header of the layer, and the head of the first chunk. -/
def writeHeader (persistentConfig : EncryptionPersistentConfig) : EStateM Error ω Unit := do
  put encryptionLayerMagic
  let _ ← Opts.dump
  let _ ← serializeU16 0
  let _ ← persistentConfig.serialize
  put chunkMagic
  let _ ← serializeU64 1
  pure ()

def new (inner : ω) (encryptionConfig : EncryptionConfig) :
    Except Error (EncryptionLayerWriter ω) := do
  let (persistentConfig, internalConfig) ← encryptionConfig.toPersistent
  match writeHeader persistentConfig inner with
  | .ok _ inner => pure (InternalEncryptionLayerWriter.new inner internalConfig)
  | .error e _ => throw e

end EncryptionLayerWriter

end Mla
