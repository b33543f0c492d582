import Mla.Layers.Encrypt.Config
import Mla.Layers.Encrypt.Reader
import Mla.Layers.Position
import Mla.Layers.StripHeadTail
import Mla.Reads

/-!
# The encryption layer of a reader

The header of the layer is read to load the key, and what lies between it and the tail of
the layer is given to the internal reader.
-/

namespace Mla

open Io

section Header

variable {σ : Type} [Patience] [Kem] [Read Error σ]

/-- The persistent configuration, and the length of the header with its magic. -/
def readEncryptionHeaderAfterMagic : EStateM Error σ (EncryptionPersistentConfig × ℕ) := do
  let (readEncryptionMetadata, position) ← PositionLayerReader.counting (do
    Opts.fromReader
    let _encryptionMethodId ← deserializeU16
    EncryptionPersistentConfig.deserialize)
  let encryptionHeaderLength ← okOr (checkedAdd position 8) .deserializationError
  pure (readEncryptionMetadata, encryptionHeaderLength)

omit [Kem] in
theorem reads_vector (n : ℕ) : Reads (deserializeVector n : EStateM Error σ (Vector UInt8 n)) := by
  refine (Reads.u8.times n).bind fun bs => ?_
  split
  · exact .pure _
  · exact .throw _

theorem reads_recipient :
    Reads (HybridRecipientEncapsulatedKey.deserialize :
      EStateM Error σ HybridRecipientEncapsulatedKey) :=
  (reads_vector _).bind fun _ => (reads_vector _).bind fun _ => (Reads.okOr _ _).bind fun _ =>
    (reads_vector _).bind fun _ => (reads_vector _).bind fun _ => .pure _

theorem reads_persistentConfig :
    Reads (EncryptionPersistentConfig.deserialize : EStateM Error σ EncryptionPersistentConfig) :=
  (reads_recipient.vec.map _).bind fun _ =>
    ((reads_vector _).bind fun _ => (reads_vector _).bind fun _ => .pure _).bind fun _ => .pure _

theorem reads_encryptionHeader :
    Reads (readEncryptionHeaderAfterMagic : EStateM Error σ (EncryptionPersistentConfig × ℕ)) :=
  (PositionLayerReader.reads_counting (Reads.opts.bind fun _ => Reads.u16.bind fun _ =>
    reads_persistentConfig)).bind fun _ => (Reads.okOr _ _).bind fun _ => .pure _

end Header

/-- The key that a configuration loads from a header. -/
def EncryptionReaderConfig.load [AesGcm] [Hkdf] [Kem] (readerConfig : EncryptionReaderConfig)
    (persistentConfig : EncryptionPersistentConfig) : Except Error EncryptionReaderConfig :=
  match EncryptionReaderConfig.loadPersistent persistentConfig readerConfig with
  | .ok _ readerConfig => .ok readerConfig
  | .error e _ => .error (.ofConfig e)

structure EncryptionLayerReader (σ : Type) where
  inner : InternalEncryptionLayerReader (StripHeadTailReader σ)

namespace EncryptionLayerReader

variable {σ α : Type} [Patience] [AesGcm]

/-- What is read of the ends of the layer: its length, and the length of its tail. -/
def readTail [LayerReader σ] (encryptionHeaderLength : ℕ) : EStateM Error σ (ℕ × ℕ) := do
  let rawEncryptionLayerLength ← liftIo (Seek.seek (.fromEnd 0))
  let _ ← liftIo (Seek.seek (.current (-8)))
  let encryptionFooterOptionsLength ← deserializeU64
  let encryptionFooterLength ← okOr (checkedAdd encryptionFooterOptionsLength 8)
    .deserializationError
  let _ ← liftIo (Seek.seek (.start encryptionHeaderLength))
  pure (rawEncryptionLayerLength, encryptionFooterLength)

def newSkipMagic [Hkdf] [Kem] [LayerReader σ] (inner : σ) (readerConfig : EncryptionReaderConfig)
    (persistentConfig : Option EncryptionPersistentConfig) :
    Except Error (EncryptionLayerReader σ) := do
  let ((readEncryptionMetadata, encryptionHeaderLength), inner) ←
    runOn readEncryptionHeaderAfterMagic inner
  -- A configuration that was signed takes the place of the one that is read.
  let persistentConfig := persistentConfig.getD readEncryptionMetadata
  let ((rawEncryptionLayerLength, encryptionFooterLength), inner) ←
    runOn (readTail encryptionHeaderLength) inner
  let readerConfig ← readerConfig.load persistentConfig
  let inner ← StripHeadTailReader.new inner encryptionHeaderLength encryptionFooterLength
    rawEncryptionLayerLength 0
  let inner ← InternalEncryptionLayerReader.new inner readerConfig.encryptParameters none
  pure ⟨inner⟩

def onInner {ε : Type} (x : EStateM ε (InternalEncryptionLayerReader (StripHeadTailReader σ)) α) :
    EStateM ε (EncryptionLayerReader σ) α :=
  zoom EncryptionLayerReader.inner (fun inner _ => ⟨inner⟩) x

instance instLayerReader [LayerReader σ] : LayerReader (EncryptionLayerReader σ) where
  read n := onInner (Read.read n)
  seek w := onInner (Seek.seek w)
  initializeLayer := onInner (do
    zoom InternalEncryptionLayerReader.inner (fun inner s => { s with inner := inner })
      LayerReader.initializeLayer
    InternalEncryptionLayerReader.initializeLayer)

end EncryptionLayerReader

end Mla
