import Mla.Layers.Compress.Truncated
import Mla.Reader.Footer
import Mla.Reader.Source

/-!
# The layers of an archive

An archive is opened layer by layer, each being told by its magic: a layer that is not there is
left out of the stack. The same is done for a truncated archive, from its start only.
-/

namespace Mla

open Io

/-- A reader with one more layer on top of it, or without. -/
inductive OptionalLayer (σ τ : Type)
  | absent (inner : σ)
  | present (layer : τ)

namespace OptionalLayer

variable {σ τ ε α : Type}

/-- An operation on what is on top. -/
def onTop (x : EStateM ε σ α) (y : EStateM ε τ α) : EStateM ε (OptionalLayer σ τ) α
  | .absent inner =>
      match x inner with
      | .ok a inner => .ok a (.absent inner)
      | .error e inner => .error e (.absent inner)
  | .present layer =>
      match y layer with
      | .ok a layer => .ok a (.present layer)
      | .error e layer => .error e (.present layer)

instance instRead [Read ε σ] [Read ε τ] : Read ε (OptionalLayer σ τ) where
  read n := onTop (Read.read n) (Read.read n)

instance instLayerReader [LayerReader σ] [LayerReader τ] : LayerReader (OptionalLayer σ τ) where
  seek w := onTop (Seek.seek w) (Seek.seek w)
  initializeLayer := onTop LayerReader.initializeLayer LayerReader.initializeLayer

def IsPresent : OptionalLayer σ τ → Prop
  | .absent _ => False
  | .present _ => True

end OptionalLayer

section Header

variable {σ : Type} [Patience] [Read Error σ]

def readMlaEntriesHeaderSkipMagic : EStateM Error σ Unit := do
  Opts.fromReader

def readMlaEntriesHeader : EStateM Error σ Unit := do
  let magic ← readExactly 8
  if magic ≠ entriesLayerMagic then throw .wrongMagic
  else readMlaEntriesHeaderSkipMagic

end Header

/-! ## Configurations -/

structure ArchiveReaderConfig [Kem] [SignatureSchemes] where
  acceptUnencrypted : Bool
  encrypt : EncryptionReaderConfig
  signatureReaderConfig : SignatureReaderConfig

structure IncompleteArchiveReaderConfig [SignatureSchemes] where
  sharedSecrets : List MLADecryptionSharedSecret
  signatureReaderConfig : SignatureReaderConfig

structure TruncatedReaderConfig [Kem] where
  acceptUnencrypted : Bool
  encrypt : EncryptionReaderConfig
  truncatedDecryptionMode : TruncatedReaderDecryptionMode

section Configs

variable [Kem] [SignatureSchemes]

/-- `EncryptionReaderConfig::default`. -/
def EncryptionReaderConfig.default : EncryptionReaderConfig := ⟨[], none, []⟩

namespace ArchiveReaderConfig

def withSignatureVerification (signatureVerificationPublicKeys :
    List MLASignatureVerificationPublicKey) : IncompleteArchiveReaderConfig :=
  ⟨[], ⟨signatureVerificationPublicKeys, true⟩⟩

end ArchiveReaderConfig

namespace IncompleteArchiveReaderConfig

/-- The private keys, and the shared secrets if there are any. -/
def encryptWith (self : IncompleteArchiveReaderConfig)
    (decryptionPrivateKeys : List MLADecryptionPrivateKey) : EncryptionReaderConfig :=
  let encrypt := { EncryptionReaderConfig.default with privateKeys := decryptionPrivateKeys }
  if self.sharedSecrets.isEmpty then encrypt
  else { encrypt with sharedSecrets := self.sharedSecrets }

def withEncryption (self : IncompleteArchiveReaderConfig)
    (decryptionPrivateKeys : List MLADecryptionPrivateKey) : ArchiveReaderConfig :=
  ⟨false, self.encryptWith decryptionPrivateKeys, self.signatureReaderConfig⟩

def withEncryptionAcceptUnencrypted (self : IncompleteArchiveReaderConfig)
    (decryptionPrivateKeys : List MLADecryptionPrivateKey) : ArchiveReaderConfig :=
  ⟨true, self.encryptWith decryptionPrivateKeys, self.signatureReaderConfig⟩

def withoutEncryption (self : IncompleteArchiveReaderConfig) : ArchiveReaderConfig :=
  ⟨true, .default, self.signatureReaderConfig⟩

def addDecryptionSharedSecrets (self : IncompleteArchiveReaderConfig)
    (sharedSecrets : List MLADecryptionSharedSecret) : IncompleteArchiveReaderConfig :=
  ⟨sharedSecrets, self.signatureReaderConfig⟩

end IncompleteArchiveReaderConfig

namespace TruncatedReaderConfig

variable (decryptionPrivateKeys : List MLADecryptionPrivateKey)
  (truncatedMode : TruncatedReaderDecryptionMode)

end TruncatedReaderConfig

end Configs

/-! ## Opening an archive -/

/-- The view on the layers, without or with a layer of signatures on it. -/
abbrev SignatureStack (ρ : Type) : Type :=
  OptionalLayer (StripHeadTailReader (RawLayerReader ρ))
    (SignatureLayerReader (StripHeadTailReader (RawLayerReader ρ)))

abbrev EncryptionStack (ρ : Type) : Type :=
  OptionalLayer (SignatureStack ρ) (EncryptionLayerReader (SignatureStack ρ))

abbrev LayerStack (ρ : Type) [BrotliDecompressor] : Type :=
  OptionalLayer (EncryptionStack ρ)
    (CompressionLayerReader (StripHeadTailReader (EncryptionStack ρ)))

structure ArchiveReader (ρ : Type) [BrotliDecompressor] where
  src : LayerStack ρ
  metadata : Option (HashMap EntryName EntryInfo)

namespace ArchiveReader

variable {ρ : Type} [Patience] [AesGcm] [Hkdf] [Kem] [Sha512] [SignatureSchemes]
  [BrotliDecompressor] [Read Error ρ] [Seek Error ρ]

omit [AesGcm] [Hkdf] [BrotliDecompressor] in
/-- `from_config` up to the layer of signatures: the stack, the magic of what comes next, the
keys with valid signatures and the configuration of encryption that is signed. -/
def openSignature (config : ArchiveReaderConfig) (src : ρ) :
    Except Error (SignatureStack ρ × Bytes × List MLASignatureVerificationPublicKey ×
      Option EncryptionPersistentConfig) := do
  let (view, archiveHeaderHash, magic) ← openSource src
  if magic = signatureLayerMagic then do
    let (sigLayer, keysWithValidSignatures, signedPersistentEncryptionConfig) ←
      SignatureLayerReader.newSkipMagic view config.signatureReaderConfig archiveHeaderHash
    let (_, src) ← runOn LayerReader.initializeLayer (.present sigLayer : SignatureStack ρ)
    let (magic, src) ← runOn readLayerMagic src
    pure (src, magic, keysWithValidSignatures, signedPersistentEncryptionConfig)
  else if config.signatureReaderConfig.signatureCheck then
    throw .signatureVerificationAskedButNoSignatureLayerFound
  else pure (.absent view, magic, [], none)

omit [Sha512] [BrotliDecompressor] in
/-- The layer of encryption, and the magic of what comes next. -/
def openEncryption (config : ArchiveReaderConfig) (src : SignatureStack ρ) (magic : Bytes)
    (signedPersistentEncryptionConfig : Option EncryptionPersistentConfig) :
    Except Error (EncryptionStack ρ × Bytes) := do
  if magic = encryptionLayerMagic then do
    let layer ← EncryptionLayerReader.newSkipMagic src config.encrypt
      signedPersistentEncryptionConfig
    let (_, src) ← runOn LayerReader.initializeLayer (.present layer : EncryptionStack ρ)
    let (magic, src) ← runOn readLayerMagic src
    pure (src, magic)
  else if ¬ config.acceptUnencrypted then throw .encryptionAskedButNotMarkedPresent
  else pure (.absent src, magic)

def openCompression (src : EncryptionStack ρ) (magic : Bytes) : Except Error (LayerStack ρ) := do
  if magic = compressionLayerMagic then do
    let layer ← CompressionLayerReader.newSkipMagic src
    let (_, src) ← runOn LayerReader.initializeLayer (.present layer : LayerStack ρ)
    pure src
  else pure (.absent src)

/-- The index, and the header of the entries behind which the reader is left. -/
def readEntries (src : LayerStack ρ) : Except Error (ArchiveReader ρ) := do
  let (metadata, src) ← runOn (do
    let metadata ← ArchiveFooter.readMetadata
    let _ ← liftIo (Seek.seek (.start 0))
    readMlaEntriesHeader
    pure metadata) src
  pure ⟨src, metadata⟩

def fromConfig (config : ArchiveReaderConfig) (src : ρ) :
    Except Error (ArchiveReader ρ × List MLASignatureVerificationPublicKey) := do
  let (src, magic, keysWithValidSignatures, signedPersistentEncryptionConfig) ←
    openSignature config src
  let (src, magic) ← openEncryption config src magic signedPersistentEncryptionConfig
  let src ← openCompression src magic
  let reader ← readEntries src
  pure (reader, keysWithValidSignatures)

end ArchiveReader

/-! ## Opening a truncated archive -/

structure RawLayerTruncatedReader (ρ : Type) where
  inner : ρ

instance RawLayerTruncatedReader.instRead {ρ : Type} [Read Error ρ] :
    Read Error (RawLayerTruncatedReader ρ) where
  read n := zoom (·.inner) (fun inner _ => ⟨inner⟩) (Read.read n)

structure SignatureLayerTruncatedReader (σ : Type) where
  inner : σ

namespace SignatureLayerTruncatedReader

variable {σ : Type} [Read Error σ]

instance instRead : Read Error (SignatureLayerTruncatedReader σ) where
  read n := zoom (·.inner) (fun inner _ => ⟨inner⟩) (Read.read n)

def newSkipMagic [Patience] (inner : σ) : Except Error (SignatureLayerTruncatedReader σ) := do
  let (_, inner) ← runOn Opts.fromReader inner
  pure ⟨inner⟩

end SignatureLayerTruncatedReader

/-- The layer with the key that the configuration loads from its header. -/
def EncryptionLayerTruncatedReader.newSkipMagic {σ : Type} [Patience] [AesGcm] [Hkdf] [Kem]
    [Read Error σ] (inner : σ) (readerConfig : EncryptionReaderConfig)
    (persistentConfig : Option EncryptionPersistentConfig)
    (truncatedDecryptionMode : TruncatedReaderDecryptionMode) :
    Except Error (EncryptionLayerTruncatedReader σ) := do
  let ((readEncryptionMetadata, _), inner) ← runOn readEncryptionHeaderAfterMagic inner
  let persistentConfig := persistentConfig.getD readEncryptionMetadata
  let readerConfig ← readerConfig.load persistentConfig
  newSkipHeader inner readerConfig.encryptParameters truncatedDecryptionMode

abbrev TruncatedSignatureStack (ρ : Type) : Type :=
  OptionalLayer (RawLayerTruncatedReader ρ)
    (SignatureLayerTruncatedReader (RawLayerTruncatedReader ρ))

abbrev TruncatedEncryptionStack (ρ : Type) : Type :=
  OptionalLayer (TruncatedSignatureStack ρ)
    (EncryptionLayerTruncatedReader (TruncatedSignatureStack ρ))

abbrev TruncatedLayerStack (ρ : Type) [BrotliStream] : Type :=
  OptionalLayer (TruncatedEncryptionStack ρ)
    (CompressionLayerTruncatedReader (TruncatedEncryptionStack ρ))

structure TruncatedArchiveReader (ρ : Type) [BrotliStream] where
  src : TruncatedLayerStack ρ

namespace TruncatedArchiveReader

variable {ρ : Type} [Patience] [AesGcm] [Hkdf] [Kem] [BrotliStream] [Read Error ρ]

omit [AesGcm] [Hkdf] [Kem] [BrotliStream] in
/-- `from_config` up to the layer of signatures, of which nothing is checked. -/
def openSignature (src : ρ) : Except Error (TruncatedSignatureStack ρ × Bytes) := do
  let (_, src) ← runOn ArchiveHeader.deserialize src
  let (magic, src) ← runOn readLayerMagic (⟨src⟩ : RawLayerTruncatedReader ρ)
  if magic = signatureLayerMagic then do
    let layer ← SignatureLayerTruncatedReader.newSkipMagic src
    let (magic, src) ← runOn readLayerMagic (.present layer : TruncatedSignatureStack ρ)
    pure (src, magic)
  else pure (.absent src, magic)

omit [BrotliStream] in
def openEncryption (config : TruncatedReaderConfig) (src : TruncatedSignatureStack ρ)
    (magic : Bytes) : Except Error (TruncatedEncryptionStack ρ × Bytes) := do
  if magic = encryptionLayerMagic then do
    let layer ← EncryptionLayerTruncatedReader.newSkipMagic src config.encrypt none
      config.truncatedDecryptionMode
    let (magic, src) ← runOn readLayerMagic (.present layer : TruncatedEncryptionStack ρ)
    pure (src, magic)
  else if ¬ config.acceptUnencrypted then throw .encryptionAskedButNotMarkedPresent
  else pure (.absent src, magic)

def openCompression (src : TruncatedEncryptionStack ρ) (magic : Bytes) :
    Except Error (TruncatedLayerStack ρ × Bytes) := do
  if magic = compressionLayerMagic then do
    let layer ← CompressionLayerTruncatedReader.newSkipMagic src
    let (magic, src) ← runOn readLayerMagic (.present layer : TruncatedLayerStack ρ)
    pure (src, magic)
  else pure (.absent src, magic)

def readEntries (src : TruncatedLayerStack ρ) (magic : Bytes) :
    Except Error (TruncatedArchiveReader ρ) := do
  if magic ≠ entriesLayerMagic then throw .deserializationError
  else do
    let (_, src) ← runOn readMlaEntriesHeaderSkipMagic src
    pure ⟨src⟩

def fromConfig (config : TruncatedReaderConfig) (src : ρ) :
    Except Error (TruncatedArchiveReader ρ) := do
  let (src, magic) ← openSignature src
  let (src, magic) ← openEncryption config src magic
  let (src, magic) ← openCompression src magic
  readEntries src magic

end TruncatedArchiveReader

end Mla
