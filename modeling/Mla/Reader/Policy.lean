import Mla.Reader.Refusals
import Mla.Reader.Verified

/-!
# The policy of the openers

Which layers an archive must have is said when its reader is configured. What both openers do with
it is compared: the one of whole archives, and the one of truncated archives.
-/

namespace Mla

open Io

/-- The constructors of a configuration, by what they ask of the layer of encryption. -/
inductive EncryptionChoice
  | encryptedOnly
  | encryptedOrNot
  | unencrypted
  deriving DecidableEq

namespace EncryptionChoice

variable [Kem] [SignatureSchemes]

def readerConfig (choice : EncryptionChoice) (incomplete : IncompleteArchiveReaderConfig)
    (decryptionPrivateKeys : List MLADecryptionPrivateKey) : ArchiveReaderConfig :=
  match choice with
  | encryptedOnly => incomplete.withEncryption decryptionPrivateKeys
  | encryptedOrNot => incomplete.withEncryptionAcceptUnencrypted decryptionPrivateKeys
  | unencrypted => incomplete.withoutEncryption

end EncryptionChoice

/-! ## The layers of an archive that was opened -/

section Layers

variable {ρ : Type} [Patience] [AesGcm] [Hkdf] [Kem] [Sha512] [SignatureSchemes]

/-- The signatures of the archive were read, and those of each key in `keys` verified. -/
structure SignaturesVerified [Read Error ρ] [Seek Error ρ] (config : SignatureReaderConfig) (src : ρ)
    (keys : List MLASignatureVerificationPublicKey) : Prop where
  some_key : keys ≠ []
  verified : ∃ view hash shown signedHash persistent data signatures,
    ArchiveReader.openSource src = .ok (view, hash, signatureLayerMagic) ∧
    SignatureLayerReader.readSigned view hash true = .ok (shown, signedHash, persistent, data) ∧
    deserializeSignatures data = .ok signatures ∧
    ∀ key ∈ keys, key ∈ config.signatureVerificationKeys ∧
      SignatureLayerReader.hasBothSignatures signedHash signatures key = true

/-- The layers of a whole archive, each parsed behind the one before it and there when its magic
was: signatures, encryption, compression, and the entries in them. -/
structure ArchiveReader.Opened [BrotliDecompressor] [Read Error ρ] [Seek Error ρ]
    (config : ArchiveReaderConfig) (src : ρ) (reader : ArchiveReader ρ)
    (keys : List MLASignatureVerificationPublicKey) : Prop where
  layers : ∃ view hash first signature second persistent encryption third compression before,
    openSource src = .ok (view, hash, first) ∧
    openSignature config src = .ok (signature, second, keys, persistent) ∧
    (signature.IsPresent ↔ first = signatureLayerMagic) ∧
    openEncryption config signature second persistent = .ok (encryption, third) ∧
    (encryption.IsPresent ↔ second = encryptionLayerMagic) ∧
    openCompression encryption third = .ok compression ∧
    (compression.IsPresent ↔ third = compressionLayerMagic) ∧
    readMlaEntriesHeader before = .ok () reader.src ∧
    (config.acceptUnencrypted = false → encryption.IsPresent) ∧
    (config.signatureReaderConfig.signatureCheck = true → signature.IsPresent ∧
      SignaturesVerified config.signatureReaderConfig src keys)

/-- The layers of a truncated archive; its signatures are not checked. -/
structure TruncatedArchiveReader.Opened [BrotliStream] [Read Error ρ] (config : TruncatedReaderConfig)
    (src : ρ) (reader : TruncatedArchiveReader ρ) : Prop where
  layers : ∃ header start first raw signature second encryption third compression,
    ArchiveHeader.deserialize src = .ok header start ∧
    readLayerMagic (⟨start⟩ : RawLayerTruncatedReader ρ) = .ok first raw ∧
    openSignature src = .ok (signature, second) ∧
    (signature.IsPresent ↔ first = signatureLayerMagic) ∧
    openEncryption config signature second = .ok (encryption, third) ∧
    (encryption.IsPresent ↔ second = encryptionLayerMagic) ∧
    openCompression encryption third = .ok (compression, entriesLayerMagic) ∧
    (compression.IsPresent ↔ third = compressionLayerMagic) ∧
    readMlaEntriesHeaderSkipMagic compression = .ok () reader.src ∧
    (config.acceptUnencrypted = false → encryption.IsPresent)

namespace ArchiveReader

variable [Read Error ρ] [Seek Error ρ] {config : ArchiveReaderConfig} {src : ρ}

variable [BrotliDecompressor]

end ArchiveReader

namespace TruncatedArchiveReader

variable [Read Error ρ] {config : TruncatedReaderConfig} {src : ρ}

variable [BrotliStream]

end TruncatedArchiveReader

end Layers

/-! ## What both openers read of an archive -/

/-- The magic that is read where the layer of encryption is looked for: behind the header, or
behind the start of the layer of signatures when there is one. -/
inductive EncryptionMagic (S : Bytes) : Bytes → Prop
  | unsigned {k : ℕ} (start : ArchiveReader.StartsArchive S) (header : optsLength (S.drop 12) = some k)
      (le : 12 + k + 8 ≤ S.length) (first : slice S (12 + k) 8 ≠ signatureLayerMagic) :
      EncryptionMagic S (slice S (12 + k) 8)
  | signed {k k' : ℕ} (start : ArchiveReader.StartsArchive S)
      (header : optsLength (S.drop 12) = some k) (first : slice S (12 + k) 8 = signatureLayerMagic)
      (options : optsLength (S.drop (12 + k + 8)) = some k')
      (le : 12 + k + 8 + k' + 8 ≤ S.length) : EncryptionMagic S (slice S (12 + k + 8 + k') 8)

theorem EncryptionMagic.unique {S magic magic' : Bytes} (h : EncryptionMagic S magic)
    (h' : EncryptionMagic S magic') : magic = magic' := by
  cases h with
  | unsigned _ header _ first =>
      cases h' with
      | unsigned _ header' _ _ =>
          obtain rfl := Option.some.inj (header.symm.trans header')
          rfl
      | signed _ header' first' _ _ =>
          obtain rfl := Option.some.inj (header.symm.trans header')
          exact absurd first' first
  | signed _ header first options _ =>
      cases h' with
      | unsigned _ header' _ first' =>
          obtain rfl := Option.some.inj (header.symm.trans header')
          exact absurd first first'
      | signed _ header' _ options' _ =>
          obtain rfl := Option.some.inj (header.symm.trans header')
          obtain rfl := Option.some.inj (options.symm.trans options')
          rfl

section Magics

variable {ρ : Type} [Patience] {S : Bytes} {At : ρ → ℕ → Prop} {src : ρ}

namespace TruncatedArchiveReader

variable [Read Error ρ]

omit [Patience] in
theorem readsThrough_raw : ReadsThrough Error (σ := RawLayerTruncatedReader ρ)
    RawLayerTruncatedReader.inner (fun inner _ => ⟨inner⟩) where
  get_set _ _ := rfl
  read _ := rfl

end TruncatedArchiveReader

namespace ArchiveReader

variable [Kem] [Sha512] [SignatureSchemes] [Read Error ρ] [Seek Error ρ]

end ArchiveReader

end Magics

/-! ## The same policy -/

section Policy

variable {ρ : Type} [Patience] [AesGcm] [Hkdf] [Kem] [Sha512] [SignatureSchemes]
  [BrotliDecompressor] [BrotliStream] [Read Error ρ] [Seek Error ρ]

end Policy

end Mla

/-! ## An archive without encryption -/

namespace Mla.LabelSignature

open Io LabelKem CountingCipher StoredBrotli

/-- A decompressor that takes no stream. -/
scoped instance brotliStream : BrotliStream where
  BrotliState := Unit
  new := ()
  decompressStream state _ _ := ⟨.resultFailure, 0, [], state⟩

end Mla.LabelSignature
