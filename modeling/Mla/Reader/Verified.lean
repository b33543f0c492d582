import Mla.Reader.Opened

/-!
# What was verified of an archive

The signatures of an archive are over its header, the start of the layer of signatures and what
this layer shows. The lengths behind it are not signed: they decide where it ends, and the hash
covers it up to there. As options tell their own length, the signed bytes tell what is shown.
-/

namespace Mla

open Io

/-! ## The parts of a signed archive -/

/-- An archive whose first layer is one of signatures, cut where its lengths say. -/
structure SignedParts where
  headerOptions : Option Bytes
  signatureOptions : Option Bytes
  sigInnerLayer : Bytes
  signatureTail : Bytes
  archiveTail : Bytes

namespace SignedParts

def header (parts : SignedParts) : Bytes :=
  mlaMagic ++ (leBytes 4 mlaFormatVersion ++ encodeOptions parts.headerOptions)

/-- The layer of signatures, from its magic to its tail. -/
def layer (parts : SignedParts) : Bytes :=
  signatureLayerMagic ++ (encodeOptions parts.signatureOptions ++
    (parts.sigInnerLayer ++ parts.signatureTail))

/-- The parts are those of `S`, and the tails are as long as their last bytes say. -/
structure Of (parts : SignedParts) (S : Bytes) : Prop where
  eq : S = parts.header ++ (parts.layer ++ parts.archiveTail)
  headerOptions : ValidOptions parts.headerOptions
  signatureOptions : ValidOptions parts.signatureOptions
  length_archiveTail : parts.archiveTail.length =
    ArchiveReader.tailLen (parts.layer ++ parts.archiveTail)
  length_signatureTail : parts.signatureTail.length =
    SignatureLayerReader.signatureTailLen parts.layer

end SignedParts

/-! ## Opening -/

section Opening

variable {ρ : Type} [Patience] [Kem] [Sha512] [SignatureSchemes] [Read Error ρ] [Seek Error ρ]
  {S : Bytes} {At : ρ → ℕ → Prop}

omit [Patience] [Kem] [Read Error ρ] [Seek Error ρ] in
theorem hasBothSignatures_iff {signedHash : Bytes} {signatures : List MLASignature}
    {key : MLASignatureVerificationPublicKey} :
    SignatureLayerReader.hasBothSignatures signedHash signatures key = true ↔
      (∃ sig, .mlaEd25519 sig ∈ signatures ∧ key.verify signedHash (.mlaEd25519 sig) = true) ∧
        ∃ sig, .mlaMlDsa87 sig ∈ signatures ∧ key.verify signedHash (.mlaMlDsa87 sig) = true := by
  rw [SignatureLayerReader.hasBothSignatures, Bool.and_eq_true, List.any_eq_true, List.any_eq_true]
  constructor
  · rintro ⟨⟨sig, hsig, hkind⟩, sig', hsig', hkind'⟩
    rw [List.mem_filter] at hsig hsig'
    cases sig with
    | mlaMlDsa87 sig => cases hkind
    | mlaEd25519 sig =>
    cases sig' with
    | mlaEd25519 sig' => cases hkind'
    | mlaMlDsa87 sig' => exact ⟨⟨sig, hsig⟩, sig', hsig'⟩
  · rintro ⟨⟨sig, hsig⟩, sig', hsig'⟩
    exact ⟨⟨_, List.mem_filter.mpr hsig, rfl⟩, _, List.mem_filter.mpr hsig', rfl⟩

namespace ArchiveReader

end ArchiveReader

end Opening

end Mla

/-! ## An archive that one key has signed -/

namespace Mla.LabelSignature

open Io LabelKem CountingCipher StoredBrotli

/-- Entries that end at once, and an index without a name. -/
def shown : Bytes :=
  entriesLayerMagic ++ (emptyOptsSerialization ++ encodeEndOfArchiveData) ++
    ArchiveFooter.encodeFooter [] ++ emptyTailOptsSerialization

def signatures : List MLASignature :=
  [.mlaEd25519 (Vector.replicate ed25519SignatureLength 1),
    .mlaMlDsa87 (show Vector UInt8 mlDsa87SignatureSize from Vector.replicate mlDsa87SignatureSize 1)]

def archive : Bytes :=
  ArchiveHeader.encode ++ (SignatureLayerReader.written shown
    (signatures.flatMap MLASignature.encode) ++ archiveTail)

def readerConfig : ArchiveReaderConfig :=
  (ArchiveReaderConfig.withSignatureVerification [publicKey 2, publicKey 1]).withoutEncryption

end Mla.LabelSignature
