import Mla.Crypto.Hash
import Mla.Crypto.Hybrid

/-!
# Signatures of two kinds

An archive is signed by each key twice, on an elliptic curve and on lattices.
`SignatureSchemes` is what is used of the two schemes and of the random generator; a
signature of the first kind is no more than its bytes.
-/

namespace Mla

open Io

def ed25519SignatureLength : ℕ := 64
def mlDsa87SignatureSize : ℕ := 4627

class SignatureSchemes where
  Rng : Type
  Ed25519SigningKey : Type
  Ed25519VerifyingKey : Type
  MLDSASeed : Type
  MlDsa87VerifyingKey : Type
  MlDsa87Signature : Type
  /-- The public keys that go with the private ones. -/
  ed25519Public : Ed25519SigningKey → Ed25519VerifyingKey
  toSigningVerificationKey : MLDSASeed → MlDsa87VerifyingKey
  sign : Ed25519SigningKey → Bytes → Vector UInt8 ed25519SignatureLength
  verify : Ed25519VerifyingKey → Bytes → Vector UInt8 ed25519SignatureLength → Bool
  /-- A message is signed with a context. -/
  signRandomized : MLDSASeed → Bytes → Bytes → Rng → Option MlDsa87Signature × Rng
  verifyWithContext : MlDsa87VerifyingKey → Bytes → Bytes → MlDsa87Signature → Bool
  encode : MlDsa87Signature → Vector UInt8 mlDsa87SignatureSize
  decode : Vector UInt8 mlDsa87SignatureSize → Option MlDsa87Signature

/-- `b"MLAMLDSA87SigMethod"`. -/
def mldsa87Context : Bytes :=
  ascii ['M', 'L', 'A', 'M', 'L', 'D', 'S', 'A', '8', '7', 'S', 'i', 'g', 'M', 'e', 't', 'h', 'o', 'd']

structure MLASigningPrivateKey [SignatureSchemes] where
  privateKeyEd25519 : SignatureSchemes.Ed25519SigningKey
  privateKeySeedMldsa : SignatureSchemes.MLDSASeed

structure MLASignatureVerificationPublicKey [SignatureSchemes] where
  publicKeyEd25519 : SignatureSchemes.Ed25519VerifyingKey
  publicKeyMldsa87 : SignatureSchemes.MlDsa87VerifyingKey

inductive MLASignature [SignatureSchemes]
  | mlaEd25519 (ed25519Sig : Vector UInt8 ed25519SignatureLength)
  | mlaMlDsa87 (mldsa87Sig : SignatureSchemes.MlDsa87Signature)

def mlaed25519SigMethod : ℕ := 0
def mlamldsa87SigMethod : ℕ := 1

section Sign

variable [Sha512] [SignatureSchemes]

def MLASigningPrivateKey.signEd25519 (key : MLASigningPrivateKey) (hashToSign : Bytes) :
    Vector UInt8 ed25519SignatureLength :=
  SignatureSchemes.sign key.privateKeyEd25519 (Sha512.digest hashToSign).toList

def MLASigningPrivateKey.signMldsa87 (key : MLASigningPrivateKey) (hashToSign : Bytes)
    (csprng : SignatureSchemes.Rng) :
    Option SignatureSchemes.MlDsa87Signature × SignatureSchemes.Rng :=
  SignatureSchemes.signRandomized key.privateKeySeedMldsa (Sha512.digest hashToSign).toList
    mldsa87Context csprng

def MLASignatureVerificationPublicKey.verify (key : MLASignatureVerificationPublicKey)
    (hashToVerify : Bytes) : MLASignature → Bool
  | .mlaEd25519 ed25519Sig =>
      SignatureSchemes.verify key.publicKeyEd25519 (Sha512.digest hashToVerify).toList ed25519Sig
  | .mlaMlDsa87 mldsa87Sig =>
      SignatureSchemes.verifyWithContext key.publicKeyMldsa87 (Sha512.digest hashToVerify).toList
        mldsa87Context mldsa87Sig

end Sign

section Serialize

variable [SignatureSchemes] {ω σ : Type} [Patience]

def serializeEd25519 [Write Error ω] (ed25519Sig : Vector UInt8 ed25519SignatureLength) :
    EStateM Error ω ℕ := do
  let _ ← serializeU16 mlaed25519SigMethod
  put ed25519Sig.toList
  pure (2 + ed25519SignatureLength)

def serializeMldsa87 [Write Error ω] (mldsa87Sig : SignatureSchemes.MlDsa87Signature) :
    EStateM Error ω ℕ := do
  let _ ← serializeU16 mlamldsa87SigMethod
  put (SignatureSchemes.encode mldsa87Sig).toList
  pure (2 + mlDsa87SignatureSize)

def MLASignature.deserialize [Read Error σ] : EStateM Error σ MLASignature := do
  let signatureMethodId ← deserializeU16
  if signatureMethodId = 0 then do
    let bytes ← deserializeVector ed25519SignatureLength
    pure (.mlaEd25519 bytes)
  else if signatureMethodId = 1 then do
    let bytes ← deserializeVector mlDsa87SignatureSize
    let parsedSignature ← okOr (SignatureSchemes.decode bytes) .deserializationError
    pure (.mlaMlDsa87 parsedSignature)
  else
    throw .deserializationError

/-- Signatures up to the end of `signatureData`; each takes some of it. -/
def deserializeSignaturesFrom : ℕ → Cursor Error → Except Error (List MLASignature)
  | 0, _ => .ok []
  | fuel + 1, src =>
      if src.data.length ≤ src.pos then .ok []
      else
        match MLASignature.deserialize src with
        | .ok signature src => do
            let signatures ← deserializeSignaturesFrom fuel src
            pure (signature :: signatures)
        | .error e _ => .error e

def deserializeSignatures (signatureData : Bytes) : Except Error (List MLASignature) :=
  deserializeSignaturesFrom signatureData.length ⟨signatureData, 0⟩

end Serialize

/-! ## Schemes to compute with -/

namespace LabelSignature

scoped instance sha512 : Sha512 where
  digest bytes := Vector.replicate 64 (bytes.foldl (fun sum b => sum + b) 0)

/-- A key is a label, and signs with its label. -/
scoped instance signatureSchemes : SignatureSchemes where
  Rng := Unit
  Ed25519SigningKey := UInt8
  Ed25519VerifyingKey := UInt8
  MLDSASeed := UInt8
  MlDsa87VerifyingKey := UInt8
  MlDsa87Signature := Vector UInt8 mlDsa87SignatureSize
  ed25519Public k := k
  toSigningVerificationKey k := k
  sign k _ := Vector.replicate ed25519SignatureLength k
  verify k _ sig := sig == Vector.replicate ed25519SignatureLength k
  signRandomized k _ _ rng := (some (Vector.replicate mlDsa87SignatureSize k), rng)
  verifyWithContext k _ _ sig := sig == Vector.replicate mlDsa87SignatureSize k
  encode sig := sig
  decode sig := some sig

def privateKey (k : UInt8) : MLASigningPrivateKey :=
  ⟨(show SignatureSchemes.Ed25519SigningKey from k), (show SignatureSchemes.MLDSASeed from k)⟩

def publicKey (k : UInt8) : MLASignatureVerificationPublicKey :=
  ⟨(show SignatureSchemes.Ed25519VerifyingKey from k),
    (show SignatureSchemes.MlDsa87VerifyingKey from k)⟩

def rng : SignatureSchemes.Rng := show Unit from ()

end LabelSignature

end Mla
