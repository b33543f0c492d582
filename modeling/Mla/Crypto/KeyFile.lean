import Mla.Crypto.Base64
import Mla.Crypto.HybridSignature
import Mla.Io.Consume

/-!
# Key files

A key file is made of five parts, each behind which a separator stands: a header, two keys,
options, and a footer. A key is the base64 of a method, of options and of the two keys of a
hybrid scheme. `KeyEncodings` is what is used of the encodings of the single keys.
-/

namespace Mla

open Io

def mlaPrivDecKeyHeader : Bytes :=
  ascii ['M', 'L', 'A', ' ', 'P', 'R', 'I', 'V', 'A', 'T', 'E', ' ', 'D', 'E', 'C', 'R', 'Y', 'P',
    'T', 'I', 'O', 'N', ' ', 'K', 'E', 'Y', ' ']

def mlaPrivSigKeyHeader : Bytes :=
  ascii ['M', 'L', 'A', ' ', 'P', 'R', 'I', 'V', 'A', 'T', 'E', ' ', 'S', 'I', 'G', 'N', 'I', 'N',
    'G', ' ', 'K', 'E', 'Y', ' ']

def mlaPubEncKeyHeader : Bytes :=
  ascii ['M', 'L', 'A', ' ', 'P', 'U', 'B', 'L', 'I', 'C', ' ', 'E', 'N', 'C', 'R', 'Y', 'P', 'T',
    'I', 'O', 'N', ' ', 'K', 'E', 'Y', ' ']

def mlaPubSigverifKeyHeader : Bytes :=
  ascii ['M', 'L', 'A', ' ', 'P', 'U', 'B', 'L', 'I', 'C', ' ', 'S', 'I', 'G', 'N', 'A', 'T', 'U',
    'R', 'E', ' ', 'V', 'E', 'R', 'I', 'F', 'I', 'C', 'A', 'T', 'I', 'O', 'N', ' ', 'K', 'E', 'Y',
    ' ']

/-- `b"mla-kem-private-x25519-mlkem1024"`. -/
def decMethodId0Priv : Bytes :=
  ascii ['m', 'l', 'a', '-', 'k', 'e', 'm', '-', 'p', 'r', 'i', 'v', 'a', 't', 'e', '-', 'x', '2',
    '5', '5', '1', '9', '-', 'm', 'l', 'k', 'e', 'm', '1', '0', '2', '4']

/-- `b"mla-signature-private-ed25519-mldsa87"`. -/
def sigMethodId0Priv : Bytes :=
  ascii ['m', 'l', 'a', '-', 's', 'i', 'g', 'n', 'a', 't', 'u', 'r', 'e', '-', 'p', 'r', 'i', 'v',
    'a', 't', 'e', '-', 'e', 'd', '2', '5', '5', '1', '9', '-', 'm', 'l', 'd', 's', 'a', '8', '7']

/-- `b"mla-kem-public-x25519-mlkem1024"`. -/
def encMethodId0Pub : Bytes :=
  ascii ['m', 'l', 'a', '-', 'k', 'e', 'm', '-', 'p', 'u', 'b', 'l', 'i', 'c', '-', 'x', '2', '5',
    '5', '1', '9', '-', 'm', 'l', 'k', 'e', 'm', '1', '0', '2', '4']

/-- `b"mla-signature-verification-public-ed25519-mldsa87"`. -/
def sigverifMethodId0Pub : Bytes :=
  ascii ['m', 'l', 'a', '-', 's', 'i', 'g', 'n', 'a', 't', 'u', 'r', 'e', '-', 'v', 'e', 'r', 'i',
    'f', 'i', 'c', 'a', 't', 'i', 'o', 'n', '-', 'p', 'u', 'b', 'l', 'i', 'c', '-', 'e', 'd', '2',
    '5', '5', '1', '9', '-', 'm', 'l', 'd', 's', 'a', '8', '7']

/-- `b"DO NOT SEND THIS TO ANYONE - MLA PRIVATE KEY FILE V1"`. -/
def privKeyFileHeader : Bytes :=
  ascii ['D', 'O', ' ', 'N', 'O', 'T', ' ', 'S', 'E', 'N', 'D', ' ', 'T', 'H', 'I', 'S', ' ', 'T',
    'O', ' ', 'A', 'N', 'Y', 'O', 'N', 'E', ' ', '-', ' ', 'M', 'L', 'A', ' ', 'P', 'R', 'I', 'V',
    'A', 'T', 'E', ' ', 'K', 'E', 'Y', ' ', 'F', 'I', 'L', 'E', ' ', 'V', '1']

/-- `b"END OF MLA PRIVATE KEY FILE"`. -/
def privKeyFileFooter : Bytes :=
  ascii ['E', 'N', 'D', ' ', 'O', 'F', ' ', 'M', 'L', 'A', ' ', 'P', 'R', 'I', 'V', 'A', 'T', 'E',
    ' ', 'K', 'E', 'Y', ' ', 'F', 'I', 'L', 'E']

/-- `b"MLA PUBLIC KEY FILE V1"`. -/
def pubKeyFileHeader : Bytes :=
  ascii ['M', 'L', 'A', ' ', 'P', 'U', 'B', 'L', 'I', 'C', ' ', 'K', 'E', 'Y', ' ', 'F', 'I', 'L',
    'E', ' ', 'V', '1']

/-- `b"END OF MLA PUBLIC KEY FILE"`. -/
def pubKeyFileFooter : Bytes :=
  ascii ['E', 'N', 'D', ' ', 'O', 'F', ' ', 'M', 'L', 'A', ' ', 'P', 'U', 'B', 'L', 'I', 'C', ' ',
    'K', 'E', 'Y', ' ', 'F', 'I', 'L', 'E']

def eccPrivkeySize : ℕ := 32
def eccPubkeySize : ℕ := 32
def ed25519PrivkeySize : ℕ := 32
def mlkemDzSize : ℕ := 64
def mldsaXiSize : ℕ := 32
def mlkemPubkeySize : ℕ := 1568
def mldsaPubkeySize : ℕ := 2592

/-! ## Encodings of single keys -/

class KeyEncodings [Kem] [SignatureSchemes] where
  /-- `StaticSecret::from` and `as_bytes`. -/
  staticSecret : Vector UInt8 eccPrivkeySize → Kem.EccPrivateKey
  staticSecretBytes : Kem.EccPrivateKey → Vector UInt8 eccPrivkeySize
  /-- A seed is made of `d` and `z`. -/
  mlkemSeed : Vector UInt8 32 → Vector UInt8 32 → Kem.MlkemSeed
  seedD : Kem.MlkemSeed → Vector UInt8 32
  seedZ : Kem.MlkemSeed → Vector UInt8 32
  /-- `SigningKey::from_bytes` and `as_bytes`. -/
  signingKey : Vector UInt8 ed25519PrivkeySize → SignatureSchemes.Ed25519SigningKey
  signingKeyBytes : SignatureSchemes.Ed25519SigningKey → Vector UInt8 ed25519PrivkeySize
  /-- A seed is made of `xi`. -/
  mldsaSeed : Vector UInt8 mldsaXiSize → SignatureSchemes.MLDSASeed
  seedXi : SignatureSchemes.MLDSASeed → Vector UInt8 mldsaXiSize
  /-- `PublicKey::from` and `to_bytes`. -/
  publicKey : Vector UInt8 eccPubkeySize → Kem.EccPublicKey
  publicKeyBytes : Kem.EccPublicKey → Vector UInt8 eccPubkeySize
  /-- `EncapsulationKey::from_bytes` and `as_bytes`. -/
  encapsulationKey : Vector UInt8 mlkemPubkeySize → Kem.MlkemEncapsulationKey
  encapsulationKeyBytes : Kem.MlkemEncapsulationKey → Vector UInt8 mlkemPubkeySize
  /-- `VerifyingKey::from_bytes`, which refuses what is not a point, and `as_bytes`. -/
  verifyingKey : Vector UInt8 eccPubkeySize → Option SignatureSchemes.Ed25519VerifyingKey
  verifyingKeyBytes : SignatureSchemes.Ed25519VerifyingKey → Vector UInt8 eccPubkeySize
  /-- `VerifyingKey::decode` and `encode`. -/
  mldsaKey : Vector UInt8 mldsaPubkeySize → SignatureSchemes.MlDsa87VerifyingKey
  mldsaKeyBytes : SignatureSchemes.MlDsa87VerifyingKey → Vector UInt8 mldsaPubkeySize

/-- The keys are read back from their bytes. -/
structure KeyEncodings.Lossless [Kem] [SignatureSchemes] [KeyEncodings] : Prop where
  staticSecret : ∀ k, KeyEncodings.staticSecret (KeyEncodings.staticSecretBytes k) = k
  mlkemSeed : ∀ k, KeyEncodings.mlkemSeed (KeyEncodings.seedD k) (KeyEncodings.seedZ k) = k
  signingKey : ∀ k, KeyEncodings.signingKey (KeyEncodings.signingKeyBytes k) = k
  mldsaSeed : ∀ k, KeyEncodings.mldsaSeed (KeyEncodings.seedXi k) = k
  publicKey : ∀ k, KeyEncodings.publicKey (KeyEncodings.publicKeyBytes k) = k
  encapsulationKey : ∀ k,
    KeyEncodings.encapsulationKey (KeyEncodings.encapsulationKeyBytes k) = k
  verifyingKey : ∀ k, KeyEncodings.verifyingKey (KeyEncodings.verifyingKeyBytes k) = some k
  mldsaKey : ∀ k, KeyEncodings.mldsaKey (KeyEncodings.mldsaKeyBytes k) = k

/-! ## Reading a file -/

section ReadToEnd

variable {σ : Type} [Read Error σ]

/-- The loop of `zeroizeable_read_to_end`, with `fuel` reads left. -/
def zeroizeableReadToEndLoop : ℕ → ℕ → Bytes → EStateM Error σ Bytes
  | 0, _, _ => throw (.ioError (.kind .exhausted))
  | fuel + 1, minCapacity, buf => fun s =>
      match if buf.length = minCapacity then checkedMul minCapacity 2 else some minCapacity with
      | none => .error .deserializationError s
      | some minCapacity =>
          match Read.read (minCapacity - buf.length) s with
          | .ok bs s =>
              if bs.isEmpty then .ok buf s
              else
                match checkedAdd buf.length bs.length with
                | none => .error .deserializationError s
                | some _ => zeroizeableReadToEndLoop fuel minCapacity (buf ++ bs) s
          | .error e s =>
              if e.isInterrupted then zeroizeableReadToEndLoop fuel minCapacity buf s
              else .error .deserializationError s

def zeroizeableReadToEnd (fuel : ℕ) : EStateM Error σ Bytes :=
  zeroizeableReadToEndLoop fuel 4096 []

end ReadToEnd

structure FiveParts where
  first : Bytes
  second : Bytes
  third : Bytes
  fourth : Bytes
  fifth : Bytes

/-- `b'\r'`, `b'\n'` and `b'_'`. -/
def carriageReturn : UInt8 := 13
def lineFeed : UInt8 := 10
def underscore : UInt8 := 95

def splitSeparator (content : Bytes) : Except Error (Bytes × Bytes) :=
  let carriageReturnIndex :=
    (content.findIdx? fun b => b = carriageReturn ∨ b = underscore).getD 0
  if carriageReturnIndex = 0 then .error .deserializationError
  else
    match content.drop carriageReturnIndex with
    | a :: b :: rest =>
        if (a ≠ carriageReturn ∧ a ≠ underscore) ∨ (a = carriageReturn ∧ b ≠ lineFeed) ∨
            (a = underscore ∧ b ≠ underscore) then .error .deserializationError
        else .ok (content.take carriageReturnIndex, rest)
    | _ => .error .deserializationError

def splitInFiveParts (content : Bytes) : Except Error FiveParts := do
  let (first, rest) ← splitSeparator content
  let (second, rest) ← splitSeparator rest
  let (third, rest) ← splitSeparator rest
  let (fourth, rest) ← splitSeparator rest
  let (fifth, rest) ← splitSeparator rest
  if rest = [] then .ok ⟨first, second, third, fourth, fifth⟩ else .error .deserializationError

/-! ## Options -/

namespace KeyOpts

def bufferSize : ℕ := 4096

def serializeKeyOpts {ω : Type} [Patience] [Write Error ω] : EStateM Error ω Unit := do
  let encoded ← MonadExcept.ofExcept (base64Encode emptyOptsSerialization)
  put encoded
  put [carriageReturn, lineFeed]

variable {σ : Type} [Patience] [Read Error σ]

/-- Read chunk by chunk; the bytes are dropped. -/
def skipChunks : ℕ → EStateM Error σ Unit
  | 0 => pure ()
  | n + 1 => do
      let _ ← readField bufferSize
      skipChunks n

def deserialize : EStateM Error σ Unit := do
  let discriminant ← deserializeU8
  if discriminant = 0 then pure ()
  else if discriminant = 1 then do
    let keyOptsLen ← fromLeBytes <$> readExactly 8
    skipChunks (keyOptsLen / bufferSize)
    let _ ← readField (keyOptsLen % bufferSize)
    pure ()
  else throw .deserializationError

end KeyOpts

/-! ## Keys -/

/-- What stands behind a prefix. -/
def stripPrefix (start line : Bytes) : Option Bytes :=
  if start <+: line then some (line.drop start.length) else none

/-- The bytes as an array, when there are as many. -/
def toArray (n : ℕ) (bytes : Bytes) : Option (Vector UInt8 n) :=
  if h : bytes.length = n then some (arrayOf bytes h) else none

section Line

variable {α : Type} [Patience]

/-- `read_exact` into an array. -/
def readArray (n : ℕ) : EStateM Error (Cursor Error) (Vector UInt8 n) := do
  let bytes ← readField n
  -- As many bytes were read as were asked for.
  okOr (toArray n bytes) .deserializationError

/-- `read_to_end` into a vector, and from there into an array. -/
def readRest (n : ℕ) : EStateM Error (Cursor Error) (Vector UInt8 n) := fun cursor =>
  match toArray n (cursor.data.drop cursor.pos) with
  | some array => .ok array { cursor with pos := cursor.data.length }
  | none => .error .deserializationError { cursor with pos := cursor.data.length }

/-- A line with a key: its header, and the base64 of a method, of options and of what `keys` reads. -/
def deserializeKeyLine (header methodId0 : Bytes) (keys : EStateM Error (Cursor Error) α)
    (line : Bytes) : Except Error α := do
  let b64data ← orError (stripPrefix header line) .deserializationError
  let data ← (base64Decode b64data).mapError fun _ => Error.deserializationError
  let (key, _) ← runOn (do
    let methodId ← readField methodId0.length
    if methodId = methodId0 then do
      KeyOpts.deserialize
      keys
    else throw .deserializationError) ⟨data, 0⟩
  pure key

variable {ω : Type} [Write Error ω]

def serializeKeyLine (header data : Bytes) : EStateM Error ω Unit := do
  put header
  let encoded ← MonadExcept.ofExcept (base64Encode data)
  put encoded
  put [carriageReturn, lineFeed]

end Line

section File

variable {α β γ : Type} {σ ω : Type} [Read Error σ] [Patience] [Write Error ω]

/-- A file with two keys. The options are on a line of their own; nothing reads it. -/
def deserializeKeyFile (header footer : Bytes) (second : Bytes → Except Error α)
    (third : Bytes → Except Error β) (make : α → β → γ) (fuel : ℕ) (src : σ) :
    Except Error γ := do
  let (content, _) ← runOn (zeroizeableReadToEnd fuel) src
  let lines ← splitInFiveParts content
  if lines.first ≠ header then throw .deserializationError
  else if lines.fifth ≠ footer then throw .deserializationError
  else do
    let key ← second lines.second
    let key' ← third lines.third
    pure (make key key')

def serializeKeyFile (header footer : Bytes) (second third : EStateM Error ω Unit) :
    EStateM Error ω Unit := do
  put header
  put [carriageReturn, lineFeed]
  second
  third
  KeyOpts.serializeKeyOpts
  put footer
  put [carriageReturn, lineFeed]

end File

section Keys

variable [Kem] [SignatureSchemes] [KeyEncodings]

/-- `MLKEMSeed::from_d_z_64` and `to_d_z_64`. -/
def fromDZ64 (dz : Vector UInt8 mlkemDzSize) : Kem.MlkemSeed :=
  KeyEncodings.mlkemSeed (dz.take 32) (dz.drop 32)

def toDZ64 (seed : Kem.MlkemSeed) : Vector UInt8 mlkemDzSize :=
  KeyEncodings.seedD seed ++ KeyEncodings.seedZ seed

structure MLAPrivateKey where
  decryptionPrivateKey : MLADecryptionPrivateKey
  signingPrivateKey : MLASigningPrivateKey

structure MLAPublicKey where
  encryptionPublicKey : MLAEncryptionPublicKey
  signatureVerificationPublicKey : MLASignatureVerificationPublicKey

variable [Patience]

def MLADecryptionPrivateKey.deserializeDecryptionPrivateKey :
    Bytes → Except Error MLADecryptionPrivateKey :=
  deserializeKeyLine mlaPrivDecKeyHeader decMethodId0Priv do
    let serializedEccKey ← readArray eccPrivkeySize
    let serializedMlkemSeed ← readArray mlkemDzSize
    pure ⟨KeyEncodings.staticSecret serializedEccKey, fromDZ64 serializedMlkemSeed⟩

def MLASigningPrivateKey.deserializeSigningPrivateKey : Bytes → Except Error MLASigningPrivateKey :=
  deserializeKeyLine mlaPrivSigKeyHeader sigMethodId0Priv do
    let serializedEccKey ← readArray ed25519PrivkeySize
    let serializedMldsaSeed ← readArray mldsaXiSize
    pure ⟨KeyEncodings.signingKey serializedEccKey, KeyEncodings.mldsaSeed serializedMldsaSeed⟩

def MLAEncryptionPublicKey.deserializeEncryptionPublicKey :
    Bytes → Except Error MLAEncryptionPublicKey :=
  deserializeKeyLine mlaPubEncKeyHeader encMethodId0Pub do
    let serializedEccKey ← readArray eccPubkeySize
    let serializedMlkemKey ← readRest mlkemPubkeySize
    pure ⟨KeyEncodings.publicKey serializedEccKey, KeyEncodings.encapsulationKey serializedMlkemKey⟩

def MLASignatureVerificationPublicKey.deserializeSignatureVerificationPublicKey :
    Bytes → Except Error MLASignatureVerificationPublicKey :=
  deserializeKeyLine mlaPubSigverifKeyHeader sigverifMethodId0Pub do
    let serializedEccKey ← readArray eccPubkeySize
    let publicKeyEd25519 ← okOr (KeyEncodings.verifyingKey serializedEccKey) .deserializationError
    let serializedMldsaKey ← readRest mldsaPubkeySize
    pure ⟨publicKeyEd25519, KeyEncodings.mldsaKey serializedMldsaKey⟩

section Read

variable {σ : Type} [Read Error σ]

def MLAPrivateKey.deserializePrivateKey : ℕ → σ → Except Error MLAPrivateKey :=
  deserializeKeyFile privKeyFileHeader privKeyFileFooter
    MLADecryptionPrivateKey.deserializeDecryptionPrivateKey
    MLASigningPrivateKey.deserializeSigningPrivateKey .mk

def MLAPublicKey.deserializePublicKey : ℕ → σ → Except Error MLAPublicKey :=
  deserializeKeyFile pubKeyFileHeader pubKeyFileFooter
    MLAEncryptionPublicKey.deserializeEncryptionPublicKey
    MLASignatureVerificationPublicKey.deserializeSignatureVerificationPublicKey .mk

end Read

section Write

variable {ω : Type} [Write Error ω]

def MLADecryptionPrivateKey.serializeDecryptionPrivateKey (key : MLADecryptionPrivateKey) :
    EStateM Error ω Unit :=
  serializeKeyLine mlaPrivDecKeyHeader (decMethodId0Priv ++ emptyOptsSerialization ++
    (KeyEncodings.staticSecretBytes key.privateKeyEcc).toList ++ (toDZ64 key.privateKeySeedMl).toList)

def MLASigningPrivateKey.serializeSigningPrivateKey (key : MLASigningPrivateKey) :
    EStateM Error ω Unit :=
  serializeKeyLine mlaPrivSigKeyHeader (sigMethodId0Priv ++ emptyOptsSerialization ++
    (KeyEncodings.signingKeyBytes key.privateKeyEd25519).toList ++
    (KeyEncodings.seedXi key.privateKeySeedMldsa).toList)

def MLAEncryptionPublicKey.serializeEncryptionPublicKey (key : MLAEncryptionPublicKey) :
    EStateM Error ω Unit :=
  serializeKeyLine mlaPubEncKeyHeader (encMethodId0Pub ++ emptyOptsSerialization ++
    (KeyEncodings.publicKeyBytes key.publicKeyEcc).toList ++
    (KeyEncodings.encapsulationKeyBytes key.publicKeyMl).toList)

def MLASignatureVerificationPublicKey.serializeSignatureVerificationPublicKey
    (key : MLASignatureVerificationPublicKey) : EStateM Error ω Unit :=
  serializeKeyLine mlaPubSigverifKeyHeader (sigverifMethodId0Pub ++ emptyOptsSerialization ++
    (KeyEncodings.verifyingKeyBytes key.publicKeyEd25519).toList ++
    (KeyEncodings.mldsaKeyBytes key.publicKeyMldsa87).toList)

def MLAPrivateKey.serializePrivateKey (key : MLAPrivateKey) : EStateM Error ω Unit :=
  serializeKeyFile privKeyFileHeader privKeyFileFooter
    key.decryptionPrivateKey.serializeDecryptionPrivateKey
    key.signingPrivateKey.serializeSigningPrivateKey

def MLAPublicKey.serializePublicKey (key : MLAPublicKey) : EStateM Error ω Unit :=
  serializeKeyFile pubKeyFileHeader pubKeyFileFooter
    key.encryptionPublicKey.serializeEncryptionPublicKey
    key.signatureVerificationPublicKey.serializeSignatureVerificationPublicKey

end Write

end Keys

end Mla
