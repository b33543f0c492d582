import Mla.Crypto.Hpke
import Mla.Serialize

/-!
# Shared secret for several recipients

A fresh secret is wrapped once for each recipient, under a key that is derived from two
key encapsulations, one on an elliptic curve and one on lattices. A private key tries all
entries in turn, and takes the first one whose tag it validates.

`Kem` is what is used of the two encapsulation schemes and of the random generator.
-/

namespace Mla

open Io

def mlkemCiphertextSize : ℕ := 1568
def dhkemCiphertextSize : ℕ := 32
def hybridKemSharedSecretSize : ℕ := 32

abbrev MlkemCiphertext := Vector UInt8 mlkemCiphertextSize
abbrev HybridKemSharedSecretArray := Vector UInt8 hybridKemSharedSecretSize
abbrev EncryptedSharedSecret := HybridKemSharedSecretArray
abbrev HybridKemSharedSecret := HybridKemSharedSecretArray

class Kem where
  Rng : Type
  EccPrivateKey : Type
  EccPublicKey : Type
  DhkemCiphertext : Type
  MlkemSeed : Type
  MlkemEncapsulationKey : Type
  /-- The public keys that go with the private ones. -/
  eccPublic : EccPrivateKey → EccPublicKey
  toPubkey : MlkemSeed → MlkemEncapsulationKey
  /-- A random shared secret. -/
  gen : Rng → HybridKemSharedSecretArray × Rng
  dhkemEncapFromRng : EccPublicKey → Rng → Option (Bytes × DhkemCiphertext) × Rng
  dhkemDecap : DhkemCiphertext → EccPrivateKey → Option Bytes
  mlkemEncapsulate : MlkemEncapsulationKey → Rng → Option (MlkemCiphertext × Bytes) × Rng
  mlkemDecapsulate : MlkemSeed → MlkemCiphertext → Option Bytes
  toBytes : DhkemCiphertext → Vector UInt8 dhkemCiphertextSize
  fromBytes : Bytes → Option DhkemCiphertext

/-- `info` for the key of one recipient. -/
def hpkeInfoRecipient : Bytes :=
  ascii ['M', 'L', 'A', ' ', 'R', 'e', 'c', 'i', 'p', 'i', 'e', 'n', 't']

def hybridKemAssociatedData : Bytes := []

structure MLADecryptionPrivateKey [Kem] where
  privateKeyEcc : Kem.EccPrivateKey
  privateKeySeedMl : Kem.MlkemSeed

structure MLAEncryptionPublicKey [Kem] where
  publicKeyEcc : Kem.EccPublicKey
  publicKeyMl : Kem.MlkemEncapsulationKey

structure HybridRecipientEncapsulatedKey [Kem] where
  ctMl : MlkemCiphertext
  ctEcc : Kem.DhkemCiphertext
  wrappedSs : EncryptedSharedSecret
  tag : Tag

structure HybridMultiRecipientEncapsulatedKey [Kem] where
  recipients : List HybridRecipientEncapsulatedKey

structure HybridMultiRecipientsPublicKeys [Kem] where
  keys : List MLAEncryptionPublicKey

/-- Derive the key of a recipient from two shared secrets and their ciphertexts. -/
def combine [Hkdf] (sharedSecret1 sharedSecret2 ciphertext1 ciphertext2 : Bytes) : Key :=
  let uniformlyRandomSs1 := Hkdf.extract none sharedSecret1
  let prk := Hkdf.extract (some uniformlyRandomSs1) sharedSecret2
  Hkdf.expand prk (ciphertext1 ++ ciphertext2) keySize

section Encapsulation

variable [AesGcm] [Hkdf] [Kem]

/-- The cipher that wraps the secret for a recipient. -/
def recipientCipher (ssEcc ssMl : Bytes) (ctEcc : Kem.DhkemCiphertext) (ctMl : MlkemCiphertext) :
    AesGcm256 :=
  let ssRecipient := combine ssEcc ssMl (Kem.toBytes ctEcc).toList ctMl.toList
  let (key, nonce) := keyScheduleBaseHybridKemRecipient ssRecipient.toList hpkeInfoRecipient
  AesGcm256.new key nonce hybridKemAssociatedData

/-- What `decapsulate` does with one entry; `none` when the tag is not the one computed. -/
def MLADecryptionPrivateKey.decapsulateOne (key : MLADecryptionPrivateKey)
    (recipient : HybridRecipientEncapsulatedKey) :
    Except ConfigError (Option HybridKemSharedSecret) := do
  let ssEcc ← orError (Kem.dhkemDecap recipient.ctEcc key.privateKeyEcc) .dhkemComputationError
  let ssMl ← orError (Kem.mlkemDecapsulate key.privateKeySeedMl recipient.ctMl)
    .mlkemComputationError
  let cipher := recipientCipher ssEcc ssMl recipient.ctEcc recipient.ctMl
  let (decryptedSs, tag) := cipher.decryptArray recipient.wrappedSs
  if tag = recipient.tag.toList then pure (some decryptedSs) else pure none

def MLADecryptionPrivateKey.decapsulateFrom (key : MLADecryptionPrivateKey) :
    List HybridRecipientEncapsulatedKey → Except ConfigError HybridKemSharedSecret
  | [] => throw .privateKeyNotFound
  | recipient :: recipients => do
      match ← key.decapsulateOne recipient with
      | some ss => pure ss
      | none => key.decapsulateFrom recipients

def MLADecryptionPrivateKey.decapsulate (key : MLADecryptionPrivateKey)
    (encapsulatedKey : HybridMultiRecipientEncapsulatedKey) :
    Except ConfigError HybridKemSharedSecret :=
  key.decapsulateFrom encapsulatedKey.recipients

/-- The entry of one recipient. -/
def MLAEncryptionPublicKey.encapsulateOne (recipient : MLAEncryptionPublicKey)
    (finalSsHybrid : HybridKemSharedSecret) (csprng : Kem.Rng) :
    Except ConfigError (HybridRecipientEncapsulatedKey × Kem.Rng) := do
  let (ecc, csprng) := Kem.dhkemEncapFromRng recipient.publicKeyEcc csprng
  let (ssEcc, ctEcc) ← orError ecc .dhkemComputationError
  let (ml, csprng) := Kem.mlkemEncapsulate recipient.publicKeyMl csprng
  let (ctMl, ssMl) ← orError ml .mlkemComputationError
  let cipher := recipientCipher ssEcc ssMl ctEcc ctMl
  let (wrappedSs, cipher) := cipher.encryptArray finalSsHybrid
  pure (⟨ctMl, ctEcc, wrappedSs, cipher.intoTag⟩, csprng)

def encapsulateFor (finalSsHybrid : HybridKemSharedSecret) :
    List MLAEncryptionPublicKey → Kem.Rng →
      Except ConfigError (List HybridRecipientEncapsulatedKey × Kem.Rng)
  | [], csprng => pure ([], csprng)
  | recipient :: keys, csprng => do
      let (entry, csprng) ← recipient.encapsulateOne finalSsHybrid csprng
      let (recipients, csprng) ← encapsulateFor finalSsHybrid keys csprng
      pure (entry :: recipients, csprng)

def HybridMultiRecipientsPublicKeys.encapsulate (publicKeys : HybridMultiRecipientsPublicKeys)
    (csprng : Kem.Rng) :
    Except ConfigError
      ((HybridMultiRecipientEncapsulatedKey × HybridKemSharedSecret) × Kem.Rng) := do
  let (finalSsHybrid, csprng) := Kem.gen csprng
  let (recipients, csprng) ← encapsulateFor finalSsHybrid publicKeys.keys csprng
  pure ((⟨recipients⟩, finalSsHybrid), csprng)

end Encapsulation

/-! ## Serialization -/

section Serialization

variable [Kem]

/-- The bytes of an entry. -/
def HybridRecipientEncapsulatedKey.encode (key : HybridRecipientEncapsulatedKey) : Bytes :=
  key.ctMl.toList ++ (Kem.toBytes key.ctEcc).toList ++ key.wrappedSs.toList ++ key.tag.toList

def HybridMultiRecipientEncapsulatedKey.encode (key : HybridMultiRecipientEncapsulatedKey) :
    Bytes :=
  encodeVec HybridRecipientEncapsulatedKey.encode key.recipients

@[simp] theorem HybridRecipientEncapsulatedKey.length_encode
    (key : HybridRecipientEncapsulatedKey) : key.encode.length = 1648 := by
  have hml : key.ctMl.toList.length = 1568 := Vector.length_toList
  have hecc : (Kem.toBytes key.ctEcc).toList.length = 32 := Vector.length_toList
  have hss : key.wrappedSs.toList.length = 32 := Vector.length_toList
  have htag : key.tag.toList.length = 16 := Vector.length_toList
  simp only [encode, List.length_append, hml, hecc, hss, htag]

theorem HybridMultiRecipientEncapsulatedKey.length_encode
    (key : HybridMultiRecipientEncapsulatedKey) :
    key.encode.length = 8 + 1648 * key.recipients.length := by
  have hsum : ∀ l : List HybridRecipientEncapsulatedKey,
      (l.flatMap HybridRecipientEncapsulatedKey.encode).length = 1648 * l.length := by
    intro l
    induction l with
    | nil => rfl
    | cons entry l ih =>
        rw [List.flatMap_cons, List.length_append, entry.length_encode, ih, List.length_cons]
        omega
  rw [encode, encodeVec, List.length_append, length_leBytes, hsum]

section Writing

variable {ω : Type} [Patience] [Write Error ω]

def HybridRecipientEncapsulatedKey.serialize (key : HybridRecipientEncapsulatedKey) :
    EStateM Error ω ℕ :=
  addLength
    (addLength
      (addLength (serializeSlice serializeU8 key.ctMl.toList)
        (serializeSlice serializeU8 (Kem.toBytes key.ctEcc).toList))
      (serializeSlice serializeU8 key.wrappedSs.toList))
    (serializeSlice serializeU8 key.tag.toList)

def HybridMultiRecipientEncapsulatedKey.serialize (key : HybridMultiRecipientEncapsulatedKey) :
    EStateM Error ω ℕ :=
  serializeVec HybridRecipientEncapsulatedKey.serialize key.recipients

def HybridKemSharedSecret.serialize (ss : HybridKemSharedSecret) : EStateM Error ω ℕ :=
  serializeSlice serializeU8 ss.toList

theorem HybridRecipientEncapsulatedKey.emits (key : HybridRecipientEncapsulatedKey) :
    Emits (key.serialize : EStateM Error ω ℕ) key.encode key.encode.length :=
  (((emits_bytes _).addLength (emits_bytes _)).addLength (emits_bytes _)).addLength
    (emits_bytes _)

theorem HybridMultiRecipientEncapsulatedKey.emits (key : HybridMultiRecipientEncapsulatedKey) :
    Emits (key.serialize : EStateM Error ω ℕ) key.encode key.encode.length :=
  emits_vec fun entry _ => entry.emits

end Writing

section Reading

variable {σ : Type} [Patience] [Read Error σ]

/-- `[u8; N]::deserialize`. -/
def deserializeVector (n : ℕ) : EStateM Error σ (Vector UInt8 n) := do
  let bs ← deserializeArray n
  if h : bs.length = n then
    pure (arrayOf bs h)
  else
    -- As many bytes were read as were asked for.
    throw .deserializationError

def HybridRecipientEncapsulatedKey.deserialize :
    EStateM Error σ HybridRecipientEncapsulatedKey := do
  let ctMl ← deserializeVector mlkemCiphertextSize
  let ctEccBytes ← deserializeVector dhkemCiphertextSize
  let ctEcc ← okOr (Kem.fromBytes ctEccBytes.toList) .deserializationError
  let wrappedSs ← deserializeVector hybridKemSharedSecretSize
  let tag ← deserializeVector tagLength
  pure ⟨ctMl, ctEcc, wrappedSs, tag⟩

def HybridMultiRecipientEncapsulatedKey.deserialize :
    EStateM Error σ HybridMultiRecipientEncapsulatedKey :=
  HybridMultiRecipientEncapsulatedKey.mk <$>
    deserializeVec HybridRecipientEncapsulatedKey.deserialize

def HybridKemSharedSecret.deserialize : EStateM Error σ HybridKemSharedSecret :=
  deserializeVector hybridKemSharedSecretSize

omit [Kem] in
theorem decodes_vector {n : ℕ} (v : Vector UInt8 n) :
    Decodes (deserializeVector n : EStateM Error σ (Vector UInt8 n)) v.toList v := by
  have hlen : v.toList.length = n := Vector.length_toList
  have hself : arrayOf v.toList hlen = v := toList_injective (toList_arrayOf _ _)
  have hchecked : Decodes (if h : v.toList.length = n then pure (arrayOf v.toList h)
      else throw .deserializationError : EStateM Error σ (Vector UInt8 n)) [] v := by
    rw [dif_pos hlen, hself]
    exact Decodes.pure v
  exact ((decodes_array hlen).bind (f := fun bs => if h : bs.length = n then pure (arrayOf bs h)
    else throw .deserializationError) hchecked).cast (List.append_nil _) rfl

/-- The ciphertexts that encapsulation makes are read back from their bytes. -/
structure Kem.Lossless [Kem] : Prop where
  fromBytes : ∀ ct : Kem.DhkemCiphertext, Kem.fromBytes (Kem.toBytes ct).toList = some ct

theorem HybridRecipientEncapsulatedKey.decodes (hkem : Kem.Lossless)
    (key : HybridRecipientEncapsulatedKey) :
    Decodes (deserialize : EStateM Error σ HybridRecipientEncapsulatedKey) key.encode key := by
  have htail : Decodes (do
      let wrappedSs ← deserializeVector hybridKemSharedSecretSize
      let tag ← deserializeVector tagLength
      pure ⟨key.ctMl, key.ctEcc, wrappedSs, tag⟩ :
        EStateM Error σ HybridRecipientEncapsulatedKey)
      (key.wrappedSs.toList ++ key.tag.toList) key :=
    (decodes_vector _).bind ((decodes_vector _).bindPure)
  have hecc : Decodes (okOr (Kem.fromBytes (Kem.toBytes key.ctEcc).toList)
      Error.deserializationError : EStateM Error σ Kem.DhkemCiphertext) [] key.ctEcc := by
    rw [hkem.fromBytes]
    exact Decodes.pure _
  refine Decodes.cast ((decodes_vector _).bind ((decodes_vector _).bind (hecc.bind htail))) ?_ rfl
  simp only [encode, List.append_assoc, List.nil_append]

theorem HybridMultiRecipientEncapsulatedKey.decodes (hkem : Kem.Lossless)
    {key : HybridMultiRecipientEncapsulatedKey} (hlen : key.recipients.length < u64Size) :
    Decodes (deserialize : EStateM Error σ HybridMultiRecipientEncapsulatedKey) key.encode key :=
  (decodes_vec hlen fun entry _ => entry.decodes hkem).map _

end Reading

end Serialization

/-! ## Who gets the secret -/

section Recipients

variable [AesGcm] [Hkdf] [Kem]

/-- Both schemes are correct: the private key of the recipient gets the secret that was
encapsulated for it, and no private key fails on a ciphertext that was made for another. -/
structure Kem.Correct : Prop where
  dhkem : ∀ {key csprng ss ct csprng'},
    Kem.dhkemEncapFromRng (Kem.eccPublic key) csprng = (some (ss, ct), csprng') →
      Kem.dhkemDecap ct key = some ss
  mlkem : ∀ {seed csprng ss ct csprng'},
    Kem.mlkemEncapsulate (Kem.toPubkey seed) csprng = (some (ct, ss), csprng') →
      Kem.mlkemDecapsulate seed ct = some ss
  dhkemTotal : ∀ {pub csprng ss ct csprng'},
    Kem.dhkemEncapFromRng pub csprng = (some (ss, ct), csprng') →
      ∀ key, ∃ ss', Kem.dhkemDecap ct key = some ss'
  mlkemTotal : ∀ {pub csprng ss ct csprng'},
    Kem.mlkemEncapsulate pub csprng = (some (ct, ss), csprng') →
      ∀ seed, ∃ ss', Kem.mlkemDecapsulate seed ct = some ss'

/-- The private key that goes with a public key. -/
def MLADecryptionPrivateKey.Matches (key : MLADecryptionPrivateKey)
    (pub : MLAEncryptionPublicKey) : Prop :=
  pub = ⟨Kem.eccPublic key.privateKeyEcc, Kem.toPubkey key.privateKeySeedMl⟩

/-- The tag of the entry validates under the key that the private key derives from it. -/
def MLADecryptionPrivateKey.Validates (key : MLADecryptionPrivateKey)
    (entry : HybridRecipientEncapsulatedKey) : Prop :=
  ∃ ssEcc ssMl, Kem.dhkemDecap entry.ctEcc key.privateKeyEcc = some ssEcc ∧
    Kem.mlkemDecapsulate key.privateKeySeedMl entry.ctMl = some ssMl ∧
    ((recipientCipher ssEcc ssMl entry.ctEcc entry.ctMl).decryptArray entry.wrappedSs).2 =
      entry.tag.toList

/-- The entry wraps the secret for a public key. -/
def WrapsFor (ss : HybridKemSharedSecret) (pub : MLAEncryptionPublicKey)
    (entry : HybridRecipientEncapsulatedKey) : Prop :=
  ∃ csprng csprng', pub.encapsulateOne ss csprng = .ok (entry, csprng')

/-- No entry validates under a key that is derived for another recipient. -/
def MLADecryptionPrivateKey.OnlyOwn (key : MLADecryptionPrivateKey)
    (pubs : List MLAEncryptionPublicKey) (entries : List HybridRecipientEncapsulatedKey) : Prop :=
  List.Forall₂ (fun pub entry => ¬ key.Matches pub → ¬ key.Validates entry) pubs entries

variable {key : MLADecryptionPrivateKey} {pub : MLAEncryptionPublicKey}
  {ss : HybridKemSharedSecret} {entry : HybridRecipientEncapsulatedKey}

/-- The pieces of an entry. -/
theorem WrapsFor.exists (h : WrapsFor ss pub entry) :
    ∃ ssEcc ssMl csprng csprng₁ csprng₂,
      Kem.dhkemEncapFromRng pub.publicKeyEcc csprng = (some (ssEcc, entry.ctEcc), csprng₁) ∧
      Kem.mlkemEncapsulate pub.publicKeyMl csprng₁ = (some (entry.ctMl, ssMl), csprng₂) ∧
      ((recipientCipher ssEcc ssMl entry.ctEcc entry.ctMl).encryptArray ss).1 =
        entry.wrappedSs ∧
      ((recipientCipher ssEcc ssMl entry.ctEcc entry.ctMl).encryptArray ss).2.intoTag =
        entry.tag := by
  obtain ⟨csprng, csprng', h⟩ := h
  rw [MLAEncryptionPublicKey.encapsulateOne] at h
  rcases hecc : Kem.dhkemEncapFromRng pub.publicKeyEcc csprng with ⟨_ | ⟨ssEcc, ctEcc⟩, csprng₁⟩
  · simp only [hecc, orError] at h
    cases h
  rcases hml : Kem.mlkemEncapsulate pub.publicKeyMl csprng₁ with ⟨_ | ⟨ctMl, ssMl⟩, csprng₂⟩
  · simp only [hecc, hml, orError] at h
    cases h
  simp only [hecc, hml, orError] at h
  obtain ⟨rfl, -⟩ := Prod.mk.inj (Except.ok.inj h)
  exact ⟨ssEcc, ssMl, csprng, csprng₁, csprng₂, hecc, hml, rfl, rfl⟩

theorem decapsulateOne_eq {ssEcc ssMl : Bytes}
    (hecc : Kem.dhkemDecap entry.ctEcc key.privateKeyEcc = some ssEcc)
    (hml : Kem.mlkemDecapsulate key.privateKeySeedMl entry.ctMl = some ssMl) :
    key.decapsulateOne entry =
      let opened := (recipientCipher ssEcc ssMl entry.ctEcc entry.ctMl).decryptArray entry.wrappedSs
      if opened.2 = entry.tag.toList then .ok (some opened.1) else .ok none := by
  rw [MLADecryptionPrivateKey.decapsulateOne, hecc, hml]
  rfl

/-- The entry of a recipient gives its private key the secret. -/
theorem WrapsFor.decapsulateOne_own (h : WrapsFor ss pub entry) (hcorrect : AesGcm.Correct)
    (hkem : Kem.Correct) (hmatches : key.Matches pub) :
    key.decapsulateOne entry = .ok (some ss) := by
  obtain ⟨ssEcc, ssMl, csprng, csprng₁, csprng₂, hecc, hml, hwrapped, htag⟩ := h.exists
  rw [MLADecryptionPrivateKey.Matches] at hmatches
  subst hmatches
  rw [decapsulateOne_eq (hkem.dhkem hecc) (hkem.mlkem hml)]
  have hopens : (recipientCipher ssEcc ssMl entry.ctEcc entry.ctMl).decryptArray entry.wrappedSs =
      (ss, entry.tag.toList) := by
    rw [← hwrapped, ← htag]
    exact AesGcm256.decryptArray_encryptArray hcorrect _ _ _ ss
  simp only [hopens, if_true]

/-- Other private keys pass over it. -/
theorem WrapsFor.decapsulateOne_other (h : WrapsFor ss pub entry) (hkem : Kem.Correct)
    (hvalidates : ¬ key.Validates entry) : key.decapsulateOne entry = .ok none := by
  obtain ⟨ssEcc, ssMl, csprng, csprng₁, csprng₂, hecc, hml, -, -⟩ := h.exists
  obtain ⟨ssEcc', hecc'⟩ := hkem.dhkemTotal hecc key.privateKeyEcc
  obtain ⟨ssMl', hml'⟩ := hkem.mlkemTotal hml key.privateKeySeedMl
  rw [decapsulateOne_eq hecc' hml']
  exact if_neg fun htag => hvalidates ⟨ssEcc', ssMl', hecc', hml', htag⟩

theorem encapsulateFor_wraps {pubs : List MLAEncryptionPublicKey} {csprng csprng' : Kem.Rng}
    {entries : List HybridRecipientEncapsulatedKey}
    (h : encapsulateFor ss pubs csprng = .ok (entries, csprng')) :
    List.Forall₂ (WrapsFor ss) pubs entries := by
  induction pubs generalizing csprng csprng' entries with
  | nil =>
      obtain ⟨rfl, -⟩ := Prod.mk.inj (Except.ok.inj h)
      exact .nil
  | cons pub pubs ih =>
      rw [encapsulateFor] at h
      cases hone : pub.encapsulateOne ss csprng with
      | error e =>
          rw [hone] at h
          cases h
      | ok r =>
          cases hrest : encapsulateFor ss pubs r.2 with
          | error e =>
              simp only [hone, bind, Except.bind, hrest] at h
              cases h
          | ok r' =>
              simp only [hone, bind, Except.bind, hrest] at h
              obtain ⟨rfl, -⟩ := Prod.mk.inj (Except.ok.inj h)
              exact .cons ⟨csprng, r.2, hone⟩ (ih hrest)

/-- A private key finds the secret when it is that of a recipient, and only then. -/
theorem decapsulateFrom_eq (hcorrect : AesGcm.Correct) (hkem : Kem.Correct)
    {pubs : List MLAEncryptionPublicKey} {entries : List HybridRecipientEncapsulatedKey}
    (hwraps : List.Forall₂ (WrapsFor ss) pubs entries) (hown : key.OnlyOwn pubs entries) :
    ((∃ pub ∈ pubs, key.Matches pub) → key.decapsulateFrom entries = .ok ss) ∧
      ((∀ pub ∈ pubs, ¬ key.Matches pub) →
        key.decapsulateFrom entries = .error .privateKeyNotFound) := by
  induction hwraps with
  | nil => exact ⟨fun ⟨pub, hpub, _⟩ => (by cases hpub), fun _ => rfl⟩
  | @cons pub entry pubs entries hwrap _ ih =>
      cases hown with
      | cons hvalidates hrest =>
          obtain ⟨ihsome, ihnone⟩ := ih hrest
          by_cases hmatches : key.Matches pub
          · refine ⟨fun _ => ?_, fun hnone => absurd hmatches (hnone pub List.mem_cons_self)⟩
            rw [MLADecryptionPrivateKey.decapsulateFrom,
              hwrap.decapsulateOne_own hcorrect hkem hmatches]
            rfl
          · have hskip : key.decapsulateFrom (entry :: entries) = key.decapsulateFrom entries := by
              rw [MLADecryptionPrivateKey.decapsulateFrom,
                hwrap.decapsulateOne_other hkem (hvalidates hmatches)]
              rfl
            rw [hskip]
            refine ⟨fun ⟨pub', hpub', hmatches'⟩ => ihsome ?_, fun hnone => ihnone fun pub' hpub' =>
              hnone pub' (List.mem_cons_of_mem _ hpub')⟩
            rcases List.mem_cons.mp hpub' with rfl | hpub'
            · exact absurd hmatches' hmatches
            · exact ⟨pub', hpub', hmatches'⟩

/-- The secret comes from the random generator. -/
theorem encapsulate_secret {publicKeys : HybridMultiRecipientsPublicKeys}
    {csprng csprng' : Kem.Rng} {encapsulatedKey : HybridMultiRecipientEncapsulatedKey}
    (h : publicKeys.encapsulate csprng = .ok ((encapsulatedKey, ss), csprng')) :
    ss = (Kem.gen csprng).1 := by
  rw [HybridMultiRecipientsPublicKeys.encapsulate] at h
  cases hentries : encapsulateFor (Kem.gen csprng).1 publicKeys.keys (Kem.gen csprng).2 with
  | error e =>
      simp only [hentries, bind, Except.bind] at h
      cases h
  | ok r =>
      simp only [hentries, bind, Except.bind] at h
      exact (congrArg (fun p => p.1.2) (Except.ok.inj h)).symm

theorem encapsulate_wraps {publicKeys : HybridMultiRecipientsPublicKeys} {csprng csprng' : Kem.Rng}
    {encapsulatedKey : HybridMultiRecipientEncapsulatedKey}
    (h : publicKeys.encapsulate csprng = .ok ((encapsulatedKey, ss), csprng')) :
    List.Forall₂ (WrapsFor ss) publicKeys.keys encapsulatedKey.recipients := by
  have hss := encapsulate_secret h
  rw [HybridMultiRecipientsPublicKeys.encapsulate] at h
  cases hentries : encapsulateFor (Kem.gen csprng).1 publicKeys.keys (Kem.gen csprng).2 with
  | error e =>
      simp only [hentries, bind, Except.bind] at h
      cases h
  | ok r =>
      simp only [hentries, bind, Except.bind] at h
      obtain rfl := congrArg (fun p => p.1.1) (Except.ok.inj h)
      rw [hss]
      exact encapsulateFor_wraps hentries

end Recipients

/-! ## Schemes to compute with -/

namespace LabelKem

/-- Extraction puts everything one after the other, expansion repeats the sum. -/
scoped instance hkdf : Hkdf where
  extract salt ikm := salt.getD [] ++ ikm
  expand prk _ n := Vector.replicate n (prk.foldl (fun sum b => sum + b) 0)

/-- A key is a label, on both sides; the secret shared with a recipient is its label. -/
scoped instance kem : Kem where
  Rng := Unit
  EccPrivateKey := UInt8
  EccPublicKey := UInt8
  DhkemCiphertext := Vector UInt8 dhkemCiphertextSize
  MlkemSeed := UInt8
  MlkemEncapsulationKey := UInt8
  eccPublic k := k
  toPubkey k := k
  gen rng := (Vector.replicate hybridKemSharedSecretSize 7, rng)
  dhkemEncapFromRng k rng := (some ([k], Vector.replicate dhkemCiphertextSize 0), rng)
  dhkemDecap _ k := some [k]
  mlkemEncapsulate k rng := (some (Vector.replicate mlkemCiphertextSize 0, [k]), rng)
  mlkemDecapsulate k _ := some [k]
  toBytes ct := ct
  fromBytes bs := if h : bs.length = dhkemCiphertextSize then some (arrayOf bs h) else none

def privateKey (k : UInt8) : MLADecryptionPrivateKey :=
  ⟨(show Kem.EccPrivateKey from k), (show Kem.MlkemSeed from k)⟩

def publicKey (k : UInt8) : MLAEncryptionPublicKey :=
  ⟨(show Kem.EccPublicKey from k), (show Kem.MlkemEncapsulationKey from k)⟩

def rng : Kem.Rng := show Unit from ()

end LabelKem

end Mla
