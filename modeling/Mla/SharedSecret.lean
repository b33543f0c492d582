import Mathlib.Data.List.Forall2
import Mla.Layers.Encrypt.Config

/-!
# Recovering the secret of an archive

Who has a private key can take the secret out of the metadata of an archive and hand it to
someone who has none. Both are sent as bytes. However they are sent, and whatever other keys
are tried before, a reader that has the private key of a recipient, or the secret recovered
with it, loads the parameters of the writer (`recipients_load`).
-/

namespace Mla

open Io

/-- What a private key needs of an archive. -/
structure MLADecryptionMetadata [Kem] where
  encapsulatedKey : HybridMultiRecipientEncapsulatedKey

section Helpers

variable {ω σ : Type} [Patience] [Write Error ω] [Read Error σ]

namespace MLADecryptionMetadata

variable [Kem]

def serializeMetadata (metadata : MLADecryptionMetadata) : EStateM Error ω ℕ :=
  metadata.encapsulatedKey.serialize

def deserializeMetadata : EStateM Error σ MLADecryptionMetadata :=
  MLADecryptionMetadata.mk <$> HybridMultiRecipientEncapsulatedKey.deserialize

end MLADecryptionMetadata

namespace MLADecryptionSharedSecret

def serializeSharedSecret (sharedSecret : MLADecryptionSharedSecret) : EStateM Error ω ℕ :=
  HybridKemSharedSecret.serialize sharedSecret.secret

def deserializeSharedSecret : EStateM Error σ MLADecryptionSharedSecret :=
  MLADecryptionSharedSecret.mk <$> HybridKemSharedSecret.deserialize

end MLADecryptionSharedSecret

end Helpers

/-! ## What is sent arrives -/

section Sent

variable {ω σ : Type} [Patience] [Write Error ω] [Read Error σ]

theorem MLADecryptionSharedSecret.transfers (sharedSecret : MLADecryptionSharedSecret) :
    Transfers (serializeSharedSecret : _ → EStateM Error ω ℕ)
      (deserializeSharedSecret : EStateM Error σ MLADecryptionSharedSecret) sharedSecret :=
  Emits.transfers (emits_bytes _) ((decodes_vector sharedSecret.secret).map _)

variable [Kem]

theorem HybridMultiRecipientEncapsulatedKey.transfers (hkem : Kem.Lossless)
    {key : HybridMultiRecipientEncapsulatedKey} (hlen : key.recipients.length < u64Size) :
    Transfers (serialize : _ → EStateM Error ω ℕ)
      (deserialize : EStateM Error σ HybridMultiRecipientEncapsulatedKey) key :=
  Emits.transfers key.emits (decodes hkem hlen)

theorem MLADecryptionMetadata.transfers (hkem : Kem.Lossless) {metadata : MLADecryptionMetadata}
    (hlen : metadata.encapsulatedKey.recipients.length < u64Size) :
    Transfers (serializeMetadata : _ → EStateM Error ω ℕ)
      (deserializeMetadata : EStateM Error σ MLADecryptionMetadata) metadata :=
  Emits.transfers metadata.encapsulatedKey.emits
    ((HybridMultiRecipientEncapsulatedKey.decodes hkem hlen).map _)

theorem EncryptionPersistentConfig.transfers (hkem : Kem.Lossless)
    {config : EncryptionPersistentConfig}
    (hlen : config.hybridMultiRecipientEncapsulateKey.recipients.length < u64Size) :
    Transfers (serialize : _ → EStateM Error ω ℕ)
      (deserialize : EStateM Error σ EncryptionPersistentConfig) config :=
  Emits.transfers config.emits (decodes hkem hlen)

end Sent

/-! ## Who can load the parameters -/

section Recipients

variable [AesGcm] [Hkdf] [Kem] {encryptionConfig : EncryptionConfig}
  {persistentConfig : EncryptionPersistentConfig} {config : InternalEncryptionConfig}
  {ss : HybridKemSharedSecret}

/-- What the writer keeps is made from one secret. -/
theorem EncryptionConfig.toPersistent_secret
    (hconfig : encryptionConfig.toPersistent = .ok (persistentConfig, config)) :
    ∃ ss csprng, encryptionConfig.publicKeys.encapsulate encryptionConfig.rng =
        .ok ((persistentConfig.hybridMultiRecipientEncapsulateKey, ss), csprng) ∧
      layerParameters ss = (config.key, config.nonce) ∧
      persistentConfig.keyCommitment = buildKeyCommitmentChain config.key config.nonce := by
  rw [toPersistent] at hconfig
  split at hconfig
  · cases hconfig
  · rename_i encapsulatedKey ss csprng hencapsulate
    obtain ⟨rfl, rfl⟩ := Prod.mk.inj (Except.ok.inj hconfig)
    exact ⟨ss, csprng, hencapsulate, rfl, rfl⟩

/-- The tag of the commitment validates only under the secret of the archive. -/
def KeyCommitmentAndTag.OnlyUnder (commitment : KeyCommitmentAndTag)
    (ss : HybridKemSharedSecret) (sharedSecret : MLADecryptionSharedSecret) : Prop :=
  commitment.TagMatches (layerParameters sharedSecret.secret).1
    (layerParameters sharedSecret.secret).2 → sharedSecret.secret = ss

/-- The private key is that of a recipient. -/
def EncryptionConfig.HasRecipient (encryptionConfig : EncryptionConfig)
    (key : MLADecryptionPrivateKey) : Prop :=
  ∃ pub ∈ encryptionConfig.publicKeys.keys, key.Matches pub

/-- Whatever is tried, only the parameters of the secret are found. -/
theorem EncryptionReaderConfig.selected_eq {reader : EncryptionReaderConfig}
    (hparameters : layerParameters ss = (config.key, config.nonce))
    (hkept : reader.encryptParameters = none)
    (hkeys : ∀ key ∈ reader.privateKeys, ∀ ss',
      key.decapsulate persistentConfig.hybridMultiRecipientEncapsulateKey = .ok ss' → ss' = ss)
    (hsecrets : ∀ s ∈ reader.sharedSecrets, persistentConfig.keyCommitment.OnlyUnder ss s)
    (hfound : (∃ key ∈ reader.privateKeys,
        key.decapsulate persistentConfig.hybridMultiRecipientEncapsulateKey = .ok ss) ∨
      ∃ s ∈ reader.sharedSecrets, s.secret = ss)
    (hmatch : persistentConfig.keyCommitment.TagMatches config.key config.nonce) :
    selected persistentConfig reader = some (config.key, config.nonce) := by
  rw [selected, hkept]
  cases hsecret : trySharedSecrets persistentConfig.keyCommitment reader.sharedSecrets with
  | some parameters =>
      obtain ⟨before, s, after, hlist, -, hmatch', rfl⟩ := trySharedSecrets_eq_some.mp hsecret
      have hs : s ∈ reader.sharedSecrets := by
        rw [hlist]
        exact List.mem_append_right _ List.mem_cons_self
      rw [hsecrets s hs hmatch', hparameters]
  | none =>
      have hnone := trySharedSecrets_eq_none.mp hsecret
      rcases hfound with ⟨key, hkey, hdec⟩ | ⟨s, hs, rfl⟩
      · cases hprivate : tryPrivateKeys persistentConfig.hybridMultiRecipientEncapsulateKey
            reader.privateKeys with
        | none => exact absurd hdec (tryPrivateKeys_eq_none.mp hprivate key hkey ss)
        | some parameters =>
            obtain ⟨before, key', after, ss', hlist, -, hdec', rfl⟩ :=
              tryPrivateKeys_eq_some.mp hprivate
            have hkey' : key' ∈ reader.privateKeys := by
              rw [hlist]
              exact List.mem_append_right _ List.mem_cons_self
            rw [hkeys key' hkey' ss' hdec', hparameters]
      · refine absurd ?_ (hnone s hs)
        rw [hparameters]
        exact hmatch

end Recipients

/-! ## Two recipients -/

namespace KeyedCipher

def frontTag (key : Key) : Tag := Vector.ofFn fun i : Fin tagLength => key.toList.getD i 0

/-- The keystream is zero, and a tag is the front of the key. -/
scoped instance cipher : AesGcm where
  keystream _ _ _ := 0
  encryptTag key _ _ _ := frontTag key
  decryptTag key _ _ _ := (frontTag key).toList

theorem correct : AesGcm.Correct := fun _ _ _ _ => rfl

theorem decryptTag_eq (key : Key) (nonce : Nonce) (aad ct : Bytes) :
    AesGcm.decryptTag key nonce aad ct = (frontTag key).toList := rfl

theorem decryptArray_snd {n : ℕ} (c : AesGcm256) (buffer : Vector UInt8 n) :
    (c.decryptArray buffer).2 = (frontTag c.key).toList :=
  (c.snd_decryptArray buffer).trans (decryptTag_eq _ _ _ _)

theorem intoTag_encryptArray {n : ℕ} (c : AesGcm256) (buffer : Vector UInt8 n) :
    (c.encryptArray buffer).2.intoTag = frontTag c.key := rfl

scoped instance patience : Patience where
  retries := 0

end KeyedCipher

namespace LabelKem

theorem correct : Kem.Correct where
  dhkem h := by
    obtain ⟨h, -⟩ := Prod.mk.inj h
    obtain ⟨rfl, -⟩ := Prod.mk.inj (Option.some.inj h)
    rfl
  mlkem h := by
    obtain ⟨h, -⟩ := Prod.mk.inj h
    obtain ⟨-, rfl⟩ := Prod.mk.inj (Option.some.inj h)
    rfl
  dhkemTotal _ _ := ⟨_, rfl⟩
  mlkemTotal _ _ := ⟨_, rfl⟩

theorem matches_publicKey (label : UInt8) : (privateKey label).Matches (publicKey label) := rfl

theorem lossless : Kem.Lossless where
  fromBytes ct := by
    have hlen : ct.toList.length = dhkemCiphertextSize := Vector.length_toList
    change (if h : ct.toList.length = dhkemCiphertextSize then some (arrayOf ct.toList h)
      else none) = some ct
    rw [dif_pos hlen]
    exact congrArg some (toList_injective (toList_arrayOf _ _))

end LabelKem

section Example

open KeyedCipher LabelKem

def twoRecipients : EncryptionConfig :=
  ⟨⟨[LabelKem.publicKey 1, LabelKem.publicKey 2]⟩, LabelKem.rng⟩

/-- The key that entries for a label are wrapped with. -/
def labelKey (label : UInt8) : Key :=
  (keyScheduleBaseHybridKemRecipient (combine [label] [label] [] []).toList hpkeInfoRecipient).1

theorem key_recipientCipher (label : UInt8) (ctEcc : Kem.DhkemCiphertext) (ctMl : MlkemCiphertext) :
    (recipientCipher [label] [label] ctEcc ctMl).key = labelKey label := rfl

theorem frontTag_of_validates {ss : HybridKemSharedSecret} {label label' : UInt8}
    {entry : HybridRecipientEncapsulatedKey} (hwraps : WrapsFor ss (LabelKem.publicKey label) entry)
    (h : (LabelKem.privateKey label').Validates entry) :
    frontTag (labelKey label') = frontTag (labelKey label) := by
  obtain ⟨ssEcc, ssMl, csprng, csprng₁, csprng₂, hecc, hml, -, htag⟩ := hwraps.exists
  obtain ⟨ssEcc', ssMl', hecc', hml', htag'⟩ := h
  obtain rfl : [label'] = ssEcc' := Option.some.inj hecc'
  obtain rfl : [label'] = ssMl' := Option.some.inj hml'
  obtain rfl : [label] = ssEcc := congrArg Prod.fst (Option.some.inj (Prod.mk.inj hecc).1)
  obtain rfl : [label] = ssMl := congrArg Prod.snd (Option.some.inj (Prod.mk.inj hml).1)
  rw [← htag, KeyedCipher.decryptArray_snd, KeyedCipher.intoTag_encryptArray, key_recipientCipher,
    key_recipientCipher] at htag'
  exact toList_injective htag'

/-- A label only fits its own entries, as far as the keys of the labels differ. -/
theorem onlyOwn_labels {ss : HybridKemSharedSecret} {labels : List UInt8} {label' : UInt8}
    {entries : List HybridRecipientEncapsulatedKey}
    (hwraps : List.Forall₂ (WrapsFor ss) (labels.map LabelKem.publicKey) entries)
    (hkeys : ∀ label ∈ labels, label ≠ label' →
      frontTag (labelKey label') ≠ frontTag (labelKey label)) :
    (LabelKem.privateKey label').OnlyOwn (labels.map LabelKem.publicKey) entries := by
  induction labels generalizing entries with
  | nil =>
      cases hwraps
      exact .nil
  | cons label labels ih =>
      cases hwraps with
      | cons hwrap hwraps =>
          refine .cons (fun hother hvalidates => ?_) (ih hwraps fun label hlabel =>
            hkeys label (List.mem_cons_of_mem _ hlabel))
          refine hkeys label List.mem_cons_self (fun hsame => hother ?_)
            (frontTag_of_validates hwrap hvalidates)
          rw [hsame]
          exact LabelKem.matches_publicKey label'

end Example

end Mla
