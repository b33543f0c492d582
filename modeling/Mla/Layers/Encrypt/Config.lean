import Mla.Crypto.Hybrid
import Mla.Layers.Encrypt.Stream

/-!
# Encryption parameters of an archive

What the header of an encrypted archive holds, how the writer makes it and how a reader
finds the key with it. Next to the wrapped secret the header holds a commitment to the
key, a fixed text encrypted under it: a key is taken when the tag stored with the
commitment is the one that decrypting computes.

That check does not look at what the commitment decrypts to. It does what it is for
exactly when the stored commitment is the right one, or carries a wrong tag
(`loadPersistent_opens_iff`).
-/

namespace Mla

open Io

/-- `info` for the key of the layer. -/
def hpkeInfoLayer : Bytes :=
  ascii ['M', 'L', 'A', ' ', 'E', 'n', 'c', 'r', 'y', 'p', 't', ' ', 'L', 'a', 'y', 'e', 'r']

structure KeyCommitmentAndTag where
  keyCommitment : Vector UInt8 keyCommitmentSize
  tag : Tag

theorem length_keyCommitmentChain : keyCommitmentChain.length = keyCommitmentSize := rfl

/-- The text that is encrypted, as an array. -/
def keyCommitmentChainArray : Vector UInt8 keyCommitmentSize :=
  arrayOf keyCommitmentChain length_keyCommitmentChain

section Commitment

variable [AesGcm]

/-- The cipher of number 0. -/
def keyCommitmentCipher (key : Key) (nonce : Nonce) : AesGcm256 :=
  AesGcm256.new key (computeNonce nonce 0) associatedData

def buildKeyCommitmentChain (key : Key) (nonce : Nonce) : KeyCommitmentAndTag :=
  let (keyCommitment, cipher) :=
    (keyCommitmentCipher key nonce).encryptArray keyCommitmentChainArray
  ⟨keyCommitment, cipher.intoTag⟩

def checkKeyCommitment (key : Key) (nonce : Nonce) (commitment : KeyCommitmentAndTag) :
    Except ConfigError Unit :=
  let (_, tag) := (keyCommitmentCipher key nonce).decryptArray commitment.keyCommitment
  if tag = commitment.tag.toList then .ok () else .error .keyCommitmentCheckingError

/-- The commitment decrypts to the text, with the tag stored next to it. -/
def KeyCommitmentAndTag.Opens (commitment : KeyCommitmentAndTag) (key : Key) (nonce : Nonce) :
    Prop :=
  (keyCommitmentCipher key nonce).decryptArray commitment.keyCommitment =
    (keyCommitmentChainArray, commitment.tag.toList)

/-- The tag stored is the one that decrypting computes. -/
def KeyCommitmentAndTag.TagMatches (commitment : KeyCommitmentAndTag) (key : Key)
    (nonce : Nonce) : Prop :=
  ((keyCommitmentCipher key nonce).decryptArray commitment.keyCommitment).2 =
    commitment.tag.toList

instance (commitment : KeyCommitmentAndTag) (key : Key) (nonce : Nonce) :
    Decidable (commitment.TagMatches key nonce) := by
  unfold KeyCommitmentAndTag.TagMatches
  infer_instance

theorem checkKeyCommitment_eq (key : Key) (nonce : Nonce) (commitment : KeyCommitmentAndTag) :
    checkKeyCommitment key nonce commitment =
      if commitment.TagMatches key nonce then .ok () else .error .keyCommitmentCheckingError :=
  (rfl)

theorem checkKeyCommitment_eq_ok {key : Key} {nonce : Nonce} {commitment : KeyCommitmentAndTag} :
    checkKeyCommitment key nonce commitment = .ok () ↔ commitment.TagMatches key nonce := by
  rw [checkKeyCommitment_eq]
  by_cases h : commitment.TagMatches key nonce
  · rw [if_pos h]
    exact ⟨fun _ => h, fun _ => rfl⟩
  · rw [if_neg h]
    exact ⟨fun hok => (by cases hok), fun hmatch => absurd hmatch h⟩

/-- The commitment made under a key opens under it. -/
theorem opens_buildKeyCommitmentChain (hcorrect : AesGcm.Correct) (key : Key) (nonce : Nonce) :
    (buildKeyCommitmentChain key nonce).Opens key nonce :=
  AesGcm256.decryptArray_encryptArray hcorrect _ _ _ _

/-- A commitment opens when its tag matches and its ciphertext is the one made under the
key. -/
theorem KeyCommitmentAndTag.opens_iff {commitment : KeyCommitmentAndTag} {key : Key}
    {nonce : Nonce} :
    commitment.Opens key nonce ↔
      commitment.TagMatches key nonce ∧
        commitment.keyCommitment = (buildKeyCommitmentChain key nonce).keyCommitment := by
  constructor
  · intro h
    have hct := AesGcm256.encryptArray_decryptArray key (computeNonce nonce 0) associatedData
      commitment.keyCommitment
    refine ⟨congrArg Prod.snd h, ?_⟩
    rw [← hct]
    exact congrArg (fun buffer => ((keyCommitmentCipher key nonce).encryptArray buffer).1)
      (congrArg Prod.fst h)
  · rintro ⟨htag, hct⟩
    refine Prod.ext ?_ htag
    rw [hct]
    apply toList_injective
    simp [keyCommitmentCipher, buildKeyCommitmentChain, AesGcm256.decryptArray,
      AesGcm256.encryptArray, AesGcm256.decrypt, AesGcm256.encrypt, AesGcm256.new,
      applyKeystream_applyKeystream]

/-- With a cipher whose tags agree, opening is being the commitment made under the key. -/
theorem KeyCommitmentAndTag.opens_iff_eq (hcorrect : AesGcm.Correct)
    {commitment : KeyCommitmentAndTag} {key : Key} {nonce : Nonce} :
    commitment.Opens key nonce ↔ commitment = buildKeyCommitmentChain key nonce := by
  constructor
  · intro h
    obtain ⟨htag, hct⟩ := opens_iff.mp h
    have hbuilt := congrArg Prod.snd (opens_buildKeyCommitmentChain hcorrect key nonce)
    rw [TagMatches, hct] at htag
    obtain ⟨keyCommitment, tag⟩ := commitment
    obtain rfl : tag = (buildKeyCommitmentChain key nonce).tag :=
      toList_injective (htag.symm.trans hbuilt)
    obtain rfl : keyCommitment = (buildKeyCommitmentChain key nonce).keyCommitment := hct
    rfl
  · rintro rfl
    exact opens_buildKeyCommitmentChain hcorrect key nonce

end Commitment

/-! ## The configurations -/

structure EncryptionPersistentConfig [Kem] where
  hybridMultiRecipientEncapsulateKey : HybridMultiRecipientEncapsulatedKey
  keyCommitment : KeyCommitmentAndTag

/-- What the writer is configured with; `rng` is the generator that it asks for. -/
structure EncryptionConfig [Kem] where
  publicKeys : HybridMultiRecipientsPublicKeys
  rng : Kem.Rng

structure MLADecryptionSharedSecret where
  secret : HybridKemSharedSecret

structure EncryptionReaderConfig [Kem] where
  privateKeys : List MLADecryptionPrivateKey
  encryptParameters : Option (Key × Nonce)
  sharedSecrets : List MLADecryptionSharedSecret

/-! ## Serialization -/

namespace KeyCommitmentAndTag

def encode (commitment : KeyCommitmentAndTag) : Bytes :=
  commitment.keyCommitment.toList ++ commitment.tag.toList

def serialize {ω : Type} [Patience] [Write Error ω] (commitment : KeyCommitmentAndTag) :
    EStateM Error ω ℕ :=
  addLength (serializeSlice serializeU8 commitment.keyCommitment.toList)
    (serializeSlice serializeU8 commitment.tag.toList)

def deserialize {σ : Type} [Patience] [Read Error σ] : EStateM Error σ KeyCommitmentAndTag := do
  let keyCommitment ← deserializeVector keyCommitmentSize
  let tag ← deserializeVector tagLength
  pure ⟨keyCommitment, tag⟩

theorem emits {ω : Type} [Patience] [Write Error ω] (commitment : KeyCommitmentAndTag) :
    Emits (commitment.serialize : EStateM Error ω ℕ) commitment.encode commitment.encode.length :=
  (emits_bytes _).addLength (emits_bytes _)

theorem decodes {σ : Type} [Patience] [Read Error σ] (commitment : KeyCommitmentAndTag) :
    Decodes (deserialize : EStateM Error σ KeyCommitmentAndTag) commitment.encode commitment :=
  (decodes_vector _).bind (decodes_vector _).bindPure

end KeyCommitmentAndTag

namespace EncryptionPersistentConfig

variable [Kem]

def encode (config : EncryptionPersistentConfig) : Bytes :=
  config.hybridMultiRecipientEncapsulateKey.encode ++ config.keyCommitment.encode

theorem length_encode (config : EncryptionPersistentConfig) :
    config.encode.length =
      88 + 1648 * config.hybridMultiRecipientEncapsulateKey.recipients.length := by
  have hcommitment : config.keyCommitment.keyCommitment.toList.length = 64 := Vector.length_toList
  have htag : config.keyCommitment.tag.toList.length = 16 := Vector.length_toList
  rw [encode, KeyCommitmentAndTag.encode, List.length_append, List.length_append, hcommitment, htag,
    HybridMultiRecipientEncapsulatedKey.length_encode]
  omega

def serialize {ω : Type} [Patience] [Write Error ω] (config : EncryptionPersistentConfig) :
    EStateM Error ω ℕ :=
  addLength config.hybridMultiRecipientEncapsulateKey.serialize config.keyCommitment.serialize

def deserialize {σ : Type} [Patience] [Read Error σ] :
    EStateM Error σ EncryptionPersistentConfig := do
  let encapsulatedKey ← HybridMultiRecipientEncapsulatedKey.deserialize
  let keyCommitment ← KeyCommitmentAndTag.deserialize
  pure ⟨encapsulatedKey, keyCommitment⟩

theorem emits {ω : Type} [Patience] [Write Error ω] (config : EncryptionPersistentConfig) :
    Emits (config.serialize : EStateM Error ω ℕ) config.encode config.encode.length :=
  config.hybridMultiRecipientEncapsulateKey.emits.addLength config.keyCommitment.emits

theorem decodes {σ : Type} [Patience] [Read Error σ] (hkem : Kem.Lossless)
    {config : EncryptionPersistentConfig}
    (hlen : config.hybridMultiRecipientEncapsulateKey.recipients.length < u64Size) :
    Decodes (deserialize : EStateM Error σ EncryptionPersistentConfig) config.encode config :=
  (HybridMultiRecipientEncapsulatedKey.decodes hkem hlen).bind config.keyCommitment.decodes.bindPure

end EncryptionPersistentConfig

section Config

variable [AesGcm] [Hkdf] [Kem]

/-- The key and the nonce that a shared secret stands for. -/
def layerParameters (sharedSecret : HybridKemSharedSecret) : Key × Nonce :=
  keyScheduleBaseHybridKem sharedSecret.toList hpkeInfoLayer

omit [AesGcm] [Kem] in
/-- `InternalEncryptionConfig::from`. -/
def InternalEncryptionConfig.ofSharedSecret (sharedSecret : HybridKemSharedSecret) :
    InternalEncryptionConfig :=
  let (key, nonce) := layerParameters sharedSecret
  ⟨key, nonce⟩

def EncryptionConfig.toPersistent (config : EncryptionConfig) :
    Except Error (EncryptionPersistentConfig × InternalEncryptionConfig) :=
  match config.publicKeys.encapsulate config.rng with
  | .error e => .error (.ofConfig e)
  | .ok ((encapsulatedKey, ssHybrid), _) =>
      let cryptographicMaterial := InternalEncryptionConfig.ofSharedSecret ssHybrid
      let keyCommitment :=
        buildKeyCommitmentChain cryptographicMaterial.key cryptographicMaterial.nonce
      .ok (⟨encapsulatedKey, keyCommitment⟩, cryptographicMaterial)

namespace EncryptionReaderConfig

/-- The first shared secret that the commitment is for. -/
def trySharedSecrets (commitment : KeyCommitmentAndTag) :
    List MLADecryptionSharedSecret → Option (Key × Nonce)
  | [] => none
  | sharedSecret :: sharedSecrets =>
      let (key, nonce) := layerParameters sharedSecret.secret
      match checkKeyCommitment key nonce commitment with
      | .ok _ => some (key, nonce)
      | .error _ => trySharedSecrets commitment sharedSecrets

/-- The first private key that decapsulates a secret. -/
def tryPrivateKeys (encapsulatedKey : HybridMultiRecipientEncapsulatedKey) :
    List MLADecryptionPrivateKey → Option (Key × Nonce)
  | [] => none
  | privateKey :: privateKeys =>
      match privateKey.decapsulate encapsulatedKey with
      | .ok ssHybrid => some (layerParameters ssHybrid)
      | .error _ => tryPrivateKeys encapsulatedKey privateKeys

/-- First try all given shared secrets. -/
def loadSharedSecret (config : EncryptionPersistentConfig) (self : EncryptionReaderConfig) :
    EncryptionReaderConfig :=
  match trySharedSecrets config.keyCommitment self.sharedSecrets with
  | some parameters => { self with encryptParameters := some parameters }
  | none => self

/-- If no shared secret is valid, try each private key. -/
def loadPrivateKey (config : EncryptionPersistentConfig) (self : EncryptionReaderConfig) :
    EncryptionReaderConfig :=
  match self.encryptParameters with
  | some _ => self
  | none =>
      match tryPrivateKeys config.hybridMultiRecipientEncapsulateKey self.privateKeys with
      | some parameters => { self with encryptParameters := some parameters }
      | none => self

def loadPersistent (config : EncryptionPersistentConfig) :
    EStateM ConfigError EncryptionReaderConfig Unit := fun self =>
  if self.privateKeys.isEmpty && self.sharedSecrets.isEmpty then .error .privateKeyNotSet self
  else
    let self := loadPrivateKey config (loadSharedSecret config self)
    match self.encryptParameters with
    | none => .error .privateKeyNotFound self
    | some (key, nonce) =>
        match checkKeyCommitment key nonce config.keyCommitment with
        | .ok _ => .ok () self
        | .error e => .error e self

/-! ## Which key is loaded -/

variable {config : EncryptionPersistentConfig} {reader reader' : EncryptionReaderConfig}
  {commitment : KeyCommitmentAndTag} {parameters : Key × Nonce}

omit [Kem] in
theorem trySharedSecrets_cons (s : MLADecryptionSharedSecret)
    (secrets : List MLADecryptionSharedSecret) :
    trySharedSecrets commitment (s :: secrets) =
      if commitment.TagMatches (layerParameters s.secret).1 (layerParameters s.secret).2 then
        some (layerParameters s.secret)
      else trySharedSecrets commitment secrets := by
  rw [trySharedSecrets]
  simp only [checkKeyCommitment_eq]
  by_cases h : commitment.TagMatches (layerParameters s.secret).1 (layerParameters s.secret).2
  · rw [if_pos h, if_pos h]
  · rw [if_neg h, if_neg h]

omit [Kem] in
theorem trySharedSecrets_eq_none {secrets : List MLADecryptionSharedSecret} :
    trySharedSecrets commitment secrets = none ↔
      ∀ s ∈ secrets, ¬ commitment.TagMatches (layerParameters s.secret).1
        (layerParameters s.secret).2 := by
  induction secrets with
  | nil => simp [trySharedSecrets]
  | cons s secrets ih =>
      rw [trySharedSecrets_cons, List.forall_mem_cons]
      by_cases h : commitment.TagMatches (layerParameters s.secret).1 (layerParameters s.secret).2
      · simp [h]
      · simp [h, ih]

omit [Kem] in
theorem trySharedSecrets_eq_some {secrets : List MLADecryptionSharedSecret} :
    trySharedSecrets commitment secrets = some parameters ↔
      ∃ before s after, secrets = before ++ s :: after ∧
        trySharedSecrets commitment before = none ∧
        commitment.TagMatches parameters.1 parameters.2 ∧
        parameters = layerParameters s.secret := by
  induction secrets with
  | nil => simp [trySharedSecrets]
  | cons s secrets ih =>
      rw [trySharedSecrets_cons]
      by_cases h : commitment.TagMatches (layerParameters s.secret).1 (layerParameters s.secret).2
      · simp only [h, if_true]
        constructor
        · intro hsome
          obtain rfl := Option.some.inj hsome
          exact ⟨[], s, secrets, rfl, rfl, h, rfl⟩
        · rintro ⟨before, s', after, hlist, hnone, -, rfl⟩
          cases before with
          | nil =>
              obtain ⟨rfl, rfl⟩ := List.cons.inj hlist
              rfl
          | cons t before =>
              obtain ⟨rfl, rfl⟩ := List.cons.inj hlist
              exact absurd h (trySharedSecrets_eq_none.mp hnone s List.mem_cons_self)
      · simp only [h, if_false, ih]
        constructor
        · rintro ⟨before, s', after, rfl, hnone, hmatch, rfl⟩
          refine ⟨s :: before, s', after, rfl, ?_, hmatch, rfl⟩
          rw [trySharedSecrets_eq_none, List.forall_mem_cons]
          exact ⟨h, trySharedSecrets_eq_none.mp hnone⟩
        · rintro ⟨before, s', after, hlist, hnone, hmatch, rfl⟩
          cases before with
          | nil =>
              obtain ⟨rfl, rfl⟩ := List.cons.inj hlist
              exact absurd hmatch h
          | cons t before =>
              obtain ⟨rfl, rfl⟩ := List.cons.inj hlist
              rw [trySharedSecrets_eq_none, List.forall_mem_cons] at hnone
              exact ⟨before, s', after, rfl, trySharedSecrets_eq_none.mpr hnone.2, hmatch, rfl⟩

theorem tryPrivateKeys_eq_none {key : HybridMultiRecipientEncapsulatedKey}
    {privateKeys : List MLADecryptionPrivateKey} :
    tryPrivateKeys key privateKeys = none ↔
      ∀ k ∈ privateKeys, ∀ ss, k.decapsulate key ≠ .ok ss := by
  induction privateKeys with
  | nil => simp [tryPrivateKeys]
  | cons k privateKeys ih =>
      rw [tryPrivateKeys, List.forall_mem_cons]
      cases h : k.decapsulate key with
      | ok ss => simp
      | error e => simp [ih]

theorem tryPrivateKeys_eq_some {key : HybridMultiRecipientEncapsulatedKey}
    {privateKeys : List MLADecryptionPrivateKey} :
    tryPrivateKeys key privateKeys = some parameters ↔
      ∃ before k after ss, privateKeys = before ++ k :: after ∧
        tryPrivateKeys key before = none ∧ k.decapsulate key = .ok ss ∧
        parameters = layerParameters ss := by
  induction privateKeys with
  | nil => simp [tryPrivateKeys]
  | cons k privateKeys ih =>
      rw [tryPrivateKeys]
      cases h : k.decapsulate key with
      | ok ss =>
          constructor
          · intro hsome
            obtain rfl := Option.some.inj hsome
            exact ⟨[], k, privateKeys, ss, rfl, rfl, h, rfl⟩
          · rintro ⟨before, k', after, ss', hlist, hnone, hdec, rfl⟩
            cases before with
            | nil =>
                obtain ⟨rfl, rfl⟩ := List.cons.inj hlist
                rw [h] at hdec
                rw [Except.ok.inj hdec]
            | cons t before =>
                obtain ⟨rfl, rfl⟩ := List.cons.inj hlist
                exact absurd h (tryPrivateKeys_eq_none.mp hnone k List.mem_cons_self ss)
      | error e =>
          simp only [ih]
          constructor
          · rintro ⟨before, k', after, ss, rfl, hnone, hdec, rfl⟩
            refine ⟨k :: before, k', after, ss, rfl, ?_, hdec, rfl⟩
            rw [tryPrivateKeys_eq_none, List.forall_mem_cons]
            exact ⟨fun ss' hok => (by rw [h] at hok; cases hok), tryPrivateKeys_eq_none.mp hnone⟩
          · rintro ⟨before, k', after, ss, hlist, hnone, hdec, rfl⟩
            cases before with
            | nil =>
                obtain ⟨rfl, rfl⟩ := List.cons.inj hlist
                rw [h] at hdec
                cases hdec
            | cons t before =>
                obtain ⟨rfl, rfl⟩ := List.cons.inj hlist
                rw [tryPrivateKeys_eq_none, List.forall_mem_cons] at hnone
                exact ⟨before, k', after, ss, rfl, tryPrivateKeys_eq_none.mpr hnone.2, hdec, rfl⟩

/-- The parameters that are taken, before the last check. -/
def selected (config : EncryptionPersistentConfig) (reader : EncryptionReaderConfig) :
    Option (Key × Nonce) :=
  match trySharedSecrets config.keyCommitment reader.sharedSecrets with
  | some parameters => some parameters
  | none =>
      match reader.encryptParameters with
      | some parameters => some parameters
      | none => tryPrivateKeys config.hybridMultiRecipientEncapsulateKey reader.privateKeys

theorem loadPrivateKey_loadSharedSecret :
    loadPrivateKey config (loadSharedSecret config reader) =
      { reader with encryptParameters := selected config reader } := by
  rw [loadSharedSecret, selected]
  cases trySharedSecrets config.keyCommitment reader.sharedSecrets with
  | some parameters => rfl
  | none =>
      rw [loadPrivateKey]
      cases hkept : reader.encryptParameters with
      | some parameters => simp only [← hkept]
      | none =>
          cases htry : tryPrivateKeys config.hybridMultiRecipientEncapsulateKey
              reader.privateKeys with
          | some parameters => rfl
          | none => simp only [← hkept]

/-- Loading succeeds when parameters are found and the tag matches under them. -/
theorem loadPersistent_eq_ok :
    loadPersistent config reader = .ok () reader' ↔
      (reader.privateKeys ≠ [] ∨ reader.sharedSecrets ≠ []) ∧
        ∃ parameters, selected config reader = some parameters ∧
          config.keyCommitment.TagMatches parameters.1 parameters.2 ∧
          reader' = { reader with encryptParameters := some parameters } := by
  have hkeys : (reader.privateKeys.isEmpty && reader.sharedSecrets.isEmpty) = true ↔
      ¬ (reader.privateKeys ≠ [] ∨ reader.sharedSecrets ≠ []) := by simp
  rw [loadPersistent, loadPrivateKey_loadSharedSecret]
  by_cases hset : reader.privateKeys ≠ [] ∨ reader.sharedSecrets ≠ []
  · rw [if_neg (by rw [hkeys]; exact not_not.mpr hset)]
    cases hselected : selected config reader with
    | none => simp
    | some parameters =>
        by_cases hmatch : config.keyCommitment.TagMatches parameters.1 parameters.2
        · simp [checkKeyCommitment_eq, hmatch, hset, eq_comm]
        · simp [checkKeyCommitment_eq, hmatch]
  · rw [if_pos (hkeys.mpr hset)]
    simp [hset]

/-! ## What a loaded key commits to -/

/-- The parameters that a reader tries last: those of the first shared secret that the tag
of the commitment is right for; otherwise those that it has, and otherwise those of the
first private key that decapsulates a secret. -/
inductive Candidate (config : EncryptionPersistentConfig) (reader : EncryptionReaderConfig) :
    Key × Nonce → Prop
  | secret {before after : List MLADecryptionSharedSecret} {s : MLADecryptionSharedSecret} :
      reader.sharedSecrets = before ++ s :: after →
      (∀ t ∈ before, ¬ config.keyCommitment.TagMatches (layerParameters t.secret).1
        (layerParameters t.secret).2) →
      config.keyCommitment.TagMatches (layerParameters s.secret).1 (layerParameters s.secret).2 →
      Candidate config reader (layerParameters s.secret)
  | kept {parameters : Key × Nonce} : (reader.privateKeys ≠ [] ∨ reader.sharedSecrets ≠ []) →
      (∀ t ∈ reader.sharedSecrets, ¬ config.keyCommitment.TagMatches
        (layerParameters t.secret).1 (layerParameters t.secret).2) →
      reader.encryptParameters = some parameters → Candidate config reader parameters
  | recipient {before after : List MLADecryptionPrivateKey} {k : MLADecryptionPrivateKey}
      {ss : HybridKemSharedSecret} : reader.privateKeys = before ++ k :: after →
      (∀ t ∈ reader.sharedSecrets, ¬ config.keyCommitment.TagMatches
        (layerParameters t.secret).1 (layerParameters t.secret).2) →
      reader.encryptParameters = none →
      (∀ k' ∈ before, ∀ ss',
        k'.decapsulate config.hybridMultiRecipientEncapsulateKey ≠ .ok ss') →
      k.decapsulate config.hybridMultiRecipientEncapsulateKey = .ok ss →
      Candidate config reader (layerParameters ss)

theorem candidate_iff :
    Candidate config reader parameters ↔
      (reader.privateKeys ≠ [] ∨ reader.sharedSecrets ≠ []) ∧
        selected config reader = some parameters := by
  constructor
  · intro h
    cases h with
    | secret hlist hbefore hmatch =>
        refine ⟨Or.inr (by rw [hlist]; simp), ?_⟩
        rw [selected, trySharedSecrets_eq_some.mpr
          ⟨_, _, _, hlist, trySharedSecrets_eq_none.mpr hbefore, hmatch, rfl⟩]
    | kept hkeys hnone hkept =>
        exact ⟨hkeys, by rw [selected, trySharedSecrets_eq_none.mpr hnone, hkept]⟩
    | recipient hlist hnone hkept hbefore hdec =>
        refine ⟨Or.inl (by rw [hlist]; simp), ?_⟩
        rw [selected, trySharedSecrets_eq_none.mpr hnone, hkept]
        exact tryPrivateKeys_eq_some.mpr
          ⟨_, _, _, _, hlist, tryPrivateKeys_eq_none.mpr hbefore, hdec, rfl⟩
  · rintro ⟨hkeys, hselected⟩
    rw [selected] at hselected
    cases hsecret : trySharedSecrets config.keyCommitment reader.sharedSecrets with
    | some p =>
        rw [hsecret] at hselected
        obtain rfl := Option.some.inj hselected
        obtain ⟨before, s, after, hlist, hbefore, hmatch, rfl⟩ :=
          trySharedSecrets_eq_some.mp hsecret
        exact .secret hlist (trySharedSecrets_eq_none.mp hbefore) hmatch
    | none =>
        rw [hsecret] at hselected
        have hnone := trySharedSecrets_eq_none.mp hsecret
        cases hkept : reader.encryptParameters with
        | some p =>
            rw [hkept] at hselected
            obtain rfl := Option.some.inj hselected
            exact .kept hkeys hnone hkept
        | none =>
            rw [hkept] at hselected
            obtain ⟨before, k, after, ss, hlist, hbefore, hdec, rfl⟩ :=
              tryPrivateKeys_eq_some.mp hselected
            exact .recipient hlist hnone hkept (tryPrivateKeys_eq_none.mp hbefore) hdec

/-- The commitment stored is not that of the text, although its tag is right for it. -/
def Forged (commitment : KeyCommitmentAndTag) (key : Key) (nonce : Nonce) : Prop :=
  commitment.keyCommitment ≠ (buildKeyCommitmentChain key nonce).keyCommitment ∧
    commitment.TagMatches key nonce

omit [Hkdf] [Kem] in
theorem opens_iff_of_tagMatches {key : Key} {nonce : Nonce}
    (h : commitment.TagMatches key nonce) :
    commitment.Opens key nonce ↔ ¬ Forged commitment key nonce := by
  rw [KeyCommitmentAndTag.opens_iff, Forged]
  exact ⟨fun hopens hforged => hforged.1 hopens.2, fun hforged =>
    ⟨h, not_not.mp fun hne => hforged ⟨hne, h⟩⟩⟩

/-- The check accepts exactly the commitment made under the key. -/
def CheckIsExact (key : Key) (nonce : Nonce) (commitment : KeyCommitmentAndTag) : Prop :=
  checkKeyCommitment key nonce commitment = .ok () ↔
    commitment = buildKeyCommitmentChain key nonce

/-- Parameters that are loaded open the commitment. -/
def LoadsCommitted (config : EncryptionPersistentConfig) (reader : EncryptionReaderConfig) :
    Prop :=
  ∀ reader' key nonce, loadPersistent config reader = .ok () reader' →
    reader'.encryptParameters = some (key, nonce) → config.keyCommitment.Opens key nonce

/-- The check is exact for the commitments that are not forged for the key, and what is
loaded opens the commitment unless this is forged for the parameters tried last. -/
theorem loadPersistent_opens_iff (hcorrect : AesGcm.Correct)
    (config : EncryptionPersistentConfig) (reader : EncryptionReaderConfig) :
    (∀ key nonce commitment,
      CheckIsExact key nonce commitment ↔ ¬ Forged commitment key nonce) ∧
    (LoadsCommitted config reader ↔
      ∀ key nonce, Candidate config reader (key, nonce) →
        ¬ Forged config.keyCommitment key nonce) := by
  constructor
  · intro key nonce commitment
    rw [CheckIsExact, checkKeyCommitment_eq_ok, ← KeyCommitmentAndTag.opens_iff_eq hcorrect]
    by_cases hmatch : commitment.TagMatches key nonce
    · rw [← opens_iff_of_tagMatches hmatch]
      exact ⟨fun h => h.mp hmatch, fun h => ⟨fun _ => h, fun _ => hmatch⟩⟩
    · have hopens : ¬ commitment.Opens key nonce := fun h =>
        hmatch (KeyCommitmentAndTag.opens_iff.mp h).1
      exact ⟨fun _ hforged => hmatch hforged.2, fun _ => iff_of_false hmatch hopens⟩
  · constructor
    · intro h key nonce hcandidate hforged
      obtain ⟨hkeys, hselected⟩ := candidate_iff.mp hcandidate
      have hopens := h _ key nonce
        (loadPersistent_eq_ok.mpr ⟨hkeys, (key, nonce), hselected, hforged.2, rfl⟩) rfl
      exact (opens_iff_of_tagMatches hforged.2).mp hopens hforged
    · intro h reader' key nonce hload hparameters
      obtain ⟨hkeys, parameters, hselected, hmatch, rfl⟩ := loadPersistent_eq_ok.mp hload
      obtain rfl := Option.some.inj hparameters
      exact (opens_iff_of_tagMatches hmatch).mpr
        (h key nonce (candidate_iff.mpr ⟨hkeys, hselected⟩))

end EncryptionReaderConfig

end Config

/-! ## A forged commitment -/

section Forgery

open CountingCipher LabelKem

/-- 64 bytes of zeros, with the tag that they have. -/
def zeroCommitment : KeyCommitmentAndTag :=
  ⟨Vector.replicate keyCommitmentSize 0, Vector.replicate tagLength 64⟩

def zeroSharedSecret : MLADecryptionSharedSecret :=
  ⟨Vector.replicate hybridKemSharedSecretSize 0⟩

def forgedConfig : EncryptionPersistentConfig := ⟨⟨[]⟩, zeroCommitment⟩

def sharedSecretReader : EncryptionReaderConfig := ⟨[], none, [zeroSharedSecret]⟩

/-- With a keystream of zeros the commitment is the text itself. -/
theorem keyCommitment_buildKeyCommitmentChain (key : Key) (nonce : Nonce) :
    (buildKeyCommitmentChain key nonce).keyCommitment = keyCommitmentChainArray := by
  apply toList_injective
  simp [buildKeyCommitmentChain, AesGcm256.encryptArray, AesGcm256.encrypt, applyKeystream_eq]

/-- The key is loaded although the commitment holds no text at all. -/
theorem forgedConfig_loaded :
    ∃ reader' key nonce,
      EncryptionReaderConfig.loadPersistent forgedConfig sharedSecretReader = .ok () reader' ∧
        reader'.encryptParameters = some (key, nonce) ∧
        checkKeyCommitment key nonce forgedConfig.keyCommitment = .ok () ∧
        forgedConfig.keyCommitment ≠ buildKeyCommitmentChain key nonce ∧
        ¬ forgedConfig.keyCommitment.Opens key nonce := by
  have htag : ∀ key nonce, forgedConfig.keyCommitment.TagMatches key nonce := by
    intro key nonce
    simp [KeyCommitmentAndTag.TagMatches, forgedConfig, zeroCommitment, keyCommitmentCipher,
      AesGcm256.decryptArray, AesGcm256.decrypt, AesGcm.decryptTag, tagLength, keyCommitmentSize,
      keySize]
  have hct : ∀ key nonce, forgedConfig.keyCommitment.keyCommitment ≠
      (buildKeyCommitmentChain key nonce).keyCommitment := by
    intro key nonce h
    rw [keyCommitment_buildKeyCommitmentChain] at h
    exact absurd (congrArg (fun v : Vector UInt8 keyCommitmentSize => v.toList.head?) h)
      (by decide)
  let parameters := layerParameters zeroSharedSecret.secret
  have hselected : EncryptionReaderConfig.selected forgedConfig sharedSecretReader =
      some parameters := by
    rw [EncryptionReaderConfig.selected, sharedSecretReader,
      EncryptionReaderConfig.trySharedSecrets_cons, if_pos (htag _ _)]
  refine ⟨_, parameters.1, parameters.2, EncryptionReaderConfig.loadPersistent_eq_ok.mpr
    ⟨Or.inr (List.cons_ne_nil _ _), parameters, hselected, htag _ _, rfl⟩, rfl,
    checkKeyCommitment_eq_ok.mpr (htag _ _), ?_, ?_⟩
  · intro h
    exact hct _ _ (congrArg KeyCommitmentAndTag.keyCommitment h)
  · intro h
    exact hct _ _ (KeyCommitmentAndTag.opens_iff.mp h).2

def committedConfig : EncryptionPersistentConfig :=
  ⟨⟨[]⟩, buildKeyCommitmentChain CountingCipher.key CountingCipher.nonce⟩

/-- The commitment to the text is not forged, whatever the key. -/
theorem loadPersistent_opens_iff_committed :
    EncryptionReaderConfig.LoadsCommitted committedConfig sharedSecretReader := by
  have h := EncryptionReaderConfig.loadPersistent_opens_iff CountingCipher.correct
    committedConfig sharedSecretReader
  refine h.2.mpr fun key nonce _ hforged => hforged.1 ?_
  rw [committedConfig, keyCommitment_buildKeyCommitmentChain, keyCommitment_buildKeyCommitmentChain]

end Forgery

end Mla
