import Mla.Layers.Compress.Presented
import Mla.Reader.Verified
import Mla.Writer.Layers

/-!
# Opening the layers of a writer

A reader that has the keys opens, one after the other, the layers that a writer has made. What it
then shows are the entries: all of them can be read, and it may be moved anywhere in them.
-/

namespace Mla

open Io

/-! ## Keys -/

section Unlocks

variable [AesGcm] [Hkdf] [Kem]

/-- The reader has the key of a recipient, or the secret of the archive, and nothing that it has
opens the archive to something else. -/
def EncryptionReaderConfig.Unlocks (reader : EncryptionReaderConfig)
    (encryptionConfig : EncryptionConfig) : Prop :=
  reader.encryptParameters = none ∧
    ∀ {persistentConfig config ss csprng},
      encryptionConfig.toPersistent = .ok (persistentConfig, config) →
      encryptionConfig.publicKeys.encapsulate encryptionConfig.rng =
        .ok ((persistentConfig.hybridMultiRecipientEncapsulateKey, ss), csprng) →
      (∀ key ∈ reader.privateKeys, key.OnlyOwn encryptionConfig.publicKeys.keys
        persistentConfig.hybridMultiRecipientEncapsulateKey.recipients) ∧
      (∀ s ∈ reader.sharedSecrets, persistentConfig.keyCommitment.OnlyUnder ss s) ∧
      ((∃ key ∈ reader.privateKeys, encryptionConfig.HasRecipient key) ∨
        ∃ s ∈ reader.sharedSecrets, s.secret = ss)

theorem EncryptionReaderConfig.Unlocks.load_eq {reader : EncryptionReaderConfig}
    {encryptionConfig : EncryptionConfig} {persistentConfig : EncryptionPersistentConfig}
    {config : InternalEncryptionConfig} (h : reader.Unlocks encryptionConfig)
    (hcorrect : AesGcm.Correct) (hkem : Kem.Correct)
    (hconfig : encryptionConfig.toPersistent = .ok (persistentConfig, config)) :
    reader.load persistentConfig =
      .ok { reader with encryptParameters := some (config.key, config.nonce) } := by
  obtain ⟨ss, csprng, hencapsulate, hparameters, hcommitment⟩ :=
    EncryptionConfig.toPersistent_secret hconfig
  obtain ⟨hown, hsecrets, hfound⟩ := h.2 hconfig hencapsulate
  have hwraps := encapsulate_wraps hencapsulate
  have hmatch : persistentConfig.keyCommitment.TagMatches config.key config.nonce := by
    rw [hcommitment]
    exact (KeyCommitmentAndTag.opens_iff.mp
      (opens_buildKeyCommitmentChain hcorrect config.key config.nonce)).1
  have hkeys : ∀ key ∈ reader.privateKeys, ∀ ss',
      key.decapsulate persistentConfig.hybridMultiRecipientEncapsulateKey = .ok ss' → ss' = ss := by
    intro key hkey ss' hdec
    obtain ⟨hsome, hnone⟩ := decapsulateFrom_eq hcorrect hkem hwraps (hown key hkey)
    rw [MLADecryptionPrivateKey.decapsulate] at hdec
    by_cases hrecipient : encryptionConfig.HasRecipient key
    · rw [hsome hrecipient] at hdec
      exact (Except.ok.inj hdec).symm
    · rw [hnone fun pub hpub hmatches => hrecipient ⟨pub, hpub, hmatches⟩] at hdec
      cases hdec
  have hfound' : (∃ key ∈ reader.privateKeys,
      key.decapsulate persistentConfig.hybridMultiRecipientEncapsulateKey = .ok ss) ∨
        ∃ s ∈ reader.sharedSecrets, s.secret = ss := by
    rcases hfound with ⟨key, hkey, hrecipient⟩ | hsecret
    · exact Or.inl ⟨key, hkey, (decapsulateFrom_eq hcorrect hkem hwraps (hown key hkey)).1 hrecipient⟩
    · exact Or.inr hsecret
  have hset : reader.privateKeys ≠ [] ∨ reader.sharedSecrets ≠ [] := by
    rcases hfound with ⟨key, hkey, -⟩ | ⟨s, hs, -⟩
    · exact Or.inl (List.ne_nil_of_mem hkey)
    · exact Or.inr (List.ne_nil_of_mem hs)
  have hload := EncryptionReaderConfig.loadPersistent_eq_ok.mpr ⟨hset, _,
    EncryptionReaderConfig.selected_eq hparameters h.1 hkeys hsecrets hfound' hmatch, hmatch, rfl⟩
  rw [EncryptionReaderConfig.load, hload]

end Unlocks

section Signatures

variable [SignatureSchemes]

/-- What is signed with a private key is verified with the public one. -/
structure SignatureSchemes.Correct : Prop where
  ed25519 : ∀ key message, SignatureSchemes.verify (SignatureSchemes.ed25519Public key) message
    (SignatureSchemes.sign key message) = true
  mldsa87 : ∀ {seed message context rng sig rng'},
    SignatureSchemes.signRandomized seed message context rng = (some sig, rng') →
      SignatureSchemes.verifyWithContext (SignatureSchemes.toSigningVerificationKey seed) message
        context sig = true

def MLASigningPrivateKey.verificationKey (key : MLASigningPrivateKey) :
    MLASignatureVerificationPublicKey :=
  ⟨SignatureSchemes.ed25519Public key.privateKeyEd25519,
    SignatureSchemes.toSigningVerificationKey key.privateKeySeedMldsa⟩

variable [Sha512] {hash : Bytes}

/-- The bytes that are written are those of two signatures by each key. -/
theorem SignatureLayerWriter.exists_signatures (hcorrect : SignatureSchemes.Correct) :
    ∀ {keys : List MLASigningPrivateKey} {rng : SignatureSchemes.Rng} {bytes : Bytes},
      signatureBytes hash keys rng = some bytes →
      ∃ signatures : List MLASignature, bytes = signatures.flatMap MLASignature.encode ∧
        ∀ key ∈ keys, (∃ sig, .mlaEd25519 sig ∈ signatures ∧
            key.verificationKey.verify hash (.mlaEd25519 sig) = true) ∧
          ∃ sig, .mlaMlDsa87 sig ∈ signatures ∧
            key.verificationKey.verify hash (.mlaMlDsa87 sig) = true := by
  intro keys
  induction keys with
  | nil =>
      intro rng bytes h
      obtain rfl := Option.some.inj h
      exact ⟨[], rfl, by simp⟩
  | cons key keys ih =>
      intro rng bytes h
      obtain ⟨mldsa87Signature, hsign, h⟩ := Option.bind_eq_some_iff.mp h
      obtain ⟨rest, hrest, h⟩ := Option.bind_eq_some_iff.mp h
      obtain rfl := Option.some.inj h
      obtain ⟨signatures, rfl, hsignatures⟩ := ih hrest
      refine ⟨.mlaEd25519 (key.signEd25519 hash) :: .mlaMlDsa87 mldsa87Signature :: signatures, ?_,
        fun key' hkey' => ?_⟩
      · simp only [List.flatMap_cons, MLASignature.encode, List.append_assoc]
      · rcases List.mem_cons.mp hkey' with rfl | hkey'
        · refine ⟨⟨_, List.mem_cons_self, hcorrect.ed25519 _ _⟩,
            ⟨_, List.mem_cons_of_mem _ List.mem_cons_self, ?_⟩⟩
          have hsigned : key'.signMldsa87 hash rng =
              (some mldsa87Signature, (key'.signMldsa87 hash rng).2) := Prod.ext hsign rfl
          exact hcorrect.mldsa87 hsigned
        · obtain ⟨⟨sig, hmem, hverify⟩, sig', hmem', hverify'⟩ := hsignatures key' hkey'
          exact ⟨⟨sig, List.mem_cons_of_mem _ (List.mem_cons_of_mem _ hmem), hverify⟩,
            sig', List.mem_cons_of_mem _ (List.mem_cons_of_mem _ hmem'), hverify'⟩

end Signatures

/-! ## Stacks that present -/

namespace OptionalLayer

variable {σ τ : Type} [LayerReader σ] [LayerReader τ] {P : Bytes} {below : σ → ℕ → Prop}
  {above : τ → ℕ → Prop} {liveBelow : σ → Prop} {liveAbove : τ → Prop}

theorem presents (h : Presents P below liveBelow) (h' : Presents P above liveAbove) :
    Presents P (At below above) (Live liveBelow liveAbove) where
  toIsCursor := isCursor h.toIsCursor h'.toIsCursor
  nothing {s p} hs := by
    cases s with
    | absent inner =>
        obtain ⟨t, hrun, ht⟩ := h.nothing hs
        exact ⟨.absent t, onTop_eq_ok.mpr (.inl ⟨inner, t, rfl, hrun, rfl⟩), ht⟩
    | present layer =>
        obtain ⟨t, hrun, ht⟩ := h'.nothing hs
        exact ⟨.present t, onTop_eq_ok.mpr (.inr ⟨layer, t, rfl, hrun, rfl⟩), ht⟩

theorem tellsLength (h : TellsLength P liveBelow) (h' : TellsLength P liveAbove) :
    TellsLength P (Live liveBelow liveAbove) := by
  intro s hs
  cases s with
  | absent inner =>
      obtain ⟨t, hrun, ht⟩ := h hs
      exact ⟨.absent t, onTop_eq_ok.mpr (.inl ⟨inner, t, rfl, hrun, rfl⟩), ht⟩
  | present layer =>
      obtain ⟨t, hrun, ht⟩ := h' hs
      exact ⟨.present t, onTop_eq_ok.mpr (.inr ⟨layer, t, rfl, hrun, rfl⟩), ht⟩

end OptionalLayer

/-! ## Signatures -/

namespace SignatureLayerReader

variable {σ : Type} [Patience] [Kem] [LayerReader σ]

/-- What is not checked is shown without being hashed. -/
theorem readSigned_unchecked (base : Bytes) {I sigs : Bytes} {At : σ → ℕ → Prop} {Live : σ → Prop}
    (h : IsCursor True (written I sigs) At Live) (hlen : (written I sigs).length < i64Size)
    (hprepared : ∀ {t : σ} {q}, At t q → ∃ t', LayerReader.initializeLayer t = .ok () t' ∧ At t' q)
    {s : σ} (hs : At s 8) :
    ∃ view hash, readSigned s (base ++ signatureLayerMagic) false = .ok (view, hash, none, sigs) ∧
      StripHeadTailReader.Shows (written I sigs) At 9 (sigs.length + 25) view 0 := by
  have hword := i64Size_lt_u64Size
  have hlength := length_written I sigs
  have hstart : (written I sigs).take 8 = signatureLayerMagic := by
    rw [written, List.append_assoc, List.append_assoc]
    exact List.take_left' rfl
  have hopts : emptyOptsSerialization <+: (written I sigs).drop 8 := by
    rw [written, List.append_assoc, List.append_assoc, List.drop_left' (by rfl)]
    exact List.prefix_append _ _
  have hB : (signatureLayerMagic ++ emptyOptsSerialization ++ I).length = I.length + 9 := by
    rw [List.length_append, Nat.add_comm]
    rfl
  obtain ⟨s₁, hinit, hs₁⟩ := hprepared hs
  obtain ⟨s₂, hread₂, hs₂, -⟩ := decodes_opts.ok (HashWrapperReader.delivers base h.toDelivers)
    (s := ⟨s₁, base ++ signatureLayerMagic⟩) ⟨hs₁, by rw [hstart]⟩ hopts
  change At s₂.inner 9 at hs₂
  obtain ⟨s₃, htail, hs₃⟩ := readTail_eq h (by rw [hB]; omega) hs₂ (by rw [hB]; omega)
  rw [hB] at htail
  have hnew : StripHeadTailReader.new s₃ 9 (sigs.length + 25) (I.length + 9 + (sigs.length + 25)) 0 =
      .ok ⟨s₃, 9, sigs.length + 25, I.length + 9 + (sigs.length + 25), 0⟩ :=
    StripHeadTailReader.new_eq (by omega) (by omega) s₃ 0
  refine ⟨⟨s₃, 9, sigs.length + 25, I.length + 9 + (sigs.length + 25), 0⟩, s₂.hash, ?_, hs₃, rfl, rfl,
    show I.length + 9 + (sigs.length + 25) = _ by omega, rfl, Nat.zero_le _⟩
  exact Except.bind_eq_ok.mpr ⟨⟨(), s₁⟩, runOn_eq_ok.mpr hinit, Except.bind_eq_ok.mpr ⟨⟨(), s₂⟩,
    runOn_eq_ok.mpr hread₂, Except.bind_eq_ok.mpr ⟨⟨_, s₃⟩, runOn_eq_ok.mpr htail,
    Except.bind_eq_ok.mpr ⟨_, hnew, rfl⟩⟩⟩⟩

end SignatureLayerReader

/-! ## The layers, one after the other -/

/-- One of the private keys is that of `key`. -/
def ArchiveWriterConfig.IsSignedBy [Kem] [SignatureSchemes] (config : ArchiveWriterConfig)
    (key : MLASignatureVerificationPublicKey) : Prop :=
  ∃ signatureConfig, config.signature = some signatureConfig ∧
    ∃ signingKey ∈ signatureConfig.signatureKeys, signingKey.verificationKey = key

namespace ArchiveReader

variable {ρ : Type} [Patience] [Kem] [Sha512] [SignatureSchemes] [Read Error ρ] [Seek Error ρ]
  {At : ρ → ℕ → Prop} {Live : ρ → Prop} {config : ArchiveWriterConfig}
  {readerConfig : ArchiveReaderConfig}

/-- A layer of signatures that is not checked is opened without any key. -/
theorem openSignature_unchecked {I sigs : Bytes}
    (h : IsCursor True (ArchiveHeader.encode ++ (SignatureLayerReader.written I sigs ++ archiveTail))
      At Live)
    (hlen : I.length + (sigs.length + 64) < i64Size) (hI : 8 ≤ I.length)
    (hcheck : readerConfig.signatureReaderConfig.signatureCheck = false) {src : ρ} (hsrc : Live src) :
    ∃ View LiveView, IsCursor True I View LiveView ∧ Prepares View ∧
      ∃ stack, openSignature readerConfig src = .ok (stack, I.take 8, [], none) ∧ View stack 8 := by
  have hlength := SignatureLayerReader.length_written I sigs
  have hpre : signatureLayerMagic <+: SignatureLayerReader.written I sigs := by
    rw [SignatureLayerReader.written, List.append_assoc, List.append_assoc]
    exact List.prefix_append _ _
  obtain ⟨view, hopen, hview⟩ := openSource_eq h (by omega) rfl hpre hsrc
  obtain ⟨LiveView, hlayers⟩ := isCursor_layers h (by omega)
  obtain ⟨shown, hash, hsigned, hshown⟩ := SignatureLayerReader.readSigned_unchecked
    ArchiveHeader.encode hlayers (by omega) (fun hs => prepares_layers _ _ hs) hview
  have hstrip := StripHeadTailReader.isCursor hlayers
    (show 9 + (sigs.length + 25) ≤ (SignatureLayerReader.written I sigs).length by omega) (by omega)
  rw [SignatureLayerReader.strip_written] at hstrip
  have hcursor := OptionalLayer.isCursor (σ := StripHeadTailReader (RawLayerReader ρ))
    (IsCursor.never I True) (SignatureLayerReader.isCursor hstrip)
  refine ⟨_, _, hcursor, ?_, ?_⟩
  · intro s p hs
    cases s with
    | absent inner => exact hs.elim
    | present layer => exact ⟨.present layer, rfl, hs⟩
  · obtain ⟨stack, hread, hat⟩ := (decodes_layerMagic (List.length_take_of_le hI)).ok
      hcursor.toDelivers (s := .present ⟨shown⟩) (p := 0) hshown (List.take_prefix 8 I)
    rw [List.length_take_of_le hI] at hat
    refine ⟨stack, ?_, hat⟩
    have hnew : SignatureLayerReader.newSkipMagic view readerConfig.signatureReaderConfig
        (ArchiveHeader.encode ++ signatureLayerMagic) = .ok (⟨shown⟩, [], none) := by
      refine Except.bind_eq_ok.mpr ⟨_, by rw [hcheck]; exact hsigned, ?_⟩
      dsimp only
      rw [hcheck]
      rfl
    refine Except.bind_eq_ok.mpr ⟨_, hopen, ?_⟩
    dsimp only
    rw [if_pos rfl]
    exact Except.bind_eq_ok.mpr ⟨_, hnew, Except.bind_eq_ok.mpr ⟨⟨(), .present ⟨shown⟩⟩, rfl,
      Except.bind_eq_ok.mpr ⟨⟨_, stack⟩, runOn_eq_ok.mpr hread, rfl⟩⟩⟩

/-- The signatures of the writer are checked with any of its keys, or are not checked. -/
theorem openSignature_made {I Y : Bytes} (hY : config.Signs I Y) (hlossless : SignatureSchemes.Lossless)
    (hcorrect : SignatureSchemes.Correct)
    (h : IsCursor True (ArchiveHeader.encode ++ (Y ++ archiveTail)) At Live)
    (hlen : Y.length + 30 < i64Size) (hI : 8 ≤ I.length) (hmagic : I.take 8 ≠ signatureLayerMagic)
    {kept : Option EncryptionPersistentConfig} (hkeeps : SignatureLayerReader.Keeps
      (HashWrapperReader (StripHeadTailReader (StripHeadTailReader (RawLayerReader ρ)))) I kept)
    (hsuits : readerConfig.signatureReaderConfig.signatureCheck = true →
      ∃ key ∈ readerConfig.signatureReaderConfig.signatureVerificationKeys, config.IsSignedBy key)
    {src : ρ} (hsrc : Live src) :
    ∃ View LiveView, IsCursor True I View LiveView ∧ Prepares View ∧
      ∃ stack keys persistent,
        openSignature readerConfig src = .ok (stack, I.take 8, keys, persistent) ∧ View stack 8 ∧
        (persistent = none ∨ persistent = kept) ∧
        (readerConfig.signatureReaderConfig.signatureCheck = true →
          ∀ key ∈ readerConfig.signatureReaderConfig.signatureVerificationKeys,
            config.IsSignedBy key → key ∈ keys) := by
  rw [ArchiveWriterConfig.Signs] at hY
  cases hcheck : readerConfig.signatureReaderConfig.signatureCheck with
  | false =>
      cases hsignature : config.signature with
      | none =>
          rw [hsignature] at hY
          subst hY
          obtain ⟨View, LiveView, hcursor, hprepares, stack, hopen, hstack⟩ :=
            openSignature_unsigned h hlen hI hmagic hcheck hsrc
          exact ⟨View, LiveView, hcursor, hprepares, stack, _, _, hopen, hstack, .inl rfl,
            fun h => absurd h Bool.false_ne_true⟩
      | some signatureConfig =>
          rw [hsignature] at hY
          obtain ⟨sigs, -, rfl⟩ := hY
          rw [SignatureLayerReader.length_written] at hlen
          obtain ⟨View, LiveView, hcursor, hprepares, stack, hopen, hstack⟩ :=
            openSignature_unchecked h (by omega) hI hcheck hsrc
          exact ⟨View, LiveView, hcursor, hprepares, stack, _, _, hopen, hstack, .inl rfl,
            fun h => absurd h Bool.false_ne_true⟩
  | true =>
      obtain ⟨key, hkey, hsigned⟩ := hsuits hcheck
      obtain ⟨signatureConfig, hsignature, -⟩ := id hsigned
      rw [hsignature] at hY
      obtain ⟨sigs, hsigs, rfl⟩ := hY
      rw [SignatureLayerReader.length_written] at hlen
      obtain ⟨signatures, rfl, hsignatures⟩ := SignatureLayerWriter.exists_signatures hcorrect hsigs
      have hhash : ArchiveHeader.encode ++ (signatureLayerMagic ++ emptyOptsSerialization) ++ I =
          ArchiveHeader.encode ++ (signatureLayerMagic ++ (emptyOptsSerialization ++ I)) := by
        simp only [List.append_assoc]
      rw [hhash] at hsignatures
      have hfilter : ∀ key ∈ readerConfig.signatureReaderConfig.signatureVerificationKeys,
          config.IsSignedBy key → key ∈
            readerConfig.signatureReaderConfig.signatureVerificationKeys.filter
              (SignatureLayerReader.hasBothSignatures (ArchiveHeader.encode ++
                (signatureLayerMagic ++ (emptyOptsSerialization ++ I))) signatures) := by
        intro key hkey hsigned
        obtain ⟨signatureConfig', hsignature', signingKey, hmem, rfl⟩ := hsigned
        obtain rfl := Option.some.inj (hsignature.symm.trans hsignature')
        exact List.mem_filter.mpr ⟨hkey, hasBothSignatures_iff.mpr (hsignatures signingKey hmem)⟩
      obtain ⟨View, LiveView, hcursor, hprepares, stack, hopen, hstack⟩ := openSignature_signed hlossless h
        (by omega) hI hkeeps hcheck rfl (List.ne_nil_of_mem (hfilter key hkey hsigned)) hsrc
      exact ⟨View, LiveView, hcursor, hprepares, stack, _, _, hopen, hstack, .inr rfl,
        fun _ => hfilter⟩

end ArchiveReader

namespace ArchiveReader

variable {ρ : Type} [Patience] [AesGcm] [Hkdf] [Kem] [SignatureSchemes] [Read Error ρ] [Seek Error ρ]
  {config : ArchiveWriterConfig} {readerConfig : ArchiveReaderConfig}

/-- The layer of encryption is opened with the key that was encapsulated, whether the header that is
read is the one that was signed or not. -/
theorem openEncryption_made {D I : Bytes} (hI : config.Encrypts D I) (haes : AesGcm.Correct)
    (hkem : Kem.Correct) (hlossless : Kem.Lossless) {View : SignatureStack ρ → ℕ → Prop}
    {LiveView : SignatureStack ρ → Prop} (h : IsCursor True I View LiveView) (hprepares : Prepares View)
    (hlen : I.length < i64Size) (hD : 8 ≤ D.length) (hmagic : D.take 8 ≠ encryptionLayerMagic)
    {persistent : Option EncryptionPersistentConfig}
    (hpersistent : ∀ encryptionConfig persistentConfig internalConfig,
      config.encryption = some encryptionConfig →
      encryptionConfig.toPersistent = .ok (persistentConfig, internalConfig) →
      persistent.getD persistentConfig = persistentConfig)
    (haccept : config.encryption = none → readerConfig.acceptUnencrypted = true)
    (hunlocks : ∀ encryptionConfig, config.encryption = some encryptionConfig →
      readerConfig.encrypt.Unlocks encryptionConfig) {stack : SignatureStack ρ} (hstack : View stack 8) :
    ∃ View' LiveView', Presents D View' LiveView' ∧ TellsLength D LiveView' ∧
      ∃ stack', openEncryption readerConfig stack (I.take 8) persistent = .ok (stack', D.take 8) ∧
        View' stack' 8 := by
  rw [ArchiveWriterConfig.Encrypts] at hI
  cases hencryption : config.encryption with
  | none =>
      rw [hencryption] at hI
      subst hI
      have htells : TellsLength I LiveView := h.tellsLength
      refine ⟨_, _, OptionalLayer.presents h.presents (Presents.never _ I),
        OptionalLayer.tellsLength htells (fun hs => hs.elim), .absent stack, ?_, hstack⟩
      rw [openEncryption, if_neg hmagic, haccept hencryption]
      rfl
  | some encryptionConfig =>
      rw [hencryption] at hI
      obtain ⟨persistentConfig, internalConfig, hconfig, rfl⟩ := hI
      have hlength : (EncryptionLayerReader.written persistentConfig internalConfig D).length =
          (EncryptionLayerWriter.header persistentConfig).length +
            ((internalConfig.encBody D).length + 9) := EncryptionLayerReader.length_written
      have hne : D ≠ [] := List.ne_nil_of_length_pos (by omega)
      have hn : (EncryptionLayerWriter.header persistentConfig).length + 9 ≤
          (EncryptionLayerReader.written persistentConfig internalConfig D).length := by omega
      have htake : (EncryptionLayerReader.written persistentConfig internalConfig D).take 8 =
          encryptionLayerMagic := by
        rw [EncryptionLayerReader.written, EncryptionLayerWriter.header, List.append_assoc]
        exact List.take_left' rfl
      obtain ⟨layer, hnew, hready⟩ := EncryptionLayerReader.newSkipMagic_eq hlossless h hlen
        (hpersistent _ _ _ hencryption hconfig)
        ((hunlocks _ hencryption).load_eq haes hkem hconfig) rfl hstack
      obtain ⟨layer', hinit, hstands⟩ := EncryptionLayerReader.initializeLayer_stands haes h hlen hn
        EncryptionLayerReader.strip_written hne (fun hs => hprepares hs) hready
      have hpresents := EncryptionLayerReader.presents haes h hlen hn
        EncryptionLayerReader.strip_written hne
      have htells : TellsLength D _ := EncryptionLayerReader.tellsLength haes h hlen hn
        EncryptionLayerReader.strip_written hne
      have hstack' := OptionalLayer.presents (Presents.never (SignatureStack ρ) D) hpresents
      obtain ⟨stack', hread, hat⟩ := (decodes_layerMagic (List.length_take_of_le hD)).ok
        hstack'.toDelivers (s := .present layer') (p := 0) (.inl hstands) (List.take_prefix 8 D)
      rw [List.length_take_of_le hD] at hat
      refine ⟨_, _, hstack', OptionalLayer.tellsLength (fun hs => hs.elim) htells, stack', ?_, hat⟩
      rw [openEncryption, htake, if_pos rfl]
      refine Except.bind_eq_ok.mpr ⟨layer, hnew, Except.bind_eq_ok.mpr ⟨((), .present layer'),
        runOn_eq_ok.mpr ?_, Except.bind_eq_ok.mpr ⟨(D.take 8, stack'), runOn_eq_ok.mpr hread, rfl⟩⟩⟩
      exact OptionalLayer.onTop_eq_ok.mpr (.inr ⟨layer, layer', rfl, hinit, rfl⟩)

variable [Brotli] [BrotliDecompressor]

omit [Hkdf] in
/-- The layer of compression is opened, and what is on top shows the entries. -/
theorem openCompression_made {cap : ℕ} {P D : Bytes} (hD : config.Compresses P D)
    (hcap : Brotli.Bounded cap) (hinverts : Brotli.Inverts) {View : EncryptionStack ρ → ℕ → Prop}
    {LiveView : EncryptionStack ρ → Prop} (h : Presents D View LiveView)
    (htells : TellsLength D LiveView) (hlen : D.length < i64Size) (hP : P ≠ [])
    (hmagic : P.take 8 ≠ compressionLayerMagic) {stack : EncryptionStack ρ} (hstack : View stack 8) :
    ∃ View' LiveView', Presents P View' LiveView' ∧
      ∃ stack', openCompression stack (D.take 8) = .ok stack' ∧ LiveView' stack' := by
  rw [ArchiveWriterConfig.Compresses] at hD
  cases hcompression : config.compression with
  | none =>
      rw [hcompression] at hD
      subst hD
      refine ⟨_, _, OptionalLayer.presents h (Presents.never _ D), .absent stack, ?_, h.live hstack⟩
      rw [openCompression, if_neg hmagic]
      rfl
  | some cfg =>
      rw [hcompression] at hD
      obtain ⟨blocks, L, hL, hpacked, rfl⟩ := hD
      have hmagic' : compressionLayerMagic.length = 8 := rfl
      have hdrop : (CompressionLayerWriter.header ++ L).drop 8 = emptyOptsSerialization ++ L := by
        rw [CompressionLayerWriter.header, List.append_assoc]
        exact List.drop_left' hmagic'
      have htake : (CompressionLayerWriter.header ++ L).take 8 = compressionLayerMagic := by
        rw [CompressionLayerWriter.header, List.append_assoc]
        exact List.take_left' hmagic'
      obtain ⟨layer, layer₀, Above, LiveAbove, hnew, hinit, hpresents, hshown⟩ :=
        CompressionLayerReader.opened hcap hinverts h htells hlen hL (hpacked hP) hdrop hstack
      refine ⟨_, _, OptionalLayer.presents (Presents.never (EncryptionStack ρ) P) hpresents,
        .present layer₀, ?_, hpresents.live hshown⟩
      rw [openCompression, htake, if_pos rfl]
      exact Except.bind_eq_ok.mpr ⟨layer, hnew, Except.bind_eq_ok.mpr ⟨((), .present layer₀),
        runOn_eq_ok.mpr (OptionalLayer.onTop_eq_ok.mpr (.inr ⟨layer, layer₀, rfl, hinit, rfl⟩)), rfl⟩⟩

end ArchiveReader

/-! ## Lengths -/

namespace ArchiveWriterConfig

variable [AesGcm] [Hkdf] [Kem] [Sha512] [SignatureSchemes] [Brotli] {config : ArchiveWriterConfig}
  {P D I Y : Bytes}

omit [AesGcm] [Hkdf] [Sha512] in
theorem Compresses.length_le {cap : ℕ} (h : config.Compresses P D) (hcap : Brotli.Bounded cap)
    (hP : P ≠ []) : D.length ≤ config.compressionRoom cap P.length := by
  rw [Compresses] at h
  rw [compressionRoom]
  cases hcompression : config.compression with
  | none =>
      rw [hcompression] at h
      rw [h]
  | some cfg =>
      rw [hcompression] at h
      obtain ⟨blocks, L, hL, hpacked, rfl⟩ := h
      have hlayer := (hpacked hP).length_layer_le hcap hL
      have hheader : CompressionLayerWriter.header.length = 9 := rfl
      have hcount : (P.length + (uncompressedDataSize - 1)) / uncompressedDataSize ≤
          P.length / uncompressedDataSize + 2 := by
        rw [uncompressedDataSize_eq]
        omega
      have hroom := Nat.mul_le_mul_left (cap + 4) hcount
      dsimp only
      rw [List.length_append, hheader, CompressionLayerWriter.room]
      omega

omit [Sha512] [Brotli] in
theorem Encrypts.length_le (h : config.Encrypts D I) : I.length ≤ config.encryptionRoom D.length := by
  rw [Encrypts] at h
  rw [encryptionRoom]
  cases hencryption : config.encryption with
  | none =>
      rw [hencryption] at h
      rw [h]
  | some encryptionConfig =>
      rw [hencryption] at h
      obtain ⟨persistentConfig, internalConfig, hconfig, rfl⟩ := h
      obtain ⟨ss, csprng, hencapsulate, -⟩ := EncryptionConfig.toPersistent_secret hconfig
      have hrecipients := (encapsulate_wraps hencapsulate).length_eq
      have hheader := EncryptionLayerWriter.length_header persistentConfig
      have hlength : (EncryptionLayerReader.written persistentConfig internalConfig D).length =
          (EncryptionLayerWriter.header persistentConfig).length +
            ((internalConfig.encBody D).length + 9) := EncryptionLayerReader.length_written
      have hbody := internalConfig.length_encBody D
      obtain ⟨hfirst, -, -⟩ := lastChunk_spec D
      dsimp only
      rw [EncryptionLayerWriter.room, hrecipients]
      omega

omit [AesGcm] [Hkdf] [Brotli] in
theorem Signs.length_le (h : config.Signs I Y) : Y.length ≤ config.signatureRoom I.length := by
  rw [Signs] at h
  rw [signatureRoom]
  cases hsignature : config.signature with
  | none =>
      rw [hsignature] at h
      rw [h]
  | some signatureConfig =>
      rw [hsignature] at h
      obtain ⟨bytes, hbytes, rfl⟩ := h
      have hlength := SignatureLayerWriter.length_signatureBytes _ hbytes
      have hwritten := SignatureLayerReader.length_written I bytes
      dsimp only
      omega

end ArchiveWriterConfig

end Mla
