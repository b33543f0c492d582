import Mla.Reader.Layers
import Mla.Reader.ReadBack

/-!
# An archive is read back

Whatever calls are made on a writer, with any of its configurations: when all entries are ended the
archive is finalized, and a reader that has the keys opens it on the same entries.
-/

namespace Mla

open Io

/-- The reader takes what a writer of that configuration makes. -/
structure ArchiveReaderConfig.Suits [AesGcm] [Hkdf] [Kem] [SignatureSchemes]
    (readerConfig : ArchiveReaderConfig) (config : ArchiveWriterConfig) : Prop where
  signature : readerConfig.signatureReaderConfig.signatureCheck = true →
    ∃ key ∈ readerConfig.signatureReaderConfig.signatureVerificationKeys, config.IsSignedBy key
  unencrypted : config.encryption = none → readerConfig.acceptUnencrypted = true
  unlocks : ∀ encryptionConfig, config.encryption = some encryptionConfig →
    readerConfig.encrypt.Unlocks encryptionConfig

/-- The cryptographic schemes do what they are for. -/
structure SchemesCorrect [AesGcm] [Kem] [SignatureSchemes] : Prop where
  aesGcm : AesGcm.Correct
  kem : Kem.Correct
  kemLossless : Kem.Lossless
  signature : SignatureSchemes.Correct
  signatureLossless : SignatureSchemes.Lossless

section Opening

variable {ρ : Type} [Patience] [AesGcm] [Hkdf] [Kem] [Sha512] [SignatureSchemes] [Brotli]
  [BrotliDecompressor] [Read Error ρ] [Seek Error ρ] {config : ArchiveWriterConfig}
  {readerConfig : ArchiveReaderConfig} {P X : Bytes} {cap : ℕ}

omit [Patience] [BrotliDecompressor] in
theorem ArchiveWriterConfig.Makes.length_le (h : config.Makes P X) (hcap : Brotli.Bounded cap)
    (hP : P ≠ []) : X.length + 17 ≤ config.room cap P.length := by
  obtain ⟨D, I, Y, hD, hI, hY, rfl⟩ := h
  have hlenD := hD.length_le hcap hP
  have hlenI := hI.length_le.trans (config.encryptionRoom_mono hlenD)
  have hlenY := hY.length_le.trans (config.signatureRoom_mono hlenI)
  rw [List.length_append, ArchiveHeader.length_encode, room]
  omega

omit [AesGcm] [Hkdf] [Patience] [Sha512] [BrotliDecompressor] [Read Error ρ] [Seek Error ρ] in
/-- A layer starts with its magic. -/
theorem ArchiveWriterConfig.Compresses.take_eq {D : Bytes} (h : config.Compresses P D)
    (hP : entriesLayerMagic <+: P) :
    8 ≤ D.length ∧ (D.take 8 = entriesLayerMagic ∨ D.take 8 = compressionLayerMagic) := by
  rw [Compresses] at h
  cases hcompression : config.compression with
  | none =>
      rw [hcompression] at h
      subst h
      have hmagic : entriesLayerMagic.length = 8 := rfl
      exact ⟨hmagic ▸ hP.length_le, .inl (hmagic ▸ (List.prefix_iff_eq_take.mp hP).symm)⟩
  | some cfg =>
      rw [hcompression] at h
      obtain ⟨blocks, L, -, -, rfl⟩ := h
      have hmagic : compressionLayerMagic.length = 8 := rfl
      rw [CompressionLayerWriter.header, List.append_assoc, List.length_append, hmagic]
      exact ⟨Nat.le_add_right _ _, .inr (List.take_left' hmagic)⟩

omit [Patience] [Sha512] [Brotli] [BrotliDecompressor] [Read Error ρ] [Seek Error ρ] in
theorem ArchiveWriterConfig.Encrypts.take_eq {D I : Bytes} (h : config.Encrypts D I)
    (hD : 8 ≤ D.length) :
    8 ≤ I.length ∧ (I.take 8 = D.take 8 ∨ I.take 8 = encryptionLayerMagic) := by
  rw [Encrypts] at h
  cases hencryption : config.encryption with
  | none =>
      rw [hencryption] at h
      subst h
      exact ⟨hD, .inl rfl⟩
  | some encryptionConfig =>
      rw [hencryption] at h
      obtain ⟨persistentConfig, internalConfig, -, rfl⟩ := h
      have hmagic : encryptionLayerMagic.length = 8 := rfl
      rw [EncryptionLayerReader.written, EncryptionLayerWriter.header, List.append_assoc,
        List.length_append, hmagic]
      exact ⟨Nat.le_add_right _ _, .inr (List.take_left' hmagic)⟩

omit [Sha512] [Brotli] [BrotliDecompressor] in
/-- What the hash keeps of the first layer: the header of the layer of encryption. -/
theorem ArchiveWriterConfig.Encrypts.keeps {D I : Bytes} (h : config.Encrypts D I)
    (hlossless : Kem.Lossless) (hlen : I.length < i64Size) (hD : 8 ≤ D.length)
    (hmagic : D.take 8 ≠ encryptionLayerMagic) :
    ∃ kept, SignatureLayerReader.Keeps
        (HashWrapperReader (StripHeadTailReader (StripHeadTailReader (RawLayerReader ρ)))) I kept ∧
      ∀ encryptionConfig persistentConfig internalConfig, config.encryption = some encryptionConfig →
        encryptionConfig.toPersistent = .ok (persistentConfig, internalConfig) →
          kept = some persistentConfig := by
  rw [Encrypts] at h
  cases hencryption : config.encryption with
  | none =>
      rw [hencryption] at h
      subst h
      exact ⟨none, .inl ⟨hD, hmagic, rfl⟩, fun _ _ _ h => by cases h⟩
  | some encryptionConfig =>
      rw [hencryption] at h
      obtain ⟨persistentConfig, internalConfig, hconfig, rfl⟩ := h
      have hlength : (EncryptionLayerReader.written persistentConfig internalConfig D).length =
          (EncryptionLayerWriter.header persistentConfig).length +
            ((internalConfig.encBody D).length + 9) := EncryptionLayerReader.length_written
      refine ⟨some persistentConfig, .inr ⟨persistentConfig.headerAfterMagic, persistentConfig, _, ?_,
        parses_encryptionHeader hlossless (HashWrapperReader.tallies StripHeadTailReader.tallies) ?_,
        rfl⟩, ?_⟩
      · rw [EncryptionLayerReader.written, EncryptionLayerWriter.header]
        exact List.prefix_append _ _
      · rw [i64Size_eq] at hlen
        rw [u64Size_eq]
        omega
      · intro encryptionConfig' persistentConfig' internalConfig' hsame hconfig'
        obtain rfl := Option.some.inj hsame
        rw [hconfig] at hconfig'
        obtain ⟨rfl, -⟩ := Prod.mk.inj (Except.ok.inj hconfig')
        rfl

/-- What a configuration makes of some entries is opened, up to the entries. -/
theorem ArchiveReader.openLayers_made (hmakes : config.Makes P X) (hschemes : SchemesCorrect)
    (hcap : Brotli.Bounded cap) (hinverts : Brotli.Inverts) (hsuits : readerConfig.Suits config)
    (hroom : config.room cap P.length < i64Size) (hP : entriesLayerMagic <+: P)
    {At : ρ → ℕ → Prop} {Live : ρ → Prop} (h : IsCursor True (X ++ archiveTail) At Live) {src : ρ}
    (hsrc : Live src) :
    ∃ stack keys View LiveView, Presents P View LiveView ∧ LiveView stack ∧
      (readerConfig.signatureReaderConfig.signatureCheck = true →
        ∀ key ∈ readerConfig.signatureReaderConfig.signatureVerificationKeys,
          config.IsSignedBy key → key ∈ keys) ∧
      ArchiveReader.fromConfig readerConfig src = (do
        let reader ← readEntries stack
        pure (reader, keys)) := by
  have hne : P ≠ [] := List.ne_nil_of_length_pos (Nat.lt_of_lt_of_le (Nat.succ_pos _) hP.length_le)
  have hlen := hmakes.length_le hcap hne
  obtain ⟨D, I, Y, hD, hI, hY, rfl⟩ := hmakes
  rw [List.append_assoc] at h
  rw [List.length_append, ArchiveHeader.length_encode] at hlen
  have hlenD := hD.length_le hcap hne
  have hlenI := hI.length_le.trans (config.encryptionRoom_mono hlenD)
  have hlenY := config.le_signatureRoom (config.encryptionRoom (config.compressionRoom cap P.length))
  have hlenI' := config.le_encryptionRoom (config.compressionRoom cap P.length)
  rw [ArchiveWriterConfig.room] at hroom hlen
  obtain ⟨hD8, hmagicD⟩ := hD.take_eq hP
  obtain ⟨hI8, hmagicI⟩ := hI.take_eq hD8
  have hmagic₂ : D.take 8 ≠ encryptionLayerMagic := by
    rcases hmagicD with hmagic | hmagic <;> rw [hmagic] <;> decide
  have hmagic₁ : I.take 8 ≠ signatureLayerMagic := by
    rcases hmagicI with hmagic | hmagic
    · rcases hmagicD with hmagic' | hmagic' <;> rw [hmagic, hmagic'] <;> decide
    · rw [hmagic]
      decide
  have hmagic₃ : P.take 8 ≠ compressionLayerMagic := by
    have hmagic : entriesLayerMagic.length = 8 := rfl
    rw [← hmagic, ← List.prefix_iff_eq_take.mp hP]
    decide
  obtain ⟨kept, hkeeps, hkept⟩ := hI.keeps (ρ := ρ) hschemes.kemLossless (by omega) hD8 hmagic₂
  obtain ⟨View₁, LiveView₁, hcursor₁, hprepares, stack₁, keys, persistent, hopen₁, hstack₁, hpersistent,
    hkeys⟩ := openSignature_made hY hschemes.signatureLossless hschemes.signature h (by omega) hI8
      hmagic₁ hkeeps hsuits.signature hsrc
  have hsame : ∀ encryptionConfig persistentConfig internalConfig,
      config.encryption = some encryptionConfig →
      encryptionConfig.toPersistent = .ok (persistentConfig, internalConfig) →
      persistent.getD persistentConfig = persistentConfig := by
    intro encryptionConfig persistentConfig internalConfig hencryption hconfig
    rcases hpersistent with hnone | hsome
    · rw [hnone]
      rfl
    · rw [hsome, hkept _ _ _ hencryption hconfig]
      rfl
  obtain ⟨View₂, LiveView₂, hpresents₂, htells, stack₂, hopen₂, hstack₂⟩ := openEncryption_made hI
    hschemes.aesGcm hschemes.kem hschemes.kemLossless hcursor₁ hprepares (by omega) hD8 hmagic₂ hsame
    hsuits.unencrypted hsuits.unlocks hstack₁
  obtain ⟨View₃, LiveView₃, hpresents₃, stack₃, hopen₃, hstack₃⟩ := openCompression_made hD hcap hinverts
    hpresents₂ htells (by omega) hne hmagic₃ hstack₂
  refine ⟨stack₃, keys, View₃, LiveView₃, hpresents₃, hstack₃, hkeys, ?_⟩
  rw [ArchiveReader.fromConfig, hopen₁]
  change (openEncryption readerConfig stack₁ (I.take 8) persistent >>= _) = _
  rw [hopen₂]
  change (openCompression stack₂ (D.take 8) >>= _) = _
  rw [hopen₃]
  rfl

end Opening

section RoundTrip

variable {W ρ σ : Type} [Patience] [AesGcm] [Hkdf] [Kem] [Sha512] [Sha256] [SignatureSchemes] [Brotli]
  [BrotliDecompressor] [Write Error W] [Read Error σ] [Read Error ρ] [Seek Error ρ]

variable (ρ) in
/-- From whatever stands for the archive, a reader opens it on the entries of the journal. -/
def ArchiveReader.OpensOn (readerConfig : ArchiveReaderConfig) (config : ArchiveWriterConfig)
    (j : Journal) (X : Bytes) : Prop :=
  ∀ {At : ρ → ℕ → Prop} {Live : ρ → Prop}, IsCursor True X At Live → ∀ {src}, Live src →
    ∃ reader keys, ArchiveReader.fromConfig readerConfig src = .ok (reader, keys) ∧
      (readerConfig.signatureReaderConfig.signatureCheck = true →
        ∀ key ∈ readerConfig.signatureReaderConfig.signatureVerificationKeys,
          config.IsSignedBy key → key ∈ keys) ∧
      (∃ names, reader.listEntries = .ok names ∧ names.Perm j.names) ∧
      (∀ draft ∈ j.drafts, (j.entries draft.name).map Entry.content = some draft.content) ∧
      ∀ asked, FollowsArchive j.entries reader asked

omit [Write Error W] [Read Error σ] in
/-- The archive of a journal is opened on its entries. -/
theorem ArchiveReader.fromConfig_stream (hschemes : SchemesCorrect) {cap : ℕ}
    (hcap : Brotli.Bounded cap) (hinverts : Brotli.Inverts) {config : ArchiveWriterConfig}
    {readerConfig : ArchiveReaderConfig} (hsuits : readerConfig.Suits config) {j : Journal} {X : Bytes}
    (hsound : j.Sound) (hended : j.AllEnded) (hblocks : ∀ block ∈ j.blocks, block.Whole)
    (hroom : config.room cap j.stream.length < i64Size) (hmakes : config.Makes j.stream X) :
    (X ++ archiveTail).length ≤ config.room cap j.stream.length ∧
      ArchiveReader.OpensOn ρ readerConfig config j (X ++ archiveTail) := by
  have hP : entriesLayerMagic <+: j.stream := by
    simp only [Journal.stream, Journal.body, Journal.encode, entriesHeader, List.append_assoc]
    exact List.prefix_append _ _
  have hlen : (X ++ archiveTail).length ≤ config.room cap j.stream.length := by
    rw [List.length_append, length_archiveTail]
    exact hmakes.length_le hcap
      (List.ne_nil_of_length_pos (Nat.lt_of_lt_of_le (Nat.succ_pos _) hP.length_le))
  refine ⟨hlen, ?_⟩
  intro At Live hcursor src hsrc
  obtain ⟨stack, keys, View, LiveView, hpresents, hstack, hkeys, hopen⟩ :=
    ArchiveReader.openLayers_made hmakes hschemes hcap hinverts hsuits hroom hP hcursor hsrc
  have hle := config.le_room cap j.stream.length
  obtain ⟨reader, hread, hnames, hfollows⟩ := ArchiveReader.readEntries_stream hsound hended hblocks
    (by omega) hpresents.toIsCursor hpresents.nothing hstack
  refine ⟨reader, keys, ?_, hkeys, hnames, hsound.entries_content hended, hfollows⟩
  rw [hopen, hread]
  rfl

/-- An archive that is written by any calls is opened on what they have written. -/
theorem ArchiveReader.fromConfig_written (hschemes : SchemesCorrect) {cap : ℕ}
    (hcap : Brotli.Bounded cap) (hinverts : Brotli.Inverts) {Got : W → Bytes → Prop}
    (happ : Appends Got) (haccepts : ∀ n, Accepts n Got) {config : ArchiveWriterConfig}
    {readerConfig : ArchiveReaderConfig} (hwhole : config.signature ≠ none → TakesWhole Got)
    (hencapsulates : config.Encapsulates) (hsign : config.CanSign) (hsuits : readerConfig.Suits config)
    {calls : List (WriterCall σ)} (hended : (Journal.run calls).2.AllEnded)
    (hblocks : ∀ block ∈ (Journal.run calls).2.blocks, block.Whole)
    (hroom : config.room cap (Journal.run calls).2.stream.length < i64Size) {dest : W}
    (hdest : Got dest []) :
    ∃ s w X, ArchiveWriter.fromConfig dest config = .ok s ∧
      (outcomes ArchiveWriter.perform calls s).1 = (Journal.run calls).1 ∧
      (outcomes ArchiveWriter.perform calls s).2.finalize = .ok w ∧ Got w X ∧
      X.length ≤ config.room cap (Journal.run calls).2.stream.length ∧
      ∀ {At : ρ → ℕ → Prop} {Live}, IsCursor True X At Live → ∀ {src}, Live src →
        ∃ reader keys, ArchiveReader.fromConfig readerConfig src = .ok (reader, keys) ∧
          (readerConfig.signatureReaderConfig.signatureCheck = true →
            ∀ key ∈ readerConfig.signatureReaderConfig.signatureVerificationKeys,
              config.IsSignedBy key → key ∈ keys) ∧
          (∃ names, reader.listEntries = .ok names ∧ names.Perm (Journal.run calls).2.names) ∧
          (∀ draft ∈ (Journal.run calls).2.drafts,
            ((Journal.run calls).2.entries draft.name).map Entry.content = some draft.content) ∧
          ∀ asked, FollowsArchive (Journal.run calls).2.entries reader asked := by
  obtain ⟨s, w, X, hmake, houtcomes, hfinalize, hw, hmakes⟩ := ArchiveWriter.fromConfig_finalize happ
    haccepts hwhole hcap hencapsulates hsign hended hroom hdest
  obtain ⟨hlen, hopens⟩ := ArchiveReader.fromConfig_stream (ρ := ρ) hschemes hcap hinverts hsuits
    (Journal.sound_run calls) hended hblocks hroom hmakes
  exact ⟨s, w, X ++ archiveTail, hmake, houtcomes, hfinalize, hw, hlen, hopens⟩

end RoundTrip

/-! ## Reading an archive back -/

namespace LabelSignature

theorem correct : SignatureSchemes.Correct where
  ed25519 _ _ := beq_self_eq_true _
  mldsa87 h := by
    obtain ⟨h, -⟩ := Prod.mk.inj h
    obtain rfl := Option.some.inj h
    exact beq_self_eq_true _

end LabelSignature

section Example

open scoped KeyedCipher LabelKem LabelSignature StoredBrotli ShortSource

namespace ArchiveReader

/-- All layers, for the second of two recipients. -/
def writtenConfig : ArchiveWriterConfig :=
  ⟨some .defaultConfig, some twoRecipients, some ⟨[LabelSignature.privateKey 1], LabelSignature.rng⟩⟩

def readingConfig : ArchiveReaderConfig :=
  (ArchiveReaderConfig.withSignatureVerification
    [LabelSignature.publicKey 3, LabelSignature.publicKey 1]).withEncryption [LabelKem.privateKey 2]

theorem schemesCorrect_labels : SchemesCorrect :=
  ⟨KeyedCipher.correct, LabelKem.correct, LabelKem.lossless, LabelSignature.correct, fun _ => rfl⟩

theorem writtenConfig_encapsulates : writtenConfig.Encapsulates := by
  intro encryptionConfig h
  obtain rfl := Option.some.inj h
  exact ⟨_, rfl⟩

theorem writtenConfig_canSign : writtenConfig.CanSign := by
  intro signatureConfig h hash
  obtain rfl := Option.some.inj h
  rfl

theorem readingConfig_suits : readingConfig.Suits writtenConfig where
  signature _ := ⟨LabelSignature.publicKey 1, List.mem_cons_of_mem _ List.mem_cons_self, _, rfl,
    LabelSignature.privateKey 1, List.mem_cons_self, rfl⟩
  unencrypted h := by cases h
  unlocks encryptionConfig h := by
    obtain rfl := Option.some.inj h
    refine ⟨rfl, fun {persistentConfig config ss csprng} hconfig hencapsulate => ⟨fun key hkey => ?_, by
      rintro s ⟨⟩, .inl ⟨LabelKem.privateKey 2, List.mem_singleton_self _, LabelKem.publicKey 2, ?_, rfl⟩⟩⟩
    · obtain rfl := List.mem_singleton.mp hkey
      have hkeys : ∀ label ∈ [(1 : UInt8), 2], label ≠ 2 →
          KeyedCipher.frontTag (labelKey 2) ≠ KeyedCipher.frontTag (labelKey label) := by decide +kernel
      have hwraps : List.Forall₂ (WrapsFor ss) ([1, 2].map LabelKem.publicKey) _ :=
        encapsulate_wraps hencapsulate
      exact onlyOwn_labels hwraps hkeys
    · exact List.mem_cons_of_mem _ List.mem_cons_self

def writtenCalls : List (WriterCall (Cursor Error)) :=
  [.startEntry ShortSource.name, .appendEntryContent 0 3 ⟨[1, 2, 3], 0⟩, .endEntry 0]

theorem whole_writtenCalls : ∀ block ∈ (Journal.run writtenCalls).2.blocks, block.Whole :=
  show ∀ block ∈ (Journal.run writtenCalls).2.blocks, block.data.length = block.size by decide

theorem length_stream_writtenCalls : (Journal.run writtenCalls).2.stream.length = 199 := by
  have hlisted : (Journal.run writtenCalls).2.listed =
      [(ShortSource.name, (Journal.run writtenCalls).2.index 0)] := List.mergeSort_singleton _
  rw [Journal.stream, hlisted]
  decide +kernel

theorem fromConfig_written_labels : ∃ s w reader keys,
    ArchiveWriter.fromConfig (⟨[]⟩ : VecWriter Error) writtenConfig = .ok s ∧
    (outcomes ArchiveWriter.perform writtenCalls s).2.finalize = .ok w ∧
    ArchiveReader.fromConfig readingConfig (⟨w.data, 0⟩ : Cursor Error) = .ok (reader, keys) ∧
    LabelSignature.publicKey 1 ∈ keys ∧
    FollowsArchive (Journal.run writtenCalls).2.entries reader
      [.getEntry ShortSource.name [.read 2, .seek (.start 1)], .getHash ShortSource.name] := by
  have hroom : writtenConfig.room 4194498 (Journal.run writtenCalls).2.stream.length < i64Size := by
    rw [length_stream_writtenCalls]
    decide
  have hended : (Journal.run writtenCalls).2.AllEnded :=
    show ∀ draft ∈ (Journal.run writtenCalls).2.drafts, draft.ended = true by decide
  obtain ⟨s, w, X, hmake, -, hfinalize, hw, hlen, hread⟩ := fromConfig_written (ρ := Cursor Error)
    schemesCorrect_labels StoredBrotli.bounded StoredBrotli.inverts VecWriter.appends VecWriter.accepts
    (fun _ => VecWriter.takesWhole) writtenConfig_encapsulates writtenConfig_canSign readingConfig_suits
    hended whole_writtenCalls hroom
    (show VecWriter.Got (⟨[]⟩ : VecWriter Error) [] from rfl)
  obtain rfl : w.data = X := hw
  have hword := i64Size_lt_u64Size
  obtain ⟨reader, keys, hopen, hkeys, -, -, hfollows⟩ := hread
    (Cursor.isCursor (ε := Error) ((hlen.trans_lt hroom).trans hword))
    (show (⟨w.data, 0⟩ : Cursor Error).data = w.data from rfl)
  exact ⟨s, w, reader, keys, hmake, hfinalize, hopen,
    hkeys rfl _ (List.mem_cons_of_mem _ List.mem_cons_self) ⟨_, rfl, LabelSignature.privateKey 1,
      List.mem_cons_self, rfl⟩, hfollows _⟩

end ArchiveReader

end Example

end Mla
