import Mla.Layers.Compress.Opened
import Mla.Layers.Encrypt.Opened
import Mla.Reader.Opened
import Mla.SharedSecret
import Mla.Writer.Finalized

/-!
# The layers of a writer

Signatures, encryption and compression are enabled by the configuration, each on top of those
before it. A stack of layers takes bytes up to a bound; once it is ended, its destination has what
the layers make of them.
-/

namespace Mla

open Io

/-! ## Configurations -/

/-- `EncryptionConfig::new`, with the seed of its random generator. -/
def EncryptionConfig.new [Kem] (encryptionPublicKeys : List MLAEncryptionPublicKey) (rng : Kem.Rng) :
    Except ConfigError EncryptionConfig :=
  if encryptionPublicKeys.isEmpty then throw .encryptionKeyIsMissing
  else pure ⟨⟨encryptionPublicKeys⟩, rng⟩

structure ArchiveWriterConfig [Kem] [SignatureSchemes] where
  compression : Option CompressionConfig
  encryption : Option EncryptionConfig
  signature : Option SignatureConfig

namespace ArchiveWriterConfig

variable [Kem] [SignatureSchemes] (encryptionPublicKeys : List MLAEncryptionPublicKey)
  (signingPrivateKeys : List MLASigningPrivateKey) (rng : Kem.Rng)
  (signatureRng : SignatureSchemes.Rng)

def withEncryptionWithSignature : Except ConfigError ArchiveWriterConfig := do
  let encryption ← EncryptionConfig.new encryptionPublicKeys rng
  let signature ← SignatureConfig.new signingPrivateKeys signatureRng
  pure ⟨some .defaultConfig, some encryption, some signature⟩

def withEncryptionWithoutSignature : Except ConfigError ArchiveWriterConfig := do
  let encryption ← EncryptionConfig.new encryptionPublicKeys rng
  pure ⟨some .defaultConfig, some encryption, none⟩

def withoutEncryptionWithSignature : Except ConfigError ArchiveWriterConfig := do
  let signature ← SignatureConfig.new signingPrivateKeys signatureRng
  pure ⟨some .defaultConfig, none, some signature⟩

def withoutEncryptionWithoutSignature : Except ConfigError ArchiveWriterConfig :=
  pure ⟨some .defaultConfig, none, none⟩

def withCompressionLevel (self : ArchiveWriterConfig) (compressionLevel : ℕ) :
    Except ConfigError ArchiveWriterConfig := do
  let compressionConfig ← (self.compression.getD .defaultConfig).setCompressionLevel compressionLevel
  pure { self with compression := some compressionConfig }

def withoutCompression (self : ArchiveWriterConfig) : ArchiveWriterConfig :=
  { self with compression := none }

end ArchiveWriterConfig

/-! ## Stacks -/

namespace OptionalLayer

variable {W σ τ ε : Type}

instance instWrite [Write ε σ] [Write ε τ] : Write ε (OptionalLayer σ τ) where
  write buf := onTop (Write.write buf) (Write.write buf)

instance instLayerWriter [LayerWriter W σ] [LayerWriter W τ] : LayerWriter W (OptionalLayer σ τ) where
  finalize
    | .absent inner => LayerWriter.finalize inner
    | .present layer => LayerWriter.finalize layer

end OptionalLayer

abbrev SignatureWriterStack (W : Type) [SignatureSchemes] : Type :=
  OptionalLayer (RawLayerWriter W) (SignatureLayerWriter (RawLayerWriter W))

abbrev EncryptionWriterStack (W : Type) [SignatureSchemes] : Type :=
  OptionalLayer (SignatureWriterStack W) (EncryptionLayerWriter (SignatureWriterStack W))

abbrev WriterStack (W : Type) [SignatureSchemes] [Brotli] : Type :=
  OptionalLayer (EncryptionWriterStack W) (CompressionLayerWriter (EncryptionWriterStack W))

namespace ArchiveWriter

variable {W : Type} [Patience] [SignatureSchemes] [Write Error W]

def enableSignature (dest : RawLayerWriter W) (archiveHeaderHash : Bytes) :
    Option SignatureConfig → Except Error (SignatureWriterStack W)
  | some signatureConfig => do
      let layer ← SignatureLayerWriter.new dest signatureConfig archiveHeaderHash
      pure (.present layer)
  | none => pure (.absent dest)

variable [AesGcm] [Hkdf] [Kem]

def enableEncryption (dest : SignatureWriterStack W) :
    Option EncryptionConfig → Except Error (EncryptionWriterStack W)
  | some encryptionConfig => do
      let layer ← EncryptionLayerWriter.new dest encryptionConfig
      pure (.present layer)
  | none => pure (.absent dest)

variable [Brotli]

omit [Hkdf] [Kem] in
def enableCompression (dest : EncryptionWriterStack W) :
    Option CompressionConfig → Except Error (WriterStack W)
  | some cfg => do
      let layer ← CompressionLayerWriter.new dest cfg
      pure (.present layer)
  | none => pure (.absent dest)

/-- All layers of `from_config`, below the one that counts. -/
def enableLayers (dest : W) (config : ArchiveWriterConfig) : Except Error (WriterStack W) := do
  let (dest, archiveHeaderHash) ← writeArchiveHeader dest
  let dest ← enableSignature dest archiveHeaderHash config.signature
  let dest ← enableEncryption dest config.encryption
  enableCompression dest config.compression

def fromConfig (dest : W) (config : ArchiveWriterConfig) :
    Except Error (ArchiveWriter (WriterStack W)) := do
  let dest ← enableLayers dest config
  fromLayers dest

def new (dest : W) (encryptionPublicKeys : List MLAEncryptionPublicKey)
    (signingPrivateKeys : List MLASigningPrivateKey) (rng : Kem.Rng)
    (signatureRng : SignatureSchemes.Rng) : Except Error (ArchiveWriter (WriterStack W)) := do
  let config ← (ArchiveWriterConfig.withEncryptionWithSignature encryptionPublicKeys
    signingPrivateKeys rng signatureRng).mapError Error.ofConfig
  fromConfig dest config

end ArchiveWriter

/-! ## What a stack does -/

/-- `Holds` says what a stack was given: up to `n` bytes it takes, and ended it has its destination
hold what it makes of them. -/
structure Ends {W ω : Type} [LayerWriter W ω] (Got : W → Bytes → Prop) (n : ℕ)
    (Holds : ω → Bytes → Prop) (Made : Bytes → Bytes → Prop) : Prop where
  appends : Appends Holds
  accepts : Accepts n Holds
  finalize : ∀ {s P}, Holds s P → P.length ≤ n →
    ∃ w X, LayerWriter.finalize s = .ok w ∧ Got w X ∧ Made P X

section Optional

variable {W σ τ : Type} [LayerWriter W σ] [LayerWriter W τ] {Got : W → Bytes → Prop} {n : ℕ}
  {Made : Bytes → Bytes → Prop}

namespace OptionalLayer

/-- What is on top was given some bytes. -/
def Holds (below : σ → Bytes → Prop) (above : τ → Bytes → Prop) : OptionalLayer σ τ → Bytes → Prop
  | .absent inner, P => below inner P
  | .present layer, P => above layer P

theorem ends {below : σ → Bytes → Prop} {above : τ → Bytes → Prop} (h : Ends Got n below Made)
    (h' : Ends Got n above Made) : Ends Got n (Holds below above) Made where
  appends :=
    { ok := fun {s s' acc buf k} hs hne hwrite => by
        rcases onTop_eq_ok.mp hwrite with ⟨t, t', rfl, hrun, rfl⟩ | ⟨t, t', rfl, hrun, rfl⟩
        · exact h.appends.ok hs hne hrun
        · exact h'.appends.ok hs hne hrun
      interrupted := fun {s s' acc buf e} hs hne hwrite hint => by
        rcases onTop_eq_error.mp hwrite with ⟨t, t', rfl, hrun, rfl⟩ | ⟨t, t', rfl, hrun, rfl⟩
        · exact h.appends.interrupted hs hne hrun hint
        · exact h'.appends.interrupted hs hne hrun hint }
  accepts := by
    intro s acc buf hs hne hn
    cases s with
    | absent inner =>
        obtain ⟨k, t, hrun, hk⟩ := h.accepts hs hne hn
        exact ⟨k, .absent t, onTop_eq_ok.mpr (.inl ⟨inner, t, rfl, hrun, rfl⟩), hk⟩
    | present layer =>
        obtain ⟨k, t, hrun, hk⟩ := h'.accepts hs hne hn
        exact ⟨k, .present t, onTop_eq_ok.mpr (.inr ⟨layer, t, rfl, hrun, rfl⟩), hk⟩
  finalize {s P} hs hn := by
    cases s with
    | absent inner => exact h.finalize hs hn
    | present layer => exact h'.finalize hs hn

end OptionalLayer

variable (ω : Type) [LayerWriter W ω] in
theorem Ends.never : Ends (ω := ω) Got n (fun _ _ => False) Made :=
  ⟨⟨fun h => h.elim, fun h => h.elim⟩, fun h => h.elim, fun h => h.elim⟩

end Optional

/-! ## The layers -/

section Raw

variable {W : Type} [Patience] [Write Error W] {Got : W → Bytes → Prop} {n : ℕ} {base : Bytes}

omit [Patience] in
theorem RawLayerWriter.ends (happ : Appends Got) (haccepts : ∀ n, Accepts n Got) (base : Bytes)
    (n : ℕ) : Ends Got n (fun (s : RawLayerWriter W) P => Got s.inner (base ++ P))
      fun P X => X = base ++ P where
  appends := RawLayerWriter.appends (happ.behind base)
  accepts := by
    intro s acc buf hs hne hn
    have hbelow : Accepts (base.length + n) Got := haccepts _
    have hbehind : Accepts n fun (w : W) P => Got w (base ++ P) := hbelow.behind
    exact RawLayerWriter.forwards.accepts hbehind hs hne hn
  finalize {s P} hs _ := ⟨s.inner, base ++ P, rfl, hs, rfl⟩

omit [Patience] in
theorem HashWrapperWriter.record_write {ω : Type} [Write Error ω] {buf : Bytes} {k : ℕ}
    {s s' : HashWrapperWriter ω} (h : Write.write buf s = .ok k s') : s'.hash = s.hash ++ buf := by
  change HashWrapperWriter.write buf s = .ok k s' at h
  obtain ⟨u, s₁, hset, hzoom⟩ := bind_eq_ok.mp h
  obtain ⟨-, rfl⟩ := EStateM.Result.ok.inj hset
  obtain ⟨inner, -, rfl⟩ := zoom_eq_ok.mp hzoom
  rfl

/-- The header of the archive is written, and hashed where all buffers are taken whole. -/
theorem writeArchiveHeader_eq (happ : Appends Got) (haccepts : ∀ n, Accepts n Got) {dest : W}
    (hdest : Got dest []) :
    ∃ raw hash, writeArchiveHeader dest = .ok (raw, hash) ∧ Got raw.inner ArchiveHeader.encode ∧
      (TakesWhole Got → hash = ArchiveHeader.encode) := by
  have hforwards := HashWrapperWriter.forwards (ω := RawLayerWriter W)
  have happ' := hforwards.appends (RawLayerWriter.appends happ)
  have hemits := ArchiveHeader.emits (ω := HashWrapperWriter (RawLayerWriter W)) ⟨mlaFormatVersion⟩
  obtain ⟨s, hrun⟩ := hemits.accept happ' (hforwards.accepts (RawLayerWriter.accepts (haccepts 13)))
    (s := ⟨⟨dest⟩, []⟩) hdest (by decide) (by decide)
  have hgot : Got s.inner.inner ([] ++ ArchiveHeader.encode) := (hemits.ok happ' hdest hrun).2
  refine ⟨s.inner, s.hash, Except.bind_eq_ok.mpr ⟨(13, s), runOn_eq_ok.mpr hrun, rfl⟩, hgot,
    fun hwhole => ?_⟩
  have hrecord := hforwards.appends_record (RawLayerWriter.appends happ)
    (RawLayerWriter.forwards.takesWhole hwhole) HashWrapperWriter.record_write
  have hboth : Got s.inner.inner ([] ++ ArchiveHeader.encode) ∧ s.hash = [] ++ ArchiveHeader.encode :=
    (hemits.ok hrecord ⟨hdest, rfl⟩ hrun).2
  exact hboth.2

end Raw

section Signature

variable {W : Type} [Patience] [Sha512] [SignatureSchemes] [Write Error W] {Got : W → Bytes → Prop}
  {n : ℕ} {base : Bytes} {config : SignatureConfig}

namespace SignatureLayerWriter

omit [Patience] [Sha512] in
theorem record_write {ω : Type} [Write Error ω] {buf : Bytes} {k : ℕ} {s s' : SignatureLayerWriter ω}
    (h : Write.write buf s = .ok k s') :
    s'.hash = s.hash ++ buf ∧ s'.signatureConfig = s.signatureConfig := by
  change write buf s = .ok k s' at h
  obtain ⟨u, s₁, hset, hzoom⟩ := bind_eq_ok.mp h
  obtain ⟨-, rfl⟩ := EStateM.Result.ok.inj hset
  obtain ⟨inner, -, rfl⟩ := zoom_eq_ok.mp hzoom
  exact ⟨rfl, rfl⟩

/-- The layer has passed on what it was given, and has hashed it behind `base`. -/
def Signing (Got : W → Bytes → Prop) (base : Bytes) (config : SignatureConfig)
    (s : SignatureLayerWriter (RawLayerWriter W)) (P : Bytes) : Prop :=
  (Got s.inner.inner (base ++ P) ∧ s.hash = base ++ P) ∧ s.signatureConfig = config

/-- A hash can be signed with all keys. -/
def Signs (config : SignatureConfig) : Prop :=
  ∀ hash, (signatureBytes hash config.signatureKeys config.rng).isSome

omit [Patience] [Sha512] in
theorem appends_signing (happ : Appends Got) (hwhole : TakesWhole Got) (base : Bytes)
    (config : SignatureConfig) : Appends (Signing Got base config) := by
  have hrecord := forwards.appends_record (RawLayerWriter.appends happ)
    (RawLayerWriter.forwards.takesWhole hwhole) fun h => (record_write h).1
  constructor
  · intro s s' acc buf k hs hne hwrite
    obtain ⟨hle, hs'⟩ := (hrecord.behind base).ok hs.1 hne hwrite
    exact ⟨hle, hs', (record_write hwrite).2.trans hs.2⟩
  · intro s s' acc buf e hs hne hwrite _
    obtain ⟨inner', hall⟩ := hwhole _ _ buf hs.1.1 hne
    cases (RawLayerWriter.forwards.error (forwards.error hwrite)).symm.trans hall

theorem ends (happ : Appends Got) (hwhole : TakesWhole Got) (hsigns : Signs config)
    (hkeys : 4695 * config.signatureKeys.length + 8 < u64Size) (base : Bytes) (n : ℕ) :
    Ends Got n (Signing Got base config) fun P X => ∃ bytes,
      signatureBytes (base ++ P) config.signatureKeys config.rng = some bytes ∧
        X = base ++ P ++ signatureTail bytes where
  appends := appends_signing happ hwhole base config
  accepts := by
    intro s acc buf hs hne _
    have hbelow : Accepts ((base ++ acc).length + buf.length) Got := hwhole.accepts _
    have hraw : Accepts ((base ++ acc).length + buf.length) fun (s : RawLayerWriter W) acc =>
        Got s.inner acc := RawLayerWriter.accepts hbelow
    exact forwards.accepts hraw hs.1.1 hne (Nat.le_refl _)
  finalize {s P} hs _ := by
    obtain ⟨⟨hgot, hhash⟩, rfl⟩ := hs
    obtain ⟨bytes, hbytes⟩ := Option.isSome_iff_exists.mp (hsigns (base ++ P))
    have hlength := length_signatureBytes _ hbytes
    obtain ⟨w, hrun⟩ := writeSignatures_accept happ (hwhole.accepts _) hgot hbytes (Nat.le_refl _)
      (by omega)
    obtain ⟨bytes', hbytes', -, hw⟩ := writeSignatures_ok happ hgot hrun
    obtain rfl := Option.some.inj (hbytes.symm.trans hbytes')
    rw [← hhash] at hrun
    exact ⟨w, _, Except.bind_eq_ok.mpr ⟨s.inner.inner, rfl, Except.bind_eq_ok.mpr
      ⟨((), w), runOn_eq_ok.mpr hrun, rfl⟩⟩, hw, bytes, hbytes, rfl⟩

omit [Sha512] in
theorem new_signing (happ : Appends Got) (hwhole : TakesWhole Got) {raw : RawLayerWriter W}
    (hraw : Got raw.inner base) (config : SignatureConfig) :
    ∃ s, new raw config base = .ok s ∧
      Signing Got (base ++ (signatureLayerMagic ++ emptyOptsSerialization)) config s [] := by
  have hforwards := HashWrapperWriter.forwards (ω := RawLayerWriter W)
  have hrecord := hforwards.appends_record (RawLayerWriter.appends happ)
    (RawLayerWriter.forwards.takesWhole hwhole) HashWrapperWriter.record_write
  have hemits := (Emits.put (ω := HashWrapperWriter (RawLayerWriter W)) signatureLayerMagic).seq
    emits_opts
  obtain ⟨s, hrun⟩ := hemits.accept hrecord (n := base.length + 9) (by
      intro s acc buf hs hne _
      exact hforwards.accepts (RawLayerWriter.accepts (hwhole.accepts (acc.length + buf.length))) hs.1
        hne (Nat.le_refl _))
    (s := ⟨raw, base⟩) ⟨hraw, rfl⟩ (Nat.le_refl _) (by decide)
  obtain ⟨-, hgot, hhash⟩ := hemits.ok hrecord ⟨hraw, rfl⟩ hrun
  refine ⟨⟨s.inner, config, s.hash⟩, Except.bind_eq_ok.mpr ⟨(1, s), runOn_eq_ok.mpr hrun, rfl⟩, ⟨?_, ?_⟩,
    rfl⟩
  · rw [List.append_nil]
    exact hgot
  · rw [List.append_nil]
    exact hhash

end SignatureLayerWriter

end Signature

section Encryption

variable {W ω : Type} [Patience] [AesGcm] [LayerWriter W ω] {Got : W → Bytes → Prop} {m n : ℕ}
  {Below : ω → Bytes → Prop} {Made : Bytes → Bytes → Prop} {config : InternalEncryptionConfig}

namespace EncryptionLayerWriter

open InternalEncryptionLayerWriter (Keeps)

/-- Room for the layer around `n` bytes, behind its header. -/
def room (headerLen n : ℕ) : ℕ := headerLen + 2 * n + 131204

variable [Hkdf] [Kem] {persistentConfig : EncryptionPersistentConfig}

omit [Hkdf] in
theorem ends (h : Ends Got m Below Made) (hn : n < i64Size)
    (hm : room (header persistentConfig).length n ≤ m) :
    Ends Got n (Keeps config Below (header persistentConfig) : EncryptionLayerWriter ω → Bytes → Prop)
      fun P X => Made (EncryptionLayerReader.written persistentConfig config P) X where
  appends := InternalEncryptionLayerWriter.appends h.appends
  accepts := InternalEncryptionLayerWriter.accepts h.appends h.accepts hn (by
    rw [room] at hm
    omega)
  finalize {s P} hs hle := by
    rw [room] at hm
    rw [i64Size_eq] at hn
    obtain ⟨hfirst, -, -⟩ := lastChunk_spec P
    obtain ⟨s', hrun⟩ := InternalEncryptionLayerWriter.Opened.finalizeLayer_accept h.appends h.accepts
      hs (by rw [u64Size_eq]; omega) (by omega)
    have hgot := InternalEncryptionLayerWriter.Opened.finalizeLayer_ok h.appends hs hrun
    rw [InternalEncryptionLayerWriter.endOf_lastChunk] at hgot
    have hwritten : header persistentConfig ++ config.encStream P =
        EncryptionLayerReader.written persistentConfig config P := rfl
    have hlength := config.length_encBody P
    obtain ⟨w, X, hfinalize, hw, hX⟩ := h.finalize hgot (by
      rw [hwritten, EncryptionLayerReader.length_written]
      omega)
    exact ⟨w, X, by rw [finalize_eq, hrun]; exact hfinalize, hw, hX⟩

theorem new_keeps {encryptionConfig : EncryptionConfig} (h : Ends Got m Below Made)
    (hconfig : encryptionConfig.toPersistent = .ok (persistentConfig, config))
    (hm : room (header persistentConfig).length n ≤ m)
    (hlen : (header persistentConfig).length + 16 < u64Size) {inner : ω} (hinner : Below inner []) :
    ∃ s, new inner encryptionConfig = .ok s ∧ Keeps config Below (header persistentConfig) s [] := by
  rw [room] at hm
  obtain ⟨s, hnew⟩ := new_accept h.appends h.accepts hinner hconfig
    (by rw [List.length_nil]; omega) hlen
  exact ⟨s, hnew, keeps_new h.appends hinner hconfig hnew⟩

end EncryptionLayerWriter

end Encryption

section Compression

variable {W ω : Type} [Patience] [Brotli] [LayerWriter W ω] {Got : W → Bytes → Prop} {m n cap : ℕ}
  {Below : ω → Bytes → Prop} {Made : Bytes → Bytes → Prop} {level : ℕ} {base P buf : Bytes}

namespace CompressorWriter

omit [Patience] in
/-- The whole buffer of a call is taken. -/
theorem write_ok [Patience] [Write Error ω] {k : ℕ} {s s' : CompressorWriter ω}
    (h : write buf s = .ok k s') : k = buf.length := by
  rw [write] at h
  split at h
  · exact (EStateM.Result.ok.inj h).1.symm
  · cases h

end CompressorWriter

namespace CompressionLayerWriter

/-- Room for the layer around `n` bytes. -/
def room (cap n : ℕ) : ℕ := n + (cap + 4) * (n / uncompressedDataSize + 2) + 38

/-- As long as it is not too long, what was given is kept. -/
def Within (n level : ℕ) (Below : ω → Bytes → Prop) (s : CompressionLayerWriter ω) (P : Bytes) : Prop :=
  P.length ≤ n → Keeps level Below header s P

theorem write_le [Write Error ω] {k : ℕ} {s s' : CompressionLayerWriter ω}
    (h : write buf s = .ok k s') : k ≤ buf.length := by
  have hready : ∀ {inner : ω} {s s' : CompressionLayerWriter ω}, writeReady inner buf s = .ok k s' →
      k ≤ buf.length := by
    intro inner s s' hrun
    rw [writeReady] at hrun
    split at hrun
    · rename_i written compress hwrite
      obtain ⟨rfl, -⟩ := EStateM.Result.ok.inj hrun
      rw [CompressorWriter.write_ok hwrite, List.length_take]
      exact Nat.min_le_right _ _
    · cases hrun
  rw [write] at h
  split at h
  · exact hready h
  · split at h
    · cases h
    · split at h
      · exact hready h
      · dsimp only at h
        split at h
        · rename_i writtenAdd compress hwrite
          obtain ⟨rfl, -⟩ := EStateM.Result.ok.inj h
          rw [CompressorWriter.write_ok hwrite, List.length_take]
          exact Nat.min_le_right _ _
        · cases h
  · cases h

omit [Patience] in
theorem Holds.length_eq {s : CompressionLayerWriter ω} {blocks : List (List Bytes)}
    (h : Holds level Below base s blocks) : blocks.length =
      (blocks.flatten.flatten.length + (uncompressedDataSize - 1)) / uncompressedDataSize := by
  rw [← length_piecesOf, ← h.map_flatten, List.length_map]

/-- A call on a writer that was not given too much. -/
theorem Keeps.write_within [Write Error ω] {s : CompressionLayerWriter ω} (happ : Appends Below)
    (hcap : Brotli.Bounded cap) (haccepts : Accepts m Below) (hm : room cap n ≤ m)
    (h : Keeps level Below header s P) (hP : P.length ≤ n) (hne : buf ≠ []) :
    ∃ k s', Write.write buf s = .ok k s' ∧ 0 < k ∧ k ≤ buf.length ∧
      Keeps level Below header s' (P ++ buf.take k) := by
  obtain ⟨blocks, hholds, rfl⟩ := h
  have hcount := hholds.length_eq
  have hblocks : blocks.length + 1 ≤ n / uncompressedDataSize + 2 := by
    rw [uncompressedDataSize_eq] at hcount ⊢
    omega
  have hroom : (cap + 4) * (blocks.length + 1) ≤ (cap + 4) * (n / uncompressedDataSize + 2) :=
    Nat.mul_le_mul_left _ hblocks
  have hheader : header.length = 9 := rfl
  rw [room] at hm
  rw [Nat.add_mul] at hroom
  obtain ⟨k, s', blocks', hrun, hk, hle, hholds', hflat, -⟩ :=
    hholds.write_eq happ hcap haccepts (by omega) hne
  exact ⟨k, s', hrun, hk, hle, blocks', hholds', hflat⟩

theorem appends_within [Write Error ω] (happ : Appends Below) (hcap : Brotli.Bounded cap)
    (haccepts : Accepts m Below) (hm : room cap n ≤ m) : Appends (Within n level Below) where
  ok {s s' acc buf k} hs hne hwrite := by
    refine ⟨write_le hwrite, fun hlen => ?_⟩
    rw [List.length_append] at hlen
    have hacc : acc.length ≤ n := by omega
    obtain ⟨k', s'', hrun, -, -, hs''⟩ :=
      (hs hacc).write_within happ hcap haccepts hm hacc hne
    obtain ⟨rfl, rfl⟩ := EStateM.Result.ok.inj (hrun.symm.trans hwrite)
    exact hs''
  interrupted {s s' acc buf e} hs hne hwrite _ := by
    intro hacc
    obtain ⟨k', s'', hrun, -⟩ := (hs hacc).write_within happ hcap haccepts hm hacc hne
    cases hrun.symm.trans hwrite

theorem accepts_within [Write Error ω] (happ : Appends Below) (hcap : Brotli.Bounded cap)
    (haccepts : Accepts m Below) (hm : room cap n ≤ m) : Accepts n (Within n level Below) := by
  intro s acc buf hs hne hn
  have hacc : acc.length ≤ n := by omega
  obtain ⟨k, s', hrun, hk, -⟩ := (hs hacc).write_within happ hcap haccepts hm hacc hne
  exact ⟨k, s', hrun, hk⟩

/-- The layer that the writer makes of `P`. -/
def Packs (level : ℕ) (P D : Bytes) : Prop :=
  ∃ (blocks : List (List Bytes)) (L : Bytes),
    L = blocks.flatMap (Brotli.compressBlock level) ++ (sizesInfoOf level blocks).footer ∧
      (P ≠ [] → CompressionLayerReader.Packed level L P blocks) ∧ D = header ++ L

theorem ends (h : Ends Got m Below Made) (hcap : Brotli.Bounded cap) (hn : n < i64Size)
    (hm : room cap n ≤ m) (level : ℕ) :
    Ends Got n (Within n level Below : CompressionLayerWriter ω → Bytes → Prop) fun P X =>
      ∃ D, Packs level P D ∧ Made D X where
  appends := appends_within h.appends hcap h.accepts hm
  accepts := accepts_within h.appends hcap h.accepts hm
  finalize {s P} hs hle := by
    obtain ⟨blocks, hholds, rfl⟩ := hs hle
    have hcount := hholds.length_eq
    have hblocks : blocks.length ≤ n / uncompressedDataSize + 1 := by
      rw [uncompressedDataSize_eq] at hcount ⊢
      omega
    have hroom : (cap + 4) * blocks.length ≤ (cap + 4) * (n / uncompressedDataSize + 2) :=
      Nat.mul_le_mul_left _ (by omega)
    have hheader : header.length = 9 := rfl
    have hsmall : ∀ b ∈ blocks, b.flatten.length ≤ uncompressedDataSize := by
      intro b hb
      have hpiece : b.flatten ∈ piecesOf uncompressedDataSize blocks.flatten.flatten := by
        rw [← hholds.map_flatten]
        exact List.mem_map_of_mem hb
      obtain ⟨i, -, hi⟩ := List.mem_map.mp hpiece
      rw [← hi, length_slice]
      exact Nat.min_le_left _ _
    have hbody := Brotli.length_flatMap_compressBlock_le hcap level hsmall
    have hfooter := (sizesInfoOf level blocks).length_footer
    have hsizes : (sizesInfoOf level blocks).compressedSizes.length = blocks.length := List.length_map _
    rw [room] at hm
    rw [Nat.add_mul] at hroom
    rw [i64Size_eq] at hn
    obtain ⟨inner, hrun, hinner⟩ := hholds.finalizeLayer_eq h.appends hcap h.accepts (by omega)
      (by rw [uncompressedDataSize_eq] at hcount; rw [u64Size_eq]; omega)
    obtain ⟨w, X, hfinalize, hw, hX⟩ := h.finalize hinner (by
      rw [List.length_append, List.length_append]
      omega)
    obtain ⟨hlast, -, hlastLe⟩ := hholds.lastBlockSize
    refine ⟨w, X, Except.bind_eq_ok.mpr ⟨inner, hrun, hfinalize⟩, hw, _, ⟨blocks, _, rfl, fun hne => ?_,
      rfl⟩, hX⟩
    refine ⟨hne, hholds.map_flatten, ⟨_, fun hnil => ?_, rfl⟩, hlast, hlastLe, ?_⟩
    · rw [hnil, List.length_nil] at hfooter
      omega
    · rw [i64Size_eq]
      omega

theorem new_within (h : Ends Got m Below Made) (hm : room cap n ≤ m) (config : CompressionConfig)
    {inner : ω} (hinner : Below inner []) :
    ∃ s, new inner config = .ok s ∧ Within n config.compressionLevel Below s [] := by
  have hemits : Emits (do put compressionLayerMagic; Opts.dump : EStateM Error ω ℕ) header 1 :=
    (Emits.put compressionLayerMagic).seq emits_opts
  have hheader : header.length = 9 := rfl
  rw [room] at hm
  obtain ⟨inner', hrun⟩ := hemits.accept h.appends h.accepts hinner
    (by rw [List.length_nil]; omega) (by rw [hheader]; decide)
  refine ⟨newSkipHeader inner' config, by rw [new, hrun], fun _ => ?_⟩
  exact keeps_newSkipHeader (hemits.ok h.appends hinner hrun).2 config

end CompressionLayerWriter

end Compression

/-! ## All layers -/

namespace ArchiveWriterConfig

section Makes

variable [AesGcm] [Hkdf] [Kem] [Sha512] [SignatureSchemes] [Brotli] (config : ArchiveWriterConfig)

/-- What the layer of compression makes of the entries, if there is one. -/
def Compresses (P D : Bytes) : Prop :=
  match config.compression with
  | some cfg => CompressionLayerWriter.Packs cfg.compressionLevel P D
  | none => D = P

def Encrypts (D I : Bytes) : Prop :=
  match config.encryption with
  | some encryptionConfig => ∃ persistentConfig internalConfig,
      encryptionConfig.toPersistent = .ok (persistentConfig, internalConfig) ∧
        I = EncryptionLayerReader.written persistentConfig internalConfig D
  | none => I = D

def Signs (I Y : Bytes) : Prop :=
  match config.signature with
  | some signatureConfig => ∃ bytes, SignatureLayerWriter.signatureBytes
      (ArchiveHeader.encode ++ (signatureLayerMagic ++ emptyOptsSerialization) ++ I)
      signatureConfig.signatureKeys signatureConfig.rng = some bytes ∧
        Y = SignatureLayerReader.written I bytes
  | none => Y = I

/-- `X` is what the layers make of the entries `P`, behind the header of the archive. -/
def Makes (P X : Bytes) : Prop :=
  ∃ D I Y, config.Compresses P D ∧ config.Encrypts D I ∧ config.Signs I Y ∧
    X = ArchiveHeader.encode ++ Y

/-- The secret of the archive can be encapsulated for all recipients. -/
def Encapsulates : Prop :=
  ∀ encryptionConfig, config.encryption = some encryptionConfig →
    ∃ r, encryptionConfig.toPersistent = .ok r

/-- Whatever is hashed can be signed with all keys. -/
def CanSign : Prop :=
  ∀ signatureConfig, config.signature = some signatureConfig →
    SignatureLayerWriter.Signs signatureConfig

end Makes

section Room

variable [Kem] [SignatureSchemes] (config : ArchiveWriterConfig)

/-- Room for `n` bytes that were compressed, or were not. -/
def compressionRoom (cap n : ℕ) : ℕ :=
  match config.compression with
  | some _ => CompressionLayerWriter.room cap n
  | none => n

def encryptionRoom (n : ℕ) : ℕ :=
  match config.encryption with
  | some encryptionConfig =>
      EncryptionLayerWriter.room (99 + 1648 * encryptionConfig.publicKeys.keys.length) n
  | none => n

def signatureRoom (n : ℕ) : ℕ :=
  match config.signature with
  | some signatureConfig => n + 4695 * signatureConfig.signatureKeys.length + 34
  | none => n

/-- An archive of `n` bytes of entries is not longer than this. -/
def room (cap n : ℕ) : ℕ :=
  config.signatureRoom (config.encryptionRoom (config.compressionRoom cap n)) + 30

theorem le_compressionRoom (cap n : ℕ) : n ≤ config.compressionRoom cap n := by
  rw [compressionRoom]
  split
  · rw [CompressionLayerWriter.room, Nat.add_assoc]
    exact Nat.le_add_right _ _
  · exact Nat.le_refl n

theorem le_encryptionRoom (n : ℕ) : n ≤ config.encryptionRoom n := by
  rw [encryptionRoom]
  split
  · rw [EncryptionLayerWriter.room]
    omega
  · exact Nat.le_refl n

theorem le_signatureRoom (n : ℕ) : n ≤ config.signatureRoom n := by
  rw [signatureRoom]
  split
  · omega
  · exact Nat.le_refl n

theorem encryptionRoom_mono {m n : ℕ} (h : m ≤ n) : config.encryptionRoom m ≤ config.encryptionRoom n := by
  rw [encryptionRoom, encryptionRoom]
  split
  · rw [EncryptionLayerWriter.room, EncryptionLayerWriter.room]
    omega
  · exact h

theorem signatureRoom_mono {m n : ℕ} (h : m ≤ n) : config.signatureRoom m ≤ config.signatureRoom n := by
  rw [signatureRoom, signatureRoom]
  split
  · omega
  · exact h

theorem le_room (cap n : ℕ) : n ≤ config.room cap n :=
  (config.le_compressionRoom cap n).trans ((config.le_encryptionRoom _).trans
    ((config.le_signatureRoom _).trans (Nat.le_add_right _ _)))

end Room

end ArchiveWriterConfig

section Mono

variable {W ω : Type} [LayerWriter W ω] {Got : W → Bytes → Prop} {m n : ℕ} {Holds : ω → Bytes → Prop}
  {Made Made' : Bytes → Bytes → Prop}

theorem Ends.mono (h : Ends Got m Holds Made) (hn : n ≤ m) (hmade : ∀ {P X}, Made P X → Made' P X) :
    Ends Got n Holds Made' where
  appends := h.appends
  accepts hs hne hle := h.accepts hs hne (hle.trans hn)
  finalize hs hle := by
    obtain ⟨w, X, hrun, hw, hX⟩ := h.finalize hs (hle.trans hn)
    exact ⟨w, X, hrun, hw, hmade hX⟩

end Mono

namespace ArchiveWriter

variable {W : Type} [Patience] [AesGcm] [Hkdf] [Kem] [Sha512] [SignatureSchemes] [Brotli]
  [Write Error W] {Got : W → Bytes → Prop} {m n cap : ℕ} {config : ArchiveWriterConfig}

omit [AesGcm] [Hkdf] [Brotli] in
theorem enableSignature_ends (happ : Appends Got) (haccepts : ∀ n, Accepts n Got)
    (hwhole : config.signature ≠ none → TakesWhole Got) (hsign : config.CanSign)
    (hroom : config.signatureRoom n < i64Size) {raw : RawLayerWriter W} {hash : Bytes}
    (hraw : Got raw.inner ArchiveHeader.encode)
    (hhash : TakesWhole Got → hash = ArchiveHeader.encode) :
    ∃ dest Holds, enableSignature raw hash config.signature = .ok dest ∧ Holds dest [] ∧
      Ends Got n Holds fun I X => ∃ Y, config.Signs I Y ∧ X = ArchiveHeader.encode ++ Y := by
  cases hsignature : config.signature with
  | none =>
      refine ⟨.absent raw, _, rfl, ?_, (OptionalLayer.ends (RawLayerWriter.ends happ haccepts
        ArchiveHeader.encode n) (Ends.never _)).mono (Nat.le_refl n) fun {I X} hX => ?_⟩
      · change Got raw.inner (ArchiveHeader.encode ++ [])
        rwa [List.append_nil]
      · refine ⟨I, ?_, hX⟩
        rw [ArchiveWriterConfig.Signs, hsignature]
  | some signatureConfig =>
      have hall := hwhole (by rw [hsignature]; exact Option.some_ne_none _)
      obtain rfl := hhash hall
      obtain ⟨layer, hnew, hlayer⟩ := SignatureLayerWriter.new_signing happ hall hraw signatureConfig
      rw [ArchiveWriterConfig.signatureRoom, hsignature, i64Size_eq] at hroom
      dsimp only at hroom
      have hends := SignatureLayerWriter.ends happ hall (hsign signatureConfig hsignature)
        (by rw [u64Size_eq]; omega)
        (ArchiveHeader.encode ++ (signatureLayerMagic ++ emptyOptsSerialization)) n
      refine ⟨.present layer, _, Except.bind_eq_ok.mpr ⟨layer, hnew, rfl⟩, hlayer,
        (OptionalLayer.ends (Ends.never _) hends).mono (Nat.le_refl n) fun {I X} hX => ?_⟩
      obtain ⟨bytes, hbytes, rfl⟩ := hX
      refine ⟨SignatureLayerReader.written I bytes, ?_, ?_⟩
      · rw [ArchiveWriterConfig.Signs, hsignature]
        exact ⟨bytes, hbytes, rfl⟩
      · simp only [SignatureLayerReader.written, List.append_assoc]

omit [Brotli] in
theorem enableEncryption_ends {Below : SignatureWriterStack W → Bytes → Prop}
    {Made : Bytes → Bytes → Prop} (h : Ends Got m Below Made) (hencapsulates : config.Encapsulates)
    (hm : m < i64Size) (hroom : config.encryptionRoom n ≤ m) {inner : SignatureWriterStack W}
    (hinner : Below inner []) :
    ∃ dest Holds, enableEncryption inner config.encryption = .ok dest ∧ Holds dest [] ∧
      Ends Got n Holds fun D X => ∃ I, config.Encrypts D I ∧ Made I X := by
  rw [ArchiveWriterConfig.encryptionRoom] at hroom
  cases hencryption : config.encryption with
  | none =>
      rw [hencryption] at hroom
      refine ⟨.absent inner, _, rfl, hinner, (OptionalLayer.ends h (Ends.never _)).mono hroom
        fun {D X} hX => ⟨D, ?_, hX⟩⟩
      rw [ArchiveWriterConfig.Encrypts, hencryption]
  | some encryptionConfig =>
      rw [hencryption] at hroom
      dsimp only at hroom
      obtain ⟨⟨persistentConfig, internalConfig⟩, hconfig⟩ := hencapsulates encryptionConfig hencryption
      obtain ⟨ss, csprng, hencapsulate, -⟩ := EncryptionConfig.toPersistent_secret hconfig
      have hrecipients := (encapsulate_wraps hencapsulate).length_eq
      have hheader := EncryptionLayerWriter.length_header persistentConfig
      rw [← hrecipients] at hheader
      rw [← hheader] at hroom
      have hbound := hroom
      rw [EncryptionLayerWriter.room] at hbound
      rw [i64Size_eq] at hm
      obtain ⟨layer, hnew, hlayer⟩ := EncryptionLayerWriter.new_keeps h hconfig hroom
        (by rw [u64Size_eq]; omega) hinner
      refine ⟨.present layer, _, Except.bind_eq_ok.mpr ⟨layer, hnew, rfl⟩, hlayer,
        (OptionalLayer.ends (Ends.never _) (EncryptionLayerWriter.ends h (by rw [i64Size_eq]; omega)
          hroom)).mono (Nat.le_refl n) fun {D X} hX =>
            ⟨EncryptionLayerReader.written persistentConfig internalConfig D, ?_, hX⟩⟩
      rw [ArchiveWriterConfig.Encrypts, hencryption]
      exact ⟨persistentConfig, internalConfig, hconfig, rfl⟩

omit [Hkdf] [Kem] in
theorem enableCompression_ends [Hkdf] [Kem] {config : ArchiveWriterConfig}
    {Below : EncryptionWriterStack W → Bytes → Prop} {Made : Bytes → Bytes → Prop}
    (h : Ends Got m Below Made) (hcap : Brotli.Bounded cap) (hn : n < i64Size)
    (hroom : config.compressionRoom cap n ≤ m) {inner : EncryptionWriterStack W}
    (hinner : Below inner []) :
    ∃ dest Holds, enableCompression inner config.compression = .ok dest ∧ Holds dest [] ∧
      Ends Got n Holds fun P X => ∃ D, config.Compresses P D ∧ Made D X := by
  rw [ArchiveWriterConfig.compressionRoom] at hroom
  cases hcompression : config.compression with
  | none =>
      rw [hcompression] at hroom
      refine ⟨.absent inner, _, rfl, hinner, (OptionalLayer.ends h (Ends.never _)).mono hroom
        fun {P X} hX => ⟨P, ?_, hX⟩⟩
      rw [ArchiveWriterConfig.Compresses, hcompression]
  | some cfg =>
      rw [hcompression] at hroom
      obtain ⟨layer, hnew, hlayer⟩ := CompressionLayerWriter.new_within h hroom cfg hinner
      refine ⟨.present layer, _, Except.bind_eq_ok.mpr ⟨layer, hnew, rfl⟩, hlayer,
        (OptionalLayer.ends (Ends.never _) (CompressionLayerWriter.ends h hcap hn hroom
          cfg.compressionLevel)).mono (Nat.le_refl n) fun {P X} hX => ?_⟩
      obtain ⟨D, hD, hX⟩ := hX
      refine ⟨D, ?_, hX⟩
      rw [ArchiveWriterConfig.Compresses, hcompression]
      exact hD

/-- The layers of a configuration are enabled, over a destination that takes what it is given. -/
theorem enableLayers_ends (happ : Appends Got) (haccepts : ∀ n, Accepts n Got)
    (hwhole : config.signature ≠ none → TakesWhole Got) (hcap : Brotli.Bounded cap)
    (hencapsulates : config.Encapsulates) (hsign : config.CanSign)
    (hroom : config.room cap n < i64Size) {dest : W} (hdest : Got dest []) :
    ∃ stack Holds, enableLayers dest config = .ok stack ∧ Holds stack [] ∧
      Ends Got n Holds config.Makes := by
  have hle := config.le_compressionRoom cap n
  have hle₁ := config.le_encryptionRoom (config.compressionRoom cap n)
  have hle₂ := config.le_signatureRoom (config.encryptionRoom (config.compressionRoom cap n))
  rw [ArchiveWriterConfig.room] at hroom
  obtain ⟨raw, hash, hheader, hraw, hhash⟩ := writeArchiveHeader_eq happ haccepts hdest
  obtain ⟨dest₁, Holds₁, hrun₁, hdest₁, hends₁⟩ :=
    enableSignature_ends happ haccepts hwhole hsign (n := config.encryptionRoom
      (config.compressionRoom cap n)) (by omega) hraw hhash
  obtain ⟨dest₂, Holds₂, hrun₂, hdest₂, hends₂⟩ :=
    enableEncryption_ends hends₁ hencapsulates (by omega) (Nat.le_refl _) hdest₁
  obtain ⟨dest₃, Holds₃, hrun₃, hdest₃, hends₃⟩ :=
    enableCompression_ends hends₂ hcap (by omega) (Nat.le_refl _) hdest₂
  refine ⟨dest₃, Holds₃, Except.bind_eq_ok.mpr ⟨(raw, hash), hheader, Except.bind_eq_ok.mpr
    ⟨dest₁, hrun₁, Except.bind_eq_ok.mpr ⟨dest₂, hrun₂, hrun₃⟩⟩⟩, hdest₃,
    hends₃.mono (Nat.le_refl n) fun {P X} hX => ?_⟩
  obtain ⟨D, hD, I, hI, Y, hY, hX⟩ := hX
  exact ⟨D, I, Y, hD, hI, hY, hX⟩

variable {σ : Type} [Sha256] [Read Error σ] {calls : List (WriterCall σ)}

/-- A writer is made over its layers; whatever journal without open entries it comes to stand for,
it is finalized to the archive of that journal. -/
theorem fromConfig_stream (happ : Appends Got) (haccepts : ∀ n, Accepts n Got)
    (hwhole : config.signature ≠ none → TakesWhole Got) (hcap : Brotli.Bounded cap)
    (hencapsulates : config.Encapsulates) (hsign : config.CanSign)
    (hroom : config.room cap n < i64Size) (hheader : entriesHeader.length ≤ n) {dest : W}
    (hdest : Got dest []) :
    ∃ s Holds, fromConfig dest config = .ok s ∧ Represents Holds [] s .empty ∧ Appends Holds ∧
      Accepts (([] : Bytes).length + n) Holds ∧ n < u64Size ∧
      ∀ {s' : ArchiveWriter (WriterStack W)} {j : Journal}, Represents Holds [] s' j → j.AllEnded →
        j.stream.length ≤ n →
        ∃ w X, finalize s' = .ok w ∧ Got w (X ++ archiveTail) ∧ config.Makes j.stream X := by
  obtain ⟨stack, Holds, henable, hstack, hends⟩ :=
    enableLayers_ends happ haccepts hwhole hcap hencapsulates hsign hroom hdest
  have hlen : n < u64Size := by
    have hle := config.le_room cap n
    rw [i64Size_eq] at hroom
    rw [u64Size_eq]
    omega
  have haccepts' : Accepts (([] : Bytes).length + n) Holds := by
    rw [List.length_nil, Nat.zero_add]
    exact hends.accepts
  obtain ⟨s, hmake, hrepresents⟩ := fromLayers_eq hends.appends haccepts' hlen hstack hheader
  refine ⟨s, Holds, Except.bind_eq_ok.mpr ⟨stack, henable, hmake⟩, hrepresents, hends.appends, haccepts',
    hlen, fun {s' j} hs' hended hfits => ?_⟩
  obtain ⟨last, hlast, hfinalize⟩ := hs'.finalize_ended (W := W) hends.appends haccepts' hlen hended hfits
  obtain ⟨w, X, hlayers, hw, hX⟩ := hends.finalize hlast hfits
  have htail := (Emits.put (ω := W) emptyTailOptsSerialization).seq (Emits.put endMlaMagic)
  obtain ⟨w', hrun⟩ := htail.accept happ (haccepts _) hw (Nat.le_refl _) (by decide)
  refine ⟨w', X, ?_, (htail.ok happ hw hrun).2, hX⟩
  rw [hfinalize]
  exact Except.bind_eq_ok.mpr ⟨w, hlayers, Except.bind_eq_ok.mpr ⟨((), w'), runOn_eq_ok.mpr hrun, rfl⟩⟩

/-- The archive that is written by any calls, when all entries are ended. -/
theorem fromConfig_finalize (happ : Appends Got) (haccepts : ∀ n, Accepts n Got)
    (hwhole : config.signature ≠ none → TakesWhole Got) (hcap : Brotli.Bounded cap)
    (hencapsulates : config.Encapsulates) (hsign : config.CanSign)
    (hended : (Journal.run calls).2.AllEnded)
    (hroom : config.room cap (Journal.run calls).2.stream.length < i64Size) {dest : W}
    (hdest : Got dest []) :
    ∃ s w X, fromConfig dest config = .ok s ∧
      (outcomes perform calls s).1 = (Journal.run calls).1 ∧
      finalize (outcomes perform calls s).2 = .ok w ∧ Got w (X ++ archiveTail) ∧
      config.Makes (Journal.run calls).2.stream X := by
  have hfits : (Journal.run calls).2.Fits (Journal.run calls).2.stream.length :=
    (Journal.run calls).2.fits_stream
  have hheader : entriesHeader.length ≤ (Journal.run calls).2.stream.length :=
    Nat.le_trans (Journal.run calls).2.length_entriesHeader_le hfits
  obtain ⟨s, Holds, hmake, hrepresents, happ', haccepts', hlen, hmakes⟩ :=
    fromConfig_stream happ haccepts hwhole hcap hencapsulates hsign hroom hheader hdest
  obtain ⟨houtcomes, hs'⟩ := outcomes_simulate (simulates_perform happ' haccepts' hlen) calls
    hrepresents hfits
  obtain ⟨w, X, hfinalize, hw, hX⟩ := hmakes hs' hended (Nat.le_refl _)
  exact ⟨s, w, X, hmake, houtcomes, hfinalize, hw, hX⟩

end ArchiveWriter

end Mla
