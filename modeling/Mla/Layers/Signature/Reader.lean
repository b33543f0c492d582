import Mla.Crypto.HybridSignature
import Mla.Layers.Encrypt.Layer
import Mla.Layers.Signature.Writer

/-!
# Checking signatures

The signature layer of a reader finds its tail from the end of the archive, hashes what lies
before it, and checks the signatures of the tail against the hash. What the layer then shows
is what was hashed last: neither the lengths of the tail nor what follows are signed, but
they cannot make the two differ.
-/

namespace Mla

open Io

structure SignatureReaderConfig [SignatureSchemes] where
  signatureVerificationKeys : List MLASignatureVerificationPublicKey
  signatureCheck : Bool

structure SignatureLayerReader (σ : Type) where
  inner : StripHeadTailReader σ

namespace SignatureLayerReader

variable {σ α : Type} [Patience]

def onInner {ε : Type} (x : EStateM ε (StripHeadTailReader σ) α) :
    EStateM ε (SignatureLayerReader σ) α :=
  zoom SignatureLayerReader.inner (fun inner _ => ⟨inner⟩) x

/-- The layer below was prepared when the signatures were read. -/
instance instLayerReader [LayerReader σ] : LayerReader (SignatureLayerReader σ) where
  read n := onInner (Read.read n)
  seek w := onInner (Seek.seek w)
  initializeLayer := pure ()

/-- What is read of the layer before it is hashed: where its inner layer starts, the bytes of
the signatures, the length of the tail, and that of the layer. -/
def readTail [LayerReader σ] : EStateM Error σ (ℕ × Bytes × ℕ × ℕ) := do
  let sigInnerLayerPosition ← liftIo (Seek.seek (.current 0))
  let _ ← liftIo (Seek.seek (.fromEnd (-8)))
  let signatureDataSerializedVecLength ← deserializeU64
  let signatureDataOffsetFromEnd ← okOr (checkedAdd 8 signatureDataSerializedVecLength)
    .deserializationError
  let i64SignatureDataOffsetFromEnd ←
    okOr (i64CheckedSubUnsigned 0 signatureDataOffsetFromEnd) .deserializationError
  let _ ← liftIo (Seek.seek (.fromEnd i64SignatureDataOffsetFromEnd))
  let signatureData ← deserializeVec deserializeU8
  let signatureOptionsLengthOffsetFromEnd ← okOr (checkedAdd signatureDataOffsetFromEnd 8)
    .deserializationError
  let i64SignatureOptionsLengthOffsetFromEnd ←
    okOr (i64CheckedSubUnsigned 0 signatureOptionsLengthOffsetFromEnd) .deserializationError
  let _ ← liftIo (Seek.seek (.fromEnd i64SignatureOptionsLengthOffsetFromEnd))
  let signatureOptionsLength ← deserializeU64
  let sigLayerTailLen ← okOr (checkedAdd signatureOptionsLengthOffsetFromEnd
    signatureOptionsLength) .deserializationError
  let innerLen ← liftIo (Seek.seek (.fromEnd 0))
  let _ ← liftIo (Seek.seek (.start sigInnerLayerPosition))
  pure (sigInnerLayerPosition, signatureData, sigLayerTailLen, innerLen)

/-- A writer that drops what it is given. -/
structure Sink where

instance instWriteSink : Write Error Sink where
  write buf := pure buf.length

/-- `io::copy(src, &mut sink())`. -/
def copyToSink [Read Error σ] : Op Error σ Unit := fun s =>
  match copy (s, Sink.mk) with
  | .ok _ s' => .ok () s'.1
  | .error e s' => .error e s'.1

/-- Read the inner layer up to its end. The header of an encryption layer is kept. -/
def hashInnerLayer [Kem] [Read Error σ] : EStateM Error σ (Option EncryptionPersistentConfig) := do
  let nextLayerMagic ← readLayerMagic
  let config ←
    if nextLayerMagic = encryptionLayerMagic then do
      let (config, _) ← readEncryptionHeaderAfterMagic
      pure (some config)
    else pure none
  liftIo copyToSink
  pure config

section Signatures

variable [Sha512] [SignatureSchemes]

/-- Both kinds of signatures of the key are there for the hash. -/
def hasBothSignatures (signedHash : Bytes) (signatures : List MLASignature)
    (key : MLASignatureVerificationPublicKey) : Bool :=
  let verifiedSignatures := signatures.filter (key.verify signedHash)
  let traditionalSignatureVerified := verifiedSignatures.any fun
    | .mlaEd25519 _ => true
    | .mlaMlDsa87 _ => false
  let postQuantumSignatureVerified := verifiedSignatures.any fun
    | .mlaEd25519 _ => false
    | .mlaMlDsa87 _ => true
  traditionalSignatureVerified && postQuantumSignatureVerified

/-- `new_skip_magic` up to the hash: the view on the inner layer, the hash of all up to its
end, the configuration found on the way and the bytes of the signatures. -/
def readSigned [Kem] [LayerReader σ] (inner : σ) (archiveHeaderHash : Bytes) (check : Bool) :
    Except Error (StripHeadTailReader σ × Bytes × Option EncryptionPersistentConfig × Bytes) := do
  let (_, inner) ← runOn LayerReader.initializeLayer inner
  let (_, src) ← runOn Opts.fromReader (⟨inner, archiveHeaderHash⟩ : HashWrapperReader σ)
  let ((sigInnerLayerPosition, signatureData, sigLayerTailLen, innerLen), inner) ←
    runOn readTail src.inner
  let view ← StripHeadTailReader.new inner sigInnerLayerPosition sigLayerTailLen innerLen 0
  if check then do
    let (config, hashingSrc) ← runOn hashInnerLayer
      (⟨view, src.hash⟩ : HashWrapperReader (StripHeadTailReader σ))
    let (_, view) ← runOn (liftIo (Seek.seek (.start 0))) hashingSrc.inner
    pure (view, hashingSrc.hash, config, signatureData)
  else pure (view, src.hash, none, signatureData)

def newSkipMagic [Kem] [LayerReader σ] (inner : σ) (signatureReaderConfig : SignatureReaderConfig)
    (archiveHeaderHash : Bytes) :
    Except Error (SignatureLayerReader σ × List MLASignatureVerificationPublicKey ×
      Option EncryptionPersistentConfig) := do
  let (src, signedHash, config, signatureData) ←
    readSigned inner archiveHeaderHash signatureReaderConfig.signatureCheck
  if signatureReaderConfig.signatureCheck then do
    let signatures ← deserializeSignatures signatureData
    let keysWithValidSignatures := signatureReaderConfig.signatureVerificationKeys.filter
      (hasBothSignatures signedHash signatures)
    if keysWithValidSignatures.isEmpty then throw .noValidSignatureFound
    else pure (⟨src⟩, keysWithValidSignatures, config)
  else pure (⟨src⟩, [], config)

end Signatures

/-! ## What was hashed -/

section Signed

variable {S base : Bytes} {At : σ → ℕ → Prop} {s s' : σ} {p : ℕ}

/-- Nothing is kept of what is dropped. -/
def Dropped (_ : Sink) (_ : Bytes) : Prop := True

omit [Patience] in
theorem appends_sink : Appends Dropped where
  ok _ _ hwrite := by
    obtain ⟨rfl, -⟩ := EStateM.Result.ok.inj hwrite
    exact ⟨Nat.le_refl _, trivial⟩
  interrupted _ _ _ _ := trivial

/-- Where the bytes of the signatures are said to be: behind their own length, at a distance
from the end that the last 8 bytes give. -/
def signatureDataOf (S : Bytes) : Bytes :=
  let position := S.length - (8 + fromLeBytes (slice S (S.length - 8) 8))
  slice S (position + 8) (fromLeBytes (slice S position 8))

/-- The length of the tail that is read from the end, behind the bytes of the signatures. -/
def signatureTailLen (S : Bytes) : ℕ :=
  let offset := 8 + fromLeBytes (slice S (S.length - 8) 8) + 8
  offset + fromLeBytes (slice S (S.length - offset) 8)

theorem readTail_ok [LayerReader σ] (h : Moves S At) (hs : At s p) {r : ℕ × Bytes × ℕ × ℕ}
    (hrun : readTail s = .ok r s') :
    r = (p, signatureDataOf S, signatureTailLen S, S.length) ∧ At s' p ∧
      16 ≤ signatureTailLen S := by
  have hend : ∀ {t t' : σ} {q u n : ℕ} {d : ℤ}, At t q →
      liftIo (Seek.seek (.fromEnd d)) t = .ok u t' → d = -n → u = S.length - n ∧ At t' u := by
    intro t t' q u n d ht hseek hd
    obtain ⟨hu, hat⟩ := h.seekEnd ht (liftIo_eq_ok.mp hseek)
    exact ⟨by omega, hat⟩
  obtain ⟨position, s₁, hstep, hrun⟩ := bind_eq_ok.mp hrun
  obtain ⟨hposition, hs₁⟩ := h.seekCurrent hs (liftIo_eq_ok.mp hstep)
  obtain rfl : position = p := by omega
  obtain ⟨u₂, s₂, hstep, hrun⟩ := bind_eq_ok.mp hrun
  obtain ⟨rfl, hs₂⟩ := hend (n := 8) hs₁ hstep rfl
  obtain ⟨length, s₃, hlength, hrun⟩ := bind_eq_ok.mp hrun
  obtain ⟨hlength, -, hs₃⟩ := h.deserializeU64_ok hs₂ hlength
  obtain ⟨offset, hoffset, hrun⟩ := okOr_bind_eq_ok.mp hrun
  have hoffset := checkedAdd_eq hoffset
  obtain ⟨d, hd, hrun⟩ := okOr_bind_eq_ok.mp hrun
  have hd := i64CheckedSubUnsigned_eq hd
  obtain ⟨u₄, s₄, hseek, hrun⟩ := bind_eq_ok.mp hrun
  obtain ⟨hu₄, hs₄⟩ := hend (n := offset) hs₃ hseek (by omega)
  obtain ⟨data, s₅, hdata, hrun⟩ := bind_eq_ok.mp hrun
  obtain ⟨hdata, q, hs₅⟩ := h.deserializeByteVec_ok hs₄ hdata
  obtain ⟨optionsOffset, hoptions, hrun⟩ := okOr_bind_eq_ok.mp hrun
  have hoptions := checkedAdd_eq hoptions
  obtain ⟨d', hd', hrun⟩ := okOr_bind_eq_ok.mp hrun
  have hd' := i64CheckedSubUnsigned_eq hd'
  obtain ⟨u₆, s₆, hseek₆, hrun⟩ := bind_eq_ok.mp hrun
  obtain ⟨hu₆, hs₆⟩ := hend (n := optionsOffset) hs₅ hseek₆ (by omega)
  obtain ⟨optionsLength, s₇, hlen, hrun⟩ := bind_eq_ok.mp hrun
  obtain ⟨hlen, -, hs₇⟩ := h.deserializeU64_ok hs₆ hlen
  obtain ⟨tailLen, htail, hrun⟩ := okOr_bind_eq_ok.mp hrun
  have htail := checkedAdd_eq htail
  obtain ⟨innerLen, s₈, hseek₈, hrun⟩ := bind_eq_ok.mp hrun
  obtain ⟨hinnerLen, hs₈⟩ := hend (n := 0) hs₇ hseek₈ rfl
  obtain ⟨u₉, s₉, hseek₉, hrun⟩ := bind_eq_ok.mp hrun
  obtain ⟨-, hs₉⟩ := h.seekStart hs₈ (liftIo_eq_ok.mp hseek₉)
  obtain ⟨rfl, rfl⟩ := EStateM.Result.ok.inj hrun
  have hsize : tailLen = signatureTailLen S := by
    rw [htail, hlen, hu₆, hoptions, hoffset, hlength, signatureTailLen]
  refine ⟨?_, hs₉, ?_⟩
  · rw [hdata, hu₄, hoffset, hlength, hsize, hinnerLen, Nat.sub_zero, signatureDataOf]
  · rw [signatureTailLen]
    omega

/-- A copy that succeeds has reached the end. -/
theorem copyToSink_ok [Read Error σ] (h : Yields S At) (hS : S.length < u64Size) (hs : At s p)
    (hrun : copyToSink s = .ok () s') : ∃ q, At s' q ∧ S.length ≤ q := by
  rw [copyToSink] at hrun
  cases hcopy : copy (s, Sink.mk) with
  | error e t =>
      rw [hcopy] at hrun
      cases hrun
  | ok u t =>
      rw [hcopy] at hrun
      obtain ⟨-, rfl⟩ := EStateM.Result.ok.inj hrun
      obtain ⟨t, sink⟩ := t
      have hsink : Dropped Sink.mk [] := trivial
      obtain ⟨k, hat, -, hk, hlen, hend⟩ := h.copyTake_ok appends_sink hs hsink hcopy
      refine ⟨p + k, hat, ?_⟩
      rw [length_slice] at hlen
      omega

/-- The inner layer is hashed up to its end, whatever it is. -/
theorem hashInnerLayer_ok [Kem] [Read Error σ] (h : Yields S At) (hS : S.length < u64Size)
    (hs : At s p) {config : Option EncryptionPersistentConfig}
    (hrun : hashInnerLayer s = .ok config s') : ∃ q, At s' q ∧ S.length ≤ q := by
  obtain ⟨magic, s₁, hmagic, hrest⟩ := bind_eq_ok.mp hrun
  obtain ⟨-, -, hs₁⟩ := h.readExactly_ok hs hmagic
  have hcopy : ∀ {s₂ : σ} {q : ℕ} {found : Option EncryptionPersistentConfig}, At s₂ q →
      (do liftIo copyToSink; pure found : EStateM Error σ _) s₂ = .ok config s' →
      ∃ q, At s' q ∧ S.length ≤ q := by
    intro s₂ q found hs₂ hlast
    obtain ⟨u, s₃, hcopied, hend⟩ := bind_eq_ok.mp hlast
    obtain ⟨-, rfl⟩ := EStateM.Result.ok.inj hend
    exact copyToSink_ok h hS hs₂ (liftIo_eq_ok.mp hcopied)
  split at hrest
  · obtain ⟨⟨found, length⟩, s₂, hfound, hrest⟩ := bind_eq_ok.mp hrest
    obtain ⟨q, hs₂⟩ := reads_encryptionHeader.ok h hs₁ hfound
    exact hcopy hs₂ hrest
  · exact hcopy hs₁ hrest

/-- What `readSigned` shows lies between the options and the tail, and is what the hash was
given last. -/
theorem readSigned_ok [Kem] [LayerReader σ] (h : Moves S At) (hS : S.length < u64Size)
    (hprepared : ∀ {t t' : σ} {q}, At t q → LayerReader.initializeLayer t = .ok () t' → At t' q)
    (hs : At s p) {check : Bool} {hash data : Bytes} {view : StripHeadTailReader σ}
    {config : Option EncryptionPersistentConfig}
    (hrun : readSigned s (base ++ S.take p) check = .ok (view, hash, config, data)) :
    ∃ k, optsLength (S.drop p) = some k ∧ 16 ≤ signatureTailLen S ∧
      p + k + signatureTailLen S ≤ S.length ∧
      StripHeadTailReader.Shows S At (p + k) (signatureTailLen S) view 0 ∧
      data = signatureDataOf S ∧
      hash = base ++ S.take (if check then S.length - signatureTailLen S else p + k) := by
  obtain ⟨⟨u, s₁⟩, hinit, hrun⟩ := Except.bind_eq_ok.mp hrun
  have hs₁ := hprepared hs (runOn_eq_ok.mp hinit)
  obtain ⟨⟨u₂, src⟩, hopts, hrun⟩ := Except.bind_eq_ok.mp hrun
  obtain ⟨k, hk, hs₂, hhash⟩ := (HashWrapperReader.yields base h.toYields).opts_ok
    ⟨hs₁, rfl⟩ (runOn_eq_ok.mp hopts)
  obtain ⟨⟨⟨position, data', tailLen, innerLen⟩, s₃⟩, htail, hrun⟩ := Except.bind_eq_ok.mp hrun
  obtain ⟨hr, hs₃, h16⟩ := readTail_ok h hs₂ (runOn_eq_ok.mp htail)
  cases hr
  obtain ⟨view₀, hnew, hrun⟩ := Except.bind_eq_ok.mp hrun
  obtain ⟨hlen, rfl⟩ := StripHeadTailReader.new_ok hnew
  have hshows : StripHeadTailReader.Shows S At (p + k) (signatureTailLen S)
      ⟨s₃, p + k, signatureTailLen S, S.length, 0⟩ 0 :=
    ⟨hs₃, rfl, rfl, rfl, rfl, Nat.zero_le _⟩
  refine ⟨k, hk, h16, hlen, ?_⟩
  cases check with
  | false =>
      cases Except.ok.inj hrun
      exact ⟨hshows, rfl, hhash⟩
  | true =>
      have hview := StripHeadTailReader.moves h hlen
      have hlength := StripHeadTailReader.length_strip S (p + k) (signatureTailLen S)
      obtain ⟨⟨config', hashing⟩, hhashing, hrun⟩ := Except.bind_eq_ok.mp hrun
      have hstart : HashWrapperReader.Hashed (StripHeadTailReader.strip S (p + k)
          (signatureTailLen S)) (base ++ S.take (p + k))
          (StripHeadTailReader.Shows S At (p + k) (signatureTailLen S))
          ⟨⟨s₃, p + k, signatureTailLen S, S.length, 0⟩, src.hash⟩ 0 :=
        ⟨hshows, by rw [hhash, List.take_zero, List.append_nil]⟩
      obtain ⟨q, ⟨hs₄, hhashed⟩, hend⟩ := hashInnerLayer_ok
        (HashWrapperReader.yields (base ++ S.take (p + k)) hview.toYields) (by rw [hlength]; omega) hstart
        (runOn_eq_ok.mp hhashing)
      obtain ⟨⟨u₅, view₅⟩, hrewind, hrun⟩ := Except.bind_eq_ok.mp hrun
      obtain ⟨-, hs₅⟩ := hview.seekStart hs₄ (liftIo_eq_ok.mp (runOn_eq_ok.mp hrewind))
      cases Except.ok.inj hrun
      have hcut : p + k + (S.length - (p + k) - signatureTailLen S) =
          S.length - signatureTailLen S := by omega
      have hall : S.take (p + k) ++ StripHeadTailReader.strip S (p + k) (signatureTailLen S) =
          S.take (S.length - signatureTailLen S) := by
        rw [StripHeadTailReader.strip, take_append_slice, hcut]
      refine ⟨hs₅, rfl, ?_⟩
      rw [hhashed, List.take_of_length_le hend, List.append_assoc, hall, if_pos rfl]

end Signed

end SignatureLayerReader

end Mla
