import Mla.Crypto.HybridSignature
import Mla.Format
import Mla.Io.Recorder
import Mla.Layers.Encrypt.Stream
import Mla.Layers.Traits

/-!
# The signing layer

All that goes through the layer is hashed, header of the archive included, and the hash is
signed at the end.

The hash is given the whole buffer of each call before the layer below says how much of it
it takes; what is left over is hashed again when the caller tries again. So the hash that is
signed is that of the delivered bytes only when no call was cut short.
-/

namespace Mla

open Io

/-- `b"SIGMLAAA"`. -/
def signatureLayerMagic : Bytes := ascii ['S', 'I', 'G', 'M', 'L', 'A', 'A', 'A']

structure SignatureConfig [SignatureSchemes] where
  signatureKeys : List MLASigningPrivateKey
  rng : SignatureSchemes.Rng

def SignatureConfig.new [SignatureSchemes] (signingPrivateKeys : List MLASigningPrivateKey)
    (rng : SignatureSchemes.Rng) : Except ConfigError SignatureConfig :=
  if signingPrivateKeys.isEmpty then throw .privateKeyNotSet
  else pure ⟨signingPrivateKeys, rng⟩

structure SignatureLayerWriter [SignatureSchemes] (ω : Type) where
  inner : ω
  signatureConfig : SignatureConfig
  hash : Bytes

namespace SignatureLayerWriter

variable [SignatureSchemes] {ω W : Type}

/-- `write_all` of the magic and the options, both hashed. -/
def new [Patience] [Write Error ω] (inner : ω) (signatureConfig : SignatureConfig)
    (hash : Bytes) : Except Error (SignatureLayerWriter ω) := do
  let (_, dest) ← runOn (do
    put signatureLayerMagic
    Opts.dump) (⟨inner, hash⟩ : HashWrapperWriter ω)
  pure ⟨dest.inner, signatureConfig, dest.hash⟩

def write [Write Error ω] (buf : Bytes) : Op Error (SignatureLayerWriter ω) ℕ := do
  modify fun s => { s with hash := s.hash ++ buf }
  zoom SignatureLayerWriter.inner (fun inner s => { s with inner := inner }) (Write.write buf)

instance instWrite [Write Error ω] : Write Error (SignatureLayerWriter ω) where
  write := write

theorem forwards [Write Error ω] :
    Forwards (SignatureLayerWriter.inner : SignatureLayerWriter ω → ω) where
  ok {buf s s' k} hwrite := by
    change write buf s = .ok k s' at hwrite
    obtain ⟨u, s₁, hset, hzoom⟩ := bind_eq_ok.mp hwrite
    obtain ⟨-, rfl⟩ := EStateM.Result.ok.inj hset
    obtain ⟨inner, hinner, rfl⟩ := zoom_eq_ok.mp hzoom
    exact hinner
  error {buf s s' e} hwrite := by
    change write buf s = .error e s' at hwrite
    rcases bind_eq_error.mp hwrite with hset | ⟨u, s₁, hset, hzoom⟩
    · cases hset
    · obtain ⟨-, rfl⟩ := EStateM.Result.ok.inj hset
      obtain ⟨inner, hinner, rfl⟩ := zoom_eq_error.mp hzoom
      exact hinner

/-- The number of bytes of all signatures of `n` keys. -/
def signatureDataContentSize (n : ℕ) : Option ℕ := do
  let size ← checkedAdd 2 ed25519SignatureLength
  let size ← checkedAdd size 2
  let size ← checkedAdd size mlDsa87SignatureSize
  checkedMul n size

section Finalize

variable [Patience] [Sha512] [Write Error W]

/-- The two signatures of each key. -/
def signKeys (hash : Bytes) : List MLASigningPrivateKey → SignatureSchemes.Rng →
    EStateM Error W Unit
  | [], _ => pure ()
  | key :: keys, rng => do
      let _ ← serializeEd25519 (key.signEd25519 hash)
      let (mldsa87Signature, rng) := key.signMldsa87 hash rng
      let mldsa87Signature ← okOr mldsa87Signature .randError
      let _ ← serializeMldsa87 mldsa87Signature
      signKeys hash keys rng

/-- All that `finalize` writes behind the inner layer. -/
def writeSignatures (signatureConfig : SignatureConfig) (hash : Bytes) :
    EStateM Error W Unit := do
  put emptyTailOptsSerialization
  let contentSize ← okOr (signatureDataContentSize signatureConfig.signatureKeys.length)
    .serializationError
  let _ ← serializeU64 contentSize
  signKeys hash signatureConfig.signatureKeys signatureConfig.rng
  let length ← okOr (checkedAdd contentSize 8) .serializationError
  let _ ← serializeU64 length
  pure ()

instance instLayerWriter [LayerWriter W ω] : LayerWriter W (SignatureLayerWriter ω) where
  finalize s := do
    let out ← LayerWriter.finalize s.inner
    let (_, out) ← runOn (writeSignatures s.signatureConfig s.hash) out
    pure out

/-! ## What is written behind the inner layer -/

def signatureBytes (hash : Bytes) : List MLASigningPrivateKey → SignatureSchemes.Rng → Option Bytes
  | [], _ => some []
  | key :: keys, rng => do
      let (mldsa87Signature, rng) := key.signMldsa87 hash rng
      let mldsa87Signature ← mldsa87Signature
      let bytes ← signatureBytes hash keys rng
      some (leBytes 2 mlaed25519SigMethod ++ (key.signEd25519 hash).toList ++
        (leBytes 2 mlamldsa87SigMethod ++ (SignatureSchemes.encode mldsa87Signature).toList) ++
        bytes)

/-- The tail of the layer, with its empty options and the bytes of the signatures. -/
def signatureTail (bytes : Bytes) : Bytes :=
  emptyTailOptsSerialization ++ (leBytes 8 bytes.length ++ (bytes ++ leBytes 8 (bytes.length + 8)))

omit [Patience] in
theorem length_signatureBytes (hash : Bytes) :
    ∀ {keys : List MLASigningPrivateKey} {rng : SignatureSchemes.Rng} {bytes : Bytes},
      signatureBytes hash keys rng = some bytes → bytes.length = 4695 * keys.length := by
  intro keys
  induction keys with
  | nil =>
      intro rng bytes h
      obtain rfl := Option.some.inj h
      rfl
  | cons key keys ih =>
      intro rng bytes h
      obtain ⟨mldsa87Signature, hsign, h⟩ := Option.bind_eq_some_iff.mp h
      obtain ⟨rest, hrest, h⟩ := Option.bind_eq_some_iff.mp h
      obtain rfl := Option.some.inj h
      have hed : (key.signEd25519 hash).toList.length = 64 := Vector.length_toList
      have hml : (SignatureSchemes.encode mldsa87Signature).toList.length = 4627 :=
        Vector.length_toList
      simp only [List.length_append, length_leBytes, hed, hml, ih hrest, List.length_cons]
      omega

variable {Got : W → Bytes → Prop} {out out' : W} {acc hash : Bytes}

omit [SignatureSchemes] [Sha512] in
theorem emits_ed25519 (ed25519Sig : Vector UInt8 ed25519SignatureLength) :
    Emits (serializeEd25519 ed25519Sig : EStateM Error W ℕ)
      (leBytes 2 mlaed25519SigMethod ++ ed25519Sig.toList) (2 + ed25519SignatureLength) :=
  ((emits_u16 _).bind ((Emits.put _).seq (Emits.pure _))).cast (by rw [List.append_nil]) rfl

omit [Sha512] in
theorem emits_mldsa87 (mldsa87Sig : SignatureSchemes.MlDsa87Signature) :
    Emits (serializeMldsa87 mldsa87Sig : EStateM Error W ℕ)
      (leBytes 2 mlamldsa87SigMethod ++ (SignatureSchemes.encode mldsa87Sig).toList)
      (2 + mlDsa87SignatureSize) :=
  ((emits_u16 _).bind ((Emits.put _).seq (Emits.pure _))).cast (by rw [List.append_nil]) rfl

theorem signKeys_ok (happ : Appends Got) :
    ∀ {keys : List MLASigningPrivateKey} {rng : SignatureSchemes.Rng} {out out' : W} {acc : Bytes}
      {u : Unit}, Got out acc → signKeys hash keys rng out = .ok u out' →
      ∃ bytes, signatureBytes hash keys rng = some bytes ∧ Got out' (acc ++ bytes) := by
  intro keys
  induction keys with
  | nil =>
      intro rng out out' acc u hout hrun
      obtain ⟨-, rfl⟩ := EStateM.Result.ok.inj hrun
      exact ⟨[], rfl, by rwa [List.append_nil]⟩
  | cons key keys ih =>
      intro rng out out' acc u hout hrun
      obtain ⟨n, out₁, hed, hrun⟩ := bind_eq_ok.mp hrun
      obtain ⟨-, hout₁⟩ := (emits_ed25519 _).ok happ hout hed
      obtain ⟨mldsa87Signature, hsign, hrun⟩ := okOr_bind_eq_ok.mp hrun
      obtain ⟨m, out₂, hml, hrun⟩ := bind_eq_ok.mp hrun
      obtain ⟨-, hout₂⟩ := (emits_mldsa87 _).ok happ hout₁ hml
      obtain ⟨bytes, hbytes, hout'⟩ := ih hout₂ hrun
      refine ⟨leBytes 2 mlaed25519SigMethod ++ (key.signEd25519 hash).toList ++
        (leBytes 2 mlamldsa87SigMethod ++ (SignatureSchemes.encode mldsa87Signature).toList) ++
        bytes, ?_, ?_⟩
      · exact Option.bind_eq_some_iff.mpr
          ⟨mldsa87Signature, hsign, Option.bind_eq_some_iff.mpr ⟨bytes, hbytes, rfl⟩⟩
      · simp only [List.append_assoc] at hout' ⊢
        exact hout'

/-- Nothing but the signatures themselves can fail on a destination that does not. -/
theorem signKeys_accept (happ : Appends Got) {n : ℕ} (haccepts : Accepts n Got) :
    ∀ {keys : List MLASigningPrivateKey} {rng : SignatureSchemes.Rng} {out : W}
      {acc bytes : Bytes}, Got out acc → signatureBytes hash keys rng = some bytes →
      acc.length + bytes.length ≤ n → bytes.length < u64Size →
      ∃ out', signKeys hash keys rng out = .ok () out' := by
  intro keys
  induction keys with
  | nil =>
      intro rng out acc bytes _ _ _ _
      exact ⟨out, rfl⟩
  | cons key keys ih =>
      intro rng out acc bytes hout hbytes hn hlt
      obtain ⟨mldsa87Signature, hsign, hbytes⟩ := Option.bind_eq_some_iff.mp hbytes
      obtain ⟨rest, hrest, hbytes⟩ := Option.bind_eq_some_iff.mp hbytes
      obtain rfl := Option.some.inj hbytes
      have hboth : Emits (do
          let _ ← serializeEd25519 (key.signEd25519 hash)
          serializeMldsa87 mldsa87Signature : EStateM Error W ℕ)
          (leBytes 2 mlaed25519SigMethod ++ (key.signEd25519 hash).toList ++
            (leBytes 2 mlamldsa87SigMethod ++ (SignatureSchemes.encode mldsa87Signature).toList))
          (2 + mlDsa87SignatureSize) :=
        (emits_ed25519 _).bind (emits_mldsa87 _)
      simp only [List.length_append] at hn hlt
      obtain ⟨out₂, hrun⟩ := hboth.accept happ haccepts hout
        (by simp only [List.length_append]; omega) (by simp only [List.length_append]; omega)
      obtain ⟨-, hout₂⟩ := hboth.ok happ hout hrun
      obtain ⟨n₁, out₁, hed, hml⟩ := bind_eq_ok.mp hrun
      obtain ⟨out', htail⟩ := ih hout₂ hrest (by simp only [List.length_append]; omega) (by omega)
      refine ⟨out', bind_eq_ok.mpr ⟨n₁, out₁, hed, ?_⟩⟩
      exact okOr_bind_eq_ok.mpr ⟨mldsa87Signature, hsign, bind_eq_ok.mpr ⟨_, out₂, hml, htail⟩⟩

omit [SignatureSchemes] [Patience] [Sha512] in
theorem signatureDataContentSize_eq {n size : ℕ} (h : signatureDataContentSize n = some size) :
    size = 4695 * n := by
  have hone : checkedAdd 2 ed25519SignatureLength = some 66 := rfl
  have htwo : checkedAdd 66 2 = some 68 := rfl
  have hthree : checkedAdd 68 mlDsa87SignatureSize = some 4695 := rfl
  rw [signatureDataContentSize, hone, Option.bind_eq_bind, Option.bind_some, htwo,
    Option.bind_some, hthree, Option.bind_some] at h
  exact checkedMul_eq h

theorem writeSignatures_ok (happ : Appends Got) {signatureConfig : SignatureConfig} {u : Unit}
    (hout : Got out acc) (hrun : writeSignatures signatureConfig hash out = .ok u out') :
    ∃ bytes, signatureBytes hash signatureConfig.signatureKeys signatureConfig.rng = some bytes ∧
      bytes.length + 8 < u64Size ∧ Got out' (acc ++ signatureTail bytes) := by
  obtain ⟨u₁, out₁, hput, hrun⟩ := bind_eq_ok.mp hrun
  obtain ⟨-, hout₁⟩ := (Emits.put _).ok happ hout hput
  obtain ⟨contentSize, hsize, hrun⟩ := okOr_bind_eq_ok.mp hrun
  obtain ⟨n, out₂, hsizeRun, hrun⟩ := bind_eq_ok.mp hrun
  obtain ⟨-, hout₂⟩ := (emits_u64 _).ok happ hout₁ hsizeRun
  obtain ⟨u₃, out₃, hsign, hrun⟩ := bind_eq_ok.mp hrun
  obtain ⟨bytes, hbytes, hout₃⟩ := signKeys_ok happ hout₂ hsign
  obtain ⟨length, hlength, hrun⟩ := okOr_bind_eq_ok.mp hrun
  obtain ⟨m, out₄, hlengthRun, hrun⟩ := bind_eq_ok.mp hrun
  obtain ⟨-, hout₄⟩ := (emits_u64 _).ok happ hout₃ hlengthRun
  obtain ⟨-, rfl⟩ := EStateM.Result.ok.inj hrun
  have hcontent : contentSize = bytes.length := by
    rw [signatureDataContentSize_eq hsize, length_signatureBytes hash hbytes]
  have hlt := checkedAdd_lt hlength
  rw [checkedAdd_eq hlength, hcontent] at hlt
  refine ⟨bytes, hbytes, hlt, ?_⟩
  rw [checkedAdd_eq hlength, hcontent] at hout₄
  simp only [signatureTail, ← List.append_assoc]
  exact hout₄

/-- The signatures are written to a destination that takes them, if they can be made. -/
theorem writeSignatures_accept (happ : Appends Got) {n : ℕ} (haccepts : Accepts n Got)
    {signatureConfig : SignatureConfig} {bytes : Bytes} (hout : Got out acc)
    (hbytes : signatureBytes hash signatureConfig.signatureKeys signatureConfig.rng = some bytes)
    (hn : acc.length + (bytes.length + 25) ≤ n) (hlt : bytes.length + 8 < u64Size) :
    ∃ out', writeSignatures signatureConfig hash out = .ok () out' := by
  have hput : Emits (put emptyTailOptsSerialization : EStateM Error W Unit)
      emptyTailOptsSerialization () := Emits.put _
  have hlength := length_signatureBytes hash hbytes
  obtain ⟨out₁, hrun₁⟩ := hput.accept happ haccepts hout
    (by rw [length_emptyTailOptsSerialization]; omega)
    (by rw [length_emptyTailOptsSerialization]; decide)
  obtain ⟨-, hout₁⟩ := hput.ok happ hout hrun₁
  have hsize : signatureDataContentSize signatureConfig.signatureKeys.length = some bytes.length := by
    rw [hlength]
    exact checkedMul_of_lt (a := signatureConfig.signatureKeys.length) (b := 4695) (by omega)
  obtain ⟨out₂, hrun₂⟩ := (emits_u64 bytes.length).accept happ haccepts hout₁
    (by rw [List.length_append, length_emptyTailOptsSerialization, length_leBytes]; omega)
    (by rw [length_leBytes]; decide)
  obtain ⟨-, hout₂⟩ := (emits_u64 _).ok happ hout₁ hrun₂
  obtain ⟨out₃, hrun₃⟩ := signKeys_accept happ haccepts hout₂ hbytes
    (by simp only [List.length_append, length_emptyTailOptsSerialization, length_leBytes]; omega)
    (by omega)
  obtain ⟨bytes', hbytes', hout₃⟩ := signKeys_ok happ hout₂ hrun₃
  obtain rfl := Option.some.inj (hbytes.symm.trans hbytes')
  obtain ⟨out₄, hrun₄⟩ := (emits_u64 (bytes.length + 8)).accept happ haccepts hout₃
    (by simp only [List.length_append, length_emptyTailOptsSerialization, length_leBytes]; omega)
    (by rw [length_leBytes]; decide)
  exact ⟨out₄, bind_eq_ok.mpr ⟨(), out₁, hrun₁, okOr_bind_eq_ok.mpr ⟨bytes.length, hsize,
    bind_eq_ok.mpr ⟨8, out₂, hrun₂, bind_eq_ok.mpr ⟨(), out₃, hrun₃, okOr_bind_eq_ok.mpr
      ⟨bytes.length + 8, checkedAdd_of_lt hlt, bind_eq_ok.mpr ⟨8, out₄, hrun₄, rfl⟩⟩⟩⟩⟩⟩⟩

end Finalize

/-! ## What is hashed

All buffers of the calls to the destination go into the hash, whatever is taken of them.
-/

section Hash

variable [Write Error ω]

theorem preserves_write (config : SignatureConfig) (buf : Bytes) :
    Preserves (fun s : SignatureLayerWriter (RawLayerWriter (Recorder ω)) =>
      s.hash = s.inner.inner.asked ∧ s.signatureConfig = config) (Write.write buf : Op Error _ ℕ) := by
  intro s hs
  change (stateOf (write buf s)).hash = (stateOf (write buf s)).inner.inner.asked ∧
    (stateOf (write buf s)).signatureConfig = config
  rw [write, bind_apply, modify_apply, stateOf_zoom]
  change s.hash ++ buf = (stateOf (Write.write buf s.inner)).inner.asked ∧
    s.signatureConfig = config
  rw [RawLayerWriter.stateOf_write, Recorder.asked_write, hs.1]
  exact ⟨rfl, hs.2⟩

end Hash

end SignatureLayerWriter

theorem HashWrapperWriter.preserves_write {ω : Type} [Write Error ω] (buf : Bytes) :
    Preserves (fun s : HashWrapperWriter (RawLayerWriter (Recorder ω)) =>
      s.hash = s.inner.inner.asked) (Write.write buf : Op Error _ ℕ) := by
  intro s hs
  change (stateOf (HashWrapperWriter.write buf s)).hash =
    (stateOf (HashWrapperWriter.write buf s)).inner.inner.asked
  rw [HashWrapperWriter.write, bind_apply, modify_apply, stateOf_zoom]
  change s.hash ++ buf = (stateOf (Write.write buf s.inner)).inner.asked
  rw [RawLayerWriter.stateOf_write, Recorder.asked_write, hs]

/-- The header of the archive is written to the destination and hashed. -/
def writeArchiveHeader {W : Type} [Patience] [Write Error W] (dest : W) :
    Except Error (RawLayerWriter W × Bytes) := do
  let (_, dest) ← runOn (ArchiveHeader.serialize ⟨mlaFormatVersion⟩)
    (⟨⟨dest⟩, []⟩ : HashWrapperWriter (RawLayerWriter W))
  pure (dest.inner, dest.hash)

end Mla
