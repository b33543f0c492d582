import Mla.Layers.Signature.Reader

/-!
# Opening an archive

An archive is opened at both its ends: the header is read and hashed from the start, the
length of the tail is read from the end, and the first layer is looked for between the two.
-/

namespace Mla

open Io

namespace ArchiveReader

variable {ρ σ : Type} [Patience]

/-- The length of the tail of the archive, and of all that follows the header. -/
def readTail [LayerReader σ] : EStateM Error σ (ℕ × ℕ) := do
  let endMagicPosition ← liftIo (Seek.seek (.fromEnd (-8)))
  let endMagic ← readLayerMagic
  if endMagic ≠ endMlaMagic then throw .wrongEndMagic
  else do
    let _ ← liftIo (Seek.seek (.fromEnd (-16)))
    let mlaFooterOptionsLength ← deserializeU64
    let mlaTailLen ← okOr (checkedAdd mlaFooterOptionsLength 16) .deserializationError
    let innerLen ← okOr (checkedAdd endMagicPosition 8) .deserializationError
    let _ ← liftIo (Seek.seek (.start 0))
    pure (mlaTailLen, innerLen)

/-- What `from_config` does with the source before any layer: the view on the layers, the
hash of the header and of the first magic, and this magic. -/
def openSource [Read Error ρ] [Seek Error ρ] (src : ρ) :
    Except Error (StripHeadTailReader (RawLayerReader ρ) × Bytes × Bytes) := do
  let (_, src) ← runOn (liftIo (Seek.seek (.start 0))) src
  let (_, src) ← runOn ArchiveHeader.deserialize (⟨src, []⟩ : HashWrapperReader ρ)
  let (_, raw) ← runOn (liftIo RawLayerReader.resetPosition) (RawLayerReader.new src.inner)
  let ((mlaTailLen, innerLen), raw) ← runOn readTail raw
  let view ← StripHeadTailReader.new raw 0 mlaTailLen innerLen 0
  let (magic, src) ← runOn readLayerMagic
    (⟨view, src.hash⟩ : HashWrapperReader (StripHeadTailReader (RawLayerReader ρ)))
  pure (src.inner, src.hash, magic)

/-- The hash that the signatures of an archive are checked against. -/
def signedHash [Kem] [Read Error ρ] [Seek Error ρ] (src : ρ) : Except Error Bytes := do
  let (view, hash, magic) ← openSource src
  if magic = signatureLayerMagic then do
    let (_, signedHash, _, _) ← SignatureLayerReader.readSigned view hash true
    pure signedHash
  else throw .signatureVerificationAskedButNoSignatureLayerFound

/-! ## What was read -/

section Contract

variable {S : Bytes} {At : ρ → ℕ → Prop}

/-- The length of the tail, as the 8 bytes before the end magic say. -/
def tailLen (S : Bytes) : ℕ :=
  16 + fromLeBytes (slice S (S.length - 16) 8)

theorem readTail_ok [LayerReader σ] {At : σ → ℕ → Prop} {s s' : σ} {p : ℕ} (h : Moves S At)
    (hs : At s p) {r : ℕ × ℕ} (hrun : readTail s = .ok r s') :
    r = (tailLen S, S.length) ∧ At s' 0 := by
  obtain ⟨position, s₁, hseek, hrun⟩ := bind_eq_ok.mp hrun
  obtain ⟨hposition, hs₁⟩ := h.seekEnd hs (liftIo_eq_ok.mp hseek)
  obtain ⟨magic, s₂, hmagic, hrun⟩ := bind_eq_ok.mp hrun
  obtain ⟨hbytes, hlen, hs₂⟩ := h.readExactly_ok hs₁ hmagic
  rw [hbytes, length_slice] at hlen
  split at hrun
  · cases hrun
  · obtain ⟨u₃, s₃, hseek₃, hrun⟩ := bind_eq_ok.mp hrun
    obtain ⟨hu₃, hs₃⟩ := h.seekEnd hs₂ (liftIo_eq_ok.mp hseek₃)
    obtain ⟨length, s₄, hlength, hrun⟩ := bind_eq_ok.mp hrun
    obtain ⟨hlength, -, hs₄⟩ := h.deserializeU64_ok hs₃ hlength
    obtain ⟨mlaTailLen, htail, hrun⟩ := okOr_bind_eq_ok.mp hrun
    obtain ⟨innerLen, hinner, hrun⟩ := okOr_bind_eq_ok.mp hrun
    obtain ⟨u₅, s₅, hseek₅, hrun⟩ := bind_eq_ok.mp hrun
    obtain ⟨-, hs₅⟩ := h.seekStart hs₄ (liftIo_eq_ok.mp hseek₅)
    obtain ⟨rfl, rfl⟩ := EStateM.Result.ok.inj hrun
    have hposition₃ : u₃ = S.length - 16 := by omega
    have htail : mlaTailLen = tailLen S := by
      rw [checkedAdd_eq htail, hlength, hposition₃, tailLen, Nat.add_comm]
    have hinner := checkedAdd_eq hinner
    refine ⟨?_, hs₅⟩
    rw [htail]
    congr 1
    omega

/-- The archive begins with its magic and the version of the format. -/
def StartsArchive (S : Bytes) : Prop :=
  slice S 0 8 = mlaMagic ∧ slice S 8 4 = leBytes 4 mlaFormatVersion

/-- The header, when it can be read, ends behind its options. -/
theorem header_ok [Read Error ρ] (h : Yields S At) {s s' : ρ} (hs : At s 0) {header : ArchiveHeader}
    (hrun : ArchiveHeader.deserialize s = .ok header s') :
    StartsArchive S ∧ ∃ k, optsLength (S.drop 12) = some k ∧ At s' (12 + k) := by
  obtain ⟨magic, s₁, hmagic, hrun⟩ := bind_eq_ok.mp hrun
  obtain ⟨hbytes, -, hs₁⟩ := h.readExactly_ok hs hmagic
  split at hrun
  · cases hrun
  · rename_i heq
    obtain ⟨version, s₂, hversion, hrun⟩ := bind_eq_ok.mp hrun
    obtain ⟨hword, hs₂⟩ := h.deserializeU32_ok hs₁ hversion
    split at hrun
    · cases hrun
    · rename_i hversion
      obtain ⟨u, s₃, hopts, hrun⟩ := bind_eq_ok.mp hrun
      obtain ⟨k, hk, hs₃⟩ := h.opts_ok hs₂ hopts
      obtain ⟨-, rfl⟩ := EStateM.Result.ok.inj hrun
      rw [not_not] at heq hversion
      refine ⟨⟨hbytes.symm.trans heq, ?_⟩, k, hk, hs₃⟩
      rw [← hversion]
      exact hword

/-- What lies between the header of `o` bytes and the tail of the archive. -/
def layers (S : Bytes) (o : ℕ) : Bytes :=
  StripHeadTailReader.strip (S.drop o) 0 (tailLen (S.drop o))

def ShowsLayers (S : Bytes) (At : ρ → ℕ → Prop) (o : ℕ) :
    StripHeadTailReader (RawLayerReader ρ) → ℕ → Prop :=
  StripHeadTailReader.Shows (S.drop o) (RawLayerReader.Behind At o) 0 (tailLen (S.drop o))

omit [Patience] in
theorem length_layers (S : Bytes) (o : ℕ) :
    (layers S o).length = S.length - o - tailLen (S.drop o) := by
  rw [layers, StripHeadTailReader.length_strip, List.length_drop, Nat.sub_zero]

omit [Patience] in
theorem take_append_layers {S : Bytes} {o m : ℕ} (hm : m ≤ (layers S o).length) :
    S.take o ++ (layers S o).take m = S.take (o + m) := by
  rw [layers, StripHeadTailReader.length_strip] at hm
  rw [layers, StripHeadTailReader.strip, slice_zero, List.take_take, min_eq_left (by omega)]
  exact take_append_slice S o m

omit [Patience] in
theorem moves_layers [Read Error ρ] [Seek Error ρ] (h : Moves S At) {o : ℕ} (ho : o ≤ S.length)
    (htail : tailLen (S.drop o) ≤ S.length - o) : Moves (layers S o) (ShowsLayers S At o) :=
  StripHeadTailReader.moves (RawLayerReader.moves h ho)
    (by rwa [Nat.zero_add, List.length_drop])

omit [Patience] in
theorem ShowsLayers.initializeLayer_ok [Read Error ρ] [Seek Error ρ] {o p : ℕ}
    {s s' : StripHeadTailReader (RawLayerReader ρ)} (hs : ShowsLayers S At o s p)
    (hrun : LayerReader.initializeLayer s = .ok () s') : ShowsLayers S At o s' p :=
  StripHeadTailReader.Shows.initializeLayer_ok RawLayerReader.initializeLayer_ok hs hrun

/-- The view that is opened lies between header and tail, behind its first magic; all that
was read of it from the start was hashed. -/
theorem openSource_ok [Read Error ρ] [Seek Error ρ] (h : Moves S At) {src : ρ} {p : ℕ}
    (hsrc : At src p) {view : StripHeadTailReader (RawLayerReader ρ)} {hash magic : Bytes}
    (hrun : openSource src = .ok (view, hash, magic)) :
    StartsArchive S ∧ ∃ k, optsLength (S.drop 12) = some k ∧ 12 + k ≤ S.length ∧
      tailLen (S.drop (12 + k)) ≤ S.length - (12 + k) ∧ ShowsLayers S At (12 + k) view 8 ∧
      hash = S.take (12 + k) ++ (layers S (12 + k)).take 8 ∧
      magic = slice (layers S (12 + k)) 0 8 ∧ magic.length = 8 := by
  obtain ⟨⟨u, s₁⟩, hseek, hrun⟩ := Except.bind_eq_ok.mp hrun
  obtain ⟨-, hs₁⟩ := h.seekStart hsrc (liftIo_eq_ok.mp (runOn_eq_ok.mp hseek))
  obtain ⟨⟨header, src₂⟩, hheader, hrun⟩ := Except.bind_eq_ok.mp hrun
  obtain ⟨hstart, k, hk, hs₂, hhash⟩ := header_ok (HashWrapperReader.yields [] h.toYields)
    ⟨hs₁, by rw [List.take_zero, List.append_nil]⟩ (runOn_eq_ok.mp hheader)
  obtain ⟨⟨u₃, raw⟩, hreset, hrun⟩ := Except.bind_eq_ok.mp hrun
  obtain ⟨hpos, hle⟩ := optsLength_le hk
  rw [List.length_drop] at hle
  have hraw := RawLayerReader.resetPosition_ok h (o := 12 + k) hs₂
    (liftIo_eq_ok.mp (runOn_eq_ok.mp hreset))
  have hmoves := RawLayerReader.moves h (show 12 + k ≤ S.length by omega)
  obtain ⟨⟨⟨mlaTailLen, innerLen⟩, raw₄⟩, htail, hrun⟩ := Except.bind_eq_ok.mp hrun
  obtain ⟨hr, hs₄⟩ := readTail_ok hmoves hraw (runOn_eq_ok.mp htail)
  cases hr
  obtain ⟨view₅, hnew, hrun⟩ := Except.bind_eq_ok.mp hrun
  obtain ⟨hlen, rfl⟩ := StripHeadTailReader.new_ok hnew
  rw [List.length_drop, Nat.zero_add] at hlen
  have hview := moves_layers h (show 12 + k ≤ S.length by omega) hlen
  obtain ⟨⟨magic₆, src₆⟩, hmagic, hrun⟩ := Except.bind_eq_ok.mp hrun
  obtain ⟨hbytes₆, hlen₆, hs₆, hhash₆⟩ := (HashWrapperReader.yields (S.take (12 + k))
    hview.toYields).readExactly_ok (p := 0)
    ⟨⟨hs₄, rfl, rfl, rfl, rfl, Nat.zero_le _⟩, by
      rw [hhash, List.take_zero, List.append_nil, List.nil_append]⟩ (runOn_eq_ok.mp hmagic)
  cases Except.ok.inj hrun
  exact ⟨hstart, k, hk, by omega, hlen, hs₆, hhash₆, hbytes₆, hlen₆⟩

/-- What is hashed is the start of the source, up to the end of the inner layer. -/
theorem signedHash_ok [Kem] [Read Error ρ] [Seek Error ρ] (h : Moves S At)
    (hS : S.length < u64Size) {src : ρ} {p : ℕ} (hsrc : At src p) {hash : Bytes}
    (hrun : signedHash src = .ok hash) :
    ∃ k, optsLength (S.drop 12) = some k ∧
      hash = S.take (12 + k + ((layers S (12 + k)).length -
        SignatureLayerReader.signatureTailLen (layers S (12 + k)))) := by
  obtain ⟨⟨view, opened, magic⟩, hopen, hrun⟩ := Except.bind_eq_ok.mp hrun
  obtain ⟨-, k, hk, hle, htail, hview, rfl, -, -⟩ := openSource_ok h hsrc hopen
  refine ⟨k, hk, ?_⟩
  dsimp only at hrun
  split at hrun
  · obtain ⟨⟨inner, signed, config, data⟩, hsigned, hrun⟩ := Except.bind_eq_ok.mp hrun
    obtain rfl := Except.ok.inj hrun
    have hlen : (layers S (12 + k)).length < u64Size := by
      rw [length_layers]
      omega
    obtain ⟨k', -, -, -, -, -, rfl⟩ := SignatureLayerReader.readSigned_ok
      (moves_layers h hle htail) hlen ShowsLayers.initializeLayer_ok hview hsigned
    exact take_append_layers (Nat.sub_le _ _)
  · cases hrun

end Contract

end ArchiveReader

end Mla
