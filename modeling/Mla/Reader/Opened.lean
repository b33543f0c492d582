import Mla.Reader.Signed
import Mla.Reader.Stack

/-!
# Opening what was written

Over a source that does not fail, an archive with a header, layers and a tail as the writer makes
them is opened, and the signatures of its first layer are read.
-/

namespace Mla

open Io

/-! ## Header and tail -/

section Source

variable {ρ σ : Type} [Patience]

theorem decodes_layerMagic [Read Error σ] {magic : Bytes} (h : magic.length = 8) :
    Decodes (readLayerMagic : EStateM Error σ Bytes) magic magic :=
  decodes_readExactly h

theorem ArchiveHeader.parses [Read Error σ] (options : Option Bytes) (h : ValidOptions options) :
    Parses (ArchiveHeader.deserialize : EStateM Error σ ArchiveHeader)
      (mlaMagic ++ (leBytes 4 mlaFormatVersion ++ encodeOptions options)) ⟨mlaFormatVersion⟩ := by
  refine Parses.bind (decodes_layerMagic rfl).parses ?_
  rw [if_neg (not_not.mpr rfl)]
  refine Parses.bind (decodes_u32 (by decide)).parses ?_
  rw [if_neg (not_not.mpr rfl)]
  exact Parses.cast (Parses.bind (parses_options h) (Decodes.pure _).parses) (List.append_nil _)

namespace ArchiveReader

/-- The tail that the writer makes is found from the end. -/
theorem readTail_eq [LayerReader σ] {X : Bytes} {At : σ → ℕ → Prop} {Live : σ → Prop} {closed : Prop}
    (h : IsCursor closed (X ++ archiveTail) At Live) (hlen : X.length + 17 < i64Size) {s : σ}
    (hs : Live s) : ∃ s', readTail s = .ok (17, X.length + 17) s' ∧ At s' 0 := by
  have hword := i64Size_lt_u64Size
  have hlength : (X ++ archiveTail).length = X.length + 17 := by
    rw [List.length_append, length_archiveTail]
  have hmagic : endMlaMagic <+: (X ++ archiveTail).drop (X.length + 9) := by
    rw [← List.drop_drop, List.drop_left]
    exact List.prefix_refl _
  have hone : leBytes 8 1 <+: (X ++ archiveTail).drop (X.length + 1) := by
    rw [← List.drop_drop, List.drop_left]
    exact List.prefix_append _ _
  obtain ⟨s₁, hseek₁, hs₁⟩ := h.seekEnd (t := X.length + 9) hs (Or.inl (by omega))
  obtain ⟨s₂, hread₂, hs₂⟩ := (decodes_layerMagic rfl).ok h.toDelivers hs₁ hmagic
  obtain ⟨s₃, hseek₃, hs₃⟩ := h.seekEnd (t := X.length + 1) (h.live hs₂) (Or.inl (by omega))
  obtain ⟨s₄, hread₄, hs₄⟩ := (decodes_u64 (by decide)).ok h.toDelivers hs₃ hone
  obtain ⟨s₅, hseek₅, hs₅⟩ := h.seekStart (t := 0) (h.live hs₄) (Or.inl (by omega))
  rw [show ((X.length + 9 : ℕ) : ℤ) - (X ++ archiveTail).length = -8 by omega] at hseek₁
  rw [show ((X.length + 1 : ℕ) : ℤ) - (X ++ archiveTail).length = -16 by omega] at hseek₃
  refine ⟨s₅, ?_, hs₅⟩
  refine bind_eq_ok.mpr ⟨_, s₁, liftIo_eq_ok.mpr hseek₁, bind_eq_ok.mpr ⟨_, s₂, hread₂, ?_⟩⟩
  rw [if_neg (not_not.mpr rfl)]
  exact bind_eq_ok.mpr ⟨_, s₃, liftIo_eq_ok.mpr hseek₃, bind_eq_ok.mpr ⟨_, s₄, hread₄,
    okOr_bind_eq_ok.mpr ⟨17, checkedAdd_of_lt (by decide), okOr_bind_eq_ok.mpr ⟨X.length + 17,
      checkedAdd_of_lt (by omega), bind_eq_ok.mpr ⟨_, s₅, liftIo_eq_ok.mpr hseek₅, rfl⟩⟩⟩⟩⟩

variable [Read Error ρ] [Seek Error ρ] {X : Bytes} {At : ρ → ℕ → Prop} {Live : ρ → Prop} {closed : Prop}

omit [Patience] in
/-- The layers that the writer makes, seen between header and tail. -/
theorem isCursor_layers (h : IsCursor closed (ArchiveHeader.encode ++ (X ++ archiveTail)) At Live)
    (hlen : X.length + 30 < i64Size) :
    ∃ LiveView, IsCursor closed X
      (ShowsLayers (ArchiveHeader.encode ++ (X ++ archiveTail)) At 13) LiveView := by
  have hword := i64Size_lt_u64Size
  have hlayers : layers (ArchiveHeader.encode ++ (X ++ archiveTail)) (12 + 1) = X := layers_archive X
  have hlength : (ArchiveHeader.encode ++ (X ++ archiveTail)).length = X.length + 30 := by
    rw [List.length_append, List.length_append, length_archiveTail, ArchiveHeader.length_encode]
    omega
  have hdrop : (ArchiveHeader.encode ++ (X ++ archiveTail)).drop 13 = X ++ archiveTail := drop_encode _
  have hroom : 0 + tailLen ((ArchiveHeader.encode ++ (X ++ archiveTail)).drop 13) ≤
      ((ArchiveHeader.encode ++ (X ++ archiveTail)).drop 13).length := by
    rw [hdrop, tailLen_append, List.length_append, length_archiveTail]
    omega
  have hcursor := StripHeadTailReader.isCursor (RawLayerReader.isCursor (o := 13) h (by omega)
    (by omega)) hroom (by rw [hdrop, List.length_append, length_archiveTail]; omega)
  change IsCursor closed (layers _ (12 + 1)) _ _ at hcursor
  rw [hlayers] at hcursor
  exact ⟨_, hcursor⟩

theorem openSource_eq (h : IsCursor closed (ArchiveHeader.encode ++ (X ++ archiveTail)) At Live)
    (hlen : X.length + 30 < i64Size) {magic : Bytes} (hmagic : magic.length = 8) (hpre : magic <+: X)
    {src : ρ} (hsrc : Live src) :
    ∃ view, openSource src = .ok (view, ArchiveHeader.encode ++ magic, magic) ∧
      ShowsLayers (ArchiveHeader.encode ++ (X ++ archiveTail)) At 13 view 8 := by
  have hword := i64Size_lt_u64Size
  have hdrop : (ArchiveHeader.encode ++ (X ++ archiveTail)).drop 13 = X ++ archiveTail := drop_encode _
  have hlength : (ArchiveHeader.encode ++ (X ++ archiveTail)).length = X.length + 30 := by
    rw [List.length_append, List.length_append, length_archiveTail, ArchiveHeader.length_encode]
    omega
  obtain ⟨s₁, hseek₁, hs₁⟩ := h.seekStart (t := 0) hsrc (Or.inl (by omega))
  obtain ⟨s₂, hheader, hs₂, hhash₂⟩ := (ArchiveHeader.parses none nofun).ok
    (HashWrapperReader.delivers [] h.toDelivers) (s := ⟨s₁, []⟩) (p := 0)
    ⟨hs₁, by rw [List.take_zero, List.append_nil]⟩ (List.prefix_append _ _)
  change At s₂.inner 13 at hs₂
  change s₂.hash = [] ++ _ at hhash₂
  obtain ⟨s₃, hseek₃, hs₃⟩ := h.seekCurrent (t := 13) hs₂ (Or.inl (by omega))
  rw [Int.sub_self] at hseek₃
  have hreset : RawLayerReader.resetPosition (RawLayerReader.new s₂.inner) = .ok () ⟨s₃, 13⟩ :=
    bind_eq_ok.mpr ⟨13, ⟨s₃, 0⟩, zoom_eq_ok.mpr ⟨s₃, hseek₃, rfl⟩, rfl⟩
  have hraw := RawLayerReader.isCursor (o := 13) h (by omega) (by omega)
  rw [hdrop] at hraw
  obtain ⟨raw, htail, hat⟩ := readTail_eq hraw (by omega)
    (hraw.live (p := 0) (show RawLayerReader.Behind At 13 ⟨s₃, 13⟩ 0 from ⟨hs₃, rfl⟩))
  have hnew : StripHeadTailReader.new raw 0 17 (X.length + 17) 0 =
      .ok ⟨raw, 0, 17, X.length + 17, 0⟩ :=
    StripHeadTailReader.new_eq (by omega) (by omega) raw 0
  have htailLen : tailLen ((ArchiveHeader.encode ++ (X ++ archiveTail)).drop 13) = 17 := by
    rw [hdrop, tailLen_append]
  have hview : ShowsLayers (ArchiveHeader.encode ++ (X ++ archiveTail)) At 13
      ⟨raw, 0, 17, X.length + 17, 0⟩ 0 := by
    refine ⟨hat, rfl, htailLen.symm, ?_, rfl, Nat.zero_le _⟩
    rw [hdrop, List.length_append, length_archiveTail]
  obtain ⟨LiveView, hlayers⟩ := isCursor_layers h hlen
  obtain ⟨s₅, hread, hs₅, hhash₅⟩ := (decodes_layerMagic hmagic).ok
    (HashWrapperReader.delivers s₂.hash hlayers.toDelivers) (p := 0)
    (s := ⟨⟨raw, 0, 17, X.length + 17, 0⟩, s₂.hash⟩)
    ⟨hview, by rw [List.take_zero, List.append_nil]⟩ hpre
  rw [Nat.zero_add, hmagic] at hs₅ hhash₅
  refine ⟨s₅.inner, ?_, hs₅⟩
  have hhash : s₅.hash = ArchiveHeader.encode ++ magic := by
    have hmagic' := List.prefix_iff_eq_take.mp hpre
    rw [hmagic] at hmagic'
    rw [hhash₅, hhash₂, List.nil_append, ← hmagic']
    rfl
  rw [← hhash]
  exact Except.bind_eq_ok.mpr ⟨⟨0, s₁⟩, runOn_eq_ok.mpr (liftIo_eq_ok.mpr hseek₁),
    Except.bind_eq_ok.mpr ⟨⟨_, s₂⟩, runOn_eq_ok.mpr hheader, Except.bind_eq_ok.mpr ⟨⟨(), ⟨s₃, 13⟩⟩,
    runOn_eq_ok.mpr (liftIo_eq_ok.mpr hreset), Except.bind_eq_ok.mpr ⟨⟨_, raw⟩, runOn_eq_ok.mpr htail,
    Except.bind_eq_ok.mpr ⟨_, hnew, Except.bind_eq_ok.mpr ⟨⟨_, s₅⟩, runOn_eq_ok.mpr hread, rfl⟩⟩⟩⟩⟩⟩

end ArchiveReader

end Source

/-! ## Signatures -/

section Signatures

variable {σ : Type} [Patience]

namespace SignatureLayerReader

/-- The tail that the writer of signatures makes is found from the end. -/
theorem readTail_eq [LayerReader σ] {B sigs : Bytes} {At : σ → ℕ → Prop} {Live : σ → Prop}
    (h : IsCursor True (B ++ SignatureLayerWriter.signatureTail sigs) At Live)
    (hlen : B.length + (sigs.length + 25) < i64Size) {s : σ} {p : ℕ} (hs : At s p)
    (hp : p ≤ B.length) :
    ∃ s', readTail s = .ok (p, sigs, sigs.length + 25, B.length + (sigs.length + 25)) s' ∧ At s' p := by
  have hword := i64Size_lt_u64Size
  have hlength : (B ++ SignatureLayerWriter.signatureTail sigs).length =
      B.length + (sigs.length + 25) := by
    rw [List.length_append, SignatureLayerWriter.length_signatureTail]
  have hone : leBytes 8 1 <+: (B ++ SignatureLayerWriter.signatureTail sigs).drop (B.length + 1) := by
    rw [← List.drop_drop, List.drop_left]
    exact List.prefix_append (leBytes 8 1) _
  have hdata : encodeVec (fun b => [b]) sigs <+:
      (B ++ SignatureLayerWriter.signatureTail sigs).drop (B.length + 9) := by
    rw [← List.drop_drop, List.drop_left, SignatureLayerWriter.signatureTail, List.drop_left' (by rfl),
      encodeVec, List.flatMap_singleton', ← List.append_assoc]
    exact List.prefix_append _ _
  have hlast : leBytes 8 (sigs.length + 8) <+:
      (B ++ SignatureLayerWriter.signatureTail sigs).drop (B.length + (sigs.length + 17)) := by
    have hcut : (emptyTailOptsSerialization ++ (leBytes 8 sigs.length ++ sigs)).length =
        sigs.length + 17 := by
      simp only [List.length_append, length_emptyTailOptsSerialization, length_leBytes]
      omega
    refine ⟨[], ?_⟩
    rw [List.append_nil, ← List.drop_drop, List.drop_left, SignatureLayerWriter.signatureTail,
      ← List.append_assoc, ← List.append_assoc, List.append_assoc emptyTailOptsSerialization,
      List.drop_left' hcut]
  obtain ⟨s₁, hseek₁, hs₁⟩ := h.seekCurrent (t := p) hs (Or.inl (by omega))
  obtain ⟨s₂, hseek₂, hs₂⟩ := h.seekEnd (t := B.length + (sigs.length + 17)) (h.live hs₁)
    (Or.inl (by omega))
  obtain ⟨s₃, hread₃, hs₃⟩ := (decodes_u64 (by omega)).ok h.toDelivers hs₂ hlast
  obtain ⟨s₄, hseek₄, hs₄⟩ := h.seekEnd (t := B.length + 9) (h.live hs₃) (Or.inl (by omega))
  obtain ⟨s₅, hread₅, hs₅⟩ := (decodes_vec (by omega) fun b _ => decodes_u8 b).ok h.toDelivers hs₄ hdata
  obtain ⟨s₆, hseek₆, hs₆⟩ := h.seekEnd (t := B.length + 1) (h.live hs₅) (Or.inl (by omega))
  obtain ⟨s₇, hread₇, hs₇⟩ := (decodes_u64 (by decide)).ok h.toDelivers hs₆ hone
  obtain ⟨s₈, hseek₈, hs₈⟩ := h.seekEnd (t := B.length + (sigs.length + 25)) (h.live hs₇)
    (Or.inr ⟨trivial, hlength.symm⟩)
  obtain ⟨s₉, hseek₉, hs₉⟩ := h.seekStart (t := p) (h.live hs₈) (Or.inl (by omega))
  rw [Int.sub_self] at hseek₁
  rw [hlength, show ((B.length + (sigs.length + 17) : ℕ) : ℤ) -
    ((B.length + (sigs.length + 25) : ℕ) : ℤ) = -8 by omega] at hseek₂
  rw [hlength, show ((B.length + 9 : ℕ) : ℤ) - ((B.length + (sigs.length + 25) : ℕ) : ℤ) =
    0 - (8 + (sigs.length + 8) : ℕ) by omega] at hseek₄
  rw [hlength, show ((B.length + 1 : ℕ) : ℤ) - ((B.length + (sigs.length + 25) : ℕ) : ℤ) =
    0 - (8 + (sigs.length + 8) + 8 : ℕ) by omega] at hseek₆
  rw [hlength, Int.sub_self] at hseek₈
  have hoffset : inI64 (0 - (8 + (sigs.length + 8) : ℕ)) := ⟨by omega, by omega⟩
  have hoffset' : inI64 (0 - (8 + (sigs.length + 8) + 8 : ℕ)) := ⟨by omega, by omega⟩
  refine ⟨s₉, ?_, hs₉⟩
  refine bind_eq_ok.mpr ⟨p, s₁, liftIo_eq_ok.mpr hseek₁, bind_eq_ok.mpr ⟨_, s₂,
    liftIo_eq_ok.mpr hseek₂, bind_eq_ok.mpr ⟨_, s₃, hread₃, okOr_bind_eq_ok.mpr ⟨_,
    checkedAdd_of_lt (by omega), okOr_bind_eq_ok.mpr ⟨_, if_pos hoffset, bind_eq_ok.mpr ⟨_, s₄,
    liftIo_eq_ok.mpr hseek₄, bind_eq_ok.mpr ⟨sigs, s₅, hread₅, okOr_bind_eq_ok.mpr ⟨_,
    checkedAdd_of_lt (by omega), okOr_bind_eq_ok.mpr ⟨_, if_pos hoffset', bind_eq_ok.mpr ⟨_, s₆,
    liftIo_eq_ok.mpr hseek₆, bind_eq_ok.mpr ⟨1, s₇, hread₇, okOr_bind_eq_ok.mpr ⟨_,
    checkedAdd_of_lt (by omega), bind_eq_ok.mpr ⟨_, s₈, liftIo_eq_ok.mpr hseek₈,
    bind_eq_ok.mpr ⟨p, s₉, liftIo_eq_ok.mpr hseek₉, ?_⟩⟩⟩⟩⟩⟩⟩⟩⟩⟩⟩⟩⟩⟩
  have hsum : 8 + (sigs.length + 8) + 8 + 1 = sigs.length + 25 := by omega
  rw [hsum]
  rfl

/-- What is kept of an inner layer when it is hashed. -/
def Keeps (σ : Type) [Kem] [Read Error σ] (I : Bytes) (config : Option EncryptionPersistentConfig) :
    Prop :=
  8 ≤ I.length ∧ I.take 8 ≠ encryptionLayerMagic ∧ config = none ∨
    ∃ bytes found length, encryptionLayerMagic ++ bytes <+: I ∧
      Parses (readEncryptionHeaderAfterMagic : EStateM Error σ _) bytes (found, length) ∧
      config = some found

theorem copyToSink_eq [Read Error σ] {S : Bytes} {At : σ → ℕ → Prop} (h : Delivers True S At)
    (hS : S.length < u64Size) {s : σ} {p : ℕ} (hs : At s p) :
    ∃ s', copyToSink s = .ok () s' ∧ At s' S.length := by
  have haccepts : Accepts S.length Dropped := by
    intro t acc buf _ hne _
    exact ⟨buf.length, t, rfl, List.length_pos_iff.mpr hne⟩
  obtain ⟨s', d', hcopy, hs', -⟩ := h.copy_eq appends_sink haccepts hs
    (show Dropped Sink.mk [] from trivial) hS (by rw [List.length_nil]; omega)
  exact ⟨s', by rw [copyToSink, hcopy], hs'⟩

theorem hashInnerLayer_eq [Kem] [Read Error σ] {S : Bytes} {At : σ → ℕ → Prop}
    (h : Delivers True S At) (hS : S.length < u64Size)
    {config : Option EncryptionPersistentConfig} (hkeeps : Keeps σ S config) {s : σ} (hs : At s 0) :
    ∃ s', hashInnerLayer s = .ok config s' ∧ At s' S.length := by
  rcases hkeeps with ⟨hlen, hne, rfl⟩ | ⟨bytes, found, length, hpre, hparses, rfl⟩
  · obtain ⟨s₁, hread, hs₁⟩ := (decodes_layerMagic (List.length_take_of_le hlen)).ok h hs
      (List.take_prefix 8 S)
    obtain ⟨s₂, hcopy, hs₂⟩ := copyToSink_eq h hS hs₁
    refine ⟨s₂, bind_eq_ok.mpr ⟨_, s₁, hread, ?_⟩, hs₂⟩
    rw [if_neg hne]
    exact bind_eq_ok.mpr ⟨none, s₁, rfl, bind_eq_ok.mpr ⟨(), s₂, liftIo_eq_ok.mpr hcopy, rfl⟩⟩
  · obtain ⟨s₁, hread, hs₁⟩ := (decodes_layerMagic (show encryptionLayerMagic.length = 8 from rfl)).ok h hs
      ((List.prefix_append _ _).trans hpre)
    have hrest : bytes <+: S.drop (0 + encryptionLayerMagic.length) := by
      obtain ⟨rest, rfl⟩ := hpre
      rw [Nat.zero_add, List.append_assoc, List.drop_left]
      exact List.prefix_append _ _
    obtain ⟨s₂, hfound, hs₂⟩ := hparses.ok h hs₁ hrest
    obtain ⟨s₃, hcopy, hs₃⟩ := copyToSink_eq h hS hs₂
    refine ⟨s₃, bind_eq_ok.mpr ⟨_, s₁, hread, ?_⟩, hs₃⟩
    rw [if_pos rfl]
    exact bind_eq_ok.mpr ⟨(found, length), s₂, hfound, bind_eq_ok.mpr ⟨some found, s₂, rfl,
      bind_eq_ok.mpr ⟨(), s₃, liftIo_eq_ok.mpr hcopy, rfl⟩⟩⟩

/-- The layer that the writer of signatures makes around `I`. -/
def written (I sigs : Bytes) : Bytes :=
  signatureLayerMagic ++ emptyOptsSerialization ++ I ++ SignatureLayerWriter.signatureTail sigs

omit [Patience] in
theorem length_written (I sigs : Bytes) : (written I sigs).length = I.length + (sigs.length + 34) := by
  have hmagic : signatureLayerMagic.length = 8 := rfl
  have hopts : emptyOptsSerialization.length = 1 := rfl
  simp only [written, List.length_append, SignatureLayerWriter.length_signatureTail, hmagic, hopts]
  omega

omit [Patience] in
theorem strip_written (I sigs : Bytes) :
    StripHeadTailReader.strip (written I sigs) 9 (sigs.length + 25) = I := by
  have hhead : (signatureLayerMagic ++ emptyOptsSerialization).length = 9 := rfl
  rw [StripHeadTailReader.strip, length_written, written]
  exact slice_eq_mid rfl hhead.symm (by omega)

variable [Kem] [LayerReader σ]

/-- The signed layer is read up to its tail, hashed on the way, and shown. -/
theorem readSigned_eq (base : Bytes) {I sigs : Bytes} {At : σ → ℕ → Prop} {Live : σ → Prop}
    (h : IsCursor True (written I sigs) At Live) (hlen : (written I sigs).length < i64Size)
    (hprepared : ∀ {t : σ} {q}, At t q → ∃ t', LayerReader.initializeLayer t = .ok () t' ∧ At t' q)
    {config : Option EncryptionPersistentConfig}
    (hkeeps : Keeps (HashWrapperReader (StripHeadTailReader σ)) I config) {s : σ} (hs : At s 8) :
    ∃ view, readSigned s (base ++ signatureLayerMagic) true = .ok (view, base ++
        (signatureLayerMagic ++ (emptyOptsSerialization ++ I)), config, sigs) ∧
      StripHeadTailReader.Shows (written I sigs) At 9 (sigs.length + 25) view 0 := by
  have hword := i64Size_lt_u64Size
  have hlength := length_written I sigs
  have hstart : (written I sigs).take 8 = signatureLayerMagic := by
    rw [written, List.append_assoc, List.append_assoc]
    exact List.take_left' rfl
  have hopts : emptyOptsSerialization <+: (written I sigs).drop 8 := by
    rw [written, List.append_assoc, List.append_assoc, List.drop_left' (by rfl)]
    exact List.prefix_append _ _
  have hB : (signatureLayerMagic ++ emptyOptsSerialization ++ I).length = I.length + 9 := by
    rw [List.length_append, Nat.add_comm]
    rfl
  obtain ⟨s₁, hinit, hs₁⟩ := hprepared hs
  obtain ⟨s₂, hread₂, hs₂, hhash₂⟩ := decodes_opts.ok (HashWrapperReader.delivers base h.toDelivers)
    (s := ⟨s₁, base ++ signatureLayerMagic⟩) ⟨hs₁, by rw [hstart]⟩ hopts
  change At s₂.inner 9 at hs₂
  change s₂.hash = base ++ (written I sigs).take 9 at hhash₂
  obtain ⟨s₃, htail, hs₃⟩ := readTail_eq h (by rw [hB]; omega) hs₂ (by rw [hB]; omega)
  rw [hB] at htail
  have hnew : StripHeadTailReader.new s₃ 9 (sigs.length + 25) (I.length + 9 + (sigs.length + 25)) 0 =
      .ok ⟨s₃, 9, sigs.length + 25, I.length + 9 + (sigs.length + 25), 0⟩ :=
    StripHeadTailReader.new_eq (by omega) (by omega) s₃ 0
  have hcursor := StripHeadTailReader.isCursor h
    (show 9 + (sigs.length + 25) ≤ (written I sigs).length by omega) hlen
  rw [strip_written] at hcursor
  have hview : StripHeadTailReader.Shows (written I sigs) At 9 (sigs.length + 25)
      ⟨s₃, 9, sigs.length + 25, I.length + 9 + (sigs.length + 25), 0⟩ 0 :=
    ⟨hs₃, rfl, rfl, show I.length + 9 + (sigs.length + 25) = _ by omega, rfl, Nat.zero_le _⟩
  obtain ⟨s₄, hhashing, hs₄, hhash₄⟩ := hashInnerLayer_eq
    (HashWrapperReader.delivers s₂.hash hcursor.toDelivers) (by omega) hkeeps
    (s := ⟨⟨s₃, 9, sigs.length + 25, I.length + 9 + (sigs.length + 25), 0⟩, s₂.hash⟩)
    ⟨hview, by rw [List.take_zero, List.append_nil]⟩
  rw [List.take_length] at hhash₄
  have hzero : Target True I 0 := by
    rcases Nat.eq_zero_or_pos I.length with hempty | hpos
    · exact Or.inr ⟨trivial, hempty.symm⟩
    · exact Or.inl hpos
  obtain ⟨view, hrewind, hshows⟩ := hcursor.seekStart (hcursor.live hs₄) hzero
  refine ⟨view, ?_, hshows⟩
  have hhash : s₄.hash = base ++ (signatureLayerMagic ++ (emptyOptsSerialization ++ I)) := by
    rw [hhash₄, hhash₂, written, List.append_assoc _ I, List.take_left' (by rfl)]
    simp only [List.append_assoc]
  rw [← hhash]
  refine Except.bind_eq_ok.mpr ⟨⟨(), s₁⟩, runOn_eq_ok.mpr hinit, Except.bind_eq_ok.mpr ⟨⟨(), s₂⟩,
    runOn_eq_ok.mpr hread₂, Except.bind_eq_ok.mpr ⟨⟨_, s₃⟩, runOn_eq_ok.mpr htail,
    Except.bind_eq_ok.mpr ⟨_, hnew, ?_⟩⟩⟩⟩
  exact Except.bind_eq_ok.mpr ⟨⟨config, s₄⟩, runOn_eq_ok.mpr hhashing,
    Except.bind_eq_ok.mpr ⟨⟨0, view⟩, runOn_eq_ok.mpr (liftIo_eq_ok.mpr hrewind), rfl⟩⟩

end SignatureLayerReader

/-! ## Reading signatures back -/

section Schemes

variable [SignatureSchemes]

/-- A signature is read back from its bytes. -/
def SignatureSchemes.Lossless : Prop :=
  ∀ sig : SignatureSchemes.MlDsa87Signature,
    SignatureSchemes.decode (SignatureSchemes.encode sig) = some sig

def MLASignature.encode : MLASignature → Bytes
  | .mlaEd25519 ed25519Sig => leBytes 2 mlaed25519SigMethod ++ ed25519Sig.toList
  | .mlaMlDsa87 mldsa87Sig =>
      leBytes 2 mlamldsa87SigMethod ++ (SignatureSchemes.encode mldsa87Sig).toList

theorem MLASignature.decodes [Read Error σ] (h : SignatureSchemes.Lossless) (sig : MLASignature) :
    Decodes (MLASignature.deserialize : EStateM Error σ MLASignature) sig.encode sig := by
  cases sig with
  | mlaEd25519 ed25519Sig =>
      refine Decodes.bind (decodes_u16 (by decide)) ?_
      exact Decodes.map (decodes_vector ed25519Sig) MLASignature.mlaEd25519
  | mlaMlDsa87 mldsa87Sig =>
      refine Decodes.bind (decodes_u16 (by decide)) ?_
      have hdecode : Decodes (do
          let parsedSignature ←
            okOr (SignatureSchemes.decode (SignatureSchemes.encode mldsa87Sig)) .deserializationError
          pure (.mlaMlDsa87 parsedSignature) : EStateM Error σ MLASignature) []
          (.mlaMlDsa87 mldsa87Sig) := by
        rw [h mldsa87Sig, okOr_some, pure_bind]
        exact Decodes.pure _
      exact Decodes.cast (Decodes.bind (decodes_vector (SignatureSchemes.encode mldsa87Sig)) hdecode)
        (List.append_nil _) rfl

omit [Patience] in
theorem MLASignature.encode_ne_nil (sig : MLASignature) : sig.encode ≠ [] := by
  cases sig <;> exact nofun

theorem deserializeSignaturesFrom_encode (h : SignatureSchemes.Lossless) {D : Bytes}
    (hD : D.length < u64Size) :
    ∀ (fuel p : ℕ) (signatures : List MLASignature), D.length - p ≤ fuel → p ≤ D.length →
      D.drop p = signatures.flatMap MLASignature.encode →
      deserializeSignaturesFrom fuel ⟨D, p⟩ = .ok signatures := by
  intro fuel
  induction fuel with
  | zero =>
      intro p signatures hfuel hp hdrop
      rw [List.drop_of_length_le (by omega)] at hdrop
      cases signatures with
      | nil => rfl
      | cons sig signatures =>
          have hnil := congrArg List.length hdrop
          have hpos := List.length_pos_iff.mpr sig.encode_ne_nil
          rw [List.flatMap_cons, List.length_append, List.length_nil] at hnil
          omega
  | succ fuel ih =>
      intro p signatures hfuel hp hdrop
      cases signatures with
      | nil =>
          have hend : D.length ≤ p := List.drop_eq_nil_iff.mp hdrop
          exact if_pos hend
      | cons sig signatures =>
          rw [List.flatMap_cons] at hdrop
          have hpos := List.length_pos_iff.mpr sig.encode_ne_nil
          have hlen := congrArg List.length hdrop
          rw [List.length_drop, List.length_append] at hlen
          obtain ⟨s, hrun, ⟨hdata, hposition⟩, hle⟩ := (MLASignature.decodes h sig).ok
            (Cursor.isCursor (ε := Error) hD).toDelivers (s := ⟨D, p⟩) ⟨⟨rfl, rfl⟩, hp⟩
            (hdrop ▸ List.prefix_append _ _)
          obtain rfl : s = ⟨D, p + sig.encode.length⟩ := by
            rw [← hdata, ← hposition]
          have hrest := ih (p + sig.encode.length) signatures (by omega) (by omega) (by
            rw [← List.drop_drop, hdrop, List.drop_left])
          rw [deserializeSignaturesFrom, if_neg (show ¬ D.length ≤ p by omega), hrun]
          exact Except.bind_eq_ok.mpr ⟨signatures, hrest, rfl⟩

theorem deserializeSignatures_encode (h : SignatureSchemes.Lossless) (signatures : List MLASignature)
    (hlen : (signatures.flatMap MLASignature.encode).length < u64Size) :
    deserializeSignatures (signatures.flatMap MLASignature.encode) = .ok signatures :=
  deserializeSignaturesFrom_encode h hlen _ 0 signatures (Nat.sub_le _ _) (Nat.zero_le _) rfl

end Schemes

end Signatures

/-! ## Layers of signatures -/

namespace ArchiveReader

variable {ρ : Type} [Patience] [Kem] [Sha512] [SignatureSchemes] [Read Error ρ] [Seek Error ρ]
  {At : ρ → ℕ → Prop} {Live : ρ → Prop}

/-- A layer that can be prepared stands where it did. -/
def Prepares {σ : Type} [LayerReader σ] (View : σ → ℕ → Prop) : Prop :=
  ∀ {s p}, View s p → ∃ s', LayerReader.initializeLayer s = .ok () s' ∧ View s' p

omit [Patience] [Kem] [Sha512] [SignatureSchemes] in
theorem prepares_layers (S : Bytes) (o : ℕ) : Prepares (ShowsLayers S At o) := by
  intro s p hs
  exact ⟨s, rfl, hs⟩

/-- The layer of signatures is opened, and the stack shows what is in it. -/
theorem openSignature_signed {I : Bytes} {signatures : List MLASignature}
    (hsigs : SignatureSchemes.Lossless)
    (h : IsCursor True (ArchiveHeader.encode ++ (SignatureLayerReader.written I
      (signatures.flatMap MLASignature.encode) ++ archiveTail)) At Live)
    (hlen : I.length + ((signatures.flatMap MLASignature.encode).length + 64) < i64Size)
    (hI : 8 ≤ I.length) {persistent : Option EncryptionPersistentConfig}
    (hkeeps : SignatureLayerReader.Keeps
      (HashWrapperReader (StripHeadTailReader (StripHeadTailReader (RawLayerReader ρ)))) I persistent)
    {config : ArchiveReaderConfig} (hcheck : config.signatureReaderConfig.signatureCheck = true)
    {keys : List MLASignatureVerificationPublicKey}
    (hkeys : config.signatureReaderConfig.signatureVerificationKeys.filter
      (SignatureLayerReader.hasBothSignatures (ArchiveHeader.encode ++
        (signatureLayerMagic ++ (emptyOptsSerialization ++ I))) signatures) = keys) (hsome : keys ≠ [])
    {src : ρ} (hsrc : Live src) :
    ∃ View LiveView, IsCursor True I View LiveView ∧ Prepares View ∧
      ∃ stack, openSignature config src = .ok (stack, I.take 8, keys, persistent) ∧ View stack 8 := by
  generalize hdata : signatures.flatMap MLASignature.encode = sigs at h hlen
  have hlength := SignatureLayerReader.length_written I sigs
  have hword := i64Size_lt_u64Size
  have hpre : signatureLayerMagic <+: SignatureLayerReader.written I sigs := by
    rw [SignatureLayerReader.written, List.append_assoc, List.append_assoc]
    exact List.prefix_append _ _
  obtain ⟨view, hopen, hview⟩ := openSource_eq h (by omega) rfl hpre hsrc
  obtain ⟨LiveView, hlayers⟩ := isCursor_layers h (by omega)
  obtain ⟨shown, hsigned, hshown⟩ := SignatureLayerReader.readSigned_eq
    ArchiveHeader.encode hlayers (by omega) (fun hs => prepares_layers _ _ hs) hkeeps hview
  have hstrip := StripHeadTailReader.isCursor hlayers
    (show 9 + (sigs.length + 25) ≤ (SignatureLayerReader.written I sigs).length by omega) (by omega)
  rw [SignatureLayerReader.strip_written] at hstrip
  have hcursor := OptionalLayer.isCursor (σ := StripHeadTailReader (RawLayerReader ρ))
    (IsCursor.never I True) (SignatureLayerReader.isCursor hstrip)
  have hprepares : Prepares (OptionalLayer.At (fun (_ : StripHeadTailReader (RawLayerReader ρ))
      (_ : ℕ) => False) (fun (s : SignatureLayerReader (StripHeadTailReader (RawLayerReader ρ))) p =>
        StripHeadTailReader.Shows (SignatureLayerReader.written I sigs) (ShowsLayers
          (ArchiveHeader.encode ++ (SignatureLayerReader.written I sigs ++ archiveTail)) At 13)
          9 (sigs.length + 25) s.inner p)) := by
    intro s p hs
    cases s with
    | absent inner => exact hs.elim
    | present layer => exact ⟨.present layer, rfl, hs⟩
  refine ⟨_, _, hcursor, hprepares, ?_⟩
  obtain ⟨stack, hread, hat⟩ := (decodes_layerMagic (List.length_take_of_le hI)).ok
    hcursor.toDelivers (s := .present ⟨shown⟩) (p := 0) hshown (List.take_prefix 8 I)
  rw [List.length_take_of_le hI] at hat
  refine ⟨stack, ?_, hat⟩
  have hnew : SignatureLayerReader.newSkipMagic view config.signatureReaderConfig
      (ArchiveHeader.encode ++ signatureLayerMagic) = .ok (⟨shown⟩, keys, persistent) := by
    refine Except.bind_eq_ok.mpr ⟨_, by rw [hcheck]; exact hsigned, ?_⟩
    dsimp only
    rw [hcheck, if_pos rfl, ← hdata]
    have hread := deserializeSignatures_encode hsigs signatures (by rw [hdata]; omega)
    refine Except.bind_eq_ok.mpr ⟨signatures, hread, ?_⟩
    rw [hkeys]
    exact if_neg fun hnil => hsome (List.isEmpty_iff.mp hnil)
  refine Except.bind_eq_ok.mpr ⟨_, hopen, ?_⟩
  dsimp only
  rw [if_pos rfl]
  exact Except.bind_eq_ok.mpr ⟨_, hnew, Except.bind_eq_ok.mpr ⟨⟨(), .present ⟨shown⟩⟩, rfl,
    Except.bind_eq_ok.mpr ⟨⟨_, stack⟩, runOn_eq_ok.mpr hread, rfl⟩⟩⟩

/-- Without a layer of signatures, the stack shows the first layer. -/
theorem openSignature_unsigned {X : Bytes}
    (h : IsCursor True (ArchiveHeader.encode ++ (X ++ archiveTail)) At Live)
    (hlen : X.length + 30 < i64Size) (hX : 8 ≤ X.length) (hmagic : X.take 8 ≠ signatureLayerMagic)
    {config : ArchiveReaderConfig} (hcheck : config.signatureReaderConfig.signatureCheck = false)
    {src : ρ} (hsrc : Live src) :
    ∃ View LiveView, IsCursor True X View LiveView ∧ Prepares View ∧
      ∃ stack, openSignature config src = .ok (stack, X.take 8, [], none) ∧ View stack 8 := by
  obtain ⟨view, hopen, hview⟩ := openSource_eq h hlen (List.length_take_of_le hX)
    (List.take_prefix 8 X) hsrc
  obtain ⟨LiveView, hlayers⟩ := isCursor_layers h hlen
  refine ⟨_, _, OptionalLayer.isCursor hlayers (IsCursor.never X True), ?_, .absent view, ?_, hview⟩
  · intro s p hs
    cases s with
    | absent inner =>
        obtain ⟨t, hinit, ht⟩ := prepares_layers _ _ hs
        refine ⟨.absent t, ?_, ht⟩
        exact OptionalLayer.onTop_eq_ok.mpr (.inl ⟨inner, t, rfl, hinit, rfl⟩)
    | present layer => exact hs.elim
  · refine Except.bind_eq_ok.mpr ⟨_, hopen, ?_⟩
    dsimp only
    rw [if_neg hmagic, hcheck]
    rfl

omit [Kem] [Sha512] [SignatureSchemes] in
/-- The index is parsed, and the reader left behind the header of the entries. -/
theorem readEntries_eq [AesGcm] [BrotliDecompressor] {closed : Prop} {before rest : Bytes}
    {View : LayerStack ρ → ℕ → Prop} {LiveView : LayerStack ρ → Prop}
    {entries : List (EntryName × EntryInfo)} {map : HashMap EntryName EntryInfo}
    (h : IsCursor closed (before ++ ArchiveFooter.encodeFooter entries ++ emptyTailOptsSerialization)
      View LiveView)
    (hlen : (before ++ ArchiveFooter.encodeFooter entries ++ emptyTailOptsSerialization).length <
      i64Size)
    (hparses : Parses (ArchiveFooter.deserializeFrom : EStateM Error (LayerStack ρ) _)
      (ArchiveFooter.encodeIndex entries) (some map))
    (hheader : before = entriesLayerMagic ++ (emptyOptsSerialization ++ rest))
    {src : LayerStack ρ} (hsrc : LiveView src) :
    ∃ reader, readEntries src = .ok reader ∧ reader.metadata = some map ∧ View reader.src 9 := by
  obtain ⟨s₁, hmetadata, hs₁⟩ := ArchiveFooter.readMetadata_eq h hlen hparses hsrc
  subst hheader
  obtain ⟨s₂, hrewind, hs₂⟩ := h.seekStart (t := 0) hs₁ (Or.inl (by
    rw [List.append_assoc, List.append_assoc, List.length_append]
    exact Nat.add_pos_left (by decide) _))
  have hmagic : entriesLayerMagic ++ emptyOptsSerialization <+:
      (entriesLayerMagic ++ (emptyOptsSerialization ++ rest) ++ ArchiveFooter.encodeFooter entries ++
        emptyTailOptsSerialization).drop 0 := by
    rw [List.drop_zero, ← List.append_assoc entriesLayerMagic, List.append_assoc, List.append_assoc]
    exact List.prefix_append _ _
  have hread : Decodes (readMlaEntriesHeader : EStateM Error (LayerStack ρ) Unit)
      (entriesLayerMagic ++ emptyOptsSerialization) () := by
    refine Decodes.bind (decodes_readExactly (by decide)) ?_
    rw [if_neg (not_not.mpr rfl)]
    exact decodes_opts
  obtain ⟨s₃, hrun, hs₃⟩ := hread.ok h.toDelivers hs₂ hmagic
  refine ⟨⟨s₃, some map⟩, ?_, rfl, hs₃⟩
  refine Except.bind_eq_ok.mpr ⟨⟨some map, s₃⟩, runOn_eq_ok.mpr ?_, rfl⟩
  exact bind_eq_ok.mpr ⟨_, s₁, hmetadata, bind_eq_ok.mpr ⟨0, s₂, liftIo_eq_ok.mpr hrewind,
    bind_eq_ok.mpr ⟨(), s₃, hrun, rfl⟩⟩⟩

end ArchiveReader

end Mla
