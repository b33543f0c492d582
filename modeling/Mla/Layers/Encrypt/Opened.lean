import Mla.Crypto.Hash
import Mla.Entries.Codec
import Mla.Io.Tally
import Mla.Layers.Encrypt.Presented

/-!
# Opening the encryption layer

The header is read with its bytes counted, and the length of the tail is found in the last 8 bytes.
Opened on what the writer made, with the key loaded, the layer presents the plaintext.
-/

namespace Mla

open Io

/-! ## Counting what is read -/

section Counting

variable {σ α : Type} [Read Error σ] {closed : Prop} {D bs : Bytes} {At : σ → ℕ → Prop} {o p : ℕ} {s : σ}

theorem PositionLayerReader.delivers (h : Delivers closed D At) (hD : D.length - o < u64Size) :
    Delivers closed D (PositionLayerReader.Counts At o) where
  le hs := h.le hs.1
  progress {s p n} hs hp hn := by
    obtain ⟨k, inner, hread, hk, hkn, hle, hinner⟩ := h.progress hs.1 hp hn
    have hcount := hs.2
    have hlen := length_slice_of_le hle
    have hadd : checkedAdd s.pos k = some (s.pos + k) := checkedAdd_of_lt (by omega)
    refine ⟨k, ⟨inner, s.pos + k⟩, ?_, hk, hkn, hle, hinner, by dsimp only; omega⟩
    refine bind_eq_ok.mpr ⟨_, { s with inner := inner }, zoom_eq_ok.mpr ⟨inner, hread, rfl⟩, ?_⟩
    rw [get_bind]
    dsimp only
    rw [hlen, hadd]
    rfl
  stop {s p n} hclosed hs hstop := by
    obtain ⟨inner, hread, hinner⟩ := h.stop hclosed hs.1 hstop
    have hcount := hs.2
    have hle := h.le hs.1
    have hadd : checkedAdd s.pos ([] : Bytes).length = some s.pos := checkedAdd_of_lt (by rw [List.length_nil]; omega)
    refine ⟨⟨inner, s.pos⟩, ?_, hinner, hs.2⟩
    refine bind_eq_ok.mpr ⟨_, { s with inner := inner }, zoom_eq_ok.mpr ⟨inner, hread, rfl⟩, ?_⟩
    rw [get_bind]
    dsimp only
    rw [hadd]
    rfl

theorem PositionLayerReader.counting_eq {x : EStateM Error (PositionLayerReader σ) α} {a : α}
    (hx : Decodes x bs a) (h : Delivers closed D At) (hD : D.length - p < u64Size) (hs : At s p)
    (hpre : bs <+: D.drop p) :
    ∃ s', PositionLayerReader.counting x s = .ok (a, bs.length) s' ∧ At s' (p + bs.length) := by
  obtain ⟨t, hrun, hat, hpos⟩ := hx.ok (PositionLayerReader.delivers (o := p) h hD) (s := ⟨s, 0⟩)
    ⟨hs, Nat.add_zero p⟩ hpre
  have hcount : t.pos = bs.length := by omega
  refine ⟨t.inner, ?_, hat⟩
  rw [PositionLayerReader.counting, hrun, ← hcount]

theorem HashWrapperReader.tallies {count : σ → ℕ} (h : Tallies Error count) :
    Tallies Error fun s : HashWrapperReader σ => count s.inner := by
  intro n s s' bs hread
  obtain ⟨bytes, s₁, hstep, hread⟩ := bind_eq_ok.mp hread
  obtain ⟨inner, hinner, rfl⟩ := zoom_eq_ok.mp hstep
  obtain ⟨rfl, rfl⟩ := EStateM.Result.ok.inj hread
  exact h hinner

end Counting

theorem StripHeadTailReader.tallies {σ : Type} [LayerReader σ] : Tallies Error
    (StripHeadTailReader.currentPositionInThisLayer : StripHeadTailReader σ → ℕ) := by
  intro n s s' bs hread
  change StripHeadTailReader.read n s = _ at hread
  rw [StripHeadTailReader.read, get_bind] at hread
  obtain ⟨length, -, hread⟩ := okOr_bind_eq_ok.mp hread
  obtain ⟨remaining, -, hread⟩ := okOr_bind_eq_ok.mp hread
  obtain ⟨bytes, s₁, hstep, hread⟩ := bind_eq_ok.mp hread
  obtain ⟨position, hposition, hread⟩ := okOr_bind_eq_ok.mp hread
  obtain ⟨inner, -, rfl⟩ := zoom_eq_ok.mp hstep
  obtain ⟨rfl, rfl⟩ := EStateM.Result.ok.inj hread
  exact ⟨checkedAdd_eq hposition, checkedAdd_lt hposition⟩

/-! ## The header -/

section Header

variable {σ : Type} [Patience] [Kem] [Read Error σ] {closed : Prop} {D : Bytes} {At : σ → ℕ → Prop}
  {p : ℕ} {s : σ} {persistentConfig : EncryptionPersistentConfig}

/-- What lies behind the magic in the header of the layer. -/
def EncryptionPersistentConfig.headerAfterMagic (persistentConfig : EncryptionPersistentConfig) : Bytes :=
  emptyOptsSerialization ++ (leBytes 2 0 ++ persistentConfig.encode)

omit [Patience] in
theorem EncryptionPersistentConfig.length_headerAfterMagic :
    persistentConfig.headerAfterMagic.length + 8 =
      (EncryptionLayerWriter.header persistentConfig).length := by
  have hmagic : encryptionLayerMagic.length = 8 := rfl
  rw [EncryptionLayerWriter.header, List.length_append, hmagic, Nat.add_comm]
  rfl

omit [Patience] in
theorem EncryptionPersistentConfig.recipients_lt
    (hlen : (EncryptionLayerWriter.header persistentConfig).length < u64Size) :
    persistentConfig.hybridMultiRecipientEncapsulateKey.recipients.length < u64Size := by
  rw [EncryptionLayerWriter.length_header] at hlen
  omega

theorem readEncryptionHeaderAfterMagic_eq (hkem : Kem.Lossless)
    (hlen : (EncryptionLayerWriter.header persistentConfig).length < u64Size)
    (h : Delivers closed D At) (hD : D.length - p < u64Size) (hs : At s p)
    (hpre : persistentConfig.headerAfterMagic <+: D.drop p) :
    ∃ s', readEncryptionHeaderAfterMagic s =
        .ok (persistentConfig, (EncryptionLayerWriter.header persistentConfig).length) s' ∧
      At s' (p + persistentConfig.headerAfterMagic.length) := by
  have hlength := persistentConfig.length_headerAfterMagic
  have hdecodes : Decodes (do
      Opts.fromReader
      let _encryptionMethodId ← deserializeU16
      EncryptionPersistentConfig.deserialize :
        EStateM Error (PositionLayerReader σ) EncryptionPersistentConfig)
      persistentConfig.headerAfterMagic persistentConfig :=
    decodes_opts.bind ((decodes_u16 (by decide)).bind (EncryptionPersistentConfig.decodes hkem
      (EncryptionPersistentConfig.recipients_lt hlen)))
  obtain ⟨s', hrun, hs'⟩ := PositionLayerReader.counting_eq hdecodes h hD hs hpre
  refine ⟨s', bind_eq_ok.mpr ⟨_, s', hrun, okOr_bind_eq_ok.mpr ⟨_, ?_, rfl⟩⟩, hs'⟩
  rw [checkedAdd_of_lt (by omega), hlength]

/-- Where a reader keeps count, the header is read whatever lies behind it. -/
theorem parses_encryptionHeader (hkem : Kem.Lossless) {count : σ → ℕ} (hcount : Tallies Error count)
    (hlen : (EncryptionLayerWriter.header persistentConfig).length < u64Size) :
    Parses (readEncryptionHeaderAfterMagic : EStateM Error σ (EncryptionPersistentConfig × ℕ))
      persistentConfig.headerAfterMagic
      (persistentConfig, (EncryptionLayerWriter.header persistentConfig).length) where
  ok h _ _ hs hpre := readEncryptionHeaderAfterMagic_eq hkem hlen h (hcount.sub_lt h hs) hs hpre

end Header

/-! ## The layer -/

namespace EncryptionLayerReader

open EncryptionLayerWriter (header)

variable {σ : Type} [Patience] [AesGcm] [LayerReader σ] {S P : Bytes} {At : σ → ℕ → Prop}
  {Live : σ → Prop} {n : ℕ} {s : σ}

omit [AesGcm] in
/-- The tail that the writer makes is found from the end. -/
theorem readTail_eq (h : IsCursor True S At Live) (hn : n + 9 ≤ S.length)
    (htail : S.drop (S.length - 9) = emptyTailOptsSerialization) (hs : Live s) :
    ∃ s', readTail n s = .ok (S.length, 9) s' ∧ At s' n := by
  obtain ⟨s₁, hend, hs₁⟩ := h.seekEnd hs (t := S.length) (.inr ⟨trivial, rfl⟩)
  obtain ⟨s₂, hback, hs₂⟩ := h.seekCurrent hs₁ (t := S.length - 8) (.inl (by omega))
  have hone : leBytes 8 1 <+: S.drop (S.length - 8) := by
    have hsplit : S.drop (S.length - 8) = (S.drop (S.length - 9)).drop 1 := by
      rw [List.drop_drop]
      congr 1
      omega
    rw [hsplit, htail]
    exact List.prefix_refl _
  obtain ⟨s₃, hread, hs₃⟩ := (decodes_u64 (by decide)).ok h.toDelivers hs₂ hone
  obtain ⟨s₄, hstart, hs₄⟩ := h.seekStart (h.live hs₃) (t := n) (.inl (by omega))
  rw [Int.sub_self] at hend
  rw [show ((S.length - 8 : ℕ) : ℤ) - S.length = -8 by omega] at hback
  exact ⟨s₄, bind_eq_ok.mpr ⟨_, s₁, liftIo_eq_ok.mpr hend, bind_eq_ok.mpr ⟨_, s₂,
    liftIo_eq_ok.mpr hback, bind_eq_ok.mpr ⟨1, s₃, hread, okOr_bind_eq_ok.mpr ⟨9,
      checkedAdd_of_lt (by decide), bind_eq_ok.mpr ⟨n, s₄, liftIo_eq_ok.mpr hstart, rfl⟩⟩⟩⟩⟩, hs₄⟩

open InternalEncryptionLayerReader (Ready Offers Stands)
open StripHeadTailReader (Shows Usable strip)

variable {config : InternalEncryptionConfig}

/-- The view between header and tail, of a layer below that stands somewhere. -/
abbrev LiveView (S : Bytes) (At : σ → ℕ → Prop) (n : ℕ) : StripHeadTailReader σ → Prop :=
  Usable S (fun t => ∃ q, At t q) n 9

omit [Patience] [AesGcm] in
theorem isCursor_view (h : IsCursor True S At Live) (hS : S.length < i64Size) (hn : n + 9 ≤ S.length) :
    IsCursor True (strip S n 9) (Shows S At n 9) (LiveView S At n) :=
  StripHeadTailReader.isCursor h.standing hn hS

/-- The layer below is prepared first. -/
theorem initializeLayer_stands (hcorrect : AesGcm.Correct) (h : IsCursor True S At Live)
    (hS : S.length < i64Size) (hn : n + 9 ≤ S.length) (hstrip : strip S n 9 = config.encBody P)
    (hne : P ≠ [])
    (hprepared : ∀ {t : σ} {q}, At t q → ∃ t', LayerReader.initializeLayer t = .ok () t' ∧ At t' q)
    {layer : EncryptionLayerReader σ} (hready : Ready (LiveView S At n) config 0 layer.inner) :
    ∃ layer', LayerReader.initializeLayer layer = .ok () layer' ∧
      Stands config P (Shows S At n 9) layer'.inner 0 := by
  have hcursor := isCursor_view h hS hn
  rw [hstrip] at hcursor
  have hbody : (config.encBody P).length < i64Size := by
    rw [← hstrip, StripHeadTailReader.length_strip]
    omega
  have hlen := config.length_encBody P
  obtain ⟨hconfig, hmode, hall, ⟨q, hq⟩, hhead, htail, hinner⟩ := hready
  obtain ⟨t, hinit, ht⟩ := hprepared hq
  have hready' : Ready (LiveView S At n) config 0
      { layer.inner with inner := { layer.inner.inner with inner := t } } :=
    ⟨hconfig, hmode, hall, ⟨q, ht⟩, hhead, htail, hinner⟩
  obtain ⟨s₂, hbehind, hposition, hchunk, -, -⟩ := hready'.initializeLayer_slot hcursor hbody
    (plaintextSize_encBody hbody) (by omega)
    (finalBlockOpens_encBody hcorrect)
  have hslot := slotOpened_honest hcorrect hbody hne (Nat.zero_le _)
  refine ⟨⟨s₂.holding (InternalEncryptionConfig.chunkHead 0 ++ chunkData P 0)⟩, ?_, s₂, 0, 0,
    ⟨hbehind, hposition, Nat.zero_le _, Nat.zero_le _⟩, rfl, rfl⟩
  have hview : StripHeadTailReader.onInner LayerReader.initializeLayer layer.inner.inner =
      .ok () { layer.inner.inner with inner := t } := zoom_eq_ok.mpr ⟨t, hinit, rfl⟩
  change onInner (do
    zoom InternalEncryptionLayerReader.inner (fun inner s => { s with inner := inner })
      LayerReader.initializeLayer
    InternalEncryptionLayerReader.initializeLayer) layer = _
  exact zoom_eq_ok.mpr ⟨_, bind_eq_ok.mpr ⟨(), _, zoom_eq_ok.mpr ⟨_, hview, rfl⟩, hchunk _ hslot⟩, rfl⟩

theorem readsThrough : ReadsThrough Error
    (EncryptionLayerReader.inner : EncryptionLayerReader σ → _) (fun inner _ => ⟨inner⟩) where
  get_set _ _ := rfl
  read _ := rfl

theorem presents (hcorrect : AesGcm.Correct) (h : IsCursor True S At Live) (hS : S.length < i64Size)
    (hn : n + 9 ≤ S.length) (hstrip : strip S n 9 = config.encBody P) (hne : P ≠ []) :
    Presents P (fun (layer : EncryptionLayerReader σ) p =>
        Offers config P (Shows S At n 9) (LiveView S At n) layer.inner p)
      fun layer => Ready (LiveView S At n) config P.length layer.inner := by
  have hcursor := isCursor_view h hS hn
  have hlength := StripHeadTailReader.length_strip S n 9
  rw [hstrip] at hcursor hlength
  exact readsThrough.presents (fun _ => rfl)
    (InternalEncryptionLayerReader.presents hcorrect (by omega) hcursor hne)

theorem tellsLength (hcorrect : AesGcm.Correct) (h : IsCursor True S At Live)
    (hS : S.length < i64Size) (hn : n + 9 ≤ S.length) (hstrip : strip S n 9 = config.encBody P)
    (hne : P ≠ []) :
    TellsLength P fun layer : EncryptionLayerReader σ =>
      Ready (LiveView S At n) config P.length layer.inner := by
  have hcursor := isCursor_view h hS hn
  have hlength := StripHeadTailReader.length_strip S n 9
  rw [hstrip] at hcursor hlength
  have htells : TellsLength P (Ready (LiveView S At n) config P.length) :=
    Ready.tellsLength hcorrect (by omega) hcursor hne
  intro layer hs
  exact readsThrough.tellsLength (fun _ => rfl) htells hs

section New

variable [Hkdf] [Kem] {persistentConfig : EncryptionPersistentConfig}
  {persistent : Option EncryptionPersistentConfig} {readerConfig loaded : EncryptionReaderConfig}

/-- All that the layer is in the one below. -/
def written (persistentConfig : EncryptionPersistentConfig) (config : InternalEncryptionConfig)
    (P : Bytes) : Bytes :=
  header persistentConfig ++ (config.encBody P ++ emptyTailOptsSerialization)

omit [Patience] [LayerReader σ] [Hkdf] in
theorem length_written : (written persistentConfig config P).length =
    (header persistentConfig).length + ((config.encBody P).length + 9) := by
  rw [written, List.length_append, List.length_append, length_emptyTailOptsSerialization]

omit [Patience] [LayerReader σ] [Hkdf] in
theorem strip_written : strip (written persistentConfig config P) (header persistentConfig).length 9 =
    config.encBody P := by
  rw [strip, length_written, written, ← List.append_assoc]
  exact slice_eq_mid rfl rfl (by omega)

theorem newSkipMagic_eq (hkem : Kem.Lossless)
    (h : IsCursor True (written persistentConfig config P) At Live)
    (hlen : (written persistentConfig config P).length < i64Size)
    (hpersistent : persistent.getD persistentConfig = persistentConfig)
    (hload : readerConfig.load persistentConfig = .ok loaded)
    (hparameters : loaded.encryptParameters = some (config.key, config.nonce)) (hs : At s 8) :
    ∃ layer, newSkipMagic s readerConfig persistent = .ok layer ∧
      Ready (LiveView (written persistentConfig config P) At (header persistentConfig).length)
        config 0 layer.inner := by
  have hword := i64Size_lt_u64Size
  have hlength : (written persistentConfig config P).length =
      (header persistentConfig).length + ((config.encBody P).length + 9) := length_written
  have hroom : (header persistentConfig).length + 9 ≤
      (written persistentConfig config P).length := by omega
  have hmagic : encryptionLayerMagic.length = 8 := rfl
  have hpre : persistentConfig.headerAfterMagic <+: (written persistentConfig config P).drop 8 := by
    rw [written, header, List.append_assoc, List.drop_left' hmagic]
    exact List.prefix_append _ _
  have htail : (written persistentConfig config P).drop
      ((written persistentConfig config P).length - 9) = emptyTailOptsSerialization := by
    rw [hlength, written, ← List.append_assoc]
    refine List.drop_left' ?_
    rw [List.length_append]
    omega
  obtain ⟨s₁, hheader, hs₁⟩ := readEncryptionHeaderAfterMagic_eq hkem (by omega) h.toDelivers
    (by omega) hs hpre
  obtain ⟨s₂, hends, hs₂⟩ := readTail_eq h hroom htail (h.live hs₁)
  have hnew : StripHeadTailReader.new s₂ (header persistentConfig).length 9
      (written persistentConfig config P).length 0 = .ok ⟨s₂, (header persistentConfig).length, 9,
        (written persistentConfig config P).length, 0⟩ :=
    StripHeadTailReader.new_eq hroom (by omega) s₂ 0
  have hview : Shows (written persistentConfig config P) At (header persistentConfig).length 9
      ⟨s₂, (header persistentConfig).length, 9, (written persistentConfig config P).length, 0⟩ 0 :=
    ⟨hs₂, rfl, rfl, rfl, rfl, Nat.zero_le _⟩
  have hcursor := isCursor_view h hlen hroom
  obtain ⟨inner, hinner, hready⟩ := InternalEncryptionLayerReader.new_ready config hcursor.toDelivers
    hcursor.live hview
  refine ⟨⟨inner⟩, ?_, hready⟩
  refine Except.bind_eq_ok.mpr ⟨_, runOn_eq_ok.mpr hheader, Except.bind_eq_ok.mpr ⟨_,
    runOn_eq_ok.mpr hends, ?_⟩⟩
  dsimp only
  rw [hpersistent]
  refine Except.bind_eq_ok.mpr ⟨loaded, hload, Except.bind_eq_ok.mpr ⟨_, hnew, ?_⟩⟩
  rw [hparameters]
  exact Except.bind_eq_ok.mpr ⟨inner, hinner, rfl⟩

end New

end EncryptionLayerReader

end Mla
