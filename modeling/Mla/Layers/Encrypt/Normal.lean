import Mla.Layers.Encrypt.Recovery

/-!
# The normal reader

Without a truncated mode the reader computes the size of the plaintext from the length of the
stream, and takes from it which chunk is the last one and where its tag ends.

`seekStart_slot` is a seek to a place in a chunk, and `initializeLayer_of_final` the
initialisation: the size is computed, the final block is checked under the number that it
implies, and the first chunk is loaded.
-/

namespace Mla

open Io

/-! ## How a slot opens -/

/-- The last chunk that a size implies starts inside the plaintext, unless that is empty. -/
theorem lastDataChunkNumber_spec (all : ℕ) :
    131072 * lastDataChunkNumber all ≤ all ∧ all ≤ 131072 * lastDataChunkNumber all + 131072 ∧
      (0 < all → 131072 * lastDataChunkNumber all < all) := by
  rw [lastDataChunkNumber, normalChunkPtSize_eq]
  split <;> omega

theorem lastDataChunkNumber_length (P : Bytes) : lastDataChunkNumber P.length = lastChunk P := by
  obtain ⟨hfirst, hlast, hin⟩ := lastChunk_spec P
  obtain ⟨hfirst', hlast', hin'⟩ := lastDataChunkNumber_spec P.length
  rcases List.eq_nil_or_concat P with rfl | ⟨front, last, rfl⟩
  · simp only [List.length_nil] at *
    omega
  · have hlt := hin (by simp)
    have hlt' := hin' (by simp)
    omega

section Slot

open InternalEncryptionConfig (chunkHead)

variable [AesGcm] {config : InternalEncryptionConfig} {P S : Bytes} {all c : ℕ}

omit [AesGcm] in
theorem isAtLeastInLastDataChunk_eq (hall : all < u64Size) (position : ℕ) :
    isAtLeastInLastDataChunk all position =
      .ok (decide (131072 * lastDataChunkNumber all ≤ position)) := by
  have hmul : checkedMul (lastDataChunkNumber all) 131072 =
      some (131072 * lastDataChunkNumber all) := by
    apply checkedMul_of_lt
    have := (lastDataChunkNumber_spec all).1
    omega
  rw [isAtLeastInLastDataChunk, normalChunkPtSize_eq, hmul]

/-- Before the last chunk, the end of the tag is guessed. -/
theorem slotOpened_before (hall : all < u64Size) (hc : c < lastDataChunkNumber all) :
    slotOpened none config all S c =
      openGuessed none config.key config.nonce (131072 * c) (slice S (131104 * c) 131104)
        (slice S (131104 * (c + 1)) 131104) := by
  have hbefore : decide (131072 * lastDataChunkNumber all ≤ 131072 * c) = false := by
    rw [decide_eq_false_iff_not]
    omega
  rw [slotOpened, openChunk, Option.isNone_none, if_pos rfl, isAtLeastInLastDataChunk_eq hall,
    hbefore]

/-- A chunk that is followed by more than a final block is taken to be full. -/
theorem slotOpened_before_full (hall : all < u64Size) (hc : c < lastDataChunkNumber all)
    (hlen : 131104 * c + 131139 ≤ S.length) :
    slotOpened none config all S c =
      openChunkAt none config.key config.nonce (131072 * c) (slice S (131104 * c) 131104)
        131104 := by
  have hguess : getEndOfTagPos none (slice S (131104 * c) 131104)
      (slice S (131104 * (c + 1)) 131104) = .ok 131104 := by
    rw [getEndOfTagPos, m0ChunkSize_eq, finalInfoSize_eq, if_pos]
    rw [length_slice, length_slice, Nat.mul_succ]
    omega
  rw [slotOpened_before hall hc, openGuessed, hguess]

/-- From the last chunk on, the size of the plaintext tells where the tag ends. -/
theorem slotOpened_last (hall : all < u64Size) (hc : lastDataChunkNumber all ≤ c) :
    slotOpened none config all S c =
      openLast none config.key config.nonce all (131072 * c) (slice S (131104 * c) 131104) := by
  have hlast : decide (131072 * lastDataChunkNumber all ≤ 131072 * c) = true := by
    rw [decide_eq_true_iff]
    omega
  rw [slotOpened, openChunk, Option.isNone_none, if_pos rfl, isAtLeastInLastDataChunk_eq hall,
    hlast]

/-- Behind the plaintext there is no chunk. -/
theorem slotOpened_behind (hall : all < u64Size) (hc : all ≤ 131072 * c) :
    slotOpened none config all S c = .nothing := by
  have hlast : lastDataChunkNumber all ≤ c := by
    have := (lastDataChunkNumber_spec all).1
    omega
  rw [slotOpened_last hall hlast, openLast, if_pos (by omega)]

theorem openLast_eq {position : ℕ} {chunk : Bytes} (hall : all < i64Size)
    (hposition : position < all) :
    openLast none config.key config.nonce all position chunk =
      openChunkAt none config.key config.nonce position chunk (16 + (all - position) + 16) := by
  have hend : (checkedAdd (all - position) tagLength).bind (checkedAdd · chunkHeadSize) =
      some (16 + (all - position) + 16) := by
    rw [i64Size_eq] at hall
    rw [tagLength_eq, chunkHeadSize_eq, checkedAdd_of_lt (by rw [u64Size_eq]; omega),
      Option.bind_some, checkedAdd_of_lt (by rw [u64Size_eq]; omega)]
    congr 1
    omega
  rw [openLast, if_neg (by omega), hend]

/-- Every chunk of an honest stream opens. -/
theorem slotOpened_honest (hcorrect : AesGcm.Correct) (hS : (config.encBody P).length < i64Size)
    (hne : P ≠ []) (hc : c ≤ lastChunk P) :
    slotOpened none config P.length (config.encBody P) c = .chunk (chunkHead c ++ chunkData P c) := by
  obtain ⟨hfirst, hlast, hin⟩ := lastChunk_spec P
  have hin := hin hne
  have hlen := config.length_encBody P
  rw [i64Size_eq] at hS
  have hauth := config.authentic_of_correct hcorrect c (chunkData P c)
  rcases Nat.lt_or_eq_of_le hc with hlt | rfl
  · have hdata := length_chunkData_of_lt hlt
    have hslot : slice (config.encBody P) (131104 * c) 131104 =
        (config.encChunk c (chunkData P c) ++ []).take 131104 := by
      rw [List.append_nil, List.take_of_length_le (by rw [config.length_encChunk_of_lt hlt])]
      have h := config.slice_encBody_of_lt hlt []
      rwa [List.append_nil] at h
    have hopen := openChunkAt_encChunk [] (by rw [u64Size_eq]; omega) hdata.le
      (Or.inr hauth : none = some TruncatedReaderDecryptionMode.dataEvenUnauthenticated ∨ _)
    rw [slotOpened_before_full (by rw [u64Size_eq]; omega)
      (by rw [lastDataChunkNumber_length]; exact hlt) (by omega), hslot]
    rwa [hdata] at hopen
  · have hdata := length_chunkData_last P
    have hslot : slice (config.encBody P) (131104 * lastChunk P) 131104 =
        (config.encChunk (lastChunk P) (chunkData P (lastChunk P)) ++
          config.encTail P).take 131104 := by
      have h := config.drop_encBody P []
      rw [List.append_nil, List.append_nil] at h
      rw [slice, h]
    have hopen := openChunkAt_encChunk (config.encTail P) (by rw [u64Size_eq]; omega)
      (length_chunkData_le P _)
      (Or.inr hauth : none = some TruncatedReaderDecryptionMode.dataEvenUnauthenticated ∨ _)
    rw [slotOpened_last (by rw [u64Size_eq]; omega) (by rw [lastDataChunkNumber_length]),
      openLast_eq (by rw [i64Size_eq]; omega) hin, hslot]
    rwa [hdata] at hopen

end Slot

namespace InternalEncryptionLayerReader

section Reader

variable {σ : Type} [Patience] [AesGcm] [Read Error σ] [Seek Error σ] {S : Bytes}
  {At : σ → ℕ → Prop} {Live : σ → Prop} {config : InternalEncryptionConfig} {all c x p : ℕ}
  {s : InternalEncryptionLayerReader σ}

/-! ## Seeking -/

/-- What a seek needs of the reader: its session, the size of the plaintext, and an inner reader
that can be moved. -/
structure Ready (Live : σ → Prop) (config : InternalEncryptionConfig) (all : ℕ)
    (s : InternalEncryptionLayerReader σ) : Prop where
  config_eq : s.config = config
  mode_eq : s.truncatedDecryptionMode = none
  all_eq : s.allPlaintextSize = all
  live : Live s.inner

omit [Patience] [AesGcm] in
theorem Behind.ready (hcursor : IsCursor True S At Live) (h : Behind S At config none all s c) :
    Ready Live config all s :=
  ⟨h.config_eq, h.mode_eq, h.all_eq, hcursor.live h.inner⟩

/-- The reader that was moved to a chunk. -/
def moved (s : InternalEncryptionLayerReader σ) (inner : σ) (c : ℕ) (bytes : Bytes) :
    InternalEncryptionLayerReader σ :=
  { s with inner, currentPositionInThisLayer := 131072 * c, nextChunkCache := bytes }

omit [Patience] [AesGcm] [Read Error σ] [Seek Error σ] in
theorem moveInChunk_holding (hx : x < 131072) (h : s.currentPositionInThisLayer + x < u64Size) :
    moveInChunk x s = .ok () ((s.holding s.chunkCache.data).advance x) := by
  rw [moveInChunk_eq hx h]
  rfl

omit [AesGcm] in
/-- Moving to a chunk puts its slot in the next chunk cache. -/
theorem Ready.moveToChunk (hcursor : IsCursor True S At Live) (hS : S.length < i64Size)
    (h : Ready Live config all s) (hp : p = 131072 * c + x) (hx : x < 131072)
    (hc : 131104 * c ≤ S.length) :
    ∃ s₁, InternalEncryptionLayerReader.moveToChunk p s = .ok x s₁ ∧
      Behind S At config none all s₁ c ∧ s₁.currentPositionInThisLayer = 131072 * c := by
  have htarget : Target True S (131104 * c) := by
    rcases Nat.lt_or_eq_of_le hc with hlt | heq
    · exact Or.inl hlt
    · exact Or.inr ⟨trivial, heq⟩
  obtain ⟨inner, hseek, hinner⟩ := hcursor.seekStart h.live htarget
  obtain ⟨inner', htake, hinner'⟩ := hcursor.takeReadToEnd_eq m0ChunkSize hinner (Or.inl trivial)
  have hbound : 131104 * c + x + 16 < u64Size := by
    rw [i64Size_eq] at hS
    rw [u64Size_eq]
    omega
  refine ⟨s.moved inner' c (slice S (131104 * c) 131104), ?_,
    ⟨h.config_eq, h.mode_eq, h.all_eq, rfl, ?_⟩, rfl⟩
  · rw [moveToChunk_eq hp hx hbound, hseek]
    dsimp only
    rw [fillNextChunkCache_eq htake, m0ChunkSize_eq]
    rfl
  · have hpos : min (131104 * c + m0ChunkSize) S.length = min (131104 * (c + 1)) S.length := by
      rw [m0ChunkSize_eq, Nat.mul_succ]
    rwa [hpos] at hinner'

/-- A seek to a place in a chunk stands at that place in what is in the cache once the slot was
opened. -/
theorem Ready.seekStart (hcursor : IsCursor True S At Live) (hS : S.length < i64Size)
    (h : Ready Live config all s) (hp : p = 131072 * c + x) (hx : x < 131072)
    (hc : 131104 * c ≤ S.length) :
    ∃ s₂, Behind S At config none all s₂ (c + 1) ∧
      s₂.currentPositionInThisLayer = 131072 * c ∧
      (∀ cache, slotOpened none config all S c = .chunk cache →
        InternalEncryptionLayerReader.seekStart p s = .ok p ((s₂.holding cache).advance x)) ∧
      (slotOpened none config all S c = .nothing →
        InternalEncryptionLayerReader.seekStart p s =
          .ok p ((s₂.holding (slice S (131104 * c) 131104)).advance x)) ∧
      (∀ e cache, slotOpened none config all S c = .failed e cache →
        ∃ s', InternalEncryptionLayerReader.seekStart p s = .error (.other e) s') := by
  obtain ⟨s₁, hmove, hbehind, hposition⟩ := h.moveToChunk hcursor hS hp hx hc
  obtain ⟨bytes, inner, hload, hnext, hopened⟩ := hbehind.load hcursor.toDelivers
  rw [hposition] at hopened
  have hslot : (s₁.loaded bytes inner).openCached = slotOpened none config all S c := hopened
  have hbound : s₁.currentPositionInThisLayer + x < u64Size := by
    rw [i64Size_eq] at hS
    rw [u64Size_eq]
    omega
  refine ⟨s₁.loaded bytes inner, hnext, by rw [position_loaded, hposition], ?_, ?_, ?_⟩
  · intro cache hchunk
    have hload' : loadInCache s₁ = .ok (some ()) ((s₁.loaded bytes inner).holding cache) := by
      rw [hload, openInCache, hslot, hchunk, chunkHeadSize_eq, holding]
    exact seekStart_of_ok hmove hload' (moveInChunk_holding hx hbound)
  · intro hnothing
    have hload' : loadInCache s₁ = .ok none (s₁.loaded bytes inner) := by
      rw [hload, openInCache, hslot, hnothing]
    have hcache : (s₁.loaded bytes inner).chunkCache.data = slice S (131104 * c) 131104 :=
      hbehind.next
    rw [← hcache]
    exact seekStart_of_ok hmove hload' (moveInChunk_holding hx hbound)
  · intro e cache hfailed
    have hload' : loadInCache s₁ =
        .error e { s₁.loaded bytes inner with chunkCache := ⟨cache, 0⟩ } := by
      rw [hload, openInCache, hslot, hfailed]
    exact ⟨_, seekStart_of_error hmove hload'⟩

/-! ## Initialising -/

omit [Patience] [AesGcm] in
/-- The size of the plaintext is computed from the length of the stream. -/
theorem Ready.setAllPlaintextSize {all₀ : ℕ} (hcursor : IsCursor True S At Live)
    (h : Ready Live config all₀ s) :
    (∀ all, plaintextSize S.length = some all →
      ∃ s', InternalEncryptionLayerReader.setAllPlaintextSize s = .ok () s' ∧
        Ready Live config all s') ∧
    (plaintextSize S.length = none →
      ∃ e s', InternalEncryptionLayerReader.setAllPlaintextSize s = .error e s') := by
  obtain ⟨inner, hseek, hinner⟩ := hcursor.seekEnd h.live (Or.inr ⟨trivial, rfl⟩)
  rw [Int.sub_self] at hseek
  have hseekInner : seekInner (.fromEnd 0) s = .ok S.length { s with inner } := by
    simp only [seekInner, zoom, hseek]
  constructor
  · intro all hsize
    refine ⟨{ s with inner, allPlaintextSize := all }, ?_,
      ⟨h.config_eq, h.mode_eq, rfl, hcursor.live hinner⟩⟩
    simp only [InternalEncryptionLayerReader.setAllPlaintextSize, bind_apply, liftIo_apply,
      hseekInner, hsize, okOr_some, pure_apply, modify_apply]
  · intro hsize
    refine ⟨.deserializationError, { s with inner }, ?_⟩
    simp only [InternalEncryptionLayerReader.setAllPlaintextSize, bind_apply, liftIo_apply,
      hseekInner, hsize, okOr_none, throw_apply]

/-- The final block is checked under the number that the size implies. -/
theorem Ready.checkLastBlock (hcursor : IsCursor True S At Live) (hS : S.length < i64Size)
    (hall : all < u64Size) (h : Ready Live config all s) (hlen : 34 ≤ S.length) :
    (finalBlockOpens config.key config.nonce (lastDataChunkNumber all + 2)
        (S.drop (S.length - 34)) = true →
      ∃ s', InternalEncryptionLayerReader.checkLastBlock s = .ok () s' ∧
        Ready Live config all s') ∧
    (finalBlockOpens config.key config.nonce (lastDataChunkNumber all + 2)
        (S.drop (S.length - 34)) = false →
      ∃ e s', InternalEncryptionLayerReader.checkLastBlock s = .error e s') := by
  obtain ⟨hconfig, hmode, rfl, hlive⟩ := h
  have htarget : Target True S (S.length - 34) := Or.inl (by omega)
  obtain ⟨inner, hseek, hinner⟩ := hcursor.seekEnd hlive htarget
  obtain ⟨inner', htake, hinner'⟩ :=
    hcursor.takeReadToEnd_eq (i64Size - 1) hinner (Or.inl trivial)
  have hoffset : ((finalInfoSizeWom + endOfEncryptedInnerLayerMagic.length : ℕ) : ℤ) = 34 := rfl
  have hplace : ((S.length - 34 : ℕ) : ℤ) - S.length = -34 := by omega
  have hseekInner : seekInner (.fromEnd (-34)) s = .ok (S.length - 34) { s with inner } := by
    rw [hplace] at hseek
    simp only [seekInner, zoom, hseek]
  have hrest : slice S (S.length - 34) (i64Size - 1) = S.drop (S.length - 34) :=
    slice_eq_drop (by omega)
  have hread : readInnerToEnd { s with inner } =
      .ok (S.drop (S.length - 34)) { s with inner := inner' } := by
    rw [hrest] at htake
    simp only [readInnerToEnd, htake]
  have hlong : ¬ (S.drop (S.length - 34)).length < finalInfoSizeWom := by
    rw [List.length_drop, finalInfoSizeWom_eq]
    omega
  subst hconfig
  constructor
  · intro hopens
    have hopens : finalBlockOpens s.key s.nonce (lastDataChunkNumber s.allPlaintextSize + 1 + 1)
      (S.drop (S.length - 34)) = true := hopens
    refine ⟨{ s with inner := inner' }, ?_, ⟨rfl, hmode, rfl, hcursor.live hinner'⟩⟩
    rw [InternalEncryptionLayerReader.checkLastBlock]
    simp only [hoffset, bind_apply, liftIo_apply, hseekInner, get_apply,
      finalSequenceNumber_eq hall, okOr_some, pure_apply, hread, if_neg hlong, hopens,
      if_true]
  · intro hopens
    have hopens : finalBlockOpens s.key s.nonce (lastDataChunkNumber s.allPlaintextSize + 1 + 1)
      (S.drop (S.length - 34)) = false := hopens
    refine ⟨.invalidLastTag, { s with inner := inner' }, ?_⟩
    rw [InternalEncryptionLayerReader.checkLastBlock]
    simp only [hoffset, bind_apply, liftIo_apply, hseekInner, get_apply,
      finalSequenceNumber_eq hall, okOr_some, pure_apply, hread, if_neg hlong, hopens,
      Bool.false_eq_true, if_false, throw_apply]

/-- A stream without room for the final block is refused. -/
theorem Ready.checkLastBlock_short (hrefuses : RefusesBefore S Live) (h : Ready Live config all s)
    (hlen : S.length < 34) :
    ∃ e s', InternalEncryptionLayerReader.checkLastBlock s = .error e s' := by
  have hoffset : ((finalInfoSizeWom + endOfEncryptedInnerLayerMagic.length : ℕ) : ℤ) = 34 := rfl
  obtain ⟨e, inner, hseek⟩ := hrefuses (d := -34) h.live (by omega)
  have hseekInner : seekInner (.fromEnd (-34)) s = .error e { s with inner } := by
    simp only [seekInner, zoom, hseek]
  refine ⟨.ioError e, { s with inner }, ?_⟩
  rw [InternalEncryptionLayerReader.checkLastBlock]
  simp only [hoffset, bind_apply, liftIo_apply, hseekInner]

/-- Once the size is computed and the final block is checked, the first chunk is loaded. -/
theorem Ready.initializeLayer {all₀ : ℕ} (hcursor : IsCursor True S At Live)
    (hS : S.length < i64Size) (h : Ready Live config all₀ s)
    (hsize : plaintextSize S.length = some all) (hall : all < u64Size) (hlen : 34 ≤ S.length)
    (hopens : finalBlockOpens config.key config.nonce (lastDataChunkNumber all + 2)
      (S.drop (S.length - 34)) = true) :
    ∃ s', Ready Live config all s' ∧
      InternalEncryptionLayerReader.initializeLayer s = liftIo rewind s' := by
  obtain ⟨s₁, hset, hready⟩ := (h.setAllPlaintextSize hcursor).1 all hsize
  obtain ⟨s₂, hcheck, hready⟩ := (hready.checkLastBlock hcursor hS hall hlen).1 hopens
  refine ⟨s₂, hready, ?_⟩
  simp only [InternalEncryptionLayerReader.initializeLayer, bind_apply, hset, hcheck]

/-- What a reader that was initialised has found. -/
theorem Ready.of_initializeLayer {all₀ : ℕ} {s' : InternalEncryptionLayerReader σ}
    (hcursor : IsCursor True S At Live) (hrefuses : RefusesBefore S Live)
    (hS : S.length < i64Size) (h : Ready Live config all₀ s)
    (hinit : InternalEncryptionLayerReader.initializeLayer s = .ok () s') :
    ∃ all, plaintextSize S.length = some all ∧ 34 ≤ S.length ∧
      finalBlockOpens config.key config.nonce (lastDataChunkNumber all + 2)
        (S.drop (S.length - 34)) = true := by
  obtain ⟨hsome, hnone⟩ := h.setAllPlaintextSize hcursor
  cases hsize : plaintextSize S.length with
  | none =>
      obtain ⟨e, s₁, hset⟩ := hnone hsize
      simp only [InternalEncryptionLayerReader.initializeLayer, bind_apply, hset] at hinit
      cases hinit
  | some all =>
      obtain ⟨s₁, hset, hready⟩ := hsome all hsize
      refine ⟨all, rfl, ?_⟩
      by_cases hlen : 34 ≤ S.length
      · refine ⟨hlen, ?_⟩
        by_contra hopens
        rw [Bool.not_eq_true] at hopens
        obtain ⟨e, s₂, hcheck⟩ :=
          (hready.checkLastBlock hcursor hS (plaintextSize_lt hsize) hlen).2 hopens
        simp only [InternalEncryptionLayerReader.initializeLayer, bind_apply, hset, hcheck]
          at hinit
        cases hinit
      · obtain ⟨e, s₂, hcheck⟩ := hready.checkLastBlock_short hrefuses (by omega)
        simp only [InternalEncryptionLayerReader.initializeLayer, bind_apply, hset, hcheck]
          at hinit
        cases hinit

theorem rewind_of_ok {s' : InternalEncryptionLayerReader σ}
    (h : InternalEncryptionLayerReader.seekStart 0 s = .ok 0 s') : rewind s = .ok () s' := by
  have hseek : seek (.start 0) s = .ok 0 s' := by
    rw [seek, if_neg (by decide), askedPosition]
    exact h
  simp only [rewind, bind_apply, hseek, pure_apply]

theorem rewind_of_error {e : IoError Error} {s' : InternalEncryptionLayerReader σ}
    (h : InternalEncryptionLayerReader.seekStart 0 s = .error e s') :
    rewind s = .error e s' := by
  have hseek : seek (.start 0) s = .error e s' := by
    rw [seek, if_neg (by decide), askedPosition]
    exact h
  simp only [rewind, bind_apply, hseek]

/-- An initialisation that finds the final block ends with what the first slot holds. -/
theorem Ready.initializeLayer_slot {all₀ : ℕ} (hcursor : IsCursor True S At Live)
    (hS : S.length < i64Size) (h : Ready Live config all₀ s)
    (hsize : plaintextSize S.length = some all) (hlen : 34 ≤ S.length)
    (hopens : finalBlockOpens config.key config.nonce (lastDataChunkNumber all + 2)
      (S.drop (S.length - 34)) = true) :
    ∃ s₂, Behind S At config none all s₂ 1 ∧ s₂.currentPositionInThisLayer = 0 ∧
      (∀ cache, slotOpened none config all S 0 = .chunk cache →
        InternalEncryptionLayerReader.initializeLayer s = .ok () (s₂.holding cache)) ∧
      (slotOpened none config all S 0 = .nothing →
        InternalEncryptionLayerReader.initializeLayer s =
          .ok () (s₂.holding (S.take 131104))) ∧
      (∀ e cache, slotOpened none config all S 0 = .failed e cache →
        ∃ e' s', InternalEncryptionLayerReader.initializeLayer s = .error e' s') := by
  obtain ⟨s₁, hready, hinit⟩ :=
    h.initializeLayer hcursor hS hsize (plaintextSize_lt hsize) hlen hopens
  obtain ⟨s₂, hbehind, hposition, hchunk, hnothing, hfailed⟩ :=
    hready.seekStart (p := 0) (c := 0) (x := 0) hcursor hS (by omega) (by omega) (by omega)
  rw [Nat.mul_zero] at hposition hnothing
  rw [slice_zero] at hnothing
  refine ⟨s₂, hbehind, hposition, ?_, ?_, ?_⟩
  · intro cache hslot
    simp only [hinit, liftIo_apply, rewind_of_ok (hchunk cache hslot), advance_zero]
  · intro hslot
    simp only [hinit, liftIo_apply, rewind_of_ok (hnothing hslot), advance_zero]
  · intro e cache hslot
    obtain ⟨s', hseek⟩ := hfailed e cache hslot
    refine ⟨.ioError (.other e), s', ?_⟩
    simp only [hinit, liftIo_apply, rewind_of_error hseek]

variable (config) in
omit [AesGcm] [Seek Error σ] in
/-- The reader as it is built. -/
theorem new_ready {inner : σ} (hcursor : Delivers True S At) (hlive : ∀ {s p}, At s p → Live s)
    (hinner : At inner 0) :
    ∃ s, new inner (some (config.key, config.nonce)) none = .ok s ∧ Ready Live config 0 s := by
  obtain ⟨inner', htake, hinner'⟩ := hcursor.takeReadToEnd_eq m0ChunkSize hinner (Or.inl trivial)
  refine ⟨⟨inner', config.key, config.nonce, ⟨[], 0⟩, slice S 0 m0ChunkSize, 0, 0, none⟩, ?_,
    ⟨rfl, rfl, rfl, hlive hinner'⟩⟩
  rw [new, htake]

end Reader

end InternalEncryptionLayerReader

end Mla
