import Mla.Layers.Encrypt.Load

/-!
# Reading a stream chunk by chunk

`Delivery opened c out stop` says what comes out of a stream from chunk `c` on, when
`opened` tells how each chunk opens: the plaintext of the chunks, until one is short, is
absent or does not open. The reader that is read to its end, with buffers of any sizes,
returns exactly that.
-/

namespace Mla

open Io

/-- What the cache of an opened chunk gives before it is renewed. -/
def cacheData (cache : Bytes) : Bytes :=
  slice cache chunkHeadSize normalChunkPtSize

/-- What comes out from chunk `c` on, and how it stops. -/
inductive Delivery (opened : ℕ → Opened) : ℕ → Bytes → Stop → Prop
  | nothing {c} (hopen : opened c = .nothing) : Delivery opened c [] .endOfStream
  | failed {c e cache} (hopen : opened c = .failed e cache) : Delivery opened c [] .failed
  | last {c cache} (hopen : opened c = .chunk cache)
      (hlast : (cacheData cache).length < normalChunkPtSize) :
      Delivery opened c (cacheData cache) .endOfStream
  | full {c cache out stop} (hopen : opened c = .chunk cache)
      (hfull : (cacheData cache).length = normalChunkPtSize)
      (hrest : Delivery opened (c + 1) out stop) :
      Delivery opened c (cacheData cache ++ out) stop

theorem length_cacheData (cache : Bytes) :
    (cacheData cache).length = min 131072 (cache.length - 16) := by
  rw [cacheData, length_slice, chunkHeadSize_eq, normalChunkPtSize_eq]

/-- A stream delivers one thing only. -/
theorem Delivery.unique {opened : ℕ → Opened} {c : ℕ} {out out' : Bytes} {stop stop' : Stop}
    (h : Delivery opened c out stop) (h' : Delivery opened c out' stop') :
    out = out' ∧ stop = stop' := by
  induction h generalizing out' stop' with
  | nothing hopen => cases h' <;> simp_all
  | failed hopen => cases h' <;> simp_all
  | last hopen hlast =>
      cases h' with
      | nothing hopen' => rw [hopen] at hopen'; cases hopen'
      | failed hopen' => rw [hopen] at hopen'; cases hopen'
      | last hopen' _ => rw [hopen] at hopen'; cases hopen'; exact ⟨rfl, rfl⟩
      | full hopen' hfull _ => rw [hopen] at hopen'; cases hopen'; omega
  | full hopen hfull _ ih =>
      cases h' with
      | nothing hopen' => rw [hopen] at hopen'; cases hopen'
      | failed hopen' => rw [hopen] at hopen'; cases hopen'
      | last hopen' hlast => rw [hopen] at hopen'; cases hopen'; omega
      | full hopen' _ hrest' =>
          rw [hopen] at hopen'
          cases hopen'
          obtain ⟨rfl, rfl⟩ := ih hrest'
          exact ⟨rfl, rfl⟩

/-- How the chunk in slot `c` of a stream opens. -/
def slotOpened [AesGcm] (mode : Option TruncatedReaderDecryptionMode)
    (config : InternalEncryptionConfig) (all : ℕ) (S : Bytes) (c : ℕ) : Opened :=
  openChunk mode config.key config.nonce all (131072 * c) (slice S (131104 * c) 131104)
    (slice S (131104 * (c + 1)) 131104)

section Open

variable [AesGcm] {mode : Option TruncatedReaderDecryptionMode} {config : InternalEncryptionConfig}

/-- In a truncated mode, only the number of the chunk matters. -/
theorem openChunk_position {all b c : ℕ} (hmode : mode ≠ none) (hb : b / 131072 = c)
    (chunk next : Bytes) :
    openChunk mode config.key config.nonce all b chunk next =
      openChunk mode config.key config.nonce all (131072 * c) chunk next := by
  have hnumber : currentDataChunkNumber b = currentDataChunkNumber (131072 * c) := by
    simp only [currentDataChunkNumber, normalChunkPtSize_eq]
    omega
  have hmode : mode.isNone = false := by cases mode <;> simp_all
  have hat : ∀ e, openChunkAt mode config.key config.nonce b chunk e =
      openChunkAt mode config.key config.nonce (131072 * c) chunk e := by
    intro e
    simp only [openChunkAt, hnumber]
  simp only [openChunk, hmode, openGuessed, hat, Bool.false_eq_true, if_false]

/-- An opened chunk is no longer than what it was opened from. -/
theorem openChunk_length {all position : ℕ} {chunk next cache : Bytes}
    (h : openChunk mode config.key config.nonce all position chunk next = .chunk cache) :
    16 ≤ cache.length ∧ cache.length ≤ chunk.length := by
  obtain ⟨e, he⟩ := openChunk_eq_chunk_at h
  obtain ⟨m, rfl, hm, hposition⟩ := openChunkAt_eq_chunk he
  rw [openChunkAt_eq _ _ _ rfl hposition hm] at he
  split at he
  · cases he
    rw [List.length_append, List.length_take, InternalEncryptionConfig.length_plaintext,
      length_slice_of_le hm]
    omega
  · split at he <;> cases he

end Open

namespace InternalEncryptionLayerReader

section Drain

variable {σ : Type} [Patience] [AesGcm] [Read Error σ] {S : Bytes} {At : σ → ℕ → Prop}
  {config : InternalEncryptionConfig} {mode : Option TruncatedReaderDecryptionMode}
  {all c b : ℕ} {s : InternalEncryptionLayerReader σ}

/-- A reader after `n` more bytes of its cache. -/
def advance (s : InternalEncryptionLayerReader σ) (n : ℕ) : InternalEncryptionLayerReader σ :=
  { s with
    chunkCache := ⟨s.chunkCache.data, s.chunkCache.pos + n⟩
    currentPositionInThisLayer := s.currentPositionInThisLayer + n }

omit [Patience] [AesGcm] [Read Error σ] in
theorem advance_zero : s.advance 0 = s := rfl

omit [Patience] [AesGcm] [Read Error σ] in
theorem advance_advance (m n : ℕ) : (s.advance m).advance n = s.advance (m + n) := by
  simp only [advance, Nat.add_assoc]

/-- Reading from the cache returns a piece of it and moves on. -/
theorem read_of_lt {n k : ℕ} (hk : k = min (min (131088 - s.chunkCache.pos) n)
      (s.chunkCache.data.length - s.chunkCache.pos))
    (hpos : s.chunkCache.pos < 131088)
    (hposition : s.currentPositionInThisLayer + k < u64Size) :
    Read.read n s = .ok (slice s.chunkCache.data s.chunkCache.pos k) (s.advance k) := by
  have hbytes : cacheBytes n s = slice s.chunkCache.data s.chunkCache.pos k := by
    rw [cacheBytes, slice_eq_slice_min, ← hk]
  have hlen : (cacheBytes n s).length = k := by
    rw [hbytes, length_slice]
    omega
  have hread : readInternal n s = consumeCache n s := readInternal_of_lt hpos
  rw [consumeCache_eq (by rwa [hlen]), hlen, hbytes] at hread
  simp only [Read.read, hread]
  rfl

/-- Reading until the cache is used up returns all of it. -/
theorem drain_cache :
    ∀ (k : ℕ) {s : InternalEncryptionLayerReader σ} {sizes : ℕ → ℕ}, (∀ i, 0 < sizes i) →
      k = min 131088 s.chunkCache.data.length - s.chunkCache.pos →
      s.currentPositionInThisLayer + k < u64Size →
      ∃ j, ∀ fuel, drain sizes (fuel + j) s =
        (drain (fun i => sizes (i + j)) fuel (s.advance k)).map fun r =>
          (slice s.chunkCache.data s.chunkCache.pos k ++ r.1, r.2) := by
  intro k
  induction k using Nat.strong_induction_on with
  | _ k ih =>
      intro s sizes hsizes hk hposition
      rcases Nat.eq_zero_or_pos k with rfl | hpos
      · refine ⟨0, fun fuel => ?_⟩
        simp [advance_zero]
      · -- A call takes what it asks for, or all that is left.
        obtain ⟨n, hn⟩ : ∃ n, n = min k (sizes 0) := ⟨_, rfl⟩
        have hkn : n ≤ k := hn ▸ Nat.min_le_left _ _
        have hn0 : 0 < n := hn ▸ Nat.lt_min.mpr ⟨hpos, hsizes 0⟩
        have hcap : s.chunkCache.pos + k = min 131088 s.chunkCache.data.length := by
          rw [hk, Nat.add_sub_cancel' (Nat.le_of_lt (Nat.lt_of_sub_pos (hk ▸ hpos)))]
        have hbefore : s.chunkCache.pos < 131088 :=
          (Nat.lt_add_of_pos_right hpos).trans_le (hcap ▸ Nat.min_le_left _ _)
        have hwithin : s.chunkCache.pos + n ≤ s.chunkCache.data.length :=
          (Nat.add_le_add_left hkn _).trans (hcap ▸ Nat.min_le_right _ _)
        have hread := read_of_lt (n := sizes 0) (k := n)
          (by rw [hn, hk, ← Nat.sub_min_sub_right, min_right_comm]) hbefore
          (Nat.lt_of_le_of_lt (Nat.add_le_add_left hkn _) hposition)
        have hne : (slice s.chunkCache.data s.chunkCache.pos n).isEmpty = false :=
          isEmpty_slice hn0 hwithin
        obtain ⟨j, hj⟩ := ih (k - n) (Nat.sub_lt hpos hn0) (s := s.advance n)
          (fun i => hsizes (i + 1) : ∀ i, 0 < sizes (i + 1))
          (by simp only [advance]; rw [hk, Nat.sub_sub])
          (by simp only [advance]; omega)
        refine ⟨j + 1, fun fuel => ?_⟩
        have hcut : slice s.chunkCache.data s.chunkCache.pos k =
            slice s.chunkCache.data s.chunkCache.pos n ++
              slice s.chunkCache.data (s.chunkCache.pos + n) (k - n) := by
          rw [← slice_add]
          congr 1
          omega
        have hsum : n + (k - n) = k := by omega
        rw [← Nat.add_assoc, drain_of_read hread hne, hj fuel, advance_advance, hsum, hcut,
          Option.map_map]
        congr 1
        funext r
        simp [advance, Function.comp]

/-- The next chunk cache holds slot `c`, and the inner reader stands behind it. -/
structure Behind (S : Bytes) (At : σ → ℕ → Prop) (config : InternalEncryptionConfig)
    (mode : Option TruncatedReaderDecryptionMode) (all : ℕ) (s : InternalEncryptionLayerReader σ)
    (c : ℕ) : Prop where
  config_eq : s.config = config
  mode_eq : s.truncatedDecryptionMode = mode
  all_eq : s.allPlaintextSize = all
  next : s.nextChunkCache = slice S (131104 * c) 131104
  inner : At s.inner (min (131104 * (c + 1)) S.length)

/-- Loading opens the chunk in the slot, with the next slot in the other cache. -/
theorem Behind.load (hdelivers : Delivers True S At) (h : Behind S At config mode all s c) :
    ∃ bytes inner, loadInCache s = openInCache (s.loaded bytes inner) ∧
      Behind S At config mode all (s.loaded bytes inner) (c + 1) ∧
      (s.loaded bytes inner).openCached =
        openChunk mode config.key config.nonce all s.currentPositionInThisLayer
          (slice S (131104 * c) 131104) (slice S (131104 * (c + 1)) 131104) := by
  obtain ⟨inner, htake, hinner⟩ := hdelivers.takeReadToEnd_eq m0ChunkSize h.inner
    (Or.inl trivial)
  rw [m0ChunkSize_eq, slice_min_start] at htake
  refine ⟨_, inner, loadInCache_eq (by rw [m0ChunkSize_eq]; exact htake),
    ⟨h.config_eq, h.mode_eq, h.all_eq, rfl, ?_⟩, ?_⟩
  · have hpos : min (min (131104 * (c + 1)) S.length + m0ChunkSize) S.length =
        min (131104 * (c + 1 + 1)) S.length := by
      rw [m0ChunkSize_eq]
      omega
    rwa [hpos] at hinner
  · rw [openCached, loaded, h.mode_eq, h.all_eq, h.next, ← h.config_eq]
    rfl

omit [Patience] [AesGcm] [Read Error σ] in
theorem Behind.advance {n : ℕ} (h : Behind S At config mode all s c) :
    Behind S At config mode all (s.advance n) c :=
  ⟨h.config_eq, h.mode_eq, h.all_eq, h.next, h.inner⟩

/-- A cache that is shorter than a chunk is read to its end, and nothing more. -/
theorem drain_short {sizes : ℕ → ℕ} (hsizes : ∀ i, 0 < sizes i)
    (hshort : s.chunkCache.data.length < 131088) (hpos : s.chunkCache.pos < 131088)
    (hposition : s.currentPositionInThisLayer + s.chunkCache.data.length < u64Size) :
    ∃ fuel s', drain sizes fuel s =
      some (s.chunkCache.data.drop s.chunkCache.pos, .endOfStream, s') := by
  obtain ⟨j, hj⟩ := drain_cache (s := s) _ hsizes rfl (by omega)
  have hread : Read.read (sizes (0 + j))
      (s.advance (min 131088 s.chunkCache.data.length - s.chunkCache.pos)) =
      .ok [] ((s.advance (min 131088 s.chunkCache.data.length - s.chunkCache.pos)).advance 0) := by
    rw [read_of_lt (k := 0)]
    · rw [slice_zero_length]
    · simp only [advance]
      omega
    · simp only [advance]
      omega
    · simp only [advance]
      omega
  refine ⟨0 + 1 + j,
    (s.advance (min 131088 s.chunkCache.data.length - s.chunkCache.pos)).advance 0, ?_⟩
  rw [hj, drain_of_end hread, Option.map_some, slice_eq_drop (by omega), List.append_nil]

/-- A cache as long as a chunk is read to where the next chunk is due. -/
theorem drain_full {sizes : ℕ → ℕ} (hsizes : ∀ i, 0 < sizes i) {k : ℕ} {out : Bytes} {stop : Stop}
    (hfull : 131088 ≤ s.chunkCache.data.length) (hk : s.chunkCache.pos + k = 131088)
    (hposition : s.currentPositionInThisLayer + k < u64Size)
    (hrest : ∀ sizes : ℕ → ℕ, (∀ i, 0 < sizes i) →
      ∃ fuel s', drain sizes fuel (s.advance k) = some (out, stop, s')) :
    ∃ fuel s', drain sizes fuel s =
      some (slice s.chunkCache.data s.chunkCache.pos k ++ out, stop, s') := by
  obtain ⟨j, hj⟩ := drain_cache (s := s) k hsizes (by omega) (by omega)
  obtain ⟨fuel, s', hdrain⟩ := hrest (fun i => sizes (i + j)) fun i => hsizes (i + j)
  exact ⟨fuel + j, s', by rw [hj, hdrain, Option.map_some]⟩

/-- Where the layer stands as chunk `c` is due. -/
def Due (mode : Option TruncatedReaderDecryptionMode) (b c : ℕ) : Prop :=
  b = 131072 * c ∨ mode ≠ none ∧ b / 131072 = c ∧ b ≤ 131072 * c + 16

omit [Patience] in
theorem openChunk_of_due (h : Due mode b c) :
    openChunk mode config.key config.nonce all b (slice S (131104 * c) 131104)
      (slice S (131104 * (c + 1)) 131104) = slotOpened mode config all S c := by
  rcases h with rfl | ⟨hmode, hb, -⟩
  · rfl
  · exact openChunk_position hmode hb _ _

/-- The reader that has just opened a chunk. -/
def holding (s : InternalEncryptionLayerReader σ) (cache : Bytes) :
    InternalEncryptionLayerReader σ :=
  { s with chunkCache := ⟨cache, 16⟩ }

section Fields

/-! The sizes are literals too large to be unfolded, so that the fields are read off by
rewriting. -/

omit [Patience] [AesGcm] [Read Error σ]

theorem data_holding (cache : Bytes) : (s.holding cache).chunkCache.data = cache := (rfl)

theorem pos_holding (cache : Bytes) : (s.holding cache).chunkCache.pos = 16 := (rfl)

theorem position_holding (cache : Bytes) :
    (s.holding cache).currentPositionInThisLayer = s.currentPositionInThisLayer := (rfl)

theorem position_loaded (bytes : Bytes) (inner : σ) :
    (s.loaded bytes inner).currentPositionInThisLayer = s.currentPositionInThisLayer := (rfl)

theorem pos_advance (n : ℕ) : (s.advance n).chunkCache.pos = s.chunkCache.pos + n := (rfl)

theorem position_advance (n : ℕ) :
    (s.advance n).currentPositionInThisLayer = s.currentPositionInThisLayer + n := (rfl)

end Fields

omit [Patience] [AesGcm] [Read Error σ] in
theorem Behind.holding {cache : Bytes} (h : Behind S At config mode all s c) :
    Behind S At config mode all (s.holding cache) c :=
  ⟨h.config_eq, h.mode_eq, h.all_eq, h.next, h.inner⟩

omit [Patience] [AesGcm] [Read Error σ] in
theorem Due.succ (h : Due mode b c) : Due mode (b + 131072) (c + 1) := by
  rcases h with rfl | ⟨hmode, hb, hle⟩
  · exact Or.inl (by omega)
  · exact Or.inr ⟨hmode, by omega, by omega⟩

/-- A reader that has just opened chunk `c` returns its data and what comes after it. -/
theorem drain_holding (hS : S.length < i64Size) {cache out : Bytes} {stop : Stop}
    {sizes : ℕ → ℕ} (hsizes : ∀ i, 0 < sizes i)
    (hdue : Due mode s.currentPositionInThisLayer c)
    (hcache : 16 ≤ cache.length ∧ cache.length ≤ (slice S (131104 * c) 131104).length)
    (hstop : (cacheData cache).length < normalChunkPtSize → out = [] ∧ stop = .endOfStream)
    (hrest : ∀ sizes : ℕ → ℕ, (∀ i, 0 < sizes i) → (cacheData cache).length = normalChunkPtSize →
      ∃ fuel s', drain sizes fuel ((s.holding cache).advance 131072) = some (out, stop, s')) :
    ∃ fuel s', drain sizes fuel (s.holding cache) = some (cacheData cache ++ out, stop, s') := by
  have hposition : s.currentPositionInThisLayer + cache.length < u64Size := by
    have hb : s.currentPositionInThisLayer ≤ 131072 * c + 16 := by
      rcases hdue with h | ⟨-, -, h⟩ <;> omega
    rw [length_slice] at hcache
    rw [i64Size_eq] at hS
    rw [u64Size_eq]
    omega
  have hlen := length_cacheData cache
  by_cases hshort : cache.length < 131088
  · obtain ⟨rfl, rfl⟩ := hstop (by rw [normalChunkPtSize_eq]; omega)
    obtain ⟨fuel, s', hdrain⟩ := drain_short (s := s.holding cache) hsizes
      (by rwa [data_holding]) (by rw [pos_holding]; omega)
      (by rwa [data_holding, position_holding])
    refine ⟨fuel, s', ?_⟩
    rw [hdrain, List.append_nil, data_holding, pos_holding, cacheData, chunkHeadSize_eq,
      normalChunkPtSize_eq, slice_eq_drop (by omega)]
  · have hfull : (cacheData cache).length = normalChunkPtSize := by
      rw [normalChunkPtSize_eq]
      omega
    obtain ⟨fuel, s', hdrain⟩ := drain_full (s := s.holding cache) (k := 131072) hsizes
      (by rw [data_holding]; omega) (by rw [pos_holding])
      (by rw [position_holding]; omega) fun sizes hsizes => hrest sizes hsizes hfull
    refine ⟨fuel, s', ?_⟩
    rw [hdrain, data_holding, pos_holding, cacheData, chunkHeadSize_eq, normalChunkPtSize_eq]

/-- Nothing comes after a short chunk. -/
theorem drain_last (hS : S.length < i64Size) {cache : Bytes} {sizes : ℕ → ℕ}
    (hsizes : ∀ i, 0 < sizes i) (hdue : Due mode s.currentPositionInThisLayer c)
    (hcache : 16 ≤ cache.length ∧ cache.length ≤ (slice S (131104 * c) 131104).length)
    (hlast : (cacheData cache).length < normalChunkPtSize) :
    ∃ fuel s', drain sizes fuel (s.holding cache) =
      some (cacheData cache, .endOfStream, s') := by
  have h : ∃ fuel s', drain sizes fuel (s.holding cache) =
      some (cacheData cache ++ [], .endOfStream, s') :=
    drain_holding hS hsizes hdue hcache (fun _ => ⟨rfl, rfl⟩) (fun _ _ hfull => by omega)
  rwa [List.append_nil] at h

/-- A read that finds the cache used up goes on in the chunk that it opens. -/
theorem read_of_opened {n : ℕ} {cache : Bytes} {s₁ : InternalEncryptionLayerReader σ}
    (hpos : s.chunkCache.pos = 131088) (hload : loadInCache s = openInCache s₁)
    (hopen : s₁.openCached = .chunk cache) :
    Read.read n s = Read.read n (s₁.holding cache) := by
  have hs : readInternal n s = consumeCache n (s₁.holding cache) := by
    rw [readInternal_of_eq hpos, hload, openInCache, hopen, chunkHeadSize_eq]
    rfl
  have hs₁ : readInternal n (s₁.holding cache) = consumeCache n (s₁.holding cache) :=
    readInternal_of_lt (by simp [holding])
  simp only [Read.read, hs, hs₁]

/-- The reader returns what the stream delivers from the chunk that is due. -/
theorem drain_delivery (hdelivers : Delivers True S At) (hS : S.length < i64Size)
    {out : Bytes} {stop : Stop} (h : Delivery (slotOpened mode config all S) c out stop) :
    ∀ {s : InternalEncryptionLayerReader σ} {sizes : ℕ → ℕ}, (∀ i, 0 < sizes i) →
      Behind S At config mode all s c → Due mode s.currentPositionInThisLayer c →
      s.chunkCache.pos = 131088 →
      ∃ fuel s', drain sizes fuel s = some (out, stop, s') := by
  induction h with
  | nothing hopen =>
      intro s sizes _ hs hdue hpos
      obtain ⟨bytes, inner, hload, -, hopened⟩ := hs.load hdelivers
      rw [openChunk_of_due hdue, hopen] at hopened
      have hread : Read.read (sizes 0) s = .ok [] (s.loaded bytes inner) := by
        simp only [Read.read, readInternal_of_eq hpos, hload, openInCache, hopened]
      exact ⟨1, _, drain_of_end hread⟩
  | @failed c e cache hopen =>
      intro s sizes _ hs hdue hpos
      obtain ⟨bytes, inner, hload, -, hopened⟩ := hs.load hdelivers
      rw [openChunk_of_due hdue, hopen] at hopened
      refine ⟨1, { s.loaded bytes inner with chunkCache := ⟨cache, 0⟩ },
        drain_of_error (e := mlaErrorToIoError e) ?_⟩
      simp only [Read.read, readInternal_of_eq hpos, hload, openInCache, hopened]
  | last hopen hlast =>
      intro s sizes hsizes hs hdue hpos
      obtain ⟨bytes, inner, hload, -, hopened⟩ := hs.load hdelivers
      rw [openChunk_of_due hdue, hopen] at hopened
      obtain ⟨fuel, s', hdrain⟩ := drain_last (s := s.loaded bytes inner) hS hsizes hdue
        (openChunk_length hopen) hlast
      exact ⟨fuel, s', by rw [drain_congr (read_of_opened hpos hload hopened), hdrain]⟩
  | full hopen hfull _ ih =>
      intro s sizes hsizes hs hdue hpos
      obtain ⟨bytes, inner, hload, hnext, hopened⟩ := hs.load hdelivers
      rw [openChunk_of_due hdue, hopen] at hopened
      obtain ⟨fuel, s', hdrain⟩ := drain_holding (s := s.loaded bytes inner) hS hsizes
        hdue (openChunk_length hopen) (fun hlt => by omega)
        (fun sizes hsizes _ => ih hsizes hnext.holding.advance
          (by rw [position_advance, position_holding, position_loaded]; exact hdue.succ)
          (by rw [pos_advance, pos_holding]))
      exact ⟨fuel, s', by rw [drain_congr (read_of_opened hpos hload hopened), hdrain]⟩

/-- A reader that has just opened chunk `c` returns what the stream delivers from there on. -/
theorem drain_opened (hdelivers : Delivers True S At) (hS : S.length < i64Size)
    {cache out : Bytes} {stop : Stop} {sizes : ℕ → ℕ} (hsizes : ∀ i, 0 < sizes i)
    (hbehind : Behind S At config mode all s (c + 1))
    (hdue : Due mode s.currentPositionInThisLayer c)
    (hopened : slotOpened mode config all S c = .chunk cache)
    (h : Delivery (slotOpened mode config all S) c out stop) :
    ∃ fuel s', drain sizes fuel (s.holding cache) = some (out, stop, s') := by
  cases h with
  | nothing hopen => rw [hopen] at hopened; cases hopened
  | failed hopen => rw [hopen] at hopened; cases hopened
  | last hopen hlast =>
      rw [hopen] at hopened
      obtain rfl := Opened.chunk.inj hopened
      exact drain_last hS hsizes hdue (openChunk_length hopen) hlast
  | full hopen hfull hrest =>
      rw [hopen] at hopened
      obtain rfl := Opened.chunk.inj hopened
      exact drain_holding hS hsizes hdue (openChunk_length hopen) (fun hlt => by omega)
        (fun sizes hsizes _ => drain_delivery hdelivers hS hrest hsizes hbehind.holding.advance
          (by rw [position_advance, position_holding]; exact hdue.succ)
          (by rw [pos_advance, pos_holding]))

end Drain

end InternalEncryptionLayerReader

/-! ## The truncated reader -/

/-- Every stream delivers something: a chunk that does not end the delivery takes up a slot. -/
theorem Delivery.exists [AesGcm] (mode : Option TruncatedReaderDecryptionMode)
    (config : InternalEncryptionConfig) (all : ℕ) (S : Bytes) (c : ℕ) :
    ∃ out stop, Delivery (slotOpened mode config all S) c out stop := by
  obtain ⟨n, hn⟩ : ∃ n, n = S.length - 131104 * c := ⟨_, rfl⟩
  induction n using Nat.strong_induction_on generalizing c with
  | _ n ih =>
      cases hopen : slotOpened mode config all S c with
      | nothing => exact ⟨_, _, .nothing hopen⟩
      | failed e cache => exact ⟨_, _, .failed hopen⟩
      | chunk cache =>
          have hlen := length_cacheData cache
          by_cases hlast : (cacheData cache).length < normalChunkPtSize
          · exact ⟨_, _, .last hopen hlast⟩
          · have hfull : (cacheData cache).length = normalChunkPtSize := by
              rw [normalChunkPtSize_eq] at hlast ⊢
              omega
            have hslot : 131104 * c < S.length := by
              have hcache := (openChunk_length hopen).2
              rw [normalChunkPtSize_eq] at hfull
              rw [length_slice] at hcache
              omega
            obtain ⟨out, stop, hrest⟩ := ih (S.length - 131104 * (c + 1)) (by omega) (c + 1) rfl
            exact ⟨_, _, .full hopen hfull hrest⟩

namespace EncryptionLayerTruncatedReader

open InternalEncryptionLayerReader

variable {σ : Type} [Patience] [AesGcm] [Read Error σ]

/-- Build the reader and read it until a read returns nothing or fails; a reader that cannot be
built returns nothing. -/
def recover (mode : TruncatedReaderDecryptionMode) (config : InternalEncryptionConfig)
    (sizes : ℕ → ℕ) (fuel : ℕ) (inner : σ) : Option (Bytes × Stop) :=
  match newSkipHeader inner (some (config.key, config.nonce)) mode with
  | .error _ => some ([], .failed)
  | .ok s => (drain sizes fuel s).map fun r => (r.1, r.2.1)

/-- The reader returns `out` before its first empty or failed read. -/
def Returns (mode : TruncatedReaderDecryptionMode) (config : InternalEncryptionConfig)
    (sizes : ℕ → ℕ) (inner : σ) (out : Bytes) : Prop :=
  ∃ fuel stop, recover mode config sizes fuel inner = some (out, stop)

variable {mode : TruncatedReaderDecryptionMode} {config : InternalEncryptionConfig}
  {sizes : ℕ → ℕ} {inner : σ} {out out' : Bytes}

theorem Returns.unique (h : Returns mode config sizes inner out)
    (h' : Returns mode config sizes inner out') : out = out' := by
  obtain ⟨fuel, stop, h⟩ := h
  obtain ⟨fuel', stop', h'⟩ := h'
  rw [recover] at h h'
  cases hnew : newSkipHeader inner (some (config.key, config.nonce)) mode with
  | error e =>
      rw [hnew] at h h'
      cases h
      cases h'
      rfl
  | ok s =>
      rw [hnew] at h h'
      simp only [Option.map_eq_some_iff] at h h'
      obtain ⟨r, hr, hout⟩ := h
      obtain ⟨r', hr', hout'⟩ := h'
      obtain rfl := drain_unique hr hr'
      rw [hout] at hout'
      cases hout'
      rfl

theorem read_mk (n : ℕ) (s : InternalEncryptionLayerReader σ) :
    Read.read n (⟨s⟩ : EncryptionLayerTruncatedReader σ) =
      match Read.read n s with
      | .ok bytes s' => .ok bytes ⟨s'⟩
      | .error e s' => .error e ⟨s'⟩ := by
  simp only [Read.read, zoom]
  cases readInternal n s with
  | mk bytes r => cases r <;> rfl

/-- Draining the truncated reader is draining the reader inside. -/
theorem drain_mk :
    ∀ (fuel : ℕ) (sizes : ℕ → ℕ) (s : InternalEncryptionLayerReader σ),
      drain sizes fuel (⟨s⟩ : EncryptionLayerTruncatedReader σ) =
        (drain sizes fuel s).map fun r => (r.1, r.2.1, ⟨r.2.2⟩) := by
  intro fuel
  induction fuel with
  | zero => intro sizes s; rfl
  | succ fuel ih =>
      intro sizes s
      rw [drain_succ, drain_succ, read_mk]
      cases Read.read (sizes 0) s with
      | error e s' => rfl
      | ok bytes s' =>
          dsimp only
          cases hempty : bytes.isEmpty with
          | true => rfl
          | false =>
              simp only [Bool.false_eq_true, if_false, ih, Option.map_map]
              rfl

theorem newSkipHeader_of_load {s₀ s : InternalEncryptionLayerReader σ}
    (hnew : InternalEncryptionLayerReader.new inner (some (config.key, config.nonce))
      (some mode) = .ok s₀) (hload : loadInCache s₀ = openInCache s) :
    newSkipHeader inner (some (config.key, config.nonce)) mode =
      match openInCache s with
      | .ok _ s => .ok ⟨s⟩
      | .error e _ => .error e := by
  cases hopen : openInCache s with
  | ok found s' => simp only [newSkipHeader, hnew, hload, hopen]
  | error e s' => simp only [newSkipHeader, hnew, hload, hopen]

section Entry

variable {S : Bytes} {At : σ → ℕ → Prop} (hdelivers : Delivers True S At)
  (hS : S.length < i64Size) (hinner : At inner 0) (hsizes : ∀ i, 0 < sizes i)
include hdelivers hinner

/-- The reader as it is built opens the first chunk. -/
theorem newSkipHeader_eq (mode : TruncatedReaderDecryptionMode)
    (config : InternalEncryptionConfig) :
    ∃ s, newSkipHeader inner (some (config.key, config.nonce)) mode =
        (match openInCache s with
        | .ok _ s => .ok ⟨s⟩
        | .error e _ => .error e) ∧
      Behind S At config (some mode) 0 s 1 ∧ s.currentPositionInThisLayer = 0 ∧
      s.chunkCache = ⟨S.take 131104, 0⟩ ∧ s.openCached = slotOpened (some mode) config 0 S 0 := by
  obtain ⟨inner', htake, hinner'⟩ := hdelivers.takeReadToEnd_eq m0ChunkSize hinner
    (Or.inl trivial)
  have hbehind : Behind S At config (some mode) 0
      { inner := inner', key := config.key, nonce := config.nonce, chunkCache := ⟨[], 0⟩
        nextChunkCache := slice S 0 m0ChunkSize, allPlaintextSize := 0
        currentPositionInThisLayer := 0, truncatedDecryptionMode := some mode } 0 := by
    refine ⟨rfl, rfl, rfl, by rw [m0ChunkSize_eq], ?_⟩
    rwa [m0ChunkSize_eq] at hinner'
  obtain ⟨bytes, inner'', hload, hnext, hopened⟩ := hbehind.load hdelivers
  refine ⟨_, ?_, hnext, rfl, ?_, hopened⟩
  · refine newSkipHeader_of_load ?_ hload
    rw [InternalEncryptionLayerReader.new, htake]
  · rw [loaded, m0ChunkSize_eq, slice_zero]

include hS hsizes

omit hdelivers hinner hS hsizes in
/-- The reader that is read is the one inside. -/
theorem returns_of_drain {s s' : InternalEncryptionLayerReader σ} {found : Option Unit}
    {fuel : ℕ} {stop : Stop} {last : InternalEncryptionLayerReader σ}
    (hnew : newSkipHeader inner (some (config.key, config.nonce)) mode =
      (match openInCache s with
      | .ok _ s => .ok ⟨s⟩
      | .error e _ => .error e))
    (hopen : openInCache s = .ok found s') (hdrain : drain sizes fuel s' = some (out, stop, last)) :
    Returns mode config sizes inner out := by
  rw [hopen] at hnew
  refine ⟨fuel, stop, ?_⟩
  rw [recover, hnew]
  dsimp only
  rw [drain_mk, hdrain]
  rfl

/-- When the first chunk opens or fails, the reader returns what the stream delivers. -/
theorem returns_delivery {stop : Stop} (h : Delivery (slotOpened (some mode) config 0 S) 0 out stop)
    (hfound : slotOpened (some mode) config 0 S 0 ≠ .nothing) :
    Returns mode config sizes inner out := by
  obtain ⟨s, hnew, hbehind, hposition, -, hopened⟩ :=
    newSkipHeader_eq hdelivers hinner mode config
  have hdue : Due (some mode) s.currentPositionInThisLayer 0 := Or.inl hposition
  cases hslot : slotOpened (some mode) config 0 S 0 with
  | nothing => exact absurd hslot hfound
  | failed e cache =>
      rw [openInCache, hopened, hslot] at hnew
      obtain ⟨rfl, -⟩ := h.unique (.failed hslot)
      exact ⟨0, .failed, by rw [recover, hnew]⟩
  | chunk cache =>
      have hcache : openInCache s = .ok (some ()) (s.holding cache) := by
        rw [openInCache, hopened, hslot, chunkHeadSize_eq, holding]
      obtain ⟨fuel, s', hdrain⟩ := drain_opened hdelivers hS hsizes hbehind hdue hslot h
      exact returns_of_drain hnew hcache hdrain

/-- When there is no first chunk, the reader returns the stream itself. -/
theorem returns_raw (hnothing : slotOpened (some mode) config 0 S 0 = .nothing) :
    ∃ rest, Returns mode config sizes inner (S.take 131088 ++ rest) ∧
      (S.length < 131088 → rest = []) ∧
      (131088 ≤ S.length → ∃ stop, Delivery (slotOpened (some mode) config 0 S) 1 rest stop) := by
  obtain ⟨s, hnew, hbehind, hposition, hcache, hopened⟩ :=
    newSkipHeader_eq hdelivers hinner mode config
  have hopen : openInCache s = .ok none s := by rw [openInCache, hopened, hnothing]
  have hdata : s.chunkCache.data = S.take 131104 := by rw [hcache]
  have hpos : s.chunkCache.pos = 0 := by rw [hcache]
  have hbound : S.length < u64Size - 131104 := by
    rw [i64Size_eq] at hS
    rw [u64Size_eq]
    omega
  by_cases hshort : S.length < 131088
  · obtain ⟨fuel, s', hdrain⟩ := drain_short (s := s) hsizes
      (by rw [hdata, List.length_take]; omega) (by rw [hpos]; omega)
      (by rw [hdata, hposition, List.length_take]; omega)
    rw [hdata, hpos, List.drop_zero, List.take_of_length_le (by omega)] at hdrain
    refine ⟨[], ?_, fun _ => rfl, fun h => by omega⟩
    rw [List.append_nil, List.take_of_length_le (by omega)]
    exact returns_of_drain hnew hopen hdrain
  · obtain ⟨rest, stop, hrest⟩ := Delivery.exists (some mode) config 0 S 1
    have hdue : Due (some mode) (s.advance 131088).currentPositionInThisLayer 1 := by
      rw [position_advance, hposition, Nat.zero_add]
      exact Or.inr ⟨by simp, by norm_num, by norm_num⟩
    obtain ⟨fuel, s', hdrain⟩ := drain_full (s := s) (k := 131088) hsizes
      (by rw [hdata, List.length_take]; omega) (by rw [hpos, Nat.zero_add])
      (by rw [hposition]; omega)
      (fun sizes hsizes => drain_delivery hdelivers hS hrest hsizes hbehind.advance hdue
        (by rw [pos_advance, hpos, Nat.zero_add]))
    rw [hdata, hpos, slice_zero, List.take_take,
      min_eq_left (by omega : 131088 ≤ 131104)] at hdrain
    exact ⟨rest, returns_of_drain hnew hopen hdrain, fun h => absurd h hshort,
      fun _ => ⟨stop, hrest⟩⟩

end Entry

end EncryptionLayerTruncatedReader

end Mla
