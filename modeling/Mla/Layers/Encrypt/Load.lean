import Mla.Layers.Encrypt.Chunk

/-!
# Steps of the encryption reader

What loading a chunk, reading from the cache and moving to a chunk do to the state of
the reader, once what the inner reader answers is known.
-/

namespace Mla

open Io

/-- The number of the final block, after the chunks that a size implies. -/
theorem finalSequenceNumber_eq {all : ℕ} (hall : all < u64Size) :
    (checkedAdd (lastDataChunkNumber all) 1).bind (checkedAdd · firstDataChunkNumber) =
      some (lastDataChunkNumber all + 1 + 1) := by
  have hlast : lastDataChunkNumber all + 1 + 1 < u64Size := by
    rw [u64Size_eq] at hall ⊢
    rw [lastDataChunkNumber, normalChunkPtSize_eq]
    split <;> omega
  rw [checkedAdd_of_lt (by omega), Option.bind_some, firstDataChunkNumber_eq,
    checkedAdd_of_lt hlast]

namespace InternalEncryptionLayerReader

variable {σ : Type} [Patience] [AesGcm] {s : InternalEncryptionLayerReader σ}

/-- The session of a reader. -/
def config (s : InternalEncryptionLayerReader σ) : InternalEncryptionConfig :=
  ⟨s.key, s.nonce⟩

section Read

variable [Read Error σ] {bytes : Bytes} {inner : σ}

omit [AesGcm] in
theorem fillNextChunkCache_eq (h : takeReadToEnd m0ChunkSize s.inner = (bytes, .ok () inner)) :
    fillNextChunkCache s =
      .ok () { s with inner, nextChunkCache := s.nextChunkCache ++ bytes } := by
  simp only [fillNextChunkCache, h]

/-- The state in which a load opens the chunk. -/
def loaded (s : InternalEncryptionLayerReader σ) (bytes : Bytes) (inner : σ) :
    InternalEncryptionLayerReader σ :=
  { s with inner, chunkCache := ⟨s.nextChunkCache, 0⟩, nextChunkCache := bytes }

theorem loadInCache_eq (h : takeReadToEnd m0ChunkSize s.inner = (bytes, .ok () inner)) :
    loadInCache s = openInCache (s.loaded bytes inner) := by
  have hfill := fillNextChunkCache_eq (s := s.swapCaches) h
  simp only [loadInCache, bind_apply, modify_apply, liftIo_apply, hfill]
  rfl

/-- Reading from a cache that is not used up. -/
theorem readInternal_of_lt {n : ℕ} (h : s.chunkCache.pos < 131088) :
    readInternal n s = consumeCache n s := by
  have hsub : checkedSub normalChunkPtAndTagSize s.chunkCache.pos =
      some (131087 - s.chunkCache.pos + 1) := by
    rw [normalChunkPtAndTagSize_eq, checkedSub_of_le (by omega)]
    congr 1
    omega
  rw [readInternal, hsub]

/-- Reading from a cache that is used up loads the next chunk. -/
theorem readInternal_of_eq {n : ℕ} (h : s.chunkCache.pos = 131088) :
    readInternal n s =
      match loadInCache s with
      | .ok none s' => ([], .ok () s')
      | .ok (some ()) s' => consumeCache n s'
      | .error e s' => ([], .error e s') := by
  have hsub : checkedSub normalChunkPtAndTagSize s.chunkCache.pos = some 0 := by
    rw [normalChunkPtAndTagSize_eq, h, checkedSub_of_le le_rfl, Nat.sub_self]
  unfold readInternal
  generalize checkedSub normalChunkPtAndTagSize s.chunkCache.pos = r at hsub ⊢
  subst hsub
  rfl

/-- The bytes that a read takes from the cache. -/
def cacheBytes (n : ℕ) (s : InternalEncryptionLayerReader σ) : Bytes :=
  slice s.chunkCache.data s.chunkCache.pos (min (131088 - s.chunkCache.pos) n)

omit [Patience] [AesGcm] [Read Error σ] in
theorem consumeCache_eq {n : ℕ}
    (h : s.currentPositionInThisLayer + (cacheBytes n s).length < u64Size) :
    consumeCache n s =
      (cacheBytes n s, .ok ()
        { s with
          chunkCache := ⟨s.chunkCache.data, s.chunkCache.pos + (cacheBytes n s).length⟩
          currentPositionInThisLayer :=
            s.currentPositionInThisLayer + (cacheBytes n s).length }) := by
  have hnext : s.chunkCache.next (min (normalChunkPtAndTagSize - s.chunkCache.pos) n) =
      cacheBytes n s := by
    rw [Cursor.next, cacheBytes, normalChunkPtAndTagSize_eq]
  simp only [consumeCache, hnext, checkedAdd_of_lt h, Cursor.advance]

omit [Patience] [AesGcm] [Read Error σ] in
/-- Whatever the outcome, a read takes its bytes from the cache. -/
theorem consumeCache_fst (n : ℕ) : (consumeCache n s).1 = cacheBytes n s := by
  have hnext : s.chunkCache.next (min (normalChunkPtAndTagSize - s.chunkCache.pos) n) =
      cacheBytes n s := by
    rw [Cursor.next, cacheBytes, normalChunkPtAndTagSize_eq]
  simp only [consumeCache, hnext]
  split <;> rfl

end Read

section Seek

variable [Read Error σ] [Seek Error σ]

omit [Patience] [AesGcm] [Read Error σ] [Seek Error σ] in
theorem thisLayerPositionToInnerPosition_eq (p : ℕ) :
    thisLayerPositionToInnerPosition p =
      if 131104 * (p / 131072) + p % 131072 + 16 < u64Size then
        some (131104 * (p / 131072) + p % 131072 + 16)
      else none := by
  simp only [thisLayerPositionToInnerPosition, normalChunkPtSize_eq, m0ChunkSize_eq,
    chunkHeadSize_eq, checkedMul, checkedAdd]
  by_cases hover : 131104 * (p / 131072) + p % 131072 + 16 < u64Size
  · rw [if_pos hover, if_pos (by omega)]
    simp only [Option.bind_some]
    rw [if_pos (by omega)]
    simp only [Option.bind_some]
    rw [if_pos hover]
  · rw [if_neg hover]
    split
    · simp only [Option.bind_some]
      split
      · simp only [Option.bind_some]
        rw [if_neg hover]
      · rfl
    · rfl

omit [AesGcm] in
/-- A seek to a position whose place in the inner stream is not a 64-bit one is refused. -/
theorem moveToChunk_overflow {p : ℕ} (h : ¬ 131104 * (p / 131072) + p % 131072 + 16 < u64Size) :
    moveToChunk p s = .error (.kind .invalidInput) s := by
  simp only [moveToChunk, thisLayerPositionToInnerPosition_eq, if_neg h, okOr_none, bind_apply,
    throw_apply]

omit [AesGcm] in
theorem moveToChunk_of {p innerPosition start x position : ℕ}
    (hinner : thisLayerPositionToInnerPosition p = some innerPosition)
    (hstart : checkedMul (innerPosition / m0ChunkSize) m0ChunkSize = some start)
    (hx : checkedSub (innerPosition % m0ChunkSize) chunkHeadSize = some x)
    (hposition : checkedMul (innerPosition / m0ChunkSize) normalChunkPtSize = some position) :
    moveToChunk p s =
      match Seek.seek (.start start) s.inner with
      | .error e inner => .error e { s with inner }
      | .ok _ inner =>
          match fillNextChunkCache
            { s with inner, currentPositionInThisLayer := position, nextChunkCache := [] } with
          | .ok () s' => .ok x s'
          | .error e s' => .error e s' := by
  simp only [moveToChunk, hinner, hstart, hx, hposition, okOr_some, bind_apply, pure_apply,
    modify_apply, seekInner, zoom]
  generalize Seek.seek (.start start) s.inner = moved
  cases moved with
  | error e inner => rfl
  | ok t inner =>
      dsimp only
      generalize fillNextChunkCache
        { s with inner, currentPositionInThisLayer := position, nextChunkCache := [] } = r
      cases r <;> rfl

omit [AesGcm] in
/-- A seek to a position of chunk `c` goes to the start of the chunk. -/
theorem moveToChunk_eq {p c x : ℕ} (hp : p = 131072 * c + x) (hx : x < 131072)
    (h : 131104 * c + x + 16 < u64Size) :
    moveToChunk p s =
      match Seek.seek (.start (131104 * c)) s.inner with
      | .error e inner => .error e { s with inner }
      | .ok _ inner =>
          match fillNextChunkCache
            { s with inner, currentPositionInThisLayer := 131072 * c, nextChunkCache := [] } with
          | .ok () s' => .ok x s'
          | .error e s' => .error e s' := by
  have hdiv : p / 131072 = c := by omega
  have hmod : p % 131072 = x := by omega
  have hchunk : (131104 * c + x + 16) / m0ChunkSize = c := by rw [m0ChunkSize_eq]; omega
  have hrem : (131104 * c + x + 16) % m0ChunkSize = x + 16 := by rw [m0ChunkSize_eq]; omega
  apply moveToChunk_of
  · rw [thisLayerPositionToInnerPosition_eq, hdiv, hmod, if_pos h]
  · rw [hchunk, m0ChunkSize_eq]
    exact checkedMul_of_lt (by omega)
  · rw [hrem, chunkHeadSize_eq, checkedSub_of_le (by omega), Nat.add_sub_cancel]
  · rw [hchunk, normalChunkPtSize_eq]
    exact checkedMul_of_lt (by omega)

omit [Patience] [AesGcm] [Read Error σ] [Seek Error σ] in
theorem plaintextSize_lt {inputSize size : ℕ} (h : plaintextSize inputSize = some size) :
    size < u64Size := by
  simp only [plaintextSize, Option.bind_eq_bind, Option.bind_eq_some_iff] at h
  obtain ⟨_, -, fullChunks, hfull, h⟩ := h
  split at h
  · obtain rfl := Option.some.inj h
    exact checkedMul_lt hfull
  · obtain ⟨sum, hsum, hsub⟩ := Option.bind_eq_some_iff.mp h
    exact Nat.lt_of_le_of_lt (checkedSub_le hsub) (checkedAdd_lt hsum)

omit [Patience] [AesGcm] [Read Error σ] [Seek Error σ] in
theorem moveInChunk_eq {x : ℕ} (hx : x < 131072)
    (h : s.currentPositionInThisLayer + x < u64Size) :
    moveInChunk x s =
      .ok ()
        { s with
          chunkCache := ⟨s.chunkCache.data, 16 + x⟩
          currentPositionInThisLayer := s.currentPositionInThisLayer + x } := by
  have hcache : checkedAdd 16 x = some (16 + x) :=
    checkedAdd_of_lt (by rw [u64Size_eq]; omega)
  simp only [moveInChunk, chunkHeadSize_eq, hcache, okOr_some, bind_apply, pure_apply,
    modify_apply, get_apply, checkedAdd_of_lt h]

/-- A seek moves to the chunk, loads it and moves in it. -/
theorem seekStart_of_ok {p x : ℕ} {found : Option Unit}
    {s₁ s₂ s₃ : InternalEncryptionLayerReader σ} (hmove : moveToChunk p s = .ok x s₁)
    (hload : loadInCache s₁ = .ok found s₂) (hplace : moveInChunk x s₂ = .ok () s₃) :
    seekStart p s = .ok p s₃ := by
  simp only [seekStart, bind_apply, hmove, intoIo_apply, hload, hplace, pure_apply]

theorem seekStart_of_error {p x : ℕ} {e : Error} {s₁ s₂ : InternalEncryptionLayerReader σ}
    (hmove : moveToChunk p s = .ok x s₁) (hload : loadInCache s₁ = .error e s₂) :
    seekStart p s = .error (.other e) s₂ := by
  simp only [seekStart, bind_apply, hmove, intoIo_apply, hload]

end Seek

end InternalEncryptionLayerReader

end Mla
