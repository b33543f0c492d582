import Mla.Layers.Encrypt.Reader

/-!
# Opening a chunk

What an attempt to open the chunk in the cache yields. `openChunkAt_eq` gives the
outcome once the end of the tag is known to lie where a tag can end, and
`openChunk_eq_chunk` says what is in the cache whenever a chunk was opened with its
tag checked.
-/

namespace Mla

open Io

section Open

variable [AesGcm] {mode : Option TruncatedReaderDecryptionMode} {config : InternalEncryptionConfig}
  {position : ℕ}

/-- The tag found in the stream is the one that decrypting computes. -/
abbrev InternalEncryptionConfig.Authentic (config : InternalEncryptionConfig) (c : ℕ)
    (ct tag : Bytes) : Prop :=
  ((config.chunkCipher c).decrypt ct).2 = tag

/-- The plaintext of a ciphertext, as the chunk of index `c`. -/
def InternalEncryptionConfig.plaintext (config : InternalEncryptionConfig) (c : ℕ)
    (ct : Bytes) : Bytes :=
  ((config.chunkCipher c).decrypt ct).1

@[simp] theorem InternalEncryptionConfig.length_plaintext (c : ℕ) (ct : Bytes) :
    (config.plaintext c ct).length = ct.length := by
  simp [plaintext, AesGcm256.decrypt]

theorem decryptedCache_take (cipher : AesGcm256) {chunk : Bytes} {m : ℕ}
    (hm : 16 + m ≤ chunk.length) :
    (decryptedCache cipher chunk (16 + m)).take (16 + m) =
      chunk.take 16 ++ (cipher.decrypt (slice chunk 16 m)).1 := by
  have hhead : (chunk.take 16).length = 16 := by rw [List.length_take]; omega
  have hdata : (applyKeystream cipher.key cipher.nonce 0 (slice chunk 16 m)).length = m := by
    rw [length_applyKeystream, length_slice_of_le hm]
  simp only [decryptedCache, chunkHeadSize_eq, AesGcm256.decryptUnauthenticated,
    AesGcm256.decrypt, Nat.add_sub_cancel_left]
  rw [List.take_append_of_le_length (by rw [List.length_append, hhead, hdata]),
    List.take_of_length_le (by rw [List.length_append, hhead, hdata])]

/-- What opening does when the ciphertext ends in the cache. -/
theorem openChunkAt_eq (mode : Option TruncatedReaderDecryptionMode)
    (config : InternalEncryptionConfig) (chunk : Bytes) {c m : ℕ} (hc : position / 131072 = c)
    (hposition : c + 1 < u64Size) (hm : 16 + m ≤ chunk.length) :
    openChunkAt mode config.key config.nonce position chunk (16 + m + 16) =
      if mode = some .dataEvenUnauthenticated ∨
          (16 + m + 16 ≤ chunk.length ∧
            config.Authentic c (slice chunk 16 m) (slice chunk (16 + m) 16)) then
        .chunk (chunk.take 16 ++ config.plaintext c (slice chunk 16 m))
      else if chunk.length < 16 + m + 16 then
        .failed (.wrongReaderState "Invalid chunk cache tag part")
          (decryptedCache (config.chunkCipher c) chunk (16 + m))
      else
        .failed .authenticatedDecryptionWrongTag
          (decryptedCache (config.chunkCipher c) chunk (16 + m)) := by
  have hseq : checkedAdd c 1 = some (c + 1) := checkedAdd_of_lt hposition
  have hcipher : AesGcm256.new config.key (computeNonce config.nonce (c + 1)) associatedData =
      config.chunkCipher c := rfl
  have hcache := decryptedCache_take (config.chunkCipher c) hm
  have hpart : ¬ (16 + m < 16 ∨ chunk.length < 16 + m) := by omega
  have htag : 16 + m + 16 - (16 + m) = 16 := by omega
  simp only [openChunkAt, tagLength_eq, chunkHeadSize_eq, firstDataChunkNumber_eq,
    currentDataChunkNumber, normalChunkPtSize_eq, hc, hseq, hcipher, Nat.add_sub_cancel,
    Nat.add_sub_cancel_left, hpart, htag, hcache, if_false]
  rw [if_neg (by omega)]
  by_cases hmode : mode = some .dataEvenUnauthenticated
  · rw [if_pos hmode, if_pos (Or.inl hmode), InternalEncryptionConfig.plaintext]
  · rw [if_neg hmode]
    by_cases hlen : chunk.length < 16 + m + 16
    · rw [if_pos hlen, if_pos hlen, if_neg]
      rintro (h | ⟨h, -⟩)
      · exact hmode h
      · omega
    · rw [if_neg hlen, if_neg hlen]
      by_cases hauth : config.Authentic c (slice chunk 16 m) (slice chunk (16 + m) 16)
      · rw [if_pos hauth, if_pos (Or.inr ⟨by omega, hauth⟩), InternalEncryptionConfig.plaintext]
      · rw [if_neg hauth, if_neg]
        rintro (h | ⟨-, h⟩)
        · exact hmode h
        · exact hauth h

/-- A chunk is only opened when its ciphertext lies in the cache. -/
theorem openChunkAt_eq_chunk {chunk cache : Bytes} {e : ℕ}
    (h : openChunkAt mode config.key config.nonce position chunk e = .chunk cache) :
    ∃ m, e = 16 + m + 16 ∧ 16 + m ≤ chunk.length ∧ position / 131072 + 1 < u64Size := by
  simp only [openChunkAt, tagLength_eq, chunkHeadSize_eq, firstDataChunkNumber_eq,
    currentDataChunkNumber, normalChunkPtSize_eq] at h
  by_cases hzero : e - 16 = 0
  · rw [if_pos hzero] at h
    cases h
  · rw [if_neg hzero] at h
    by_cases hseq : position / 131072 + 1 < u64Size
    · rw [checkedAdd_of_lt hseq] at h
      by_cases hpart : e - 16 < 16 ∨ chunk.length < e - 16
      · simp only [if_pos hpart] at h
        cases h
      · exact ⟨e - 32, by omega, by omega, hseq⟩
    · simp only [checkedAdd, if_neg hseq] at h
      cases h

/-- Whatever the mode guesses, a chunk is opened from some end of its tag. -/
theorem openChunk_eq_chunk_at {all : ℕ} {chunk next cache : Bytes}
    (h : openChunk mode config.key config.nonce all position chunk next = .chunk cache) :
    ∃ e, openChunkAt mode config.key config.nonce position chunk e = .chunk cache := by
  have hguess : openGuessed mode config.key config.nonce position chunk next = .chunk cache →
      ∃ e, openChunkAt mode config.key config.nonce position chunk e = .chunk cache := by
    intro h
    unfold openGuessed at h
    split at h
    · cases h
    · exact ⟨_, h⟩
  have hlast : openLast mode config.key config.nonce all position chunk = .chunk cache →
      ∃ e, openChunkAt mode config.key config.nonce position chunk e = .chunk cache := by
    intro h
    simp only [openLast] at h
    split at h
    · cases h
    · split at h
      · cases h
      · exact ⟨_, h⟩
  unfold openChunk at h
  split at h
  · split at h
    · cases h
    · exact hlast h
    · exact hguess h
  · exact hguess h

/-- A chunk that was opened with its tag checked is followed by that tag. -/
theorem openChunk_eq_chunk (config : InternalEncryptionConfig) {all : ℕ} {chunk next cache : Bytes}
    (hmode : mode ≠ some .dataEvenUnauthenticated)
    (h : openChunk mode config.key config.nonce all position chunk next = .chunk cache) :
    ∃ m, 16 + m + 16 ≤ chunk.length ∧
      cache = chunk.take 16 ++ config.plaintext (position / 131072) (slice chunk 16 m) ∧
      config.Authentic (position / 131072) (slice chunk 16 m) (slice chunk (16 + m) 16) := by
  obtain ⟨e, he⟩ := openChunk_eq_chunk_at h
  obtain ⟨m, rfl, hm, hposition⟩ := openChunkAt_eq_chunk he
  rw [openChunkAt_eq _ _ _ rfl hposition hm] at he
  split at he
  · rename_i hopen
    obtain ⟨hlen, hauth⟩ := hopen.resolve_left hmode
    exact ⟨m, hlen, (Opened.chunk.inj he).symm, hauth⟩
  · split at he <;> cases he

end Open

end Mla
