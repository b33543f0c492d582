import Mla.Layers.Encrypt.Deliver

/-!
# The search for the final block

The truncated reader guesses where the last tag ends by searching for the magic of the
final block in its two caches. The search finds nothing that is not there
(`finalBlockMagicScan_some`) and misses nothing (`finalBlockMagicScan_none`); an occurrence
in the first cache is preferred to one in the second, and that one to one across both.

`openRest` is how a chunk opens, given what is left of the stream from its start on.
-/

namespace Mla

open Io

/-! ## The scan -/

section Scan

variable {chunk next : Bytes} {pos : ℕ}

/-- The magic only stands inside a string. -/
theorem le_of_slice_magic {l : Bytes} (h : slice l pos 8 = finalBlockMagic) :
    pos + 8 ≤ l.length := by
  have hle : pos + finalBlockMagic.length ≤ l.length := le_of_slice_eq (by decide) h
  rwa [length_finalBlockMagic] at hle

theorem finalBlockMagicScan_of_chunk (h : windowPosition finalBlockMagic chunk = some pos) :
    finalBlockMagicScan chunk next = some pos := by
  rw [finalBlockMagicScan, h]

theorem magicAcross_iff {k : ℕ} (hk : k ≤ 8) :
    magicAcross chunk next k = true ↔
      k ≤ chunk.length ∧ slice (chunk ++ next) (chunk.length - k) 8 = finalBlockMagic ∧
        8 - k ≤ next.length := by
  simp only [magicAcross, length_finalBlockMagic, Bool.and_eq_true, decide_eq_true_eq]
  constructor
  · rintro ⟨⟨⟨hchunk, hnext⟩, hfront⟩, hback⟩
    refine ⟨hchunk, ?_, hnext⟩
    rw [slice_append_across (by omega) (by omega), hfront,
      show chunk.length - k + 8 - chunk.length = 8 - k by omega, hback, List.take_append_drop]
  · rintro ⟨hchunk, hslice, hnext⟩
    rw [slice_append_across (by omega) (by omega),
      show chunk.length - k + 8 - chunk.length = 8 - k by omega] at hslice
    have hlen : (chunk.drop (chunk.length - k)).length = k := by
      rw [List.length_drop]
      omega
    refine ⟨⟨⟨hchunk, hnext⟩, ?_⟩, ?_⟩
    · rw [← hslice, List.take_left' hlen]
    · rw [← hslice, List.drop_left' hlen]

/-- What the scan finds is the magic. -/
theorem finalBlockMagicScan_some (h : finalBlockMagicScan chunk next = some pos) :
    slice (chunk ++ next) pos 8 = finalBlockMagic := by
  unfold finalBlockMagicScan at h
  cases hchunk : windowPosition finalBlockMagic chunk with
  | some p =>
      rw [hchunk] at h
      obtain rfl := Option.some.inj h
      obtain ⟨hle, hslice, -⟩ := windowPosition_eq_some.mp hchunk
      rw [length_finalBlockMagic] at hle hslice
      rw [slice_append_left hle]
      exact hslice
  | none =>
      rw [hchunk] at h
      cases hnext : windowPosition finalBlockMagic next with
      | some p =>
          rw [hnext] at h
          simp only [checkedAdd] at h
          split at h
          · obtain rfl := Option.some.inj h
            obtain ⟨-, hslice, -⟩ := windowPosition_eq_some.mp hnext
            rw [slice_append_right (by omega), Nat.add_sub_cancel_left]
            exact hslice
          · cases h
      | none =>
          rw [hnext] at h
          obtain ⟨k, hfind, hsub⟩ := Option.bind_eq_some_iff.mp h
          have hacross := List.find?_some hfind
          have hmem := List.mem_range'_1.mp (List.mem_of_find?_eq_some hfind)
          rw [length_finalBlockMagic] at hmem
          obtain ⟨hk, hslice, -⟩ := (magicAcross_iff (by omega)).mp hacross
          rw [checkedSub_of_le hk] at hsub
          obtain rfl := Option.some.inj hsub
          exact hslice

/-- The scan misses no occurrence of the magic. -/
theorem finalBlockMagicScan_none (hlen : chunk.length + next.length < u64Size)
    (h : finalBlockMagicScan chunk next = none) (pos : ℕ) :
    slice (chunk ++ next) pos 8 ≠ finalBlockMagic := by
  intro hslice
  have hle : pos + 8 ≤ chunk.length + next.length := by
    rw [← List.length_append]
    exact le_of_slice_magic hslice
  unfold finalBlockMagicScan at h
  cases hchunk : windowPosition finalBlockMagic chunk with
  | some p =>
      rw [hchunk] at h
      cases h
  | none =>
      rw [hchunk] at h
      cases hnext : windowPosition finalBlockMagic next with
      | some p =>
          obtain ⟨hp, -, -⟩ := windowPosition_eq_some.mp hnext
          rw [hnext] at h
          simp only [checkedAdd_of_lt (show chunk.length + p < u64Size by omega)] at h
          cases h
      | none =>
          rw [hnext] at h
          rw [windowPosition_eq_none, length_finalBlockMagic] at hchunk hnext
          rcases Nat.lt_or_ge chunk.length (pos + 8) with hover | hin
          · rcases Nat.lt_or_ge pos chunk.length with hstart | hstart
            · have hacross : magicAcross chunk next (chunk.length - pos) = true := by
                rw [magicAcross_iff (by omega)]
                refine ⟨by omega, ?_, by omega⟩
                rwa [show chunk.length - (chunk.length - pos) = pos by omega]
              rcases hfind : (List.range' 1 (finalBlockMagic.length - 1)).find?
                  (magicAcross chunk next) with _ | k
              · rw [List.find?_range'_eq_none, length_finalBlockMagic] at hfind
                have := hfind (chunk.length - pos) (by omega) (by omega)
                rw [hacross] at this
                cases this
              · rw [hfind] at h
                have hmem := List.mem_range'_1.mp (List.mem_of_find?_eq_some hfind)
                rw [length_finalBlockMagic] at hmem
                obtain ⟨hk, -, -⟩ := (magicAcross_iff (by omega)).mp (List.find?_some hfind)
                simp only [Option.bind_some, checkedSub_of_le hk] at h
                cases h
            · rw [slice_append_right hstart] at hslice
              exact hnext _ (by omega) hslice
          · rw [slice_append_left hin] at hslice
            exact hchunk _ hin hslice

/-- An occurrence that lies in the first cache bounds what the scan finds. -/
theorem finalBlockMagicScan_le {j : ℕ} (h : finalBlockMagicScan chunk next = some pos)
    (hj : j + 8 ≤ chunk.length) (hslice : slice chunk j 8 = finalBlockMagic) : pos ≤ j := by
  cases hchunk : windowPosition finalBlockMagic chunk with
  | none =>
      rw [windowPosition_eq_none, length_finalBlockMagic] at hchunk
      exact absurd hslice (hchunk j hj)
  | some p =>
      rw [finalBlockMagicScan_of_chunk hchunk] at h
      obtain rfl := Option.some.inj h
      obtain ⟨-, -, hfirst⟩ := windowPosition_eq_some.mp hchunk
      by_contra hlt
      exact hfirst j (by omega) hslice

/-- The magic does not overlap with itself. -/
theorem magic_no_overlap {l : Bytes} {i j : ℕ} (hij : i < j) (hi : slice l i 8 = finalBlockMagic)
    (hj : slice l j 8 = finalBlockMagic) : i + 8 ≤ j := by
  by_contra hover
  have hfirst : l[j]? = some 77 := by
    have hget := getElem?_slice (l := l) (p := j) (k := 8) (i := 0) (by omega)
    rw [hj] at hget
    exact hget.symm
  have hget := getElem?_slice (l := l) (p := i) (k := 8) (i := j - i) (by omega)
  rw [hi, show i + (j - i) = j by omega, hfirst] at hget
  have honly : ∀ d < 8, 0 < d → finalBlockMagic[d]? ≠ some 77 := by decide
  exact honly (j - i) (by omega) (by omega) hget

end Scan

/-! ## What is left of a stream -/

section Rest

variable [AesGcm] {mode : TruncatedReaderDecryptionMode} {config : InternalEncryptionConfig}
  {S R : Bytes} {c e : ℕ}

/-- How the first chunk of `R` opens, as chunk `c`, by guessing where its tag ends. -/
def openRest (mode : TruncatedReaderDecryptionMode) (config : InternalEncryptionConfig) (c : ℕ)
    (R : Bytes) : Opened :=
  openGuessed (some mode) config.key config.nonce (131072 * c) (R.take 131104)
    (slice R 131104 131104)

theorem slotOpened_eq_openRest (mode : TruncatedReaderDecryptionMode)
    (config : InternalEncryptionConfig) (S : Bytes) (c : ℕ) :
    slotOpened (some mode) config 0 S c = openRest mode config c (S.drop (131104 * c)) := by
  have hnext : slice (S.drop (131104 * c)) 131104 131104 =
      slice S (131104 * (c + 1)) 131104 := by
    rw [slice_drop]
    congr 1
  rw [openRest, hnext]
  rfl

/-- Where the tag of the first chunk of `R` is guessed to end. -/
def guess (mode : TruncatedReaderDecryptionMode) (R : Bytes) : Except Error ℕ :=
  getEndOfTagPos (some mode) (R.take 131104) (slice R 131104 131104)

omit [AesGcm] in
/-- A chunk that is followed by more than a final block is taken to be full. -/
theorem guess_full (h : 131139 ≤ R.length) : guess mode R = .ok 131104 := by
  rw [guess, getEndOfTagPos, m0ChunkSize_eq, finalInfoSize_eq, if_pos]
  rw [List.length_take, length_slice]
  omega

omit [AesGcm] in
theorem guess_short (h : R.length < 16) : guess mode R = .error .truncatedTag := by
  rw [guess, getEndOfTagPos, m0ChunkSize_eq, finalInfoSize_eq, tagLength_eq, if_neg, if_pos]
  · rw [List.length_take]
    omega
  · rw [List.length_take]
    omega

omit [AesGcm] in
/-- Otherwise its tag is searched for. -/
theorem guess_scan (mode : TruncatedReaderDecryptionMode) (h : 16 ≤ R.length)
    (h' : R.length < 131139) :
    guess mode R =
      match finalBlockMagicScan (R.take 131104) (R.drop 131104) with
      | some pos => .ok pos
      | none =>
          if mode = .dataEvenUnauthenticated then .ok (min 131104 R.length + 16)
          else .error .unknownTagPosition := by
  have hnext : slice R 131104 131104 = R.drop 131104 := slice_eq_drop (by omega)
  have hlen : (R.take 131104).length = min 131104 R.length := List.length_take
  have hadd : checkedAdd (min 131104 R.length) 16 = some (min 131104 R.length + 16) := by
    apply checkedAdd_of_lt
    rw [u64Size_eq]
    omega
  rw [guess, getEndOfTagPos, hnext, m0ChunkSize_eq, finalInfoSize_eq, tagLength_eq, hlen, if_neg,
    if_neg (by omega)]
  · cases finalBlockMagicScan (R.take 131104) (R.drop 131104) with
    | some pos => rfl
    | none =>
        simp only [tryTagPosAtFrom0To, Option.some.injEq, hadd]
  · rw [List.length_drop]
    omega

theorem openRest_of_guess (h : guess mode R = .ok e) :
    openRest mode config c R =
      openChunkAt (some mode) config.key config.nonce (131072 * c) (R.take 131104) e := by
  rw [openRest, openGuessed]
  rw [guess] at h
  rw [h]

theorem openRest_of_error {err : Error} (h : guess mode R = .error err) :
    openRest mode config c R = .failed err (R.take 131104) := by
  rw [openRest, openGuessed]
  rw [guess] at h
  rw [h]

/-- A tag that ends within its own length leaves no chunk. -/
theorem openChunkAt_eq_nothing {mode : Option TruncatedReaderDecryptionMode} {position : ℕ}
    {chunk : Bytes} :
    openChunkAt mode config.key config.nonce position chunk e = .nothing ↔ e ≤ 16 := by
  constructor
  · intro h
    by_contra hlt
    simp only [openChunkAt, tagLength_eq] at h
    rw [if_neg (by omega)] at h
    split at h
    · cases h
    · split at h
      · cases h
      · split at h
        · cases h
        · split at h
          · cases h
          · split at h <;> cases h
  · intro h
    simp only [openChunkAt, tagLength_eq]
    rw [if_pos (by omega)]

/-- The first chunk of `R` is missing exactly when the tag is guessed to end that early. -/
theorem openRest_eq_nothing :
    openRest mode config c R = .nothing ↔ ∃ e ≤ 16, guess mode R = .ok e := by
  cases hguess : guess mode R with
  | error err =>
      rw [openRest_of_error hguess]
      simp
  | ok e =>
      rw [openRest_of_guess hguess, openChunkAt_eq_nothing]
      simp

/-- Without a tag check, a chunk opens wherever its ciphertext ends in the cache. -/
theorem openRest_unauthenticated (hc : c + 1 < u64Size)
    (hguess : guess .dataEvenUnauthenticated R = .ok e) (he : 32 ≤ e)
    (hle : e ≤ min 131104 R.length + 16) :
    openRest .dataEvenUnauthenticated config c R =
      .chunk (R.take 16 ++ config.plaintext c (slice R 16 (e - 32))) := by
  obtain ⟨m, rfl⟩ : ∃ m, e = 16 + m + 16 := ⟨e - 32, by omega⟩
  have hm : 16 + m + 16 - 32 = m := by omega
  have hhead : (R.take 131104).take 16 = R.take 16 := by
    rw [List.take_take, min_eq_left (by omega : 16 ≤ 131104)]
  have hdata : slice (R.take 131104) 16 m = slice R 16 m := by
    rw [← slice_zero, slice_slice_of_le (by omega), Nat.zero_add]
  rw [openRest_of_guess hguess,
    openChunkAt_eq _ _ _ (c := c) (by omega) hc (by rw [List.length_take]; omega),
    if_pos (Or.inl rfl), hhead, hdata, hm]

/-- A guess that leaves no room for a chunk ends the delivery. -/
theorem openRest_unauthenticated_ends {cache : Bytes}
    (hguess : guess .dataEvenUnauthenticated R = .ok e)
    (hopen : openRest .dataEvenUnauthenticated config c R = .chunk cache) :
    32 ≤ e ∧ e ≤ min 131104 R.length + 16 := by
  rw [openRest_of_guess hguess] at hopen
  obtain ⟨m, rfl, hm, -⟩ := openChunkAt_eq_chunk hopen
  rw [List.length_take] at hm
  omega

end Rest

/-! ## Honest chunks -/

section Honest

open InternalEncryptionConfig (chunkHead)

variable [AesGcm] {config : InternalEncryptionConfig} {P S T : Bytes} {c : ℕ}

/-- The ciphertext and the tag of a chunk. -/
def InternalEncryptionConfig.chunkCt (config : InternalEncryptionConfig) (c : ℕ) (data : Bytes) :
    Bytes :=
  ((config.chunkCipher c).encrypt data).1

def InternalEncryptionConfig.chunkTag (config : InternalEncryptionConfig) (c : ℕ) (data : Bytes) :
    Bytes :=
  ((config.chunkCipher c).encrypt data).2.intoTag.toList

namespace InternalEncryptionConfig

theorem encChunk_eq (c : ℕ) (data : Bytes) :
    config.encChunk c data = chunkHead c ++ config.chunkCt c data ++ config.chunkTag c data := by
  rw [encChunk, sealWith, chunkCt, chunkTag, List.append_assoc]

@[simp] theorem length_chunkCt (c : ℕ) (data : Bytes) :
    (config.chunkCt c data).length = data.length := by
  simp [chunkCt, AesGcm256.encrypt]

@[simp] theorem length_chunkTag (c : ℕ) (data : Bytes) : (config.chunkTag c data).length = 16 := by
  rw [chunkTag, Vector.length_toList, tagLength_eq]

/-- Decryption inverts encryption. -/
theorem plaintext_chunkCt (c : ℕ) (data : Bytes) :
    config.plaintext c (config.chunkCt c data) = data := by
  simp only [plaintext, chunkCt, chunkCipher, AesGcm256.new, AesGcm256.encrypt, AesGcm256.decrypt,
    List.length_nil]
  exact applyKeystream_applyKeystream _ _ _ _

/-- The front of a ciphertext decrypts to the front of its plaintext. -/
theorem plaintext_take (c n : ℕ) (ct : Bytes) :
    config.plaintext c (ct.take n) = (config.plaintext c ct).take n := by
  simp only [plaintext, AesGcm256.decrypt]
  exact applyKeystream_take _ _ _ _ _

/-- With a correct cipher, a chunk is authentic. -/
theorem authentic_of_correct (hcorrect : AesGcm.Correct) (c : ℕ) (data : Bytes) :
    config.Authentic c (config.chunkCt c data) (config.chunkTag c data) := by
  simp only [Authentic, chunkTag, chunkCt, AesGcm256.decrypt, AesGcm256.encrypt,
    AesGcm256.intoTag, chunkCipher, AesGcm256.new, List.nil_append]
  exact hcorrect _ _ _ _

/-- The place of the ciphertext and of the tag in a chunk. -/
theorem slice_encChunk_ct (c : ℕ) (data rest : Bytes) :
    slice (config.encChunk c data ++ rest) 16 data.length = config.chunkCt c data := by
  rw [encChunk_eq, List.append_assoc, List.append_assoc, slice_append_right (by simp),
    length_chunkHead, Nat.sub_self, slice_append_left (by simp),
    slice_zero_of_le (by simp)]

theorem slice_encChunk_tag (c : ℕ) (data rest : Bytes) :
    slice (config.encChunk c data ++ rest) (16 + data.length) 16 = config.chunkTag c data := by
  have hfront : (chunkHead c ++ config.chunkCt c data).length = 16 + data.length := by simp
  rw [encChunk_eq, List.append_assoc, ← hfront, slice_append_right le_rfl, Nat.sub_self,
    slice_append_left (by simp), slice_zero_of_le (by simp)]

theorem take_encChunk (c : ℕ) (data rest : Bytes) :
    (config.encChunk c data ++ rest).take 16 = chunkHead c := by
  rw [encChunk_eq, List.append_assoc, List.append_assoc, List.take_left' (by simp)]

end InternalEncryptionConfig

/-- An honest chunk opens where its tag ends. -/
theorem openChunkAt_encChunk {mode : Option TruncatedReaderDecryptionMode} {data : Bytes}
    (rest : Bytes)
    (hc : c + 1 < u64Size) (hdata : data.length ≤ 131072)
    (hauth : mode = some .dataEvenUnauthenticated ∨
      config.Authentic c (config.chunkCt c data) (config.chunkTag c data)) :
    openChunkAt mode config.key config.nonce (131072 * c)
      ((config.encChunk c data ++ rest).take 131104) (16 + data.length + 16) =
        .chunk (chunkHead c ++ data) := by
  have hslice : ∀ {p k}, p + k ≤ 131104 →
      slice ((config.encChunk c data ++ rest).take 131104) p k =
        slice (config.encChunk c data ++ rest) p k := by
    intro p k hk
    rw [← slice_zero, slice_slice_of_le hk, Nat.zero_add]
  have htake : ((config.encChunk c data ++ rest).take 131104).take 16 = chunkHead c := by
    rw [List.take_take, min_eq_left (by omega : 16 ≤ 131104),
      InternalEncryptionConfig.take_encChunk]
  have hlen : data.length + 32 ≤ ((config.encChunk c data ++ rest).take 131104).length := by
    rw [List.length_take, List.length_append, InternalEncryptionConfig.length_encChunk]
    omega
  rw [openChunkAt_eq _ _ _ (c := c) (by omega) hc (by omega),
    hslice (by omega), hslice (by omega), InternalEncryptionConfig.slice_encChunk_ct,
    InternalEncryptionConfig.slice_encChunk_tag, htake,
    InternalEncryptionConfig.plaintext_chunkCt, if_pos]
  rcases hauth with hmode | hauth
  · exact Or.inl hmode
  · exact Or.inr ⟨by omega, hauth⟩

/-- An honest chunk opens when its tag is found where it ends. -/
theorem openRest_encChunk {mode : TruncatedReaderDecryptionMode} {data rest : Bytes}
    (hc : c + 1 < u64Size) (hdata : data.length ≤ 131072)
    (hauth : mode = .dataEvenUnauthenticated ∨
      config.Authentic c (config.chunkCt c data) (config.chunkTag c data))
    (hguess : guess mode (config.encChunk c data ++ rest) = .ok (data.length + 32)) :
    openRest mode config c (config.encChunk c data ++ rest) = .chunk (chunkHead c ++ data) := by
  have he : data.length + 32 = 16 + data.length + 16 := by omega
  rw [openRest_of_guess hguess, he]
  exact openChunkAt_encChunk rest hc hdata (hauth.imp_left (congrArg some))

end Honest

end Mla
