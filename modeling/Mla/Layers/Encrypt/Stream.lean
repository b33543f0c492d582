import Mla.Crypto.Hpke
import Mla.Serialize

/-!
# The encrypted stream

The stream of the encryption layer for a plaintext `P`. The plaintext is cut in
chunks of 128 KiB, of which only the last one may be shorter, and there is at
least one. A chunk is stored as its magic, its number, its ciphertext and its tag,
and the chunks are followed by a final block, which is encrypted under the number
that comes next.

`encBody` is what the reader of the layer is given; `encStream` adds the empty tail
options that the writer ends with.
-/

namespace Mla

open Io

/-! ## Constants of the layer -/

def cipherBufSize : ℕ := 4096
def normalChunkPtSize : ℕ := 128 * 1024
def normalChunkPtAndTagSize : ℕ := normalChunkPtSize + tagLength

def associatedData : Bytes := []
def finalAssociatedData : Bytes := ascii ['F', 'I', 'N', 'A', 'L', 'A', 'A', 'D']
def finalBlockContent : Bytes := ascii ['F', 'I', 'N', 'A', 'L', 'B', 'L', 'O', 'C', 'K']
def finalBlockMagic : Bytes := ascii ['M', '0', 'F', 'N', 'L', 'B', 'L', 'K']
def encryptionLayerMagic : Bytes := ascii ['E', 'N', 'C', 'M', 'L', 'A', 'A', 'A']
def endOfEncryptedInnerLayerMagic : Bytes := ascii ['E', 'N', 'C', 'M', 'L', 'A', 'A', 'B']
def chunkMagic : Bytes := ascii ['M', '0', 'E', 'N', 'C', 'C', 'N', 'K']

def finalInfoSize : ℕ := finalBlockMagic.length + finalBlockContent.length + tagLength
/-- Without the magic. -/
def finalInfoSizeWom : ℕ := finalBlockContent.length + tagLength
def chunkHeadSize : ℕ := chunkMagic.length + 8
def m0ChunkSize : ℕ := chunkMagic.length + 8 + normalChunkPtAndTagSize

/-- Encrypted under number 0, to commit to the key. -/
def keyCommitmentChain : Bytes :=
  (List.replicate 4 (ascii ['-', 'K', 'E', 'Y', ' ', 'C', 'O', 'M', 'M', 'I', 'T', 'M', 'E', 'N',
    'T', '-'])).flatten

/-- Number of the first chunk that holds data; number 0 is the key commitment. -/
def firstDataChunkNumber : ℕ := 1

theorem tagLength_eq : tagLength = 16 := (rfl)
theorem normalChunkPtSize_eq : normalChunkPtSize = 131072 := (rfl)
theorem normalChunkPtAndTagSize_eq : normalChunkPtAndTagSize = 131088 := (rfl)
theorem finalInfoSize_eq : finalInfoSize = 34 := (rfl)
theorem finalInfoSizeWom_eq : finalInfoSizeWom = 26 := (rfl)
theorem chunkHeadSize_eq : chunkHeadSize = 16 := (rfl)
theorem m0ChunkSize_eq : m0ChunkSize = 131104 := (rfl)
theorem firstDataChunkNumber_eq : firstDataChunkNumber = 1 := (rfl)
theorem i64Size_eq : i64Size = 9223372036854775808 := (rfl)
theorem u64Size_eq : u64Size = 18446744073709551616 := (rfl)

@[simp] theorem length_chunkMagic : chunkMagic.length = 8 := (rfl)
@[simp] theorem length_finalBlockMagic : finalBlockMagic.length = 8 := (rfl)
@[simp] theorem length_finalBlockContent : finalBlockContent.length = 10 := (rfl)
@[simp] theorem length_endOfEncryptedInnerLayerMagic :
    endOfEncryptedInnerLayerMagic.length = 8 := (rfl)

/-- The key and the base nonce of a session. -/
structure InternalEncryptionConfig where
  key : Key
  nonce : Nonce

namespace CountingCipher

def config : InternalEncryptionConfig := ⟨key, nonce⟩

end CountingCipher

/-! ## Chunks -/

/-- The number of chunks of a plaintext. -/
def chunkCount (P : Bytes) : ℕ :=
  max 1 ((P.length + normalChunkPtSize - 1) / normalChunkPtSize)

/-- The plaintext of a chunk. -/
def chunkData (P : Bytes) (i : ℕ) : Bytes :=
  slice P (normalChunkPtSize * i) normalChunkPtSize

/-- Index of the last chunk. -/
def lastChunk (P : Bytes) : ℕ := chunkCount P - 1

theorem chunkCount_eq (P : Bytes) : chunkCount P = lastChunk P + 1 := by
  have hpos : 1 ≤ chunkCount P := le_max_left _ _
  rw [lastChunk]
  omega

/-- The last chunk starts inside the plaintext, unless the plaintext is empty. -/
theorem lastChunk_spec (P : Bytes) :
    131072 * lastChunk P ≤ P.length ∧ P.length ≤ 131072 * lastChunk P + 131072 ∧
      (P ≠ [] → 131072 * lastChunk P < P.length) := by
  rw [ne_eq, ← List.length_eq_zero_iff, lastChunk, chunkCount, normalChunkPtSize_eq]
  omega

theorem lastChunk_eq_zero (P : Bytes) : lastChunk P = 0 ↔ P.length ≤ 131072 := by
  obtain ⟨hfirst, hle, hin⟩ := lastChunk_spec P
  constructor
  · intro h
    omega
  · intro h
    by_contra hne
    have hpos : P ≠ [] := by
      rintro rfl
      rw [List.length_nil] at hfirst
      omega
    have := hin hpos
    omega

theorem length_chunkData_of_lt {P : Bytes} {i : ℕ} (hi : i < lastChunk P) :
    (chunkData P i).length = 131072 := by
  obtain ⟨hlast, -, -⟩ := lastChunk_spec P
  rw [chunkData, normalChunkPtSize_eq, length_slice]
  omega

theorem length_chunkData_last (P : Bytes) :
    (chunkData P (lastChunk P)).length = P.length - 131072 * lastChunk P := by
  obtain ⟨-, hlast, -⟩ := lastChunk_spec P
  rw [chunkData, normalChunkPtSize_eq, length_slice]
  omega

theorem length_chunkData_le (P : Bytes) (i : ℕ) : (chunkData P i).length ≤ 131072 := by
  rw [chunkData, normalChunkPtSize_eq, length_slice]
  omega

section Stream

variable [AesGcm] (config : InternalEncryptionConfig)

namespace InternalEncryptionConfig

/-- The cipher for the data of the chunk of index `i`. -/
def chunkCipher (i : ℕ) : AesGcm256 :=
  AesGcm256.new config.key (computeNonce config.nonce (i + firstDataChunkNumber)) associatedData

/-- The cipher for the final block after `n` chunks. -/
def finalCipher (n : ℕ) : AesGcm256 :=
  AesGcm256.new config.key (computeNonce config.nonce (n + firstDataChunkNumber))
    finalAssociatedData

/-- The cipher for the key commitment. -/
def commitmentCipher : AesGcm256 :=
  AesGcm256.new config.key (computeNonce config.nonce 0) associatedData

def chunkHead (i : ℕ) : Bytes :=
  chunkMagic ++ leBytes 8 (i + firstDataChunkNumber)

/-- A ciphertext and its tag. -/
def sealWith (cipher : AesGcm256) (data : Bytes) : Bytes :=
  (cipher.encrypt data).1 ++ (cipher.encrypt data).2.intoTag.toList

/-- The chunk of index `i` as it is stored. -/
def encChunk (i : ℕ) (data : Bytes) : Bytes :=
  chunkHead i ++ sealWith (config.chunkCipher i) data

def finalBlock (n : ℕ) : Bytes :=
  finalBlockMagic ++ sealWith (config.finalCipher n) finalBlockContent

def encChunks (P : Bytes) : Bytes :=
  (List.range (chunkCount P)).flatMap fun i => config.encChunk i (chunkData P i)

/-- What comes after the chunks: the final block and the end magic. -/
def encTail (P : Bytes) : Bytes :=
  config.finalBlock (chunkCount P) ++ endOfEncryptedInnerLayerMagic

def encBody (P : Bytes) : Bytes :=
  config.encChunks P ++ config.encTail P

def encStream (P : Bytes) : Bytes :=
  config.encBody P ++ emptyTailOptsSerialization

/-! ## Lengths and places -/

omit [AesGcm] in
@[simp] theorem length_chunkHead (i : ℕ) : (chunkHead i).length = 16 := by
  simp [chunkHead]

@[simp] theorem length_sealWith (cipher : AesGcm256) (data : Bytes) :
    (sealWith cipher data).length = data.length + 16 := by
  rw [sealWith, List.length_append, Vector.length_toList, AesGcm256.encrypt, tagLength]
  simp

@[simp] theorem length_encChunk (i : ℕ) (data : Bytes) :
    (config.encChunk i data).length = data.length + 32 := by
  simp only [encChunk, List.length_append, length_chunkHead, length_sealWith]
  omega

@[simp] theorem length_finalBlock (n : ℕ) : (config.finalBlock n).length = 34 := by
  simp [finalBlock]

@[simp] theorem length_encTail (P : Bytes) : (config.encTail P).length = 42 := by
  simp [encTail]

/-- The full chunks before chunk `k`. -/
def frontChunks (P : Bytes) (k : ℕ) : Bytes :=
  (List.range k).flatMap fun i => config.encChunk i (chunkData P i)

theorem length_encChunk_of_lt {P : Bytes} {i : ℕ} (hi : i < lastChunk P) :
    (config.encChunk i (chunkData P i)).length = 131104 := by
  rw [length_encChunk, length_chunkData_of_lt hi]

theorem length_frontChunks {P : Bytes} {k : ℕ} (hk : k ≤ lastChunk P) :
    (config.frontChunks P k).length = 131104 * k :=
  length_flatMap_range fun _ hi => config.length_encChunk_of_lt (by omega)

/-- The stream is its full chunks, the last chunk and the tail. -/
theorem encBody_eq (P : Bytes) :
    config.encBody P = config.frontChunks P (lastChunk P) ++
      (config.encChunk (lastChunk P) (chunkData P (lastChunk P)) ++ config.encTail P) := by
  rw [encBody, encChunks, chunkCount_eq, List.range_succ, List.flatMap_append, frontChunks,
    List.append_assoc]
  simp

theorem length_encBody (P : Bytes) :
    (config.encBody P).length = P.length + 32 * lastChunk P + 74 := by
  obtain ⟨hlast, -, -⟩ := lastChunk_spec P
  rw [encBody_eq, List.length_append, List.length_append,
    config.length_frontChunks le_rfl, length_encChunk, length_chunkData_last, length_encTail]
  omega

/-- A full chunk stands at its place, whatever follows the stream. -/
theorem slice_encBody_of_lt {P : Bytes} {i : ℕ} (hi : i < lastChunk P) (T : Bytes) :
    slice (config.encBody P ++ T) (131104 * i) 131104 = config.encChunk i (chunkData P i) := by
  rw [encBody_eq, List.append_assoc]
  exact slice_flatMap_range (fun j hj => config.length_encChunk_of_lt hj) hi _

/-- A chunk of full size stands at its place, be it the last one. -/
theorem slice_encBody_of_le {P : Bytes} {i : ℕ} (hi : 131072 * (i + 1) ≤ P.length) (T : Bytes) :
    slice (config.encBody P ++ T) (131104 * i) 131104 = config.encChunk i (chunkData P i) := by
  obtain ⟨-, hle, hlt⟩ := lastChunk_spec P
  rcases Nat.lt_or_ge i (lastChunk P) with hbefore | hlast
  · exact config.slice_encBody_of_lt hbefore T
  · have hne : P ≠ [] := by
      rintro rfl
      simp at hi
    obtain rfl : i = lastChunk P := by
      have := hlt hne
      omega
    have hlen : (config.encChunk (lastChunk P) (chunkData P (lastChunk P))).length = 131104 := by
      rw [length_encChunk, length_chunkData_last]
      omega
    rw [encBody_eq, List.append_assoc, ← config.length_frontChunks le_rfl,
      slice_append_right le_rfl, Nat.sub_self, List.append_assoc, slice_append_left (by omega),
      slice_zero_of_le (by omega)]

theorem drop_encBody (P T : Bytes) :
    (config.encBody P ++ T).drop (131104 * lastChunk P) =
      config.encChunk (lastChunk P) (chunkData P (lastChunk P)) ++ config.encTail P ++ T := by
  rw [encBody_eq, List.append_assoc, ← config.length_frontChunks le_rfl, List.drop_left,
    List.append_assoc]

end InternalEncryptionConfig

end Stream

end Mla
