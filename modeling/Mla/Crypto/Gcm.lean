import Mla.Crypto.Ctr
import Mla.Io.Chunks

/-!
# GCM in pieces

`GcmContext` encrypts a message that is given in buffers: it goes on in the keystream, hashes each
block of the ciphertext as soon as it is full and keeps the bytes of the block that is not. The
one-shot cipher (`gcmEncrypt`, `gcmTag`) xors the whole message and hashes the padded associated
data, the padded ciphertext and the block of both lengths.
-/

namespace Mla

open Io

/-- The universal hash of GCM, as it is fed block by block. -/
class GHash where
  State : Type
  init : CipherBlock → State
  update : State → CipherBlock → State
  finalize : State → CipherBlock

/-- `AES256_GCM_MAX_PLAINTEXT_LENGTH`. -/
def aes256GcmMaxPlaintextLength : ℕ := 2 ^ 39 - 256

/-- The length in bits of a message that is accepted does not overflow. -/
theorem mul_aes256GcmMaxPlaintextLength : 8 * aes256GcmMaxPlaintextLength < u64Size := by decide

/-- The blocks of a text, the last one padded with zeros. -/
def paddedBlocks (bs : Bytes) : List CipherBlock :=
  (chunksExact aesBlockSize bs).map toBlock ++
    if (remainder aesBlockSize bs).isEmpty then [] else [toBlock (remainder aesBlockSize bs)]

section Context

variable [Aes256] [GHash]

/-- `AesGcm256`. -/
structure GcmContext where
  cipher : Aes256Ctr
  ghash : GHash.State
  associatedDataBitsLen : ℕ
  currentBlock : Bytes
  bytesEncrypted : ℕ

/-- `update_padded`. -/
def updatePadded (ghash : GHash.State) (data : Bytes) : GHash.State :=
  (paddedBlocks data).foldl GHash.update ghash

/-- The block of both lengths. -/
def lengthBlock (associatedDataBitsLen bufferBits : ℕ) : CipherBlock :=
  toBlock (beBytes associatedDataBitsLen ++ beBytes bufferBits)

/-- A full chunk is encrypted and hashed. -/
def encryptChunks : List Bytes → Aes256Ctr → GHash.State → Bytes × Aes256Ctr × GHash.State
  | [], cipher, ghash => ([], cipher, ghash)
  | chunk :: chunks, cipher, ghash =>
      let (chunk, cipher) := cipher.applyKeystream chunk
      let (rest, cipher, ghash) := encryptChunks chunks cipher (GHash.update ghash (toBlock chunk))
      (chunk ++ rest, cipher, ghash)

/-- A full chunk is hashed and decrypted. -/
def decryptChunks : List Bytes → Aes256Ctr → GHash.State → Bytes × Aes256Ctr × GHash.State
  | [], cipher, ghash => ([], cipher, ghash)
  | chunk :: chunks, cipher, ghash =>
      let ghash := GHash.update ghash (toBlock chunk)
      let (chunk, cipher) := cipher.applyKeystream chunk
      let (rest, cipher, ghash) := decryptChunks chunks cipher ghash
      (chunk ++ rest, cipher, ghash)

namespace GcmContext

/-- A panic of the source is `none`. -/
def new (key : Key) (nonce : Nonce) (associatedData : Bytes) : Option GcmContext := do
  guard (associatedData.length < aes256GcmMaxPlaintextLength)
  let ghashKey := Aes256.encryptBlock key (toBlock [])
  let ghash := updatePadded (GHash.init ghashKey) associatedData
  let cipher : Aes256Ctr := ⟨key, nonce, 0⟩
  let associatedDataBitsLen ← checkedMul associatedData.length 8
  pure ⟨cipher.seek aesBlockSize, ghash, associatedDataBitsLen, [], 0⟩

/-- The end of `encrypt`, which begins with a whole block. -/
def encryptAligned (ctx : GcmContext) (buffer : Bytes) : Bytes × GcmContext :=
  let (chunks, cipher, ghash) := encryptChunks (chunksExact aesBlockSize buffer) ctx.cipher ctx.ghash
  let (rem, cipher') := cipher.applyKeystream (remainder aesBlockSize buffer)
  if (remainder aesBlockSize buffer).isEmpty then (chunks, { ctx with cipher := cipher, ghash := ghash })
  else (chunks ++ rem,
    { ctx with cipher := cipher', ghash := ghash, currentBlock := ctx.currentBlock ++ rem })

def encrypt (ctx : GcmContext) (buffer : Bytes) : Option (Bytes × GcmContext) := do
  let bytesEncrypted ← checkedAdd ctx.bytesEncrypted buffer.length
  guard (bytesEncrypted + ctx.associatedDataBitsLen / 8 < aes256GcmMaxPlaintextLength)
  let ctx := { ctx with bytesEncrypted := bytesEncrypted }
  if ctx.currentBlock.isEmpty then
    pure (ctx.encryptAligned buffer)
  else if (← checkedAdd ctx.currentBlock.length buffer.length) < aesBlockSize then
    let (buffer, cipher) := ctx.cipher.applyKeystream buffer
    pure (buffer, { ctx with cipher := cipher, currentBlock := ctx.currentBlock ++ buffer })
  else
    let missing ← checkedSub aesBlockSize ctx.currentBlock.length
    let (inBlock, cipher) := ctx.cipher.applyKeystream (buffer.take missing)
    let ghash := GHash.update ctx.ghash (toBlock (ctx.currentBlock ++ inBlock))
    let (outBlock, ctx) := { ctx with
      cipher := cipher, ghash := ghash, currentBlock := [] }.encryptAligned (buffer.drop missing)
    pure (inBlock ++ outBlock, ctx)

/-- The tag of what was hashed is xored with block 0 of the keystream. -/
def tagOf (cipher : Aes256Ctr) (ghash : GHash.State) (associatedDataBitsLen bufferBits : ℕ) : Bytes :=
  let ghash := GHash.update ghash (lengthBlock associatedDataBitsLen bufferBits)
  ((cipher.seek 0).applyKeystream (GHash.finalize ghash).toList).1

def intoTag (ctx : GcmContext) : Option Bytes := do
  let ghash := updatePadded ctx.ghash ctx.currentBlock
  let bufferBits ← checkedMul ctx.bytesEncrypted 8
  pure (tagOf ctx.cipher ghash ctx.associatedDataBitsLen bufferBits)

def decryptUnauthenticated (ctx : GcmContext) (buffer : Bytes) : Bytes × GcmContext :=
  let (buffer, cipher) := ctx.cipher.applyKeystream buffer
  (buffer, { ctx with cipher := cipher })

def decrypt (ctx : GcmContext) (buffer : Bytes) : Option (Bytes × Bytes) := do
  guard (buffer.length + ctx.associatedDataBitsLen / 8 < aes256GcmMaxPlaintextLength)
  let (chunks, cipher, ghash) := decryptChunks (chunksExact aesBlockSize buffer) ctx.cipher ctx.ghash
  let (rem, cipher', ghash') := if (remainder aesBlockSize buffer).isEmpty then ([], cipher, ghash)
    else
      let ghash := updatePadded ghash (remainder aesBlockSize buffer)
      let (rem, cipher) := cipher.applyKeystream (remainder aesBlockSize buffer)
      (rem, cipher, ghash)
  let bufferBits ← checkedMul buffer.length 8
  pure (chunks ++ rem, tagOf cipher' ghash' ctx.associatedDataBitsLen bufferBits)

/-- The buffers of a message, one after the other. -/
def encryptAll : List Bytes → GcmContext → Option (List Bytes × GcmContext)
  | [], ctx => some ([], ctx)
  | buffer :: buffers, ctx => do
      let (buffer, ctx) ← ctx.encrypt buffer
      let (buffers, ctx) ← encryptAll buffers ctx
      pure (buffer :: buffers, ctx)

def decryptUnauthenticatedAll : List Bytes → GcmContext → List Bytes × GcmContext
  | [], ctx => ([], ctx)
  | buffer :: buffers, ctx =>
      let (buffer, ctx) := ctx.decryptUnauthenticated buffer
      let (buffers, ctx) := decryptUnauthenticatedAll buffers ctx
      (buffer :: buffers, ctx)

end GcmContext

/-! ## One-shot GCM -/

def gcmEncrypt (key : Key) (nonce : Nonce) (msg : Bytes) : Bytes :=
  xorStream (Aes256Ctr.keystream key nonce) aesBlockSize msg

/-- GHASH of the padded associated data, the padded ciphertext and the block of the lengths. -/
def ghashOf (key : Key) (associatedData ciphertext : Bytes) : CipherBlock :=
  GHash.finalize ((paddedBlocks associatedData ++ paddedBlocks ciphertext ++
    [lengthBlock (8 * associatedData.length) (8 * ciphertext.length)]).foldl GHash.update
      (GHash.init (Aes256.encryptBlock key (toBlock []))))

def gcmTag (key : Key) (nonce : Nonce) (associatedData ciphertext : Bytes) : Bytes :=
  xorStream (Aes256Ctr.keystream key nonce) 0 (ghashOf key associatedData ciphertext).toList

/-! ## Chunks of a ciphertext -/

section Chunks

variable {key : Key} {nonce : Nonce} {pos : ℕ} {ghash : GHash.State}

omit [GHash] in
theorem keystream_chunk {chunk : Bytes} {chunks : List Bytes} (h : chunk.length = aesBlockSize) :
    chunksExact aesBlockSize
        (xorStream (Aes256Ctr.keystream key nonce) pos (chunk :: chunks).flatten) =
      xorStream (Aes256Ctr.keystream key nonce) pos chunk ::
        chunksExact aesBlockSize (xorStream (Aes256Ctr.keystream key nonce)
          (pos + chunk.length) chunks.flatten) := by
  have hlen : (xorStream (Aes256Ctr.keystream key nonce) pos chunk).length = aesBlockSize := by
    rw [length_xorStream, h]
  rw [List.flatten_cons, xorStream_append, chunksExact_append aesBlockSize_pos _ _ ⟨1, by rw [hlen, mul_one]⟩,
    chunksExact_of_length aesBlockSize_pos hlen, List.singleton_append]

/-- The chunks are encrypted as one text, whose blocks are hashed. -/
theorem encryptChunks_eq (key : Key) (nonce : Nonce) {chunks : List Bytes}
    (h : ∀ chunk ∈ chunks, chunk.length = aesBlockSize) :
    ∀ (pos : ℕ) (ghash : GHash.State),
      encryptChunks chunks ⟨key, nonce, pos⟩ ghash =
        (xorStream (Aes256Ctr.keystream key nonce) pos chunks.flatten,
          ⟨key, nonce, pos + chunks.flatten.length⟩,
          ((chunksExact aesBlockSize (xorStream (Aes256Ctr.keystream key nonce) pos
            chunks.flatten)).map toBlock).foldl GHash.update ghash) := by
  induction chunks with
  | nil =>
      intro pos ghash
      rw [List.flatten_nil, xorStream_nil, chunksExact_of_lt aesBlockSize_pos]
      rfl
  | cons chunk chunks ih =>
      intro pos ghash
      rw [List.forall_mem_cons] at h
      rw [keystream_chunk h.1, encryptChunks]
      simp only [Aes256Ctr.applyKeystream, ih h.2]
      rw [List.flatten_cons, xorStream_append, List.length_append, Nat.add_assoc]
      rfl

/-- Decrypting chunks hashes them first. -/
theorem decryptChunks_eq {chunks : List Bytes} :
    ∀ {pos : ℕ} {ghash : GHash.State},
      decryptChunks chunks ⟨key, nonce, pos⟩ ghash =
        (xorStream (Aes256Ctr.keystream key nonce) pos chunks.flatten,
          ⟨key, nonce, pos + chunks.flatten.length⟩,
          (chunks.map toBlock).foldl GHash.update ghash) := by
  induction chunks with
  | nil => exact fun {pos ghash} => rfl
  | cons chunk chunks ih =>
      intro pos ghash
      rw [decryptChunks]
      simp only [Aes256Ctr.applyKeystream, ih]
      rw [List.flatten_cons, xorStream_append, List.length_append, Nat.add_assoc]
      rfl

end Chunks

namespace GcmContext

variable {key : Key} {nonce : Nonce} {aad ct : Bytes} {ctx : GcmContext}

/-- A context that has encrypted `ct`, but for the count of its bytes. -/
structure Stands (ctx : GcmContext) (key : Key) (nonce : Nonce) (aad ct : Bytes) : Prop where
  cipher : ctx.cipher = ⟨key, nonce, aesBlockSize + ct.length⟩
  ghash : ctx.ghash = ((chunksExact aesBlockSize ct).map toBlock).foldl GHash.update
    (updatePadded (GHash.init (Aes256.encryptBlock key (toBlock []))) aad)
  associatedDataBitsLen : ctx.associatedDataBitsLen = 8 * aad.length
  currentBlock : ctx.currentBlock = remainder aesBlockSize ct

structure Encrypted (ctx : GcmContext) (key : Key) (nonce : Nonce) (aad ct : Bytes) : Prop
    extends Stands ctx key nonce aad ct where
  bytesEncrypted : ctx.bytesEncrypted = ct.length

theorem new_encrypted (key : Key) (nonce : Nonce) (h : aad.length < aes256GcmMaxPlaintextLength) :
    ∃ ctx, new key nonce aad = some ctx ∧ ctx.Encrypted key nonce aad [] := by
  have hbits : checkedMul aad.length 8 = some (8 * aad.length) := by
    refine checkedMul_of_lt ?_
    have hmax := mul_aes256GcmMaxPlaintextLength
    omega
  rw [new, guard, if_pos h, hbits]
  refine ⟨_, rfl, ⟨rfl, ?_, rfl, rfl⟩, rfl⟩
  rw [chunksExact_of_lt aesBlockSize_pos]
  rfl

/-- From the start of a block on, whole blocks are hashed and the rest is kept. -/
theorem Stands.encryptAligned (h : ctx.Stands key nonce aad ct) (haligned : aesBlockSize ∣ ct.length)
    (buffer : Bytes) :
    (ctx.encryptAligned buffer).1 =
        xorStream (Aes256Ctr.keystream key nonce) (aesBlockSize + ct.length) buffer ∧
      (ctx.encryptAligned buffer).2.bytesEncrypted = ctx.bytesEncrypted ∧
      (ctx.encryptAligned buffer).2.Stands key nonce aad
        (ct ++ xorStream (Aes256Ctr.keystream key nonce) (aesBlockSize + ct.length) buffer) := by
  have hchunks := length_of_mem_chunksExact (n := aesBlockSize) buffer
  have hsplit := chunksExact_append_remainder aesBlockSize buffer
  have hcurrent : ctx.currentBlock = [] := by
    rw [h.currentBlock, ← List.length_eq_zero_iff, length_remainder]
    exact Nat.mod_eq_zero_of_dvd haligned
  -- The chunks and the rest are xored one after the other.
  generalize hwhole : (chunksExact aesBlockSize buffer).flatten = whole at hsplit
  have hwholeDvd : aesBlockSize ∣ whole.length := by
    rw [← hwhole]
    exact dvd_length_flatten hchunks
  have hrem : (remainder aesBlockSize buffer).length < aesBlockSize := by
    rw [length_remainder]
    exact Nat.mod_lt _ aesBlockSize_pos
  have hrun := encryptChunks_eq key nonce hchunks (aesBlockSize + ct.length) ctx.ghash
  rw [hwhole, ← h.cipher] at hrun
  have hxor := xorStream_append (Aes256Ctr.keystream key nonce) (aesBlockSize + ct.length) whole
    (remainder aesBlockSize buffer)
  rw [hsplit] at hxor
  have hfront : aesBlockSize ∣
      (ct ++ xorStream (Aes256Ctr.keystream key nonce) (aesBlockSize + ct.length) whole).length := by
    rw [List.length_append, length_xorStream]
    exact Nat.dvd_add haligned hwholeDvd
  have hback : (xorStream (Aes256Ctr.keystream key nonce) (aesBlockSize + ct.length + whole.length)
      (remainder aesBlockSize buffer)).length < aesBlockSize := by
    rwa [length_xorStream]
  have hstands : ∀ ctx' : GcmContext,
      ctx'.cipher = ⟨key, nonce, aesBlockSize + (ct.length + buffer.length)⟩ →
      ctx'.ghash = ((chunksExact aesBlockSize (xorStream (Aes256Ctr.keystream key nonce)
        (aesBlockSize + ct.length) whole)).map toBlock).foldl GHash.update ctx.ghash →
      ctx'.associatedDataBitsLen = ctx.associatedDataBitsLen →
      ctx'.currentBlock = xorStream (Aes256Ctr.keystream key nonce)
        (aesBlockSize + ct.length + whole.length) (remainder aesBlockSize buffer) →
      ctx'.Stands key nonce aad
        (ct ++ xorStream (Aes256Ctr.keystream key nonce) (aesBlockSize + ct.length) buffer) := by
    intro ctx' hcipher hghash hbits hblock
    refine ⟨?_, ?_, hbits.trans h.associatedDataBitsLen, ?_⟩
    · rw [hcipher, List.length_append, length_xorStream]
    · rw [hghash, h.ghash, hxor, ← List.append_assoc, chunksExact_append_short aesBlockSize_pos hfront hback,
        chunksExact_append aesBlockSize_pos _ _ haligned, List.map_append, List.foldl_append]
    · rw [hblock, hxor, ← List.append_assoc, remainder_append_short aesBlockSize_pos hfront hback]
  have hlength : whole.length + (remainder aesBlockSize buffer).length = buffer.length := by
    rw [← List.length_append, hsplit]
  rw [GcmContext.encryptAligned, hrun]
  simp only [Aes256Ctr.applyKeystream]
  split
  · rename_i hempty
    have hnil := List.isEmpty_iff.mp hempty
    rw [hnil, List.append_nil] at hsplit
    subst hsplit
    refine ⟨rfl, rfl, hstands _ (by rw [Nat.add_assoc]) rfl rfl ?_⟩
    rw [hnil]
    exact hcurrent
  · refine ⟨hxor.symm, rfl, hstands _ ?_ rfl rfl ?_⟩
    · simp only [Nat.add_assoc, hlength]
    · rw [hcurrent]
      rfl

/-- A buffer that does not fill the block is kept with it. -/
theorem Stands.keep (h : ctx.Stands key nonce aad ct) (bs : Bytes)
    (hlen : (remainder aesBlockSize ct).length + bs.length < aesBlockSize) (n : ℕ) :
    (⟨⟨key, nonce, aesBlockSize + ct.length + bs.length⟩, ctx.ghash, ctx.associatedDataBitsLen,
      ctx.currentBlock ++ bs, n⟩ : GcmContext).Stands key nonce aad (ct ++ bs) := by
  obtain ⟨hchunks, hrem⟩ := append_part aesBlockSize_pos hlen
  refine ⟨?_, ?_, h.associatedDataBitsLen, ?_⟩
  · rw [List.length_append, Nat.add_assoc]
  · rw [hchunks]
    exact h.ghash
  · rw [hrem, ← h.currentBlock]

/-- A buffer that fills the block is hashed with it. -/
theorem Stands.fill (h : ctx.Stands key nonce aad ct) (bs : Bytes)
    (hlen : (remainder aesBlockSize ct).length + bs.length = aesBlockSize) (n : ℕ) :
    (⟨⟨key, nonce, aesBlockSize + ct.length + bs.length⟩,
      GHash.update ctx.ghash (toBlock (ctx.currentBlock ++ bs)), ctx.associatedDataBitsLen,
      [], n⟩ : GcmContext).Stands key nonce aad (ct ++ bs) := by
  obtain ⟨hchunks, hrem⟩ := append_full aesBlockSize_pos hlen
  refine ⟨?_, ?_, h.associatedDataBitsLen, ?_⟩
  · rw [List.length_append, Nat.add_assoc]
  · rw [hchunks, List.map_append, List.foldl_append, ← h.ghash, ← h.currentBlock]
    rfl
  · rw [hrem]

/-- What one buffer is encrypted to, and the context behind it. -/
theorem Encrypted.encrypt (h : ctx.Encrypted key nonce aad ct) (buffer : Bytes)
    (hguard : ct.length + buffer.length + aad.length < aes256GcmMaxPlaintextLength) :
    ∃ ctx', ctx.encrypt buffer =
        some (xorStream (Aes256Ctr.keystream key nonce) (aesBlockSize + ct.length) buffer, ctx') ∧
      ctx'.Encrypted key nonce aad
        (ct ++ xorStream (Aes256Ctr.keystream key nonce) (aesBlockSize + ct.length) buffer) := by
  have hword : aesBlockSize + aes256GcmMaxPlaintextLength < u64Size := by decide
  have hadd : checkedAdd ctx.bytesEncrypted buffer.length = some (ct.length + buffer.length) := by
    rw [h.bytesEncrypted]
    exact checkedAdd_of_lt (by omega)
  have hpass : ct.length + buffer.length + ctx.associatedDataBitsLen / 8 <
      aes256GcmMaxPlaintextLength := by
    rw [h.associatedDataBitsLen, Nat.mul_div_cancel_left _ (Nat.succ_pos 7)]
    exact hguard
  have hrem : (remainder aesBlockSize ct).length < aesBlockSize := by
    rw [length_remainder]
    exact Nat.mod_lt _ aesBlockSize_pos
  have hlength : (ct ++ xorStream (Aes256Ctr.keystream key nonce) (aesBlockSize + ct.length)
      buffer).length = ct.length + buffer.length := by
    rw [List.length_append, length_xorStream]
  have hblock : ctx.currentBlock.length = (remainder aesBlockSize ct).length :=
    congrArg List.length h.currentBlock
  have hstands : { ctx with bytesEncrypted := ct.length + buffer.length }.Stands key nonce aad ct :=
    ⟨h.cipher, h.ghash, h.associatedDataBitsLen, h.currentBlock⟩
  simp only [GcmContext.encrypt, hadd, Option.bind_eq_bind, Option.bind_some, guard, if_pos hpass]
  dsimp only [pure]
  by_cases hempty : ctx.currentBlock.isEmpty
  · -- The message stands at the start of a block.
    rw [if_pos hempty]
    have haligned : aesBlockSize ∣ ct.length := by
      rw [List.isEmpty_iff.mp hempty, List.length_nil, length_remainder] at hblock
      exact Nat.dvd_of_mod_eq_zero hblock.symm
    obtain ⟨hout, hbytes, hnext⟩ := hstands.encryptAligned haligned buffer
    exact ⟨_, congrArg some (Prod.ext hout rfl), hnext, hbytes.trans hlength.symm⟩
  · have hsum : checkedAdd (remainder aesBlockSize ct).length buffer.length =
        some ((remainder aesBlockSize ct).length + buffer.length) := checkedAdd_of_lt (by omega)
    rw [if_neg hempty, h.cipher, hblock]
    simp only [hsum, checkedSub_of_le hrem.le, Option.bind_some, Aes256Ctr.applyKeystream]
    by_cases hshort : (remainder aesBlockSize ct).length + buffer.length < aesBlockSize
    · rw [if_pos hshort]
      have hkeep := hstands.keep (xorStream (Aes256Ctr.keystream key nonce)
        (aesBlockSize + ct.length) buffer) (by rwa [length_xorStream]) (ct.length + buffer.length)
      rw [length_xorStream] at hkeep
      exact ⟨_, rfl, hkeep, hlength.symm⟩
    · -- The buffer fills the block that was kept, and goes on behind it.
      rw [if_neg hshort]
      generalize hmissing : aesBlockSize - (remainder aesBlockSize ct).length = missing
      have htake : (buffer.take missing).length = missing := List.length_take_of_le (by omega)
      have hfill := hstands.fill (xorStream (Aes256Ctr.keystream key nonce)
        (aesBlockSize + ct.length) (buffer.take missing)) (by rw [length_xorStream]; omega)
        (ct.length + buffer.length)
      have hfull : aesBlockSize ∣ (ct ++ xorStream (Aes256Ctr.keystream key nonce)
          (aesBlockSize + ct.length) (buffer.take missing)).length := by
        have hmod := Nat.mod_add_div ct.length aesBlockSize
        rw [← length_remainder] at hmod
        refine ⟨ct.length / aesBlockSize + 1, ?_⟩
        rw [List.length_append, length_xorStream, htake, Nat.mul_succ]
        omega
      obtain ⟨hout, hbytes, hnext⟩ := hfill.encryptAligned hfull (buffer.drop missing)
      rw [length_xorStream] at hout hbytes hnext
      have hxor := xorStream_append (Aes256Ctr.keystream key nonce) (aesBlockSize + ct.length)
        (buffer.take missing) (buffer.drop missing)
      rw [List.take_append_drop] at hxor
      rw [List.length_append, length_xorStream, ← Nat.add_assoc] at hout hnext
      rw [List.append_assoc, ← hxor] at hnext
      refine ⟨_, congrArg some (Prod.ext ?_ rfl), hnext, hbytes.trans hlength.symm⟩
      rw [hxor, ← hout]

theorem encryptAll_eq (buffers : List Bytes) :
    ∀ {ctx : GcmContext} {ct : Bytes}, ctx.Encrypted key nonce aad ct →
      ct.length + buffers.flatten.length + aad.length < aes256GcmMaxPlaintextLength →
      ∃ outs ctx', encryptAll buffers ctx = some (outs, ctx') ∧
        outs.map List.length = buffers.map List.length ∧
        outs.flatten = xorStream (Aes256Ctr.keystream key nonce) (aesBlockSize + ct.length)
          buffers.flatten ∧
        ctx'.Encrypted key nonce aad (ct ++ outs.flatten) := by
  induction buffers with
  | nil =>
      intro ctx ct h _
      exact ⟨[], ctx, rfl, rfl, rfl, by rwa [List.flatten_nil, List.append_nil]⟩
  | cons buffer buffers ih =>
      intro ctx ct h hguard
      rw [List.flatten_cons, List.length_append] at hguard
      obtain ⟨ctx₁, hrun, h₁⟩ := h.encrypt buffer (by omega)
      obtain ⟨outs, ctx', hrest, hlens, houts, h'⟩ := ih h₁ (by
        rw [List.length_append, length_xorStream]
        omega)
      rw [List.length_append, length_xorStream, ← Nat.add_assoc] at houts
      refine ⟨xorStream (Aes256Ctr.keystream key nonce) (aesBlockSize + ct.length) buffer :: outs, ctx',
        ?_, ?_, ?_, ?_⟩
      · rw [encryptAll, hrun]
        simp only [Option.bind_eq_bind, Option.bind_some, hrest]
        rfl
      · rw [List.map_cons, List.map_cons, length_xorStream, hlens]
      · rw [List.flatten_cons, List.flatten_cons, houts, xorStream_append]
      · rw [List.flatten_cons, ← List.append_assoc]
        exact h'

omit [Aes256] in
theorem updatePadded_nil (ghash : GHash.State) : updatePadded ghash [] = ghash := by
  rw [updatePadded, paddedBlocks, chunksExact_of_lt aesBlockSize_pos, remainder_of_lt aesBlockSize_pos]
  rfl

omit [Aes256] in
/-- What is left of a text is hashed behind its whole blocks. -/
theorem updatePadded_remainder (ghash : GHash.State) (ct : Bytes) :
    updatePadded (((chunksExact aesBlockSize ct).map toBlock).foldl GHash.update ghash)
      (remainder aesBlockSize ct) = updatePadded ghash ct := by
  have hshort : (remainder aesBlockSize ct).length < aesBlockSize := by
    rw [length_remainder]
    exact Nat.mod_lt _ aesBlockSize_pos
  rw [updatePadded, updatePadded, ← List.foldl_append, paddedBlocks, chunksExact_of_lt hshort,
    remainder_of_lt hshort, List.map_nil, List.nil_append, paddedBlocks]

theorem tagOf_eq (pos : ℕ) (aad ct : Bytes) :
    tagOf ⟨key, nonce, pos⟩ (updatePadded (updatePadded
      (GHash.init (Aes256.encryptBlock key (toBlock []))) aad) ct) (8 * aad.length) (8 * ct.length) =
      gcmTag key nonce aad ct := by
  rw [gcmTag, ghashOf, List.foldl_append, List.foldl_append]
  rfl

theorem Encrypted.intoTag (h : ctx.Encrypted key nonce aad ct)
    (hlen : ct.length < aes256GcmMaxPlaintextLength) :
    ctx.intoTag = some (gcmTag key nonce aad ct) := by
  have hword := mul_aes256GcmMaxPlaintextLength
  rw [GcmContext.intoTag, h.currentBlock, h.ghash, updatePadded_remainder, h.bytesEncrypted,
    checkedMul_of_lt (by omega), h.cipher, h.associatedDataBitsLen, Option.bind_eq_bind,
    Option.bind_some, tagOf_eq]
  rfl

/-- A context that was just made decrypts a ciphertext and computes its tag. -/
theorem Encrypted.decrypt (h : ctx.Encrypted key nonce aad [])
    (hguard : ct.length + aad.length < aes256GcmMaxPlaintextLength) :
    ctx.decrypt ct = some (gcmEncrypt key nonce ct, gcmTag key nonce aad ct) := by
  have hword := mul_aes256GcmMaxPlaintextLength
  have hpass : ct.length + 8 * aad.length / 8 < aes256GcmMaxPlaintextLength := by
    rwa [Nat.mul_div_cancel_left _ (Nat.succ_pos 7)]
  have hghash : ctx.ghash =
      updatePadded (GHash.init (Aes256.encryptBlock key (toBlock []))) aad := by
    rw [h.ghash, chunksExact_of_lt aesBlockSize_pos]
    rfl
  have hsplit := chunksExact_append_remainder aesBlockSize ct
  have hxor := xorStream_append (Aes256Ctr.keystream key nonce) aesBlockSize
    (chunksExact aesBlockSize ct).flatten (remainder aesBlockSize ct)
  rw [hsplit] at hxor
  have hupdate := updatePadded_remainder
    (updatePadded (GHash.init (Aes256.encryptBlock key (toBlock []))) aad) ct
  have hcipher : ctx.cipher = ⟨key, nonce, aesBlockSize⟩ := h.cipher
  have hbits : checkedMul ct.length 8 = some (8 * ct.length) := checkedMul_of_lt (by omega)
  simp only [GcmContext.decrypt, guard, if_pos hpass, hcipher, hghash, decryptChunks_eq,
    Option.bind_eq_bind, hbits, Option.bind_some, h.associatedDataBitsLen, Aes256Ctr.applyKeystream]
  by_cases hempty : (remainder aesBlockSize ct).isEmpty
  · have hnil := List.isEmpty_iff.mp hempty
    rw [hnil, xorStream_nil, List.append_nil] at hxor
    have hhash : ((chunksExact aesBlockSize ct).map toBlock).foldl GHash.update
        (updatePadded (GHash.init (Aes256.encryptBlock key (toBlock []))) aad) =
        updatePadded (updatePadded (GHash.init (Aes256.encryptBlock key (toBlock []))) aad) ct := by
      rw [← hupdate, hnil, updatePadded_nil]
    simp only [if_pos hempty, hhash, tagOf_eq, List.append_nil, ← hxor]
    rfl
  · simp only [if_neg hempty, hupdate, tagOf_eq, ← hxor]
    rfl

theorem decryptUnauthenticatedAll_eq (pieces : List Bytes) :
    ∀ {ctx : GcmContext} {pos : ℕ}, ctx.cipher = ⟨key, nonce, pos⟩ →
      (decryptUnauthenticatedAll pieces ctx).1.flatten =
        xorStream (Aes256Ctr.keystream key nonce) pos pieces.flatten := by
  induction pieces with
  | nil => exact fun _ => rfl
  | cons piece pieces ih =>
      intro ctx pos h
      rw [decryptUnauthenticatedAll]
      simp only [decryptUnauthenticated, Aes256Ctr.applyKeystream, h, List.flatten_cons,
        xorStream_append]
      rw [ih rfl]

/-- A message that is encrypted in any buffers has the ciphertext and the tag of the one-shot
cipher; decrypting gives it back, at once with the same tag or in any pieces without. -/
theorem streaming_eq_oneShot (key : Key) (nonce : Nonce) (aad : Bytes) (buffers : List Bytes)
    (hguard : buffers.flatten.length + aad.length < aes256GcmMaxPlaintextLength) :
    ∃ ctx, new key nonce aad = some ctx ∧
      (∃ outs ctx', encryptAll buffers ctx = some (outs, ctx') ∧
        outs.map List.length = buffers.map List.length ∧
        outs.flatten = gcmEncrypt key nonce buffers.flatten ∧
        ctx'.intoTag = some (gcmTag key nonce aad (gcmEncrypt key nonce buffers.flatten))) ∧
      ctx.decrypt (gcmEncrypt key nonce buffers.flatten) =
        some (buffers.flatten, gcmTag key nonce aad (gcmEncrypt key nonce buffers.flatten)) ∧
      ∀ pieces, pieces.flatten = gcmEncrypt key nonce buffers.flatten →
        (decryptUnauthenticatedAll pieces ctx).1.flatten = buffers.flatten := by
  have hct : (gcmEncrypt key nonce buffers.flatten).length = buffers.flatten.length :=
    length_xorStream _ _ _
  have hinverse : gcmEncrypt key nonce (gcmEncrypt key nonce buffers.flatten) = buffers.flatten :=
    xorStream_xorStream _ _ _
  obtain ⟨ctx, hnew, hctx⟩ := new_encrypted key nonce (show aad.length < _ by omega)
  refine ⟨ctx, hnew, ?_, ?_, ?_⟩
  · obtain ⟨outs, ctx', hrun, hlens, houts, hctx'⟩ := encryptAll_eq buffers hctx (by
      rw [List.length_nil, Nat.zero_add]
      exact hguard)
    refine ⟨outs, ctx', hrun, hlens, houts, ?_⟩
    rw [hctx'.intoTag (by rw [houts, List.nil_append, length_xorStream]; omega), houts]
    rfl
  · rw [hctx.decrypt (by rw [hct]; exact hguard), hinverse]
  · intro pieces hpieces
    rw [decryptUnauthenticatedAll_eq pieces hctx.cipher, hpieces]
    exact hinverse

end GcmContext

/-! ## The cipher of the layers -/

theorem length_gcmTag (key : Key) (nonce : Nonce) (aad ct : Bytes) :
    (gcmTag key nonce aad ct).length = tagLength := by
  rw [gcmTag, length_xorStream, Vector.length_toList]
  rfl

/-- GCM as the layers use it. -/
@[reducible] def gcm : AesGcm where
  keystream key nonce pos := Aes256Ctr.keystream key nonce (aesBlockSize + pos)
  encryptTag key nonce aad ct := arrayOf (gcmTag key nonce aad ct) (length_gcmTag key nonce aad ct)
  decryptTag := gcmTag

theorem gcm_correct : @AesGcm.Correct gcm := fun _ _ _ _ => rfl

/-- A context is the one of the layers that has encrypted the same. -/
theorem GcmContext.Encrypted.refines {ctx : GcmContext} {cipher : AesGcm256}
    (h : ctx.Encrypted cipher.key cipher.nonce cipher.associatedData cipher.encrypted) {buffer : Bytes}
    (hguard : cipher.encrypted.length + buffer.length + cipher.associatedData.length <
      aes256GcmMaxPlaintextLength) :
    ctx.intoTag = some (@AesGcm256.intoTag gcm cipher).toList ∧
    ∃ ctx', ctx.encrypt buffer = some ((@AesGcm256.encrypt gcm cipher buffer).1, ctx') ∧
      ctx'.Encrypted cipher.key cipher.nonce cipher.associatedData
        (@AesGcm256.encrypt gcm cipher buffer).2.encrypted := by
  have hstream : xorStream (Aes256Ctr.keystream cipher.key cipher.nonce)
      (aesBlockSize + cipher.encrypted.length) buffer =
      (@AesGcm256.encrypt gcm cipher buffer).1 := by
    simp only [AesGcm256.encrypt, applyKeystream, AesGcm.keystream, xorStream, Nat.add_assoc]
  refine ⟨h.intoTag (by omega), ?_⟩
  have hencrypt := h.encrypt buffer hguard
  rw [hstream] at hencrypt
  exact hencrypt

end Context

namespace XorHash

/-- A cipher that keeps blocks as they are. -/
scoped instance aes : Aes256 where
  encryptBlock _ block := block

scoped instance ghash : GHash where
  State := CipherBlock
  init block := block
  update state block := Vector.ofFn fun i => state[i] ^^^ block[i]
  finalize state := state

/-- A message of 19 bytes in three buffers, one of them empty. -/
theorem streaming_eq_oneShot_three :
    ∃ ctx outs ctx' tag,
      GcmContext.new (Vector.replicate _ 1) (Vector.replicate _ 2) [9, 9] = some ctx ∧
      GcmContext.encryptAll [[1, 2, 3], [], List.replicate 16 7] ctx = some (outs, ctx') ∧
      outs.map List.length = [3, 0, 16] ∧ ctx'.intoTag = some tag ∧
      ctx.decrypt outs.flatten = some ([1, 2, 3] ++ List.replicate 16 7, tag) := by
  obtain ⟨ctx, hnew, ⟨outs, ctx', hrun, hlens, houts, htag⟩, hdecrypt, -⟩ :=
    GcmContext.streaming_eq_oneShot (Vector.replicate _ 1) (Vector.replicate _ 2) [9, 9]
      [[1, 2, 3], [], List.replicate 16 7] (by decide)
  exact ⟨ctx, outs, ctx', _, hnew, hrun, hlens, htag, by rw [houts]; exact hdecrypt⟩

end XorHash

end Mla
