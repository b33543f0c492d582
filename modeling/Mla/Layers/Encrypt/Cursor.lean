import Mla.Layers.Encrypt.Normal
import Mla.Layers.Encrypt.Written

/-!
# The encryption reader as a cursor

On the stream of the writer, the reader stands in an open chunk: `Stands s p` names the chunk
and the place in it. Reads and seeks keep this, up to the end of the plaintext when the last
chunk is a short one.

When the last chunk is full, a read at its end, or a seek there, takes up the slot that
follows, which holds the end of the stream and no chunk, and leaves it in the cache as if it
were plaintext.
-/

namespace Mla

open Io
open InternalEncryptionConfig (chunkHead)

/-! ## What an honest stream says of itself -/

section Honest

variable [AesGcm] {config : InternalEncryptionConfig} {P : Bytes}

omit [AesGcm] in
/-- The size that `k` full slots and a last one of `m` bytes of plaintext stand for. -/
theorem plaintextSize_of_rest {n k m : ℕ} (hn : n - 58 = 131104 * k + (m + 16))
    (hm : m ≤ 131072) (hbound : 131072 * k + m + 16 < u64Size) :
    InternalEncryptionLayerReader.plaintextSize n = some (131072 * k + m) := by
  have hhead : (checkedAdd endOfEncryptedInnerLayerMagic.length finalInfoSize).bind
      (checkedAdd · chunkHeadSize) = some 58 := by
    rw [length_endOfEncryptedInnerLayerMagic, finalInfoSize_eq, chunkHeadSize_eq,
      checkedAdd_of_lt (by decide), Option.bind_some, checkedAdd_of_lt (by decide)]
  have hdiv : (n - 58) / m0ChunkSize = k := by
    rw [hn, m0ChunkSize_eq]
    omega
  have hmod : (n - 58) % m0ChunkSize = m + 16 := by
    rw [hn, m0ChunkSize_eq]
    omega
  have hmul : checkedMul k normalChunkPtSize = some (131072 * k) := by
    rw [normalChunkPtSize_eq]
    exact checkedMul_of_lt (by omega)
  have hadd : checkedAdd (131072 * k) (m + 16) = some (131072 * k + m + 16) := by
    rw [checkedAdd_of_lt (by omega), Nat.add_assoc]
  have hsub : checkedSub (131072 * k + m + 16) tagLength = some (131072 * k + m) := by
    rw [tagLength_eq, checkedSub_of_le (by omega), Nat.add_sub_cancel]
  rw [InternalEncryptionLayerReader.plaintextSize]
  simp only [hhead, hdiv, hmod, Option.bind_eq_bind, Option.bind_some, hmul, if_neg
    (Nat.succ_ne_zero (m + 15)), hadd, hsub]

/-- The size is computed right. -/
theorem plaintextSize_encBody (hS : (config.encBody P).length < i64Size) :
    InternalEncryptionLayerReader.plaintextSize (config.encBody P).length = some P.length := by
  obtain ⟨hfirst, hlast, -⟩ := lastChunk_spec P
  rw [config.length_encBody, i64Size_eq] at hS
  rw [config.length_encBody, plaintextSize_of_rest (k := lastChunk P)
    (m := P.length - 131072 * lastChunk P) (by omega) (by omega) (by rw [u64Size_eq]; omega)]
  congr 1
  omega

theorem drop_encBody_final (P : Bytes) :
    (config.encBody P).drop ((config.encBody P).length - 34) =
      InternalEncryptionConfig.sealWith (config.finalCipher (chunkCount P)) finalBlockContent ++
        endOfEncryptedInnerLayerMagic := by
  have htail : config.encTail P = finalBlockMagic ++
      (InternalEncryptionConfig.sealWith (config.finalCipher (chunkCount P)) finalBlockContent ++
        endOfEncryptedInnerLayerMagic) := by
    rw [InternalEncryptionConfig.encTail, InternalEncryptionConfig.finalBlock, List.append_assoc]
  rw [InternalEncryptionConfig.encBody, htail, ← List.append_assoc]
  have hlen : (InternalEncryptionConfig.sealWith (config.finalCipher (chunkCount P))
      finalBlockContent ++ endOfEncryptedInnerLayerMagic).length = 34 := by
    rw [List.length_append, InternalEncryptionConfig.length_sealWith, length_finalBlockContent,
      length_endOfEncryptedInnerLayerMagic]
  rw [List.length_append, hlen, Nat.add_sub_cancel, List.drop_left]

/-- The final block is found to be the right one. -/
theorem finalBlockOpens_encBody (hcorrect : AesGcm.Correct) :
    InternalEncryptionLayerReader.finalBlockOpens config.key config.nonce
      (lastDataChunkNumber P.length + 2)
      ((config.encBody P).drop ((config.encBody P).length - 34)) = true := by
  have hct : ((config.finalCipher (chunkCount P)).encrypt finalBlockContent).1.length = 10 := by
    simp [AesGcm256.encrypt]
  have hnumber : lastDataChunkNumber P.length + 2 = chunkCount P + 1 := by
    rw [lastDataChunkNumber_length, chunkCount_eq]
  have hfront : ((config.encBody P).drop ((config.encBody P).length - 34)).take 10 =
      ((config.finalCipher (chunkCount P)).encrypt finalBlockContent).1 := by
    rw [drop_encBody_final, InternalEncryptionConfig.sealWith, List.append_assoc, ← hct,
      List.take_left]
  have htag : slice ((config.encBody P).drop ((config.encBody P).length - 34)) 10 16 =
      ((config.finalCipher (chunkCount P)).encrypt finalBlockContent).2.intoTag.toList := by
    have h := slice_append_mid ((config.finalCipher (chunkCount P)).encrypt finalBlockContent).1
      ((config.finalCipher (chunkCount P)).encrypt finalBlockContent).2.intoTag.toList
      endOfEncryptedInnerLayerMagic
    rw [hct, Vector.length_toList] at h
    rw [drop_encBody_final, InternalEncryptionConfig.sealWith]
    exact h
  have hcipher : ∀ block : Bytes, InternalEncryptionLayerReader.finalBlockOpens config.key
      config.nonce (chunkCount P + 1) block =
      (decide (AesGcm.decryptTag config.key (computeNonce config.nonce (chunkCount P + 1))
          finalAssociatedData (block.take 10) = slice block 10 16) &&
        decide (applyKeystream config.key (computeNonce config.nonce (chunkCount P + 1)) 0
          (block.take 10) = finalBlockContent)) := fun _ => rfl
  rw [hnumber, hcipher, hfront, htag, Bool.and_eq_true, decide_eq_true_iff, decide_eq_true_iff]
  constructor
  · exact hcorrect _ _ _ _
  · exact applyKeystream_applyKeystream _ _ _ _

end Honest

namespace InternalEncryptionLayerReader

section Cursor

variable {σ : Type} [Patience] [AesGcm] [Read Error σ] [Seek Error σ] {P : Bytes}
  {At : σ → ℕ → Prop} {Live : σ → Prop} {config : InternalEncryptionConfig}
  {s s₂ : InternalEncryptionLayerReader σ} {c x p n t : ℕ}

/-- Chunk `c` is open, and the reader stands at byte `x` of it. -/
structure In (config : InternalEncryptionConfig) (P : Bytes) (At : σ → ℕ → Prop)
    (s₂ : InternalEncryptionLayerReader σ) (c x : ℕ) : Prop where
  behind : Behind (config.encBody P) At config none P.length s₂ (c + 1)
  position : s₂.currentPositionInThisLayer = 131072 * c
  chunk : c ≤ lastChunk P
  place : x ≤ (chunkData P c).length

/-- The reader stands at position `p` of the plaintext. -/
def Stands (config : InternalEncryptionConfig) (P : Bytes) (At : σ → ℕ → Prop)
    (s : InternalEncryptionLayerReader σ) (p : ℕ) : Prop :=
  ∃ s₂ c x, In config P At s₂ c x ∧ p = 131072 * c + x ∧
    s = (s₂.holding (chunkHead c ++ chunkData P c)).advance x

omit [Patience] [Read Error σ] [Seek Error σ] in
theorem In.le (h : In config P At s₂ c x) : 131072 * c + x ≤ P.length := by
  have hplace := h.place
  rw [chunkData, normalChunkPtSize_eq, length_slice] at hplace
  have hchunk := h.chunk
  obtain ⟨hfirst, -, -⟩ := lastChunk_spec P
  have hstart : 131072 * c ≤ 131072 * lastChunk P := Nat.mul_le_mul_left _ hchunk
  omega

omit [Patience] [AesGcm] [Read Error σ] [Seek Error σ] in
theorem position_stands (s₂ : InternalEncryptionLayerReader σ) (cache : Bytes) (x : ℕ) :
    ((s₂.holding cache).advance x).currentPositionInThisLayer =
      s₂.currentPositionInThisLayer + x := (rfl)

omit [Patience] [AesGcm] [Read Error σ] [Seek Error σ] in
theorem chunkCache_stands (s₂ : InternalEncryptionLayerReader σ) (cache : Bytes) (x : ℕ) :
    ((s₂.holding cache).advance x).chunkCache = ⟨cache, 16 + x⟩ := (rfl)

omit [Seek Error σ] in
/-- A read in a chunk that is not used up returns what is left of it, or a part. -/
theorem In.read (hP : P.length < u64Size) (h : In config P At s₂ c x) (hx : x < 131072) (n : ℕ) :
    ∃ k, k = min n ((chunkData P c).length - x) ∧ In config P At s₂ c (x + k) ∧
      Read.read n ((s₂.holding (chunkHead c ++ chunkData P c)).advance x) =
        .ok (slice P (131072 * c + x) k)
          ((s₂.holding (chunkHead c ++ chunkData P c)).advance (x + k)) := by
  have hle := length_chunkData_le P c
  have hplace := h.place
  refine ⟨_, rfl, ⟨h.behind, h.position, h.chunk, by omega⟩, ?_⟩
  have hin : In config P At s₂ c (x + min n ((chunkData P c).length - x)) :=
    ⟨h.behind, h.position, h.chunk, by omega⟩
  have hlen : (chunkHead c ++ chunkData P c).length = 16 + (chunkData P c).length := by
    rw [List.length_append, InternalEncryptionConfig.length_chunkHead]
  have hbytes : slice (chunkHead c ++ chunkData P c) (16 + x)
      (min n ((chunkData P c).length - x)) =
        slice P (131072 * c + x) (min n ((chunkData P c).length - x)) := by
    rw [slice_append_right (by rw [InternalEncryptionConfig.length_chunkHead]; omega),
      InternalEncryptionConfig.length_chunkHead, Nat.add_sub_cancel_left]
    have hdata : chunkData P c = slice P (131072 * c) 131072 := by
      rw [chunkData, normalChunkPtSize_eq]
    rw [hdata, slice_slice_of_le]
    rw [← hdata]
    omega
  rw [read_of_lt (k := min n ((chunkData P c).length - x)), chunkCache_stands, advance_advance,
    hbytes]
  · rw [chunkCache_stands]
    simp only [hlen]
    omega
  · rw [chunkCache_stands]
    simp only
    omega
  · rw [position_stands, h.position]
    have := hin.le
    omega

omit [Seek Error σ] in
/-- A read at the end of a full chunk goes on in the next one. -/
theorem In.read_next (hcorrect : AesGcm.Correct) (hS : (config.encBody P).length < i64Size)
    (hdelivers : Delivers True (config.encBody P) At) (hne : P ≠ [])
    (h : In config P At s₂ c 131072) (hc : c < lastChunk P) (n : ℕ) :
    ∃ s₃, In config P At s₃ (c + 1) 0 ∧
      Read.read n ((s₂.holding (chunkHead c ++ chunkData P c)).advance 131072) =
        Read.read n (s₃.holding (chunkHead (c + 1) ++ chunkData P (c + 1))) := by
  have hbehind : Behind (config.encBody P) At config none P.length
      ((s₂.holding (chunkHead c ++ chunkData P c)).advance 131072) (c + 1) :=
    h.behind.holding.advance
  obtain ⟨bytes, inner, hload, hnext, hopened⟩ := hbehind.load hdelivers
  have hposition : ((s₂.holding (chunkHead c ++ chunkData P c)).advance
      131072).currentPositionInThisLayer = 131072 * (c + 1) := by
    rw [position_stands, h.position, Nat.mul_succ]
  have hslot := slotOpened_honest hcorrect hS hne (show c + 1 ≤ lastChunk P by omega)
  rw [hposition] at hopened
  have hopen := hopened.trans hslot
  refine ⟨_, ⟨hnext, ?_, hc, Nat.zero_le _⟩, read_of_opened ?_ hload hopen⟩
  · rw [position_loaded, hposition]
  · rw [chunkCache_stands]

omit [Seek Error σ] in
/-- Reads follow the plaintext, as long as they stay away from the end of a full last chunk. -/
theorem Stands.read (hcorrect : AesGcm.Correct) (hS : (config.encBody P).length < i64Size)
    (hdelivers : Delivers True (config.encBody P) At) (hne : P ≠ [])
    (h : Stands config P At s p) (hp : p < P.length ∨ ¬ 131072 ∣ P.length) (n : ℕ) :
    ∃ k s', Read.read n s = .ok (slice P p k) s' ∧ k ≤ n ∧ (k = 0 → n = 0 ∨ p = P.length) ∧
      p + k ≤ P.length ∧ Stands config P At s' (p + k) := by
  obtain ⟨s₂, c, x, hin, rfl, rfl⟩ := h
  obtain ⟨hfirst, hlast, hinside⟩ := lastChunk_spec P
  have hinside := hinside hne
  have hbound : P.length < u64Size := by
    rw [config.length_encBody, i64Size_eq] at hS
    rw [u64Size_eq]
    omega
  have hfinish : ∀ {s₂ c x}, In config P At s₂ c x → x < 131072 →
      ∃ k s', Read.read n ((s₂.holding (chunkHead c ++ chunkData P c)).advance x) =
          .ok (slice P (131072 * c + x) k) s' ∧ k ≤ n ∧
        (k = 0 → n = 0 ∨ 131072 * c + x = P.length) ∧ 131072 * c + x + k ≤ P.length ∧
        Stands config P At s' (131072 * c + x + k) := by
    intro s₂ c x hin hx
    obtain ⟨k, hk, hin', hread⟩ := hin.read hbound hx n
    have hle := hin'.le
    refine ⟨k, _, hread, by omega, fun hzero => ?_, by omega, s₂, c, x + k, hin', by omega, rfl⟩
    rcases Nat.lt_or_eq_of_le hin.chunk with hlt | rfl
    · have hdata := length_chunkData_of_lt hlt
      omega
    · have hdata := length_chunkData_last P
      have hplace := hin.place
      omega
  have hplace := hin.place
  have hdata := length_chunkData_le P c
  by_cases hx : x < 131072
  · exact hfinish hin hx
  · obtain rfl : x = 131072 := by omega
    have hc : c < lastChunk P := by
      rcases Nat.lt_or_eq_of_le hin.chunk with hlt | rfl
      · exact hlt
      · have hlen := length_chunkData_last P
        rcases hp with hp | hp
        · omega
        · refine absurd ⟨lastChunk P + 1, ?_⟩ hp
          omega
    obtain ⟨s₃, hin₃, hread⟩ := hin.read_next hcorrect hS hdelivers hne hc n
    obtain ⟨k, s', hrest, hkn, hzero, hle, hstands⟩ := hfinish hin₃ (by decide)
    have hp' : 131072 * (c + 1) + 0 = 131072 * c + 131072 := by omega
    rw [hp'] at hrest hzero hle hstands
    rw [advance_zero] at hrest
    exact ⟨k, s', by rw [hread, hrest], hkn, hzero, hle, hstands⟩

/-- A seek within the plaintext goes there. -/
theorem Ready.seekStart_stands (hcorrect : AesGcm.Correct)
    (hS : (config.encBody P).length < i64Size)
    (hcursor : IsCursor True (config.encBody P) At Live) (hne : P ≠ [])
    (h : Ready Live config P.length s) (ht : Target (¬ 131072 ∣ P.length) P t) :
    ∃ s', InternalEncryptionLayerReader.seekStart t s = .ok t s' ∧ Stands config P At s' t := by
  obtain ⟨hfirst, hlast, hinside⟩ := lastChunk_spec P
  have hinside := hinside hne
  have hlen := config.length_encBody P
  have hchunk : t / 131072 ≤ lastChunk P ∧ t % 131072 ≤ (chunkData P (t / 131072)).length := by
    have hle := ht.le
    have hdata : (chunkData P (t / 131072)).length =
        min 131072 (P.length - 131072 * (t / 131072)) := by
      rw [chunkData, normalChunkPtSize_eq, length_slice]
    rw [hdata]
    rcases ht with hlt | ⟨hdvd, rfl⟩
    · omega
    · omega
  obtain ⟨s₂, hbehind, hposition, hok, -, -⟩ := h.seekStart hcursor hS
    (show t = 131072 * (t / 131072) + t % 131072 by omega) (Nat.mod_lt _ (by decide)) (by omega)
  have hslot := slotOpened_honest hcorrect hS hne hchunk.1
  exact ⟨_, hok _ hslot, s₂, t / 131072, t % 131072,
    ⟨hbehind, hposition, hchunk.1, hchunk.2⟩, by omega, rfl⟩

omit [Patience] [AesGcm] [Read Error σ] [Seek Error σ] in
theorem askedPosition_fromEnd (hbound : s.allPlaintextSize < i64Size)
    (ht : t ≤ s.allPlaintextSize) :
    s.askedPosition (.fromEnd (t - s.allPlaintextSize)) = .ok t := by
  have hsum : i64CheckedAdd (s.allPlaintextSize : ℤ) (t - s.allPlaintextSize) = some (t : ℤ) :=
    i64CheckedAdd_of_eq (by omega) (by omega)
  rw [askedPosition, if_neg (by omega), toI64_of_lt hbound]
  simp only [orError, bind, Except.bind, hsum, toU64_natCast]

omit [Patience] [AesGcm] [Read Error σ] [Seek Error σ] in
theorem askedPosition_current (hbound : s.currentPositionInThisLayer < i64Size)
    (ht : t < i64Size) :
    s.askedPosition (.current (t - s.currentPositionInThisLayer)) = .ok t := by
  have hsum : i64CheckedAdd (s.currentPositionInThisLayer : ℤ)
      (t - s.currentPositionInThisLayer) = some (t : ℤ) :=
    i64CheckedAdd_of_eq (by omega) ht
  rw [askedPosition, toI64_of_lt hbound]
  simp only [orError, bind, Except.bind, hsum, toU64_natCast]

theorem seek_of_askedPosition {w : SeekFrom} (hw : w ≠ .current 0)
    (hasked : s.askedPosition w = .ok t) :
    Seek.seek w s = InternalEncryptionLayerReader.seekStart t s := by
  change InternalEncryptionLayerReader.seek w s = _
  rw [seek, if_neg hw, hasked]

/-- The reader stands for the plaintext; for its end only when the last chunk is a short one. -/
theorem isCursor (hcorrect : AesGcm.Correct) (hS : (config.encBody P).length < i64Size)
    (hcursor : IsCursor True (config.encBody P) At Live) (hne : P ≠ []) :
    IsCursor (¬ 131072 ∣ P.length) P (Stands config P At) (Ready Live config P.length) where
  le := by
    rintro s p ⟨s₂, c, x, hin, rfl, -⟩
    exact hin.le
  progress {s p n} h hp hn := by
    obtain ⟨k, s', hread, hk, hzero, hle, hstands⟩ :=
      h.read hcorrect hS hcursor.toDelivers hne (Or.inl hp) n
    exact ⟨k, s', hread, by omega, hk, hle, hstands⟩
  stop {s p n} hdvd h hstop := by
    obtain ⟨k, s', hread, hk, hzero, hle, hstands⟩ :=
      h.read hcorrect hS hcursor.toDelivers hne (Or.inr hdvd) n
    obtain rfl : k = 0 := by omega
    exact ⟨s', by rwa [slice_zero_length] at hread, hstands⟩
  live := by
    rintro s p ⟨s₂, c, x, hin, -, rfl⟩
    exact (hin.behind.holding.advance).ready hcursor
  seekStart h ht := by
    rw [seek_of_askedPosition (t := _) (by simp) rfl]
    exact h.seekStart_stands hcorrect hS hcursor hne ht
  seekEnd {s t} h ht := by
    have hbound : P.length < i64Size := by
      rw [config.length_encBody] at hS
      omega
    have hasked := askedPosition_fromEnd (t := t) (by rw [h.all_eq]; exact hbound)
      (by rw [h.all_eq]; exact ht.le)
    rw [h.all_eq] at hasked
    rw [seek_of_askedPosition (by simp) hasked]
    exact h.seekStart_stands hcorrect hS hcursor hne ht
  seekCurrent {s p t} h ht := by
    have hstands := h
    obtain ⟨s₂, c, x, hin, rfl, rfl⟩ := h
    have hle := hin.le
    have hbound : P.length < i64Size := by
      rw [config.length_encBody] at hS
      omega
    have hposition : ((s₂.holding (chunkHead c ++ chunkData P c)).advance
        x).currentPositionInThisLayer = 131072 * c + x := by
      rw [position_stands, hin.position]
    by_cases hsame : t = 131072 * c + x
    · subst hsame
      refine ⟨_, ?_, hstands⟩
      rw [Int.sub_self]
      change InternalEncryptionLayerReader.seek _ _ = _
      rw [seek, if_pos rfl, hposition]
    · have ht' := ht.le
      have hasked := askedPosition_current (t := t) (by rw [hposition]; omega) (by omega)
      rw [hposition] at hasked
      rw [seek_of_askedPosition _ hasked]
      · exact ((hin.behind.holding.advance).ready hcursor).seekStart_stands hcorrect hS hcursor hne
          ht
      · intro hzero
        have := SeekFrom.current.inj hzero
        omega

omit [Seek Error σ] in
theorem read_one_holding {cache : Bytes} (hcache : 16 < cache.length)
    (hposition : s.currentPositionInThisLayer + 1 < u64Size) :
    Read.read 1 (s.holding cache) = .ok (slice cache 16 1) ((s.holding cache).advance 1) := by
  rw [read_of_lt (k := 1), data_holding, pos_holding]
  · rw [data_holding, pos_holding]
    omega
  · rw [pos_holding]
    decide
  · rwa [position_holding]

/-- Behind a last chunk that is full lies the end of the stream, and a seek there makes it
readable. -/
theorem Ready.not_followsCursor (hcursor : IsCursor True (config.encBody P) At Live)
    (hS : (config.encBody P).length < i64Size) (h : Ready Live config P.length s)
    (hdvd : 131072 ∣ P.length) :
    ¬ FollowsCursor P p s [.seek (.start P.length), .read 1] := by
  obtain ⟨c, hc⟩ := hdvd
  have hlen := config.length_encBody P
  obtain ⟨hfirst, hlast, -⟩ := lastChunk_spec P
  have hslot : slotOpened none config P.length (config.encBody P) c = .nothing := by
    rw [i64Size_eq] at hS
    exact slotOpened_behind (by rw [u64Size_eq]; omega) (Nat.le_of_eq hc)
  obtain ⟨s₂, hbehind, hposition, -, hnothing, -⟩ := h.seekStart hcursor hS
    (show P.length = 131072 * c + 0 by omega) (by decide) (by omega)
  have hseek : Seek.seek (.start P.length) s = .ok P.length
      ((s₂.holding (slice (config.encBody P) (131104 * c) 131104)).advance 0) := by
    rw [seek_of_askedPosition (t := P.length) (by simp) rfl]
    exact hnothing hslot
  intro hfollows
  obtain ⟨s₃, hseek', k, s₄, hread, hk, hle, -, -⟩ := hfollows P.length rfl (Nat.le_refl _)
  rw [hseek] at hseek'
  obtain ⟨-, rfl⟩ := EStateM.Result.ok.inj hseek'
  have hroom : 16 + 1 ≤ (slice (config.encBody P) (131104 * c) 131104).length := by
    rw [length_slice]
    omega
  have hraw := read_one_holding (s := s₂) hroom
    (by rw [hposition, u64Size_eq]; rw [i64Size_eq] at hS; omega)
  rw [advance_zero, hraw] at hread
  have hbytes := congrArg List.length (EStateM.Result.ok.inj hread).1
  rw [length_slice_of_le hroom, slice_eq_nil_of_le (Nat.le_refl _)] at hbytes
  cases hbytes

/-- An initialised reader stands at the start of the plaintext, if there is one. -/
theorem initializeLayer_stands (hcorrect : AesGcm.Correct)
    (hS : (config.encBody P).length < i64Size)
    (hcursor : IsCursor True (config.encBody P) At Live) {inner : σ} (hinner : At inner 0) :
    ∃ s s₀, new inner (some (config.key, config.nonce)) none = .ok s ∧
      InternalEncryptionLayerReader.initializeLayer s = .ok () s₀ ∧
      Ready Live config P.length s₀ ∧ (P ≠ [] → Stands config P At s₀ 0) := by
  obtain ⟨s, hnew, hready⟩ := new_ready config hcursor.toDelivers hcursor.live hinner
  have hlen := config.length_encBody P
  obtain ⟨s₂, hbehind, hposition, hchunk, hnothing, -⟩ := hready.initializeLayer_slot hcursor hS
    (plaintextSize_encBody hS) (by omega) (finalBlockOpens_encBody hcorrect)
  by_cases hne : P = []
  · have hslot : slotOpened none config P.length (config.encBody P) 0 = .nothing := by
      refine slotOpened_behind ?_ ?_
      · rw [hne]
        decide
      · rw [hne]
        exact Nat.zero_le _
    exact ⟨s, _, hnew, hnothing hslot, hbehind.holding.ready hcursor, absurd hne⟩
  · have hslot := slotOpened_honest hcorrect hS hne (Nat.zero_le _)
    exact ⟨s, _, hnew, hchunk _ hslot, hbehind.holding.ready hcursor, fun _ =>
      ⟨s₂, 0, 0, ⟨hbehind, hposition, Nat.zero_le _, Nat.zero_le _⟩, rfl, rfl⟩⟩

end Cursor

/-! ## The reader and the writer -/

section Produced

variable {σ : Type} [Patience] [AesGcm] [Hkdf] [Kem] {P S : Bytes}
  {At : σ → ℕ → Prop} {Live : σ → Prop} {config : InternalEncryptionConfig}

/-- `S` is what the layer writes for `P` between its header and its tail. -/
def Produced (config : InternalEncryptionConfig) (P S : Bytes) : Prop :=
  ∃ (encryptionConfig : EncryptionConfig) (persistentConfig : EncryptionPersistentConfig)
    (s s' : EncryptionLayerWriter (RawLayerWriter (VecWriter Error))) (w : VecWriter Error),
    encryptionConfig.toPersistent = .ok (persistentConfig, config) ∧
    EncryptionLayerWriter.new ⟨⟨[]⟩⟩ encryptionConfig = .ok s ∧
    EncryptionLayerWriter.Written s P s' ∧ LayerWriter.finalize s' = .ok w ∧
    w.data = EncryptionLayerWriter.header persistentConfig ++ S ++ emptyTailOptsSerialization

theorem Produced.eq_encBody (h : Produced config P S) : S = config.encBody P := by
  obtain ⟨encryptionConfig, persistentConfig, s, s', w, hconfig, hnew, hwritten, hfinalize, hdata⟩ :=
    h
  have happ : Appends fun (s : RawLayerWriter (VecWriter Error)) acc => s.inner.Got acc :=
    RawLayerWriter.appends VecWriter.appends
  have hinner : (⟨⟨[]⟩⟩ : RawLayerWriter (VecWriter Error)).inner.Got [] := rfl
  have hkeeps := hwritten.keeps happ (EncryptionLayerWriter.keeps_new happ hinner hconfig hnew)
  rw [EncryptionLayerWriter.finalize_eq] at hfinalize
  cases hrun : InternalEncryptionLayerWriter.finalizeLayer s' with
  | error e s'' =>
      simp only [hrun] at hfinalize
      cases hfinalize
  | ok u s'' =>
      simp only [hrun] at hfinalize
      obtain rfl : s''.inner.inner = w := Except.ok.inj hfinalize
      have hgot := InternalEncryptionLayerWriter.Opened.finalizeLayer_ok happ hkeeps hrun
      rw [InternalEncryptionLayerWriter.endOf_lastChunk, InternalEncryptionConfig.encStream,
        ← List.append_assoc] at hgot
      have hsame := hdata.symm.trans hgot
      rw [List.nil_append] at hsame
      exact List.append_cancel_left (List.append_cancel_right hsame)

theorem produced_encBody {encryptionConfig : EncryptionConfig}
    {persistentConfig : EncryptionPersistentConfig}
    (hconfig : encryptionConfig.toPersistent = .ok (persistentConfig, config))
    (hlen : (EncryptionLayerWriter.header persistentConfig).length + P.length < i64Size) :
    Produced config P (config.encBody P) := by
  rw [i64Size_eq] at hlen
  have happ : Appends fun (s : RawLayerWriter (VecWriter Error)) acc => s.inner.Got acc :=
    RawLayerWriter.appends VecWriter.appends
  have haccepts : Accepts ((EncryptionLayerWriter.header persistentConfig).length + 2 * P.length +
      131204) fun (s : RawLayerWriter (VecWriter Error)) acc => s.inner.Got acc :=
    RawLayerWriter.accepts (VecWriter.accepts _)
  have hinner : (⟨⟨[]⟩⟩ : RawLayerWriter (VecWriter Error)).inner.Got [] := rfl
  obtain ⟨s, hnew⟩ := EncryptionLayerWriter.new_accept happ haccepts hinner hconfig
    (by rw [List.length_nil]; omega) (by rw [u64Size_eq]; omega)
  have hkeeps := EncryptionLayerWriter.keeps_new happ hinner hconfig hnew
  obtain ⟨s', hwritten⟩ := EncryptionLayerWriter.Written.exists happ
    (InternalEncryptionLayerWriter.accepts happ haccepts (n := P.length)
      (by rw [i64Size_eq]; omega) (by rw [List.nil_append]; omega)) hkeeps P (Nat.le_refl _)
  have hkeeps' := hwritten.keeps happ hkeeps
  obtain ⟨hfirst, -, -⟩ := lastChunk_spec P
  obtain ⟨s'', hrun⟩ := InternalEncryptionLayerWriter.Opened.finalizeLayer_accept happ haccepts
    hkeeps' (by rw [u64Size_eq]; omega) (by rw [List.nil_append]; omega)
  have hgot := InternalEncryptionLayerWriter.Opened.finalizeLayer_ok happ hkeeps' hrun
  rw [InternalEncryptionLayerWriter.endOf_lastChunk, InternalEncryptionConfig.encStream,
    ← List.append_assoc, List.nil_append] at hgot
  refine ⟨encryptionConfig, persistentConfig, s, s', s''.inner.inner, hconfig, hnew, hwritten,
    ?_, hgot⟩
  rw [EncryptionLayerWriter.finalize_eq, hrun]
  rfl

/-- Opened on what the writer produced, the reader is a cursor over the plaintext, if and only if
the last chunk is a short one. -/
theorem followsCursor_iff [Read Error σ] [Seek Error σ] (hcorrect : AesGcm.Correct)
    (hproduced : Produced config P S) (hS : S.length < i64Size)
    (hcursor : IsCursor True S At Live) {inner : σ} (hinner : At inner 0) :
    ∃ s s₀, new inner (some (config.key, config.nonce)) none = .ok s ∧
      InternalEncryptionLayerReader.initializeLayer s = .ok () s₀ ∧
      ((∀ calls, FollowsCursor P 0 s₀ calls) ↔ ¬ 131072 ∣ P.length) := by
  obtain rfl := hproduced.eq_encBody
  obtain ⟨s, s₀, hnew, hinit, hready, hstands⟩ :=
    initializeLayer_stands hcorrect hS hcursor hinner
  refine ⟨s, s₀, hnew, hinit, ?_, ?_⟩
  · intro hfollows hdvd
    exact hready.not_followsCursor hcursor hS hdvd (hfollows _)
  · intro hdvd calls
    have hne : P ≠ [] := by
      rintro rfl
      exact hdvd (Nat.dvd_zero _)
    have hopen := isCursor hcorrect hS hcursor hne
    rw [eq_true hdvd] at hopen
    exact hopen.followsCursor calls (hstands hne)

end Produced

section Example

open CountingCipher LabelKem

/-- A stream of one byte of plaintext, written to memory and read from there. -/
theorem followsCursor_iff_label :
    ∃ persistentConfig config S s s₀,
      labelConfig.toPersistent = .ok (persistentConfig, config) ∧ Produced config [5] S ∧
      new (⟨S, 0⟩ : Cursor Error) (some (config.key, config.nonce)) none = .ok s ∧
      InternalEncryptionLayerReader.initializeLayer s = .ok () s₀ ∧
      ((∀ calls, FollowsCursor [5] 0 s₀ calls) ↔ ¬ 131072 ∣ [(5 : UInt8)].length) := by
  obtain ⟨⟨persistentConfig, config⟩, hconfig, hone⟩ :
      ∃ r, labelConfig.toPersistent = .ok r ∧
        r.1.hybridMultiRecipientEncapsulateKey.recipients.length = 1 := ⟨_, rfl, rfl⟩
  have hproduced : Produced config [5] (config.encBody [5]) :=
    produced_encBody hconfig (by rw [EncryptionLayerWriter.length_header, hone]; decide)
  have hS : (config.encBody [5]).length < i64Size := by
    rw [config.length_encBody]
    decide
  have hinner : Cursor.At (config.encBody [5]) (⟨config.encBody [5], 0⟩ : Cursor Error) 0 ∧
      0 ≤ (config.encBody [5]).length := ⟨⟨rfl, rfl⟩, Nat.zero_le _⟩
  obtain ⟨s, s₀, hnew, hinit, hiff⟩ := followsCursor_iff correct hproduced hS
    (Cursor.isCursor (by rw [config.length_encBody]; decide)) hinner
  exact ⟨_, _, _, s, s₀, hconfig, hproduced, hnew, hinit, hiff⟩

/-- What was written for the empty plaintext is read back as 58 bytes behind the first head. -/
theorem empty_not_followsCursor :
    AesGcm.Correct ∧ ∃ persistentConfig config S s s₀,
      labelConfig.toPersistent = .ok (persistentConfig, config) ∧ Produced config [] S ∧
      new (⟨S, 0⟩ : Cursor Error) (some (config.key, config.nonce)) none = .ok s ∧
      InternalEncryptionLayerReader.initializeLayer s = .ok () s₀ ∧
      ¬ ∀ calls, FollowsCursor [] 0 s₀ calls := by
  obtain ⟨⟨persistentConfig, config⟩, hconfig, hone⟩ :
      ∃ r, labelConfig.toPersistent = .ok r ∧
        r.1.hybridMultiRecipientEncapsulateKey.recipients.length = 1 := ⟨_, rfl, rfl⟩
  have hproduced : Produced config [] (config.encBody []) :=
    produced_encBody hconfig (by rw [EncryptionLayerWriter.length_header, hone]; decide)
  have hS : (config.encBody []).length < i64Size := by
    rw [config.length_encBody]
    decide
  have hinner : Cursor.At (config.encBody []) (⟨config.encBody [], 0⟩ : Cursor Error) 0 ∧
      0 ≤ (config.encBody []).length := ⟨⟨rfl, rfl⟩, Nat.zero_le _⟩
  have hcursor := Cursor.isCursor (ε := Error) (D := config.encBody [])
    (by rw [config.length_encBody]; decide)
  obtain ⟨s, s₀, hnew, hinit, hready, -⟩ :=
    initializeLayer_stands correct hS hcursor hinner
  exact ⟨correct, _, _, _, s, s₀, hconfig, hproduced, hnew, hinit, fun hfollows =>
    hready.not_followsCursor hcursor hS (Nat.dvd_zero _) (hfollows _)⟩

end Example

end InternalEncryptionLayerReader

end Mla
