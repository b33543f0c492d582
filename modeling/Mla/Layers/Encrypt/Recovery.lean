import Mla.Layers.Encrypt.Scan

/-!
# Recovering a stream that may be cut

What the truncated reader returns in the mode that only returns authenticated data. The
stream may be cut anywhere (`returns_prefix_iff`), or may be complete and followed by
anything (`returns_all_iff`).

A cut stream is read in an ideal world: under the key of the session, the messages of one
run of the writer are the only ones that are accepted.
-/

namespace Mla

open Io

/-! ## The ideal cipher -/

section Ideal

variable [AesGcm]

namespace InternalEncryptionConfig

open InternalEncryptionLayerReader (finalBlockOpens)

/-- What one run of the writer encrypts: each cipher with its data. -/
def messages (config : InternalEncryptionConfig) (P : Bytes) : List (AesGcm256 × Bytes) :=
  (config.commitmentCipher, keyCommitmentChain) ::
    (config.finalCipher (chunkCount P), finalBlockContent) ::
    (List.range (chunkCount P)).map fun i => (config.chunkCipher i, chunkData P i)

/-- The only ciphertexts and tags that are accepted under the key are those of one run of the
writer. -/
def Ideal (config : InternalEncryptionConfig) (P : Bytes) : Prop :=
  ∀ nonce aad ct tag,
    tag.length = tagLength ∧ AesGcm.decryptTag config.key nonce aad ct = tag ↔
      ∃ m ∈ config.messages P, m.1.nonce = nonce ∧ m.1.associatedData = aad ∧
        (m.1.encrypt m.2).1 = ct ∧ (m.1.encrypt m.2).2.intoTag.toList = tag

variable {config : InternalEncryptionConfig} {P : Bytes} {c : ℕ} {ct tag : Bytes}

/-- In the ideal world, the only authentic chunks are those of the run. -/
theorem Ideal.authentic_iff (h : config.Ideal P) (hc : c + 1 < u64Size)
    (hP : chunkCount P + 1 < u64Size) (htag : tag.length = 16) :
    config.Authentic c ct tag ↔
      c < chunkCount P ∧ ct = config.chunkCt c (chunkData P c) ∧
        tag = config.chunkTag c (chunkData P c) := by
  have hiff := h (computeNonce config.nonce (c + 1)) associatedData ct tag
  constructor
  · intro hauth
    obtain ⟨m, hm, hnonce, haad, hct, htag'⟩ := hiff.mp ⟨htag.trans tagLength_eq.symm, hauth⟩
    simp only [messages, List.mem_cons, List.mem_map, List.mem_range] at hm
    rcases hm with rfl | rfl | ⟨i, hi, rfl⟩
    · have hseq := computeNonce_injective (by rw [u64Size_eq]; omega) hc hnonce
      omega
    · have hdata : finalAssociatedData = associatedData := haad
      exact absurd hdata (by decide)
    · have hseq := computeNonce_injective (by rw [firstDataChunkNumber_eq]; omega) hc hnonce
      rw [firstDataChunkNumber_eq] at hseq
      obtain rfl : i = c := by omega
      exact ⟨hi, hct.symm, htag'.symm⟩
  · rintro ⟨hlt, rfl, rfl⟩
    refine (hiff.mpr ⟨(config.chunkCipher c, chunkData P c), ?_, rfl, rfl, rfl, rfl⟩).2
    simp only [messages, List.mem_cons, List.mem_map, List.mem_range]
    exact Or.inr (Or.inr ⟨c, hlt, rfl⟩)

/-- In the ideal world, the only final block is the one of the run. -/
theorem Ideal.final_iff {seq : ℕ} {block : Bytes} (h : config.Ideal P) (hseq : seq < u64Size)
    (hP : chunkCount P + 1 < u64Size) (hblock : 26 ≤ block.length) :
    finalBlockOpens config.key config.nonce seq block = true ↔
      seq = chunkCount P + 1 ∧
        block.take 26 = sealWith (config.finalCipher (chunkCount P)) finalBlockContent := by
  have htag : (slice block 10 16).length = 16 := length_slice_of_le hblock
  have hcut : block.take 26 = block.take 10 ++ slice block 10 16 :=
    (take_append_slice block 10 16).symm
  have hcipher : finalBlockOpens config.key config.nonce seq block =
      (decide (AesGcm.decryptTag config.key (computeNonce config.nonce seq) finalAssociatedData
          (block.take 10) = slice block 10 16) &&
        decide (applyKeystream config.key (computeNonce config.nonce seq) 0 (block.take 10) =
          finalBlockContent)) := rfl
  have hiff := h (computeNonce config.nonce seq) finalAssociatedData (block.take 10)
    (slice block 10 16)
  rw [hcipher, Bool.and_eq_true, decide_eq_true_iff, decide_eq_true_iff]
  constructor
  · rintro ⟨hauth, -⟩
    obtain ⟨m, hm, hnonce, haad, hct, htag'⟩ := hiff.mp ⟨htag.trans tagLength_eq.symm, hauth⟩
    simp only [messages, List.mem_cons, List.mem_map, List.mem_range] at hm
    rcases hm with rfl | rfl | ⟨i, -, rfl⟩
    · have hdata : associatedData = finalAssociatedData := haad
      exact absurd hdata (by decide)
    · have hnumber := computeNonce_injective (by rwa [firstDataChunkNumber_eq]) hseq hnonce
      rw [firstDataChunkNumber_eq] at hnumber
      exact ⟨hnumber.symm, by rw [hcut, ← hct, ← htag']; rfl⟩
    · have hdata : associatedData = finalAssociatedData := haad
      exact absurd hdata (by decide)
  · rintro ⟨rfl, hseal⟩
    rw [hcut, sealWith] at hseal
    obtain ⟨hfront, htag'⟩ := List.append_inj hseal (by
      rw [List.length_take, AesGcm256.encrypt, length_applyKeystream, length_finalBlockContent]
      omega)
    refine ⟨(hiff.mpr ⟨(config.finalCipher (chunkCount P), finalBlockContent), ?_, ?_, rfl,
      hfront.symm, htag'.symm⟩).2, ?_⟩
    · simp only [messages, List.mem_cons, true_or, or_true]
    · rw [finalCipher, firstDataChunkNumber_eq, AesGcm256.new]
    · rw [hfront, finalCipher, firstDataChunkNumber_eq, AesGcm256.new, AesGcm256.encrypt]
      exact applyKeystream_applyKeystream _ _ _ _

end InternalEncryptionConfig

end Ideal

/-- A cipher that accepts one run of the writer and nothing else: the keystream and the tags are
zero. -/
@[reducible] def idealCipher (config : InternalEncryptionConfig) (P : Bytes) : AesGcm where
  keystream _ _ _ := 0
  encryptTag _ _ _ _ := Vector.replicate tagLength 0
  decryptTag _ nonce aad ct :=
    if ∃ m ∈ config.messages P, m.1.nonce = nonce ∧ m.1.associatedData = aad ∧ m.2 = ct then
      List.replicate tagLength 0
    else []

theorem idealCipher_ideal (config : InternalEncryptionConfig) (P : Bytes) :
    letI := idealCipher config P
    config.Ideal P := by
  let := idealCipher config P
  intro nonce aad ct tag
  have hct : ∀ m : AesGcm256 × Bytes, (m.1.encrypt m.2).1 = m.2 := by
    intro m
    show m.2.mapIdx (fun _ b => b ^^^ (0 : UInt8)) = m.2
    apply List.ext_getElem <;> simp
  have htag : ∀ m : AesGcm256 × Bytes,
      (m.1.encrypt m.2).2.intoTag.toList = List.replicate tagLength 0 := fun _ => rfl
  have hdecrypt : AesGcm.decryptTag config.key nonce aad ct =
      if ∃ m ∈ config.messages P, m.1.nonce = nonce ∧ m.1.associatedData = aad ∧ m.2 = ct then
        List.replicate tagLength 0
      else [] := rfl
  simp only [hct, htag, hdecrypt]
  split
  · rename_i hmem
    obtain ⟨m, hm, hnonce, haad, hct⟩ := hmem
    constructor
    · rintro ⟨-, rfl⟩
      exact ⟨m, hm, hnonce, haad, hct, rfl⟩
    · rintro ⟨_, -, -, -, -, rfl⟩
      exact ⟨List.length_replicate, rfl⟩
  · rename_i hmem
    constructor
    · rintro ⟨hlen, rfl⟩
      cases hlen
    · rintro ⟨m, hm, hnonce, haad, hct, -⟩
      exact absurd ⟨m, hm, hnonce, haad, hct⟩ hmem

/-! ## A cut stream -/

section Cut

open InternalEncryptionConfig (chunkHead)

variable [AesGcm] {config : InternalEncryptionConfig} {P S T : Bytes} {c : ℕ}
  {mode : TruncatedReaderDecryptionMode}

/-- The slot of a full chunk that is followed by more than a final block opens. -/
theorem slotOpened_full (hpre : S <+: config.encBody P ++ T) (hS : S.length < i64Size)
    (hauth : mode = .dataEvenUnauthenticated ∨
      config.Authentic c (config.chunkCt c (chunkData P c)) (config.chunkTag c (chunkData P c)))
    (hchunk : 131072 * (c + 1) ≤ P.length) (hlen : 131104 * c + 131139 ≤ S.length) :
    slotOpened (some mode) config 0 S c = .chunk (chunkHead c ++ chunkData P c) := by
  have hslot : slice S (131104 * c) 131104 = config.encChunk c (chunkData P c) := by
    rw [isPrefix_slice_of_isPrefix hpre (by omega), config.slice_encBody_of_le hchunk]
  have hdata : (chunkData P c).length = 131072 := by
    rw [chunkData, normalChunkPtSize_eq, length_slice]
    omega
  have hrest : S.drop (131104 * c) =
      config.encChunk c (chunkData P c) ++ S.drop (131104 * (c + 1)) := by
    rw [drop_eq_slice_append S (131104 * c) 131104, hslot, Nat.mul_succ]
  rw [i64Size_eq] at hS
  rw [slotOpened_eq_openRest, hrest]
  apply openRest_encChunk (by rw [u64Size_eq]; omega) (by omega) hauth
  rw [guess_full, hdata]
  rw [← hrest, List.length_drop]
  omega

/-- In the ideal world, a chunk that opens is the one of its slot. -/
theorem slotOpened_ideal {mode : Option TruncatedReaderDecryptionMode} {all : ℕ} {cache : Bytes}
    (hideal : config.Ideal P) (hmode : mode ≠ some .dataEvenUnauthenticated)
    (hS : S.length < i64Size) (hP : P.length < i64Size)
    (hopen : slotOpened mode config all S c = .chunk cache) :
    c < chunkCount P ∧ cacheData cache = chunkData P c := by
  obtain ⟨m, hm, rfl, hauth⟩ := openChunk_eq_chunk config hmode hopen
  rw [length_slice] at hm
  rw [i64Size_eq] at hS hP
  have hnumber : 131072 * c / 131072 = c := by omega
  rw [hnumber] at hauth ⊢
  have hcount : chunkCount P + 1 < u64Size := by
    obtain ⟨hlast, -, -⟩ := lastChunk_spec P
    rw [chunkCount_eq, u64Size_eq]
    omega
  rw [hideal.authentic_iff (by rw [u64Size_eq]; omega) hcount
    (by rw [length_slice, length_slice]; omega)] at hauth
  obtain ⟨hc, hct, -⟩ := hauth
  have hhead : ((slice S (131104 * c) 131104).take 16).length = 16 := by
    rw [List.length_take, length_slice]
    omega
  refine ⟨hc, ?_⟩
  rw [hct, InternalEncryptionConfig.plaintext_chunkCt, cacheData, chunkHeadSize_eq,
    normalChunkPtSize_eq, slice_append_right (by omega), hhead, Nat.sub_self,
    slice_zero_of_le (length_chunkData_le P c)]

/-- What a cut stream delivers, read from chunk `c` on, is plaintext from there on, and all the
chunks that are surely full are in it. -/
theorem Delivery.cut {out : Bytes} {stop : Stop} (hideal : config.Ideal P)
    (hS : S.length < i64Size) (hP : P.length < i64Size) (hpre : S <+: config.encBody P ++ T)
    (h : Delivery (slotOpened (some .onlyAuthenticatedData) config 0 S) c out stop) :
    out <+: P.drop (131072 * c) ∧
      ∀ i, c ≤ i → 131072 * (i + 1) ≤ P.length → 131104 * i + 131139 ≤ S.length →
        131072 * (i + 1) ≤ 131072 * c + out.length := by
  have hfull : ∀ {c i : ℕ}, c ≤ i → 131072 * (i + 1) ≤ P.length →
      131104 * i + 131139 ≤ S.length →
      slotOpened (some .onlyAuthenticatedData) config 0 S c =
        .chunk (chunkHead c ++ chunkData P c) := by
    intro c i hci hi hlen
    refine slotOpened_full hpre hS (Or.inr ?_) (by omega) (by omega)
    have hcount : chunkCount P + 1 < u64Size := by
      obtain ⟨hlast, -, -⟩ := lastChunk_spec P
      rw [i64Size_eq] at hP
      rw [chunkCount_eq, u64Size_eq]
      omega
    rw [i64Size_eq] at hP
    rw [hideal.authentic_iff (by rw [u64Size_eq]; omega) hcount (by simp)]
    obtain ⟨-, hlast, -⟩ := lastChunk_spec P
    refine ⟨?_, rfl, rfl⟩
    rw [chunkCount_eq]
    omega
  have hdata : ∀ {c : ℕ}, slice P (131072 * c) 131072 = chunkData P c := by
    intro c
    rw [chunkData, normalChunkPtSize_eq]
  induction h with
  | nothing hopen =>
      refine ⟨List.nil_prefix, fun i hci hi hlen => ?_⟩
      rw [hfull hci hi hlen] at hopen
      cases hopen
  | failed hopen =>
      refine ⟨List.nil_prefix, fun i hci hi hlen => ?_⟩
      rw [hfull hci hi hlen] at hopen
      cases hopen
  | @last c cache hopen hlast =>
      obtain ⟨-, hcache⟩ := slotOpened_ideal hideal (by decide) hS hP hopen
      rw [hcache]
      refine ⟨?_, fun i hci hi hlen => ?_⟩
      · rw [drop_eq_slice_append P (131072 * c) 131072, hdata]
        exact List.prefix_append _ _
      · rw [hcache, normalChunkPtSize_eq, ← hdata, length_slice] at hlast
        omega
  | @full c cache out stop hopen hfulldata hrest ih =>
      obtain ⟨hout, hbound⟩ := ih
      obtain ⟨-, hcache⟩ := slotOpened_ideal hideal (by decide) hS hP hopen
      rw [hcache, normalChunkPtSize_eq] at hfulldata
      rw [hcache]
      refine ⟨?_, fun i hci hi hlen => ?_⟩
      · rw [drop_eq_slice_append P (131072 * c) 131072, hdata, List.prefix_append_right_inj]
        exact hout
      · rw [List.length_append, hfulldata]
        rcases Nat.eq_or_lt_of_le hci with rfl | hlt
        · omega
        · have := hbound i hlt hi hlen
          omega

/-! ### The first chunk -/

/-- The stream is taken to end in its first slot, and the magic of the final block stands right
behind the first head. -/
def FirstChunkHidden (S : Bytes) : Prop :=
  24 ≤ S.length ∧ S.length < 131139 ∧ slice S 16 8 = finalBlockMagic

instance (S : Bytes) : Decidable (FirstChunkHidden S) := by
  unfold FirstChunkHidden
  infer_instance

omit [AesGcm] in
/-- The head of a first chunk does not contain the start of the magic. -/
theorem slice_ne_finalBlockMagic {pos : ℕ} (hpos : pos < 16)
    (hhead : S.take 16 <+: chunkHead 0) : slice S pos 8 ≠ finalBlockMagic := by
  intro hslice
  have hlen := le_of_slice_magic hslice
  have hget : ∀ i, pos + i < 16 → i < 8 → (chunkHead 0)[pos + i]? = finalBlockMagic[i]? := by
    intro i hi hi8
    rw [← hslice, getElem?_slice hi8]
    obtain ⟨rest, hrest⟩ := hhead
    rw [← hrest, List.getElem?_append_left (by rw [List.length_take]; omega),
      List.getElem?_take_of_lt hi]
  have hno : ∀ pos < 16, ∃ i < 8, pos + i < 16 ∧ (chunkHead 0)[pos + i]? ≠ finalBlockMagic[i]? := by
    decide
  obtain ⟨i, hi8, hi, hne⟩ := hno pos hpos
  exact hne (hget i hi hi8)

/-- The first chunk is missing exactly when it is hidden. -/
theorem slotOpened_zero_eq_nothing (mode : TruncatedReaderDecryptionMode)
    (config : InternalEncryptionConfig) (hhead : S.take 16 <+: chunkHead 0) :
    slotOpened (some mode) config 0 S 0 = .nothing ↔ FirstChunkHidden S := by
  rw [slotOpened_eq_openRest, Nat.mul_zero, List.drop_zero, openRest_eq_nothing]
  constructor
  · rintro ⟨e, he, hguess⟩
    by_cases hshort : S.length < 16
    · rw [guess_short hshort] at hguess
      cases hguess
    by_cases hlong : 131139 ≤ S.length
    · rw [guess_full hlong] at hguess
      cases hguess
      omega
    rw [guess_scan _ (by omega) (by omega)] at hguess
    split at hguess
    · rename_i pos hscan
      obtain rfl := Except.ok.inj hguess
      have hslice := finalBlockMagicScan_some hscan
      rw [List.take_append_drop] at hslice
      have hlen := le_of_slice_magic hslice
      have hpos : pos = 16 := by
        by_contra hne
        exact slice_ne_finalBlockMagic (by omega) hhead hslice
      rw [hpos] at hlen hslice
      exact ⟨by omega, by omega, hslice⟩
    · split at hguess
      · cases hguess
        omega
      · cases hguess
  · rintro ⟨hshort, hlong, hslice⟩
    have hin : slice (S.take 131104) 16 8 = finalBlockMagic := by
      rw [← slice_zero, slice_slice_of_le (by omega), Nat.zero_add, hslice]
    rw [guess_scan _ (by omega) hlong]
    cases hscan : finalBlockMagicScan (S.take 131104) (S.drop 131104) with
    | none =>
        refine absurd ?_ (finalBlockMagicScan_none ?_ hscan 16)
        · rw [List.take_append_drop, hslice]
        · rw [← List.length_append, List.take_append_drop, u64Size_eq]
          omega
    | some pos =>
        have hpos := finalBlockMagicScan_le hscan (j := 16)
          (by rw [List.length_take]; omega) hin
        exact ⟨pos, hpos, rfl⟩

/-- Every cut of the stream starts with the first head. -/
theorem take_isPrefix_chunkHead (hpre : S <+: config.encBody P ++ T) :
    S.take 16 <+: chunkHead 0 := by
  have hstream : chunkHead 0 <+: config.encBody P ++ T := by
    rw [InternalEncryptionConfig.encBody, InternalEncryptionConfig.encChunks, chunkCount_eq,
      List.range_succ_eq_map, List.flatMap_cons, InternalEncryptionConfig.encChunk]
    simp only [List.append_assoc]
    exact List.prefix_append _ _
  obtain ⟨rest, hrest⟩ := hstream
  rw [← hrest] at hpre
  have htake : S.take 16 <+: (chunkHead 0 ++ rest).take 16 :=
    List.prefix_take_iff.mpr ⟨(List.take_prefix 16 S).trans hpre, by simp⟩
  rwa [List.take_left' (by simp)] at htake

/-- A slot with less than an empty chunk and the magic in it delivers nothing. -/
theorem Delivery.of_short {out : Bytes} {stop : Stop} (hshort : S.length < 131104 * c + 40)
    (h : Delivery (slotOpened (some .onlyAuthenticatedData) config 0 S) c out stop) : out = [] := by
  have hclosed : ∀ cache, slotOpened (some .onlyAuthenticatedData) config 0 S c ≠ .chunk cache := by
    intro cache hopen
    rw [slotOpened_eq_openRest] at hopen
    have hlen : (S.drop (131104 * c)).length < 40 := by
      rw [List.length_drop]
      omega
    generalize S.drop (131104 * c) = R at hopen hlen
    cases hguess : guess .onlyAuthenticatedData R with
    | error e =>
        rw [openRest_of_error hguess] at hopen
        cases hopen
    | ok e =>
        rw [openRest_of_guess hguess] at hopen
        obtain ⟨m, rfl, -, -⟩ := openChunkAt_eq_chunk hopen
        by_cases hR : R.length < 16
        · rw [guess_short hR] at hguess
          cases hguess
        rw [guess_scan _ (by omega) (by omega)] at hguess
        split at hguess
        · rename_i pos hscan
          obtain rfl := Except.ok.inj hguess
          have hslice := finalBlockMagicScan_some hscan
          rw [List.take_append_drop] at hslice
          have hle := le_of_slice_magic hslice
          omega
        · cases hguess
  cases h with
  | nothing => rfl
  | failed => rfl
  | last hopen => exact absurd hopen (hclosed _)
  | full hopen => exact absurd hopen (hclosed _)

end Cut

section Recover

open EncryptionLayerTruncatedReader (Returns returns_delivery returns_raw)

variable {σ : Type} [Patience] [AesGcm] [Read Error σ] {config : InternalEncryptionConfig}
  {P S : Bytes} {At : σ → ℕ → Prop} {inner : σ} {sizes : ℕ → ℕ}

/-- In the ideal world, the reader over a cut of the encrypted stream returns a front of the
plaintext with every full chunk that is followed by more than a final block, if and only if the
first chunk is not hidden (or the stream, which is then returned as it is, happens to be a front
of its own plaintext). -/
theorem EncryptionLayerTruncatedReader.returns_prefix_iff (hideal : config.Ideal P)
    (hlen : (config.encStream P).length < i64Size) (hpre : S <+: config.encStream P)
    (hdelivers : Delivers True S At) (hinner : At inner 0) (hsizes : ∀ i, 0 < sizes i) :
    (∃ out, Returns .onlyAuthenticatedData config sizes inner out ∧ out <+: P ∧
      ∀ i, 131072 * (i + 1) ≤ P.length → 131104 * (i + 1) + 35 ≤ S.length →
        131072 * (i + 1) ≤ out.length) ↔
      ¬ FirstChunkHidden S ∨ S.take 131088 <+: P := by
  have hS : S.length < i64Size := lt_of_le_of_lt hpre.length_le hlen
  have hP : P.length < i64Size := by
    rw [InternalEncryptionConfig.encStream, List.length_append,
      InternalEncryptionConfig.length_encBody] at hlen
    omega
  have hhead := take_isPrefix_chunkHead (T := emptyTailOptsSerialization) hpre
  by_cases hhidden : FirstChunkHidden S
  · have hshort := hhidden.2.1
    obtain ⟨rest, hreturns, hnone, hrest⟩ := returns_raw hdelivers hS hinner hsizes
      ((slotOpened_zero_eq_nothing _ config hhead).mpr hhidden)
    obtain rfl : rest = [] := by
      by_cases hfirst : S.length < 131088
      · exact hnone hfirst
      · obtain ⟨stop, hdelivery⟩ := hrest (by omega)
        exact hdelivery.of_short (by omega)
    rw [List.append_nil] at hreturns
    constructor
    · rintro ⟨out, hout, houtP, -⟩
      rw [hreturns.unique hout]
      exact Or.inr houtP
    · intro h
      refine ⟨_, hreturns, h.resolve_left (not_not_intro hhidden), fun i _ hi => ?_⟩
      omega
  · obtain ⟨out, stop, hdelivery⟩ :=
      Delivery.exists (some .onlyAuthenticatedData) config 0 S 0
    have hreturns := returns_delivery hdelivers hS hinner hsizes hdelivery
      fun hnothing => hhidden ((slotOpened_zero_eq_nothing _ config hhead).mp hnothing)
    obtain ⟨hout, hfull⟩ := hdelivery.cut hideal hS hP hpre
    rw [Nat.mul_zero, List.drop_zero] at hout
    refine iff_of_true ⟨out, hreturns, hout, fun i hi hlen => ?_⟩ (Or.inl hhidden)
    have hnext : 131104 * i + 131139 ≤ S.length := by
      rw [Nat.mul_succ] at hlen
      omega
    have hbound := hfull i (Nat.zero_le i) hi hnext
    rwa [Nat.mul_zero, Nat.zero_add] at hbound

end Recover

/-! ## A complete stream -/

section Complete

open InternalEncryptionConfig (chunkHead)

variable [AesGcm] {config : InternalEncryptionConfig} {P S R T : Bytes} {c : ℕ}
  {mode : TruncatedReaderDecryptionMode}

omit [AesGcm] in
/-- Full chunks are delivered one after the other. -/
theorem Delivery.front {out : Bytes} {stop : Stop} {opened : ℕ → Opened} :
    ∀ {n c : ℕ}, (∀ i, c ≤ i → i < c + n → opened i = .chunk (chunkHead i ++ chunkData P i)) →
      131072 * (c + n) ≤ P.length → Delivery opened (c + n) out stop →
      Delivery opened c (slice P (131072 * c) (131072 * n) ++ out) stop := by
  intro n
  induction n with
  | zero =>
      intro c _ _ h
      simpa using h
  | succ n ih =>
      intro c hopen hlen h
      have hdata : cacheData (chunkHead c ++ chunkData P c) = slice P (131072 * c) 131072 := by
        rw [cacheData, chunkHeadSize_eq, slice_append_right (by simp),
          InternalEncryptionConfig.length_chunkHead, Nat.sub_self, normalChunkPtSize_eq,
          slice_zero_of_le (length_chunkData_le P c), chunkData, normalChunkPtSize_eq]
      have hrest := ih (c := c + 1) (fun i hi hin => hopen i (by omega) (by omega))
        (by rw [show c + 1 + n = c + (n + 1) by omega]; exact hlen)
        (by rw [show c + 1 + n = c + (n + 1) by omega]; exact h)
      have hcut : slice P (131072 * c) (131072 * (n + 1)) =
          slice P (131072 * c) 131072 ++ slice P (131072 * (c + 1)) (131072 * n) := by
        rw [Nat.mul_succ 131072 c, ← slice_add, Nat.mul_succ, Nat.add_comm]
      have hstep := Delivery.full (hopen c le_rfl (by omega)) ?_ hrest
      · rwa [hdata, ← List.append_assoc, ← hcut] at hstep
      · rw [hdata, length_slice, normalChunkPtSize_eq]
        rw [Nat.mul_add] at hlen
        omega

/-- A chunk that is followed by more than a final block opens if its tag fits. -/
theorem openRest_full (config : InternalEncryptionConfig) (hc : c + 1 < u64Size)
    (hR : 131139 ≤ R.length) :
    (config.Authentic c (slice R 16 131072) (slice R 131088 16) →
      openRest .onlyAuthenticatedData config c R =
        .chunk (R.take 16 ++ config.plaintext c (slice R 16 131072))) ∧
    (¬ config.Authentic c (slice R 16 131072) (slice R 131088 16) →
      ∃ e cache, openRest .onlyAuthenticatedData config c R = .failed e cache) := by
  have hslice : ∀ {p k}, p + k ≤ 131104 → slice (R.take 131104) p k = slice R p k := by
    intro p k hk
    rw [← slice_zero, slice_slice_of_le hk, Nat.zero_add]
  have hhead : (R.take 131104).take 16 = R.take 16 := by
    rw [List.take_take, min_eq_left (by omega : 16 ≤ 131104)]
  have hopen := openChunkAt_eq (some .onlyAuthenticatedData) config (R.take 131104)
    (c := c) (m := 131072) (show 131072 * c / 131072 = c by omega) hc
    (by rw [List.length_take]; omega)
  rw [hslice (by omega), hslice (by omega), hhead] at hopen
  rw [openRest_of_guess (guess_full hR)]
  constructor
  · intro hauth
    rw [if_pos (Or.inr ⟨by rw [List.length_take]; omega, hauth⟩)] at hopen
    exact hopen
  · intro hauth
    rw [if_neg, if_neg (by rw [List.length_take]; omega)] at hopen
    · exact ⟨_, _, hopen⟩
    · rintro (hmode | ⟨-, h⟩)
      · cases hmode
      · exact hauth h

/-- What comes out of a chunk that is followed by more than a final block. -/
theorem Delivery.of_full {S out : Bytes} {stop : Stop} (hc : c + 1 < u64Size)
    (hR : 131139 ≤ (S.drop (131104 * c)).length)
    (h : Delivery (slotOpened (some .onlyAuthenticatedData) config 0 S) c out stop) :
    (config.Authentic c (slice (S.drop (131104 * c)) 16 131072)
        (slice (S.drop (131104 * c)) 131088 16) → 131072 ≤ out.length) ∧
    (¬ config.Authentic c (slice (S.drop (131104 * c)) 16 131072)
        (slice (S.drop (131104 * c)) 131088 16) → out = []) := by
  obtain ⟨hgood, hbad⟩ := openRest_full config hc hR
  rw [← slotOpened_eq_openRest] at hgood hbad
  constructor
  · intro hauth
    have hlen : (cacheData ((S.drop (131104 * c)).take 16 ++
        config.plaintext c (slice (S.drop (131104 * c)) 16 131072))).length = 131072 := by
      rw [length_cacheData, List.length_append, InternalEncryptionConfig.length_plaintext,
        List.length_take, length_slice]
      omega
    have hopened := hgood hauth
    cases h with
    | nothing hopen => rw [hopen] at hopened; cases hopened
    | failed hopen => rw [hopen] at hopened; cases hopened
    | last hopen hlast =>
        rw [hopen] at hopened
        rw [Opened.chunk.inj hopened, hlen]
    | full hopen _ _ =>
        rw [hopen] at hopened
        rw [Opened.chunk.inj hopened, List.length_append, hlen]
        omega
  · intro hauth
    obtain ⟨e, cache, hfailed⟩ := hbad hauth
    cases h with
    | nothing => rfl
    | failed => rfl
    | last hopen => rw [hopen] at hfailed; cases hfailed
    | full hopen => rw [hopen] at hfailed; cases hfailed

omit [AesGcm] in
/-- The magic is found where it first stands. -/
theorem guess_magic {e : ℕ} (hR : R.length < 131139) (he : e + 8 ≤ 131104) (hlen : 16 ≤ R.length)
    (hslice : slice R e 8 = finalBlockMagic)
    (hfirst : ∀ j < e, slice R j 8 ≠ finalBlockMagic) : guess mode R = .ok e := by
  have hwindow : windowPosition finalBlockMagic (R.take 131104) = some e := by
    have hle := le_of_slice_magic hslice
    have htake : ∀ j, j ≤ e → slice (R.take 131104) j 8 = slice R j 8 := by
      intro j hj
      rw [← slice_zero, slice_slice_of_le (by omega), Nat.zero_add]
    rw [windowPosition_eq_some, length_finalBlockMagic]
    refine ⟨by rw [List.length_take]; omega, by rw [htake e le_rfl, hslice], fun j hj => ?_⟩
    rw [htake j hj.le]
    exact hfirst j hj
  rw [guess_scan _ hlen hR, finalBlockMagicScan_of_chunk hwindow]

/-- The magic of the final block stands nowhere in the last chunk. -/
def NoMagicInLastChunk (config : InternalEncryptionConfig) (P : Bytes) : Prop :=
  ∀ j, j + 8 ≤ (config.encChunk (lastChunk P) (chunkData P (lastChunk P))).length →
    slice (config.encChunk (lastChunk P) (chunkData P (lastChunk P))) j 8 ≠ finalBlockMagic

/-- Behind the last chunk comes the magic. -/
theorem slice_behind_lastChunk (config : InternalEncryptionConfig) (T : Bytes) {m : ℕ}
    (hm : P.length = 131072 * lastChunk P + m) :
    slice ((config.encBody P ++ T).drop (131104 * lastChunk P)) (m + 32) 8 = finalBlockMagic := by
  have hchunk : (config.encChunk (lastChunk P) (chunkData P (lastChunk P))).length = m + 32 := by
    rw [InternalEncryptionConfig.length_encChunk, length_chunkData_last]
    omega
  rw [config.drop_encBody, List.append_assoc, slice_append_right hchunk.le, hchunk,
    Nat.sub_self, InternalEncryptionConfig.encTail, InternalEncryptionConfig.finalBlock,
    List.append_assoc, List.append_assoc, slice_append_left (by simp), slice_zero_of_le (by simp)]

/-- The magic does not come before. -/
theorem slice_lastChunk {m : ℕ} (hmagic : NoMagicInLastChunk config P)
    (hm : P.length = 131072 * lastChunk P + m) {j : ℕ} (hj : j < m + 32) :
    slice ((config.encBody P ++ T).drop (131104 * lastChunk P)) j 8 ≠ finalBlockMagic := by
  have hchunk : (config.encChunk (lastChunk P) (chunkData P (lastChunk P))).length = m + 32 := by
    rw [InternalEncryptionConfig.length_encChunk, length_chunkData_last]
    omega
  intro hslice
  have hover := magic_no_overlap hj hslice (slice_behind_lastChunk config T hm)
  rw [config.drop_encBody, List.append_assoc, slice_append_left (by omega)] at hslice
  exact hmagic j (by omega) hslice

/-- The full chunks of a plaintext are followed by more than a final block. -/
theorem slotOpened_of_lt (hcorrect : AesGcm.Correct)
    (hS : (config.encBody P ++ T).length < i64Size) (hc : c < P.length / 131072) :
    slotOpened (some mode) config 0 (config.encBody P ++ T) c =
      .chunk (chunkHead c ++ chunkData P c) := by
  obtain ⟨hlast, hle, -⟩ := lastChunk_spec P
  refine slotOpened_full (List.prefix_refl _) hS
    (Or.inr (InternalEncryptionConfig.authentic_of_correct hcorrect c _)) (by omega) ?_
  rw [List.length_append, InternalEncryptionConfig.length_encBody]
  omega

/-- The first chunk is not hidden in a complete stream. -/
theorem not_firstChunkHidden (hmagic : NoMagicInLastChunk config P) :
    ¬ FirstChunkHidden (config.encBody P ++ T) := by
  rintro ⟨-, hshort, hslice⟩
  obtain ⟨hlast, -, -⟩ := lastChunk_spec P
  rw [List.length_append, InternalEncryptionConfig.length_encBody] at hshort
  have hzero : lastChunk P = 0 := by omega
  have hnone := slice_lastChunk (T := T) (m := P.length) hmagic (by omega)
    (show 16 < P.length + 32 by omega)
  rw [hzero, Nat.mul_zero, List.drop_zero] at hnone
  exact hnone hslice

/-- What comes out behind the full chunks, when no more than a full chunk and a final block are
left there. -/
theorem Delivery.rest {out : Bytes} {stop : Stop} (hcorrect : AesGcm.Correct)
    (hS : (config.encBody P ++ T).length < i64Size) (hmagic : NoMagicInLastChunk config P)
    (hR : ((config.encBody P ++ T).drop (131104 * (P.length / 131072))).length < 131139)
    (h : Delivery (slotOpened (some .onlyAuthenticatedData) config 0 (config.encBody P ++ T))
      (P.length / 131072) out stop) : out = P.drop (131072 * (P.length / 131072)) := by
  obtain ⟨hlast, hle, -⟩ := lastChunk_spec P
  have hlen := List.length_append ▸ hS
  rw [InternalEncryptionConfig.length_encBody, i64Size_eq] at hlen
  rw [List.length_drop, List.length_append, InternalEncryptionConfig.length_encBody] at hR
  obtain ⟨m, hm⟩ : ∃ m, P.length = 131072 * lastChunk P + m :=
    ⟨P.length - 131072 * lastChunk P, by omega⟩
  have hat := slice_behind_lastChunk config T hm
  by_cases hfull : m = 131072
  · -- The final block stands in a slot of its own.
    have hk : P.length / 131072 = lastChunk P + 1 := by omega
    have hnext : 131104 * (lastChunk P + 1) = 131104 * lastChunk P + (m + 32) := by
      rw [hfull, Nat.mul_succ]
    rw [hk] at h hR ⊢
    rw [hnext] at hR
    have hnothing : slotOpened (some .onlyAuthenticatedData) config 0 (config.encBody P ++ T)
        (lastChunk P + 1) = .nothing := by
      rw [slotOpened_eq_openRest, openRest_eq_nothing, hnext]
      refine ⟨0, by omega, guess_magic ?_ (by omega) ?_ ?_ (fun j hj => by omega)⟩
      · rw [List.length_drop, List.length_append, InternalEncryptionConfig.length_encBody]
        omega
      · rw [List.length_drop, List.length_append, InternalEncryptionConfig.length_encBody]
        omega
      · rwa [slice_drop, Nat.add_zero, ← slice_drop]
    obtain ⟨rfl, -⟩ := h.unique (.nothing hnothing)
    rw [List.drop_eq_nil_of_le]
    rw [Nat.mul_succ]
    omega
  · have hk : P.length / 131072 = lastChunk P := by omega
    rw [hk] at h hR ⊢
    have hdata : (chunkData P (lastChunk P)).length = m := by
      rw [length_chunkData_last]
      omega
    have hguess : guess .onlyAuthenticatedData
        ((config.encBody P ++ T).drop (131104 * lastChunk P)) = .ok (m + 32) := by
      refine guess_magic ?_ (by omega) ?_ hat fun j hj => slice_lastChunk hmagic hm hj
      · rw [List.length_drop, List.length_append, InternalEncryptionConfig.length_encBody]
        omega
      · rw [List.length_drop, List.length_append, InternalEncryptionConfig.length_encBody]
        omega
    have hopen : slotOpened (some .onlyAuthenticatedData) config 0 (config.encBody P ++ T)
        (lastChunk P) = .chunk (chunkHead (lastChunk P) ++ chunkData P (lastChunk P)) := by
      rw [config.drop_encBody, List.append_assoc] at hguess
      rw [slotOpened_eq_openRest, config.drop_encBody, List.append_assoc]
      refine openRest_encChunk (by rw [u64Size_eq]; omega) (by omega)
        (Or.inr (InternalEncryptionConfig.authentic_of_correct hcorrect _ _)) ?_
      rw [hguess, hdata]
    have hcache : cacheData (chunkHead (lastChunk P) ++ chunkData P (lastChunk P)) =
        P.drop (131072 * lastChunk P) := by
      rw [cacheData, chunkHeadSize_eq, slice_append_right (by simp),
        InternalEncryptionConfig.length_chunkHead, Nat.sub_self, normalChunkPtSize_eq,
        slice_zero_of_le (length_chunkData_le P _), chunkData, normalChunkPtSize_eq,
        slice_eq_drop (by omega)]
    have hdelivery := Delivery.last hopen (by
      rw [hcache, List.length_drop, normalChunkPtSize_eq]
      omega)
    rw [hcache] at hdelivery
    exact (h.unique hdelivery).1

end Complete

section Lossless

open EncryptionLayerTruncatedReader (Returns returns_delivery)

variable {σ : Type} [Patience] [AesGcm] [Read Error σ] {config : InternalEncryptionConfig}
  {P T : Bytes} {At : σ → ℕ → Prop} {inner : σ} {sizes : ℕ → ℕ}

/-- The reader over a complete stream and what follows it returns the plaintext if and only if
what stands behind the full chunks is no longer than a full chunk and a final block, or does not
pass for a full chunk and no plaintext is left. -/
theorem EncryptionLayerTruncatedReader.returns_all_iff (hcorrect : AesGcm.Correct)
    (hS : (config.encBody P ++ T).length < i64Size) (hmagic : NoMagicInLastChunk config P)
    (hdelivers : Delivers True (config.encBody P ++ T) At) (hinner : At inner 0)
    (hsizes : ∀ i, 0 < sizes i) :
    Returns .onlyAuthenticatedData config sizes inner P ↔
      let k := P.length / 131072
      let R := (config.encBody P ++ T).drop (131104 * k)
      R.length < 131139 ∨
        P.length % 131072 = 0 ∧ ¬ config.Authentic k (slice R 16 131072) (slice R 131088 16) := by
  obtain ⟨k, hk⟩ : ∃ k, k = P.length / 131072 := ⟨_, rfl⟩
  have hlen := hS
  rw [List.length_append, InternalEncryptionConfig.length_encBody, i64Size_eq] at hlen
  obtain ⟨out, stop, hdelivery⟩ :=
    Delivery.exists (some .onlyAuthenticatedData) config 0 (config.encBody P ++ T) k
  have hreturns : Returns .onlyAuthenticatedData config sizes inner
      (P.take (131072 * k) ++ out) := by
    have hfront := Delivery.front (P := P) (n := k) (c := 0)
      (fun i _ hi => slotOpened_of_lt hcorrect hS (by omega)) (by omega) (by rwa [Nat.zero_add])
    rw [Nat.mul_zero, slice_zero] at hfront
    refine returns_delivery hdelivers hS hinner hsizes hfront fun hnothing => ?_
    exact not_firstChunkHidden hmagic ((slotOpened_zero_eq_nothing _ config
      (take_isPrefix_chunkHead (List.prefix_refl _))).mp hnothing)
  have hall : Returns .onlyAuthenticatedData config sizes inner P ↔ out = P.drop (131072 * k) := by
    constructor
    · intro h
      have hP := (hreturns.unique h).trans (List.take_append_drop (131072 * k) P).symm
      exact List.append_cancel_left hP
    · rintro rfl
      rwa [List.take_append_drop] at hreturns
  rw [hall]
  dsimp only
  rw [← hk]
  by_cases hR : ((config.encBody P ++ T).drop (131104 * k)).length < 131139
  · rw [hk] at hdelivery hR
    refine iff_of_true ?_ (Or.inl ?_)
    · rw [hk]
      exact hdelivery.rest hcorrect hS hmagic hR
    · rwa [hk]
  · obtain ⟨hgood, hbad⟩ := hdelivery.of_full (by rw [u64Size_eq]; omega) (by omega)
    have hdrop : (P.drop (131072 * k)).length = P.length % 131072 := by
      rw [List.length_drop]
      omega
    constructor
    · rintro rfl
      refine Or.inr ⟨?_, fun hauth => ?_⟩
      · by_contra hne
        by_cases hauth : config.Authentic k
            (slice ((config.encBody P ++ T).drop (131104 * k)) 16 131072)
            (slice ((config.encBody P ++ T).drop (131104 * k)) 131088 16)
        · have := hgood hauth
          omega
        · rw [hbad hauth, List.length_nil] at hdrop
          exact hne hdrop.symm
      · have := hgood hauth
        omega
    · rintro (hshort | ⟨hmod, hauth⟩)
      · exact absurd hshort hR
      · rw [hbad hauth, eq_comm, ← List.length_eq_zero_iff, hdrop, hmod]

end Lossless

section Trailing

open EncryptionLayerTruncatedReader (Returns returns_delivery)
open scoped CountingCipher
open CountingCipher (config)

theorem noMagicInLastChunk_seven : NoMagicInLastChunk config [7] := by
  have hnone : ∀ j < 26,
      slice (config.encChunk (lastChunk [7]) (chunkData [7] (lastChunk [7]))) j 8 ≠
        finalBlockMagic := by decide
  have hlen : (config.encChunk (lastChunk [7]) (chunkData [7] (lastChunk [7]))).length = 33 := by
    decide
  intro j hj
  exact hnone j (by omega)

theorem EncryptionLayerTruncatedReader.returns_all_iff_seven :
    Returns .onlyAuthenticatedData config (fun _ => 7)
        (⟨config.encBody [7] ++ [1, 2], 0⟩ : Cursor Error) [7] ↔
      let k := ([7] : Bytes).length / 131072
      let R := (config.encBody [7] ++ [1, 2]).drop (131104 * k)
      R.length < 131139 ∨
        ([7] : Bytes).length % 131072 = 0 ∧
          ¬ config.Authentic k (slice R 16 131072) (slice R 131088 16) :=
  EncryptionLayerTruncatedReader.returns_all_iff CountingCipher.correct (by decide)
    noMagicInLastChunk_seven (Cursor.isCursor (by decide)).toDelivers
    ⟨⟨rfl, rfl⟩, Nat.zero_le _⟩ (fun _ => by decide)

/-- A plaintext that almost fills its chunk. -/
def almostFull : Bytes := List.replicate 131060 0

theorem length_almostFull : almostFull.length = 131060 := List.length_replicate

theorem lastChunk_almostFull : lastChunk almostFull = 0 := by
  obtain ⟨hlast, -, -⟩ := lastChunk_spec almostFull
  rw [length_almostFull] at hlast
  omega

/-- The last chunk of it has no letter of the magic behind its head. -/
theorem noMagicInLastChunk_almostFull : NoMagicInLastChunk config almostFull := by
  have hdata : chunkData almostFull 0 = almostFull := by
    rw [chunkData, normalChunkPtSize_eq, Nat.mul_zero, slice_zero_of_le]
    rw [length_almostFull]
    omega
  have hct : config.chunkCt 0 almostFull = almostFull := by
    rw [InternalEncryptionConfig.chunkCt, AesGcm256.encrypt, CountingCipher.applyKeystream_eq]
  have htag : config.chunkTag 0 almostFull = List.replicate 16 244 := by
    rw [InternalEncryptionConfig.chunkTag, AesGcm256.intoTag, CountingCipher.toList_encryptTag,
      AesGcm256.encrypt, CountingCipher.applyKeystream_eq, List.length_append, length_almostFull]
    rfl
  rw [NoMagicInLastChunk, lastChunk_almostFull, hdata, InternalEncryptionConfig.encChunk_eq, hct,
    htag]
  intro j hj hslice
  rcases Nat.lt_or_ge j 16 with hhead | hbehind
  · have htake : (InternalEncryptionConfig.chunkHead 0 ++ almostFull ++
        List.replicate 16 244).take 16 = InternalEncryptionConfig.chunkHead 0 := by
      rw [List.append_assoc, List.take_left' (by simp)]
    exact slice_ne_finalBlockMagic hhead (htake ▸ List.prefix_refl _) hslice
  · have hget := getElem?_slice
      (l := InternalEncryptionConfig.chunkHead 0 ++ almostFull ++ List.replicate 16 244) (p := j)
      (k := 8) (i := 0) (by omega)
    rw [hslice, List.append_assoc, List.getElem?_append_right (by simpa using hbehind)] at hget
    have hmem := List.mem_of_getElem? hget.symm
    rw [List.mem_append, almostFull, List.mem_replicate, List.mem_replicate] at hmem
    revert hmem
    decide

/-- The last bytes of a plaintext that almost fills its chunk are lost. -/
theorem almostFull_not_returned :
    AesGcm.Correct ∧ NoMagicInLastChunk config almostFull ∧
      ¬ Returns .onlyAuthenticatedData config (fun _ => 7)
        (⟨config.encBody almostFull ++ emptyTailOptsSerialization, 0⟩ : Cursor Error)
        almostFull := by
  refine ⟨CountingCipher.correct, noMagicInLastChunk_almostFull, fun h => ?_⟩
  have hlen : (config.encBody almostFull ++ emptyTailOptsSerialization).length = 131143 := by
    rw [List.length_append, InternalEncryptionConfig.length_encBody, lastChunk_almostFull,
      length_almostFull, length_emptyTailOptsSerialization]
  obtain ⟨out, stop, hdelivery⟩ := Delivery.exists (some .onlyAuthenticatedData) config 0
    (config.encBody almostFull ++ emptyTailOptsSerialization) 0
  have hout := h.unique (returns_delivery
    (S := config.encBody almostFull ++ emptyTailOptsSerialization)
    (Cursor.isCursor (by rw [hlen, u64Size_eq]; omega)).toDelivers
    (by rw [hlen, i64Size_eq]; omega) ⟨⟨rfl, rfl⟩, Nat.zero_le _⟩ (fun _ => by decide) hdelivery
    fun hnothing => not_firstChunkHidden noMagicInLastChunk_almostFull
      ((slotOpened_zero_eq_nothing _ config
        (take_isPrefix_chunkHead (List.prefix_refl _))).mp hnothing))
  obtain ⟨hgood, hbad⟩ := hdelivery.of_full (by rw [u64Size_eq]; omega)
    (by rw [List.length_drop, hlen]; omega)
  rw [← hout] at hgood hbad
  by_cases hauth : config.Authentic 0
      (slice ((config.encBody almostFull ++ emptyTailOptsSerialization).drop (131104 * 0))
        16 131072)
      (slice ((config.encBody almostFull ++ emptyTailOptsSerialization).drop (131104 * 0))
        131088 16)
  · have hlong := hgood hauth
    rw [length_almostFull] at hlong
    omega
  · have hnil := congrArg List.length (hbad hauth)
    rw [length_almostFull, List.length_nil] at hnil
    omega

end Trailing

namespace HiddenChunk

/-! The ciphertext of the first chunk is the magic of the final block. -/

scoped instance cipher : AesGcm := idealCipher CountingCipher.config finalBlockMagic

scoped instance patience : Patience where
  retries := 0

end HiddenChunk

section Hidden

open EncryptionLayerTruncatedReader (Returns recover)
open scoped HiddenChunk
open CountingCipher (config)

/-- The front of the stream, `n` bytes long. -/
def hiddenFront (n : ℕ) : Cursor Error :=
  ⟨(config.encStream finalBlockMagic).take n, 0⟩

theorem EncryptionLayerTruncatedReader.returns_prefix_iff_front :
    (∃ out, Returns .onlyAuthenticatedData config (fun _ => 7) (hiddenFront 20) out ∧
      out <+: finalBlockMagic ∧
      ∀ i, 131072 * (i + 1) ≤ finalBlockMagic.length →
        131104 * (i + 1) + 35 ≤ (hiddenFront 20).data.length → 131072 * (i + 1) ≤ out.length) ↔
      ¬ FirstChunkHidden (hiddenFront 20).data ∨
        (hiddenFront 20).data.take 131088 <+: finalBlockMagic :=
  EncryptionLayerTruncatedReader.returns_prefix_iff (idealCipher_ideal _ _) (by decide)
    (List.take_prefix _ _) (Cursor.isCursor (by decide)).toDelivers
    ⟨⟨rfl, rfl⟩, Nat.zero_le _⟩ (fun _ => by decide)

/-- Cut right behind the magic, the stream itself is returned. -/
theorem hidden_returns_raw :
    config.Ideal finalBlockMagic ∧ (hiddenFront 24).data <+: config.encStream finalBlockMagic ∧
    ¬ ∃ out, Returns .onlyAuthenticatedData config (fun _ => 32) (hiddenFront 24) out ∧
      out <+: finalBlockMagic ∧
      ∀ i, 131072 * (i + 1) ≤ finalBlockMagic.length →
        131104 * (i + 1) + 35 ≤ (hiddenFront 24).data.length → 131072 * (i + 1) ≤ out.length := by
  have hrecover : recover .onlyAuthenticatedData config (fun _ => 32) 2 (hiddenFront 24) =
      some ((hiddenFront 24).data, .endOfStream) := rfl
  refine ⟨idealCipher_ideal _ _, List.take_prefix _ _, ?_⟩
  rintro ⟨out, hout, hpre, -⟩
  obtain rfl := hout.unique ⟨2, _, hrecover⟩
  exact absurd hpre (by decide)

end Hidden

end Mla
