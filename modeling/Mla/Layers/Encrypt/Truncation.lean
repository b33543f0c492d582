import Mla.Layers.Encrypt.Normal

/-!
# Resistance to truncation

In the ideal world, a normal reader that accepts a stream returns the plaintext of the run that the
key was used for, whatever the stream is (`readChecked_eq_iff`). There is one exception: a
stream so short that its length leaves no plaintext is not checked but for its final block, and
what it holds is returned undecrypted.
-/

namespace Mla

open Io

/-! ## The size that a length implies -/

namespace InternalEncryptionLayerReader

/-- The full slots of the stream and what its last slot holds of plaintext. -/
theorem plaintextSize_eq_some {n all : ℕ} (h : plaintextSize n = some all) :
    (n - 58) % 131104 = 0 ∧ all = 131072 * ((n - 58) / 131104) ∨
      (n - 58) % 131104 ≠ 0 ∧ all + 16 = 131072 * ((n - 58) / 131104) + (n - 58) % 131104 := by
  have hlen : (checkedAdd endOfEncryptedInnerLayerMagic.length finalInfoSize).bind
      (checkedAdd · chunkHeadSize) = some 58 := rfl
  simp only [plaintextSize, hlen, Option.bind_eq_bind, Option.bind_some, m0ChunkSize_eq,
    normalChunkPtSize_eq, tagLength_eq] at h
  obtain ⟨full, hfull, hsize⟩ := Option.bind_eq_some_iff.mp h
  have hfull : 131072 * ((n - 58) / 131104) = full := by
    unfold checkedMul at hfull
    split at hfull
    · exact Option.some.inj hfull
    · cases hfull
  split at hsize
  · rename_i hzero
    obtain rfl := Option.some.inj hsize
    exact Or.inl ⟨hzero, hfull.symm⟩
  · rename_i hrest
    obtain ⟨sum, hsum, hsub⟩ := Option.bind_eq_some_iff.mp hsize
    unfold checkedAdd at hsum
    unfold checkedSub at hsub
    split at hsum
    · obtain rfl := Option.some.inj hsum
      split at hsub
      · obtain rfl := Option.some.inj hsub
        exact Or.inr ⟨hrest, by omega⟩
      · cases hsub
    · cases hsum

/-- No plaintext is left by a short stream, or by one of an empty chunk. -/
theorem plaintextSize_eq_zero {n all : ℕ} (h : plaintextSize n = some all) :
    all = 0 ↔ n ≤ 58 ∨ n = 74 := by
  rcases plaintextSize_eq_some h with ⟨hrest, hall⟩ | ⟨hrest, hall⟩ <;> omega

/-- A stream so short leaves no plaintext. -/
theorem plaintextSize_short {n : ℕ} (h : 34 ≤ n ∧ n ≤ 58 ∨ n = 74) :
    plaintextSize n = some 0 := by
  have hshort : ∀ n ≤ 58, plaintextSize n = some 0 := by decide
  rcases h with ⟨-, hle⟩ | rfl
  · exact hshort n hle
  · decide

/-- The slots before the last one are followed by more than a final block. -/
theorem lt_of_plaintextSize {n all c : ℕ} (h : plaintextSize n = some all)
    (hc : c < lastDataChunkNumber all) : 131104 * c + 131139 ≤ n := by
  obtain ⟨hle, -, hlt⟩ := lastDataChunkNumber_spec all
  have hlt := hlt (by omega)
  rcases plaintextSize_eq_some h with ⟨hrest, hall⟩ | ⟨hrest, hall⟩ <;> omega

end InternalEncryptionLayerReader

/-! ## What an accepted stream delivers -/

section Ideal

open InternalEncryptionLayerReader (plaintextSize plaintextSize_lt lt_of_plaintextSize)

variable [AesGcm] {config : InternalEncryptionConfig} {P S out : Bytes} {all c : ℕ} {stop : Stop}

/-- No slot up to the last chunk is missing. -/
theorem slotOpened_ne_nothing (hS : S.length < i64Size) (hsize : plaintextSize S.length = some all)
    (hpos : 0 < all) (hc : c ≤ lastDataChunkNumber all) :
    slotOpened none config all S c ≠ .nothing := by
  obtain ⟨-, -, hlt⟩ := lastDataChunkNumber_spec all
  have hlt := hlt hpos
  have hall : all < i64Size := by
    rw [i64Size_eq] at hS ⊢
    rcases InternalEncryptionLayerReader.plaintextSize_eq_some hsize with h | h <;> omega
  rcases Nat.lt_or_eq_of_le hc with hbefore | rfl
  · rw [slotOpened_before_full (plaintextSize_lt hsize) hbefore
      (lt_of_plaintextSize hsize hbefore), ne_eq, openChunkAt_eq_nothing]
    omega
  · rw [slotOpened_last (plaintextSize_lt hsize) le_rfl, openLast_eq hall hlt, ne_eq,
      openChunkAt_eq_nothing]
    omega

/-- Under the number of the last chunk, what is delivered without error is the plaintext. -/
theorem Delivery.ideal (hideal : config.Ideal P) (hS : S.length < i64Size)
    (hP : P.length < i64Size) (hsize : plaintextSize S.length = some all)
    (hlast : lastDataChunkNumber all = lastChunk P) (hpos : 0 < all)
    (h : Delivery (slotOpened none config all S) c out stop) (hstop : stop = .endOfStream)
    (hc : c ≤ lastChunk P) : out = P.drop (131072 * c) := by
  obtain ⟨hfirst, hle, -⟩ := lastChunk_spec P
  have hopened : ∀ {c cache}, slotOpened none config all S c = .chunk cache →
      cacheData cache = chunkData P c := fun hopen =>
    (slotOpened_ideal hideal (by decide) hS hP hopen).2
  have hdrop : ∀ c, P.drop (131072 * c) = chunkData P c ++ P.drop (131072 * (c + 1)) := by
    intro c
    rw [chunkData, normalChunkPtSize_eq, Nat.mul_succ]
    exact drop_eq_slice_append _ _ _
  induction h with
  | nothing hopen => exact absurd hopen (slotOpened_ne_nothing hS hsize hpos (by omega))
  | failed => cases hstop
  | @last c cache hopen hshort =>
      rw [hopened hopen] at hshort ⊢
      rw [normalChunkPtSize_eq] at hshort
      rcases Nat.lt_or_eq_of_le hc with hlt | rfl
      · rw [length_chunkData_of_lt hlt] at hshort
        omega
      · rw [hdrop, List.drop_eq_nil_of_le (i := 131072 * (lastChunk P + 1)), List.append_nil]
        rw [Nat.mul_succ]
        omega
  | @full c cache out stop hopen hfull hrest ih =>
      rw [hopened hopen, hdrop]
      congr 1
      rcases Nat.lt_or_eq_of_le hc with hlt | rfl
      · exact ih hstop hlt
      · -- The plaintext ends with a full chunk, and its size says so.
        have hnothing : slotOpened none config all S (lastChunk P + 1) = .nothing := by
          obtain ⟨-, hall, -⟩ := lastDataChunkNumber_spec all
          refine slotOpened_behind (plaintextSize_lt hsize) ?_
          rw [Nat.mul_succ, ← hlast]
          exact hall
        obtain ⟨rfl, -⟩ := hrest.unique (.nothing hnothing)
        rw [List.drop_eq_nil_of_le]
        rw [Nat.mul_succ]
        omega

end Ideal

/-! ## The reader -/

namespace InternalEncryptionLayerReader

section Reader

variable {σ : Type} [Patience] [AesGcm] [Read Error σ] [Seek Error σ] {S P out : Bytes}
  {At : σ → ℕ → Prop} {Live : σ → Prop} {config : InternalEncryptionConfig} {inner : σ}
  {sizes : ℕ → ℕ}

/-- Initialise a reader and read from the start to the first empty read; `none` when something
fails on the way, or takes more than `fuel` reads. -/
def readChecked (config : InternalEncryptionConfig) (sizes : ℕ → ℕ) (fuel : ℕ) (inner : σ) :
    Option Bytes :=
  match new inner (some (config.key, config.nonce)) none with
  | .error _ => none
  | .ok s =>
      match initializeLayer s with
      | .error _ _ => none
      | .ok () s =>
          match drain sizes fuel s with
          | some (out, .endOfStream, _) => some out
          | _ => none

theorem readChecked_eq_some {fuel : ℕ} :
    readChecked config sizes fuel inner = some out ↔
      ∃ s s' last, new inner (some (config.key, config.nonce)) none = .ok s ∧
        initializeLayer s = .ok () s' ∧
        drain sizes fuel s' = some (out, .endOfStream, last) := by
  rw [readChecked]
  cases hnew : new inner (some (config.key, config.nonce)) none with
  | error e => simp
  | ok s =>
      cases hinit : initializeLayer s with
      | error e s' => simp [hinit]
      | ok u s' =>
          rcases hdrain : drain sizes fuel s' with _ | ⟨bytes, stop, last⟩
          · simp [hinit, hdrain]
          · cases stop <;> simp [hinit, hdrain]

/-- The length of the stream leaves no plaintext, and its end is the final block of one chunk. -/
def PassesForEmpty (config : InternalEncryptionConfig) (P S : Bytes) : Prop :=
  (34 ≤ S.length ∧ S.length ≤ 58 ∨ S.length = 74) ∧ P.length ≤ 131072 ∧
    (S.drop (S.length - 34)).take 26 =
      InternalEncryptionConfig.sealWith (config.finalCipher 1) finalBlockContent

section Accepted

variable (hcursor : IsCursor True S At Live) (hS : S.length < i64Size) (hinner : At inner 0)
  (hsizes : ∀ i, 0 < sizes i) {all : ℕ} (hsize : plaintextSize S.length = some all)
  (hlen : 34 ≤ S.length)
  (hopens : finalBlockOpens config.key config.nonce (lastDataChunkNumber all + 2)
    (S.drop (S.length - 34)) = true)
include hcursor hS hinner hsizes hsize hlen hopens

/-- A stream whose first slot is there is accepted only with what it delivers. -/
theorem delivery_of_readChecked (hslot : slotOpened none config all S 0 ≠ .nothing) {fuel : ℕ}
    (h : readChecked config sizes fuel inner = some out) :
    Delivery (slotOpened none config all S) 0 out .endOfStream := by
  obtain ⟨s, s', last, hnew, hinit, hdrain⟩ := readChecked_eq_some.mp h
  obtain ⟨s₀, hnew', hready⟩ :=
    new_ready config hcursor.toDelivers hcursor.live hinner
  rw [hnew] at hnew'
  obtain rfl := Except.ok.inj hnew'
  obtain ⟨s₂, hbehind, hposition, hchunk, -, hfailed⟩ :=
    hready.initializeLayer_slot hcursor hS hsize hlen hopens
  cases hopen : slotOpened none config all S 0 with
  | nothing => exact absurd hopen hslot
  | failed e cache =>
      obtain ⟨e', s'', herror⟩ := hfailed e cache hopen
      rw [hinit] at herror
      cases herror
  | chunk cache =>
      rw [hchunk cache hopen] at hinit
      obtain ⟨-, rfl⟩ := EStateM.Result.ok.inj hinit
      obtain ⟨out', stop, hdelivery⟩ := Delivery.exists none config all S 0
      obtain ⟨fuel', last', hdrain'⟩ := drain_opened hcursor.toDelivers hS hsizes hbehind
        (Or.inl hposition) hopen hdelivery
      have hsame := drain_unique hdrain hdrain'
      obtain ⟨rfl, hstop⟩ := Prod.mk.inj hsame
      rwa [← (Prod.mk.inj hstop).1] at hdelivery

variable (config out) in
/-- A short stream whose first slot is missing is returned as it is, from behind the first head. -/
theorem readChecked_raw (hslot : slotOpened none config all S 0 = .nothing)
    (hshort : S.length < 131088) :
    (∃ fuel, readChecked config sizes fuel inner = some out) ↔ out = S.drop 16 := by
  obtain ⟨s, hnew, hready⟩ :=
    new_ready config hcursor.toDelivers hcursor.live hinner
  obtain ⟨s₂, hbehind, hposition, -, hnothing, -⟩ :=
    hready.initializeLayer_slot hcursor hS hsize hlen hopens
  have hinit := hnothing hslot
  have hall : S.take 131104 = S := List.take_of_length_le (by omega)
  rw [hall] at hinit
  obtain ⟨fuel, last, hdrain⟩ := drain_short (s := s₂.holding S) hsizes
    (by rwa [data_holding]) (by rw [pos_holding]; omega)
    (by rw [data_holding, position_holding, hposition, u64Size_eq]; omega)
  rw [data_holding, pos_holding] at hdrain
  constructor
  · rintro ⟨fuel', h⟩
    obtain ⟨s', s'', last', hnew', hinit', hdrain'⟩ := readChecked_eq_some.mp h
    rw [hnew] at hnew'
    obtain rfl := Except.ok.inj hnew'
    rw [hinit] at hinit'
    obtain ⟨-, rfl⟩ := EStateM.Result.ok.inj hinit'
    exact (Prod.mk.inj (drain_unique hdrain' hdrain)).1
  · rintro rfl
    exact ⟨fuel, readChecked_eq_some.mpr ⟨s, _, last, hnew, hinit, hdrain⟩⟩

end Accepted

/-- In the ideal world, what a reader returns from a stream that it accepts is the plaintext, if
and only if the stream does not pass for an empty one (or what it holds behind the first head
happens to be the plaintext). -/
theorem readChecked_eq_iff (hideal : config.Ideal P) (hP : P.length < i64Size)
    (hS : S.length < i64Size) (hcursor : IsCursor True S At Live)
    (hrefuses : RefusesBefore S Live) (hinner : At inner 0) (hsizes : ∀ i, 0 < sizes i) :
    (∀ fuel out, readChecked config sizes fuel inner = some out → out = P) ↔
      ¬ PassesForEmpty config P S ∨ S.drop 16 = P := by
  have hcount : chunkCount P + 1 < u64Size := by
    obtain ⟨hfirst, -, -⟩ := lastChunk_spec P
    rw [i64Size_eq] at hP
    rw [chunkCount_eq, u64Size_eq]
    omega
  have hfinal : ∀ {all}, plaintextSize S.length = some all → 34 ≤ S.length →
      (finalBlockOpens config.key config.nonce (lastDataChunkNumber all + 2)
        (S.drop (S.length - 34)) = true ↔
        lastDataChunkNumber all = lastChunk P ∧ (S.drop (S.length - 34)).take 26 =
          InternalEncryptionConfig.sealWith (config.finalCipher (chunkCount P))
            finalBlockContent) := by
    intro all hsize hlen
    have hall := plaintextSize_lt hsize
    have hnumber : lastDataChunkNumber all + 2 = chunkCount P + 1 ↔
        lastDataChunkNumber all = lastChunk P := by
      rw [chunkCount_eq]
      omega
    rw [hideal.final_iff ?_ hcount ?_, hnumber]
    · rw [u64Size_eq] at hall ⊢
      have := (lastDataChunkNumber_spec all).1
      omega
    · rw [List.length_drop]
      omega
  have hzero : lastDataChunkNumber 0 = 0 := rfl
  have hone : P.length ≤ 131072 → chunkCount P = 1 := by
    intro hle
    rw [chunkCount_eq, (lastChunk_eq_zero P).mpr hle]
  constructor
  · -- A stream that passes for an empty one is accepted, and returned as it is.
    intro h
    by_contra hnot
    rw [not_or, not_not] at hnot
    obtain ⟨⟨hlen, hle, hseal⟩, hne⟩ := hnot
    have hsize : plaintextSize S.length = some 0 := by
      rw [plaintextSize_short hlen]
    have hopens := (hfinal hsize (by omega)).mpr
      ⟨by rw [hzero, (lastChunk_eq_zero P).mpr hle], by rwa [hone hle]⟩
    have hraw := readChecked_raw (S.drop 16) config hcursor hS hinner hsizes
      hsize (by omega) hopens (slotOpened_behind (by decide) (Nat.zero_le _)) (by omega)
    obtain ⟨fuel, hread⟩ := hraw.mpr rfl
    exact hne (h fuel _ hread)
  · intro hcond fuel out hread
    obtain ⟨s, s', last, hnew, hinit, -⟩ := readChecked_eq_some.mp hread
    obtain ⟨s₀, hnew', hready⟩ :=
      new_ready config hcursor.toDelivers hcursor.live hinner
    rw [hnew] at hnew'
    obtain rfl := Except.ok.inj hnew'
    obtain ⟨all, hsize, hlen, hopens⟩ := hready.of_initializeLayer hcursor hrefuses hS hinit
    obtain ⟨hlast, hseal⟩ := (hfinal hsize hlen).mp hopens
    rcases Nat.eq_zero_or_pos all with rfl | hpos
    · have hle : P.length ≤ 131072 := (lastChunk_eq_zero P).mp (by rw [← hlast, hzero])
      have hshort := (plaintextSize_eq_zero hsize).mp rfl
      have hraw := readChecked_raw out config hcursor hS hinner hsizes hsize
        hlen hopens (slotOpened_behind (by decide) (Nat.zero_le _)) (by omega)
      rw [hraw.mp ⟨fuel, hread⟩]
      refine hcond.resolve_left (not_not_intro ⟨by omega, hle, ?_⟩)
      rwa [hone hle] at hseal
    · have hdelivery := delivery_of_readChecked hcursor hS hinner hsizes hsize hlen hopens
        (slotOpened_ne_nothing hS hsize hpos (Nat.zero_le _)) hread
      rw [hdelivery.ideal hideal hS hP hsize hlast hpos rfl (Nat.zero_le _), Nat.mul_zero,
        List.drop_zero]

end Reader

end InternalEncryptionLayerReader

namespace EmptyRun

/-! The run of the writer over the empty plaintext. -/

scoped instance cipher : AesGcm := idealCipher CountingCipher.config []

scoped instance patience : Patience where
  retries := 0

end EmptyRun

namespace InternalEncryptionLayerReader

section Empty

open scoped EmptyRun

def emptyStream : Cursor Error := ⟨CountingCipher.config.encBody [], 0⟩

theorem readChecked_eq_iff_empty :
    (∀ fuel out, readChecked CountingCipher.config (fun _ => 7) fuel emptyStream = some out →
      out = []) ↔
      ¬ PassesForEmpty CountingCipher.config [] emptyStream.data ∨ emptyStream.data.drop 16 = [] :=
  readChecked_eq_iff (idealCipher_ideal _ _) (by decide) (by decide)
    (Cursor.isCursor (by decide)) Cursor.refusesBefore ⟨⟨rfl, rfl⟩, Nat.zero_le _⟩
    (fun _ => by decide)

/-- The stream of the empty plaintext is accepted, and its own bytes are returned. -/
theorem empty_readChecked_raw :
    CountingCipher.config.Ideal [] ∧
      ¬ ∀ fuel out, readChecked CountingCipher.config (fun _ => 100) fuel emptyStream = some out →
        out = [] := by
  have hread : readChecked CountingCipher.config (fun _ => 100) 2 emptyStream =
      some (emptyStream.data.drop 16) := rfl
  refine ⟨idealCipher_ideal _ _, fun h => ?_⟩
  have hnil : emptyStream.data.drop 16 ≠ [] := by decide
  exact hnil (h 2 _ hread)

end Empty

end InternalEncryptionLayerReader

end Mla
