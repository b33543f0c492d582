import Mla.Layers.Encrypt.Recovery

/-!
# Recovery without authentication

In the other truncated mode no tag is checked, so that all that a slot may hold of the ciphertext
is decrypted, and sometimes more. What comes out of a slot depends on what is left of the stream
there: more than a full chunk and a final block (`Delivery.unauth_full`), less with the magic of
the final block in it (`Delivery.unauth_some`) or without (`Delivery.unauth_none`).

`returns_garbage_iff` tells exactly when at most 15 bytes of garbage follow the plaintext.
-/

namespace Mla

open Io

/-! ## Garbage -/

section Compare

variable {P out : Bytes}

/-- A front of the plaintext and at most 15 more bytes. -/
def UpToGarbage (P out : Bytes) : Prop :=
  ∃ Q G, out = Q ++ G ∧ Q <+: P ∧ G.length ≤ 15

/-- One is a front of the other. -/
def Comparable (a b : Bytes) : Prop := a <+: b ∨ b <+: a

theorem Comparable.isPrefix {a b : Bytes} (h : Comparable a b) (hlen : a.length ≤ b.length) :
    a <+: b := by
  rcases h with h | h
  · exact h
  · exact h.eq_of_length (le_antisymm h.length_le hlen) ▸ List.prefix_refl _

theorem Comparable.append_left {a b : Bytes} (h : Comparable a b) (front : Bytes) :
    Comparable (front ++ a) (front ++ b) := by
  rcases h with h | h
  · exact Or.inl ((List.prefix_append_right_inj front).mpr h)
  · exact Or.inr ((List.prefix_append_right_inj front).mpr h)

/-- What agrees with the plaintext as far as both go is only garbage where it is longer. -/
theorem Comparable.upToGarbage_iff (h : Comparable out P) :
    UpToGarbage P out ↔ out.length ≤ P.length + 15 := by
  constructor
  · rintro ⟨Q, G, rfl, hQ, hG⟩
    have := hQ.length_le
    rw [List.length_append]
    omega
  · intro hlen
    rcases h with h | ⟨G, rfl⟩
    · exact ⟨out, [], by simp, h, Nat.zero_le _⟩
    · rw [List.length_append] at hlen
      exact ⟨P, G, rfl, List.prefix_refl _, by omega⟩

end Compare

/-! ## What a slot delivers -/

section Slot

variable [AesGcm] {config : InternalEncryptionConfig} {S out : Bytes} {c e : ℕ} {stop : Stop}

theorem InternalEncryptionConfig.plaintext_isPrefix (c : ℕ) {a b : Bytes} (h : a <+: b) :
    config.plaintext c a <+: config.plaintext c b := by
  rw [List.prefix_iff_eq_take.mp h, InternalEncryptionConfig.plaintext_take]
  exact List.take_prefix _ _

/-- What is left of a stream that is too short for a slot with a final block behind it. -/
def tailData (config : InternalEncryptionConfig) (c : ℕ) (R : Bytes) : Bytes :=
  if windowPosition finalBlockMagic R = none then config.plaintext c (R.drop 16) else []

theorem tailData_eq_nil {R : Bytes} (hR : R.length ≤ 16) : tailData config c R = [] := by
  have hdrop : R.drop 16 = [] := List.drop_eq_nil_of_le hR
  rw [tailData, hdrop]
  split <;> rfl

theorem length_tailData_le (config : InternalEncryptionConfig) (c : ℕ) (R : Bytes) :
    (tailData config c R).length ≤ R.length - 16 := by
  rw [tailData]
  split
  · rw [InternalEncryptionConfig.length_plaintext, List.length_drop]
  · exact Nat.zero_le _

/-- A slot in which the tag is guessed to end where it can is delivered. -/
theorem Delivery.unauth_open (hc : c + 1 < u64Size)
    (hguess : guess .dataEvenUnauthenticated (S.drop (131104 * c)) = .ok e) (he : 32 ≤ e)
    (hle : e ≤ min 131104 (S.drop (131104 * c)).length + 16)
    (h : Delivery (slotOpened (some .dataEvenUnauthenticated) config 0 S) c out stop) :
    (e < 131104 → out = config.plaintext c (slice (S.drop (131104 * c)) 16 (e - 32))) ∧
      (131104 ≤ e → ∃ rest,
        out = config.plaintext c (slice (S.drop (131104 * c)) 16 131072) ++ rest ∧
        Delivery (slotOpened (some .dataEvenUnauthenticated) config 0 S) (c + 1) rest stop) := by
  have hopened : slotOpened (some .dataEvenUnauthenticated) config 0 S c =
      .chunk ((S.drop (131104 * c)).take 16 ++
        config.plaintext c (slice (S.drop (131104 * c)) 16 (e - 32))) := by
    rw [slotOpened_eq_openRest]
    exact openRest_unauthenticated hc hguess he hle
  generalize S.drop (131104 * c) = R at hle hopened ⊢
  have hlen : (slice R 16 (e - 32)).length = e - 32 := length_slice_of_le (by omega)
  have hcache : cacheData (R.take 16 ++ config.plaintext c (slice R 16 (e - 32))) =
      config.plaintext c (slice R 16 (min 131072 (e - 32))) := by
    have hhead : (R.take 16).length = 16 := by
      rw [List.length_take]
      omega
    rw [cacheData, chunkHeadSize_eq, normalChunkPtSize_eq, slice_append_right hhead.le, hhead,
      Nat.sub_self, slice_zero, ← InternalEncryptionConfig.plaintext_take, take_slice]
  have hdata := congrArg List.length hcache
  rw [InternalEncryptionConfig.length_plaintext, length_slice_of_le (by omega)] at hdata
  cases h with
  | nothing hopen => rw [hopen] at hopened; cases hopened
  | failed hopen => rw [hopen] at hopened; cases hopened
  | last hopen hlast =>
      rw [hopen] at hopened
      obtain rfl := Opened.chunk.inj hopened
      rw [normalChunkPtSize_eq, hdata] at hlast
      refine ⟨fun _ => ?_, fun hfull => by omega⟩
      rw [hcache, min_eq_right (by omega)]
  | full hopen hfull hrest =>
      rw [hopen] at hopened
      obtain rfl := Opened.chunk.inj hopened
      rw [normalChunkPtSize_eq, hdata] at hfull
      refine ⟨fun hshort => by omega, fun _ => ⟨_, ?_, hrest⟩⟩
      rw [hcache, min_eq_left (by omega)]

/-- A slot in which the tag is not guessed to end where it can delivers nothing. -/
theorem Delivery.unauth_closed
    (hguess : ∀ e, guess .dataEvenUnauthenticated (S.drop (131104 * c)) = .ok e →
      e < 32 ∨ min 131104 (S.drop (131104 * c)).length + 16 < e)
    (h : Delivery (slotOpened (some .dataEvenUnauthenticated) config 0 S) c out stop) :
    out = [] := by
  have hclosed : ∀ cache,
      slotOpened (some .dataEvenUnauthenticated) config 0 S c ≠ .chunk cache := by
    intro cache hopen
    rw [slotOpened_eq_openRest] at hopen
    cases hfound : guess .dataEvenUnauthenticated (S.drop (131104 * c)) with
    | error e =>
        rw [openRest_of_error hfound] at hopen
        cases hopen
    | ok e =>
        have := openRest_unauthenticated_ends hfound hopen
        have := hguess e hfound
        omega
  cases h with
  | nothing => rfl
  | failed => rfl
  | last hopen => exact absurd hopen (hclosed _)
  | full hopen => exact absurd hopen (hclosed _)

/-- A slot with more than a final block behind it is delivered whole. -/
theorem Delivery.unauth_full (hc : c + 1 < u64Size)
    (hR : 131139 ≤ (S.drop (131104 * c)).length)
    (h : Delivery (slotOpened (some .dataEvenUnauthenticated) config 0 S) c out stop) :
    ∃ rest, out = config.plaintext c (slice (S.drop (131104 * c)) 16 131072) ++ rest ∧
      Delivery (slotOpened (some .dataEvenUnauthenticated) config 0 S) (c + 1) rest stop :=
  (h.unauth_open hc (guess_full hR) (by omega) (by omega)).2 le_rfl

/-- What is left after the last slot that may hold a chunk. -/
theorem Delivery.unauth_tail (hc : c + 1 < u64Size) (hR : (S.drop (131104 * c)).length < 35)
    (h : Delivery (slotOpened (some .dataEvenUnauthenticated) config 0 S) c out stop) :
    out = tailData config c (S.drop (131104 * c)) := by
  by_cases hshort : (S.drop (131104 * c)).length < 16
  · rw [tailData_eq_nil hshort.le]
    refine h.unauth_closed fun e hguess => ?_
    rw [guess_short hshort] at hguess
    cases hguess
  have hguess := guess_scan .dataEvenUnauthenticated (R := S.drop (131104 * c))
    (by omega) (by omega)
  have htake : (S.drop (131104 * c)).take 131104 = S.drop (131104 * c) :=
    List.take_of_length_le (by omega)
  have hdrop : (S.drop (131104 * c)).drop 131104 = [] := List.drop_eq_nil_of_le (by omega)
  rw [htake, hdrop] at hguess
  cases hscan : finalBlockMagicScan (S.drop (131104 * c)) [] with
  | some pos =>
      rw [hscan] at hguess
      have hslice := finalBlockMagicScan_some hscan
      rw [List.append_nil] at hslice
      have hle := le_of_slice_magic hslice
      have hwindow : windowPosition finalBlockMagic (S.drop (131104 * c)) ≠ none := by
        rw [ne_eq, windowPosition_eq_none, length_finalBlockMagic]
        intro hnone
        exact hnone pos hle hslice
      rw [tailData, if_neg hwindow]
      refine h.unauth_closed fun e hfound => ?_
      rw [hguess] at hfound
      obtain rfl := Except.ok.inj hfound
      omega
  | none =>
      rw [hscan, if_pos rfl, min_eq_right (by omega)] at hguess
      have hwindow : windowPosition finalBlockMagic (S.drop (131104 * c)) = none := by
        rw [windowPosition_eq_none, length_finalBlockMagic]
        intro j _ hslice
        have hnone := finalBlockMagicScan_none (by rw [u64Size_eq, List.length_nil]; omega) hscan j
        rw [List.append_nil] at hnone
        exact hnone hslice
      rw [tailData, if_pos hwindow, (h.unauth_open hc hguess (by omega) (by omega)).1 (by omega),
        slice_eq_drop (by omega)]

/-- A slot with at most a final block behind it, and no magic. -/
theorem Delivery.unauth_none (hc : c + 2 < u64Size) (hR : (S.drop (131104 * c)).length < 131139)
    (hscan : finalBlockMagicScan ((S.drop (131104 * c)).take 131104)
      ((S.drop (131104 * c)).drop 131104) = none)
    (h : Delivery (slotOpened (some .dataEvenUnauthenticated) config 0 S) c out stop) :
    out = config.plaintext c (slice (S.drop (131104 * c)) 16 131072) ++
      tailData config (c + 1) ((S.drop (131104 * c)).drop 131104) := by
  by_cases hshort : (S.drop (131104 * c)).length < 16
  · have hdrop : (S.drop (131104 * c)).drop 131104 = [] := List.drop_eq_nil_of_le (by omega)
    rw [hdrop, slice_eq_nil_of_le hshort.le, tailData_eq_nil (Nat.zero_le _)]
    refine h.unauth_closed fun e hguess => ?_
    rw [guess_short hshort] at hguess
    cases hguess
  have hguess := guess_scan .dataEvenUnauthenticated (R := S.drop (131104 * c))
    (by omega) hR
  rw [hscan, if_pos rfl] at hguess
  obtain ⟨hlast, hfull⟩ := h.unauth_open (by omega) hguess (by omega) (by omega)
  by_cases hlen : (S.drop (131104 * c)).length < 131088
  · have hdrop : (S.drop (131104 * c)).drop 131104 = [] := List.drop_eq_nil_of_le (by omega)
    rw [hlast (by omega), hdrop, tailData_eq_nil (Nat.zero_le _), List.append_nil,
      slice_eq_drop (by omega), slice_eq_drop (by omega)]
  · obtain ⟨rest, hout, hrest⟩ := hfull (by omega)
    have hnext : S.drop (131104 * (c + 1)) = (S.drop (131104 * c)).drop 131104 := by
      rw [List.drop_drop, Nat.mul_succ]
    have htail := hrest.unauth_tail (by omega) (by rw [hnext, List.length_drop]; omega)
    rw [hout, htail, hnext]

/-- A slot with at most a final block behind it, and the magic at some place. -/
theorem Delivery.unauth_some {pos : ℕ} (hc : c + 2 < u64Size)
    (hR : (S.drop (131104 * c)).length < 131139)
    (hscan : finalBlockMagicScan ((S.drop (131104 * c)).take 131104)
      ((S.drop (131104 * c)).drop 131104) = some pos)
    (h : Delivery (slotOpened (some .dataEvenUnauthenticated) config 0 S) c out stop) :
    ∃ n ≤ min (pos - 32) 131072, out = config.plaintext c (slice (S.drop (131104 * c)) 16 n) ∧
      (pos ≤ min 131104 (S.drop (131104 * c)).length + 16 → n = min (pos - 32) 131072) := by
  have hslice := finalBlockMagicScan_some hscan
  rw [List.take_append_drop] at hslice
  have hle := le_of_slice_magic hslice
  by_cases hplace : 32 ≤ pos ∧ pos ≤ min 131104 (S.drop (131104 * c)).length + 16
  · have hguess := guess_scan .dataEvenUnauthenticated (R := S.drop (131104 * c))
      (by omega) hR
    rw [hscan] at hguess
    obtain ⟨hlast, hfull⟩ := h.unauth_open (by omega) hguess hplace.1 hplace.2
    refine ⟨min (pos - 32) 131072, le_rfl, ?_, fun _ => rfl⟩
    by_cases hshort : pos < 131104
    · rw [hlast hshort, min_eq_left (by omega)]
    · obtain ⟨rest, hout, hrest⟩ := hfull (by omega)
      have hnext : S.drop (131104 * (c + 1)) = (S.drop (131104 * c)).drop 131104 := by
        rw [List.drop_drop, Nat.mul_succ]
      have htail := hrest.unauth_tail (by omega) (by rw [hnext, List.length_drop]; omega)
      -- The magic that was found stands in the tail.
      have hwindow : windowPosition finalBlockMagic (S.drop (131104 * (c + 1))) ≠ none := by
        rw [ne_eq, windowPosition_eq_none, length_finalBlockMagic, hnext]
        intro hnone
        refine hnone (pos - 131104) (by rw [List.length_drop]; omega) ?_
        rw [slice_drop, Nat.add_sub_cancel' (by omega), hslice]
      rw [hout, htail, tailData, if_neg hwindow, List.append_nil, min_eq_right (by omega)]
  · refine ⟨0, Nat.zero_le _, ?_, fun hin => ?_⟩
    · rw [slice_zero_length]
      refine h.unauth_closed fun e hfound => ?_
      by_cases hshort : (S.drop (131104 * c)).length < 16
      · rw [guess_short hshort] at hfound
        cases hfound
      rw [guess_scan _ (by omega) hR, hscan] at hfound
      obtain rfl := Except.ok.inj hfound
      omega
    · have hnot : pos < 32 := by
        by_contra hge
        exact hplace ⟨by omega, hin⟩
      rw [Nat.sub_eq_zero_of_le hnot.le, Nat.zero_min]

end Slot

/-! ## What an honest stream holds -/

section Honest

open InternalEncryptionConfig (chunkHead)

variable [AesGcm] {config : InternalEncryptionConfig} {P S T R out : Bytes} {c m : ℕ} {stop : Stop}

/-- What is left of the stream at chunk `c` starts with the chunk. -/
theorem drop_isPrefix_encChunk (hpre : S <+: config.encBody P ++ T) (hc : c ≤ lastChunk P) :
    ∃ rest, S.drop (131104 * c) <+: config.encChunk c (chunkData P c) ++ rest := by
  have hdrop : S.drop (131104 * c) <+: (config.encBody P ++ T).drop (131104 * c) := by
    obtain ⟨t, ht⟩ := hpre
    rw [← ht, List.drop_append]
    exact List.prefix_append _ _
  rcases Nat.lt_or_eq_of_le hc with hlt | rfl
  · rw [drop_eq_slice_append (config.encBody P ++ T) (131104 * c) 131104,
      config.slice_encBody_of_lt hlt] at hdrop
    exact ⟨_, hdrop⟩
  · rw [config.drop_encBody, List.append_assoc] at hdrop
    exact ⟨_, hdrop⟩

/-- Decrypting what follows the head agrees with the plaintext of the chunk. -/
theorem comparable_chunkData (hpre : S <+: config.encBody P ++ T) (hc : c ≤ lastChunk P)
    (n : ℕ) :
    Comparable (config.plaintext c (slice (S.drop (131104 * c)) 16 n)) (chunkData P c) := by
  obtain ⟨rest, hrest⟩ := drop_isPrefix_encChunk hpre hc
  have hdrop : (S.drop (131104 * c)).drop 16 <+:
      config.chunkCt c (chunkData P c) ++ (config.chunkTag c (chunkData P c) ++ rest) := by
    obtain ⟨t, ht⟩ := hrest
    have hcut := congrArg (List.drop 16) ht
    rw [InternalEncryptionConfig.encChunk_eq, List.append_assoc, List.append_assoc,
      List.drop_left' (InternalEncryptionConfig.length_chunkHead c), List.drop_append] at hcut
    rw [← hcut]
    exact List.prefix_append _ _
  have hdata : chunkData P c <+: config.plaintext c
      (config.chunkCt c (chunkData P c) ++ (config.chunkTag c (chunkData P c) ++ rest)) := by
    have h := config.plaintext_isPrefix c (List.prefix_append (config.chunkCt c (chunkData P c))
      (config.chunkTag c (chunkData P c) ++ rest))
    rwa [InternalEncryptionConfig.plaintext_chunkCt] at h
  exact List.prefix_or_prefix_of_prefix
    (config.plaintext_isPrefix c ((List.take_prefix n _).trans hdrop)) hdata

/-- It agrees with the plaintext from there on. -/
theorem comparable_drop (hpre : S <+: config.encBody P ++ T) (hc : c ≤ lastChunk P) {n : ℕ}
    (hn : n ≤ 131072) :
    Comparable (config.plaintext c (slice (S.drop (131104 * c)) 16 n)) (P.drop (131072 * c)) := by
  obtain ⟨hlast, hle, -⟩ := lastChunk_spec P
  have hcompare := comparable_chunkData hpre hc n
  have hfront : chunkData P c <+: P.drop (131072 * c) := by
    rw [chunkData, normalChunkPtSize_eq]
    exact List.take_prefix _ _
  rcases Nat.lt_or_eq_of_le hc with hlt | rfl
  · refine Or.inl ((hcompare.isPrefix ?_).trans hfront)
    rw [InternalEncryptionConfig.length_plaintext, length_slice, length_chunkData_of_lt hlt]
    omega
  · have hall : chunkData P (lastChunk P) = P.drop (131072 * lastChunk P) := by
      rw [chunkData, normalChunkPtSize_eq, slice_eq_drop (by omega)]
    rwa [hall] at hcompare

/-- The magic stands behind the last chunk, as far as the stream goes. -/
theorem slice_drop_lastChunk (hpre : S <+: config.encBody P ++ T)
    (hm : P.length = 131072 * lastChunk P + m)
    (hlen : m + 40 ≤ (S.drop (131104 * lastChunk P)).length) :
    slice (S.drop (131104 * lastChunk P)) (m + 32) 8 = finalBlockMagic := by
  rw [List.length_drop] at hlen
  rw [slice_drop, isPrefix_slice_of_isPrefix hpre (by omega), ← slice_drop,
    slice_behind_lastChunk config T hm]

/-! ## Where too much is decrypted -/

/-- The number of bytes of plaintext in the last chunk. -/
def lastSize (P : Bytes) : ℕ := P.length - 131072 * lastChunk P

omit [AesGcm] in
theorem lastSize_spec (P : Bytes) :
    P.length = 131072 * lastChunk P + lastSize P ∧ lastSize P ≤ 131072 := by
  obtain ⟨hlast, hle, -⟩ := lastChunk_spec P
  rw [lastSize]
  omega

/-- The stream is cut behind the last tag, before the end of the magic: the tag is decrypted. -/
def CutBehindTag (P S : Bytes) : Prop :=
  let R := S.drop (131104 * lastChunk P)
  lastSize P < 131057 ∧ lastSize P + 32 ≤ R.length ∧ R.length < lastSize P + 40 ∧
    windowPosition finalBlockMagic R = none ∧
      (R.length < 35 → lastChunk P = 0 ∨
        finalBlockMagicScan (slice S (131104 * (lastChunk P - 1)) 131104) R = none)

/-- So much follows the last chunk that it is taken for a full one. -/
def TakenForFull (P S : Bytes) : Prop :=
  let R := S.drop (131104 * lastChunk P)
  let R' := R.drop 131104
  lastSize P < 131072 ∧ 131139 ≤ R.length ∧
    (lastSize P < 131057 ∨ ∃ e, guess .dataEvenUnauthenticated R' = .ok e ∧ 32 ≤ e ∧
      e ≤ min 131104 R'.length + 16 ∧ 16 ≤ 131072 - lastSize P + (e - 32))

/-- The last chunk is a full one, and so much follows it that this is taken for another. -/
def FollowedByFull (P S : Bytes) : Prop :=
  lastSize P = 131072 ∧ 262243 ≤ (S.drop (131104 * lastChunk P)).length

def Overruns (P S : Bytes) : Prop :=
  CutBehindTag P S ∨ TakenForFull P S ∨ FollowedByFull P S

omit [AesGcm] in
/-- A stream that ends with at most a final block in the slot of the last chunk overruns only when
it is cut behind the last tag. -/
theorem overruns_iff_of_short (hR : (S.drop (131104 * lastChunk P)).length < 131139) :
    Overruns P S ↔ CutBehindTag P S := by
  constructor
  · rintro (h | ⟨-, hlong, -⟩ | ⟨-, hlong⟩)
    · exact h
    · omega
    · omega
  · exact Or.inl

/-! ### In the slot of the last chunk -/

section Last

variable (hpre : S <+: config.encBody P ++ T) (hc : lastChunk P + 2 < u64Size)
include hpre hc

/-- Where the magic is found in the slot of the last chunk, almost no garbage comes out. -/
theorem Delivery.last_some {pos : ℕ} (hR : (S.drop (131104 * lastChunk P)).length < 131139)
    (hscan : finalBlockMagicScan ((S.drop (131104 * lastChunk P)).take 131104)
      ((S.drop (131104 * lastChunk P)).drop 131104) = some pos)
    (h : Delivery (slotOpened (some .dataEvenUnauthenticated) config 0 S) (lastChunk P) out stop) :
    Comparable out (P.drop (131072 * lastChunk P)) ∧ out.length ≤ lastSize P + 15 := by
  obtain ⟨hm, -⟩ := lastSize_spec P
  obtain ⟨n, hn, rfl, -⟩ := h.unauth_some hc hR hscan
  refine ⟨comparable_drop hpre le_rfl (by omega), ?_⟩
  rw [InternalEncryptionConfig.length_plaintext, length_slice]
  by_cases hpos : pos ≤ lastSize P + 32
  · omega
  · have hslice := finalBlockMagicScan_some hscan
    rw [List.take_append_drop] at hslice
    have hle := le_of_slice_magic hslice
    have hmagic := slice_drop_lastChunk hpre hm (by omega)
    -- The magic behind the chunk was not found first, so that it crosses the end of the slot.
    by_cases hcross : lastSize P + 40 ≤ 131104
    · have hfirst := finalBlockMagicScan_le hscan (j := lastSize P + 32)
        (by rw [List.length_take]; omega)
        (by rw [← slice_zero, slice_slice_of_le (by omega), Nat.zero_add, hmagic])
      omega
    · omega

/-- Where no magic is found, the stream is cut before the end of it. -/
theorem Delivery.last_none (hR : (S.drop (131104 * lastChunk P)).length < 131139)
    (hscan : finalBlockMagicScan ((S.drop (131104 * lastChunk P)).take 131104)
      ((S.drop (131104 * lastChunk P)).drop 131104) = none)
    (h : Delivery (slotOpened (some .dataEvenUnauthenticated) config 0 S) (lastChunk P) out stop) :
    Comparable out (P.drop (131072 * lastChunk P)) ∧
      out.length = min 131072 ((S.drop (131104 * lastChunk P)).length - 16) ∧
      (S.drop (131104 * lastChunk P)).length < lastSize P + 40 := by
  obtain ⟨hm, hle⟩ := lastSize_spec P
  have hcut : (S.drop (131104 * lastChunk P)).length < lastSize P + 40 := by
    by_contra hlong
    have hmagic := slice_drop_lastChunk hpre hm (by omega)
    refine finalBlockMagicScan_none ?_ hscan (lastSize P + 32) ?_
    · rw [← List.length_append, List.take_append_drop, u64Size_eq]
      omega
    · rw [List.take_append_drop, hmagic]
  have hout := h.unauth_none hc hR hscan
  rw [tailData_eq_nil (by rw [List.length_drop]; omega), List.append_nil] at hout
  refine ⟨?_, ?_, hcut⟩
  · rw [hout]
    exact comparable_drop hpre le_rfl le_rfl
  · rw [hout, InternalEncryptionConfig.length_plaintext, length_slice]

/-- Where the chunk is taken for a full one, a whole slot is decrypted and the next one comes. -/
theorem Delivery.last_full (hR : 131139 ≤ (S.drop (131104 * lastChunk P)).length)
    (h : Delivery (slotOpened (some .dataEvenUnauthenticated) config 0 S) (lastChunk P) out stop) :
    Comparable out (P.drop (131072 * lastChunk P)) ∧
      ∃ rest, out.length = 131072 + rest.length ∧
        Delivery (slotOpened (some .dataEvenUnauthenticated) config 0 S) (lastChunk P + 1) rest
          stop := by
  obtain ⟨hm, hle⟩ := lastSize_spec P
  obtain ⟨rest, rfl, hrest⟩ := h.unauth_full (by omega) hR
  have hlen : (config.plaintext (lastChunk P)
      (slice (S.drop (131104 * lastChunk P)) 16 131072)).length = 131072 := by
    rw [InternalEncryptionConfig.length_plaintext, length_slice]
    omega
  have hcompare : Comparable (P.drop (131072 * lastChunk P)) _ :=
    (comparable_drop hpre le_rfl le_rfl).symm
  have hfront := hcompare.isPrefix (by rw [hlen, List.length_drop]; omega)
  refine ⟨Or.inr (hfront.trans (List.prefix_append _ _)), rest, ?_, hrest⟩
  rw [List.length_append, hlen]

end Last

/-- Whether more than `x` bytes short of 16 come out of a slot. -/
theorem Delivery.length_iff {x : ℕ} (hc : c + 1 < u64Size) (hx : x < 16)
    (h : Delivery (slotOpened (some .dataEvenUnauthenticated) config 0 S) c out stop) :
    16 ≤ x + out.length ↔
      ∃ e, guess .dataEvenUnauthenticated (S.drop (131104 * c)) = .ok e ∧ 32 ≤ e ∧
        e ≤ min 131104 (S.drop (131104 * c)).length + 16 ∧ 16 ≤ x + (e - 32) := by
  by_cases hopen : ∃ e, guess .dataEvenUnauthenticated (S.drop (131104 * c)) = .ok e ∧ 32 ≤ e ∧
      e ≤ min 131104 (S.drop (131104 * c)).length + 16
  · obtain ⟨e, hguess, he, hle⟩ := hopen
    have hiff : 16 ≤ x + out.length ↔ 16 ≤ x + (e - 32) := by
      obtain ⟨hlast, hfull⟩ := h.unauth_open hc hguess he hle
      by_cases hshort : e < 131104
      · rw [hlast hshort, InternalEncryptionConfig.length_plaintext,
          length_slice_of_le (by omega)]
      · obtain ⟨rest, hout, -⟩ := hfull (by omega)
        rw [hout, List.length_append, InternalEncryptionConfig.length_plaintext,
          length_slice_of_le (by omega)]
        omega
    rw [hiff]
    constructor
    · intro h16
      exact ⟨e, hguess, he, hle, h16⟩
    · rintro ⟨e', hguess', -, -, h16⟩
      rw [hguess] at hguess'
      obtain rfl := Except.ok.inj hguess'
      exact h16
  · have hnil := h.unauth_closed fun e hguess => by
      by_contra hin
      exact hopen ⟨e, hguess, by omega, by omega⟩
    refine iff_of_false ?_ ?_
    · rw [hnil, List.length_nil]
      omega
    · rintro ⟨e, hguess, he, hle, -⟩
      exact hopen ⟨e, hguess, he, hle⟩

/-- Behind a last chunk of full size, the final block leaves no chunk. -/
theorem Delivery.behind_full (hpre : S <+: config.encBody P ++ T)
    (hc : lastChunk P + 3 < u64Size) (hm : lastSize P = 131072)
    (hR : 131139 ≤ (S.drop (131104 * lastChunk P)).length)
    (h : Delivery (slotOpened (some .dataEvenUnauthenticated) config 0 S) (lastChunk P + 1) out
      stop) :
    16 ≤ out.length ↔ 262243 ≤ (S.drop (131104 * lastChunk P)).length := by
  have hnext : S.drop (131104 * (lastChunk P + 1)) =
      (S.drop (131104 * lastChunk P)).drop 131104 := by
    rw [List.drop_drop, Nat.mul_succ]
  have hlen : (S.drop (131104 * (lastChunk P + 1))).length =
      (S.drop (131104 * lastChunk P)).length - 131104 := by
    rw [hnext, List.length_drop]
  obtain ⟨hsize, -⟩ := lastSize_spec P
  by_cases hlong : 131139 ≤ (S.drop (131104 * (lastChunk P + 1))).length
  · obtain ⟨rest, rfl, -⟩ := h.unauth_full (by omega) hlong
    refine iff_of_true ?_ (by omega)
    rw [List.length_append, InternalEncryptionConfig.length_plaintext,
      length_slice_of_le (by omega)]
    omega
  · have hmagic : slice (S.drop (131104 * (lastChunk P + 1))) 0 8 = finalBlockMagic := by
      have hslice := slice_drop_lastChunk hpre hsize (by omega)
      rw [hm] at hslice
      rw [hnext, slice_drop]
      exact hslice
    have hfirst : slice ((S.drop (131104 * (lastChunk P + 1))).take 131104) 0 8 =
        finalBlockMagic := by
      rw [← slice_zero, slice_slice_of_le (by omega), Nat.zero_add, hmagic]
    refine iff_of_false ?_ (by omega)
    cases hscan : finalBlockMagicScan ((S.drop (131104 * (lastChunk P + 1))).take 131104)
        ((S.drop (131104 * (lastChunk P + 1))).drop 131104) with
    | none =>
        refine absurd ?_ (finalBlockMagicScan_none ?_ hscan 0)
        · rw [List.take_append_drop, hmagic]
        · rw [← List.length_append, List.take_append_drop, u64Size_eq]
          omega
    | some pos =>
        have hpos := finalBlockMagicScan_le hscan (j := 0) (by rw [List.length_take]; omega) hfirst
        obtain ⟨n, hn, rfl, -⟩ := h.unauth_some (by omega) (by omega) hscan
        rw [InternalEncryptionConfig.length_plaintext, length_slice]
        omega

/-- What the slot of the last chunk delivers, when it is reached. -/
theorem Delivery.overruns_last (hpre : S <+: config.encBody P ++ T)
    (hc : lastChunk P + 3 < u64Size)
    (hreach : 35 ≤ (S.drop (131104 * lastChunk P)).length ∨ lastChunk P = 0)
    (h : Delivery (slotOpened (some .dataEvenUnauthenticated) config 0 S) (lastChunk P) out stop) :
    Comparable out (P.drop (131072 * lastChunk P)) ∧
      (lastSize P + 16 ≤ out.length ↔ Overruns P S) := by
  obtain ⟨hm, hle⟩ := lastSize_spec P
  by_cases hR : (S.drop (131104 * lastChunk P)).length < 131139
  · rw [overruns_iff_of_short hR]
    cases hscan : finalBlockMagicScan ((S.drop (131104 * lastChunk P)).take 131104)
        ((S.drop (131104 * lastChunk P)).drop 131104) with
    | some pos =>
        obtain ⟨hcompare, hlen⟩ := h.last_some hpre (by omega) hR hscan
        refine ⟨hcompare, iff_of_false (by omega) ?_⟩
        rintro ⟨-, -, -, hwindow, -⟩
        have hslice := finalBlockMagicScan_some hscan
        rw [List.take_append_drop] at hslice
        rw [windowPosition_eq_none] at hwindow
        exact hwindow pos (le_of_slice_eq (by decide) hslice) hslice
    | none =>
        obtain ⟨hcompare, hlen, hcut⟩ := h.last_none hpre (by omega) hR hscan
        refine ⟨hcompare, ?_⟩
        rw [hlen]
        constructor
        · intro hlong
          refine ⟨by omega, by omega, hcut, ?_, fun hshort => Or.inl ?_⟩
          · rw [windowPosition_eq_none, length_finalBlockMagic]
            intro j _ hslice
            refine finalBlockMagicScan_none ?_ hscan j ?_
            · rw [← List.length_append, List.take_append_drop, u64Size_eq]
              omega
            · rw [List.take_append_drop, hslice]
          · exact hreach.resolve_left (by omega)
        · rintro ⟨hsize, hbehind, -, -, -⟩
          omega
  · obtain ⟨hcompare, rest, hlen, hrest⟩ := h.last_full hpre (by omega) (by omega)
    have hnext : S.drop (131104 * (lastChunk P + 1)) =
        (S.drop (131104 * lastChunk P)).drop 131104 := by
      rw [List.drop_drop, Nat.mul_succ]
    refine ⟨hcompare, ?_⟩
    rw [hlen]
    by_cases hfull : lastSize P = 131072
    · have hbehind := hrest.behind_full hpre hc hfull (by omega)
      constructor
      · intro hlong
        exact Or.inr (Or.inr ⟨hfull, hbehind.mp (by omega)⟩)
      · rintro (⟨-, -, hcut, -⟩ | ⟨hlt, -⟩ | ⟨-, hlong⟩)
        · omega
        · omega
        · have := hbehind.mpr hlong
          omega
    · by_cases hsize : lastSize P < 131057
      · exact iff_of_true (by omega) (Or.inr (Or.inl ⟨by omega, by omega, Or.inl hsize⟩))
      · have hiff := hrest.length_iff (x := 131072 - lastSize P) (by omega) (by omega)
        rw [hnext] at hiff
        constructor
        · intro hlong
          exact Or.inr (Or.inl ⟨by omega, by omega, Or.inr (hiff.mp (by omega))⟩)
        · rintro (⟨hlt, -⟩ | ⟨-, -, hlt | hguess⟩ | ⟨hsize', -⟩)
          · omega
          · omega
          · have := hiff.mpr hguess
            omega
          · omega

/-! ### Before the slot of the last chunk -/

theorem comparable_tailData (hpre : S <+: config.encBody P ++ T) (hc : c ≤ lastChunk P)
    (hR : (S.drop (131104 * c)).length < 35) :
    Comparable (tailData config c (S.drop (131104 * c))) (P.drop (131072 * c)) := by
  rw [tailData]
  split
  · rw [← slice_eq_drop (l := S.drop (131104 * c)) (p := 16) (k := 131072) (by omega)]
    exact comparable_drop hpre hc le_rfl
  · exact Or.inl List.nil_prefix

omit [AesGcm] in
/-- A stream without a whole head and tag in the last slot does not overrun. -/
theorem not_overruns_of_length (hR : (S.drop (131104 * lastChunk P)).length < 32) :
    ¬ Overruns P S := by
  rintro (⟨-, hbehind, -⟩ | ⟨-, hlong, -⟩ | ⟨-, hlong⟩) <;> omega

/-- A stream that ends in the slot before the last one, or just behind it. -/
theorem Delivery.overruns_before (hpre : S <+: config.encBody P ++ T)
    (hc : lastChunk P + 3 < u64Size) (hlt : c < lastChunk P)
    (hR : (S.drop (131104 * c)).length < 131139)
    (h : Delivery (slotOpened (some .dataEvenUnauthenticated) config 0 S) c out stop) :
    Comparable out (P.drop (131072 * c)) ∧
      (P.length + 16 ≤ 131072 * c + out.length ↔ Overruns P S) := by
  obtain ⟨hm, -⟩ := lastSize_spec P
  obtain ⟨hlast, -, hne⟩ := lastChunk_spec P
  have hlen := hR
  rw [List.length_drop] at hlen
  have hrest : (S.drop (131104 * lastChunk P)).length = S.length - 131104 * lastChunk P :=
    List.length_drop
  have hnext : S.drop (131104 * (c + 1)) = (S.drop (131104 * c)).drop 131104 := by
    rw [List.drop_drop, Nat.mul_succ]
  have hempty : c + 1 < lastChunk P → ¬ Overruns P S := fun hfar =>
    not_overruns_of_length (by rw [hrest]; omega)
  cases hscan : finalBlockMagicScan ((S.drop (131104 * c)).take 131104)
      ((S.drop (131104 * c)).drop 131104) with
  | some pos =>
      obtain ⟨n, hn, rfl, -⟩ := h.unauth_some (by omega) hR hscan
      refine ⟨comparable_drop hpre hlt.le (by omega), iff_of_false ?_ ?_⟩
      · rw [InternalEncryptionConfig.length_plaintext, length_slice]
        omega
      · by_cases hfar : c + 1 < lastChunk P
        · exact hempty hfar
        · obtain hnear : lastChunk P = c + 1 := by omega
          rw [overruns_iff_of_short (by rw [hrest, hnear, Nat.mul_succ]; omega)]
          rintro ⟨-, -, -, -, hreach⟩
          rcases hreach (by rw [hrest, hnear, Nat.mul_succ]; omega) with hzero | hnone
          · omega
          · rw [hnear, Nat.add_sub_cancel, hnext, slice, hscan] at hnone
            cases hnone
  | none =>
      have hout := h.unauth_none (by omega) hR hscan
      by_cases hshort : (S.drop (131104 * c)).length ≤ 131120
      · rw [tailData_eq_nil (by rw [List.length_drop]; omega), List.append_nil] at hout
        rw [hout]
        refine ⟨comparable_drop hpre hlt.le le_rfl, iff_of_false ?_ ?_⟩
        · rw [InternalEncryptionConfig.length_plaintext, length_slice]
          omega
        · rw [List.length_drop] at hshort
          refine not_overruns_of_length ?_
          rw [hrest]
          omega
      · have hdata : (config.plaintext c (slice (S.drop (131104 * c)) 16 131072)).length =
            131072 := by
          rw [InternalEncryptionConfig.length_plaintext, length_slice]
          omega
        have hcompare : Comparable (config.plaintext c (slice (S.drop (131104 * c)) 16 131072))
            (P.drop (131072 * c)) := comparable_drop hpre hlt.le le_rfl
        obtain ⟨rest, hfront⟩ := hcompare.isPrefix (by rw [hdata, List.length_drop]; omega)
        have hbehind : rest = P.drop (131072 * (c + 1)) := by
          rw [Nat.mul_succ, ← List.drop_drop, ← hfront, List.drop_left' hdata]
        rw [← hnext] at hout
        have htail : (S.drop (131104 * (c + 1))).length < 35 := by
          rw [hnext, List.length_drop]
          omega
        refine ⟨?_, ?_⟩
        · rw [hout, ← hfront, hbehind]
          exact (comparable_tailData hpre hlt htail).append_left _
        rw [hout, List.length_append, hdata]
        have htailLen := length_tailData_le config (c + 1) (S.drop (131104 * (c + 1)))
        by_cases hfar : c + 1 < lastChunk P
        · exact iff_of_false (by omega) (hempty hfar)
        · obtain hnear : c + 1 = lastChunk P := by omega
          rw [hnear] at htail htailLen hnext ⊢
          rw [overruns_iff_of_short (by omega)]
          constructor
          · intro hlong
            refine ⟨by omega, by omega, by omega, ?_, fun _ => Or.inr ?_⟩
            · by_contra hwindow
              rw [tailData, if_neg hwindow, List.length_nil] at hlong
              omega
            · rw [← hnear, Nat.add_sub_cancel, hnear, hnext]
              exact hscan
          · rintro ⟨-, hlong, -, hwindow, -⟩
            rw [tailData, if_pos hwindow, InternalEncryptionConfig.length_plaintext,
              List.length_drop]
            omega

/-- What a stream delivers agrees with the plaintext as far as both go, and is at most 15 bytes
longer unless it overruns. -/
theorem Delivery.overruns (hpre : S <+: config.encBody P ++ T)
    (hlen : (config.encBody P ++ T).length < i64Size) :
    ∃ out stop, Delivery (slotOpened (some .dataEvenUnauthenticated) config 0 S) 0 out stop ∧
      Comparable out P ∧ (P.length + 16 ≤ out.length ↔ Overruns P S) := by
  obtain ⟨hlast, hle, -⟩ := lastChunk_spec P
  obtain ⟨hm, -⟩ := lastSize_spec P
  have hS : S.length < i64Size := lt_of_le_of_lt hpre.length_le hlen
  have hc : lastChunk P + 3 < u64Size := by
    rw [List.length_append, InternalEncryptionConfig.length_encBody, i64Size_eq] at hlen
    rw [u64Size_eq]
    omega
  -- The first slot that is followed by at most a final block, or the one of the last chunk.
  obtain ⟨n, hn⟩ : ∃ n, n = min ((S.length - 35) / 131104) (lastChunk P) := ⟨_, rfl⟩
  obtain ⟨rest, stop, hrest⟩ :=
    Delivery.exists (some .dataEvenUnauthenticated) config 0 S n
  have hfront := Delivery.front (P := P) (n := n) (c := 0)
    (fun i _ hi => slotOpened_full hpre hS (Or.inl rfl) (by omega) (by omega)) (by omega)
    (by rwa [Nat.zero_add])
  rw [Nat.mul_zero, slice_zero] at hfront
  have hslot : Comparable rest (P.drop (131072 * n)) ∧
      (P.length + 16 ≤ 131072 * n + rest.length ↔ Overruns P S) := by
    by_cases hlt : (S.length - 35) / 131104 < lastChunk P
    · exact hrest.overruns_before hpre hc (by omega) (by rw [List.length_drop]; omega)
    · obtain rfl : n = lastChunk P := by omega
      obtain ⟨hcompare, hiff⟩ := hrest.overruns_last hpre hc
        (by rw [List.length_drop]; omega)
      refine ⟨hcompare, ?_⟩
      rw [← hiff]
      omega
  refine ⟨_, stop, hfront, ?_, ?_⟩
  · have h := hslot.1.append_left (P.take (131072 * n))
    rwa [List.take_append_drop] at h
  · rw [List.length_append, List.length_take, min_eq_left (by omega)]
    exact hslot.2

end Honest

section Recover

open EncryptionLayerTruncatedReader (Returns returns_delivery returns_raw)

variable {σ : Type} [Patience] [AesGcm] [Read Error σ] {config : InternalEncryptionConfig}
  {P S T : Bytes} {At : σ → ℕ → Prop} {inner : σ} {sizes : ℕ → ℕ}

/-- When the first chunk is hidden, the stream itself comes out. -/
theorem EncryptionLayerTruncatedReader.returns_hidden (config : InternalEncryptionConfig)
    (hS : S.length < i64Size)
    (hpre : S <+: config.encBody P ++ T) (hhidden : FirstChunkHidden S)
    (hdelivers : Delivers True S At) (hinner : At inner 0) (hsizes : ∀ i, 0 < sizes i) :
    Returns .dataEvenUnauthenticated config sizes inner
      (S.take 131088 ++ tailData config 1 (S.drop 131104)) := by
  have hshort := hhidden.2.1
  obtain ⟨rest, hreturns, hnone, hrest⟩ := returns_raw hdelivers hS hinner hsizes
    ((slotOpened_zero_eq_nothing _ config (take_isPrefix_chunkHead hpre)).mpr hhidden)
  have htail : rest = tailData config 1 (S.drop 131104) := by
    by_cases hfirst : S.length < 131088
    · rw [hnone hfirst, tailData_eq_nil (by rw [List.length_drop]; omega)]
    · obtain ⟨stop, hdelivery⟩ := hrest (by omega)
      exact hdelivery.unauth_tail (by rw [u64Size_eq]; omega) (by rw [List.length_drop]; omega)
  rwa [← htail]

/-- Without authentication, the reader over a cut of the stream and of what follows it returns a
front of the plaintext and at most 15 bytes of garbage if and only if it does not overrun the last
chunk (or, when the first chunk is hidden, the stream itself happens to be such a string). -/
theorem EncryptionLayerTruncatedReader.returns_garbage_iff
    (hlen : (config.encBody P ++ T).length < i64Size) (hpre : S <+: config.encBody P ++ T)
    (hdelivers : Delivers True S At) (hinner : At inner 0) (hsizes : ∀ i, 0 < sizes i) :
    (∃ out, Returns .dataEvenUnauthenticated config sizes inner out ∧ UpToGarbage P out) ↔
      if FirstChunkHidden S then
        UpToGarbage P (S.take 131088 ++ tailData config 1 (S.drop 131104))
      else ¬ Overruns P S := by
  have hS : S.length < i64Size := lt_of_le_of_lt hpre.length_le hlen
  by_cases hhidden : FirstChunkHidden S
  · rw [if_pos hhidden]
    have hreturns := EncryptionLayerTruncatedReader.returns_hidden config hS hpre hhidden hdelivers
      hinner hsizes
    constructor
    · rintro ⟨out, hout, hgarbage⟩
      rwa [hreturns.unique hout]
    · exact fun hgarbage => ⟨_, hreturns, hgarbage⟩
  · rw [if_neg hhidden]
    obtain ⟨out, stop, hdelivery, hcompare, hiff⟩ := Delivery.overruns hpre hlen
    have hreturns := returns_delivery hdelivers hS hinner hsizes hdelivery fun hnothing =>
      hhidden ((slotOpened_zero_eq_nothing _ config (take_isPrefix_chunkHead hpre)).mp hnothing)
    rw [← hiff, Nat.not_le, Nat.lt_succ_iff, ← hcompare.upToGarbage_iff]
    constructor
    · rintro ⟨out', hout', hgarbage⟩
      rwa [hreturns.unique hout']
    · exact fun hgarbage => ⟨out, hreturns, hgarbage⟩

end Recover

section Cut

open EncryptionLayerTruncatedReader (Returns recover)
open scoped CountingCipher
open CountingCipher (config)

/-- The front of a short stream, `n` bytes long. -/
def sevenFront (n : ℕ) : Cursor Error :=
  ⟨(config.encBody [7]).take n, 0⟩

theorem EncryptionLayerTruncatedReader.returns_garbage_iff_seven :
    (∃ out, Returns .dataEvenUnauthenticated config (fun _ => 7) (sevenFront 20) out ∧
      UpToGarbage [7] out) ↔
      if FirstChunkHidden (sevenFront 20).data then
        UpToGarbage [7] ((sevenFront 20).data.take 131088 ++
          tailData config 1 ((sevenFront 20).data.drop 131104))
      else ¬ Overruns [7] (sevenFront 20).data :=
  EncryptionLayerTruncatedReader.returns_garbage_iff (T := []) (by decide)
    (by rw [List.append_nil]; exact List.take_prefix _ _)
    (Cursor.isCursor (by decide)).toDelivers ⟨⟨rfl, rfl⟩, Nat.zero_le _⟩
    (fun _ => by decide)

/-- Cut right behind the last tag, the stream gives the tag out as data. -/
theorem sevenFront_tag_returned :
    (sevenFront 33).data <+: config.encBody [7] ∧
      ¬ ∃ out, Returns .dataEvenUnauthenticated config (fun _ => 32) (sevenFront 33) out ∧
        UpToGarbage [7] out := by
  have hrecover : recover .dataEvenUnauthenticated config (fun _ => 32) 2 (sevenFront 33) =
      some (7 :: List.replicate 16 1, .endOfStream) := rfl
  refine ⟨List.take_prefix _ _, ?_⟩
  rintro ⟨out, hout, Q, G, hsplit, hQ, hG⟩
  obtain rfl := hout.unique ⟨2, _, hrecover⟩
  have hlen := congrArg List.length hsplit
  have hfront := hQ.length_le
  rw [List.length_append] at hlen
  simp only [List.length_cons, List.length_replicate, List.length_nil] at hlen hfront
  omega

end Cut

end Mla
