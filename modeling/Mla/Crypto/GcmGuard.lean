import Mla.Crypto.Gcm

/-!
# The bound on a message

The counter of GCM has 32 bits, behind the nonce. `WithinField` says that the blocks of a message
keep to them, which holds up to `gcmBound` bytes; the guards of `encrypt` and `decrypt` compare
bytes with the bound in bits.
-/

namespace Mla

open Io

/-- 2^39 - 256 bits, as bytes. -/
def gcmBound : ℕ := 2 ^ 36 - 32

def nonceValue (nonce : Nonce) : ℕ := fromBeBytes nonce.toList

/-- The blocks for `length` bytes of data stand behind the block of the tag, in the counters of
the nonce, and no other block of any nonce is one of them. -/
structure WithinField (nonce : Nonce) (length : ℕ) : Prop where
  bound : length ≤ gcmBound
  field : ∀ i, aesBlockSize * i < length →
    counter nonce (1 + i) = nonceValue nonce * 2 ^ 32 + (2 + i) ∧ 2 + i < 2 ^ 32
  separate : ∀ i, aesBlockSize * i < length → ∀ nonce' j, j + 1 < 2 ^ 32 →
    counterBlock nonce (1 + i) = counterBlock nonce' j → nonce' = nonce ∧ j = 1 + i

/-! ## Counters -/

section Counter

variable {nonce nonce' : Nonce} {i j : ℕ}

theorem counterStart_eq (nonce : Nonce) : counterStart nonce = nonceValue nonce * 2 ^ 32 + 1 := by
  rw [counterStart, fromBeBytes_append]
  rfl

theorem nonceValue_lt (nonce : Nonce) : nonceValue nonce < 2 ^ 96 := by
  have h := fromBeBytes_lt nonce.toList
  rw [Vector.length_toList] at h
  exact h

theorem nonceValue_injective (h : nonceValue nonce = nonceValue nonce') : nonce = nonce' := by
  apply toList_injective
  have hlen : ∀ nonce : Nonce, nonce.toList.reverse.length = nonceAesSize := by
    intro nonce
    rw [List.length_reverse, Vector.length_toList]
  have hbytes : nonce.toList.reverse = nonce'.toList.reverse := by
    rw [← leBytes_fromLeBytes nonce.toList.reverse, ← leBytes_fromLeBytes nonce'.toList.reverse,
      hlen, hlen]
    exact congrArg (leBytes nonceAesSize) h
  exact List.reverse_injective hbytes

/-- Below 2^32 the counter leaves the nonce as it is. -/
theorem counter_eq (h : i + 1 < 2 ^ 32) : counter nonce i = nonceValue nonce * 2 ^ 32 + (i + 1) := by
  have hnonce := nonceValue_lt nonce
  rw [counter, counterStart_eq, Nat.mod_eq_of_lt (by omega)]
  omega

theorem toList_counterBlock (nonce : Nonce) (i : ℕ) :
    (counterBlock nonce i).toList = (leBytes aesBlockSize (counter nonce i)).reverse := by
  have hlen : (leBytes aesBlockSize (counter nonce i)).reverse.length = aesBlockSize := by
    rw [List.length_reverse, length_leBytes]
  apply List.ext_getElem
  · rw [hlen, Vector.length_toList]
  · intro k hk hk'
    simp only [counterBlock, toBlock, Vector.getElem_toList, Vector.getElem_ofFn]
    rw [List.getD_eq_getElem?_getD, List.getElem?_eq_getElem hk', Option.getD_some]

theorem counterBlock_inj : counterBlock nonce i = counterBlock nonce' j ↔
    counter nonce i = counter nonce' j := by
  constructor
  · intro h
    have hbytes := congrArg (fun block : CipherBlock => block.toList.reverse) h
    simp only [toList_counterBlock, List.reverse_reverse] at hbytes
    have hlt : ∀ nonce i, counter nonce i < 256 ^ aesBlockSize := by
      intro nonce i
      exact Nat.mod_lt (_ + i) (Nat.two_pow_pos 128)
    exact leBytes_inj (hlt _ _) (hlt _ _) hbytes
  · intro h
    rw [counterBlock, counterBlock, h]

theorem withinField_of_le {length : ℕ} (h : length ≤ gcmBound) : WithinField nonce length where
  bound := h
  field := by
    intro i hi
    have hlt : 1 + i + 1 < 2 ^ 32 := by
      rw [gcmBound] at h
      rw [aesBlockSize] at hi
      omega
    rw [counter_eq hlt]
    omega
  separate := by
    intro i hi nonce' j hj heq
    have hlt : 1 + i + 1 < 2 ^ 32 := by
      rw [gcmBound] at h
      rw [aesBlockSize] at hi
      omega
    rw [counterBlock_inj, counter_eq hlt, counter_eq hj] at heq
    have hvalue : nonceValue nonce' = nonceValue nonce := by omega
    exact ⟨nonceValue_injective hvalue, by omega⟩

end Counter

/-! ## Guards -/

namespace GcmContext

variable [Aes256] [GHash] {key : Key} {nonce : Nonce} {aad ct buffer : Bytes}
  {buffers : List Bytes} {ctx : GcmContext}

theorem new_eq_some (h : new key nonce aad = some ctx) : aad.length < aes256GcmMaxPlaintextLength := by
  by_contra hlong
  rw [new, guard, if_neg hlong] at h
  cases h

theorem Encrypted.guard_of_encrypt (h : ctx.Encrypted key nonce aad ct) {r : Bytes × GcmContext}
    (hrun : ctx.encrypt buffer = some r) :
    ct.length + buffer.length + aad.length < aes256GcmMaxPlaintextLength := by
  by_contra hlong
  rw [GcmContext.encrypt] at hrun
  cases hadd : checkedAdd ctx.bytesEncrypted buffer.length with
  | none =>
      rw [hadd] at hrun
      cases hrun
  | some n =>
      have hn := checkedAdd_eq hadd
      have hfail : ¬ n + ctx.associatedDataBitsLen / 8 < aes256GcmMaxPlaintextLength := by
        rw [h.associatedDataBitsLen, Nat.mul_div_cancel_left _ (Nat.succ_pos 7), hn, h.bytesEncrypted]
        exact hlong
      simp only [hadd, Option.bind_eq_bind, Option.bind_some, guard, if_neg hfail] at hrun
      cases hrun

theorem Encrypted.guard_of_encryptAll (buffers : List Bytes) :
    ∀ {ctx : GcmContext} {ct : Bytes}, ctx.Encrypted key nonce aad ct →
      ct.length + aad.length < aes256GcmMaxPlaintextLength →
      (∃ r, encryptAll buffers ctx = some r) →
      ct.length + buffers.flatten.length + aad.length < aes256GcmMaxPlaintextLength := by
  induction buffers with
  | nil => exact fun _ hguard _ => hguard
  | cons buffer buffers ih =>
      intro ctx ct h _ hrun
      obtain ⟨r, hrun⟩ := hrun
      rw [encryptAll, Option.bind_eq_bind, Option.bind_eq_some_iff] at hrun
      obtain ⟨first, hfirst, hrun⟩ := hrun
      have hguard := h.guard_of_encrypt hfirst
      obtain ⟨ctx', hencrypt, h'⟩ := h.encrypt buffer hguard
      rw [hencrypt] at hfirst
      obtain rfl := Option.some.inj hfirst
      obtain ⟨rest, hrest, -⟩ := Option.bind_eq_some_iff.mp hrun
      have htotal := ih h' (by rw [List.length_append, length_xorStream]; omega) ⟨rest, hrest⟩
      rw [List.length_append, length_xorStream] at htotal
      rw [List.flatten_cons, List.length_append]
      omega

/-- The buffers that a new context encrypts. -/
theorem encryptAll_accepts_iff (hnew : new key nonce aad = some ctx) :
    (∃ r, encryptAll buffers ctx = some r) ↔
      buffers.flatten.length + aad.length < aes256GcmMaxPlaintextLength := by
  have haad := new_eq_some hnew
  obtain ⟨ctx', hnew', hctx⟩ := new_encrypted key nonce haad
  rw [hnew] at hnew'
  obtain rfl := Option.some.inj hnew'
  constructor
  · intro hrun
    have hguard := hctx.guard_of_encryptAll buffers (by simpa using haad) hrun
    simpa using hguard
  · intro hguard
    obtain ⟨outs, ctx', hrun, -⟩ := encryptAll_eq buffers hctx (by simpa using hguard)
    exact ⟨_, hrun⟩

/-- The buffers that a new context decrypts. -/
theorem decrypt_accepts_iff (hnew : new key nonce aad = some ctx) :
    (∃ r, ctx.decrypt buffer = some r) ↔
      buffer.length + aad.length < aes256GcmMaxPlaintextLength := by
  obtain ⟨ctx', hnew', hctx⟩ := new_encrypted key nonce (new_eq_some hnew)
  rw [hnew] at hnew'
  obtain rfl := Option.some.inj hnew'
  constructor
  · rintro ⟨r, hrun⟩
    by_contra hlong
    have hfail : ¬ buffer.length + ctx.associatedDataBitsLen / 8 < aes256GcmMaxPlaintextLength := by
      rwa [hctx.associatedDataBitsLen, Nat.mul_div_cancel_left _ (Nat.succ_pos 7)]
    simp only [GcmContext.decrypt, guard, if_neg hfail] at hrun
    cases hrun
  · exact fun hguard => ⟨_, hctx.decrypt hguard⟩

/-- What the guards accept under one nonce keeps to the counters of the nonce, except from the
bound in bytes up to the same number of bits taken as bytes. -/
theorem guards_iff (key : Key) (nonce : Nonce) (aad : Bytes) (buffers : List Bytes) (buffer : Bytes) :
    ((∀ ctx, new key nonce aad = some ctx → (∃ r, encryptAll buffers ctx = some r) →
        WithinField nonce buffers.flatten.length) ↔
      buffers.flatten.length ≤ gcmBound ∨
        aes256GcmMaxPlaintextLength ≤ buffers.flatten.length + aad.length) ∧
    ((∀ ctx, new key nonce aad = some ctx → (∃ r, ctx.decrypt buffer = some r) →
        WithinField nonce buffer.length) ↔
      buffer.length ≤ gcmBound ∨ aes256GcmMaxPlaintextLength ≤ buffer.length + aad.length) := by
  have hiff : ∀ {Accepts : GcmContext → Prop} {n : ℕ},
      (∀ ctx, new key nonce aad = some ctx →
        (Accepts ctx ↔ n + aad.length < aes256GcmMaxPlaintextLength)) →
      ((∀ ctx, new key nonce aad = some ctx → Accepts ctx → WithinField nonce n) ↔
        n ≤ gcmBound ∨ aes256GcmMaxPlaintextLength ≤ n + aad.length) := by
    intro Accepts n haccepts
    constructor
    · intro h
      by_contra hbad
      rw [not_or, Nat.not_le, Nat.not_le] at hbad
      obtain ⟨ctx, hnew, -⟩ := new_encrypted key nonce (show aad.length < _ by omega)
      exact absurd (h ctx hnew ((haccepts ctx hnew).mpr hbad.2)).bound (Nat.not_le.mpr hbad.1)
    · rintro (hbound | hlong) ctx hnew haccept
      · exact withinField_of_le hbound
      · exact absurd ((haccepts ctx hnew).mp haccept) (Nat.not_lt.mpr hlong)
  exact ⟨hiff fun _ hnew => encryptAll_accepts_iff hnew, hiff fun _ hnew => decrypt_accepts_iff hnew⟩

end GcmContext

/-- A message of 2^36 bytes is encrypted, and one of its blocks is the block of the tag of the
next nonce. -/
theorem XorHash.longMessage_shares :
    (∃ ctx r, GcmContext.new (Vector.replicate _ 0) (Vector.replicate _ 0) [] = some ctx ∧
      GcmContext.encryptAll [List.replicate (2 ^ 36) 0] ctx = some r) ∧
    aesBlockSize * (2 ^ 32 - 1) < 2 ^ 36 ∧
    counterBlock (Vector.replicate _ 0) (1 + (2 ^ 32 - 1)) =
      counterBlock (Vector.ofFn fun i : Fin nonceAesSize => if i.val = 11 then 1 else 0) 0 := by
  refine ⟨?_, by decide, ?_⟩
  · have hguard : ([List.replicate (2 ^ 36) 0] : List Bytes).flatten.length + ([] : Bytes).length <
        aes256GcmMaxPlaintextLength := by
      simp only [List.flatten_cons, List.flatten_nil, List.append_nil, List.length_replicate]
      decide
    obtain ⟨ctx, hnew, -⟩ := GcmContext.new_encrypted (Vector.replicate _ 0) (Vector.replicate _ 0)
      (show ([] : Bytes).length < aes256GcmMaxPlaintextLength by decide)
    obtain ⟨r, hrun⟩ := (GcmContext.encryptAll_accepts_iff hnew).mpr hguard
    exact ⟨ctx, r, hnew, hrun⟩
  · rw [counterBlock_inj]
    decide

end Mla
