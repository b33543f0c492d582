import Mla.Crypto.AesGcm

/-!
# Keys and nonces of a session

The key and the base nonce of a session are derived from its shared secret, with the
labels of HPKE. `Hkdf` is the extraction and the expansion that this rests on; the
lengths that are asked for here are among those that it never refuses.

The nonce of a message is the base nonce of the session xored with the sequence
number of the message, on 8 bytes and big-endian, at its end. Two sequence numbers
never share a nonce.
-/

namespace Mla

open Io

/-! ## Key schedule -/

/-- HKDF with SHA-512; no salt is a salt of its own. -/
class Hkdf where
  extract : Option Bytes → Bytes → Bytes
  expand : Bytes → Bytes → (n : ℕ) → Vector UInt8 n

section KeySchedule

variable [Hkdf]

def hpkeModeBase : UInt8 := 0
def hybridKemId : ℕ := 0x1020
def hybridKemRecipientId : ℕ := 0x1120
/-- HKDF-SHA512. -/
def kdfId : ℕ := 0x0003
/-- AES-256-GCM. -/
def aeadId : ℕ := 0x0002

/-- `u16::to_be_bytes`. -/
def u16BeBytes (v : ℕ) : Bytes := (leBytes 2 v).reverse

def buildSuiteId (kemId : ℕ) : Bytes :=
  ascii ['H', 'P', 'K', 'E'] ++ u16BeBytes kemId ++ u16BeBytes kdfId ++ u16BeBytes aeadId

def hpkeVersion : Bytes := ascii ['H', 'P', 'K', 'E', '-', 'v', '1']

def labeledExtract (salt suiteId label ikm : Bytes) : Bytes :=
  Hkdf.extract (some salt) (hpkeVersion ++ suiteId ++ label ++ ikm)

def labeledExpand (prk suiteId label info : Bytes) (n : ℕ) : Vector UInt8 n :=
  Hkdf.expand prk (u16BeBytes n ++ hpkeVersion ++ suiteId ++ label ++ info) n

def keyScheduleBase (sharedSecret info : Bytes) (kemId : ℕ) : Key × Nonce :=
  let suiteId := buildSuiteId kemId
  let pskIdHash := labeledExtract [] suiteId
    (ascii ['p', 's', 'k', '_', 'i', 'd', '_', 'h', 'a', 's', 'h']) []
  let infoHash := labeledExtract [] suiteId
    (ascii ['i', 'n', 'f', 'o', '_', 'h', 'a', 's', 'h']) info
  let keyScheduleContext := hpkeModeBase :: (pskIdHash ++ infoHash)
  let secret := labeledExtract sharedSecret suiteId (ascii ['s', 'e', 'c', 'r', 'e', 't']) []
  (labeledExpand secret suiteId (ascii ['k', 'e', 'y']) keyScheduleContext keySize,
    labeledExpand secret suiteId (ascii ['b', 'a', 's', 'e', '_', 'n', 'o', 'n', 'c', 'e'])
      keyScheduleContext nonceAesSize)

/-- The schedule of the secret that all recipients share. -/
def keyScheduleBaseHybridKem (sharedSecret info : Bytes) : Key × Nonce :=
  keyScheduleBase sharedSecret info hybridKemId

/-- The schedule of the secret of one recipient. -/
def keyScheduleBaseHybridKemRecipient (sharedSecret info : Bytes) : Key × Nonce :=
  keyScheduleBase sharedSecret info hybridKemRecipientId

end KeySchedule

/-! ## Nonces -/

def computeNonce (baseNonce : Nonce) (seq : ℕ) : Nonce :=
  Vector.ofFn fun i =>
    if i.val + 8 < nonceAesSize then baseNonce[i]
    else baseNonce[i] ^^^ (beBytes seq).getD (i.val + 8 - nonceAesSize) 0

theorem xor_left_cancel {a b c : UInt8} (h : a ^^^ b = a ^^^ c) : b = c := by
  have hxor : a ^^^ (a ^^^ b) = a ^^^ (a ^^^ c) := by rw [h]
  simpa [← UInt8.xor_assoc] using hxor

/-- Sequence numbers of one session have distinct nonces. -/
theorem computeNonce_injective {baseNonce : Nonce} {seq seq' : ℕ} (hseq : seq < u64Size)
    (hseq' : seq' < u64Size) (h : computeNonce baseNonce seq = computeNonce baseNonce seq') :
    seq = seq' := by
  have hbytes : beBytes seq = beBytes seq' := by
    apply List.ext_getElem
    · simp
    · intro i hi hi'
      have hi8 : i < 8 := by simpa using hi
      have hi12 : i + 4 < nonceAesSize := by simp only [nonceAesSize]; omega
      have hget : (computeNonce baseNonce seq)[i + 4] = (computeNonce baseNonce seq')[i + 4] := by
        simp only [h]
      have hge : ¬ i + 4 + 8 < nonceAesSize := by simp only [nonceAesSize]; omega
      have hidx : i + 4 + 8 - nonceAesSize = i := by simp only [nonceAesSize]; omega
      simp only [computeNonce, Vector.getElem_ofFn, hge, if_false, hidx] at hget
      have hgetD := xor_left_cancel hget
      simpa [List.getD_eq_getElem?_getD, hi8] using hgetD
  have hle : leBytes 8 seq = leBytes 8 seq' := List.reverse_injective hbytes
  exact leBytes_inj hseq hseq' hle

end Mla
