import Mla.Io.Slice
import Mla.Io.Word

/-!
# Authenticated encryption

`AesGcm` is what the layers use of AES-256-GCM: the keystream that the data is
xored with, and the tags. The tag computed while encrypting and the one computed
while decrypting are two functions, since in an ideal world the second one only
agrees with the first on the messages that were really encrypted; `Correct` says
that they agree everywhere, as they do for the real cipher.

`AesGcm256` is a cipher context: what it has encrypted so far decides the
position in the keystream and the tag.
-/

namespace Mla

open Io

def tagLength : ℕ := 16
def keySize : ℕ := 32
def nonceAesSize : ℕ := 12
def keyCommitmentSize : ℕ := keySize * 2

abbrev Key := Vector UInt8 keySize
abbrev Nonce := Vector UInt8 nonceAesSize
abbrev Tag := Vector UInt8 tagLength

/-- An array from bytes of its length. -/
def arrayOf {n : ℕ} (bs : Bytes) (h : bs.length = n) : Vector UInt8 n :=
  ⟨bs.toArray, by simpa using h⟩

@[simp] theorem toList_arrayOf {n : ℕ} (bs : Bytes) (h : bs.length = n) :
    (arrayOf bs h).toList = bs := (rfl)

theorem toList_injective {n : ℕ} {v w : Vector UInt8 n} (h : v.toList = w.toList) : v = w :=
  Vector.toList_inj.mp h

/-- `u64::to_be_bytes`. -/
def beBytes (v : ℕ) : Bytes := (leBytes 8 v).reverse

@[simp] theorem length_beBytes (v : ℕ) : (beBytes v).length = 8 := by
  simp [beBytes]

class AesGcm where
  /-- Byte of the keystream for the data at a position of it. -/
  keystream : Key → Nonce → ℕ → UInt8
  /-- The tag of a ciphertext under some associated data, on the encrypting side. -/
  encryptTag : Key → Nonce → Bytes → Bytes → Tag
  /-- The tag that decrypting a ciphertext computes. -/
  decryptTag : Key → Nonce → Bytes → Bytes → Bytes

namespace AesGcm

/-- Both sides compute the same tag. -/
def Correct [AesGcm] : Prop :=
  ∀ key nonce aad ct, decryptTag key nonce aad ct = (encryptTag key nonce aad ct).toList

end AesGcm

section Keystream

variable [AesGcm]

/-- Xor `data` with the keystream from position `pos` on. -/
def applyKeystream (key : Key) (nonce : Nonce) (pos : ℕ) (data : Bytes) : Bytes :=
  data.mapIdx fun i b => b ^^^ AesGcm.keystream key nonce (pos + i)

@[simp] theorem length_applyKeystream (key : Key) (nonce : Nonce) (pos : ℕ) (data : Bytes) :
    (applyKeystream key nonce pos data).length = data.length := by
  simp [applyKeystream]

@[simp] theorem applyKeystream_nil (key : Key) (nonce : Nonce) (pos : ℕ) :
    applyKeystream key nonce pos [] = [] := rfl

theorem applyKeystream_append (key : Key) (nonce : Nonce) (pos : ℕ) (a b : Bytes) :
    applyKeystream key nonce pos (a ++ b) =
      applyKeystream key nonce pos a ++ applyKeystream key nonce (pos + a.length) b := by
  simp only [applyKeystream, List.mapIdx_append, Nat.add_assoc, Nat.add_comm a.length]

/-- Applying the keystream twice gives the data back. -/
theorem applyKeystream_applyKeystream (key : Key) (nonce : Nonce) (pos : ℕ) (data : Bytes) :
    applyKeystream key nonce pos (applyKeystream key nonce pos data) = data := by
  simp only [applyKeystream, List.mapIdx_mapIdx]
  apply List.ext_getElem
  · simp
  · intro i _ _
    simp only [List.getElem_mapIdx, Function.comp_apply, UInt8.xor_assoc, UInt8.xor_self,
      UInt8.xor_zero]

/-- Decrypting the front of a ciphertext gives the front of its plaintext. -/
theorem applyKeystream_take (key : Key) (nonce : Nonce) (pos n : ℕ) (data : Bytes) :
    applyKeystream key nonce pos (data.take n) = (applyKeystream key nonce pos data).take n := by
  apply List.ext_getElem
  · simp
  · intro i _ _
    simp [applyKeystream]

end Keystream

/-- A cipher context and what it has encrypted so far. -/
structure AesGcm256 where
  key : Key
  nonce : Nonce
  associatedData : Bytes
  encrypted : Bytes

namespace AesGcm256

variable [AesGcm]

def new (key : Key) (nonce : Nonce) (associatedData : Bytes) : AesGcm256 :=
  ⟨key, nonce, associatedData, []⟩

/-- Encrypt a buffer in place; the context moves on. -/
def encrypt (cipher : AesGcm256) (buffer : Bytes) : Bytes × AesGcm256 :=
  let ct := applyKeystream cipher.key cipher.nonce cipher.encrypted.length buffer
  (ct, { cipher with encrypted := cipher.encrypted ++ ct })

def intoTag (cipher : AesGcm256) : Tag :=
  AesGcm.encryptTag cipher.key cipher.nonce cipher.associatedData cipher.encrypted

/-- Decrypt a buffer in place with a context that was just made, and compute the tag. -/
def decrypt (cipher : AesGcm256) (buffer : Bytes) : Bytes × Bytes :=
  (applyKeystream cipher.key cipher.nonce 0 buffer,
    AesGcm.decryptTag cipher.key cipher.nonce cipher.associatedData buffer)

def decryptUnauthenticated (cipher : AesGcm256) (buffer : Bytes) : Bytes :=
  applyKeystream cipher.key cipher.nonce 0 buffer

/-- Encrypt an array in place. -/
def encryptArray {n : ℕ} (cipher : AesGcm256) (buffer : Vector UInt8 n) :
    Vector UInt8 n × AesGcm256 :=
  (arrayOf (cipher.encrypt buffer.toList).1 (by simp [encrypt]),
    (cipher.encrypt buffer.toList).2)

/-- Decrypt an array in place with a context that was just made. -/
def decryptArray {n : ℕ} (cipher : AesGcm256) (buffer : Vector UInt8 n) :
    Vector UInt8 n × Bytes :=
  (arrayOf (cipher.decrypt buffer.toList).1 (by simp [decrypt]),
    (cipher.decrypt buffer.toList).2)

theorem snd_decryptArray {n : ℕ} (cipher : AesGcm256) (buffer : Vector UInt8 n) :
    (cipher.decryptArray buffer).2 =
      AesGcm.decryptTag cipher.key cipher.nonce cipher.associatedData buffer.toList := rfl

/-- A context that was just made decrypts what it encrypts, and computes the same tag. -/
theorem decryptArray_encryptArray (hcorrect : AesGcm.Correct) {n : ℕ} (key : Key) (nonce : Nonce)
    (aad : Bytes) (buffer : Vector UInt8 n) :
    (new key nonce aad).decryptArray ((new key nonce aad).encryptArray buffer).1 =
      (buffer, ((new key nonce aad).encryptArray buffer).2.intoTag.toList) := by
  refine Prod.ext ?_ ?_
  · apply toList_injective
    simp [decryptArray, decrypt, encryptArray, encrypt, new, applyKeystream_applyKeystream]
  · simp only [decryptArray, decrypt, encryptArray, encrypt, new, intoTag, List.nil_append,
      List.length_nil]
    exact hcorrect key nonce aad _

/-- A context that was just made encrypts what it decrypts back to where it came from. -/
theorem encryptArray_decryptArray {n : ℕ} (key : Key) (nonce : Nonce) (aad : Bytes)
    (buffer : Vector UInt8 n) :
    ((new key nonce aad).encryptArray ((new key nonce aad).decryptArray buffer).1).1 =
      buffer := by
  apply toList_injective
  simp [decryptArray, decrypt, encryptArray, encrypt, new, applyKeystream_applyKeystream]

theorem encrypt_nil (cipher : AesGcm256) : cipher.encrypt [] = ([], cipher) := by
  simp [encrypt]

/-- Encrypting in two calls is encrypting the concatenation. -/
theorem encrypt_append (cipher : AesGcm256) (a b : Bytes) :
    cipher.encrypt (a ++ b) =
      ((cipher.encrypt a).1 ++ ((cipher.encrypt a).2.encrypt b).1,
        ((cipher.encrypt a).2.encrypt b).2) := by
  simp [encrypt, applyKeystream_append, List.append_assoc]

end AesGcm256

/-! ## A cipher to compute with -/

namespace CountingCipher

/-- The keystream is zero, and a tag repeats the length of the ciphertext. -/
scoped instance cipher : AesGcm where
  keystream _ _ _ := 0
  encryptTag _ _ _ ct := Vector.replicate tagLength (UInt8.ofNat ct.length)
  decryptTag _ _ _ ct := List.replicate tagLength (UInt8.ofNat ct.length)

theorem correct : AesGcm.Correct := by
  intro key nonce aad ct
  simp [AesGcm.decryptTag, AesGcm.encryptTag]

theorem applyKeystream_eq (key : Key) (nonce : Nonce) (pos : ℕ) (data : Bytes) :
    applyKeystream key nonce pos data = data := by
  have hzero : ∀ b : UInt8, b ^^^ 0 = b := by simp
  simp only [applyKeystream, AesGcm.keystream, hzero]
  apply List.ext_getElem <;> simp

theorem toList_encryptTag (key : Key) (nonce : Nonce) (aad ct : Bytes) :
    (AesGcm.encryptTag key nonce aad ct).toList =
      List.replicate 16 (UInt8.ofNat ct.length) := by
  simp [AesGcm.encryptTag, tagLength]

scoped instance patience : Patience where
  retries := 0

def key : Key := Vector.replicate keySize 0

def nonce : Nonce := Vector.replicate nonceAesSize 0

end CountingCipher

end Mla
