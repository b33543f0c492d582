import Mla.Crypto.AesGcm

/-!
# Counter mode

`Aes256Ctr` is the stream cipher below AES-256-GCM: AES in counter mode with a big-endian counter
of 128 bits, of which the nonce takes the first 96. Block 0 of its keystream is for the tag and
block 1 is the first for the data.
-/

namespace Mla

open Io

/-- The bytes of `data` xored with those of a stream, from position `pos` on. -/
def xorStream (stream : ℕ → UInt8) (pos : ℕ) (data : Bytes) : Bytes :=
  data.mapIdx fun i b => b ^^^ stream (pos + i)

@[simp] theorem length_xorStream (stream : ℕ → UInt8) (pos : ℕ) (data : Bytes) :
    (xorStream stream pos data).length = data.length := List.length_mapIdx

@[simp] theorem xorStream_nil (stream : ℕ → UInt8) (pos : ℕ) : xorStream stream pos [] = [] := rfl

theorem xorStream_append (stream : ℕ → UInt8) (pos : ℕ) (a b : Bytes) :
    xorStream stream pos (a ++ b) =
      xorStream stream pos a ++ xorStream stream (pos + a.length) b := by
  simp only [xorStream, List.mapIdx_append, Nat.add_assoc, Nat.add_comm a.length]

theorem xorStream_xorStream (stream : ℕ → UInt8) (pos : ℕ) (data : Bytes) :
    xorStream stream pos (xorStream stream pos data) = data := by
  simp only [xorStream, List.mapIdx_mapIdx]
  apply List.ext_getElem
  · simp
  · intro i _ _
    simp only [List.getElem_mapIdx, Function.comp_apply, UInt8.xor_assoc, UInt8.xor_self,
      UInt8.xor_zero]

/-! ## Big-endian numbers -/

def fromBeBytes (bs : Bytes) : ℕ := fromLeBytes bs.reverse

theorem fromLeBytes_append (a b : Bytes) :
    fromLeBytes (a ++ b) = fromLeBytes a + 256 ^ a.length * fromLeBytes b := by
  induction a with
  | nil => simp [fromLeBytes]
  | cons x a ih =>
      rw [List.cons_append, fromLeBytes_cons, fromLeBytes_cons, ih, List.length_cons, pow_succ]
      ring

theorem fromBeBytes_append (a b : Bytes) :
    fromBeBytes (a ++ b) = fromBeBytes a * 256 ^ b.length + fromBeBytes b := by
  rw [fromBeBytes, List.reverse_append, fromLeBytes_append, List.length_reverse, fromBeBytes,
    fromBeBytes]
  ring

theorem fromBeBytes_lt (bs : Bytes) : fromBeBytes bs < 256 ^ bs.length := by
  rw [fromBeBytes, ← List.length_reverse]
  exact fromLeBytes_lt _

/-! ## Blocks -/

/-- `BLOCK_SIZE`. -/
def aesBlockSize : ℕ := 16

theorem aesBlockSize_pos : 0 < aesBlockSize := Nat.succ_pos 15

abbrev CipherBlock := Vector UInt8 aesBlockSize

/-- A block from its bytes; zeros stand for the bytes that a shorter text lacks. -/
def toBlock (bs : Bytes) : CipherBlock := Vector.ofFn fun i => bs.getD i 0

/-- AES-256 on one block. -/
class Aes256 where
  encryptBlock : Key → CipherBlock → CipherBlock

/-- The number that the counter begins with: the nonce, and 1 on the last 32 bits. -/
def counterStart (nonce : Nonce) : ℕ := fromBeBytes (nonce.toList ++ [0, 0, 0, 1])

/-- The counter of block `i`, on 128 bits. -/
def counter (nonce : Nonce) (i : ℕ) : ℕ := (counterStart nonce + i) % 2 ^ 128

def counterBlock (nonce : Nonce) (i : ℕ) : CipherBlock :=
  toBlock (leBytes aesBlockSize (counter nonce i)).reverse

/-- `ctr::Ctr128BE<aes::Aes256>`, and how far it stands in its keystream. -/
structure Aes256Ctr where
  key : Key
  nonce : Nonce
  position : ℕ

namespace Aes256Ctr

variable [Aes256]

/-- The byte of the keystream at a position. -/
def keystream (key : Key) (nonce : Nonce) (pos : ℕ) : UInt8 :=
  (Aes256.encryptBlock key (counterBlock nonce (pos / aesBlockSize))).toList.getD (pos % aesBlockSize) 0

def seek (ctr : Aes256Ctr) (pos : ℕ) : Aes256Ctr := { ctr with position := pos }

def applyKeystream (ctr : Aes256Ctr) (data : Bytes) : Bytes × Aes256Ctr :=
  (xorStream (keystream ctr.key ctr.nonce) ctr.position data,
    { ctr with position := ctr.position + data.length })

end Aes256Ctr

end Mla
