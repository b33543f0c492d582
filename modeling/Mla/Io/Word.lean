import Mla.Io.Basic
import Mathlib.Tactic.Ring

/-!
# Machine words

Lengths and positions are 64-bit in the source. Here they are natural numbers,
and the checked operations return `none` where the 64-bit operation overflows.
`leBytes n v` is the little-endian encoding of `v` on `n` bytes.
-/

namespace Io

/-- The number of values of a `u64`. -/
def u64Size : ℕ := 18446744073709551616

/-- The number of non-negative values of an `i64`. -/
def i64Size : ℕ := 9223372036854775808

theorem i64Size_lt_u64Size : i64Size < u64Size := by decide

theorem two_mul_i64Size : 2 * i64Size = u64Size := rfl

def checkedAdd (a b : ℕ) : Option ℕ :=
  if a + b < u64Size then some (a + b) else none

/-- The product is taken the other way round, as sizes are constant second factors. -/
def checkedMul (a b : ℕ) : Option ℕ :=
  if b * a < u64Size then some (b * a) else none

def checkedSub (a b : ℕ) : Option ℕ :=
  if b ≤ a then some (a - b) else none

/-- `u64::checked_add_signed`. -/
def checkedAddSigned (a : ℕ) (d : ℤ) : Option ℕ :=
  if 0 ≤ a + d ∧ a + d < u64Size then some (a + d).toNat else none

/-- `i64::try_from` on a `u64`. -/
def toI64 (a : ℕ) : Option ℤ :=
  if a < i64Size then some a else none

/-- Whether an integer is an `i64`. -/
def inI64 (d : ℤ) : Prop := -(i64Size : ℤ) ≤ d ∧ d < i64Size

instance (d : ℤ) : Decidable (inI64 d) := by unfold inI64; infer_instance

/-- `i64::checked_add`. -/
def i64CheckedAdd (a b : ℤ) : Option ℤ :=
  if inI64 (a + b) then some (a + b) else none

/-- `i64::checked_sub_unsigned`. -/
def i64CheckedSubUnsigned (a : ℤ) (b : ℕ) : Option ℤ :=
  if inI64 (a - b) then some (a - b) else none

/-- `i64::checked_neg`. -/
def i64CheckedNeg (a : ℤ) : Option ℤ :=
  if a = -(i64Size : ℤ) then none else some (-a)

/-- `u64::try_from` on an `i64`. -/
def toU64 (d : ℤ) : Option ℕ :=
  if 0 ≤ d then some d.toNat else none

/-- The bytes of a byte-string literal. -/
def ascii (cs : List Char) : Bytes :=
  cs.map fun c => UInt8.ofNat c.toNat

/-- What is checked of all 256 bytes holds of every byte. -/
theorem forall_byte {P : UInt8 → Prop} (h : ∀ n : Fin 256, P (UInt8.ofFin n)) (b : UInt8) : P b := by
  rw [← UInt8.ofFin_toFin b]
  exact h b.toFin

theorem checkedAdd_of_lt {a b : ℕ} (h : a + b < u64Size) : checkedAdd a b = some (a + b) := by
  simp [checkedAdd, h]

theorem checkedMul_of_lt {a b : ℕ} (h : b * a < u64Size) : checkedMul a b = some (b * a) := by
  simp [checkedMul, h]

theorem checkedAdd_lt {a b r : ℕ} (h : checkedAdd a b = some r) : r < u64Size := by
  unfold checkedAdd at h
  split at h
  · obtain rfl := Option.some.inj h
    assumption
  · cases h

theorem checkedAdd_eq {a b r : ℕ} (h : checkedAdd a b = some r) : r = a + b := by
  unfold checkedAdd at h
  split at h
  · exact (Option.some.inj h).symm
  · cases h

theorem checkedAddSigned_eq {a r : ℕ} {d : ℤ} (h : checkedAddSigned a d = some r) :
    (r : ℤ) = a + d := by
  unfold checkedAddSigned at h
  split at h
  · obtain rfl := Option.some.inj h
    omega
  · cases h

theorem i64CheckedSubUnsigned_eq {a r : ℤ} {b : ℕ} (h : i64CheckedSubUnsigned a b = some r) :
    r = a - b := by
  unfold i64CheckedSubUnsigned at h
  split at h
  · exact (Option.some.inj h).symm
  · cases h

theorem checkedMul_lt {a b r : ℕ} (h : checkedMul a b = some r) : r < u64Size := by
  unfold checkedMul at h
  split at h
  · obtain rfl := Option.some.inj h
    assumption
  · cases h

theorem checkedMul_eq {a b r : ℕ} (h : checkedMul a b = some r) : r = b * a := by
  unfold checkedMul at h
  split at h
  · exact (Option.some.inj h).symm
  · cases h

theorem checkedSub_le {a b r : ℕ} (h : checkedSub a b = some r) : r ≤ a := by
  unfold checkedSub at h
  split at h
  · obtain rfl := Option.some.inj h
    omega
  · cases h

theorem checkedSub_eq_some {a b r : ℕ} : checkedSub a b = some r ↔ b ≤ a ∧ r = a - b := by
  unfold checkedSub
  split <;> simp [*, eq_comm]

theorem checkedSub_of_le {a b : ℕ} (h : b ≤ a) : checkedSub a b = some (a - b) := by
  simp [checkedSub, h]

theorem checkedAddSigned_of_range {a : ℕ} {d : ℤ} (h : 0 ≤ a + d) (h' : a + d < u64Size) :
    checkedAddSigned a d = some (a + d).toNat := by
  simp [checkedAddSigned, h, h']

theorem i64CheckedAdd_of_eq {a d : ℤ} {t : ℕ} (h : a + d = t) (ht : t < i64Size) :
    i64CheckedAdd a d = some (t : ℤ) := by
  rw [i64CheckedAdd, h, if_pos]
  exact ⟨by omega, Int.ofNat_lt.mpr ht⟩

theorem toU64_natCast (t : ℕ) : toU64 t = some t := by
  rw [toU64, if_pos (Int.natCast_nonneg t), Int.toNat_natCast]

theorem toI64_of_lt {a : ℕ} (h : a < i64Size) : toI64 a = some (a : ℤ) := by
  simp [toI64, h]

/-- Little-endian encoding of a number on `n` bytes. -/
def leBytes : ℕ → ℕ → Bytes
  | 0, _ => []
  | n + 1, v => UInt8.ofNat v :: leBytes n (v / 256)

/-- The number that a little-endian byte string stands for. -/
def fromLeBytes : Bytes → ℕ
  | [] => 0
  | b :: bs => b.toNat + 256 * fromLeBytes bs

theorem fromLeBytes_cons (b : UInt8) (bs : Bytes) :
    fromLeBytes (b :: bs) = b.toNat + 256 * fromLeBytes bs := (rfl)

@[simp] theorem length_leBytes (n v : ℕ) : (leBytes n v).length = n := by
  induction n generalizing v with
  | zero => rfl
  | succ n ih => simp [leBytes, ih]

theorem fromLeBytes_leBytes (n v : ℕ) : fromLeBytes (leBytes n v) = v % 256 ^ n := by
  induction n generalizing v with
  | zero => simp [leBytes, fromLeBytes, Nat.mod_one]
  | succ n ih =>
      have hbyte : (UInt8.ofNat v).toNat = v % 256 := by simp
      rw [leBytes, fromLeBytes_cons, ih, hbyte, pow_succ, mul_comm (256 ^ n) 256, Nat.mod_mul]

theorem fromLeBytes_leBytes_of_lt {n v : ℕ} (h : v < 256 ^ n) :
    fromLeBytes (leBytes n v) = v := by
  rw [fromLeBytes_leBytes, Nat.mod_eq_of_lt h]

theorem fromLeBytes_lt (bs : Bytes) : fromLeBytes bs < 256 ^ bs.length := by
  induction bs with
  | nil => simp [fromLeBytes]
  | cons b bs ih =>
      have hb : b.toNat < 256 := b.toNat_lt
      rw [fromLeBytes_cons, List.length_cons, pow_succ]
      omega

theorem leBytes_fromLeBytes (bs : Bytes) : leBytes bs.length (fromLeBytes bs) = bs := by
  induction bs with
  | nil => rfl
  | cons b bs ih =>
      have hb : b.toNat < 256 := b.toNat_lt
      have hdiv : (b.toNat + 256 * fromLeBytes bs) / 256 = fromLeBytes bs := by omega
      have hbyte : UInt8.ofNat (b.toNat + 256 * fromLeBytes bs) = b := by
        apply UInt8.toNat_inj.mp
        rw [UInt8.toNat_ofNat']
        omega
      rw [List.length_cons, fromLeBytes_cons, leBytes, hdiv, hbyte, ih]

/-- Two numbers with the same encoding agree modulo the size of the encoding. -/
theorem leBytes_inj {n v w : ℕ} (hv : v < 256 ^ n) (hw : w < 256 ^ n)
    (h : leBytes n v = leBytes n w) : v = w := by
  rw [← fromLeBytes_leBytes_of_lt hv, ← fromLeBytes_leBytes_of_lt hw, h]

end Io
