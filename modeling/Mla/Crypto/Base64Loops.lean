import Mla.Crypto.Base64

/-!
# The loops of base64

The two functions as they are written: an index into the slice, groups of up to three bytes or
four characters that are shifted into a 32-bit word, and a check behind every addition,
subtraction and multiplication. A failure tells whether such a check was the cause or the text.
-/

namespace Mla

open Io

inductive Base64Error
  | arithmetic (e : Error)
  | refused (e : Error)

/-- `u8::checked_add`. -/
def u8CheckedAdd (a b : ℕ) : Option ℕ :=
  if a + b < 256 then some (a + b) else none

/-- `u8::checked_mul`. -/
def u8CheckedMul (a b : ℕ) : Option ℕ :=
  if a * b < 256 then some (a * b) else none

def checkedDiv (a b : ℕ) : Option ℕ :=
  if b = 0 then none else some (a / b)

/-- `ok_or` behind a checked operation. -/
def arith {α : Type} (o : Option α) (e : Error) : Except Base64Error α :=
  orError o (.arithmetic e)

theorem arith_some {α : Type} (a : α) (e : Error) : arith (some a) e = .ok a := rfl

theorem u8CheckedAdd_of_lt {a b : ℕ} (h : a + b < 256) : u8CheckedAdd a b = some (a + b) := by
  simp [u8CheckedAdd, h]

theorem u8CheckedAdd_eq {a b r : ℕ} (h : u8CheckedAdd a b = some r) : r = a + b := by
  unfold u8CheckedAdd at h
  split at h
  · exact (Option.some.inj h).symm
  · cases h

/-! ## The loops of `base64_encode` -/

/-- The inner loop: up to three bytes of the data are shifted into `val`. -/
def encodeFill (data : Bytes) (i n : ℕ) (val : UInt32) : Except Base64Error (ℕ × ℕ × UInt32) :=
  if n < 3 then
    if hi : i < data.length then
      match hn : u8CheckedAdd n 1 with
      | none => .error (.arithmetic .serializationError)
      | some n' =>
          match checkedAdd i 1 with
          | none => .error (.arithmetic .serializationError)
          | some i' => encodeFill data i' n' (val <<< 8 ||| data[i].toUInt32)
    else .ok (i, n, val)
  else .ok (i, n, val)
termination_by 3 - n
decreasing_by
  have := u8CheckedAdd_eq hn
  omega

/-- The `j`-th character of a group of `n` bytes. -/
def encodeChar (val : UInt32) (n j : ℕ) : Except Base64Error UInt8 := do
  if j < (← arith (u8CheckedAdd n 1) .serializationError) then
    let shift ← arith ((checkedSub 3 j).bind (u8CheckedMul · 6)) .serializationError
    pure (base64Char ((val >>> UInt32.ofNat shift) &&& 0x3F).toNat)
  else pure base64Pad

theorem encodeFill_next {data : Bytes} {i n : ℕ} {val : UInt32} {r : ℕ × ℕ × UInt32} (hn : n < 3)
    (hi : i < data.length) (h : encodeFill data i n val = .ok r) :
    encodeFill data (i + 1) (n + 1) (val <<< 8 ||| data[i].toUInt32) = .ok r := by
  rw [encodeFill, if_pos hn, dif_pos hi] at h
  split at h
  · cases h
  · rename_i n' hadd
    obtain rfl := u8CheckedAdd_eq hadd
    split at h
    · cases h
    · rename_i i' hi'
      obtain rfl := checkedAdd_eq hi'
      exact h

/-- The index moves forward, so the outer loop ends. -/
theorem encodeFill_lt {data : Bytes} {i : ℕ} {val : UInt32} {r : ℕ × ℕ × UInt32}
    (hi : i < data.length) (h : encodeFill data i 0 val = .ok r) : i < r.1 := by
  have hle : ∀ k i n val, n + k = 3 → encodeFill data i n val = .ok r → i ≤ r.1 := by
    intro k
    induction k with
    | zero =>
        intro i n val hn h
        rw [encodeFill, if_neg (by omega)] at h
        obtain rfl := Except.ok.inj h
        exact le_rfl
    | succ k ih =>
        intro i n val hn h
        by_cases hi : i < data.length
        · exact (Nat.le_succ i).trans (ih (i + 1) (n + 1) _ (by omega) (encodeFill_next (by omega) hi h))
        · rw [encodeFill, if_pos (by omega), dif_neg hi] at h
          obtain rfl := Except.ok.inj h
          exact le_rfl
  exact hle 2 (i + 1) 1 _ rfl (encodeFill_next (by omega) hi h)

def encodeGroups (data : Bytes) (i : ℕ) : Except Base64Error Bytes :=
  if _hi : i < data.length then
    match _hfill : encodeFill data i 0 0 with
    | .error e => .error e
    | .ok (i', n, val) => do
        let val := if n = 1 then val <<< 16 else if n = 2 then val <<< 8 else val
        let chars ← [0, 1, 2, 3].mapM (encodeChar val n)
        let rest ← encodeGroups data i'
        pure (chars ++ rest)
  else .ok []
termination_by data.length - i
decreasing_by
  have := encodeFill_lt _hi _hfill
  omega

/-- `base64_encode`, check by check. -/
def base64EncodeChecked (data : Bytes) : Except Base64Error Bytes := do
  let _ ← arith (((checkedAdd data.length 2).bind (checkedDiv · 3)).bind (checkedMul · 4))
    .serializationError
  encodeGroups data 0

/-! ## The loops of `base64_decode` -/

def decodeIdx (c : UInt8) : Except Base64Error ℕ :=
  if 65 ≤ c ∧ c ≤ 90 then arith (checkedSub c.toNat 65) .serializationError
  else if 97 ≤ c ∧ c ≤ 122 then
    arith ((checkedSub c.toNat 97).bind (u8CheckedAdd · 26)) .serializationError
  else if 48 ≤ c ∧ c ≤ 57 then
    arith ((checkedSub c.toNat 48).bind (u8CheckedAdd · 52)) .serializationError
  else if c = 43 then .ok 62
  else if c = 47 then .ok 63
  else .error (.refused .deserializationError)

/-- The inner loop: the indices of up to four characters are shifted into `val`. -/
def decodeFill (encoded : Bytes) (i n : ℕ) (val : UInt32) : Except Base64Error (ℕ × ℕ × UInt32) :=
  if n < 4 then
    if hi : i < encoded.length then
      match decodeIdx encoded[i] with
      | .error e => .error e
      | .ok idx =>
          match hn : u8CheckedAdd n 1 with
          | none => .error (.arithmetic .serializationError)
          | some n' =>
              match checkedAdd i 1 with
              | none => .error (.arithmetic .serializationError)
              | some i' => decodeFill encoded i' n' (val <<< 6 ||| UInt32.ofNat idx)
    else .ok (i, n, val)
  else .ok (i, n, val)
termination_by 4 - n
decreasing_by
  have := u8CheckedAdd_eq hn
  omega

/-- What the `j`-th round pushes of a group of `n` characters. -/
def decodeByte (val : UInt32) (n j : ℕ) : Except Base64Error Bytes := do
  if j < (← arith (checkedSub n 1) .serializationError) then
    let shift ← arith ((checkedSub 2 j).bind (u8CheckedMul · 8)) .serializationError
    pure [((val >>> UInt32.ofNat shift) &&& 0xFF).toUInt8]
  else pure []

theorem decodeFill_next {encoded : Bytes} {i n : ℕ} {val : UInt32} {r : ℕ × ℕ × UInt32} (hn : n < 4)
    (hi : i < encoded.length) (h : decodeFill encoded i n val = .ok r) :
    ∃ val', decodeFill encoded (i + 1) (n + 1) val' = .ok r := by
  rw [decodeFill, if_pos hn, dif_pos hi] at h
  split at h
  · cases h
  · rename_i idx hidx
    split at h
    · cases h
    · rename_i n' hadd
      obtain rfl := u8CheckedAdd_eq hadd
      split at h
      · cases h
      · rename_i i' hi'
        obtain rfl := checkedAdd_eq hi'
        exact ⟨_, h⟩

theorem decodeFill_lt {encoded : Bytes} {i : ℕ} {val : UInt32} {r : ℕ × ℕ × UInt32}
    (hi : i < encoded.length) (h : decodeFill encoded i 0 val = .ok r) : i < r.1 := by
  have hle : ∀ k i n val, n + k = 4 → decodeFill encoded i n val = .ok r → i ≤ r.1 := by
    intro k
    induction k with
    | zero =>
        intro i n val hn h
        rw [decodeFill, if_neg (by omega)] at h
        obtain rfl := Except.ok.inj h
        exact le_rfl
    | succ k ih =>
        intro i n val hn h
        by_cases hi : i < encoded.length
        · obtain ⟨val', h⟩ := decodeFill_next (by omega) hi h
          exact (Nat.le_succ i).trans (ih (i + 1) (n + 1) val' (by omega) h)
        · rw [decodeFill, if_pos (by omega), dif_neg hi] at h
          obtain rfl := Except.ok.inj h
          exact le_rfl
  obtain ⟨val', h⟩ := decodeFill_next (by omega) hi h
  exact hle 3 (i + 1) 1 val' rfl h

def decodeGroups (encoded : Bytes) (i : ℕ) : Except Base64Error Bytes :=
  if _hi : i < encoded.length then
    match _hfill : decodeFill encoded i 0 0 with
    | .error e => .error e
    | .ok (i', n, val) => do
        let val := if n = 3 then val <<< 6 else if n = 2 then val <<< 12 else val
        let bytes ← [0, 1, 2].mapM (decodeByte val n)
        let rest ← decodeGroups encoded i'
        pure (bytes.flatten ++ rest)
  else .ok []
termination_by encoded.length - i
decreasing_by
  have := decodeFill_lt _hi _hfill
  omega

/-- `base64_decode`, check by check. -/
def base64DecodeChecked (encoded : Bytes) : Except Base64Error Bytes :=
  if encoded.length % 4 = 0 then do
    let _ ← arith ((checkedDiv encoded.length 4).bind (checkedMul · 3)) .deserializationError
    decodeGroups (stripPadding encoded) 0
  else .error (.refused .deserializationError)

/-! ## Shifts and masks -/

theorem toNat_shiftIn {v b k : UInt32} (hk : k.toNat < 32) (hb : b.toNat < 2 ^ k.toNat)
    (hval : v.toNat * 2 ^ k.toNat < 2 ^ 32) :
    (v <<< k ||| b).toNat = v.toNat * 2 ^ k.toNat + b.toNat := by
  rw [UInt32.toNat_or, UInt32.toNat_shiftLeft, Nat.mod_eq_of_lt hk, Nat.shiftLeft_eq,
    Nat.mod_eq_of_lt hval, ← Nat.shiftLeft_eq, Nat.shiftLeft_add_eq_or_of_lt hb]

theorem toNat_shiftOut {val k : UInt32} (hk : k.toNat < 32) :
    (val >>> k).toNat = val.toNat / 2 ^ k.toNat := by
  rw [UInt32.toNat_shiftRight, Nat.mod_eq_of_lt hk, Nat.shiftRight_eq_div_pow]

theorem toNat_shiftByte {val : UInt32} (b : UInt8) (hval : val.toNat < 2 ^ 24) :
    (val <<< 8 ||| b.toUInt32).toNat = val.toNat * 256 + b.toNat :=
  toNat_shiftIn (k := 8) (by decide) b.toNat_lt (by norm_num [UInt32.toNat_ofNat] at hval ⊢; omega)

theorem toNat_shiftIdx {val : UInt32} {idx : ℕ} (hidx : idx < 64) (hval : val.toNat < 2 ^ 26) :
    (val <<< 6 ||| UInt32.ofNat idx).toNat = val.toNat * 64 + idx := by
  have hword : (UInt32.ofNat idx).toNat = idx := by
    rw [UInt32.toNat_ofNat', Nat.mod_eq_of_lt (by omega)]
  have h := toNat_shiftIn (b := UInt32.ofNat idx) (v := val) (k := 6) (by decide)
    (by rw [hword]; exact hidx) (by norm_num [UInt32.toNat_ofNat] at hval ⊢; omega)
  rw [hword] at h
  exact h

/-- A character of a group is six bits of its word. -/
theorem encodeChar_eq {val : UInt32} {n j : ℕ} (hn : n ≤ 3) (hj : j ≤ 3) :
    encodeChar val n j =
      .ok (if j < n + 1 then base64Char (val.toNat / 64 ^ (3 - j) % 64) else base64Pad) := by
  have hshift : ((checkedSub 3 j).bind (u8CheckedMul · 6)) = some ((3 - j) * 6) := by
    rw [checkedSub_of_le hj, Option.bind_some, u8CheckedMul, if_pos (by omega)]
  have hbits : ((val >>> UInt32.ofNat ((3 - j) * 6)) &&& 0x3F).toNat =
      val.toNat / 64 ^ (3 - j) % 64 := by
    have hk : (UInt32.ofNat ((3 - j) * 6)).toNat = (3 - j) * 6 := by
      rw [UInt32.toNat_ofNat', Nat.mod_eq_of_lt (by omega)]
    have hmask : (0x3F : UInt32).toNat = 2 ^ 6 - 1 := rfl
    rw [UInt32.toNat_and, toNat_shiftOut (by omega), hk, hmask, Nat.and_two_pow_sub_one_eq_mod,
      mul_comm, pow_mul]
    rfl
  rw [encodeChar, u8CheckedAdd_of_lt (by omega), arith_some]
  simp only [hshift, arith_some, Except.bind, bind, hbits]
  split
  · rfl
  · rfl

theorem decodeByte_eq {val : UInt32} {n j : ℕ} (hn : 1 ≤ n) (hj : j ≤ 2) :
    decodeByte val n j =
      .ok (if j < n - 1 then [UInt8.ofNat (val.toNat / 256 ^ (2 - j) % 256)] else []) := by
  have hshift : ((checkedSub 2 j).bind (u8CheckedMul · 8)) = some ((2 - j) * 8) := by
    rw [checkedSub_of_le hj, Option.bind_some, u8CheckedMul, if_pos (by omega)]
  have hbits : ((val >>> UInt32.ofNat ((2 - j) * 8)) &&& 0xFF).toUInt8 =
      UInt8.ofNat (val.toNat / 256 ^ (2 - j) % 256) := by
    have hk : (UInt32.ofNat ((2 - j) * 8)).toNat = (2 - j) * 8 := by
      rw [UInt32.toNat_ofNat', Nat.mod_eq_of_lt (by omega)]
    have hmask : (0xFF : UInt32).toNat = 2 ^ 8 - 1 := rfl
    apply UInt8.toNat_inj.mp
    rw [UInt32.toNat_toUInt8, UInt32.toNat_and, toNat_shiftOut (by omega), hk, hmask,
      Nat.and_two_pow_sub_one_eq_mod, mul_comm, pow_mul, UInt8.toNat_ofNat']
    rfl
  rw [decodeByte, checkedSub_of_le hn, arith_some]
  simp only [hshift, arith_some, Except.bind, bind, hbits]
  split
  · rfl
  · rfl

/-! ## The loops compute the groups -/

section Encode

variable {data : Bytes} {i n : ℕ} {val : UInt32}

theorem encodeFill_cons {b : UInt8} {rest : Bytes} (hdrop : data.drop i = b :: rest) (hn : n < 3)
    (hword : data.length < u64Size) :
    encodeFill data i n val = encodeFill data (i + 1) (n + 1) (val <<< 8 ||| b.toUInt32) := by
  have hi : i < data.length := by
    by_contra hge
    rw [List.drop_eq_nil_of_le (by omega)] at hdrop
    cases hdrop
  have hb : data[i] = b := by
    rw [List.drop_eq_getElem_cons hi] at hdrop
    exact (List.cons.inj hdrop).1
  rw [encodeFill, if_pos hn, dif_pos hi, hb]
  split
  · rename_i hadd
    rw [u8CheckedAdd_of_lt (by omega)] at hadd
    cases hadd
  · rename_i n' hadd
    obtain rfl := u8CheckedAdd_eq hadd
    rw [checkedAdd_of_lt (by omega)]

theorem encodeFill_end (h : n = 3 ∨ data.drop i = []) : encodeFill data i n val = .ok (i, n, val) := by
  rw [encodeFill]
  split
  · rename_i hn
    have hnil := h.resolve_left (by omega)
    rw [dif_neg (by rw [List.drop_eq_nil_iff] at hnil; omega)]
  · rfl

theorem drop_succ_of_cons {xs rest : Bytes} {i : ℕ} {b : UInt8} (h : xs.drop i = b :: rest) :
    xs.drop (i + 1) = rest := by
  rw [← List.drop_drop, h, List.drop_one, List.tail_cons]

theorem lt_length_of_drop {xs rest : Bytes} {i : ℕ} {b : UInt8} (h : xs.drop i = b :: rest) :
    i < xs.length := by
  by_contra hge
  rw [List.drop_eq_nil_of_le (by omega)] at h
  cases h

/-- The word that the bytes of a group are shifted into. -/
def shiftBytes (val : UInt32) (group : Bytes) : UInt32 :=
  group.foldl (fun (val : UInt32) (b : UInt8) => val <<< 8 ||| b.toUInt32) val

/-- The inner loop takes a group that is full or the last. -/
theorem encodeFill_group (hword : data.length < u64Size) {rest : Bytes} (group : Bytes) :
    ∀ {i n : ℕ} {v : UInt32}, data.drop i = group ++ rest → n + group.length ≤ 3 →
      n + group.length = 3 ∨ rest = [] →
      encodeFill data i n v = .ok (i + group.length, n + group.length,
        shiftBytes v group) := by
  induction group with
  | nil =>
      intro i n val hdrop _ hfull
      exact encodeFill_end (hfull.imp id fun hrest => by rw [hdrop, hrest, List.nil_append])
  | cons b group ih =>
      intro i n val hdrop hlen hfull
      rw [List.length_cons] at hlen hfull
      rw [encodeFill_cons hdrop (by omega) hword, ih (drop_succ_of_cons hdrop) (by omega)
        (hfull.imp (fun h => by omega) id), List.length_cons, shiftBytes, shiftBytes,
        List.foldl_cons]
      congr 2
      · omega
      · rw [Nat.add_assoc, Nat.add_comm 1]

/-- The bytes of a group stay below the 32 bits of their word. -/
theorem toNat_shiftBytes (group : Bytes) :
    ∀ {n : ℕ} {v : UInt32}, v.toNat < 256 ^ n → n + group.length ≤ 3 →
      (shiftBytes v group).toNat = group.foldl (fun val b => val * 256 + b.toNat) v.toNat ∧
        (shiftBytes v group).toNat < 256 ^ (n + group.length) := by
  induction group with
  | nil => exact fun hval _ => ⟨rfl, hval⟩
  | cons b group ih =>
      intro n val hval hlen
      rw [List.length_cons] at hlen
      have hb := b.toNat_lt
      have hsmall : (256 : ℕ) ^ n ≤ 256 ^ 2 := Nat.pow_le_pow_right (by omega) (by omega)
      have hshift : (val <<< 8 ||| b.toUInt32).toNat = val.toNat * 256 + b.toNat :=
        toNat_shiftByte b (by omega)
      have hnext : (val <<< 8 ||| b.toUInt32).toNat < 256 ^ (n + 1) := by
        rw [hshift, pow_succ]
        omega
      obtain ⟨heq, hlt⟩ := ih hnext (by omega)
      rw [hshift] at heq
      rw [shiftBytes, List.foldl_cons, List.foldl_cons, List.length_cons, Nat.add_comm group.length,
        ← Nat.add_assoc]
      exact ⟨heq, hlt⟩

/-- One round of the outer loop. -/
theorem encodeGroups_group (hword : data.length < u64Size) (group : Bytes) {rest : Bytes}
    (hdrop : data.drop i = group ++ rest) (hne : group ≠ []) (hlen : group.length ≤ 3)
    (hfull : group.length = 3 ∨ rest = []) :
    encodeGroups data i =
      (encodeGroups data (i + group.length)).map (base64EncodeGroup group ++ ·) := by
  have hi : i < data.length := by
    by_contra hge
    rw [List.drop_eq_nil_of_le (by omega)] at hdrop
    exact hne (List.append_eq_nil_iff.mp hdrop.symm).1
  have hfill := encodeFill_group (n := 0) (v := 0) hword group hdrop (by omega)
    (hfull.imp (fun h => by omega) id)
  obtain ⟨hval, hbound⟩ := toNat_shiftBytes group (n := 0) (v := 0) (by decide) (by omega)
  rw [Nat.zero_add] at hfill hbound
  generalize shiftBytes 0 group = val at hfill hval hbound
  have hshifted : ((if group.length = 1 then val <<< 16 else if group.length = 2 then val <<< 8
      else val) : UInt32).toNat =
      if group.length = 1 then val.toNat * 65536 else if group.length = 2 then val.toNat * 256
        else val.toNat := by
    split
    · rename_i hone
      rw [hone] at hbound
      rw [UInt32.toNat_shiftLeft, Nat.shiftLeft_eq]
      exact Nat.mod_eq_of_lt (by norm_num [UInt32.toNat_ofNat]; omega)
    · split
      · rename_i htwo
        rw [htwo] at hbound
        rw [UInt32.toNat_shiftLeft, Nat.shiftLeft_eq]
        exact Nat.mod_eq_of_lt (by norm_num [UInt32.toNat_ofNat]; omega)
      · rfl
  have hchars : [0, 1, 2, 3].mapM (encodeChar (if group.length = 1 then val <<< 16
      else if group.length = 2 then val <<< 8 else val) group.length) =
      .ok (base64EncodeGroup group) := by
    simp only [List.mapM_cons, List.mapM_nil, encodeChar_eq hlen (show 0 ≤ 3 by omega),
      encodeChar_eq hlen (show 1 ≤ 3 by omega), encodeChar_eq hlen (show 2 ≤ 3 by omega),
      encodeChar_eq hlen (le_refl 3), hshifted, hval]
    rfl
  rw [encodeGroups, dif_pos hi]
  split
  · rename_i e he
    rw [hfill] at he
    cases he
  · rename_i r₀ r₁ r₂ hr
    rw [hfill] at hr
    obtain ⟨rfl, rfl, rfl⟩ := hr
    simp only [hchars, bind, Except.bind]
    cases encodeGroups data (i + group.length) with
    | error e => rfl
    | ok rest => rfl

theorem encodeGroups_eq (hword : data.length < u64Size) (rest : Bytes) :
    ∀ {i : ℕ}, data.drop i = rest → encodeGroups data i = .ok (base64EncodeLoop rest) := by
  have hnil : ∀ {i : ℕ}, data.drop i = [] → encodeGroups data i = .ok [] := by
    intro i hdrop
    rw [List.drop_eq_nil_iff] at hdrop
    rw [encodeGroups, dif_neg (by omega)]
  induction rest using base64EncodeLoop.induct with
  | case1 => exact hnil
  | case2 a =>
      intro i hdrop
      have hrest : data.drop (i + [a].length) = [] := drop_succ_of_cons hdrop
      rw [encodeGroups_group hword [a] hdrop (List.cons_ne_nil _ _) (by simp) (.inr rfl),
        hnil hrest, base64EncodeLoop, Except.map, List.append_nil]
  | case3 a b =>
      intro i hdrop
      have hrest : data.drop (i + [a, b].length) = [] :=
        drop_succ_of_cons (drop_succ_of_cons hdrop)
      rw [encodeGroups_group hword [a, b] hdrop (List.cons_ne_nil _ _) (by simp)
        (.inr rfl), hnil hrest, base64EncodeLoop, Except.map, List.append_nil]
  | case4 a b c rest ih =>
      intro i hdrop
      have hrest : data.drop (i + [a, b, c].length) = rest :=
        drop_succ_of_cons (drop_succ_of_cons (drop_succ_of_cons hdrop))
      rw [encodeGroups_group hword [a, b, c] hdrop (List.cons_ne_nil _ _) le_rfl
        (.inl rfl), ih hrest, base64EncodeLoop, Except.map]

end Encode

section Decode

variable {encoded : Bytes} {i n : ℕ} {val : UInt32}

theorem decodeIdx_eq (c : UInt8) :
    decodeIdx c = orError (base64Index c) (.refused .deserializationError) := by
  have hc := c.toNat_lt
  have hle : ∀ {a b : UInt8}, a ≤ b → a.toNat ≤ b.toNat := UInt8.le_iff_toNat_le.mp
  unfold decodeIdx base64Index
  split_ifs with hupper hlower hdigit hplus hslash
  · have hlow : 65 ≤ c.toNat := hle hupper.1
    rw [checkedSub_of_le hlow]
    rfl
  · have hlow : 97 ≤ c.toNat := hle hlower.1
    have hhigh : c.toNat ≤ 122 := hle hlower.2
    rw [checkedSub_of_le hlow, Option.bind_some, u8CheckedAdd_of_lt (by omega)]
    rfl
  · have hlow : 48 ≤ c.toNat := hle hdigit.1
    have hhigh : c.toNat ≤ 57 := hle hdigit.2
    rw [checkedSub_of_le hlow, Option.bind_some, u8CheckedAdd_of_lt (by omega)]
    rfl
  · rfl
  · rfl
  · rfl

/-- The indices of a group. -/
def base64Indices (group : Bytes) : Except Error (List ℕ) :=
  group.mapM fun c => orError (base64Index c) Error.deserializationError

theorem base64Indices_cons (c : UInt8) (group : Bytes) :
    base64Indices (c :: group) = (do
      let idx ← orError (base64Index c) Error.deserializationError
      let indices ← base64Indices group
      pure (idx :: indices)) := List.mapM_cons

theorem base64Indices_ok (group : Bytes) :
    ∀ {indices : List ℕ}, base64Indices group = .ok indices →
      indices.length = group.length ∧ ∀ idx ∈ indices, idx < 64 := by
  induction group with
  | nil =>
      intro indices h
      obtain rfl := Except.ok.inj h
      exact ⟨rfl, fun idx hidx => absurd hidx List.not_mem_nil⟩
  | cons c group ih =>
      intro indices h
      rw [base64Indices_cons] at h
      obtain ⟨idx, hidx, h⟩ := Except.bind_eq_ok.mp h
      obtain ⟨rest, hrest, h⟩ := Except.bind_eq_ok.mp h
      obtain rfl := Except.ok.inj h
      obtain ⟨hlen, hlt⟩ := ih hrest
      refine ⟨by rw [List.length_cons, List.length_cons, hlen], ?_⟩
      intro idx' hidx'
      rcases List.mem_cons.mp hidx' with rfl | hmem
      · exact (base64Char_index (orError_eq_ok.mp hidx)).1
      · exact hlt idx' hmem

/-- The word that indices are shifted into. -/
def shiftIndices (val : UInt32) (indices : List ℕ) : UInt32 :=
  indices.foldl (fun (val : UInt32) (idx : ℕ) => val <<< 6 ||| UInt32.ofNat idx) val

theorem toNat_shiftIndices (indices : List ℕ) :
    ∀ {n : ℕ} {v : UInt32}, (∀ idx ∈ indices, idx < 64) → v.toNat < 64 ^ n →
      n + indices.length ≤ 4 →
      (shiftIndices v indices).toNat = indices.foldl (fun val idx => val * 64 + idx) v.toNat ∧
        (shiftIndices v indices).toNat < 64 ^ (n + indices.length) := by
  induction indices with
  | nil => exact fun _ hval _ => ⟨rfl, hval⟩
  | cons idx indices ih =>
      intro n val hidx hval hlen
      rw [List.length_cons] at hlen
      have hlt := hidx idx List.mem_cons_self
      have hsmall : (64 : ℕ) ^ n ≤ 64 ^ 3 := Nat.pow_le_pow_right (by omega) (by omega)
      have hshift : (val <<< 6 ||| UInt32.ofNat idx).toNat = val.toNat * 64 + idx :=
        toNat_shiftIdx hlt (by omega)
      have hnext : (val <<< 6 ||| UInt32.ofNat idx).toNat < 64 ^ (n + 1) := by
        rw [hshift, pow_succ]
        omega
      obtain ⟨heq, hbound⟩ := ih (fun idx h => hidx idx (List.mem_cons_of_mem _ h)) hnext (by omega)
      rw [hshift] at heq
      rw [shiftIndices, List.foldl_cons, List.foldl_cons, List.length_cons,
        Nat.add_comm indices.length, ← Nat.add_assoc]
      exact ⟨heq, hbound⟩

theorem decodeFill_cons {c : UInt8} {rest : Bytes} (hdrop : encoded.drop i = c :: rest) (hn : n < 4)
    (hword : encoded.length < u64Size) :
    decodeFill encoded i n val = (do
      let idx ← orError (base64Index c) (.refused .deserializationError)
      decodeFill encoded (i + 1) (n + 1) (val <<< 6 ||| UInt32.ofNat idx)) := by
  have hi := lt_length_of_drop hdrop
  have hc : encoded[i] = c := by
    rw [List.drop_eq_getElem_cons hi] at hdrop
    exact (List.cons.inj hdrop).1
  rw [decodeFill, if_pos hn, dif_pos hi, hc, decodeIdx_eq]
  cases orError (base64Index c) (Base64Error.refused .deserializationError) with
  | error e => rfl
  | ok idx =>
      dsimp only [bind, Except.bind]
      split
      · rename_i hadd
        rw [u8CheckedAdd_of_lt (by omega)] at hadd
        cases hadd
      · rename_i n' hadd
        obtain rfl := u8CheckedAdd_eq hadd
        rw [checkedAdd_of_lt (by omega)]

theorem decodeFill_end (h : n = 4 ∨ encoded.drop i = []) :
    decodeFill encoded i n val = .ok (i, n, val) := by
  rw [decodeFill]
  split
  · rename_i hn
    have hnil := h.resolve_left (by omega)
    rw [dif_neg (by rw [List.drop_eq_nil_iff] at hnil; omega)]
  · rfl

theorem decodeFill_group (hword : encoded.length < u64Size) {rest : Bytes} (group : Bytes) :
    ∀ {i n : ℕ} {v : UInt32}, encoded.drop i = group ++ rest → n + group.length ≤ 4 →
      n + group.length = 4 ∨ rest = [] →
      decodeFill encoded i n v = ((base64Indices group).mapError .refused).map fun indices =>
        (i + group.length, n + group.length, shiftIndices v indices) := by
  induction group with
  | nil =>
      intro i n val hdrop _ hfull
      exact decodeFill_end (hfull.imp id fun hrest => by rw [hdrop, hrest, List.nil_append])
  | cons c group ih =>
      intro i n val hdrop hlen hfull
      rw [List.length_cons] at hlen hfull
      rw [decodeFill_cons hdrop (by omega) hword, base64Indices_cons]
      cases base64Index c with
      | none => rfl
      | some idx =>
          have hrest := ih (i := i + 1) (n := n + 1) (v := val <<< 6 ||| UInt32.ofNat idx)
            (drop_succ_of_cons hdrop) (by omega) (hfull.imp (fun h => by omega) id)
          dsimp only [orError, bind, Except.bind]
          rw [hrest]
          cases base64Indices group with
          | error e => rfl
          | ok indices =>
              have hi : i + 1 + group.length = i + (c :: group).length := by
                rw [List.length_cons]
                omega
              have hn : n + 1 + group.length = n + (c :: group).length := by
                rw [List.length_cons]
                omega
              rw [hi, hn]
              rfl

theorem flatten_map_ite {α β : Type} (p : α → Prop) [DecidablePred p] (f : α → β) (xs : List α) :
    (xs.map fun x => if p x then [f x] else []).flatten =
      xs.filterMap fun x => if p x then some (f x) else none := by
  induction xs with
  | nil => rfl
  | cons x xs ih =>
      rw [List.map_cons, List.flatten_cons, ih, List.filterMap_cons]
      split_ifs
      · rfl
      · rfl

theorem decodeGroups_group (hword : encoded.length < u64Size) (group : Bytes) {rest : Bytes}
    (hdrop : encoded.drop i = group ++ rest) (hne : group ≠ []) (hlen : group.length ≤ 4)
    (hfull : group.length = 4 ∨ rest = []) :
    decodeGroups encoded i = (do
      let bytes ← (base64DecodeGroup group).mapError .refused
      let rest ← decodeGroups encoded (i + group.length)
      pure (bytes ++ rest)) := by
  have hi : i < encoded.length := by
    by_contra hge
    rw [List.drop_eq_nil_of_le (by omega)] at hdrop
    exact hne (List.append_eq_nil_iff.mp hdrop.symm).1
  have hpos : 1 ≤ group.length := List.length_pos_iff.mpr hne
  have hfill := decodeFill_group (n := 0) (v := 0) hword group hdrop (by omega)
    (hfull.imp (fun h => by omega) id)
  have hgroup : base64DecodeGroup group = (base64Indices group).bind fun indices =>
      let val := indices.foldl (fun val idx => val * 64 + idx) 0
      let val := if group.length = 3 then val * 64 else if group.length = 2 then val * 4096 else val
      pure ([0, 1, 2].filterMap fun j => if j < group.length - 1
        then some (UInt8.ofNat (val / 256 ^ (2 - j) % 256)) else none) := rfl
  rw [decodeGroups, dif_pos hi, hgroup]
  cases hindices : base64Indices group with
  | error e =>
      rw [hindices] at hfill
      split
      · rename_i e' he'
        rw [hfill] at he'
        obtain rfl := Except.error.inj he'
        rfl
      · rename_i r₀ r₁ r₂ hr
        rw [hfill] at hr
        cases hr
  | ok indices =>
      rw [hindices] at hfill
      obtain ⟨hlength, hlt⟩ := base64Indices_ok group hindices
      obtain ⟨hval, hbound⟩ := toNat_shiftIndices indices (n := 0) (v := 0) hlt (by decide)
        (by omega)
      rw [Nat.zero_add, hlength] at hbound
      replace hfill : decodeFill encoded i 0 0 =
          .ok (i + group.length, group.length, shiftIndices 0 indices) := by
        rw [hfill, Nat.zero_add]
        rfl
      generalize shiftIndices 0 indices = val at hfill hval hbound
      have hshifted : ((if group.length = 3 then val <<< 6 else if group.length = 2 then val <<< 12
          else val) : UInt32).toNat =
          if group.length = 3 then val.toNat * 64 else if group.length = 2 then val.toNat * 4096
            else val.toNat := by
        split
        · rename_i hthree
          rw [hthree] at hbound
          rw [UInt32.toNat_shiftLeft, Nat.shiftLeft_eq]
          exact Nat.mod_eq_of_lt (by norm_num [UInt32.toNat_ofNat]; omega)
        · split
          · rename_i htwo
            rw [htwo] at hbound
            rw [UInt32.toNat_shiftLeft, Nat.shiftLeft_eq]
            exact Nat.mod_eq_of_lt (by norm_num [UInt32.toNat_ofNat]; omega)
          · rfl
      have hbytes : [0, 1, 2].mapM (decodeByte (if group.length = 3 then val <<< 6
          else if group.length = 2 then val <<< 12 else val) group.length) =
          .ok ([0, 1, 2].map fun j => if j < group.length - 1 then
            [UInt8.ofNat ((if group.length = 3 then val.toNat * 64 else if group.length = 2
              then val.toNat * 4096 else val.toNat) / 256 ^ (2 - j) % 256)] else []) := by
        simp only [List.mapM_cons, List.mapM_nil, decodeByte_eq hpos (show 0 ≤ 2 by omega),
          decodeByte_eq hpos (show 1 ≤ 2 by omega), decodeByte_eq hpos (le_refl 2), hshifted]
        rfl
      split
      · rename_i e he
        rw [hfill] at he
        cases he
      · rename_i r₀ r₁ r₂ hr
        rw [hfill] at hr
        obtain ⟨rfl, rfl, rfl⟩ := hr
        rw [hval, UInt32.toNat_zero] at hbytes
        simp only [hbytes, Except.mapError, bind, Except.bind, pure, Except.pure, flatten_map_ite]

theorem decodeGroups_eq (hword : encoded.length < u64Size) (rest : Bytes) :
    ∀ {i : ℕ}, encoded.drop i = rest →
      decodeGroups encoded i = (base64DecodeLoop rest).mapError .refused := by
  have hnil : ∀ {i : ℕ}, encoded.drop i = [] → decodeGroups encoded i = .ok [] := by
    intro i hdrop
    rw [List.drop_eq_nil_iff] at hdrop
    rw [decodeGroups, dif_neg (by omega)]
  have hlast : ∀ {i : ℕ} {group : Bytes}, encoded.drop i = group → group ≠ [] → group.length ≤ 4 →
      decodeGroups encoded i = (base64DecodeGroup group).mapError .refused := by
    intro i group hdrop hne hlen
    have hrest : encoded.drop (i + group.length) = [] := by
      rw [← List.drop_drop, hdrop, List.drop_length]
    rw [decodeGroups_group hword group (hdrop.trans (List.append_nil group).symm) hne hlen (.inr rfl),
      hnil hrest]
    cases base64DecodeGroup group with
    | error e => rfl
    | ok bytes => exact congrArg Except.ok (List.append_nil bytes)
  induction rest using base64DecodeLoop.induct with
  | case1 => exact hnil
  | case2 a => exact fun hdrop => hlast hdrop (List.cons_ne_nil _ _) (by simp)
  | case3 a b => exact fun hdrop => hlast hdrop (List.cons_ne_nil _ _) (by simp)
  | case4 a b c => exact fun hdrop => hlast hdrop (List.cons_ne_nil _ _) (by simp)
  | case5 a b c d rest ih =>
      intro i hdrop
      have hrest : encoded.drop (i + [a, b, c, d].length) = rest :=
        drop_succ_of_cons (drop_succ_of_cons (drop_succ_of_cons (drop_succ_of_cons hdrop)))
      rw [decodeGroups_group hword [a, b, c, d] hdrop (List.cons_ne_nil _ _) le_rfl
        (.inl rfl), ih hrest, base64DecodeLoop]
      cases base64DecodeGroup [a, b, c, d] with
      | error e => rfl
      | ok bytes =>
          cases base64DecodeLoop rest with
          | error e => rfl
          | ok rest => rfl

end Decode

/-- The loops encode as the groups do. -/
theorem base64EncodeChecked_eq {data : Bytes} (h : data.length < i64Size) :
    base64EncodeChecked data = .ok (base64EncodeLoop data) := by
  have hword : data.length + 2 < u64Size := by
    rw [i64Size] at h
    rw [u64Size]
    omega
  have hcapacity : ((checkedAdd data.length 2).bind (checkedDiv · 3)).bind (checkedMul · 4) =
      some (4 * ((data.length + 2) / 3)) := by
    rw [checkedAdd_of_lt hword, Option.bind_some, checkedDiv, if_neg (by decide), Option.bind_some]
    refine checkedMul_of_lt ?_
    rw [i64Size] at h
    rw [u64Size]
    omega
  rw [base64EncodeChecked, hcapacity, arith_some]
  exact encodeGroups_eq (by omega) data rfl

/-- The loops decode as the groups do. -/
theorem base64DecodeChecked_eq {encoded : Bytes} (h : encoded.length < u64Size) :
    base64DecodeChecked encoded = (base64Decode encoded).mapError .refused := by
  have hcapacity : (checkedDiv encoded.length 4).bind (checkedMul · 3) =
      some (3 * (encoded.length / 4)) := by
    rw [checkedDiv, if_neg (by decide), Option.bind_some]
    refine checkedMul_of_lt ?_
    omega
  have hstrip : (stripPadding encoded).length < u64Size := by
    obtain ⟨k, -, htext⟩ := append_stripPadding encoded
    have hlen := congrArg List.length htext
    rw [List.length_append] at hlen
    omega
  rw [base64DecodeChecked, base64Decode]
  split
  · rw [hcapacity, arith_some]
    exact decodeGroups_eq hstrip _ rfl
  · rfl

/-! ## Accepted texts -/

/-- Characters of the alphabet in groups of four, where up to two `=` may stand at the end. -/
def Base64Text (text : Bytes) : Prop :=
  text.length % 4 = 0 ∧ ∃ run : Bytes, ∃ k ≤ 2, text = run ++ List.replicate k base64Pad ∧
    ∀ c ∈ run, c ∈ base64Chars

theorem mem_base64Chars_iff {c : UInt8} : c ∈ base64Chars ↔ ∃ i, base64Index c = some i := by
  have hlen : base64Chars.length = 64 := rfl
  constructor
  · intro hc
    obtain ⟨i, hi, rfl⟩ := List.getElem_of_mem hc
    have hchar : base64Char i = base64Chars[i] := by
      rw [base64Char, List.getD_eq_getElem?_getD, List.getElem?_eq_getElem hi, Option.getD_some]
    exact ⟨i, hchar ▸ base64Index_char (hlen ▸ hi)⟩
  · rintro ⟨i, hindex⟩
    obtain ⟨hi, rfl⟩ := base64Char_index hindex
    rw [base64Char, List.getD_eq_getElem?_getD, List.getElem?_eq_getElem (hlen ▸ hi), Option.getD_some]
    exact List.getElem_mem _

theorem pad_notMem_base64Chars : base64Pad ∉ base64Chars := by
  intro hpad
  obtain ⟨i, hindex⟩ := mem_base64Chars_iff.mp hpad
  cases hindex

theorem base64DecodeGroup_eq_ok_iff {group : Bytes} :
    (∃ bytes, base64DecodeGroup group = .ok bytes) ↔ ∀ c ∈ group, ∃ i, base64Index c = some i := by
  constructor
  · rintro ⟨bytes, h⟩
    exact base64Index_of_ok h
  · intro h
    have hindices : ∃ indices, base64Indices group = .ok indices := by
      induction group with
      | nil => exact ⟨[], rfl⟩
      | cons c group ih =>
          obtain ⟨idx, hidx⟩ := h c List.mem_cons_self
          obtain ⟨indices, hindices⟩ := ih fun c hc => h c (List.mem_cons_of_mem _ hc)
          refine ⟨idx :: indices, ?_⟩
          rw [base64Indices_cons, hidx, hindices]
          rfl
    obtain ⟨indices, hindices⟩ := hindices
    exact ⟨_, Except.bind_eq_ok.mpr ⟨indices, hindices, rfl⟩⟩

theorem base64DecodeLoop_eq_ok_iff (encoded : Bytes) :
    (∃ data, base64DecodeLoop encoded = .ok data) ↔
      ∀ c ∈ encoded, ∃ i, base64Index c = some i := by
  induction encoded using base64DecodeLoop.induct with
  | case1 => exact iff_of_true ⟨[], rfl⟩ fun c hc => absurd hc List.not_mem_nil
  | case2 a => exact base64DecodeGroup_eq_ok_iff
  | case3 a b => exact base64DecodeGroup_eq_ok_iff
  | case4 a b c => exact base64DecodeGroup_eq_ok_iff
  | case5 a b c d encoded ih =>
      have hsplit : a :: b :: c :: d :: encoded = [a, b, c, d] ++ encoded := rfl
      simp only [hsplit, List.mem_append, or_imp, forall_and, ← ih, ← base64DecodeGroup_eq_ok_iff]
      constructor
      · rintro ⟨data, h⟩
        obtain ⟨bytes, hbytes, h⟩ := Except.bind_eq_ok.mp h
        obtain ⟨rest, hrest, -⟩ := Except.bind_eq_ok.mp h
        exact ⟨⟨bytes, hbytes⟩, rest, hrest⟩
      · rintro ⟨⟨bytes, hbytes⟩, rest, hrest⟩
        exact ⟨_, Except.bind_eq_ok.mpr ⟨bytes, hbytes, Except.bind_eq_ok.mpr ⟨rest, hrest, rfl⟩⟩⟩

/-- The padding that is taken off is all of it. -/
theorem stripPadding_run {run : Bytes} (hrun : ∀ c ∈ run, c ∈ base64Chars) {k : ℕ} (hk : k ≤ 2)
    (hlen : (run ++ List.replicate k base64Pad).length % 4 = 0) :
    stripPadding (run ++ List.replicate k base64Pad) = run := by
  have hlast : ∀ {body : Bytes} {c : UInt8}, run = body ++ [c] → c ≠ base64Pad := by
    rintro body c rfl rfl
    exact pad_notMem_base64Chars (hrun base64Pad (by simp))
  rcases List.eq_nil_or_concat run with hnil | ⟨body, c, hconcat⟩
  · subst hnil
    rw [List.nil_append, List.length_replicate] at hlen
    obtain rfl : k = 0 := by omega
    rfl
  · rw [List.concat_eq_append] at hconcat
    have hc := hlast hconcat
    subst hconcat
    obtain rfl | rfl | rfl : k = 0 ∨ k = 1 ∨ k = 2 := by omega
    · rw [List.replicate_zero, List.append_nil, stripPadding_none body hc]
    · rw [List.append_assoc]
      exact stripPadding_one body hc
    · exact stripPadding_two _

/-- The texts that are decoded. -/
theorem base64Decode_eq_ok_iff (text : Bytes) :
    (∃ data, base64Decode text = .ok data) ↔ Base64Text text := by
  rw [base64Decode]
  split
  · rename_i hfour
    rw [base64DecodeLoop_eq_ok_iff]
    constructor
    · intro h
      obtain ⟨k, hk, htext⟩ := append_stripPadding text
      exact ⟨hfour, stripPadding text, k, hk, htext, fun c hc => mem_base64Chars_iff.mpr (h c hc)⟩
    · rintro ⟨-, run, k, hk, rfl, hrun⟩
      rw [stripPadding_run hrun hk hfour]
      exact fun c hc => mem_base64Chars_iff.mp (hrun c hc)
  · rename_i hfour
    refine iff_of_false ?_ fun h => hfour h.1
    rintro ⟨data, h⟩
    cases h

/-- The loops of the encoder invert those of the decoder, the decoder accepts the base64 texts and
no others, and no check of an operation fails on the way. -/
theorem base64Loops_roundTrip (data text : Bytes) (hdata : data.length < i64Size)
    (htext : text.length < i64Size) :
    (∃ encoded, base64EncodeChecked data = .ok encoded ∧
      encoded.length = 4 * ((data.length + 2) / 3) ∧ base64DecodeChecked encoded = .ok data) ∧
    ((∃ decoded, base64DecodeChecked text = .ok decoded) ↔ Base64Text text) ∧
    ∀ e, base64DecodeChecked text ≠ .error (.arithmetic e) := by
  have hlength := length_base64EncodeLoop data
  have hencoded : (base64EncodeLoop data).length < u64Size := by
    rw [length_base64EncodeLoop]
    rw [i64Size] at hdata
    rw [u64Size]
    omega
  have hword : text.length < u64Size := htext.trans i64Size_lt_u64Size
  refine ⟨⟨_, base64EncodeChecked_eq hdata, hlength, ?_⟩, ?_, ?_⟩
  · have hdata' : data.length + 2 < u64Size := by
      rw [i64Size] at hdata
      rw [u64Size]
      omega
    rw [base64DecodeChecked_eq hencoded,
      base64Decode_encode (base64Encode_eq_ok.mpr ⟨rfl, hdata', hencoded⟩)]
    rfl
  · rw [base64DecodeChecked_eq hword, ← base64Decode_eq_ok_iff]
    simp only [Except.mapError_eq_ok]
  · intro e h
    rw [base64DecodeChecked_eq hword] at h
    cases hdecode : base64Decode text with
    | error e' =>
        rw [hdecode] at h
        cases h
    | ok decoded =>
        rw [hdecode] at h
        cases h

theorem base64Loops_roundTrip_four :
    (∃ encoded, base64EncodeChecked [77, 76, 65, 50] = .ok encoded ∧ encoded.length = 8 ∧
      base64DecodeChecked encoded = .ok [77, 76, 65, 50]) ∧
    ∃ decoded, base64DecodeChecked [81, 81, 61, 61] = .ok decoded := by
  obtain ⟨hencode, htext, -⟩ := base64Loops_roundTrip [77, 76, 65, 50] [81, 81, 61, 61]
    (by decide) (by decide)
  exact ⟨hencode, htext.mpr ⟨rfl, [81, 81], 2, le_rfl, rfl, by decide +kernel⟩⟩

end Mla
