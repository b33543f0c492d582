import Mla.Error
import Mla.Io.Word

/-!
# Base64

Three bytes are four characters of 6 bits each. One byte or two at the end are two or three
characters, padded with `=`; the bits of the last character that are not used are zero when
they are written, and are not looked at when they are read. `spareBits` tells these bits.
The shifts and masks of the source are quotients and remainders of natural numbers here.
-/

namespace Mla

open Io

/-- `BASE64_CHARS`. -/
def base64Chars : Bytes :=
  ascii ['A', 'B', 'C', 'D', 'E', 'F', 'G', 'H', 'I', 'J', 'K', 'L', 'M', 'N', 'O', 'P', 'Q', 'R',
    'S', 'T', 'U', 'V', 'W', 'X', 'Y', 'Z', 'a', 'b', 'c', 'd', 'e', 'f', 'g', 'h', 'i', 'j', 'k',
    'l', 'm', 'n', 'o', 'p', 'q', 'r', 's', 't', 'u', 'v', 'w', 'x', 'y', 'z', '0', '1', '2', '3',
    '4', '5', '6', '7', '8', '9', '+', '/']

/-- `b'='`. -/
def base64Pad : UInt8 := 61

def base64Char (idx : ℕ) : UInt8 := base64Chars.getD idx 0

/-- The four characters of up to three bytes. -/
def base64EncodeGroup (group : Bytes) : Bytes :=
  let n := group.length
  let val := group.foldl (fun val b => val * 256 + b.toNat) 0
  let val := if n = 1 then val * 65536 else if n = 2 then val * 256 else val
  [0, 1, 2, 3].map fun j => if j < n + 1 then base64Char (val / 64 ^ (3 - j) % 64) else base64Pad

def base64EncodeLoop : Bytes → Bytes
  | [] => []
  | [a] => base64EncodeGroup [a]
  | [a, b] => base64EncodeGroup [a, b]
  | a :: b :: c :: data => base64EncodeGroup [a, b, c] ++ base64EncodeLoop data

def base64Encode (data : Bytes) : Except Error Bytes := do
  -- The capacity of the text is computed first.
  let groups ← orError (checkedAdd data.length 2) .serializationError
  let _ ← orError (checkedMul (groups / 3) 4) .serializationError
  pure (base64EncodeLoop data)

def base64Index (c : UInt8) : Option ℕ :=
  if 65 ≤ c ∧ c ≤ 90 then some (c.toNat - 65)
  else if 97 ≤ c ∧ c ≤ 122 then some (c.toNat - 97 + 26)
  else if 48 ≤ c ∧ c ≤ 57 then some (c.toNat - 48 + 52)
  else if c = 43 then some 62
  else if c = 47 then some 63
  else none

/-- The bytes of up to four characters. -/
def base64DecodeGroup (group : Bytes) : Except Error Bytes := do
  let n := group.length
  let indices ← group.mapM fun c => orError (base64Index c) Error.deserializationError
  let val := indices.foldl (fun val idx => val * 64 + idx) 0
  let val := if n = 3 then val * 64 else if n = 2 then val * 4096 else val
  pure ([0, 1, 2].filterMap fun j =>
    if j < n - 1 then some (UInt8.ofNat (val / 256 ^ (2 - j) % 256)) else none)

def base64DecodeLoop : Bytes → Except Error Bytes
  | [] => .ok []
  | [a] => base64DecodeGroup [a]
  | [a, b] => base64DecodeGroup [a, b]
  | [a, b, c] => base64DecodeGroup [a, b, c]
  | a :: b :: c :: d :: encoded => do
      let bytes ← base64DecodeGroup [a, b, c, d]
      let rest ← base64DecodeLoop encoded
      pure (bytes ++ rest)

/-- What stands before one or two `=`. -/
def stripPadding (encoded : Bytes) : Bytes :=
  if [base64Pad, base64Pad] <:+ encoded then encoded.take (encoded.length - 2)
  else if [base64Pad] <:+ encoded then encoded.take (encoded.length - 1)
  else encoded

def base64Decode (encoded : Bytes) : Except Error Bytes :=
  if encoded.length % 4 = 0 then base64DecodeLoop (stripPadding encoded)
  else .error .deserializationError

/-! ## Characters -/

theorem base64Index_char {i : ℕ} (hi : i < 64) : base64Index (base64Char i) = some i := by
  have hall : ∀ i : Fin 64, base64Index (base64Char i) = some i.val := by decide +kernel
  exact hall ⟨i, hi⟩

theorem base64Char_index {c : UInt8} {i : ℕ} (h : base64Index c = some i) :
    i < 64 ∧ base64Char i = c := by
  have hall : ∀ c : UInt8, (base64Index c).all fun i => i < 64 ∧ base64Char i = c :=
    forall_byte (by decide +kernel)
  have hc := hall c
  rw [h, Option.all_some, decide_eq_true_iff] at hc
  exact hc

/-- What is not a character of the alphabet is none of its characters. -/
theorem base64Char_ne {c : UInt8} (hc : base64Index c = none) {i : ℕ} (hi : i < 64) :
    base64Char i ≠ c := by
  rintro rfl
  rw [base64Index_char hi] at hc
  cases hc

theorem base64Char_ne_pad {i : ℕ} (hi : i < 64) : base64Char i ≠ base64Pad := base64Char_ne rfl hi

/-! ## Groups -/

theorem base64EncodeGroup_one (a : UInt8) :
    base64EncodeGroup [a] =
      [base64Char (a.toNat / 4), base64Char (a.toNat % 4 * 16), base64Pad, base64Pad] := by
  have ha := a.toNat_lt
  have h0 : a.toNat * 65536 / 262144 % 64 = a.toNat / 4 := by omega
  have h1 : a.toNat * 65536 / 4096 % 64 = a.toNat % 4 * 16 := by omega
  simp [base64EncodeGroup, h0, h1]

theorem base64EncodeGroup_two (a b : UInt8) :
    base64EncodeGroup [a, b] =
      [base64Char (a.toNat / 4), base64Char (a.toNat % 4 * 16 + b.toNat / 16),
        base64Char (b.toNat % 16 * 4), base64Pad] := by
  have ha := a.toNat_lt
  have hb := b.toNat_lt
  have h0 : (a.toNat * 256 + b.toNat) * 256 / 262144 % 64 = a.toNat / 4 := by omega
  have h1 : (a.toNat * 256 + b.toNat) * 256 / 4096 % 64 = a.toNat % 4 * 16 + b.toNat / 16 := by omega
  have h2 : (a.toNat * 256 + b.toNat) * 256 / 64 % 64 = b.toNat % 16 * 4 := by omega
  simp [base64EncodeGroup, h0, h1, h2]

theorem base64EncodeGroup_three (a b c : UInt8) :
    base64EncodeGroup [a, b, c] =
      [base64Char (a.toNat / 4), base64Char (a.toNat % 4 * 16 + b.toNat / 16),
        base64Char (b.toNat % 16 * 4 + c.toNat / 64), base64Char (c.toNat % 64)] := by
  have ha := a.toNat_lt
  have hb := b.toNat_lt
  have hc := c.toNat_lt
  have h0 : ((a.toNat * 256 + b.toNat) * 256 + c.toNat) / 262144 % 64 = a.toNat / 4 := by omega
  have h1 : ((a.toNat * 256 + b.toNat) * 256 + c.toNat) / 4096 % 64 =
      a.toNat % 4 * 16 + b.toNat / 16 := by omega
  have h2 : ((a.toNat * 256 + b.toNat) * 256 + c.toNat) / 64 % 64 =
      b.toNat % 16 * 4 + c.toNat / 64 := by omega
  have h3 : ((a.toNat * 256 + b.toNat) * 256 + c.toNat) % 64 = c.toNat % 64 := by omega
  simp [base64EncodeGroup, h0, h1, h2, h3]

section Decode

variable {c₀ c₁ c₂ c₃ : UInt8} {w x y z : ℕ}

theorem base64DecodeGroup_two (h₀ : base64Index c₀ = some w) (h₁ : base64Index c₁ = some x) :
    base64DecodeGroup [c₀, c₁] = .ok [UInt8.ofNat (w * 4 + x / 16)] := by
  have hw := (base64Char_index h₀).1
  have hx := (base64Char_index h₁).1
  have hval : (w * 64 + x) * 4096 / 65536 % 256 = w * 4 + x / 16 := by omega
  have hmap : [c₀, c₁].mapM (fun c => orError (base64Index c) Error.deserializationError) =
      .ok [w, x] := by
    rw [List.mapM_cons, List.mapM_cons, List.mapM_nil, h₀, h₁]
    rfl
  rw [← hval, base64DecodeGroup, hmap]
  simp [bind, Except.bind, pure, Except.pure]

theorem base64DecodeGroup_three (h₀ : base64Index c₀ = some w) (h₁ : base64Index c₁ = some x)
    (h₂ : base64Index c₂ = some y) :
    base64DecodeGroup [c₀, c₁, c₂] =
      .ok [UInt8.ofNat (w * 4 + x / 16), UInt8.ofNat (x % 16 * 16 + y / 4)] := by
  have hw := (base64Char_index h₀).1
  have hx := (base64Char_index h₁).1
  have hy := (base64Char_index h₂).1
  have hval₀ : ((w * 64 + x) * 64 + y) * 64 / 65536 % 256 = w * 4 + x / 16 := by omega
  have hval₁ : ((w * 64 + x) * 64 + y) * 64 / 256 % 256 = x % 16 * 16 + y / 4 := by omega
  have hmap : [c₀, c₁, c₂].mapM (fun c => orError (base64Index c) Error.deserializationError) =
      .ok [w, x, y] := by
    rw [List.mapM_cons, List.mapM_cons, List.mapM_cons, List.mapM_nil, h₀, h₁, h₂]
    rfl
  rw [← hval₀, ← hval₁, base64DecodeGroup, hmap]
  simp [bind, Except.bind, pure, Except.pure]

theorem base64DecodeGroup_four (h₀ : base64Index c₀ = some w) (h₁ : base64Index c₁ = some x)
    (h₂ : base64Index c₂ = some y) (h₃ : base64Index c₃ = some z) :
    base64DecodeGroup [c₀, c₁, c₂, c₃] =
      .ok [UInt8.ofNat (w * 4 + x / 16), UInt8.ofNat (x % 16 * 16 + y / 4),
        UInt8.ofNat (y % 4 * 64 + z)] := by
  have hw := (base64Char_index h₀).1
  have hx := (base64Char_index h₁).1
  have hy := (base64Char_index h₂).1
  have hz := (base64Char_index h₃).1
  have hval₀ : (((w * 64 + x) * 64 + y) * 64 + z) / 65536 % 256 = w * 4 + x / 16 := by omega
  have hval₁ : (((w * 64 + x) * 64 + y) * 64 + z) / 256 % 256 = x % 16 * 16 + y / 4 := by omega
  have hval₂ : (((w * 64 + x) * 64 + y) * 64 + z) / 1 % 256 = y % 4 * 64 + z := by omega
  have hmap : [c₀, c₁, c₂, c₃].mapM
      (fun c => orError (base64Index c) Error.deserializationError) = .ok [w, x, y, z] := by
    rw [List.mapM_cons, List.mapM_cons, List.mapM_cons, List.mapM_cons, List.mapM_nil, h₀, h₁, h₂,
      h₃]
    rfl
  rw [← hval₀, ← hval₁, ← hval₂, base64DecodeGroup, hmap]
  simp [bind, Except.bind, pure, Except.pure]

end Decode

/-- Only characters of the alphabet are decoded. -/
theorem base64Index_of_ok {group bytes : Bytes} (h : base64DecodeGroup group = .ok bytes) :
    ∀ c ∈ group, ∃ i, base64Index c = some i := by
  obtain ⟨indices, hmap, -⟩ := Except.bind_eq_ok.mp h
  clear h
  induction group generalizing indices with
  | nil => exact fun c hc => absurd hc List.not_mem_nil
  | cons c group ih =>
      rw [List.mapM_cons] at hmap
      obtain ⟨i, hi, hrest⟩ := Except.bind_eq_ok.mp hmap
      obtain ⟨indices', hrest, -⟩ := Except.bind_eq_ok.mp hrest
      intro c' hc'
      rcases List.mem_cons.mp hc' with rfl | hc'
      · exact ⟨i, orError_eq_ok.mp hi⟩
      · exact ih indices' hrest c' hc'

theorem toNat_ofNat_of_lt {n : ℕ} (h : n < 256) : (UInt8.ofNat n).toNat = n := by
  rw [UInt8.toNat_ofNat']
  exact Nat.mod_eq_of_lt h

/-- Four characters are encoded back. -/
theorem base64EncodeGroup_decoded {c₀ c₁ c₂ c₃ : UInt8} {bytes : Bytes}
    (h : base64DecodeGroup [c₀, c₁, c₂, c₃] = .ok bytes) :
    ∃ a b c, bytes = [a, b, c] ∧ base64EncodeGroup [a, b, c] = [c₀, c₁, c₂, c₃] := by
  obtain ⟨w, h₀⟩ := base64Index_of_ok h c₀ (by simp)
  obtain ⟨x, h₁⟩ := base64Index_of_ok h c₁ (by simp)
  obtain ⟨y, h₂⟩ := base64Index_of_ok h c₂ (by simp)
  obtain ⟨z, h₃⟩ := base64Index_of_ok h c₃ (by simp)
  obtain ⟨hw, hw'⟩ := base64Char_index h₀
  obtain ⟨hx, hx'⟩ := base64Char_index h₁
  obtain ⟨hy, hy'⟩ := base64Char_index h₂
  obtain ⟨hz, hz'⟩ := base64Char_index h₃
  rw [base64DecodeGroup_four h₀ h₁ h₂ h₃] at h
  refine ⟨_, _, _, (Except.ok.inj h).symm, ?_⟩
  rw [base64EncodeGroup_three, toNat_ofNat_of_lt (by omega), toNat_ofNat_of_lt (by omega),
    toNat_ofNat_of_lt (by omega)]
  have e₀ : (w * 4 + x / 16) / 4 = w := by omega
  have e₁ : (w * 4 + x / 16) % 4 * 16 + (x % 16 * 16 + y / 4) / 16 = x := by omega
  have e₂ : (x % 16 * 16 + y / 4) % 16 * 4 + (y % 4 * 64 + z) / 64 = y := by omega
  have e₃ : (y % 4 * 64 + z) % 64 = z := by omega
  rw [e₀, e₁, e₂, e₃, hw', hx', hy', hz']

theorem base64Char_inj {i j : ℕ} (hi : i < 64) (hj : j < 64) (h : base64Char i = base64Char j) :
    i = j := by
  have hindex := base64Index_char hi
  rw [h, base64Index_char hj] at hindex
  exact (Option.some.inj hindex).symm

/-! ## Padding -/

theorem suffix_append_iff {pads xs ys : Bytes} (h : pads.length ≤ ys.length) :
    pads <:+ xs ++ ys ↔ pads <:+ ys :=
  ⟨fun hpads => List.suffix_of_suffix_length_le hpads (List.suffix_append xs ys) h,
    fun hpads => hpads.trans (List.suffix_append xs ys)⟩

theorem stripPadding_append {xs ys : Bytes} (h : 2 ≤ ys.length) :
    stripPadding (xs ++ ys) = xs ++ stripPadding ys := by
  have htake : ∀ k ≤ 2, (xs ++ ys).take ((xs ++ ys).length - k) = xs ++ ys.take (ys.length - k) := by
    intro k hk
    have hlen : (xs ++ ys).length - k = xs.length + (ys.length - k) := by
      rw [List.length_append]
      omega
    rw [hlen, List.take_length_add_append]
  have htwo : [base64Pad, base64Pad] <:+ xs ++ ys ↔ [base64Pad, base64Pad] <:+ ys :=
    suffix_append_iff h
  have hone : [base64Pad] <:+ xs ++ ys ↔ [base64Pad] <:+ ys :=
    suffix_append_iff (le_trans (Nat.le_succ 1) h)
  simp only [stripPadding, htwo, hone]
  split
  · exact htake 2 le_rfl
  · split
    · exact htake 1 (Nat.le_succ 1)
    · rfl

/-- A text is what is left of it and one or two `=`, or none. -/
theorem append_stripPadding (encoded : Bytes) :
    ∃ k ≤ 2, encoded = stripPadding encoded ++ List.replicate k base64Pad := by
  rw [stripPadding]
  split
  · rename_i hsuffix
    obtain ⟨body, rfl⟩ := hsuffix
    exact ⟨2, le_rfl, by simp⟩
  · split
    · rename_i hsuffix
      obtain ⟨body, rfl⟩ := hsuffix
      exact ⟨1, Nat.le_succ 1, by simp⟩
    · exact ⟨0, Nat.zero_le 2, by simp⟩

theorem not_suffix_of_ne {body : Bytes} {c : UInt8} {pads : Bytes} (hc : c ≠ base64Pad) :
    ¬ base64Pad :: pads <:+ body ++ c :: pads := by
  intro h
  have hlen : (base64Pad :: pads).length ≤ (c :: pads).length := le_rfl
  have heq := ((suffix_append_iff hlen).mp h).eq_of_length rfl
  exact hc (List.cons.inj heq).1.symm

theorem stripPadding_none (body : Bytes) {c : UInt8} (hc : c ≠ base64Pad) :
    stripPadding (body ++ [c]) = body ++ [c] := by
  have hone : ¬ [base64Pad] <:+ body ++ [c] := not_suffix_of_ne hc
  have htwo : ¬ [base64Pad, base64Pad] <:+ body ++ [c] :=
    fun h => hone ((List.suffix_cons base64Pad [base64Pad]).trans h)
  rw [stripPadding, if_neg htwo, if_neg hone]

theorem stripPadding_one (body : Bytes) {c : UInt8} (hc : c ≠ base64Pad) :
    stripPadding (body ++ [c, base64Pad]) = body ++ [c] := by
  have htwo : ¬ [base64Pad, base64Pad] <:+ body ++ [c, base64Pad] := not_suffix_of_ne hc
  have hsplit : body ++ [c, base64Pad] = (body ++ [c]) ++ [base64Pad] := by simp
  have hone : [base64Pad] <:+ body ++ [c, base64Pad] := ⟨body ++ [c], hsplit.symm⟩
  rw [stripPadding, if_neg htwo, if_pos hone, hsplit, List.length_append, List.length_singleton,
    Nat.add_sub_cancel, List.take_left]

theorem stripPadding_two (body : Bytes) :
    stripPadding (body ++ [base64Pad, base64Pad]) = body := by
  rw [stripPadding, if_pos (List.suffix_append body _), List.length_append]
  exact List.take_left

/-! ## Round trips -/

/-- The bits of the last character that stand for no byte. -/
def spareBits : Bytes → ℕ
  | [] => 0
  | [_] => 0
  | [_, c] => (base64Index c).getD 0 % 16
  | [_, _, c] => (base64Index c).getD 0 % 4
  | _ :: _ :: _ :: _ :: encoded => spareBits encoded

theorem length_base64EncodeLoop (data : Bytes) :
    (base64EncodeLoop data).length = 4 * ((data.length + 2) / 3) := by
  induction data using base64EncodeLoop.induct with
  | case1 => rfl
  | case2 a => simp [base64EncodeLoop, base64EncodeGroup_one]
  | case3 a b => simp [base64EncodeLoop, base64EncodeGroup_two]
  | case4 a b c data ih =>
      rw [base64EncodeLoop, base64EncodeGroup_three, List.length_append, ih]
      simp only [List.length_cons, List.length_nil]
      omega

/-- What was encoded is decoded again. -/
theorem base64DecodeLoop_encode (data : Bytes) :
    base64DecodeLoop (stripPadding (base64EncodeLoop data)) = .ok data := by
  induction data using base64EncodeLoop.induct with
  | case1 => rfl
  | case2 a =>
      have ha := a.toNat_lt
      have hbyte : a.toNat / 4 * 4 + a.toNat % 4 * 16 / 16 = a.toNat := by omega
      rw [base64EncodeLoop, base64EncodeGroup_one]
      refine (congrArg base64DecodeLoop (stripPadding_two [_, _])).trans ?_
      rw [base64DecodeLoop, base64DecodeGroup_two (base64Index_char (by omega))
        (base64Index_char (by omega)), hbyte, UInt8.ofNat_toNat]
  | case3 a b =>
      have ha := a.toNat_lt
      have hb := b.toNat_lt
      have hbyte₀ : a.toNat / 4 * 4 + (a.toNat % 4 * 16 + b.toNat / 16) / 16 = a.toNat := by omega
      have hbyte₁ : (a.toNat % 4 * 16 + b.toNat / 16) % 16 * 16 + b.toNat % 16 * 4 / 4 =
          b.toNat := by omega
      have hne := base64Char_ne_pad (show b.toNat % 16 * 4 < 64 by omega)
      rw [base64EncodeLoop, base64EncodeGroup_two]
      refine (congrArg base64DecodeLoop (stripPadding_one [_, _] hne)).trans ?_
      rw [List.cons_append, List.cons_append, List.nil_append, base64DecodeLoop,
        base64DecodeGroup_three (base64Index_char (by omega)) (base64Index_char (by omega))
          (base64Index_char (by omega)), hbyte₀, hbyte₁, UInt8.ofNat_toNat, UInt8.ofNat_toNat]
  | case4 a b c data ih =>
      have ha := a.toNat_lt
      have hb := b.toNat_lt
      have hc := c.toNat_lt
      have hbyte₀ : a.toNat / 4 * 4 + (a.toNat % 4 * 16 + b.toNat / 16) / 16 = a.toNat := by omega
      have hbyte₁ : (a.toNat % 4 * 16 + b.toNat / 16) % 16 * 16 +
          (b.toNat % 16 * 4 + c.toNat / 64) / 4 = b.toNat := by omega
      have hbyte₂ : (b.toNat % 16 * 4 + c.toNat / 64) % 4 * 64 + c.toNat % 64 = c.toNat := by omega
      have hne := base64Char_ne_pad (show c.toNat % 64 < 64 by omega)
      have hstrip : stripPadding (base64EncodeGroup [a, b, c] ++ base64EncodeLoop data) =
          base64EncodeGroup [a, b, c] ++ stripPadding (base64EncodeLoop data) := by
        cases data with
        | nil =>
            rw [base64EncodeGroup_three]
            exact stripPadding_none [_, _, _] hne
        | cons b data =>
            refine stripPadding_append ?_
            rw [length_base64EncodeLoop, List.length_cons]
            omega
      rw [base64EncodeLoop, hstrip, base64EncodeGroup_three]
      simp only [List.cons_append, List.nil_append]
      rw [base64DecodeLoop, base64DecodeGroup_four (base64Index_char (by omega))
        (base64Index_char (by omega)) (base64Index_char (by omega)) (base64Index_char (by omega)),
        ih, hbyte₀, hbyte₁, hbyte₂, UInt8.ofNat_toNat, UInt8.ofNat_toNat, UInt8.ofNat_toNat]
      rfl

/-- What was decoded is encoded again, if and only if its spare bits are zero. -/
theorem base64EncodeLoop_decode (encoded : Bytes) :
    ∀ {data : Bytes}, base64DecodeLoop encoded = .ok data → encoded.length % 4 ≠ 1 →
      (base64EncodeLoop data =
        encoded ++ List.replicate ((4 - encoded.length % 4) % 4) base64Pad ↔
          spareBits encoded = 0) := by
  induction encoded using base64DecodeLoop.induct with
  | case1 =>
      intro data h _
      obtain rfl := Except.ok.inj h
      exact iff_of_true rfl rfl
  | case2 a => exact fun _ h => absurd rfl h
  | case3 a b =>
      intro data h _
      obtain ⟨w, h₀⟩ := base64Index_of_ok h a (by simp)
      obtain ⟨x, h₁⟩ := base64Index_of_ok h b (by simp)
      obtain ⟨hw, rfl⟩ := base64Char_index h₀
      obtain ⟨hx, rfl⟩ := base64Char_index h₁
      have e₀ : (w * 4 + x / 16) / 4 = w := by omega
      have e₁ : (w * 4 + x / 16) % 4 * 16 = x / 16 * 16 := by omega
      have hchar : base64Char (x / 16 * 16) = base64Char x ↔ x % 16 = 0 := by
        constructor
        · intro heq
          have hx' := base64Char_inj (by omega) hx heq
          omega
        · intro hzero
          rw [show x / 16 * 16 = x by omega]
      rw [base64DecodeLoop, base64DecodeGroup_two h₀ h₁] at h
      obtain rfl := Except.ok.inj h
      rw [base64EncodeLoop, base64EncodeGroup_one, toNat_ofNat_of_lt (by omega), spareBits, h₁, e₀, e₁,
        Option.getD_some, ← hchar]
      simp
  | case4 a b c =>
      intro data h _
      obtain ⟨w, h₀⟩ := base64Index_of_ok h a (by simp)
      obtain ⟨x, h₁⟩ := base64Index_of_ok h b (by simp)
      obtain ⟨y, h₂⟩ := base64Index_of_ok h c (by simp)
      obtain ⟨hw, rfl⟩ := base64Char_index h₀
      obtain ⟨hx, rfl⟩ := base64Char_index h₁
      obtain ⟨hy, rfl⟩ := base64Char_index h₂
      have e₀ : (w * 4 + x / 16) / 4 = w := by omega
      have e₁ : (w * 4 + x / 16) % 4 * 16 + (x % 16 * 16 + y / 4) / 16 = x := by omega
      have e₂ : (x % 16 * 16 + y / 4) % 16 * 4 = y / 4 * 4 := by omega
      have hchar : base64Char (y / 4 * 4) = base64Char y ↔ y % 4 = 0 := by
        constructor
        · intro heq
          have hy' := base64Char_inj (by omega) hy heq
          omega
        · intro hzero
          rw [show y / 4 * 4 = y by omega]
      rw [base64DecodeLoop, base64DecodeGroup_three h₀ h₁ h₂] at h
      obtain rfl := Except.ok.inj h
      rw [base64EncodeLoop, base64EncodeGroup_two, toNat_ofNat_of_lt (by omega),
        toNat_ofNat_of_lt (by omega), spareBits, h₂, e₀, e₁, e₂, Option.getD_some, ← hchar]
      simp
  | case5 a b c d encoded ih =>
      intro data h hlen
      obtain ⟨bytes, hgroup, h⟩ := Except.bind_eq_ok.mp h
      obtain ⟨rest, hrest, h⟩ := Except.bind_eq_ok.mp h
      obtain rfl := Except.ok.inj h
      obtain ⟨x, y, z, rfl, hencode⟩ := base64EncodeGroup_decoded hgroup
      have hmod : (a :: b :: c :: d :: encoded).length % 4 = encoded.length % 4 := by
        simp only [List.length_cons]
        omega
      rw [hmod] at hlen ⊢
      have ih := ih hrest hlen
      simp only [List.cons_append, List.nil_append, base64EncodeLoop, hencode, spareBits, ← ih,
        List.cons.injEq, true_and]

theorem base64Encode_eq_ok {data text : Bytes} :
    base64Encode data = .ok text ↔
      text = base64EncodeLoop data ∧ data.length + 2 < u64Size ∧ text.length < u64Size := by
  rw [base64Encode, Except.bind_eq_ok]
  constructor
  · rintro ⟨groups, hgroups, h⟩
    obtain ⟨capacity, hcapacity, h⟩ := Except.bind_eq_ok.mp h
    obtain rfl := Except.ok.inj h
    have hadd := orError_eq_ok.mp hgroups
    obtain rfl := checkedAdd_eq hadd
    have hmul := orError_eq_ok.mp hcapacity
    have hlt := checkedMul_lt hmul
    rw [checkedMul_eq hmul] at hlt
    refine ⟨rfl, checkedAdd_lt hadd, ?_⟩
    rwa [length_base64EncodeLoop]
  · rintro ⟨rfl, hdata, htext⟩
    rw [length_base64EncodeLoop] at htext
    refine ⟨data.length + 2, orError_eq_ok.mpr (checkedAdd_of_lt hdata), Except.bind_eq_ok.mpr
      ⟨_, orError_eq_ok.mpr (checkedMul_of_lt htext), rfl⟩⟩

/-- Decoding inverts encoding. -/
theorem base64Decode_encode {data text : Bytes} (h : base64Encode data = .ok text) :
    base64Decode text = .ok data := by
  obtain ⟨rfl, -, -⟩ := base64Encode_eq_ok.mp h
  rw [base64Decode, if_pos, base64DecodeLoop_encode]
  rw [length_base64EncodeLoop, Nat.mul_mod_right]

/-- A text that is decoded is the base64 of its bytes, if and only if its spare bits are zero. -/
theorem base64Encode_decode {data text : Bytes} (h : base64Decode text = .ok data)
    (hlen : text.length < u64Size) :
    base64Encode data = .ok text ↔ spareBits (stripPadding text) = 0 := by
  rw [base64Decode] at h
  split at h
  · rename_i hfour
    obtain ⟨k, hk, htext⟩ := append_stripPadding text
    have hparts := congrArg List.length htext
    rw [List.length_append, List.length_replicate] at hparts
    have hpads : (4 - (stripPadding text).length % 4) % 4 = k := by omega
    have hiff := base64EncodeLoop_decode (stripPadding text) h (by omega)
    rw [hpads, ← htext] at hiff
    rw [base64Encode_eq_ok, ← hiff]
    refine ⟨fun h => h.1.symm, fun heq => ⟨heq.symm, ?_, hlen⟩⟩
    rw [← heq, length_base64EncodeLoop] at hlen
    have hword : u64Size % 4 = 0 := rfl
    omega
  · cases h

end Mla
