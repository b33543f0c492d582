import Mathlib.Data.List.Basic
import Mathlib.Order.MinMax

/-!
# Slices of a list

`slice l p k` is the run of at most `k` elements of `l` from position `p` on: the
elements that a reader of `l` standing at `p` is handed by a read of `k`.
-/

namespace Io

variable {α : Type*}

def slice (l : List α) (p k : ℕ) : List α :=
  (l.drop p).take k

@[simp] theorem length_slice (l : List α) (p k : ℕ) :
    (slice l p k).length = min k (l.length - p) := by
  simp [slice]

theorem length_slice_of_le {l : List α} {p k : ℕ} (h : p + k ≤ l.length) :
    (slice l p k).length = k := by
  rw [length_slice]
  omega

@[simp] theorem slice_zero_length (l : List α) (p : ℕ) : slice l p 0 = [] := by
  simp [slice]

theorem slice_eq_nil_of_le {l : List α} {p : ℕ} (h : l.length ≤ p) (k : ℕ) :
    slice l p k = [] := by
  simp [slice, List.drop_eq_nil_of_le h]

theorem slice_zero (l : List α) (k : ℕ) : slice l 0 k = l.take k := by
  simp [slice]

theorem slice_zero_of_le {l : List α} {k : ℕ} (h : l.length ≤ k) : slice l 0 k = l := by
  rw [slice_zero, List.take_of_length_le h]

theorem slice_eq_drop {l : List α} {p k : ℕ} (h : l.length ≤ p + k) :
    slice l p k = l.drop p := by
  rw [slice, List.take_of_length_le]
  simp only [List.length_drop]
  omega

/-- Only the part of the slice that lies in the list counts. -/
theorem slice_eq_slice_min (l : List α) (p k : ℕ) :
    slice l p k = slice l p (min k (l.length - p)) := by
  rw [slice, slice]
  by_cases h : k ≤ l.length - p
  · rw [min_eq_left h]
  · rw [min_eq_right (by omega), List.take_of_length_le (by simp; omega),
      List.take_of_length_le (by simp)]

/-- A slice that starts past the end is empty wherever it starts. -/
theorem slice_min_start (l : List α) (p k : ℕ) : slice l (min p l.length) k = slice l p k := by
  by_cases h : p ≤ l.length
  · rw [min_eq_left h]
  · rw [min_eq_right (by omega), slice_eq_nil_of_le le_rfl, slice_eq_nil_of_le (by omega)]

theorem slice_add (l : List α) (p j k : ℕ) :
    slice l p (j + k) = slice l p j ++ slice l (p + j) k := by
  rw [slice, slice, slice, List.take_add, List.drop_drop]

theorem slice_slice (l : List α) (p k q j : ℕ) :
    slice (slice l p k) q j = slice l (p + q) (min j (k - q)) := by
  rw [slice, slice, slice, List.drop_take, List.take_take, List.drop_drop]

theorem slice_slice_of_le {l : List α} {p k q j : ℕ} (h : q + j ≤ k) :
    slice (slice l p k) q j = slice l (p + q) j := by
  rw [slice_slice, min_eq_left (by omega)]

theorem slice_drop (l : List α) (n p k : ℕ) : slice (l.drop n) p k = slice l (n + p) k := by
  rw [slice, slice, List.drop_drop]

theorem drop_slice (l : List α) (p k n : ℕ) :
    (slice l p k).drop n = slice l (p + n) (k - n) := by
  rw [slice, slice, List.drop_take, List.drop_drop]

theorem take_slice (l : List α) (p k n : ℕ) :
    (slice l p k).take n = slice l p (min n k) := by
  rw [slice, slice, List.take_take]

theorem slice_append_left {a : List α} {p k : ℕ} (h : p + k ≤ a.length) (b : List α) :
    slice (a ++ b) p k = slice a p k := by
  rw [slice, slice, List.drop_append_of_le_length (by omega), List.take_append_of_le_length]
  simp only [List.length_drop]
  omega

theorem slice_append_right {a : List α} {p : ℕ} (h : a.length ≤ p) (b : List α) (k : ℕ) :
    slice (a ++ b) p k = slice b (p - a.length) k := by
  rw [slice, slice, List.drop_append, List.drop_eq_nil_of_le h, List.nil_append]

/-- A piece standing between two others is the slice at its place. -/
theorem slice_append_mid (a b c : List α) : slice (a ++ b ++ c) a.length b.length = b := by
  rw [List.append_assoc, slice_append_right le_rfl, Nat.sub_self, slice_append_left (by simp),
    slice_zero_of_le le_rfl]

theorem slice_eq_mid {l a b c : List α} {p k : ℕ} (hl : l = a ++ b ++ c) (hp : p = a.length)
    (hk : k = b.length) : slice l p k = b := by
  rw [hl, hp, hk, slice_append_mid]

theorem slice_append_length (a b : List α) {k : ℕ} (h : b.length ≤ k) :
    slice (a ++ b) a.length k = b := by
  rw [slice_append_right le_rfl, Nat.sub_self, slice_zero_of_le h]

/-- A list is cut at any position of it. -/
theorem take_append_slice (l : List α) (p k : ℕ) :
    l.take p ++ slice l p k = l.take (p + k) := by
  rw [← slice_zero, ← slice_zero, slice_add, Nat.zero_add]

theorem drop_eq_slice_append (l : List α) (p k : ℕ) :
    l.drop p = slice l p k ++ l.drop (p + k) := by
  rw [slice, ← List.drop_drop, List.take_append_drop]

theorem isPrefix_slice_of_isPrefix {s t : List α} (h : s <+: t) {p k : ℕ}
    (hk : p + k ≤ s.length) : slice s p k = slice t p k := by
  obtain ⟨r, rfl⟩ := h
  rw [slice_append_left hk]

theorem getElem?_slice {l : List α} {p k i : ℕ} (h : i < k) :
    (slice l p k)[i]? = l[p + i]? := by
  rw [slice, List.getElem?_take_of_lt h, List.getElem?_drop]

theorem slice_ne_nil {l : List α} {p k : ℕ} (hp : p < l.length) (hk : 0 < k) :
    slice l p k ≠ [] := by
  intro h
  have hlen : (slice l p k).length = 0 := by rw [h, List.length_nil]
  rw [length_slice] at hlen
  omega

theorem isEmpty_slice {l : List α} {p k : ℕ} (hk : 0 < k) (h : p + k ≤ l.length) :
    (slice l p k).isEmpty = false := by
  rw [List.isEmpty_eq_false_iff]
  exact slice_ne_nil (by omega) hk

/-- A slice of a concatenation that straddles the boundary. -/
theorem slice_append_across {a b : List α} {p k : ℕ} (hp : p ≤ a.length)
    (hk : a.length ≤ p + k) : slice (a ++ b) p k = a.drop p ++ b.take (p + k - a.length) := by
  rw [slice, List.drop_append, List.take_append, Nat.sub_eq_zero_of_le hp, List.drop_zero,
    List.take_of_length_le (by rw [List.length_drop]; omega), List.length_drop]
  congr 2
  omega

/-! ## Search for a pattern -/

section Search

variable [DecidableEq α]

/-- Position of the first window of `l` that is `pattern`. -/
def windowPosition (pattern l : List α) : Option ℕ :=
  (List.range (l.length + 1 - pattern.length)).find? fun pos =>
    slice l pos pattern.length = pattern

variable {pattern l : List α} {pos : ℕ}

theorem windowPosition_eq_some :
    windowPosition pattern l = some pos ↔
      pos + pattern.length ≤ l.length ∧ slice l pos pattern.length = pattern ∧
        ∀ j < pos, slice l j pattern.length ≠ pattern := by
  simp only [windowPosition, List.find?_range_eq_some, decide_eq_true_eq, List.mem_range,
    Bool.not_eq_true', decide_eq_false_iff_not]
  constructor
  · rintro ⟨hslice, hpos, hfirst⟩
    exact ⟨by omega, hslice, hfirst⟩
  · rintro ⟨hpos, hslice, hfirst⟩
    exact ⟨hslice, by omega, hfirst⟩

theorem windowPosition_eq_none :
    windowPosition pattern l = none ↔
      ∀ j, j + pattern.length ≤ l.length → slice l j pattern.length ≠ pattern := by
  simp only [windowPosition, List.find?_range_eq_none, Bool.not_eq_true', decide_eq_false_iff_not]
  constructor
  · intro h j hj
    exact h j (by omega)
  · intro h j hj
    exact h j (by omega)

omit [DecidableEq α] in
/-- A pattern is only found inside the list. -/
theorem le_of_slice_eq (hpos : 0 < pattern.length) (h : slice l pos pattern.length = pattern) :
    pos + pattern.length ≤ l.length := by
  have hlen := congrArg List.length h
  rw [length_slice] at hlen
  omega

end Search

/-! ## Concatenations of pieces of one length -/

theorem length_flatMap_range {f : ℕ → List α} {m : ℕ} :
    ∀ {n : ℕ}, (∀ i < n, (f i).length = m) → ((List.range n).flatMap f).length = m * n := by
  intro n
  induction n with
  | zero => simp
  | succ n ih =>
      intro hf
      rw [List.range_succ, List.flatMap_append, List.length_append,
        ih fun i hi => hf i (by omega)]
      simp [hf n (by omega), Nat.mul_succ]

/-- Each piece is the slice at its place, whatever follows the pieces. -/
theorem slice_flatMap_range {f : ℕ → List α} {m n i : ℕ} (hf : ∀ j < n, (f j).length = m)
    (hi : i < n) (rest : List α) :
    slice ((List.range n).flatMap f ++ rest) (m * i) m = f i := by
  obtain ⟨d, rfl⟩ : ∃ d, n = i + (1 + d) := ⟨n - i - 1, by omega⟩
  have hfront : ((List.range i).flatMap f).length = m * i :=
    length_flatMap_range fun j hj => hf j (by omega)
  have hpiece : (f i).length = m := hf i hi
  have hsplit : ∃ back, (List.range (i + (1 + d))).flatMap f =
      (List.range i).flatMap f ++ (f i ++ back) := by
    rw [List.range_add, List.flatMap_append, Nat.add_comm 1 d, List.range_succ_eq_map]
    simp only [List.map_cons, List.flatMap_cons, Nat.add_zero]
    exact ⟨_, rfl⟩
  obtain ⟨back, hback⟩ := hsplit
  rw [hback, List.append_assoc, ← hfront, slice_append_right le_rfl, Nat.sub_self,
    List.append_assoc, slice_append_left (by omega), slice_zero_of_le hpiece.le]

end Io
