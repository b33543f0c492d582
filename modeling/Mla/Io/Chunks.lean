import Mla.Io.Slice

/-!
# Chunks of one size

`chunksExact n l` are the chunks of `n` elements that a list begins with, and `remainder n l` is
what is left behind them, fewer than `n` elements.
-/

namespace Io

variable {α : Type}

def chunksExact (n : ℕ) (l : List α) : List (List α) :=
  if 0 < n ∧ n ≤ l.length then l.take n :: chunksExact n (l.drop n) else []
termination_by l.length
decreasing_by
  rw [List.length_drop]
  omega

def remainder (n : ℕ) (l : List α) : List α := l.drop (n * (l.length / n))

section Chunks

variable {n : ℕ} {l a b : List α}

theorem chunksExact_of_lt (h : l.length < n) : chunksExact n l = [] := by
  rw [chunksExact, if_neg (by omega)]

theorem chunksExact_cons (hn : 0 < n) (h : n ≤ l.length) :
    chunksExact n l = l.take n :: chunksExact n (l.drop n) := by
  rw [chunksExact, if_pos ⟨hn, h⟩]

theorem length_of_mem_chunksExact (l : List α) : ∀ chunk ∈ chunksExact n l, chunk.length = n := by
  induction l using chunksExact.induct n with
  | case1 l h ih =>
      rw [chunksExact_cons h.1 h.2, List.forall_mem_cons]
      exact ⟨List.length_take_of_le h.2, ih⟩
  | case2 l h =>
      rw [chunksExact, if_neg h]
      exact fun chunk hchunk => absurd hchunk List.not_mem_nil

/-- Whole chunks in front stay chunks. -/
theorem chunksExact_append (hn : 0 < n) (a b : List α) :
    n ∣ a.length → chunksExact n (a ++ b) = chunksExact n a ++ chunksExact n b := by
  induction a using chunksExact.induct n with
  | case1 a h ih =>
      intro hdvd
      have hdrop : n ∣ (a.drop n).length := by
        rw [List.length_drop]
        exact Nat.dvd_sub hdvd (Nat.dvd_refl n)
      rw [chunksExact_cons hn (by rw [List.length_append]; omega), chunksExact_cons hn h.2,
        List.take_append_of_le_length h.2, List.drop_append_of_le_length h.2, ih hdrop,
        List.cons_append]
  | case2 a h =>
      intro hdvd
      have hlt : a.length < n := by omega
      obtain rfl : a = [] := List.length_eq_zero_iff.mp (Nat.eq_zero_of_dvd_of_lt hdvd hlt)
      rw [chunksExact_of_lt hlt, List.nil_append, List.nil_append]

theorem chunksExact_of_length (hn : 0 < n) (h : l.length = n) : chunksExact n l = [l] := by
  rw [chunksExact_cons hn h.ge, List.take_of_length_le h.le,
    chunksExact_of_lt (by rw [List.length_drop]; omega)]

/-- Chunks are found again in what they are joined to. -/
theorem chunksExact_flatten (hn : 0 < n) {chunks : List (List α)}
    (h : ∀ chunk ∈ chunks, chunk.length = n) : chunksExact n chunks.flatten = chunks := by
  induction chunks with
  | nil => exact chunksExact_of_lt hn
  | cons chunk chunks ih =>
      rw [List.forall_mem_cons] at h
      rw [List.flatten_cons, chunksExact_append hn _ _ ⟨1, by rw [h.1, Nat.mul_one]⟩,
        chunksExact_of_length hn h.1, ih h.2, List.singleton_append]

theorem flatten_chunksExact (l : List α) :
    (chunksExact n l).flatten = l.take (n * (l.length / n)) := by
  induction l using chunksExact.induct n with
  | case1 l h ih =>
      obtain ⟨hn, hle⟩ := h
      have hdiv : l.length / n = (l.length - n) / n + 1 := by
        rw [← Nat.add_div_right _ hn, Nat.sub_add_cancel hle]
      rw [chunksExact_cons hn hle, List.flatten_cons, ih, List.length_drop, hdiv, Nat.mul_succ,
        Nat.add_comm, List.take_add]
  | case2 l h =>
      rw [chunksExact, if_neg h]
      have hzero : n * (l.length / n) = 0 := by
        rcases Nat.eq_zero_or_pos n with rfl | hn
        · exact Nat.zero_mul _
        · rw [Nat.div_eq_of_lt (by omega), Nat.mul_zero]
      rw [hzero, List.take_zero, List.flatten_nil]

theorem chunksExact_append_remainder (n : ℕ) (l : List α) :
    (chunksExact n l).flatten ++ remainder n l = l := by
  rw [flatten_chunksExact, remainder, List.take_append_drop]

theorem length_remainder (n : ℕ) (l : List α) : (remainder n l).length = l.length % n := by
  rw [remainder, List.length_drop, Nat.mod_def]

theorem dvd_length_flatten {chunks : List (List α)} (h : ∀ chunk ∈ chunks, chunk.length = n) :
    n ∣ chunks.flatten.length := by
  induction chunks with
  | nil => exact Nat.dvd_zero n
  | cons chunk chunks ih =>
      rw [List.forall_mem_cons] at h
      rw [List.flatten_cons, List.length_append, h.1]
      exact Nat.dvd_add (Nat.dvd_refl n) (ih h.2)

theorem remainder_append (hn : 0 < n) (b : List α) (h : n ∣ a.length) :
    remainder n (a ++ b) = remainder n b := by
  obtain ⟨k, hk⟩ := h
  have hdiv : (a ++ b).length / n = k + b.length / n := by
    rw [List.length_append, hk, Nat.mul_add_div hn]
  rw [remainder, remainder, hdiv, Nat.mul_add, ← hk, ← List.drop_drop, List.drop_left]

theorem remainder_of_lt (h : l.length < n) : remainder n l = l := by
  rw [remainder, Nat.div_eq_of_lt h, Nat.mul_zero, List.drop_zero]

/-- A text behind whole chunks is its own whole chunks and what is left of it. -/
theorem chunksExact_append_short (hn : 0 < n) (ha : n ∣ a.length) (hb : b.length < n) :
    chunksExact n (a ++ b) = chunksExact n a := by
  rw [chunksExact_append hn a b ha, chunksExact_of_lt hb, List.append_nil]

theorem remainder_append_short (hn : 0 < n) (ha : n ∣ a.length) (hb : b.length < n) :
    remainder n (a ++ b) = b := by
  rw [remainder_append hn b ha, remainder_of_lt hb]

theorem dvd_length_chunksExact (n : ℕ) (l : List α) : n ∣ (chunksExact n l).flatten.length :=
  dvd_length_flatten (length_of_mem_chunksExact l)

theorem append_eq_chunksExact_append (n : ℕ) (a b : List α) :
    a ++ b = (chunksExact n a).flatten ++ (remainder n a ++ b) := by
  rw [← List.append_assoc, chunksExact_append_remainder]

/-- A text that is not enough to fill the last chunk is left with it. -/
theorem append_part (hn : 0 < n) (h : (remainder n a).length + b.length < n) :
    chunksExact n (a ++ b) = chunksExact n a ∧ remainder n (a ++ b) = remainder n a ++ b := by
  have hshort : (remainder n a ++ b).length < n := by rwa [List.length_append]
  rw [append_eq_chunksExact_append]
  refine ⟨?_, remainder_append_short hn (dvd_length_chunksExact n a) hshort⟩
  rw [chunksExact_append_short hn (dvd_length_chunksExact n a) hshort,
    chunksExact_flatten hn (length_of_mem_chunksExact a)]

/-- A text that fills the last chunk leaves nothing. -/
theorem append_full (hn : 0 < n) (h : (remainder n a).length + b.length = n) :
    chunksExact n (a ++ b) = chunksExact n a ++ [remainder n a ++ b] ∧ remainder n (a ++ b) = [] := by
  have hfull : (remainder n a ++ b).length = n := by rwa [List.length_append]
  rw [append_eq_chunksExact_append]
  refine ⟨?_, ?_⟩
  · rw [chunksExact_append hn _ _ (dvd_length_chunksExact n a), chunksExact_of_length hn hfull,
      chunksExact_flatten hn (length_of_mem_chunksExact a)]
  · rw [remainder_append hn _ (dvd_length_chunksExact n a), ← List.length_eq_zero_iff,
      length_remainder, hfull, Nat.mod_self]

end Chunks

end Io
