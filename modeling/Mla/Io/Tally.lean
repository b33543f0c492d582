import Mla.Io.Cursor

/-!
# Readers that keep count

Where each read that succeeds adds its bytes to a 64-bit count, no more than the count can hold
is ever delivered.
-/

namespace Io

section Tally

variable {ε σ : Type} [Read ε σ] {closed : Prop} {D : Bytes} {At : σ → ℕ → Prop} {count : σ → ℕ}
  {s : σ} {p : ℕ}

def Tallies (ε : Type) [Read ε σ] (count : σ → ℕ) : Prop :=
  ∀ {n s s' bs}, (Read.read n : Op ε σ Bytes) s = .ok bs s' →
    count s' = count s + bs.length ∧ count s' < u64Size

/-- By induction on what is left, read byte by byte. -/
theorem Tallies.add_lt (hcount : Tallies ε count) (h : Delivers closed D At) (hs : At s p)
    (hp : p < D.length) : count s + (D.length - p) < u64Size := by
  induction hm : D.length - p generalizing s p with
  | zero => omega
  | succ m ih =>
      obtain ⟨k, s', hread, hk, hkn, hle, hs'⟩ := h.progress hs hp Nat.one_pos
      obtain rfl : k = 1 := by omega
      obtain ⟨hadd, hlt⟩ := hcount hread
      rw [length_slice_of_le hle] at hadd
      by_cases hend : p + 1 = D.length
      · omega
      · have hrest := ih hs' (by omega) (by omega)
        omega

theorem Tallies.sub_lt (hcount : Tallies ε count) (h : Delivers closed D At) (hs : At s p) :
    D.length - p < u64Size := by
  by_cases hp : p < D.length
  · have hlt := hcount.add_lt h hs hp
    omega
  · have hpos : 0 < u64Size := by decide
    omega

end Tally

end Io
