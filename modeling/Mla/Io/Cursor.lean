import Mla.Io.Slice
import Mla.Io.Word

/-!
# Readers that stand for a byte string

`Cursor` is the in-memory reader of the standard library. The other readers of a
development are compared with it through a relation `At s p`: the reader in state
`s` stands at position `p` of the byte string `D`.

`Delivers closed D At` says that the reads of a reader deliver `D` from wherever
it stands, in pieces of any size. `IsCursor closed D At Live` adds seeking. When
`closed` holds the reader also behaves at the very end of `D`; otherwise nothing
is said of reads there, nor of seeks to it. `Live s` is what a seek needs of the
state it starts from.

`Serves S At` is about a reader that may stand past the end of `S` and may refuse
to be moved: the bytes that it returns are those of `S` at its position.
-/

namespace Io

/-- `std::io::Cursor` over a byte string; `ε` is the error type of the program that
reads it. -/
structure Cursor (ε : Type) where
  data : Bytes
  pos : ℕ
  deriving DecidableEq, Repr

namespace Cursor

variable {ε : Type}

/-- The bytes that a read into a buffer of `n` bytes copies. -/
def next (c : Cursor ε) (n : ℕ) : Bytes :=
  slice c.data c.pos n

def advance (c : Cursor ε) (n : ℕ) : Cursor ε :=
  { c with pos := c.pos + (c.next n).length }

instance instRead : Read ε (Cursor ε) where
  read n := fun c => .ok (c.next n) (c.advance n)

/-- The position that a seek asks for, when it is one. -/
def target (c : Cursor ε) : SeekFrom → Option ℕ
  | .start p => some p
  | .fromEnd d => checkedAddSigned c.data.length d
  | .current d => checkedAddSigned c.pos d

instance instSeek : Seek ε (Cursor ε) where
  seek w := fun c =>
    match c.target w with
    | some p => .ok p { c with pos := p }
    | none => .error (.kind .invalidInput) c

end Cursor

section Contracts

variable {ε σ : Type}

/-- Reads deliver the bytes of `D` from the current position on. -/
structure Delivers [Read ε σ] (closed : Prop) (D : Bytes) (At : σ → ℕ → Prop) : Prop where
  le : ∀ {s p}, At s p → p ≤ D.length
  progress : ∀ {s p n}, At s p → p < D.length → 0 < n →
    ∃ k s', Read.read n s = .ok (slice D p k) s' ∧ 0 < k ∧ k ≤ n ∧ p + k ≤ D.length ∧
      At s' (p + k)
  stop : ∀ {s p n}, closed → At s p → n = 0 ∨ p = D.length →
    ∃ s', Read.read n s = .ok [] s' ∧ At s' p

/-- Behind the last byte of `D` there is nothing, or reading fails for good. -/
def Ends [Read ε σ] (D : Bytes) (At : σ → ℕ → Prop) : Prop :=
  ∀ {s n}, At s D.length → 0 < n →
    (∃ s', Read.read n s = .ok [] s' ∧ At s' D.length) ∨
    (∃ e s', Read.read n s = .error e s' ∧ e.isInterrupted = false)

/-- The positions that a reader of `D` can be moved to. -/
def Target (closed : Prop) (D : Bytes) (t : ℕ) : Prop :=
  t < D.length ∨ closed ∧ t = D.length

theorem Target.le {closed : Prop} {D : Bytes} {t : ℕ} (h : Target closed D t) :
    t ≤ D.length := by
  rcases h with h | ⟨-, h⟩ <;> omega

/-- A seekable reader of `D`. -/
structure IsCursor [Read ε σ] [Seek ε σ] (closed : Prop) (D : Bytes) (At : σ → ℕ → Prop)
    (Live : σ → Prop) : Prop extends Delivers closed D At where
  live : ∀ {s p}, At s p → Live s
  seekStart : ∀ {s t}, Live s → Target closed D t →
    ∃ s', Seek.seek (.start t) s = .ok t s' ∧ At s' t
  seekEnd : ∀ {s t}, Live s → Target closed D t →
    ∃ s', Seek.seek (.fromEnd (t - D.length)) s = .ok t s' ∧ At s' t
  seekCurrent : ∀ {s p t}, At s p → Target closed D t →
    ∃ s', Seek.seek (.current (t - p)) s = .ok t s' ∧ At s' t

/-- The reader can tell the length of `D`, whatever it does at the end of it. -/
def TellsLength [Seek ε σ] (D : Bytes) (Live : σ → Prop) : Prop :=
  ∀ {s}, Live s → ∃ s', Seek.seek (.fromEnd 0) s = .ok D.length s' ∧ Live s'

/-- A seek to before the start of `D` is refused. -/
def RefusesBefore [Seek ε σ] (D : Bytes) (Live : σ → Prop) : Prop :=
  ∀ {s d}, Live s → (D.length : ℤ) + d < 0 → ∃ e s', Seek.seek (.fromEnd d) s = .error e s'

/-- The reader serves the bytes of `S` from any position, which may lie past the end of
`S`; a seek goes where it is asked to, or is refused and changes nothing. -/
structure Serves [Read ε σ] [Seek ε σ] (S : Bytes) (At : σ → ℕ → Prop) : Prop where
  read : ∀ {s p n}, At s p →
    ∃ k s', Read.read n s = .ok (slice S p k) s' ∧ k ≤ n ∧ (0 < k → p + k ≤ S.length) ∧
      (k = 0 → n = 0 ∨ S.length ≤ p) ∧ At s' (p + k)
  seekStart : ∀ {s p t}, At s p →
    (∃ s', Seek.seek (.start t) s = .ok t s' ∧ At s' t) ∨
    (∃ e s', Seek.seek (.start t) s = .error e s' ∧ At s' p)
  seekEnd : ∀ {s p d}, At s p →
    (∃ t s', Seek.seek (.fromEnd d) s = .ok t s' ∧ (t : ℤ) = S.length + d ∧ At s' t) ∨
    (∃ e s', Seek.seek (.fromEnd d) s = .error e s' ∧ At s' p)

/-- Whether a seek from the start is refused depends on where it goes alone. -/
structure Fixed [Read ε σ] [Seek ε σ] (S : Bytes) (Reach : ℕ → Prop) (At : σ → ℕ → Prop) : Prop
    extends Serves S At where
  seekTo : ∀ {s p t}, At s p → Reach t → ∃ s', Seek.seek (.start t) s = .ok t s' ∧ At s' t
  seekAway : ∀ {s p t}, At s p → ¬ Reach t → ∃ e s', Seek.seek (.start t) s = .error e s' ∧ At s' p

end Contracts

/-! ## The in-memory reader -/

namespace Cursor

variable {ε : Type}

theorem read_eq (n : ℕ) (c : Cursor ε) :
    Read.read n c = .ok (slice c.data c.pos n) { c with pos := c.pos + (c.next n).length } :=
  rfl

/-- The in-memory reader over `S` at position `p`, which may lie past the end. -/
def At (S : Bytes) (c : Cursor ε) (p : ℕ) : Prop :=
  c.data = S ∧ c.pos = p

theorem serves (S : Bytes) : Serves S (At S (ε := ε)) where
  read {s p n} h := by
    obtain ⟨rfl, rfl⟩ := h
    refine ⟨min n (s.data.length - s.pos), s.advance n, ?_, by omega, by omega, by omega, rfl, ?_⟩
    · rw [read_eq, slice_eq_slice_min]
      rfl
    · simp [advance, next]
  seekStart {s p t} h := Or.inl ⟨{ s with pos := t }, rfl, h.1, rfl⟩
  seekEnd {s p d} h := by
    obtain ⟨rfl, rfl⟩ := h
    by_cases hd : 0 ≤ s.data.length + d ∧ s.data.length + d < u64Size
    · left
      refine ⟨(s.data.length + d).toNat, { s with pos := (s.data.length + d).toNat }, ?_, ?_,
        rfl, rfl⟩
      · simp [Seek.seek, target, checkedAddSigned, hd]
      · exact Int.toNat_of_nonneg hd.1
    · right
      refine ⟨.kind .invalidInput, s, ?_, rfl, rfl⟩
      simp only [Seek.seek, target, checkedAddSigned, if_neg hd]

theorem fixed (S : Bytes) : Fixed S (fun _ => True) (At S (ε := ε)) where
  toServes := serves S
  seekTo {s _ t} h _ := ⟨{ s with pos := t }, rfl, h.1, rfl⟩
  seekAway _ h := absurd trivial h

/-- The in-memory reader over `D` delivers `D`, and then nothing. -/
theorem delivers (D : Bytes) :
    Delivers True D (fun (c : Cursor ε) p => At D c p ∧ p ≤ D.length) where
  le h := h.2
  progress {s p n} h hp hn := by
    obtain ⟨⟨rfl, rfl⟩, -⟩ := h
    refine ⟨min n (s.data.length - s.pos), s.advance n, ?_, by omega, by omega, by omega, ⟨rfl, ?_⟩,
      by omega⟩
    · rw [read_eq, slice_eq_slice_min]
      rfl
    · simp [advance, next]
  stop {s p n} _ h hstop := by
    obtain ⟨⟨rfl, rfl⟩, hle⟩ := h
    have hnil : s.next n = [] := by
      rcases hstop with rfl | hend
      · exact slice_zero_length _ _
      · exact slice_eq_nil_of_le (by omega) n
    refine ⟨s.advance n, ?_, ⟨rfl, by simp [advance, hnil]⟩, hle⟩
    simp only [Read.read, hnil]

/-- The in-memory reader over `D` stands for `D`, its end included, as long as the
length of `D` is a 64-bit one. -/
theorem isCursor {D : Bytes} (hD : D.length < u64Size) :
    IsCursor True D (fun (c : Cursor ε) p => At D c p ∧ p ≤ D.length)
      (fun c => c.data = D) where
  toDelivers := delivers D
  live h := h.1.1
  seekStart {s t} h ht := ⟨{ s with pos := t }, rfl, ⟨h, rfl⟩, ht.le⟩
  seekEnd {s t} h ht := by
    have hle := ht.le
    refine ⟨{ s with pos := t }, ?_, ⟨h, rfl⟩, ht.le⟩
    have htarget : s.target (.fromEnd (t - D.length)) = some t := by
      rw [target, h, checkedAddSigned_of_range (by omega) (by omega)]
      congr 1
      omega
    simp [Seek.seek, htarget]
  seekCurrent {s p t} h ht := by
    obtain ⟨⟨hdata, rfl⟩, -⟩ := h
    have hle := ht.le
    refine ⟨{ s with pos := t }, ?_, ⟨hdata, rfl⟩, ht.le⟩
    have htarget : s.target (.current (t - s.pos)) = some t := by
      rw [target, checkedAddSigned_of_range (by omega) (by omega)]
      congr 1
      omega
    simp [Seek.seek, htarget]

theorem refusesBefore {D : Bytes} :
    RefusesBefore (ε := ε) D (fun c : Cursor ε => c.data = D) := by
  rintro s d rfl hd
  have htarget : s.target (.fromEnd d) = none := by
    rw [target, checkedAddSigned, if_neg (by omega)]
  exact ⟨.kind .invalidInput, s, by simp only [Seek.seek, htarget]⟩

end Cursor

end Io
