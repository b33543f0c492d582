import Mla.Io.Cursor

/-!
# Readers that are interrupted

`Trickles D At` says that the reads of a reader deliver `D` in pieces of any size, and that
some of them are interrupted instead: in a state with `At s p i` the reader stands at position
`p` and is interrupted at most `i` times from there on. `Pieces` is such a reader, told piece
by piece what it does.
-/

namespace Io

/-- The reads deliver `D`, and are interrupted finitely often. -/
structure Trickles {ε σ : Type} [Read ε σ] (D : Bytes) (At : σ → ℕ → ℕ → Prop) : Prop where
  le : ∀ {s p i}, At s p i → p ≤ D.length
  read : ∀ {s p i n}, At s p i → 0 < n →
    (∃ e s' j, Read.read n s = .error e s' ∧ e.isInterrupted = true ∧ j < i ∧ At s' p j) ∨
    (∃ k s', Read.read n s = .ok (slice D p k) s' ∧ k ≤ n ∧ p + k ≤ D.length ∧
      (k = 0 → p = D.length) ∧ At s' (p + k) i)

/-- What a read does: it is interrupted, or returns at most so many bytes and one. -/
inductive Piece
  | interrupted
  | upTo (k : ℕ)
  deriving DecidableEq, Repr

/-- An in-memory reader that follows a list of pieces, and then returns what is asked for. -/
structure Pieces (ε : Type) where
  data : Bytes
  pos : ℕ
  pieces : List Piece
  deriving DecidableEq, Repr

namespace Pieces

variable {ε : Type}

/-- A read of at most `n` bytes. -/
def take (n : ℕ) (s : Pieces ε) (pieces : List Piece) : EStateM.Result (IoError ε) (Pieces ε) Bytes :=
  .ok (slice s.data s.pos n) ⟨s.data, s.pos + (slice s.data s.pos n).length, pieces⟩

instance instRead : Read ε (Pieces ε) where
  read n := fun s =>
    match s.pieces with
    | [] => take n s []
    | .interrupted :: pieces => .error (.kind .interrupted) ⟨s.data, s.pos, pieces⟩
    | .upTo k :: pieces => take (min n (k + 1)) s pieces

/-- The reader stands at position `p` of `D`, with `i` interruptions to come. -/
def At (D : Bytes) (s : Pieces ε) (p i : ℕ) : Prop :=
  s.data = D ∧ s.pos = p ∧ p ≤ D.length ∧ s.pieces.count .interrupted = i

theorem take_eq {D : Bytes} {p i n pos : ℕ} (before : List Piece) {pieces : List Piece} (hp : p ≤ D.length)
    (hpos : pos = p) (hcount : pieces.count .interrupted = i) :
    ∃ k s', take n (⟨D, pos, before⟩ : Pieces ε) pieces = .ok (slice D p k) s' ∧ k ≤ n ∧
      p + k ≤ D.length ∧ (k = 0 → n = 0 ∨ p = D.length) ∧ At D s' (p + k) i := by
  subst hpos
  refine ⟨min n (D.length - pos), ⟨D, pos + min n (D.length - pos), pieces⟩, ?_,
    Nat.min_le_left _ _, by omega, by omega, rfl, rfl, by omega, hcount⟩
  rw [take, ← slice_eq_slice_min, length_slice]

theorem trickles (D : Bytes) : Trickles D (At D (ε := ε)) where
  le h := h.2.2.1
  read {s p i n} h hn := by
    obtain ⟨data, pos, pieces⟩ := s
    obtain ⟨rfl, rfl, hp, hcount⟩ := h
    cases pieces with
    | nil =>
        obtain ⟨k, s', hread, hk, hpk, hend, hs'⟩ := take_eq (n := n) [] hp rfl hcount
        exact Or.inr ⟨k, s', hread, hk, hpk, fun h => (hend h).resolve_left hn.ne', hs'⟩
    | cons piece pieces =>
        cases piece with
        | interrupted =>
            rw [List.count_cons_self] at hcount
            refine Or.inl ⟨_, ⟨data, pos, pieces⟩, pieces.count .interrupted, rfl, rfl, by omega, ?_⟩
            exact ⟨rfl, rfl, hp, rfl⟩
        | upTo m =>
            dsimp only at hcount
            rw [List.count_cons_of_ne (by simp)] at hcount
            obtain ⟨k, s', hread, hk, hpk, hend, hs'⟩ := take_eq (n := min n (m + 1))
              (.upTo m :: pieces) hp rfl hcount
            refine Or.inr ⟨k, s', hread, by omega, hpk, fun h => (hend h).resolve_left ?_, hs'⟩
            omega

end Pieces

end Io
