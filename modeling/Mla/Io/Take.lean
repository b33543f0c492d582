import Mla.Io.Cursor

/-!
# Limits and panics

`Take` is a reader cut after a number of bytes. `Failure` tells the two ways apart in which
a call of a program may not return: with an error, or by a panic.
-/

namespace Io

variable {ε σ α : Type}

/-! ## Limited readers -/

/-- `Read::take`. -/
structure Take (σ : Type) where
  inner : σ
  limit : ℕ

namespace Take

def new (inner : σ) (limit : ℕ) : Take σ := ⟨inner, limit⟩

/-- A reader that is used up is not asked. -/
instance instRead [Read ε σ] : Read ε (Take σ) where
  read n := fun s =>
    if s.limit = 0 then .ok [] s
    else
      match Read.read (min n s.limit) s.inner with
      | .ok bs inner => .ok bs ⟨inner, s.limit - bs.length⟩
      | .error e inner => .error e ⟨inner, s.limit⟩

theorem read_new [Read ε σ] (n : ℕ) (inner : σ) (limit : ℕ) :
    (Read.read n (new inner limit) : EStateM.Result (IoError ε) (Take σ) Bytes) =
      if limit = 0 then .ok [] ⟨inner, limit⟩
      else
        match Read.read (min n limit) inner with
        | .ok bs inner => .ok bs ⟨inner, limit - bs.length⟩
        | .error e inner => .error e ⟨inner, limit⟩ := (rfl)

/-- `p` bytes of the `len` behind `base` have been read. -/
def Within (At : σ → ℕ → Prop) (base len : ℕ) (s : Take σ) (p : ℕ) : Prop :=
  At s.inner (base + p) ∧ s.limit + p = len

theorem delivers [Read ε σ] {closed : Prop} {S : Bytes} {At : σ → ℕ → Prop}
    (h : Delivers closed S At)
    (hzero : ∀ {s p}, At s p → ∃ s', Read.read 0 s = .ok [] s' ∧ At s' p) {base len : ℕ}
    (hlen : base + len ≤ S.length) :
    Delivers True (slice S base len) (Within At base len) where
  le {s p} hs := by
    have hlimit := hs.2
    rw [length_slice_of_le hlen]
    omega
  progress {s p n} hs hp hn := by
    have hlimit := hs.2
    rw [length_slice_of_le hlen] at hp ⊢
    obtain ⟨k, inner, hread, hk, hkn, hpk, hinner⟩ := h.progress hs.1
      (show base + p < S.length by omega) (show 0 < min n s.limit by omega)
    have hcut : slice (slice S base len) p k = slice S (base + p) k :=
      slice_slice_of_le (by omega)
    have hbytes : (slice S (base + p) k).length = k := length_slice_of_le hpk
    refine ⟨k, ⟨inner, s.limit - k⟩, ?_, hk, by omega, by omega, ?_, ?_⟩
    · change (if s.limit = 0 then _ else _) = _
      rw [if_neg (by omega), hread, hcut]
      dsimp only
      rw [hbytes]
    · rwa [← Nat.add_assoc]
    · change s.limit - k + (p + k) = len
      omega
  stop {s p n} _ hs hstop := by
    have hlimit := hs.2
    rw [length_slice_of_le hlen] at hstop
    by_cases hzero' : s.limit = 0
    · refine ⟨s, ?_, hs⟩
      change (if s.limit = 0 then _ else _) = _
      rw [if_pos hzero']
    · have hn : n = 0 := by omega
      subst hn
      obtain ⟨inner, hread, hinner⟩ := hzero hs.1
      refine ⟨⟨inner, s.limit⟩, ?_, hinner, hs.2⟩
      change (if s.limit = 0 then _ else _) = _
      rw [if_neg hzero', Nat.zero_min, hread]
      rfl

end Take

/-! ## Panics -/

inductive Failure (ε : Type) where
  | panicked
  | error (e : ε)

/-- The value, or a panic when it is absent. -/
def orPanic (o : Option α) : EStateM (Failure ε) σ α :=
  match o with
  | some a => pure a
  | none => throw .panicked

/-- An operation that does not panic itself. -/
def noPanic (x : EStateM ε σ α) : EStateM (Failure ε) σ α := fun s =>
  match x s with
  | .ok a s' => .ok a s'
  | .error e s' => .error (.error e) s'

/-- What is seen by a caller that takes a panic for the error `e`. -/
def panicAs (e : ε) (x : EStateM (Failure ε) σ α) : EStateM ε σ α := fun s =>
  match x s with
  | .ok a s' => .ok a s'
  | .error .panicked s' => .error e s'
  | .error (.error e') s' => .error e' s'

end Io
