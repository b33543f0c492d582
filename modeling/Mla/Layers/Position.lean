import Mla.Layers.Traits
import Mla.Reads

/-!
# Counting bytes

The layers that count what is read, and what has been written since their position was
reset.
-/

namespace Mla

open Io

structure PositionLayerReader (σ : Type) where
  inner : σ
  pos : ℕ

namespace PositionLayerReader

variable {σ α : Type} [Read Error σ]

def read (n : ℕ) : Op Error (PositionLayerReader σ) Bytes := do
  let bytes ← zoom PositionLayerReader.inner (fun inner s => { s with inner := inner })
    (Read.read n)
  let s ← get
  let pos ← okOr (checkedAdd s.pos bytes.length) (ioOther "Failed to add pos and n_u64")
  modify fun s => { s with pos := pos }
  pure bytes

instance instRead : Read Error (PositionLayerReader σ) where
  read := read

/-- Run an operation with the bytes that it reads counted. -/
def counting (x : EStateM Error (PositionLayerReader σ) α) : EStateM Error σ (α × ℕ) := fun s =>
  match x ⟨s, 0⟩ with
  | .ok a s' => .ok (a, s'.pos) s'.inner
  | .error e s' => .error e s'.inner

variable {S : Bytes} {At : σ → ℕ → Prop} {o : ℕ}

/-- The count is that of the bytes since position `o`. -/
def Counts (At : σ → ℕ → Prop) (o : ℕ) (s : PositionLayerReader σ) (p : ℕ) : Prop :=
  At s.inner p ∧ o + s.pos = p

theorem yields (h : Yields S At) : Yields S (Counts At o) where
  read {s s' p n bs} hs hread := by
    obtain ⟨bytes, s₁, hstep, hrest⟩ := bind_eq_ok.mp hread
    obtain ⟨inner, hinner, rfl⟩ := zoom_eq_ok.mp hstep
    rw [get_bind] at hrest
    obtain ⟨pos, s₂, hpos, hset⟩ := bind_eq_ok.mp hrest
    obtain ⟨hsum, rfl⟩ := okOr_eq_ok.mp hpos
    obtain ⟨rfl, rfl⟩ := EStateM.Result.ok.inj hset
    obtain ⟨hbytes, hle, hstop, hat⟩ := h.read hs.1 hinner
    refine ⟨hbytes, hle, hstop, hat, ?_⟩
    have hcount := hs.2
    have hsum := checkedAdd_eq hsum
    change o + pos = p + bytes.length
    simp only at hsum
    omega
  interrupted {s s' p n e} hs hread hint := by
    rcases bind_eq_error.mp hread with hstep | ⟨bytes, s₁, -, hrest⟩
    · obtain ⟨inner, hinner, rfl⟩ := zoom_eq_error.mp hstep
      exact ⟨h.interrupted hs.1 hinner hint, hs.2⟩
    · rw [get_bind] at hrest
      rcases bind_eq_error.mp hrest with hpos | ⟨pos, s₂, -, hset⟩
      · obtain ⟨-, rfl, -⟩ := okOr_eq_error.mp hpos
        cases hint
      · cases hset

omit [Read Error σ] in
theorem counting_ok {x : EStateM Error (PositionLayerReader σ) α} {s s' : σ} {r : α × ℕ}
    (h : counting x s = .ok r s') :
    ∃ t, x ⟨s, 0⟩ = .ok r.1 t ∧ t.inner = s' ∧ t.pos = r.2 := by
  rw [counting] at h
  cases hrun : x ⟨s, 0⟩ with
  | ok a t =>
      rw [hrun] at h
      obtain ⟨rfl, rfl⟩ := EStateM.Result.ok.inj h
      exact ⟨t, rfl, rfl, rfl⟩
  | error e t =>
      rw [hrun] at h
      cases h

theorem reads_counting {x : EStateM Error (PositionLayerReader σ) α} (hx : Reads x) :
    Reads (counting x) where
  ok {S At} h s s' p r hs hrun := by
    obtain ⟨t, hinner, rfl, -⟩ := counting_ok hrun
    obtain ⟨q, hq⟩ := hx.ok (yields (o := p) h) ⟨hs, Nat.add_zero p⟩ hinner
    exact ⟨q, hq.1⟩

end PositionLayerReader

structure PositionLayerWriter (ω : Type) where
  inner : ω
  pos : ℕ

namespace PositionLayerWriter

variable {ω W : Type}

def new (inner : ω) : PositionLayerWriter ω := ⟨inner, 0⟩

def position (s : PositionLayerWriter ω) : ℕ := s.pos

def resetPosition (s : PositionLayerWriter ω) : PositionLayerWriter ω := { s with pos := 0 }

def write [Write Error ω] (buf : Bytes) : Op Error (PositionLayerWriter ω) ℕ := do
  let written ← zoom PositionLayerWriter.inner (fun inner s => { s with inner := inner })
    (Write.write buf)
  let s ← get
  let pos ← okOr (checkedAdd s.pos written) (ioOther "Invalid pos+written_u64")
  modify fun s => { s with pos := pos }
  pure written

instance instWrite [Write Error ω] : Write Error (PositionLayerWriter ω) where
  write := write

instance instLayerWriter [LayerWriter W ω] : LayerWriter W (PositionLayerWriter ω) where
  finalize s := LayerWriter.finalize s.inner

section Contract

variable [Write Error ω] {Got : ω → Bytes → Prop} {base : Bytes}

/-- The layer below was given `base` before the position was reset, and what was counted
since. -/
def Counted (Got : ω → Bytes → Prop) (base : Bytes) (s : PositionLayerWriter ω) (acc : Bytes) :
    Prop :=
  Got s.inner (base ++ acc) ∧ s.pos = acc.length

theorem appends (h : Appends Got) : Appends (Counted Got base) where
  ok {s s' acc buf k} hs hne hwrite := by
    obtain ⟨written, s₁, hstep, hrest⟩ := bind_eq_ok.mp hwrite
    obtain ⟨inner, hinner, rfl⟩ := zoom_eq_ok.mp hstep
    rw [get_bind] at hrest
    obtain ⟨pos, hpos, hset⟩ := okOr_bind_eq_ok.mp hrest
    obtain ⟨rfl, rfl⟩ := EStateM.Result.ok.inj hset
    obtain ⟨hle, hgot⟩ := h.ok hs.1 hne hinner
    rw [List.append_assoc] at hgot
    refine ⟨hle, hgot, ?_⟩
    change pos = _
    rw [checkedAdd_eq hpos, List.length_append, List.length_take, min_eq_left hle]
    exact congrArg (· + written) hs.2
  interrupted {s s' acc buf e} hs hne hwrite hint := by
    rcases bind_eq_error.mp hwrite with hstep | ⟨written, s₁, -, hrest⟩
    · obtain ⟨inner, hinner, rfl⟩ := zoom_eq_error.mp hstep
      exact ⟨h.interrupted hs.1 hne hinner hint, hs.2⟩
    · rw [get_bind] at hrest
      rcases bind_eq_error.mp hrest with hpos | ⟨pos, s₂, -, hset⟩
      · obtain ⟨-, rfl, -⟩ := okOr_eq_error.mp hpos
        cases hint
      · cases hset

theorem accepts {n : ℕ} (happ : Appends Got) (h : Accepts (base.length + n) Got) (hn : n < u64Size) :
    Accepts n (Counted Got base) := by
  intro s acc buf hs hne hlen
  obtain ⟨k, inner, hwrite, hk⟩ := h hs.1 hne (by rw [List.length_append]; omega)
  obtain ⟨hle, -⟩ := happ.ok hs.1 hne hwrite
  have hsum : checkedAdd s.pos k = some (s.pos + k) :=
    checkedAdd_of_lt (by rw [hs.2]; omega)
  refine ⟨k, ⟨inner, s.pos + k⟩, ?_, hk⟩
  change write buf s = _
  rw [write, bind_apply, zoom, hwrite]
  change (okOr (checkedAdd s.pos k) _ >>= fun pos => _ : Op Error (PositionLayerWriter ω) ℕ) _ = _
  rw [hsum, okOr_some, pure_bind]
  rfl

end Contract

end PositionLayerWriter

end Mla
