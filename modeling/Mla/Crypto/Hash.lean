import Mla.Io.Yields
import Mla.Serialize

/-!
# Running hashes

The state of a hash that is computed piece by piece is the byte string that it has been
given. `HashWrapperReader` gives it what each read returns, and `HashWrapperWriter` the whole
buffer of each write, before it is known how much of it is taken.
-/

namespace Mla

open Io

class Sha512 where
  digest : Bytes → Vector UInt8 64

class Sha256 where
  digest : Bytes → Vector UInt8 32

abbrev Sha256Hash := Vector UInt8 32

structure HashWrapperReader (σ : Type) where
  inner : σ
  hash : Bytes

namespace HashWrapperReader

variable {σ : Type} [Read Error σ]

def read (n : ℕ) : Op Error (HashWrapperReader σ) Bytes := do
  let bytes ← zoom HashWrapperReader.inner (fun inner s => { s with inner := inner })
    (Read.read n)
  modify fun s => { s with hash := s.hash ++ bytes }
  pure bytes

instance instRead : Read Error (HashWrapperReader σ) where
  read := read

variable {S : Bytes} {At : σ → ℕ → Prop}

/-- The hash has been given all that lies before the position, behind `base`. -/
def Hashed (S base : Bytes) (At : σ → ℕ → Prop) (s : HashWrapperReader σ) (p : ℕ) : Prop :=
  At s.inner p ∧ s.hash = base ++ S.take p

theorem yields (base : Bytes) (h : Yields S At) : Yields S (Hashed S base At) where
  read {s s' p n bs} hs hread := by
    obtain ⟨bytes, s₁, hstep, hrest⟩ := bind_eq_ok.mp hread
    obtain ⟨inner, hinner, rfl⟩ := zoom_eq_ok.mp hstep
    obtain ⟨rfl, rfl⟩ := EStateM.Result.ok.inj hrest
    obtain ⟨hbytes, hle, hstop, hat⟩ := h.read hs.1 hinner
    refine ⟨hbytes, hle, hstop, hat, ?_⟩
    change s.hash ++ bytes = _
    rw [hs.2, List.append_assoc]
    congr 1
    conv => lhs; rw [hbytes]
    exact take_append_slice S p bytes.length
  interrupted {s s' p n e} hs hread hint := by
    rcases bind_eq_error.mp hread with hstep | ⟨bytes, s₁, -, hrest⟩
    · obtain ⟨inner, hinner, rfl⟩ := zoom_eq_error.mp hstep
      exact ⟨h.interrupted hs.1 hinner hint, hs.2⟩
    · cases hrest

theorem delivers {closed : Prop} (base : Bytes) (h : Delivers closed S At) :
    Delivers closed S (Hashed S base At) where
  le hs := h.le hs.1
  progress {s p n} hs hp hn := by
    obtain ⟨k, inner, hread, hk, hkn, hpk, hat⟩ := h.progress hs.1 hp hn
    refine ⟨k, ⟨inner, s.hash ++ slice S p k⟩, ?_, hk, hkn, hpk, hat, ?_⟩
    · change read n s = _
      rw [read, bind_apply, zoom, hread]
      rfl
    · rw [hs.2, List.append_assoc, take_append_slice]
  stop {s p n} hclosed hs hstop := by
    obtain ⟨inner, hread, hat⟩ := h.stop hclosed hs.1 hstop
    refine ⟨⟨inner, s.hash ++ []⟩, ?_, hat, ?_⟩
    · change read n s = _
      rw [read, bind_apply, zoom, hread]
      rfl
    · rw [List.append_nil, hs.2]

end HashWrapperReader

structure HashWrapperWriter (ω : Type) where
  inner : ω
  hash : Bytes

namespace HashWrapperWriter

variable {ω : Type} [Write Error ω]

def write (buf : Bytes) : Op Error (HashWrapperWriter ω) ℕ := do
  modify fun s => { s with hash := s.hash ++ buf }
  zoom HashWrapperWriter.inner (fun inner s => { s with inner := inner }) (Write.write buf)

instance instWrite : Write Error (HashWrapperWriter ω) where
  write := write

theorem forwards : Forwards (HashWrapperWriter.inner : HashWrapperWriter ω → ω) where
  ok {buf s s' k} hwrite := by
    change write buf s = .ok k s' at hwrite
    obtain ⟨u, s₁, hset, hzoom⟩ := bind_eq_ok.mp hwrite
    obtain ⟨-, rfl⟩ := EStateM.Result.ok.inj hset
    obtain ⟨inner, hinner, rfl⟩ := zoom_eq_ok.mp hzoom
    exact hinner
  error {buf s s' e} hwrite := by
    change write buf s = .error e s' at hwrite
    rcases bind_eq_error.mp hwrite with hset | ⟨u, s₁, hset, hzoom⟩
    · cases hset
    · obtain ⟨-, rfl⟩ := EStateM.Result.ok.inj hset
      obtain ⟨inner, hinner, rfl⟩ := zoom_eq_error.mp hzoom
      exact hinner

end HashWrapperWriter

end Mla
