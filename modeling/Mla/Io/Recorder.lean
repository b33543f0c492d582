import Mla.Io.Sink

/-!
# A writer and the calls made to it

`Recorder ω` is the writer `ω` with a record of its calls: the buffer that each was given,
and how many of its bytes were taken. What the calls were given and what they have taken
are two byte strings, which differ as soon as a call does not take all of its buffer.
-/

namespace Io

structure Recorder (ω : Type) where
  inner : ω
  calls : List (Bytes × ℕ)

/-- The contract of `Write`: a call takes bytes of its buffer. -/
def WithinBuffer {ε : Type} (ω : Type) [Write ε ω] : Prop :=
  ∀ {buf : Bytes} {s s' : ω} {k : ℕ}, Write.write buf s = .ok k s' → k ≤ buf.length

namespace Recorder

variable {ε ω : Type}

instance instWrite [Write ε ω] : Write ε (Recorder ω) where
  write buf := fun s =>
    match Write.write buf s.inner with
    | .ok k inner => .ok k ⟨inner, s.calls ++ [(buf, k)]⟩
    | .error e inner => .error e ⟨inner, s.calls ++ [(buf, 0)]⟩

/-- The bytes of all buffers. -/
def asked (s : Recorder ω) : Bytes :=
  s.calls.flatMap Prod.fst

/-- The bytes that were taken. -/
def delivered (s : Recorder ω) : Bytes :=
  s.calls.flatMap fun call => call.1.take call.2

/-- Each call has taken its whole buffer. -/
def Whole (s : Recorder ω) : Prop :=
  ∀ call ∈ s.calls, call.1.length ≤ call.2

instance instDecidableWhole (s : Recorder ω) : Decidable s.Whole :=
  inferInstanceAs (Decidable (∀ call ∈ s.calls, call.1.length ≤ call.2))

theorem length_delivered_le : ∀ calls : List (Bytes × ℕ),
    (calls.flatMap fun call => call.1.take call.2).length ≤ (calls.flatMap Prod.fst).length
  | [] => Nat.le_refl _
  | (buf, k) :: calls => by
      have ih := length_delivered_le calls
      simp only [List.flatMap_cons, List.length_append, List.length_take]
      omega

theorem flatMap_fst_eq_iff : ∀ calls : List (Bytes × ℕ),
    calls.flatMap Prod.fst = (calls.flatMap fun call => call.1.take call.2) ↔
      ∀ call ∈ calls, call.1.length ≤ call.2
  | [] => by simp
  | (buf, k) :: calls => by
      have ih := flatMap_fst_eq_iff calls
      have hlen := length_delivered_le calls
      rw [List.forall_mem_cons, ← ih]
      simp only [List.flatMap_cons]
      constructor
      · intro h
        have hsum := congrArg List.length h
        simp only [List.length_append, List.length_take] at hsum
        have hk : buf.length ≤ k := by omega
        rw [List.take_of_length_le hk] at h
        exact ⟨hk, List.append_cancel_left h⟩
      · rintro ⟨hk, h⟩
        rw [List.take_of_length_le hk, h]

/-- The buffers and what was taken of them are the same bytes only when all was taken. -/
theorem asked_eq_delivered_iff (s : Recorder ω) : s.asked = s.delivered ↔ s.Whole :=
  flatMap_fst_eq_iff s.calls

section Calls

variable [Write ε ω] {s s' : Recorder ω} {buf : Bytes} {k : ℕ}

theorem write_eq (buf : Bytes) (s : Recorder ω) :
    Write.write buf s =
      match Write.write buf s.inner with
      | .ok k inner => .ok k ⟨inner, s.calls ++ [(buf, k)]⟩
      | .error e inner => .error e ⟨inner, s.calls ++ [(buf, 0)]⟩ := (rfl)

theorem asked_write (buf : Bytes) (s : Recorder ω) :
    (stateOf (Write.write buf s)).asked = s.asked ++ buf := by
  rw [write_eq]
  cases Write.write buf s.inner <;> simp [asked]

/-- What was taken is what a loop of calls has written. -/
theorem appends (h : WithinBuffer ω) : Appends fun (s : Recorder ω) acc => s.delivered = acc where
  ok {s s' acc buf k} hs _ hwrite := by
    rw [write_eq] at hwrite
    cases hinner : Write.write buf s.inner with
    | ok k' inner =>
        rw [hinner] at hwrite
        obtain ⟨rfl, rfl⟩ := EStateM.Result.ok.inj hwrite
        refine ⟨h hinner, ?_⟩
        rw [← hs]
        simp [delivered]
    | error e inner =>
        rw [hinner] at hwrite
        cases hwrite
  interrupted {s s' acc buf e} hs _ hwrite _ := by
    rw [write_eq] at hwrite
    cases hinner : Write.write buf s.inner with
    | ok k' inner =>
        rw [hinner] at hwrite
        cases hwrite
    | error e' inner =>
        rw [hinner] at hwrite
        obtain ⟨-, rfl⟩ := EStateM.Result.error.inj hwrite
        rw [← hs]
        simp [delivered]

end Calls

end Recorder

end Io
