import Mla.Io.Yields
import Mla.Serialize

/-!
# What a reading operation has read

`Reads x` says that an operation only reads: when it succeeds, its reader stands at some
position of the same byte string. For numbers, arrays and options the value and the position
are given as well.
-/

namespace Mla

open Io

section Fields

variable {σ : Type} [Patience] [Read Error σ] {S : Bytes} {At : σ → ℕ → Prop} {s s' : σ} {p n : ℕ}

omit [Patience] [Read Error σ] in
theorem liftIo_eq_ok {α : Type} {x : Op Error σ α} {a : α} :
    liftIo x s = .ok a s' ↔ x s = .ok a s' := by
  rw [liftIo_apply]
  cases x s <;> simp

omit [Patience] [Read Error σ] in
theorem mapError_eq_ok {ε ε' α : Type} {f : ε → ε'} {x : EStateM ε σ α} {a : α} :
    mapError f x s = .ok a s' ↔ x s = .ok a s' := by
  unfold mapError
  cases x s <;> simp

/-- How many bytes options take at the start of `D`. -/
def optsLength (D : Bytes) : Option ℕ :=
  if slice D 0 1 = [0] then some 1
  else if slice D 0 1 = [1] ∧ 9 ≤ D.length then
    some (9 + min (fromLeBytes (slice D 1 8)) (D.length - 9))
  else none

omit [Patience] [Read Error σ] in
theorem optsLength_eq {D : Bytes} {k : ℕ} (h : optsLength D = some k) :
    slice D 0 1 = [0] ∧ k = 1 ∨
      slice D 0 1 = [1] ∧ 9 ≤ D.length ∧ k = 9 + min (fromLeBytes (slice D 1 8)) (D.length - 9) := by
  rw [optsLength] at h
  split at h
  · rename_i hzero
    exact Or.inl ⟨hzero, (Option.some.inj h).symm⟩
  · split at h
    · rename_i hone
      exact Or.inr ⟨hone.1, hone.2, (Option.some.inj h).symm⟩
    · cases h

omit [Patience] [Read Error σ] in
theorem optsLength_le {D : Bytes} {k : ℕ} (h : optsLength D = some k) : 1 ≤ k ∧ k ≤ D.length := by
  rcases optsLength_eq h with ⟨hzero, rfl⟩ | ⟨-, hlen, rfl⟩
  · have hone := congrArg List.length hzero
    rw [length_slice, List.length_singleton] at hone
    omega
  · omega

omit [Patience] [Read Error σ] in
/-- Options that end before their bytes do are told from these bytes. -/
theorem optsLength_unique {D D' H : Bytes} {k k' : ℕ} (hD : H <+: D) (hD' : H <+: D')
    (hk : optsLength D = some k) (hk' : optsLength D' = some k') (hlt : k < D.length)
    (hlt' : k' < D'.length) (hle : k ≤ H.length) (hle' : k' ≤ H.length) : k = k' := by
  obtain ⟨T, rfl⟩ := hD
  obtain ⟨T', rfl⟩ := hD'
  have hpos : 1 ≤ k := by
    have := optsLength_eq hk
    omega
  have hsame : slice (H ++ T) 0 1 = slice (H ++ T') 0 1 := by
    rw [slice_append_left (by omega), slice_append_left (by omega)]
  rcases optsLength_eq hk with ⟨hzero, rfl⟩ | ⟨hone, hlen, rfl⟩
  · rcases optsLength_eq hk' with ⟨-, rfl⟩ | ⟨hone', -, -⟩
    · rfl
    · rw [hsame, hone'] at hzero
      cases hzero
  · rcases optsLength_eq hk' with ⟨hzero', -⟩ | ⟨-, hlen', rfl⟩
    · rw [hsame, hzero'] at hone
      cases hone
    · have hlength : slice (H ++ T) 1 8 = slice (H ++ T') 1 8 := by
        rw [slice_append_left (by omega), slice_append_left (by omega)]
      rw [hlength] at hlt hle ⊢
      omega

end Fields

/-! ## Options that are followed by something -/

/-- The length of the options fits its field. -/
def ValidOptions (options : Option Bytes) : Prop :=
  ∀ payload, options = some payload → payload.length < u64Size

end Mla

namespace Io.Yields

open Mla

variable {σ : Type} [Patience] [Read Error σ] {S : Bytes} {At : σ → ℕ → Prop} {s s' : σ} {p n : ℕ}

theorem readExactly_ok (h : Yields S At) (hs : At s p) {bs : Bytes}
    (hrun : readExactly n s = .ok bs s') : bs = slice S p n ∧ bs.length = n ∧ At s' (p + n) :=
  h.readExact_ok hs (liftIo_eq_ok.mp hrun)

theorem readField_ok (h : Yields S At) (hs : At s p) {bs : Bytes}
    (hrun : readField n s = .ok bs s') : bs = slice S p n ∧ bs.length = n ∧ At s' (p + n) :=
  h.readExact_ok hs (mapError_eq_ok.mp hrun)

theorem deserializeU8_ok (h : Yields S At) (hs : At s p) {b : UInt8}
    (hrun : deserializeU8 s = .ok b s') : slice S p 1 = [b] ∧ At s' (p + 1) := by
  obtain ⟨bs, s₁, hread, hrest⟩ := bind_eq_ok.mp hrun
  obtain ⟨hbytes, hlen, hat⟩ := h.readField_ok hs hread
  obtain ⟨rfl, rfl⟩ := EStateM.Result.ok.inj hrest
  obtain ⟨b, rfl⟩ := List.length_eq_one_iff.mp hlen
  exact ⟨hbytes.symm, hat⟩

theorem deserializeU64_ok (h : Yields S At) (hs : At s p) {v : ℕ}
    (hrun : deserializeU64 s = .ok v s') :
    v = fromLeBytes (slice S p 8) ∧ (slice S p 8).length = 8 ∧ At s' (p + 8) := by
  obtain ⟨bs, s₁, hread, hrest⟩ := bind_eq_ok.mp hrun
  obtain ⟨hbytes, hlen, hat⟩ := h.readField_ok hs hread
  obtain ⟨rfl, rfl⟩ := EStateM.Result.ok.inj hrest
  rw [← hbytes]
  exact ⟨rfl, hlen, hat⟩

theorem deserializeU32_ok (h : Yields S At) (hs : At s p) {v : ℕ}
    (hrun : deserializeU32 s = .ok v s') : slice S p 4 = leBytes 4 v ∧ At s' (p + 4) := by
  obtain ⟨bs, s₁, hread, hrest⟩ := bind_eq_ok.mp hrun
  obtain ⟨hbytes, hlen, hat⟩ := h.readField_ok hs hread
  obtain ⟨rfl, rfl⟩ := EStateM.Result.ok.inj hrest
  have hle := leBytes_fromLeBytes bs
  rw [hlen] at hle
  exact ⟨hbytes.symm.trans hle.symm, hat⟩

theorem deserializeBytes_ok (h : Yields S At) :
    ∀ (n : ℕ) {s s' : σ} {p : ℕ} {bs : Bytes}, At s p →
      deserializeTimes deserializeU8 n s = .ok bs s' → bs = slice S p n ∧ At s' (p + n)
  | 0, s, s', p, bs, hs, hrun => by
      obtain ⟨rfl, rfl⟩ := EStateM.Result.ok.inj hrun
      exact ⟨(slice_zero_length S p).symm, hs⟩
  | n + 1, s, s', p, bs, hs, hrun => by
      obtain ⟨b, s₁, hone, hrest⟩ := bind_eq_ok.mp hrun
      obtain ⟨bs', s₂, hmore, hrest⟩ := bind_eq_ok.mp hrest
      obtain ⟨rfl, rfl⟩ := EStateM.Result.ok.inj hrest
      obtain ⟨hb, hs₁⟩ := h.deserializeU8_ok hs hone
      obtain ⟨rfl, hs₂⟩ := deserializeBytes_ok h n hs₁ hmore
      have hcut := slice_add S p 1 n
      rw [hb, Nat.add_comm 1 n] at hcut
      refine ⟨hcut.symm, ?_⟩
      rwa [Nat.add_assoc, Nat.add_comm 1 n] at hs₂

theorem deserializeByteVec_ok (h : Yields S At) (hs : At s p) {bs : Bytes}
    (hrun : deserializeVec deserializeU8 s = .ok bs s') :
    bs = slice S (p + 8) (fromLeBytes (slice S p 8)) ∧ ∃ q, At s' q := by
  obtain ⟨n, s₁, hlen, hrest⟩ := bind_eq_ok.mp hrun
  obtain ⟨rfl, -, hs₁⟩ := h.deserializeU64_ok hs hlen
  obtain ⟨hbytes, hs'⟩ := h.deserializeBytes_ok _ hs₁ hrest
  exact ⟨hbytes, _, hs'⟩

theorem opts_ok (h : Yields S At) (hs : At s p) {u : Unit}
    (hrun : Opts.fromReader s = .ok u s') :
    ∃ k, optsLength (S.drop p) = some k ∧ At s' (p + k) := by
  obtain ⟨b, s₁, hone, hrest⟩ := bind_eq_ok.mp hrun
  obtain ⟨hb, hs₁⟩ := h.deserializeU8_ok hs hone
  have hb' : slice (S.drop p) 0 1 = [b] := by rwa [slice_drop, Nat.add_zero]
  split at hrest
  · rename_i hzero
    subst hzero
    obtain ⟨-, rfl⟩ := EStateM.Result.ok.inj hrest
    exact ⟨1, by rw [optsLength, if_pos hb'], hs₁⟩
  · rename_i hzero
    split at hrest
    · rename_i hone
      subst hone
      obtain ⟨n, s₂, hlength, hrest⟩ := bind_eq_ok.mp hrest
      obtain ⟨hn, hlen, hs₂⟩ := h.readExactly_ok hs₁ hlength
      have hroom : (slice S (p + 1) 8).length = 8 := by rw [← hn, hlen]
      rw [length_slice] at hroom
      split at hrest
      · rename_i bs s₃ htake
        obtain ⟨-, rfl⟩ := EStateM.Result.ok.inj hrest
        obtain ⟨rfl, hs₃⟩ := h.takeReadToEnd_ok hs₂ htake
        refine ⟨9 + min (fromLeBytes n) (S.length - p - 9), ?_, ?_⟩
        · rw [optsLength, hb', if_neg (by decide), slice_drop, ← hn, List.length_drop]
          exact if_pos ⟨rfl, by omega⟩
        · rw [length_slice] at hs₃
          have hpos : p + 1 + 8 + min (fromLeBytes n) (S.length - (p + 1 + 8)) =
              p + (9 + min (fromLeBytes n) (S.length - p - 9)) := by omega
          rwa [← hpos]
      · cases hrest
    · cases hrest

end Io.Yields

namespace Mla

open Io

/-! ## Operations that only read -/

section Reads

variable {ε σ α β : Type} [Read Error σ]

structure Reads (x : EStateM ε σ α) : Prop where
  ok : ∀ {S : Bytes} {At : σ → ℕ → Prop}, Yields S At → ∀ {s s' p a}, At s p →
    x s = .ok a s' → ∃ q, At s' q

namespace Reads

theorem pure (a : α) : Reads (Pure.pure a : EStateM ε σ α) where
  ok _ _ _ p _ hs hrun := by
    obtain ⟨-, rfl⟩ := EStateM.Result.ok.inj hrun
    exact ⟨p, hs⟩

theorem throw (e : ε) : Reads (MonadExcept.throw e : EStateM ε σ α) where
  ok _ _ _ _ _ _ hrun := by cases hrun

theorem bind {x : EStateM ε σ α} {f : α → EStateM ε σ β} (hx : Reads x) (hf : ∀ a, Reads (f a)) :
    Reads (x >>= f) where
  ok h _ _ _ _ hs hrun := by
    obtain ⟨a, s₁, hone, hrest⟩ := bind_eq_ok.mp hrun
    obtain ⟨q, hq⟩ := hx.ok h hs hone
    exact (hf a).ok h hq hrest

theorem map {x : EStateM ε σ α} (f : α → β) (hx : Reads x) : Reads (f <$> x) :=
  hx.bind fun a => pure (f a)

theorem okOr (o : Option α) (e : ε) : Reads (Io.okOr o e : EStateM ε σ α) := by
  cases o with
  | none => exact throw e
  | some a => exact pure a

section Fields

variable {σ : Type} [Read Error σ] {d : EStateM Error σ α}

theorem times (hd : Reads d) : ∀ n : ℕ, Reads (deserializeTimes d n)
  | 0 => pure _
  | n + 1 => hd.bind fun _ => (times hd n).bind fun _ => pure _

variable [Patience]

theorem readField (n : ℕ) : Reads (Mla.readField n : EStateM Error σ Bytes) where
  ok h _ _ _ _ hs hrun := ⟨_, (h.readField_ok hs hrun).2.2⟩

theorem opts : Reads (Opts.fromReader : EStateM Error σ Unit) where
  ok h _ _ _ _ hs hrun := by
    obtain ⟨k, -, hat⟩ := h.opts_ok hs hrun
    exact ⟨_, hat⟩

theorem u8 : Reads (deserializeU8 : EStateM Error σ UInt8) :=
  (readField 1).bind fun _ => pure _

theorem u16 : Reads (deserializeU16 : EStateM Error σ ℕ) := (readField 2).map _

theorem u64 : Reads (deserializeU64 : EStateM Error σ ℕ) := (readField 8).map _

theorem vec (hd : Reads d) : Reads (deserializeVec d) :=
  u64.bind fun n => hd.times n

end Fields

end Reads

end Reads

end Mla
