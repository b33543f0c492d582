import Mla.Io.Fails
import Mla.Reader.Open

/-!
# Errors that are not about encryption

No step of opening an archive but the choice itself fails for lack of encryption: what is read is
refused for other reasons.
-/

namespace Mla

open Io

/-- The operation never fails for lack of encryption. -/
abbrev Spares {σ α : Type} (x : EStateM Error σ α) : Prop :=
  FailsWith (· ≠ .encryptionAskedButNotMarkedPresent) x

section Fields

variable {σ α β : Type}

variable [Patience] [Read Error σ]

end Fields

/-! ## Layers -/

section Layers

variable {σ τ : Type} [Patience]

/-- What opens a layer never fails for lack of encryption. -/
abbrev SparesExcept {α : Type} (x : Except Error α) : Prop :=
  ∀ e, x = .error e → e ≠ .encryptionAskedButNotMarkedPresent

omit [Patience] in
theorem SparesExcept.bind {α β : Type} {x : Except Error α} {f : α → Except Error β}
    (hx : SparesExcept x) (hf : ∀ a, SparesExcept (f a)) : SparesExcept (x >>= f) := by
  intro e h
  rcases Except.bind_eq_error h with hrun | ⟨a, -, hrun⟩
  · exact hx e hrun
  · exact hf a e hrun

omit [Patience] in
theorem SparesExcept.pure {α : Type} (a : α) : SparesExcept (Pure.pure a) := by
  rintro e ⟨⟩

omit [Patience] in
theorem Spares.runOn {α : Type} {x : EStateM Error σ α} (hx : Spares x) (s : σ) :
    SparesExcept (Io.runOn x s) := fun _ => FailsWith.runOn hx

omit [Patience] in
theorem SparesExcept.orError {α : Type} {o : Option α} {e : Error}
    (he : e ≠ .encryptionAskedButNotMarkedPresent) : SparesExcept (orError o e) := by
  intro e' h
  cases o with
  | none => exact Except.error.inj h ▸ he
  | some a => cases h

omit [Patience] in
theorem SparesExcept.throw {α : Type} {e : Error} (he : e ≠ .encryptionAskedButNotMarkedPresent) :
    SparesExcept (MonadExcept.throw e : Except Error α) := fun _ h => Except.error.inj h ▸ he

omit [Patience] in
theorem SparesExcept.ite {α : Type} {c : Prop} [Decidable c] {x y : Except Error α}
    (hx : SparesExcept x) (hy : SparesExcept y) : SparesExcept (if c then x else y) := by
  split
  · exact hx
  · exact hy

section Chunks

variable [AesGcm] {mode : Option TruncatedReaderDecryptionMode} {key : Key} {nonce : Nonce}
  {position size endOfTagPos : ℕ} {chunkCache nextChunkCache cache : Bytes} {e : Error}

end Chunks

variable [AesGcm] [Hkdf] [Kem]

variable [SignatureSchemes]

end Layers

/-! ## The openers -/

section Openers

variable {ρ : Type} [Patience] [AesGcm] [Hkdf] [Kem] [Sha512] [SignatureSchemes]

namespace ArchiveReader

variable [Read Error ρ] [Seek Error ρ]

end ArchiveReader

namespace TruncatedArchiveReader

variable [Read Error ρ]

end TruncatedArchiveReader

end Openers

end Mla
