import Mla.Io.Basic

/-!
# Which errors an operation fails with

`FailsWith P x` bounds the errors of an operation: whatever state it is run in, an error that it
ends with is one of `P`.
-/

namespace Io

structure FailsWith {ε σ α : Type} (P : ε → Prop) (x : EStateM ε σ α) : Prop where
  error : ∀ {s s' : σ} {e : ε}, x s = .error e s' → P e

namespace FailsWith

variable {ε ε' σ τ α β : Type} {P : ε → Prop} {x : EStateM ε σ α}

theorem pure (a : α) : FailsWith P (Pure.pure a : EStateM ε σ α) := ⟨nofun⟩

theorem get : FailsWith P (MonadState.get : EStateM ε σ σ) := ⟨nofun⟩

theorem modifyGet (f : σ → α × σ) : FailsWith P (MonadStateOf.modifyGet f : EStateM ε σ α) :=
  ⟨nofun⟩

theorem throw {e : ε} (he : P e) : FailsWith P (MonadExcept.throw e : EStateM ε σ α) where
  error h := by
    obtain ⟨rfl, -⟩ := EStateM.Result.error.inj h
    exact he

theorem bind {f : α → EStateM ε σ β} (hx : FailsWith P x) (hf : ∀ a, FailsWith P (f a)) :
    FailsWith P (x >>= f) where
  error h := by
    rcases bind_eq_error.mp h with hrun | ⟨a, s₁, -, hrun⟩
    · exact hx.error hrun
    · exact (hf a).error hrun

theorem map (f : α → β) (hx : FailsWith P x) : FailsWith P (f <$> x) :=
  hx.bind fun a => .pure (f a)

theorem ite {c : Prop} [Decidable c] {y : EStateM ε σ α} (hx : FailsWith P x)
    (hy : FailsWith P y) : FailsWith P (if c then x else y) := by
  split
  · exact hx
  · exact hy

theorem okOr {o : Option α} {e : ε} (he : P e) :
    FailsWith P (Io.okOr o e : EStateM ε σ α) := by
  cases o with
  | none => exact .throw he
  | some a => exact .pure a

theorem mapError {Q : ε' → Prop} {f : ε → ε'} (hx : FailsWith P x) (hf : ∀ e, P e → Q (f e)) :
    FailsWith Q (Io.mapError f x) where
  error {s s' e} h := by
    rw [Io.mapError] at h
    cases hrun : x s with
    | ok a s₁ =>
        rw [hrun] at h
        cases h
    | error e₁ s₁ =>
        rw [hrun] at h
        obtain ⟨rfl, -⟩ := EStateM.Result.error.inj h
        exact hf e₁ (hx.error hrun)

theorem zoom {get : τ → σ} {set : σ → τ → τ} (hx : FailsWith P x) :
    FailsWith P (Io.zoom get set x) where
  error h := by
    obtain ⟨t, hrun, -⟩ := zoom_eq_error.mp h
    exact hx.error hrun

theorem runOn {s : σ} {e : ε} (hx : FailsWith P x) (h : Io.runOn x s = .error e) : P e := by
  rw [Io.runOn] at h
  cases hrun : x s with
  | ok a s₁ =>
      rw [hrun] at h
      cases h
  | error e₁ s₁ =>
      rw [hrun] at h
      obtain rfl := Except.error.inj h
      exact hx.error hrun

end FailsWith

/-- Where it fails, a composition fails in its first part or in its second. -/
theorem Except.bind_eq_error {ε α β : Type} {x : Except ε α} {f : α → Except ε β} {e : ε}
    (h : x >>= f = .error e) : x = .error e ∨ ∃ a, x = .ok a ∧ f a = .error e := by
  cases x with
  | error e₁ => exact .inl (congrArg _ (Except.error.inj h))
  | ok a => exact .inr ⟨a, rfl, h⟩

end Io
