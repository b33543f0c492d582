import Mla.Io.Take

/-!
# Simulation within bounds

A machine does what another one prescribes, from related states and as long as the prescribed
states fit into what there is room for: it returns the same values, fails with the same errors,
and its states stay related. The prescribing machine only ever needs more room, so that a program
written once over both of them is simulated where its last state fits.
-/

namespace Io

/-! ## Programs over a component of the state -/

/-- A value that is read off the state. -/
def gets {ε σ α : Type} (f : σ → α) : EStateM ε σ α := fun s => .ok (f s) s

/-- What an operation returns or fails with, as a value. -/
def attempt {ε ε' σ α : Type} (x : EStateM ε σ α) : EStateM ε' σ (Except ε α) := fun s =>
  match x s with
  | .ok a s' => .ok (.ok a) s'
  | .error e s' => .ok (.error e) s'

theorem gets_bind {ε σ α β : Type} (f : σ → α) (g : α → EStateM ε σ β) (s : σ) :
    (gets f >>= g) s = g (f s) s := (rfl)

theorem modify_bind {ε σ β : Type} (f : σ → σ) (g : PUnit → EStateM ε σ β) (s : σ) :
    ((modify f : EStateM ε σ PUnit) >>= g) s = g PUnit.unit (f s) := (rfl)

theorem attempt_ok {ε ε' σ α : Type} {x : EStateM ε σ α} {s s' : σ} {a : α} (h : x s = .ok a s') :
    (attempt x : EStateM ε' σ _) s = .ok (.ok a) s' := by
  rw [attempt, h]

theorem attempt_error {ε ε' σ α : Type} {x : EStateM ε σ α} {s s' : σ} {e : ε}
    (h : x s = .error e s') : (attempt x : EStateM ε' σ _) s = .ok (.error e) s' := by
  rw [attempt, h]

/-! ## Simulation -/

/-- Two runs end alike, in related states. -/
inductive EndsLike {ε σ τ α : Type} (R : σ → τ → Prop) :
    EStateM.Result ε σ α → EStateM.Result ε τ α → Prop
  | ok {a : α} {s : σ} {t : τ} (h : R s t) : EndsLike R (.ok a s) (.ok a t)
  | error {e : ε} {s : σ} {t : τ} (h : R s t) : EndsLike R (.error e s) (.error e t)

/-- From related states `x` does what `y` prescribes, where that fits. -/
structure Simulates {ε σ τ α : Type} (Fits : τ → Prop) (R : σ → τ → Prop) (x : EStateM ε σ α)
    (y : EStateM ε τ α) : Prop where
  back : ∀ {t}, Fits (stateOf (y t)) → Fits t
  step : ∀ {s t}, R s t → Fits (stateOf (y t)) → EndsLike R (x s) (y t)

section Ends

variable {ε σ τ α : Type} {R : σ → τ → Prop} {r : EStateM.Result ε σ α}

theorem EndsLike.rel {r' : EStateM.Result ε τ α} (h : EndsLike R r r') : R (stateOf r) (stateOf r') := by
  cases h with
  | ok h => exact h
  | error h => exact h

theorem EndsLike.of_ok {a : α} {t : τ} (h : EndsLike R r (.ok a t)) : ∃ s, r = .ok a s ∧ R s t := by
  cases h with
  | ok h => exact ⟨_, rfl, h⟩

theorem EndsLike.of_error {e : ε} {t : τ} (h : EndsLike R r (.error e t)) :
    ∃ s, r = .error e s ∧ R s t := by
  cases h with
  | error h => exact ⟨_, rfl, h⟩

end Ends

namespace Simulates

variable {ε σ τ α β γ : Type} {Fits : τ → Prop} {R : σ → τ → Prop} {x : EStateM ε σ α}
  {y : EStateM ε τ α}

theorem pure (a : α) : Simulates Fits R (Pure.pure a : EStateM ε σ α) (Pure.pure a) where
  back h := h
  step h _ := .ok h

theorem throw (e : ε) :
    Simulates Fits R (MonadExcept.throw e : EStateM ε σ α) (MonadExcept.throw e) where
  back h := h
  step h _ := .error h

/-- What fits at the end of a sequence has fitted in the middle of it. -/
theorem bind {f : α → EStateM ε σ β} {g : α → EStateM ε τ β} (hx : Simulates Fits R x y)
    (hf : ∀ a, Simulates Fits R (f a) (g a)) : Simulates Fits R (x >>= f) (y >>= g) where
  back {t} h := by
    rw [bind_apply] at h
    cases hrun : y t with
    | ok a t' =>
        rw [hrun] at h
        exact hx.back (hrun ▸ (hf a).back h)
    | error e t' =>
        rw [hrun] at h
        exact hx.back (hrun ▸ h)
  step {s t} hs h := by
    rw [bind_apply] at h ⊢
    rw [bind_apply]
    cases hrun : y t with
    | ok a t' =>
        rw [hrun] at h
        obtain ⟨s', hsame, hs'⟩ := (hrun ▸ hx.step hs (hrun ▸ (hf a).back h)).of_ok
        rw [hsame]
        exact (hf a).step hs' h
    | error e t' =>
        rw [hrun] at h
        obtain ⟨s', hsame, hs'⟩ := (hrun ▸ hx.step hs (hrun ▸ h)).of_error
        rw [hsame]
        exact .error hs'

theorem ite {c : Prop} [Decidable c] {x' : EStateM ε σ α} {y' : EStateM ε τ α}
    (hx : Simulates Fits R x y) (hx' : Simulates Fits R x' y') :
    Simulates Fits R (if c then x else x') (if c then y else y') := by
  split
  · exact hx
  · exact hx'

theorem mapError {ε' : Type} (f : ε → ε') (hx : Simulates Fits R x y) :
    Simulates Fits R (Io.mapError f x) (Io.mapError f y) where
  back {t} h := by
    refine hx.back ?_
    rw [Io.mapError] at h
    cases hrun : y t with
    | ok a t' => exact (hrun ▸ h :)
    | error e t' => exact (hrun ▸ h :)
  step {s t} hs h := by
    rw [Io.mapError] at h ⊢
    rw [Io.mapError]
    cases hrun : y t with
    | ok a t' =>
        rw [hrun] at h
        obtain ⟨s', hsame, hs'⟩ := (hrun ▸ hx.step hs (hrun ▸ h)).of_ok
        rw [hsame]
        exact .ok hs'
    | error e t' =>
        rw [hrun] at h
        obtain ⟨s', hsame, hs'⟩ := (hrun ▸ hx.step hs (hrun ▸ h)).of_error
        rw [hsame]
        exact .error hs'

theorem gets {f : σ → α} {g : τ → α} (h : ∀ {s t}, R s t → f s = g t) :
    Simulates Fits R (Io.gets f : EStateM ε σ α) (Io.gets g) where
  back ht := ht
  step {s t} hs _ := by
    change EndsLike R (.ok (f s) s) (.ok (g t) t)
    rw [h hs]
    exact .ok hs

theorem modify {f : σ → σ} {g : τ → τ} (hback : ∀ {t}, Fits (g t) → Fits t)
    (h : ∀ {s t}, R s t → R (f s) (g t)) :
    Simulates Fits R (MonadStateOf.modifyGet fun s => (PUnit.unit, f s) : EStateM ε σ PUnit) (MonadStateOf.modifyGet fun s => (PUnit.unit, g s)) where
  back ht := hback ht
  step hs _ := .ok (h hs)

theorem attempt {ε' : Type} (hx : Simulates Fits R x y) :
    Simulates Fits R (Io.attempt x : EStateM ε' σ _) (Io.attempt y) where
  back {t} h := by
    refine hx.back ?_
    rw [Io.attempt] at h
    cases hrun : y t with
    | ok a t' => exact (hrun ▸ h :)
    | error e t' => exact (hrun ▸ h :)
  step {s t} hs h := by
    rw [Io.attempt] at h ⊢
    rw [Io.attempt]
    cases hrun : y t with
    | ok a t' =>
        rw [hrun] at h
        obtain ⟨s', hsame, hs'⟩ := (hrun ▸ hx.step hs (hrun ▸ h)).of_ok
        rw [hsame]
        exact .ok hs'
    | error e t' =>
        rw [hrun] at h
        obtain ⟨s', hsame, hs'⟩ := (hrun ▸ hx.step hs (hrun ▸ h)).of_error
        rw [hsame]
        exact .ok hs'

/-- A component of the state is simulated in a component of the other one. -/
theorem zoom {σ' τ' : Type} {Fits' : τ' → Prop} {R' : σ' → τ' → Prop} {get : σ' → σ}
    {set : σ → σ' → σ'} {get' : τ' → τ} {set' : τ → τ' → τ'} (hx : Simulates Fits R x y)
    (hback : ∀ {t}, Fits (get' t) → Fits' t) (hfits : ∀ {t u}, Fits' (set' u t) → Fits u)
    (hget : ∀ {s t}, R' s t → R (get s) (get' t))
    (hset : ∀ {s t a b}, R' s t → R a b → R' (set a s) (set' b t)) :
    Simulates Fits' R' (Io.zoom get set x) (Io.zoom get' set' y) where
  back {t} h := by
    rw [stateOf_zoom] at h
    exact hback (hx.back (hfits h))
  step {s t} hs h := by
    rw [stateOf_zoom] at h
    have hstep := hx.step (hget hs) (hfits h)
    rw [Io.zoom, Io.zoom]
    cases hrun : y (get' t) with
    | ok a u =>
        obtain ⟨s', hsame, hs'⟩ := (hrun ▸ hstep).of_ok
        rw [hsame]
        exact .ok (hset hs hs')
    | error e u =>
        obtain ⟨s', hsame, hs'⟩ := (hrun ▸ hstep).of_error
        rw [hsame]
        exact .error (hset hs hs')

/-- A component that both states have is the same in both of them. -/
theorem shared {γ : Type} {get : σ → γ} {set : γ → σ → σ} {get' : τ → γ} {set' : γ → τ → τ}
    (x : EStateM ε γ α) (hback : ∀ {t u}, Fits (set' u t) → Fits t)
    (hget : ∀ {s t}, R s t → get s = get' t)
    (hset : ∀ {s t u}, R s t → R (set u s) (set' u t)) :
    Simulates Fits R (Io.zoom get set x) (Io.zoom get' set' x) where
  back {t} h := by
    rw [stateOf_zoom] at h
    exact hback h
  step {s t} hs _ := by
    rw [Io.zoom, Io.zoom, hget hs]
    cases x (get' t) with
    | ok a u => exact .ok (hset hs)
    | error e u => exact .error (hset hs)

theorem noPanic (hx : Simulates Fits R x y) : Simulates Fits R (Io.noPanic x) (Io.noPanic y) :=
  hx.mapError Failure.error

theorem orPanic (o : Option α) :
    Simulates Fits R (Io.orPanic o : EStateM (Failure ε) σ α) (Io.orPanic o) := by
  cases o with
  | none => exact .throw _
  | some a => exact .pure a

end Simulates

/-! ## Sequences of calls -/

/-- What each of some calls returns, and the state behind them, whichever of them fail. -/
def outcomes {ε σ α γ : Type} (perform : γ → EStateM ε σ α) : List γ → σ → List (Except ε α) × σ
  | [], s => ([], s)
  | call :: calls, s =>
      match perform call s with
      | .ok a s' => let rest := outcomes perform calls s'; (.ok a :: rest.1, rest.2)
      | .error e s' => let rest := outcomes perform calls s'; (.error e :: rest.1, rest.2)

section Outcomes

variable {ε σ τ α γ : Type} {Fits : τ → Prop} {R : σ → τ → Prop} {x : γ → EStateM ε σ α}
  {y : γ → EStateM ε τ α}

theorem outcomes_cons_state (y : γ → EStateM ε τ α) (call : γ) (calls : List γ) (t : τ) :
    (outcomes y (call :: calls) t).2 = (outcomes y calls (stateOf (y call t))).2 := by
  rw [outcomes]
  cases y call t <;> rfl

theorem outcomes_append_state (y : γ → EStateM ε τ α) (calls calls' : List γ) (t : τ) :
    (outcomes y (calls ++ calls') t).2 = (outcomes y calls' (outcomes y calls t).2).2 := by
  induction calls generalizing t with
  | nil => rfl
  | cons call calls ih => rw [List.cons_append, outcomes_cons_state, ih, outcomes_cons_state]

/-- What every call keeps holds behind all of them. -/
theorem outcomes_preserves {I : τ → Prop} (h : ∀ call t, I t → I (stateOf (y call t)))
    (calls : List γ) {t : τ} (ht : I t) : I (outcomes y calls t).2 := by
  induction calls generalizing t with
  | nil => exact ht
  | cons call calls ih =>
      rw [outcomes_cons_state]
      exact ih (h call t ht)

theorem fits_of_outcomes (h : ∀ call, Simulates Fits R (x call) (y call)) (calls : List γ) {t : τ}
    (hfits : Fits (outcomes y calls t).2) : Fits t := by
  induction calls generalizing t with
  | nil => exact hfits
  | cons call calls ih =>
      rw [outcomes_cons_state] at hfits
      exact (h call).back (ih hfits)

/-- Call by call, a simulated machine returns what is prescribed. -/
theorem outcomes_simulate (h : ∀ call, Simulates Fits R (x call) (y call)) (calls : List γ) {s : σ}
    {t : τ} (hs : R s t) (hfits : Fits (outcomes y calls t).2) :
    (outcomes x calls s).1 = (outcomes y calls t).1 ∧
      R (outcomes x calls s).2 (outcomes y calls t).2 := by
  induction calls generalizing s t with
  | nil => exact ⟨rfl, hs⟩
  | cons call calls ih =>
      rw [outcomes_cons_state] at hfits
      have hstep := (h call).step hs (fits_of_outcomes h calls hfits)
      rw [outcomes, outcomes]
      cases hrun : y call t with
      | ok a t' =>
          rw [hrun] at hstep hfits
          obtain ⟨s', hsame, hs'⟩ := hstep.of_ok
          obtain ⟨hreturns, hends⟩ := ih hs' hfits
          rw [hsame]
          exact ⟨congrArg (Except.ok a :: ·) hreturns, hends⟩
      | error e t' =>
          rw [hrun] at hstep hfits
          obtain ⟨s', hsame, hs'⟩ := hstep.of_error
          obtain ⟨hreturns, hends⟩ := ih hs' hfits
          rw [hsame]
          exact ⟨congrArg (Except.error e :: ·) hreturns, hends⟩

end Outcomes

end Io
