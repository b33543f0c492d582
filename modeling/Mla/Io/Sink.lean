import Mla.Io.Basic

/-!
# Writers that keep a byte string

`VecWriter` is the in-memory writer of the standard library. The other writers of a
development are described by a relation `Got s acc`: the writer in state `s` has been
given the bytes `acc`.

`Appends Got` says that a call that accepts `k` bytes of a buffer adds just these, and
that a call that was interrupted adds nothing, so that what a loop of calls has written
can be told from its outcome. Nothing is said of empty buffers, which no loop passes on,
nor of what a call that fails leaves behind. `Accepts n Got` is a writer that does not
fail before it has been given `n` bytes.
-/

namespace Io

/-- `Vec<u8>` as a writer; `ε` is the error type of the program that writes to it. -/
structure VecWriter (ε : Type) where
  data : Bytes
  deriving DecidableEq, Repr

namespace VecWriter

variable {ε : Type}

instance instWrite : Write ε (VecWriter ε) where
  write buf := fun s => .ok buf.length ⟨s.data ++ buf⟩

def Got (s : VecWriter ε) (acc : Bytes) : Prop := s.data = acc

end VecWriter

section Contracts

variable {ε ω : Type} [Write ε ω]

/-- A write adds the bytes that it says it has accepted. -/
structure Appends (Got : ω → Bytes → Prop) : Prop where
  ok : ∀ {s s' acc buf k}, Got s acc → buf ≠ [] → Write.write buf s = .ok k s' →
    k ≤ buf.length ∧ Got s' (acc ++ buf.take k)
  interrupted : ∀ {s s' acc buf e}, Got s acc → buf ≠ [] → Write.write buf s = .error e s' →
    e.isInterrupted = true → Got s' acc

/-- A write within the first `n` bytes makes progress. -/
def Accepts (n : ℕ) (Got : ω → Bytes → Prop) : Prop :=
  ∀ {s acc buf}, Got s acc → buf ≠ [] → acc.length + buf.length ≤ n →
    ∃ k s', Write.write buf s = .ok k s' ∧ 0 < k

end Contracts

/-- A writer that passes its buffers on as they are. -/
structure Forwards {ε τ ω : Type} [Write ε τ] [Write ε ω] (inner : τ → ω) : Prop where
  ok : ∀ {buf s s' k}, Write.write buf s = .ok k s' →
    Write.write buf (inner s) = .ok k (inner s')
  error : ∀ {buf s s' e}, Write.write buf s = .error e s' →
    Write.write buf (inner s) = .error e (inner s')

section Forwards

variable {ε τ ω : Type} [Write ε τ] [Write ε ω] {inner : τ → ω} {Got : ω → Bytes → Prop}

theorem Forwards.appends (hforwards : Forwards inner) (h : Appends Got) :
    Appends fun (s : τ) acc => Got (inner s) acc where
  ok hs hne hwrite := h.ok hs hne (hforwards.ok hwrite)
  interrupted hs hne hwrite hint := h.interrupted hs hne (hforwards.error hwrite) hint

theorem Forwards.accepts (hforwards : Forwards inner) {n : ℕ} (h : Accepts n Got) :
    Accepts n fun (s : τ) acc => Got (inner s) acc := by
  intro s acc buf hs hne hn
  obtain ⟨k, inner', hwrite, hk⟩ := h hs hne hn
  cases hrun : Write.write buf s with
  | ok k' s' =>
      have hsame := hforwards.ok hrun
      rw [hwrite] at hsame
      obtain ⟨rfl, -⟩ := EStateM.Result.ok.inj hsame
      exact ⟨k, s', rfl, hk⟩
  | error e s' =>
      have hsame := hforwards.error hrun
      rw [hwrite] at hsame
      cases hsame

end Forwards

section Behind

variable {ε τ ω : Type} [Write ε τ] [Write ε ω] {Got : ω → Bytes → Prop} {inner : τ → ω}

/-- What a writer is given behind some first bytes. -/
theorem Appends.behind (h : Appends Got) (base : Bytes) :
    Appends fun (s : ω) acc => Got s (base ++ acc) where
  ok hs hne hwrite := by
    rw [← List.append_assoc]
    exact h.ok hs hne hwrite
  interrupted hs hne hwrite hint := h.interrupted hs hne hwrite hint

theorem Accepts.behind {n : ℕ} {base : Bytes} (h : Accepts (base.length + n) Got) :
    Accepts n fun (s : ω) acc => Got s (base ++ acc) := by
  intro s acc buf hs hne hn
  refine h hs hne ?_
  rw [List.length_append]
  omega

/-- A write takes its whole buffer. -/
def TakesWhole (Got : ω → Bytes → Prop) : Prop :=
  ∀ s acc buf, Got s acc → buf ≠ [] → ∃ s', Write.write buf s = .ok buf.length s'

theorem TakesWhole.accepts (h : TakesWhole Got) (n : ℕ) : Accepts n Got := by
  intro s acc buf hs hne _
  obtain ⟨s', hwrite⟩ := h s acc buf hs hne
  exact ⟨buf.length, s', hwrite, List.length_pos_iff.mpr hne⟩

theorem Forwards.takesWhole (hforwards : Forwards inner) (h : TakesWhole Got) :
    TakesWhole fun (s : τ) acc => Got (inner s) acc := by
  intro s acc buf hs hne
  obtain ⟨inner', hwrite⟩ := h _ acc buf hs hne
  cases hrun : Write.write buf s with
  | ok k s' =>
      have hsame := hforwards.ok hrun
      rw [hwrite] at hsame
      obtain ⟨rfl, -⟩ := EStateM.Result.ok.inj hsame
      exact ⟨s', rfl⟩
  | error e s' =>
      have hsame := hforwards.error hrun
      rw [hwrite] at hsame
      cases hsame

/-- Where buffers are taken whole, a record of all buffers is one of what was written. -/
theorem Forwards.appends_record (hforwards : Forwards inner) (h : Appends Got)
    (hwhole : TakesWhole Got) {record : τ → Bytes}
    (hrecord : ∀ {buf s s' k}, Write.write buf s = .ok k s' → record s' = record s ++ buf) :
    Appends fun (s : τ) acc => Got (inner s) acc ∧ record s = acc where
  ok {s s' acc buf k} hs hne hwrite := by
    obtain ⟨hle, hs'⟩ := h.ok hs.1 hne (hforwards.ok hwrite)
    obtain ⟨inner', hall⟩ := hwhole _ acc buf hs.1 hne
    obtain ⟨rfl, -⟩ := EStateM.Result.ok.inj ((hforwards.ok hwrite).symm.trans hall)
    refine ⟨hle, hs', ?_⟩
    rw [hrecord hwrite, hs.2, List.take_length]
  interrupted {s s' acc buf e} hs hne hwrite _ := by
    obtain ⟨inner', hall⟩ := hwhole _ acc buf hs.1 hne
    cases (hforwards.error hwrite).symm.trans hall

end Behind

/-! ## Loops over a writer -/

section Loops

variable {ε ω : Type} [Patience] [Write ε ω] {Got : ω → Bytes → Prop}

omit [Patience] in
theorem Appends.writeAllLoop_ok (h : Appends Got) :
    ∀ (fuel : ℕ) {buf acc : Bytes} {s s' : ω}, Got s acc →
      writeAllLoop fuel buf s = .ok () s' → Got s' (acc ++ buf) := by
  intro fuel
  induction fuel with
  | zero =>
      intro buf acc s s' hs hrun
      cases buf with
      | nil =>
          obtain ⟨-, rfl⟩ := EStateM.Result.ok.inj hrun
          rwa [List.append_nil]
      | cons b bs => cases hrun
  | succ fuel ih =>
      intro buf acc s s' hs hrun
      cases buf with
      | nil =>
          obtain ⟨-, rfl⟩ := EStateM.Result.ok.inj hrun
          rwa [List.append_nil]
      | cons b bs =>
          rw [writeAllLoop_cons] at hrun
          cases hwrite : Write.write (b :: bs) s with
          | ok k s₁ =>
              simp only [hwrite] at hrun
              split at hrun
              · cases hrun
              · obtain ⟨-, hs₁⟩ := h.ok hs (List.cons_ne_nil b bs) hwrite
                have hrest := ih hs₁ hrun
                rwa [List.append_assoc, List.take_append_drop] at hrest
          | error e s₁ =>
              simp only [hwrite] at hrun
              split at hrun
              · rename_i hint
                exact ih (h.interrupted hs (List.cons_ne_nil b bs) hwrite hint) hrun
              · cases hrun

/-- A `write_all` that succeeds has written its buffer. -/
theorem Appends.writeAll_ok (h : Appends Got) {buf acc : Bytes} {s s' : ω} (hs : Got s acc)
    (hrun : writeAll buf s = .ok () s') : Got s' (acc ++ buf) :=
  h.writeAllLoop_ok _ hs hrun

omit [Patience] in
theorem Appends.writeAllLoop_eq (h : Appends Got) {n : ℕ} (haccepts : Accepts n Got) :
    ∀ (fuel : ℕ) {buf acc : Bytes} {s : ω}, Got s acc → buf.length ≤ fuel →
      acc.length + buf.length ≤ n →
      ∃ s', writeAllLoop fuel buf s = .ok () s' ∧ Got s' (acc ++ buf) := by
  intro fuel
  induction fuel with
  | zero =>
      intro buf acc s hs hlen _
      obtain rfl := List.length_eq_zero_iff.mp (Nat.le_zero.mp hlen)
      exact ⟨s, rfl, by rwa [List.append_nil]⟩
  | succ fuel ih =>
      intro buf acc s hs hlen hn
      cases buf with
      | nil => exact ⟨s, rfl, by rwa [List.append_nil]⟩
      | cons b bs =>
          obtain ⟨k, s₁, hwrite, hk⟩ := haccepts hs (List.cons_ne_nil b bs) hn
          obtain ⟨hle, hs₁⟩ := h.ok hs (List.cons_ne_nil b bs) hwrite
          obtain ⟨s', hrest, hs'⟩ := ih hs₁ (show ((b :: bs).drop k).length ≤ fuel by
            rw [List.length_drop]
            omega) (by
            rw [List.length_append, List.length_take, List.length_drop]
            omega)
          refine ⟨s', ?_, ?_⟩
          · rw [writeAllLoop_cons]
            simp only [hwrite, if_neg (Nat.ne_of_gt hk), hrest]
          · rwa [List.append_assoc, List.take_append_drop] at hs'

/-- `write_all` on a writer that does not fail. -/
theorem Appends.writeAll_eq (h : Appends Got) {n : ℕ} (haccepts : Accepts n Got)
    {buf acc : Bytes} {s : ω} (hs : Got s acc) (hn : acc.length + buf.length ≤ n) :
    ∃ s', writeAll buf s = .ok () s' ∧ Got s' (acc ++ buf) :=
  h.writeAllLoop_eq haccepts _ hs (Nat.le_add_right _ _) hn

end Loops

section OneCall

variable {ε ω : Type} [Patience] [Write ε ω] {buf : Bytes} {s s' : ω}

/-- A call that takes the whole buffer is all that `write_all` needs. -/
theorem writeAll_of_write (hne : buf ≠ []) (h : Write.write buf s = .ok buf.length s') :
    writeAll buf s = .ok () s' := by
  obtain ⟨b, bs, rfl⟩ := List.exists_cons_of_ne_nil hne
  obtain ⟨fuel, hfuel⟩ : ∃ fuel, (b :: bs).length + Patience.retries = fuel + 1 :=
    ⟨bs.length + Patience.retries, by rw [List.length_cons]; omega⟩
  rw [writeAll, hfuel, writeAllLoop_cons]
  have hpos : (b :: bs).length ≠ 0 := Nat.succ_ne_zero _
  simp only [h, if_neg hpos, List.drop_length]
  cases fuel <;> rfl

/-- A call that takes nothing makes `write_all` give up. -/
theorem writeAll_of_zero (hne : buf ≠ []) (h : Write.write buf s = .ok 0 s') :
    writeAll buf s = .error (.kind .writeZero) s' := by
  obtain ⟨b, bs, rfl⟩ := List.exists_cons_of_ne_nil hne
  obtain ⟨fuel, hfuel⟩ : ∃ fuel, (b :: bs).length + Patience.retries = fuel + 1 :=
    ⟨bs.length + Patience.retries, by rw [List.length_cons]; omega⟩
  rw [writeAll, hfuel, writeAllLoop_cons]
  simp only [h, if_true]

/-- An error that is not retried is that of `write_all`. -/
theorem writeAll_of_error (hne : buf ≠ []) {e : IoError ε} (h : Write.write buf s = .error e s')
    (hint : e.isInterrupted = false) : writeAll buf s = .error e s' := by
  obtain ⟨b, bs, rfl⟩ := List.exists_cons_of_ne_nil hne
  obtain ⟨fuel, hfuel⟩ : ∃ fuel, (b :: bs).length + Patience.retries = fuel + 1 :=
    ⟨bs.length + Patience.retries, by rw [List.length_cons]; omega⟩
  rw [writeAll, hfuel, writeAllLoop_cons]
  simp only [h, hint, Bool.false_eq_true, if_false]

end OneCall

/-! ## Errors that are not retried -/

/-- An error of the operation is not one that a loop retries. -/
def NeverInterrupted {ε ω α : Type} (x : Op ε ω α) : Prop :=
  ∀ s e s', x s = .error e s' → e.isInterrupted = false

section NeverInterrupted

variable {ε ω α β : Type}

theorem NeverInterrupted.pure (a : α) : NeverInterrupted (Pure.pure a : Op ε ω α) := by
  intro s e s' h
  cases h

theorem NeverInterrupted.bind {x : Op ε ω α} {f : α → Op ε ω β} (hx : NeverInterrupted x)
    (hf : ∀ a, NeverInterrupted (f a)) : NeverInterrupted (x >>= f) := by
  intro s e s' h
  rw [bind_apply] at h
  cases hrun : x s with
  | ok a s₁ =>
      rw [hrun] at h
      exact hf a _ _ _ h
  | error e₁ s₁ =>
      rw [hrun] at h
      obtain ⟨rfl, -⟩ := EStateM.Result.error.inj h
      exact hx _ _ _ hrun

theorem NeverInterrupted.getState : NeverInterrupted (get : Op ε ω ω) := by
  intro s e s' h
  cases h

theorem NeverInterrupted.modifyState (f : ω → ω) :
    NeverInterrupted (modify f : Op ε ω PUnit) := by
  intro s e s' h
  cases h

theorem NeverInterrupted.zoom {τ : Type} {proj : ω → τ} {put : τ → ω → ω} {x : Op ε τ α}
    (hx : NeverInterrupted x) : NeverInterrupted (Io.zoom proj put x) := by
  intro s e s' h
  rw [Io.zoom] at h
  cases hrun : x (proj s) with
  | ok a t =>
      rw [hrun] at h
      cases h
  | error e₁ t =>
      rw [hrun] at h
      obtain ⟨rfl, -⟩ := EStateM.Result.error.inj h
      exact hx _ _ _ hrun

variable [Patience] [Write ε ω]

omit [Patience] in
theorem writeAllLoop_error :
    ∀ (fuel : ℕ) {buf : Bytes} {s s' : ω} {e : IoError ε},
      writeAllLoop fuel buf s = .error e s' → e.isInterrupted = false := by
  intro fuel
  induction fuel with
  | zero =>
      intro buf s s' e hrun
      cases buf with
      | nil => cases hrun
      | cons b bs =>
          obtain ⟨rfl, -⟩ := EStateM.Result.error.inj hrun
          rfl
  | succ fuel ih =>
      intro buf s s' e hrun
      cases buf with
      | nil => cases hrun
      | cons b bs =>
          rw [writeAllLoop_cons] at hrun
          cases hwrite : Write.write (b :: bs) s with
          | ok k s₁ =>
              simp only [hwrite] at hrun
              split at hrun
              · obtain ⟨rfl, -⟩ := EStateM.Result.error.inj hrun
                rfl
              · exact ih hrun
          | error e₁ s₁ =>
              simp only [hwrite] at hrun
              split at hrun
              · exact ih hrun
              · rename_i hint
                obtain ⟨rfl, -⟩ := EStateM.Result.error.inj hrun
                simpa using hint

/-- `write_all` sits out the calls that are interrupted. -/
theorem NeverInterrupted.writeAll (buf : Bytes) : NeverInterrupted (Io.writeAll buf : Op ε ω Unit) :=
  fun _ _ _ hrun => writeAllLoop_error _ hrun

end NeverInterrupted

/-! ## What every call keeps -/

/-- However the operation ends, it keeps `I`. -/
def Preserves {ε σ α : Type} (I : σ → Prop) (x : EStateM ε σ α) : Prop :=
  ∀ s, I s → I (stateOf (x s))

theorem Preserves.bind {ε σ α β : Type} {I : σ → Prop} {x : EStateM ε σ α}
    {f : α → EStateM ε σ β} (hx : Preserves I x) (hf : ∀ a, Preserves I (f a)) :
    Preserves I (x >>= f) := by
  intro s hs
  have hfirst := hx s hs
  rw [bind_apply]
  cases hrun : x s with
  | error e s' =>
      rw [hrun] at hfirst
      exact hfirst
  | ok a s' =>
      rw [hrun] at hfirst
      exact hf a s' hfirst

theorem Preserves.map {ε σ α β : Type} {I : σ → Prop} {x : EStateM ε σ α} (f : α → β)
    (hx : Preserves I x) : Preserves I (f <$> x) := by
  have hpure : ∀ a : α, Preserves I (Pure.pure (f a) : EStateM ε σ β) := fun _ _ hs => hs
  exact hx.bind hpure

/-- What every call keeps holds next to what was written. -/
theorem Appends.and {ε ω : Type} [Write ε ω] {Got : ω → Bytes → Prop} {I : ω → Prop}
    (h : Appends Got) (hI : ∀ buf : Bytes, Preserves I (Write.write buf : Op ε ω ℕ)) :
    Appends fun s acc => Got s acc ∧ I s where
  ok {s s' acc buf k} hs hne hwrite := by
    obtain ⟨hle, hs'⟩ := h.ok hs.1 hne hwrite
    have hkept := hI buf s hs.2
    rw [hwrite] at hkept
    exact ⟨hle, hs', hkept⟩
  interrupted {s s' acc buf e} hs hne hwrite hint := by
    have hkept := hI buf s hs.2
    rw [hwrite] at hkept
    exact ⟨h.interrupted hs.1 hne hwrite hint, hkept⟩

/-! ## Several buffers -/

section Buffers

variable {ε ω : Type} [Patience] [Write ε ω] {Got : ω → Bytes → Prop}

/-- `write_all` on one buffer after the other. -/
def writeBuffers : List Bytes → Op ε ω Unit
  | [] => pure ()
  | buf :: bufs => do
      writeAll buf
      writeBuffers bufs

theorem Appends.writeBuffers_ok (h : Appends Got) :
    ∀ {bufs : List Bytes} {acc : Bytes} {s s' : ω}, Got s acc → writeBuffers bufs s = .ok () s' →
      Got s' (acc ++ bufs.flatten) := by
  intro bufs
  induction bufs with
  | nil =>
      intro acc s s' hs hrun
      obtain ⟨-, rfl⟩ := EStateM.Result.ok.inj hrun
      rwa [List.flatten_nil, List.append_nil]
  | cons buf bufs ih =>
      intro acc s s' hs hrun
      obtain ⟨u, s₁, hone, hrest⟩ := bind_eq_ok.mp hrun
      have hall := ih (h.writeAll_ok hs hone) hrest
      rwa [List.flatten_cons, ← List.append_assoc]

theorem Appends.writeBuffers_eq (h : Appends Got) {n : ℕ} (haccepts : Accepts n Got) :
    ∀ {bufs : List Bytes} {acc : Bytes} {s : ω}, Got s acc →
      acc.length + bufs.flatten.length ≤ n →
      ∃ s', writeBuffers bufs s = .ok () s' ∧ Got s' (acc ++ bufs.flatten) := by
  intro bufs
  induction bufs with
  | nil =>
      intro acc s hs _
      exact ⟨s, rfl, by rwa [List.flatten_nil, List.append_nil]⟩
  | cons buf bufs ih =>
      intro acc s hs hn
      rw [List.flatten_cons, List.length_append] at hn
      have hbuf : acc.length + buf.length ≤ n := by omega
      obtain ⟨s₁, hrun, hs₁⟩ := h.writeAll_eq haccepts hs hbuf
      obtain ⟨s', hrest, hs'⟩ := ih hs₁ (by rw [List.length_append]; omega)
      refine ⟨s', ?_, ?_⟩
      · rw [writeBuffers, bind_apply, hrun]
        exact hrest
      · rwa [List.flatten_cons, ← List.append_assoc]

end Buffers

/-! ## Single calls -/

/-- A run of calls with buffers that are not empty; `P` is what they have taken. -/
inductive Taken {ε ω : Type} [Write ε ω] (s : ω) : Bytes → ω → Prop
  | start : Taken s [] s
  | write {P buf : Bytes} {k : ℕ} {s₁ s₂ : ω} : Taken s P s₁ → buf ≠ [] →
      Write.write buf s₁ = .ok k s₂ → Taken s (P ++ buf.take k) s₂

theorem Appends.taken {ε ω : Type} [Write ε ω] {Got : ω → Bytes → Prop} (h : Appends Got)
    {s s' : ω} {acc P : Bytes} (hs : Got s acc) (hrun : Taken s P s') : Got s' (acc ++ P) := by
  induction hrun with
  | start => rwa [List.append_nil]
  | write _ hne hwrite ih =>
      rw [← List.append_assoc]
      exact (h.ok ih hne hwrite).2

/-- What a writer accepts can be written call by call. -/
theorem Appends.exists_taken {ε ω : Type} [Write ε ω] {Got : ω → Bytes → Prop} (h : Appends Got)
    {n : ℕ} (haccepts : Accepts n Got) {s : ω} {acc : Bytes} (hs : Got s acc) (P : Bytes)
    (hn : acc.length + P.length ≤ n) : ∃ s', Taken s P s' := by
  have hrest : ∀ (m : ℕ) {Q R : Bytes} {s₁ : ω}, R.length ≤ m → Taken s Q s₁ →
      acc.length + Q.length + R.length ≤ n → ∃ s', Taken s (Q ++ R) s' := by
    intro m
    induction m with
    | zero =>
        intro Q R s₁ hm htaken _
        obtain rfl := List.length_eq_zero_iff.mp (Nat.le_zero.mp hm)
        exact ⟨s₁, by rwa [List.append_nil]⟩
    | succ m ih =>
        intro Q R s₁ hm htaken hn
        by_cases hne : R = []
        · subst hne
          exact ⟨s₁, by rwa [List.append_nil]⟩
        · obtain ⟨k, s₂, hwrite, hk⟩ := haccepts (h.taken hs htaken) hne
            (by rwa [List.length_append])
          obtain ⟨s', hmore⟩ := ih (R := R.drop k) (by rw [List.length_drop]; omega)
            (.write htaken hne hwrite) (by
              rw [List.length_append, List.length_take, List.length_drop]
              omega)
          rw [List.append_assoc, List.take_append_drop] at hmore
          exact ⟨s', hmore⟩
  exact hrest P.length (Nat.le_refl _) .start (by rwa [List.length_nil, Nat.add_zero])

/-! ## The writer that keeps nothing -/

/-- `io::sink`. -/
structure Sink (ε : Type) where

namespace Sink

variable {ε : Type}

instance instWrite : Write ε (Sink ε) where
  write buf := pure buf.length

/-- Nothing can be told of what it has been given. -/
theorem appends : Appends fun (_ : Sink ε) _ => True where
  ok {_ _ _ buf k} _ _ hwrite := by
    obtain ⟨rfl, -⟩ := EStateM.Result.ok.inj hwrite
    exact ⟨Nat.le_refl _, trivial⟩
  interrupted _ _ _ _ := trivial

theorem accepts (n : ℕ) : Accepts n fun (_ : Sink ε) _ => True :=
  fun {s _ buf} _ hne _ => ⟨buf.length, s, rfl, List.length_pos_iff.mpr hne⟩

end Sink

/-! ## The in-memory writer -/

namespace VecWriter

variable {ε : Type}

theorem appends : Appends (Got : VecWriter ε → Bytes → Prop) where
  ok {s s' acc buf k} h _ hwrite := by
    obtain ⟨rfl, rfl⟩ := EStateM.Result.ok.inj hwrite
    refine ⟨Nat.le_refl _, ?_⟩
    rw [Got, List.take_length, h]
  interrupted _ _ hwrite _ := by cases hwrite

theorem accepts (n : ℕ) : Accepts n (Got : VecWriter ε → Bytes → Prop) := by
  intro s acc buf _ hne _
  exact ⟨buf.length, ⟨s.data ++ buf⟩, rfl, List.length_pos_iff.mpr hne⟩

theorem takesWhole : TakesWhole (Got : VecWriter ε → Bytes → Prop) :=
  fun s _ buf _ _ => ⟨⟨s.data ++ buf⟩, rfl⟩

end VecWriter

end Io
