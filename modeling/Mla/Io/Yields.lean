import Mla.Io.Cursor
import Mla.Io.Sink

/-!
# What can be told from a reader that may fail

`Yields S At` is the half of a reader's contract that holds whatever fails: the bytes that a
read returns are those of `S` at its position, and a read that was interrupted has not moved.
`Moves S At` adds that a seek which succeeds goes where it was asked to; one that asks for a
place before the start may also stop at the start. From these follows what a loop of calls
has returned when it succeeds.
-/

namespace Io

section Contracts

variable {ε σ : Type}

structure Yields [Read ε σ] (S : Bytes) (At : σ → ℕ → Prop) : Prop where
  read : ∀ {s s' p n bs}, At s p → Read.read n s = .ok bs s' →
    bs = slice S p bs.length ∧ bs.length ≤ n ∧ (bs = [] → n = 0 ∨ S.length ≤ p) ∧
      At s' (p + bs.length)
  interrupted : ∀ {s s' p n e}, At s p → Read.read n s = .error e s' → e.isInterrupted = true →
    At s' p

structure Moves [Read ε σ] [Seek ε σ] (S : Bytes) (At : σ → ℕ → Prop) : Prop
    extends Yields S At where
  seekStart : ∀ {s s' p t u}, At s p → Seek.seek (.start t) s = .ok u s' → u = t ∧ At s' t
  seekCurrent : ∀ {s s' p d u}, At s p → Seek.seek (.current d) s = .ok u s' →
    (u : ℤ) = max 0 (p + d) ∧ At s' u
  seekEnd : ∀ {s s' p d u}, At s p → Seek.seek (.fromEnd d) s = .ok u s' →
    (u : ℤ) = max 0 (S.length + d) ∧ At s' u

/-- From some place on, nothing before it is read. -/
theorem Yields.beyond [Read ε σ] {S : Bytes} {At : σ → ℕ → Prop} (h : Yields (ε := ε) S At) (o : ℕ) :
    Yields (ε := ε) S fun s p => At s p ∧ o ≤ p where
  read hs hread := by
    obtain ⟨hbytes, hle, hstop, hs'⟩ := h.read hs.1 hread
    exact ⟨hbytes, hle, hstop, hs', Nat.le_add_right_of_le hs.2⟩
  interrupted hs hread hint := ⟨h.interrupted hs.1 hread hint, hs.2⟩

/-- The in-memory reader over `S` stands for `S`. -/
theorem Cursor.moves (S : Bytes) : Moves S (Cursor.At S (ε := ε)) where
  read {s s' p n bs} hs hread := by
    obtain ⟨rfl, rfl⟩ := hs
    obtain ⟨rfl, rfl⟩ := EStateM.Result.ok.inj hread
    refine ⟨?_, List.length_take_le _ _, fun hnil => ?_, rfl, rfl⟩
    · rw [next, length_slice, ← slice_eq_slice_min]
    · have hlen := congrArg List.length hnil
      rw [next, length_slice, List.length_nil] at hlen
      omega
  interrupted hs hread _ := by cases hread
  seekStart {s s' p t u} hs hseek := by
    obtain ⟨rfl, rfl⟩ := EStateM.Result.ok.inj hseek
    exact ⟨rfl, hs.1, rfl⟩
  seekCurrent {s s' p d u} hs hseek := by
    obtain ⟨rfl, rfl⟩ := hs
    simp only [Seek.seek, target] at hseek
    cases ht : checkedAddSigned s.pos d with
    | none =>
        rw [ht] at hseek
        cases hseek
    | some t =>
        rw [ht] at hseek
        obtain ⟨rfl, rfl⟩ := EStateM.Result.ok.inj hseek
        have hsum := checkedAddSigned_eq ht
        exact ⟨by omega, rfl, rfl⟩
  seekEnd {s s' p d u} hs hseek := by
    obtain ⟨rfl, rfl⟩ := hs
    simp only [Seek.seek, target] at hseek
    cases ht : checkedAddSigned s.data.length d with
    | none =>
        rw [ht] at hseek
        cases hseek
    | some t =>
        rw [ht] at hseek
        obtain ⟨rfl, rfl⟩ := EStateM.Result.ok.inj hseek
        have hsum := checkedAddSigned_eq ht
        exact ⟨by omega, rfl, rfl⟩

end Contracts

section Loops

variable {ε σ : Type} [Patience] [Read ε σ] {S : Bytes} {At : σ → ℕ → Prop}

omit [Patience] in
theorem Yields.readExactLoop_ok (h : Yields S At) :
    ∀ (fuel n : ℕ) {s s' : σ} {p : ℕ} {bs : Bytes}, At s p →
      readExactLoop fuel n s = .ok bs s' → bs = slice S p n ∧ bs.length = n ∧ At s' (p + n) := by
  intro fuel
  induction fuel with
  | zero =>
      intro n s s' p bs hs hrun
      cases n with
      | zero =>
          obtain ⟨rfl, rfl⟩ := EStateM.Result.ok.inj hrun
          exact ⟨(slice_zero_length S p).symm, rfl, hs⟩
      | succ n => cases hrun
  | succ fuel ih =>
      intro n s s' p bs hs hrun
      cases n with
      | zero =>
          obtain ⟨rfl, rfl⟩ := EStateM.Result.ok.inj hrun
          exact ⟨(slice_zero_length S p).symm, rfl, hs⟩
      | succ n =>
          rw [readExactLoop_succ] at hrun
          cases hread : Read.read (n + 1) s with
          | error e s₁ =>
              simp only [hread] at hrun
              split at hrun
              · rename_i hint
                exact ih (n + 1) (h.interrupted hs hread hint) hrun
              · cases hrun
          | ok bs₁ s₁ =>
              simp only [hread] at hrun
              split at hrun
              · cases hrun
              · obtain ⟨hbytes, hle, -, hs₁⟩ := h.read hs hread
                split at hrun
                · rename_i rest s₂ hrest
                  obtain ⟨rfl, rfl⟩ := EStateM.Result.ok.inj hrun
                  obtain ⟨hrest, hlen, hs₂⟩ := ih _ hs₁ hrest
                  have hsum : bs₁.length + (n + 1 - bs₁.length) = n + 1 := by omega
                  have hcut := slice_add S p bs₁.length (n + 1 - bs₁.length)
                  rw [hsum, ← hbytes, ← hrest] at hcut
                  refine ⟨hcut.symm, ?_, ?_⟩
                  · rw [List.length_append, hlen, hsum]
                  · rwa [Nat.add_assoc, hsum] at hs₂
                · cases hrun

/-- A `read_exact` that succeeds has returned the next `n` bytes. -/
theorem Yields.readExact_ok (h : Yields S At) {n : ℕ} {s s' : σ} {p : ℕ} {bs : Bytes}
    (hs : At s p) (hrun : readExact n s = .ok bs s') :
    bs = slice S p n ∧ bs.length = n ∧ At s' (p + n) :=
  h.readExactLoop_ok _ _ hs hrun

omit [Patience] in
theorem Yields.takeReadToEndLoop_ok (h : Yields S At) :
    ∀ (fuel limit : ℕ) {s s' : σ} {p : ℕ} {bs : Bytes}, At s p →
      takeReadToEndLoop fuel limit s = (bs, .ok () s') →
      bs = slice S p limit ∧ At s' (p + bs.length) := by
  intro fuel
  induction fuel with
  | zero =>
      intro limit s s' p bs hs hrun
      cases limit with
      | zero =>
          obtain ⟨rfl, hok⟩ := Prod.mk.inj hrun
          obtain ⟨-, rfl⟩ := EStateM.Result.ok.inj hok
          exact ⟨(slice_zero_length S p).symm, hs⟩
      | succ limit => cases hrun
  | succ fuel ih =>
      intro limit s s' p bs hs hrun
      cases limit with
      | zero =>
          obtain ⟨rfl, hok⟩ := Prod.mk.inj hrun
          obtain ⟨-, rfl⟩ := EStateM.Result.ok.inj hok
          exact ⟨(slice_zero_length S p).symm, hs⟩
      | succ limit =>
          rw [takeReadToEndLoop_succ] at hrun
          cases hread : Read.read (limit + 1) s with
          | error e s₁ =>
              simp only [hread] at hrun
              split at hrun
              · rename_i hint
                exact ih (limit + 1) (h.interrupted hs hread hint) hrun
              · cases hrun
          | ok bs₁ s₁ =>
              obtain ⟨hbytes, hle, hstop, hs₁⟩ := h.read hs hread
              simp only [hread] at hrun
              split at hrun
              · rename_i hempty
                obtain ⟨rfl, hok⟩ := Prod.mk.inj hrun
                obtain ⟨-, rfl⟩ := EStateM.Result.ok.inj hok
                rw [List.isEmpty_iff] at hempty
                subst hempty
                have hend : S.length ≤ p := by
                  rcases hstop rfl with h0 | hend
                  · cases h0
                  · exact hend
                exact ⟨(slice_eq_nil_of_le hend _).symm, hs₁⟩
              · cases hrest : takeReadToEndLoop fuel (limit + 1 - bs₁.length) s₁ with
                | mk rest r =>
                    rw [hrest] at hrun
                    obtain ⟨rfl, rfl⟩ := Prod.mk.inj hrun
                    obtain ⟨hrest, hs₂⟩ := ih _ hs₁ hrest
                    have hsum : bs₁.length + (limit + 1 - bs₁.length) = limit + 1 := by omega
                    have hcut := slice_add S p bs₁.length (limit + 1 - bs₁.length)
                    rw [hsum, ← hbytes, ← hrest] at hcut
                    refine ⟨hcut.symm, ?_⟩
                    rwa [List.length_append, ← Nat.add_assoc]

/-- A `take(limit).read_to_end` that succeeds has returned what is left of `S`, up to the
limit. -/
theorem Yields.takeReadToEnd_ok (h : Yields S At) {limit : ℕ} {s s' : σ} {p : ℕ} {bs : Bytes}
    (hs : At s p) (hrun : takeReadToEnd limit s = (bs, .ok () s')) :
    bs = slice S p limit ∧ At s' (p + bs.length) :=
  h.takeReadToEndLoop_ok _ _ hs hrun

end Loops

/-! ## Copying from a reader to a writer -/

section Copy

variable {ε σ ω : Type} [Patience] [Read ε σ] [Write ε ω]

/-- The size of the buffer of `io::copy`. -/
def copyBufSize : ℕ := 8192

/-- `io::copy` of a reader limited by `take(limit)`, with `fuel` calls left. -/
def copyTakeLoop : ℕ → ℕ → Op ε (σ × ω) Unit
  | _, 0 => pure ()
  | 0, _ + 1 => throw (.kind .exhausted)
  | fuel + 1, limit + 1 => fun s =>
      match Read.read (min copyBufSize (limit + 1)) s.1 with
      | .ok bs src =>
          if bs.isEmpty then .ok () (src, s.2)
          else
            match writeAll bs s.2 with
            | .ok _ dst => copyTakeLoop fuel (limit + 1 - bs.length) (src, dst)
            | .error e dst => .error e (src, dst)
      | .error e src =>
          if e.isInterrupted then copyTakeLoop fuel (limit + 1) (src, s.2)
          else .error e (src, s.2)

/-- `io::copy(&mut src.take(limit), dest)`. -/
def copyTake (limit : ℕ) : Op ε (σ × ω) Unit :=
  copyTakeLoop (limit + Patience.retries) limit

/-- `io::copy(src, dest)`: the number of bytes copied is a `u64`. -/
def copy : Op ε (σ × ω) Unit := copyTake u64Size

variable {S acc : Bytes} {At : σ → ℕ → Prop} {Got : ω → Bytes → Prop}

theorem Yields.copyTakeLoop_ok (h : Yields S At) (happ : Appends Got) :
    ∀ (fuel limit : ℕ) {s s' : σ} {d d' : ω} {p : ℕ} {acc : Bytes}, At s p → Got d acc →
      copyTakeLoop fuel limit (s, d) = .ok () (s', d') →
      ∃ k, At s' (p + k) ∧ Got d' (acc ++ slice S p k) ∧ k ≤ limit ∧
        (slice S p k).length = k ∧ (k = limit ∨ S.length ≤ p + k) := by
  intro fuel
  induction fuel with
  | zero =>
      intro limit s s' d d' p acc hs hd hrun
      cases limit with
      | zero =>
          obtain ⟨-, hok⟩ := EStateM.Result.ok.inj hrun
          obtain ⟨rfl, rfl⟩ := Prod.mk.inj hok
          refine ⟨0, hs, ?_, Nat.le_refl _, ?_, Or.inl rfl⟩
          · rwa [slice_zero_length, List.append_nil]
          · rw [slice_zero_length, List.length_nil]
      | succ limit => cases hrun
  | succ fuel ih =>
      intro limit s s' d d' p acc hs hd hrun
      cases limit with
      | zero =>
          obtain ⟨-, hok⟩ := EStateM.Result.ok.inj hrun
          obtain ⟨rfl, rfl⟩ := Prod.mk.inj hok
          refine ⟨0, hs, ?_, Nat.le_refl _, ?_, Or.inl rfl⟩
          · rwa [slice_zero_length, List.append_nil]
          · rw [slice_zero_length, List.length_nil]
      | succ limit =>
          rw [copyTakeLoop] at hrun
          cases hread : Read.read (min copyBufSize (limit + 1)) s with
          | error e s₁ =>
              simp only [hread] at hrun
              split at hrun
              · rename_i hint
                exact ih (limit + 1) (h.interrupted hs hread hint) hd hrun
              · cases hrun
          | ok bs s₁ =>
              obtain ⟨hbytes, hle, hstop, hs₁⟩ := h.read hs hread
              simp only [hread] at hrun
              split at hrun
              · rename_i hempty
                obtain ⟨-, hok⟩ := EStateM.Result.ok.inj hrun
                obtain ⟨rfl, rfl⟩ := Prod.mk.inj hok
                rw [List.isEmpty_iff] at hempty
                subst hempty
                have hend : S.length ≤ p := by
                  rcases hstop rfl with h0 | hend
                  · rw [copyBufSize] at h0
                    omega
                  · exact hend
                refine ⟨0, hs₁, ?_, Nat.zero_le _, ?_, Or.inr hend⟩
                · rwa [slice_zero_length, List.append_nil]
                · rw [slice_zero_length, List.length_nil]
              · split at hrun
                · rename_i u d₁ hwrite
                  obtain ⟨k, hs', hd', hk, hlen, hend⟩ :=
                    ih _ hs₁ (happ.writeAll_ok hd hwrite) hrun
                  have hcut := slice_add S p bs.length k
                  rw [← hbytes] at hcut
                  refine ⟨bs.length + k, ?_, ?_, by omega, ?_, by omega⟩
                  · rwa [← Nat.add_assoc]
                  · rwa [hcut, ← List.append_assoc]
                  · rw [hcut, List.length_append, hlen]
                · cases hrun

/-- A copy that succeeds has moved what is left of `S` up to the limit. -/
theorem Yields.copyTake_ok (h : Yields S At) (happ : Appends Got) {limit : ℕ} {s s' : σ}
    {d d' : ω} {p : ℕ} (hs : At s p) (hd : Got d acc)
    (hrun : copyTake limit (s, d) = .ok () (s', d')) :
    ∃ k, At s' (p + k) ∧ Got d' (acc ++ slice S p k) ∧ k ≤ limit ∧
      (slice S p k).length = k ∧ (k = limit ∨ S.length ≤ p + k) :=
  h.copyTakeLoop_ok happ _ _ hs hd hrun

theorem Delivers.copyTakeLoop_eq {closed : Prop} (h : Delivers closed S At) (happ : Appends Got)
    {n : ℕ} (haccepts : Accepts n Got) :
    ∀ (fuel limit : ℕ) {s : σ} {d : ω} {p : ℕ} {acc : Bytes}, At s p → Got d acc → limit ≤ fuel →
      p + limit ≤ S.length → acc.length + limit ≤ n →
      ∃ s' d', copyTakeLoop fuel limit (s, d) = .ok () (s', d') ∧ At s' (p + limit) ∧
        Got d' (acc ++ slice S p limit) := by
  intro fuel
  induction fuel with
  | zero =>
      intro limit s d p acc hs hd hfuel _ _
      obtain rfl : limit = 0 := by omega
      exact ⟨s, d, rfl, hs, by rwa [slice_zero_length, List.append_nil]⟩
  | succ fuel ih =>
      intro limit s d p acc hs hd hfuel hlimit hn
      cases limit with
      | zero => exact ⟨s, d, rfl, hs, by rwa [slice_zero_length, List.append_nil]⟩
      | succ limit =>
          have hasked : 0 < min copyBufSize (limit + 1) := by
            rw [copyBufSize]
            omega
          obtain ⟨k, s₁, hread, hk, hkn, hpk, hs₁⟩ := h.progress hs (by omega) hasked
          have hlen : (slice S p k).length = k := length_slice_of_le hpk
          have hroom : acc.length + (slice S p k).length ≤ n := by
            rw [hlen]
            omega
          obtain ⟨d₁, hwrite, hd₁⟩ := happ.writeAll_eq haccepts hd hroom
          obtain ⟨s', d', hrest, hs', hd'⟩ := ih (limit + 1 - k) hs₁ hd₁ (by omega) (by omega)
            (by rw [List.length_append, hlen]; omega)
          have hsum : k + (limit + 1 - k) = limit + 1 := by omega
          have hcut := slice_add S p k (limit + 1 - k)
          rw [hsum] at hcut
          refine ⟨s', d', ?_, ?_, ?_⟩
          · rw [copyTakeLoop]
            simp only [hread, isEmpty_slice hk hpk, Bool.false_eq_true, if_false, hwrite, hlen,
              hrest]
          · rwa [Nat.add_assoc, hsum] at hs'
          · rwa [hcut, ← List.append_assoc]

/-- What a reader still has is copied to a writer that takes it. -/
theorem Delivers.copyTake_eq {closed : Prop} (h : Delivers closed S At) (happ : Appends Got)
    {n : ℕ} (haccepts : Accepts n Got) {limit : ℕ} {s : σ} {d : ω} {p : ℕ} (hs : At s p)
    (hd : Got d acc) (hlimit : p + limit ≤ S.length) (hn : acc.length + limit ≤ n) :
    ∃ s' d', copyTake limit (s, d) = .ok () (s', d') ∧ At s' (p + limit) ∧
      Got d' (acc ++ slice S p limit) :=
  h.copyTakeLoop_eq happ haccepts _ _ hs hd (Nat.le_add_right _ _) hlimit hn

theorem Delivers.copyTakeLoop_end (h : Delivers True S At) (happ : Appends Got) {n : ℕ}
    (haccepts : Accepts n Got) :
    ∀ (fuel limit : ℕ) {s : σ} {d : ω} {p : ℕ} {acc : Bytes}, At s p → Got d acc → limit ≤ fuel →
      S.length < p + limit → acc.length + (S.length - p) ≤ n →
      ∃ s' d', copyTakeLoop fuel limit (s, d) = .ok () (s', d') ∧ At s' S.length ∧
        Got d' (acc ++ S.drop p) := by
  intro fuel
  induction fuel with
  | zero =>
      intro limit s d p acc hs _ hfuel hlimit _
      have hle := h.le hs
      omega
  | succ fuel ih =>
      intro limit s d p acc hs hd hfuel hlimit hn
      have hle := h.le hs
      obtain ⟨limit, rfl⟩ : ∃ l, limit = l + 1 := ⟨limit - 1, by omega⟩
      have hasked : 0 < min copyBufSize (limit + 1) := by
        rw [copyBufSize]
        omega
      rcases Nat.eq_or_lt_of_le hle with hend | hlt
      · obtain ⟨s₁, hread, hs₁⟩ :=
          h.stop (n := min copyBufSize (limit + 1)) trivial hs (Or.inr hend)
        refine ⟨s₁, d, ?_, hend ▸ hs₁, ?_⟩
        · rw [copyTakeLoop]
          simp only [hread, List.isEmpty_nil, if_true]
        · rwa [hend, List.drop_length, List.append_nil]
      · obtain ⟨k, s₁, hread, hk, hkn, hpk, hs₁⟩ := h.progress hs hlt hasked
        have hlen : (slice S p k).length = k := length_slice_of_le hpk
        obtain ⟨d₁, hwrite, hd₁⟩ := happ.writeAll_eq haccepts hd (by rw [hlen]; omega)
        obtain ⟨s', d', hrest, hs', hd'⟩ := ih (limit + 1 - k) hs₁ hd₁ (by omega) (by omega)
          (by rw [List.length_append, hlen]; omega)
        refine ⟨s', d', ?_, hs', ?_⟩
        · rw [copyTakeLoop]
          simp only [hread, isEmpty_slice hk hpk, Bool.false_eq_true, if_false, hwrite, hlen, hrest]
        · rwa [drop_eq_slice_append S p k, ← List.append_assoc]

/-- All that a reader still has is copied to a writer that takes it. -/
theorem Delivers.copy_eq (h : Delivers True S At) (happ : Appends Got) {n : ℕ}
    (haccepts : Accepts n Got) {s : σ} {d : ω} {p : ℕ} (hs : At s p) (hd : Got d acc)
    (hS : S.length < u64Size) (hn : acc.length + (S.length - p) ≤ n) :
    ∃ s' d', copy (s, d) = .ok () (s', d') ∧ At s' S.length ∧ Got d' (acc ++ S.drop p) :=
  h.copyTakeLoop_end happ haccepts _ _ hs hd (Nat.le_add_right _ _) (by omega) hn

end Copy

end Io
