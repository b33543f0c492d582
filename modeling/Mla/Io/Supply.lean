import Mla.Io.Yields

/-!
# What a source supplies

`supply limit` are the bytes that a copy of at most `limit` bytes gets out of a reader, and how the
reading ends. Nothing is asked of the reader: it may end early, or fail with part of the bytes
read. Where the writer takes what it is given, this is all that a copy depends on.
-/

namespace Io

variable {ε σ ω : Type} [Read ε σ]

/-- The reads of a copy, with `fuel` calls left. -/
def supplyLoop : ℕ → ℕ → σ → Bytes × EStateM.Result (IoError ε) σ Unit
  | _, 0, s => ([], .ok () s)
  | 0, _ + 1, s => ([], .error (.kind .exhausted) s)
  | fuel + 1, limit + 1, s =>
      match Read.read (min copyBufSize (limit + 1)) s with
      | .ok bs s' =>
          if bs.isEmpty then ([], .ok () s')
          else
            let rest := supplyLoop fuel (limit + 1 - bs.length) s'
            (bs ++ rest.1, rest.2)
      | .error e s' =>
          if e.isInterrupted then supplyLoop fuel (limit + 1) s' else ([], .error e s')

def supply [Patience] (limit : ℕ) (s : σ) : Bytes × EStateM.Result (IoError ε) σ Unit :=
  supplyLoop (limit + Patience.retries) limit s

/-- A copy ends as the reading of its source does. -/
inductive EndsCopy (Got : ω → Bytes → Prop) (acc : Bytes) :
    EStateM.Result (IoError ε) σ Unit → EStateM.Result (IoError ε) (σ × ω) Unit → Prop
  | ok {s : σ} {d : ω} (h : Got d acc) : EndsCopy Got acc (.ok () s) (.ok () (s, d))
  | error {e : IoError ε} {s : σ} {d : ω} (h : Got d acc) :
      EndsCopy Got acc (.error e s) (.error e (s, d))

variable [Patience] [Write ε ω] {Got : ω → Bytes → Prop} {n : ℕ}

theorem Appends.copyTakeLoop_supply (happ : Appends Got) (haccepts : Accepts n Got) :
    ∀ (fuel limit : ℕ) {s : σ} {d : ω} {acc : Bytes}, Got d acc →
      acc.length + (supplyLoop fuel limit s).1.length ≤ n →
      EndsCopy Got (acc ++ (supplyLoop fuel limit s).1) (supplyLoop fuel limit s).2
        (copyTakeLoop fuel limit (s, d)) := by
  intro fuel
  induction fuel with
  | zero =>
      intro limit s d acc hd _
      cases limit with
      | zero => exact .ok (by rwa [supplyLoop, List.append_nil])
      | succ limit => exact .error (by rwa [supplyLoop, List.append_nil])
  | succ fuel ih =>
      intro limit s d acc hd hn
      cases limit with
      | zero => exact .ok (by rwa [supplyLoop, List.append_nil])
      | succ limit =>
          rw [supplyLoop] at hn ⊢
          rw [copyTakeLoop]
          cases hread : Read.read (min copyBufSize (limit + 1)) s with
          | error e s₁ =>
              simp only [hread] at hn ⊢
              split
              · rename_i hint
                rw [if_pos hint] at hn
                exact ih (limit + 1) hd hn
              · exact .error (by rwa [List.append_nil])
          | ok bs s₁ =>
              simp only [hread] at hn ⊢
              split
              · exact .ok (by rwa [List.append_nil])
              · rename_i hempty
                rw [if_neg hempty, List.length_append] at hn
                obtain ⟨d₁, hwrite, hd₁⟩ := happ.writeAll_eq haccepts hd
                  (show acc.length + bs.length ≤ n by omega)
                simp only [hwrite]
                rw [← List.append_assoc]
                exact ih _ hd₁ (by rw [List.length_append]; omega)

/-- A writer that has room for it is given what the source supplies. -/
theorem Appends.copyTake_supply (happ : Appends Got) (haccepts : Accepts n Got) {limit : ℕ} {s : σ}
    {d : ω} {acc : Bytes} (hd : Got d acc) (hn : acc.length + (supply limit s).1.length ≤ n) :
    EndsCopy Got (acc ++ (supply limit s).1) (supply limit s).2 (copyTake limit (s, d)) :=
  happ.copyTakeLoop_supply haccepts _ _ hd hn

section Delivers

variable {closed : Prop} {S : Bytes} {At : σ → ℕ → Prop}

omit [Patience] in
theorem Delivers.supplyLoop_eq (h : Delivers closed S At) :
    ∀ (fuel limit : ℕ) {s : σ} {p : ℕ}, At s p → limit ≤ fuel → p + limit ≤ S.length →
      ∃ s', supplyLoop fuel limit s = (slice S p limit, .ok () s') ∧ At s' (p + limit) := by
  intro fuel
  induction fuel with
  | zero =>
      intro limit s p hs hfuel _
      obtain rfl : limit = 0 := by omega
      exact ⟨s, by rw [supplyLoop, slice_zero_length], hs⟩
  | succ fuel ih =>
      intro limit s p hs hfuel hlimit
      cases limit with
      | zero => exact ⟨s, by rw [supplyLoop, slice_zero_length], hs⟩
      | succ limit =>
          have hasked : 0 < min copyBufSize (limit + 1) := by
            rw [copyBufSize]
            omega
          obtain ⟨k, s₁, hread, hk, hkn, hpk, hs₁⟩ := h.progress hs (by omega) hasked
          have hlen : (slice S p k).length = k := length_slice_of_le hpk
          obtain ⟨s', hrest, hs'⟩ := ih (limit + 1 - k) hs₁ (by omega) (by omega)
          have hsum : k + (limit + 1 - k) = limit + 1 := by omega
          have hcut := slice_add S p k (limit + 1 - k)
          rw [hsum] at hcut
          refine ⟨s', ?_, ?_⟩
          · rw [supplyLoop]
            simp only [hread, isEmpty_slice hk hpk, Bool.false_eq_true, if_false, hlen, hrest, hcut]
          · rwa [Nat.add_assoc, hsum] at hs'

/-- A source that has as many bytes as are asked for supplies them. -/
theorem Delivers.supply_eq (h : Delivers closed S At) {limit : ℕ} {s : σ} {p : ℕ} (hs : At s p)
    (hlimit : p + limit ≤ S.length) :
    ∃ s', supply limit s = (slice S p limit, .ok () s') ∧ At s' (p + limit) :=
  h.supplyLoop_eq _ _ hs (Nat.le_add_right _ _) hlimit

end Delivers

/-- A buffer supplies all that is in it. -/
theorem Cursor.supply_eq (buf : Bytes) :
    ∃ c, supply buf.length (⟨buf, 0⟩ : Cursor ε) = (buf, .ok () c) := by
  obtain ⟨c, hsupply, -⟩ := (Cursor.delivers (ε := ε) buf).supply_eq (s := ⟨buf, 0⟩) (p := 0)
    ⟨⟨rfl, rfl⟩, Nat.zero_le _⟩ (Nat.le_of_eq (Nat.zero_add _))
  exact ⟨c, by rw [hsupply, slice_zero_of_le (Nat.le_refl _)]⟩

end Io
