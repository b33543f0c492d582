import Mla.Io.Cursor

/-!
# Rules for the read loops

What `readExact` and `takeReadToEnd` return from a reader that delivers a byte
string, and what whole sequences of calls do: `FollowsCursor D p s calls` says
that the reader in state `s` answers `calls` as a cursor over `D` at position `p`
does, and `drain` reads with buffers of given sizes until nothing more comes.
-/

namespace Io

variable {ε σ : Type}

/-! ## Loops over a reader that delivers `D` -/

section Loops

variable [Patience] [Read ε σ] {closed : Prop} {D : Bytes} {At : σ → ℕ → Prop}

omit [Patience] in
theorem Delivers.readExactLoop_eq (h : Delivers closed D At) :
    ∀ (fuel n : ℕ) {s : σ} {p : ℕ}, At s p → n ≤ fuel → p + n ≤ D.length →
      ∃ s', readExactLoop fuel n s = .ok (slice D p n) s' ∧ At s' (p + n) := by
  intro fuel
  induction fuel with
  | zero =>
      intro n s p hs hn hp
      obtain rfl : n = 0 := by omega
      exact ⟨s, by simp [readExactLoop_zero], hs⟩
  | succ fuel ih =>
      intro n s p hs hn hp
      cases n with
      | zero => exact ⟨s, by simp [readExactLoop_zero], hs⟩
      | succ n =>
          obtain ⟨k, s', hread, hk, hkn, hpk, hs'⟩ :=
            h.progress hs (show p < D.length by omega) (show 0 < n + 1 by omega)
          obtain ⟨s'', hrest, hs''⟩ :=
            ih (n + 1 - k) hs' (by omega) (show p + k + (n + 1 - k) ≤ D.length by omega)
          have hlen : (slice D p k).length = k := length_slice_of_le hpk
          have hcut : slice D p (n + 1) = slice D p k ++ slice D (p + k) (n + 1 - k) := by
            rw [← slice_add]
            congr 1
            omega
          refine ⟨s'', ?_, ?_⟩
          · simp only [readExactLoop_succ, hread, isEmpty_slice hk hpk, hlen, hrest, hcut]
            rfl
          · have hpos : p + k + (n + 1 - k) = p + (n + 1) := by omega
            rwa [hpos] at hs''

/-- `read_exact` inside `D` returns the next `n` bytes. -/
theorem Delivers.readExact_eq (h : Delivers closed D At) {s : σ} {p n : ℕ} (hs : At s p)
    (hp : p + n ≤ D.length) :
    ∃ s', readExact n s = .ok (slice D p n) s' ∧ At s' (p + n) :=
  h.readExactLoop_eq _ n hs (Nat.le_add_right _ _) hp

omit [Patience] in
theorem Delivers.takeReadToEndLoop_eq (h : Delivers closed D At) :
    ∀ (fuel limit : ℕ) {s : σ} {p : ℕ}, At s p → limit ≤ fuel →
      closed ∨ p + limit ≤ D.length →
      ∃ s', takeReadToEndLoop fuel limit s = (slice D p limit, .ok () s') ∧
        At s' (min (p + limit) D.length) := by
  intro fuel
  induction fuel with
  | zero =>
      intro limit s p hs hfuel _
      obtain rfl : limit = 0 := by omega
      have hp := h.le hs
      refine ⟨s, by simp [takeReadToEndLoop_zero], ?_⟩
      rwa [Nat.add_zero, min_eq_left hp]
  | succ fuel ih =>
      intro limit s p hs hfuel hend
      have hp := h.le hs
      cases limit with
      | zero =>
          refine ⟨s, by simp [takeReadToEndLoop_zero], ?_⟩
          rwa [Nat.add_zero, min_eq_left hp]
      | succ limit =>
          by_cases hpD : p = D.length
          · -- Only a reader that is closed is asked for bytes at the end.
            have hclosed : closed := by
              rcases hend with hc | hle
              · exact hc
              · omega
            obtain ⟨s', hread, hs'⟩ := h.stop (n := limit + 1) hclosed hs (Or.inr hpD)
            refine ⟨s', ?_, ?_⟩
            · simp [takeReadToEndLoop_succ, hread, slice_eq_nil_of_le (Nat.le_of_eq hpD.symm)]
            · rw [min_eq_right (by omega), ← hpD]
              exact hs'
          · obtain ⟨k, s', hread, hk, hkn, hpk, hs'⟩ :=
              h.progress hs (show p < D.length by omega) (show 0 < limit + 1 by omega)
            obtain ⟨s'', hrest, hs''⟩ :=
              ih (limit + 1 - k) hs' (by omega) (by
                rcases hend with hc | hle
                · exact Or.inl hc
                · exact Or.inr (by omega))
            have hlen : (slice D p k).length = k := length_slice_of_le hpk
            have hcut : slice D p (limit + 1) =
                slice D p k ++ slice D (p + k) (limit + 1 - k) := by
              rw [← slice_add]
              congr 1
              omega
            refine ⟨s'', ?_, ?_⟩
            · simp only [takeReadToEndLoop_succ, hread, isEmpty_slice hk hpk, hlen, hrest, hcut]
              rfl
            · have hpos : p + k + (limit + 1 - k) = p + (limit + 1) := by omega
              rwa [hpos] at hs''

/-- `take(limit).read_to_end` returns what is left of `D`, up to the limit. -/
theorem Delivers.takeReadToEnd_eq (h : Delivers closed D At) (limit : ℕ) {s : σ} {p : ℕ}
    (hs : At s p) (hend : closed ∨ p + limit ≤ D.length) :
    ∃ s', takeReadToEnd limit s = (slice D p limit, .ok () s') ∧
      At s' (min (p + limit) D.length) :=
  h.takeReadToEndLoop_eq _ limit hs (Nat.le_add_right _ _) hend

omit [Patience] in
theorem Delivers.readExactLoop_error (h : Delivers closed D At) (hends : Ends D At) :
    ∀ (fuel n : ℕ) {s : σ} {p : ℕ}, At s p → D.length < p + n →
      ∃ e s', readExactLoop fuel n s = .error e s' := by
  intro fuel
  induction fuel with
  | zero =>
      intro n s p hs hn
      have hp := h.le hs
      obtain ⟨n, rfl⟩ : ∃ m, n = m + 1 := ⟨n - 1, by omega⟩
      exact ⟨_, s, rfl⟩
  | succ fuel ih =>
      intro n s p hs hn
      have hp := h.le hs
      obtain ⟨n, rfl⟩ : ∃ m, n = m + 1 := ⟨n - 1, by omega⟩
      rcases Nat.lt_or_eq_of_le hp with hlt | rfl
      · obtain ⟨k, s', hread, hk, hkn, hpk, hs'⟩ := h.progress hs hlt (Nat.succ_pos n)
        have hlen : (slice D p k).length = k := length_slice_of_le hpk
        obtain ⟨e, s'', hrest⟩ := ih (n + 1 - k) hs' (by omega)
        exact ⟨e, s'', by simp [readExactLoop_succ, hread, isEmpty_slice hk hpk, hlen, hrest]⟩
      · rcases hends hs (Nat.succ_pos n) with ⟨s', hread, -⟩ | ⟨e, s', hread, hint⟩
        · exact ⟨_, s', by simp [readExactLoop_succ, hread]; rfl⟩
        · exact ⟨e, s', by simp [readExactLoop_succ, hread, hint]⟩

/-- `read_exact` past the end of `D` fails. -/
theorem Delivers.readExact_error (h : Delivers closed D At) (hends : Ends D At) {s : σ}
    {p n : ℕ} (hs : At s p) (hn : D.length < p + n) :
    ∃ e s', readExact n s = .error e s' :=
  h.readExactLoop_error hends _ n hs hn

omit [Patience] in
theorem Delivers.takeReadToEndLoop_ends (h : Delivers closed D At) (hends : Ends D At) :
    ∀ (fuel limit : ℕ) {s : σ} {p : ℕ}, At s p → limit ≤ fuel → D.length < p + limit →
      (∃ s', takeReadToEndLoop fuel limit s = (D.drop p, .ok () s') ∧ At s' D.length) ∨
      ∃ bytes e s', takeReadToEndLoop fuel limit s = (bytes, .error e s') := by
  intro fuel
  induction fuel with
  | zero =>
      intro limit s p hs hfuel hlimit
      have hp := h.le hs
      omega
  | succ fuel ih =>
      intro limit s p hs hfuel hlimit
      have hp := h.le hs
      obtain ⟨limit, rfl⟩ : ∃ m, limit = m + 1 := ⟨limit - 1, by omega⟩
      rcases Nat.lt_or_eq_of_le hp with hlt | rfl
      · obtain ⟨k, s', hread, hk, hkn, hpk, hs'⟩ := h.progress hs hlt (Nat.succ_pos limit)
        have hlen : (slice D p k).length = k := length_slice_of_le hpk
        rcases ih (limit + 1 - k) hs' (by omega) (by omega) with
          ⟨s'', hrest, hs''⟩ | ⟨bytes, e, s'', hrest⟩
        · left
          refine ⟨s'', ?_, hs''⟩
          simp only [takeReadToEndLoop_succ, hread, isEmpty_slice hk hpk, hlen, hrest]
          rw [drop_eq_slice_append D p k]
          rfl
        · right
          refine ⟨slice D p k ++ bytes, e, s'', ?_⟩
          simp only [takeReadToEndLoop_succ, hread, isEmpty_slice hk hpk, hlen, hrest]
          rfl
      · rcases hends hs (Nat.succ_pos limit) with ⟨s', hread, hs'⟩ | ⟨e, s', hread, hint⟩
        · left
          exact ⟨s', by simp [takeReadToEndLoop_succ, hread], hs'⟩
        · right
          exact ⟨[], e, s', by simp [takeReadToEndLoop_succ, hread, hint]⟩

/-- `take(limit).read_to_end` past the end of `D` returns what is left, or fails. -/
theorem Delivers.takeReadToEnd_ends (h : Delivers closed D At) (hends : Ends D At) {s : σ}
    {p limit : ℕ} (hs : At s p) (hlimit : D.length < p + limit) :
    (∃ s', takeReadToEnd limit s = (D.drop p, .ok () s') ∧ At s' D.length) ∨
    ∃ bytes e s', takeReadToEnd limit s = (bytes, .error e s') :=
  h.takeReadToEndLoop_ends hends _ limit hs (Nat.le_add_right _ _) hlimit

end Loops

section Serves

variable [Patience] [Read ε σ] [Seek ε σ] {S : Bytes} {At : σ → ℕ → Prop}

omit [Patience] in
theorem Serves.takeReadToEndLoop_eq (h : Serves S At) :
    ∀ (fuel limit : ℕ) {s : σ} {p : ℕ}, At s p → limit ≤ fuel →
      ∃ s', takeReadToEndLoop fuel limit s = (slice S p limit, .ok () s') ∧
        At s' (p + (slice S p limit).length) := by
  intro fuel
  induction fuel with
  | zero =>
      intro limit s p hs hfuel
      obtain rfl : limit = 0 := by omega
      exact ⟨s, by simp [takeReadToEndLoop_zero], by simpa using hs⟩
  | succ fuel ih =>
      intro limit s p hs hfuel
      cases limit with
      | zero => exact ⟨s, by simp [takeReadToEndLoop_zero], by simpa using hs⟩
      | succ limit =>
          obtain ⟨k, s', hread, hkn, hpk, hk0, hs'⟩ := h.read (n := limit + 1) hs
          rcases Nat.eq_zero_or_pos k with rfl | hk
          · have hend : S.length ≤ p := by
              rcases hk0 rfl with h0 | hle
              · omega
              · exact hle
            have hnil : slice S p (limit + 1) = [] := slice_eq_nil_of_le hend _
            refine ⟨s', ?_, ?_⟩
            · simp [takeReadToEndLoop_succ, hread, hnil]
            · simpa [hnil] using hs'
          · have hpk := hpk hk
            have hlen : (slice S p k).length = k := length_slice_of_le hpk
            have hcut : slice S p (limit + 1) =
                slice S p k ++ slice S (p + k) (limit + 1 - k) := by
              rw [← slice_add]
              congr 1
              omega
            obtain ⟨s'', hrest, hs''⟩ := ih (limit + 1 - k) hs' (by omega)
            refine ⟨s'', ?_, ?_⟩
            · simp only [takeReadToEndLoop_succ, hread, isEmpty_slice hk hpk, hlen, hrest, hcut]
              rfl
            · rw [hcut, List.length_append, hlen, ← Nat.add_assoc]
              exact hs''

omit [Patience] in
theorem Serves.readExactLoop_eq (h : Serves S At) :
    ∀ (fuel n : ℕ) {s : σ} {p : ℕ}, At s p → n ≤ fuel →
      ∃ s', readExactLoop fuel n s =
          (if (slice S p n).length = n then .ok (slice S p n) s'
          else .error (.kind .unexpectedEof) s') ∧ At s' (p + (slice S p n).length) := by
  intro fuel
  induction fuel with
  | zero =>
      intro n s p hs hfuel
      obtain rfl : n = 0 := by omega
      exact ⟨s, by simp [readExactLoop_zero], by simpa using hs⟩
  | succ fuel ih =>
      intro n s p hs hfuel
      cases n with
      | zero => exact ⟨s, by simp [readExactLoop_zero], by simpa using hs⟩
      | succ n =>
          obtain ⟨k, s', hread, hkn, hpk, hk0, hs'⟩ := h.read (n := n + 1) hs
          rcases Nat.eq_zero_or_pos k with rfl | hk
          · have hend : S.length ≤ p := (hk0 rfl).resolve_left (Nat.succ_ne_zero n)
            have hnil : slice S p (n + 1) = [] := slice_eq_nil_of_le hend _
            refine ⟨s', ?_, by simpa [hnil] using hs'⟩
            simp [readExactLoop_succ, hread, hnil]
          · have hpk := hpk hk
            have hlen : (slice S p k).length = k := length_slice_of_le hpk
            have hcut : slice S p (n + 1) = slice S p k ++ slice S (p + k) (n + 1 - k) := by
              rw [← slice_add]
              congr 1
              omega
            obtain ⟨s'', hrest, hs''⟩ := ih (n + 1 - k) hs' (by omega)
            have hiff : (slice S p (n + 1)).length = n + 1 ↔
                (slice S (p + k) (n + 1 - k)).length = n + 1 - k := by
              rw [hcut, List.length_append, hlen]
              omega
            refine ⟨s'', ?_, ?_⟩
            · rw [readExactLoop_succ]
              simp only [hread, isEmpty_slice hk hpk, hlen, hrest]
              by_cases hall : (slice S p (n + 1)).length = n + 1
              · rw [if_pos (hiff.mp hall), if_pos hall, hcut]
                rfl
              · rw [if_neg fun hrest => hall (hiff.mpr hrest), if_neg hall]
                rfl
            · rw [hcut, List.length_append, hlen, ← Nat.add_assoc]
              exact hs''

/-- `read_exact` returns the next `n` bytes of `S`, or fails at its end. -/
theorem Serves.readExact_eq (h : Serves S At) {s : σ} {p : ℕ} (hs : At s p) (n : ℕ) :
    ∃ s', readExact n s =
        (if (slice S p n).length = n then .ok (slice S p n) s'
        else .error (.kind .unexpectedEof) s') ∧ At s' (p + (slice S p n).length) :=
  h.readExactLoop_eq _ n hs (Nat.le_add_right _ _)

/-- `take(limit).read_to_end` returns what is left of `S`, up to the limit. -/
theorem Serves.takeReadToEnd_eq (h : Serves S At) {s : σ} {p : ℕ} (hs : At s p) (limit : ℕ) :
    ∃ s', takeReadToEnd limit s = (slice S p limit, .ok () s') ∧
      At s' (p + (slice S p limit).length) :=
  h.takeReadToEndLoop_eq _ limit hs (Nat.le_add_right _ _)

end Serves

/-! ## Sequences of calls -/

inductive ReaderCall
  | read (n : ℕ)
  | seek (w : SeekFrom)

/-- The position that a seek on a cursor over `D` at position `p` asks for. -/
def SeekFrom.target (D : Bytes) (p : ℕ) : SeekFrom → ℤ
  | .start t => t
  | .current d => p + d
  | .fromEnd d => D.length + d

/-- The reader answers `calls` as a cursor over `D` at position `p` does, as long as
the targets of the seeks lie in `D`. -/
def FollowsCursor [Read ε σ] [Seek ε σ] (D : Bytes) : ℕ → σ → List ReaderCall → Prop
  | _, _, [] => True
  | p, s, .read n :: calls =>
      ∃ k s', Read.read n s = .ok (slice D p k) s' ∧ k ≤ n ∧ p + k ≤ D.length ∧
        (k = 0 → n = 0 ∨ p = D.length) ∧ FollowsCursor D (p + k) s' calls
  | p, s, .seek w :: calls =>
      ∀ t : ℕ, w.target D p = t → t ≤ D.length →
        ∃ s', Seek.seek w s = .ok t s' ∧ FollowsCursor D t s' calls

section Calls

variable [Read ε σ] [Seek ε σ] {D : Bytes} {At : σ → ℕ → Prop} {Live : σ → Prop}

/-- A read returns what comes next. -/
theorem IsCursor.read_at (h : IsCursor True D At Live) {s : σ} {p : ℕ} (hs : At s p) (n : ℕ) :
    ∃ k s', Read.read n s = .ok (slice D p k) s' ∧ k ≤ n ∧ p + k ≤ D.length ∧
      (k = 0 → n = 0 ∨ p = D.length) ∧ At s' (p + k) := by
  have hp := h.le hs
  by_cases hstop : n = 0 ∨ p = D.length
  · obtain ⟨s', hread, hs'⟩ := h.stop trivial hs hstop
    exact ⟨0, s', by simpa using hread, by omega, by omega, fun _ => hstop, hs'⟩
  · obtain ⟨k, s', hread, hk, hkn, hpk, hs'⟩ :=
      h.progress hs (show p < D.length by omega) (show 0 < n by omega)
    exact ⟨k, s', hread, hkn, hpk, by omega, hs'⟩

/-- A seek within `D` goes where it is asked to. -/
theorem IsCursor.seek_at (h : IsCursor True D At Live) {s : σ} {p t : ℕ} (hs : At s p)
    {w : SeekFrom} (ht : w.target D p = t) (htD : t ≤ D.length) :
    ∃ s', Seek.seek w s = .ok t s' ∧ At s' t := by
  have htarget : Target True D t := by
    rcases Nat.lt_or_eq_of_le htD with hlt | heq
    · exact Or.inl hlt
    · exact Or.inr ⟨trivial, heq⟩
  cases w with
  | start u =>
      obtain rfl : u = t := by simpa [SeekFrom.target] using ht
      exact h.seekStart (h.live hs) htarget
  | current d =>
      have hd : (t : ℤ) - p = d := by simp only [SeekFrom.target] at ht; omega
      rw [← hd]
      exact h.seekCurrent hs htarget
  | fromEnd d =>
      have hd : (t : ℤ) - D.length = d := by simp only [SeekFrom.target] at ht; omega
      rw [← hd]
      exact h.seekEnd (h.live hs) htarget

/-- A reader that stands for `D` up to its end follows the cursor over `D` in every
sequence of calls. -/
theorem IsCursor.followsCursor (h : IsCursor True D At Live) :
    ∀ (calls : List ReaderCall) {s : σ} {p : ℕ}, At s p → FollowsCursor D p s calls := by
  intro calls
  induction calls with
  | nil => intro s p _; trivial
  | cons call calls ih =>
      intro s p hs
      cases call with
      | read n =>
          obtain ⟨k, s', hread, hk, hpk, hend, hs'⟩ := h.read_at hs n
          exact ⟨k, s', hread, hk, hpk, hend, ih hs'⟩
      | seek w =>
          intro t ht htD
          obtain ⟨s', hseek, hs'⟩ := h.seek_at hs ht htD
          exact ⟨s', hseek, ih hs'⟩

end Calls

/-- How a sequence of reads stopped. -/
inductive Stop
  | endOfStream
  | failed
  deriving DecidableEq, Repr

/-- Read with buffers of the given sizes until a read returns nothing or fails; `none`
when that takes more than `fuel` reads. -/
def drain [Read ε σ] (sizes : ℕ → ℕ) : ℕ → σ → Option (Bytes × Stop × σ)
  | 0, _ => none
  | fuel + 1, s =>
      match Read.read (sizes 0) s with
      | .ok bs s' =>
          if bs.isEmpty then some ([], .endOfStream, s')
          else (drain (fun i => sizes (i + 1)) fuel s').map fun r => (bs ++ r.1, r.2)
      | .error _ s' => some ([], .failed, s')

section Drain

variable [Read ε σ] {sizes : ℕ → ℕ} {fuel : ℕ} {s s' : σ} {bytes : Bytes}

theorem drain_succ :
    drain sizes (fuel + 1) s =
      match Read.read (sizes 0) s with
      | .ok bs s' =>
          if bs.isEmpty then some ([], .endOfStream, s')
          else (drain (fun i => sizes (i + 1)) fuel s').map fun r => (bs ++ r.1, r.2)
      | .error _ s' => some ([], .failed, s') := (rfl)

theorem drain_of_read (h : Read.read (sizes 0) s = .ok bytes s') (hne : bytes.isEmpty = false) :
    drain sizes (fuel + 1) s =
      (drain (fun i => sizes (i + 1)) fuel s').map fun r => (bytes ++ r.1, r.2) := by
  rw [drain_succ, h]
  simp [hne]

theorem drain_of_end (h : Read.read (sizes 0) s = .ok [] s') :
    drain sizes (fuel + 1) s = some ([], .endOfStream, s') := by
  rw [drain_succ, h]
  simp

/-- The drain of a reader depends on what its first read does. -/
theorem drain_congr (h : Read.read (sizes 0) s = Read.read (sizes 0) s') :
    drain sizes fuel s = drain sizes fuel s' := by
  cases fuel with
  | zero => rfl
  | succ fuel => rw [drain_succ, drain_succ, h]

theorem drain_of_error {e : IoError ε} (h : Read.read (sizes 0) s = .error e s') :
    drain sizes (fuel + 1) s = some ([], .failed, s') := by
  rw [drain_succ, h]

/-- More fuel than needed changes nothing. -/
theorem drain_add {r : Bytes × Stop × σ} :
    ∀ {fuel : ℕ} {sizes : ℕ → ℕ} {s : σ}, drain sizes fuel s = some r → ∀ k : ℕ,
      drain sizes (fuel + k) s = some r := by
  intro fuel
  induction fuel generalizing r with
  | zero => intro sizes s h; cases h
  | succ fuel ih =>
      intro sizes s h k
      rw [show fuel + 1 + k = fuel + k + 1 by omega]
      rw [drain_succ] at h ⊢
      cases hread : Read.read (sizes 0) s with
      | error e s' =>
          rw [hread] at h
          exact h
      | ok bytes s' =>
          rw [hread] at h
          dsimp only at h ⊢
          cases hempty : bytes.isEmpty with
          | true => simpa [hempty] using h
          | false =>
              simp only [hempty, Bool.false_eq_true, if_false, Option.map_eq_some_iff] at h ⊢
              obtain ⟨r', hr', rfl⟩ := h
              exact ⟨r', ih hr' k, rfl⟩

/-- What a drain returns does not depend on its fuel. -/
theorem drain_unique {r r' : Bytes × Stop × σ} {fuel' : ℕ} (h : drain sizes fuel s = some r)
    (h' : drain sizes fuel' s = some r') : r = r' := by
  have hsum := drain_add h fuel'
  rw [Nat.add_comm, drain_add h' fuel] at hsum
  exact (Option.some.inj hsum).symm

end Drain

end Io
