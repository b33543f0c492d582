import Mla.Io.Take

/-!
# Filling buffers

A buffer is filled by single reads until it is full or nothing more comes. No read is repeated: the
first error ends the filling, with what has come so far in the buffer. `pour` fills one buffer after
the other, up to one that is not full; this is all of what the source has, up to its end or to its
first error.
-/

namespace Io

section Fill

variable {ε σ : Type} [Read ε σ]

/-- The reads into a buffer with room for `room` bytes, with `fuel` calls left. -/
def fillLoop : ℕ → ℕ → σ → Bytes × EStateM.Result (IoError ε) σ Unit
  | _, 0, s => ([], .ok () s)
  | 0, _ + 1, s => ([], .error (.kind .exhausted) s)
  | fuel + 1, room + 1, s =>
      match Read.read (room + 1) s with
      | .ok bs s' =>
          if bs.isEmpty then ([], .ok () s')
          else
            let rest := fillLoop fuel (room + 1 - bs.length) s'
            (bs ++ rest.1, rest.2)
      | .error e s' => ([], .error e s')

/-- Each read takes room, so that as many calls are enough. -/
def fill (room : ℕ) (s : σ) : Bytes × EStateM.Result (IoError ε) σ Unit := fillLoop room room s

/-- All that is poured into at most `fuel` buffers, if these are enough. -/
def pour (room : ℕ) : ℕ → σ → Option (Bytes × EStateM.Result (IoError ε) σ Unit)
  | 0, _ => none
  | fuel + 1, s =>
      match (fill room s).2 with
      | .error e s' => some ((fill room s).1, .error e s')
      | .ok _ s' =>
          if (fill room s).1.length < room then some ((fill room s).1, .ok () s')
          else (pour room fuel s').map fun rest => ((fill room s).1 ++ rest.1, rest.2)

/-! ## What successful reads keep -/

theorem fillLoop_keeps {P : σ → Prop}
    (h : ∀ {n s s' bs}, P s → (Read.read n : Op ε σ Bytes) s = .ok bs s' → P s') :
    ∀ (fuel room : ℕ) {s s' : σ}, P s →
      (fillLoop fuel room s : Bytes × EStateM.Result (IoError ε) σ Unit).2 = .ok () s' → P s' := by
  intro fuel
  induction fuel with
  | zero =>
      intro room s s' hs hrun
      cases room with
      | zero =>
          obtain ⟨-, rfl⟩ := EStateM.Result.ok.inj hrun
          exact hs
      | succ room => cases hrun
  | succ fuel ih =>
      intro room s s' hs hrun
      cases room with
      | zero =>
          obtain ⟨-, rfl⟩ := EStateM.Result.ok.inj hrun
          exact hs
      | succ room =>
          rw [fillLoop] at hrun
          cases hread : (Read.read (room + 1) : Op ε σ Bytes) s with
          | error e s₁ =>
              rw [hread] at hrun
              cases hrun
          | ok bs s₁ =>
              rw [hread] at hrun
              dsimp only at hrun
              split at hrun
              · obtain ⟨-, rfl⟩ := EStateM.Result.ok.inj hrun
                exact h hs hread
              · exact ih _ (h hs hread) hrun

theorem pour_keeps {P : σ → Prop}
    (h : ∀ {n s s' bs}, P s → (Read.read n : Op ε σ Bytes) s = .ok bs s' → P s') {room : ℕ} :
    ∀ (fuel : ℕ) {s s' : σ} {data : Bytes}, P s →
      (pour room fuel s : Option (Bytes × EStateM.Result (IoError ε) σ Unit)) =
        some (data, .ok () s') → P s' := by
  intro fuel
  induction fuel with
  | zero =>
      intro s s' data _ hrun
      cases hrun
  | succ fuel ih =>
      intro s s' data hs hrun
      rw [pour] at hrun
      cases hfill : (fill room s : Bytes × EStateM.Result (IoError ε) σ Unit).2 with
      | error e s₁ =>
          rw [hfill] at hrun
          cases hrun
      | ok u s₁ =>
          have hs₁ := fillLoop_keeps h room room hs hfill
          rw [hfill] at hrun
          dsimp only at hrun
          split at hrun
          · obtain ⟨-, hend⟩ := Prod.mk.inj (Option.some.inj hrun)
            obtain ⟨-, rfl⟩ := EStateM.Result.ok.inj hend
            exact hs₁
          · obtain ⟨rest, hrest, heq⟩ := Option.map_eq_some_iff.mp hrun
            obtain ⟨-, hend⟩ := Prod.mk.inj heq
            exact ih hs₁ (hrest.trans (congrArg some (Prod.ext rfl hend)))

end Fill

/-! ## Up to a limit -/

namespace Take

variable {ε σ : Type} [Read ε σ]

/-- A read takes what it returns off the limit. -/
theorem limit_read {n : ℕ} {t t' : Take σ} {bs : Bytes}
    (h : (Read.read n : Op ε (Take σ) Bytes) t = .ok bs t') : t'.limit = t.limit - bs.length := by
  change (if t.limit = 0 then _ else _ : EStateM.Result (IoError ε) (Take σ) Bytes) = _ at h
  split at h
  · obtain ⟨rfl, rfl⟩ := EStateM.Result.ok.inj h
    rfl
  · cases hread : (Read.read (min n t.limit) : Op ε σ Bytes) t.inner with
    | error e inner =>
        rw [hread] at h
        cases h
    | ok bs inner =>
        rw [hread] at h
        obtain ⟨rfl, rfl⟩ := EStateM.Result.ok.inj h
        rfl

theorem limit_fillLoop : ∀ (fuel room : ℕ) {t t' : Take σ},
    (fillLoop fuel room t : Bytes × EStateM.Result (IoError ε) (Take σ) Unit).2 = .ok () t' →
      t'.limit = t.limit -
        (fillLoop fuel room t : Bytes × EStateM.Result (IoError ε) (Take σ) Unit).1.length := by
  intro fuel
  induction fuel with
  | zero =>
      intro room t t' hrun
      cases room with
      | zero =>
          obtain ⟨-, rfl⟩ := EStateM.Result.ok.inj hrun
          rfl
      | succ room => cases hrun
  | succ fuel ih =>
      intro room t t' hrun
      cases room with
      | zero =>
          obtain ⟨-, rfl⟩ := EStateM.Result.ok.inj hrun
          rfl
      | succ room =>
          rw [fillLoop] at hrun ⊢
          cases hread : (Read.read (room + 1) : Op ε (Take σ) Bytes) t with
          | error e t₁ =>
              rw [hread] at hrun
              cases hrun
          | ok bs t₁ =>
              have hlimit := limit_read hread
              rw [hread] at hrun
              dsimp only at hrun ⊢
              split
              · rename_i hempty
                rw [if_pos hempty] at hrun
                obtain ⟨-, rfl⟩ := EStateM.Result.ok.inj hrun
                rw [List.isEmpty_iff.mp hempty] at hlimit
                exact hlimit
              · rename_i hempty
                rw [if_neg hempty] at hrun
                rw [List.length_append, ← Nat.sub_sub, ← hlimit]
                exact ih _ hrun

/-- At the limit nothing comes. -/
theorem fill_of_limit {room : ℕ} {t : Take σ} (h : t.limit = 0) :
    (fill room t : Bytes × EStateM.Result (IoError ε) (Take σ) Unit) = ([], .ok () t) := by
  cases room with
  | zero => rw [fill, fillLoop]
  | succ room =>
      have hread : (Read.read (room + 1) : Op ε (Take σ) Bytes) t = .ok [] t := by
        change (if t.limit = 0 then _ else _ : EStateM.Result (IoError ε) (Take σ) Bytes) = _
        rw [if_pos h]
      rw [fill, fillLoop, hread]
      rfl

/-- The buffers that are full use up the limit; the next one is not, and at worst the one behind. -/
theorem exists_pour {room : ℕ} (hroom : 0 < room) : ∀ (fuel : ℕ) {t : Take σ},
    t.limit = 0 ∧ 0 < fuel ∨ t.limit / room + 2 ≤ fuel →
      ∃ poured, (pour room fuel t : Option (Bytes × EStateM.Result (IoError ε) (Take σ) Unit)) =
        some poured := by
  intro fuel
  induction fuel with
  | zero =>
      intro t hfuel
      rcases hfuel with ⟨-, hpos⟩ | hle
      · exact absurd hpos (Nat.lt_irrefl 0)
      · exact absurd hle (Nat.not_succ_le_zero _)
  | succ fuel ih =>
      intro t hfuel
      rw [pour]
      cases hfill : (fill room t : Bytes × EStateM.Result (IoError ε) (Take σ) Unit).2 with
      | error e t₁ => exact ⟨_, rfl⟩
      | ok u t₁ =>
          dsimp only
          split
          · exact ⟨_, rfl⟩
          · rename_i hfull
            have hlimit : t₁.limit = t.limit -
                (fill room t : Bytes × EStateM.Result (IoError ε) (Take σ) Unit).1.length :=
              limit_fillLoop room room hfill
            have hne : t.limit ≠ 0 := by
              intro hzero
              rw [fill_of_limit hzero] at hfull
              exact hfull hroom
            have hfuel' := hfuel.resolve_left fun h => hne h.1
            have hrest : t₁.limit = 0 ∧ 0 < fuel ∨ t₁.limit / room + 2 ≤ fuel := by
              rcases Nat.lt_or_ge t.limit room with hlt | hge
              · exact .inl ⟨by omega, Nat.lt_of_lt_of_le (Nat.succ_pos _) (Nat.le_of_succ_le_succ hfuel')⟩
              · have hdiv := Nat.div_eq_sub_div hroom hge
                have hle : t₁.limit ≤ t.limit - room := by omega
                have hmono : t₁.limit / room ≤ (t.limit - room) / room := Nat.div_le_div_right hle
                exact .inr (by omega)
            obtain ⟨rest, hpour⟩ := ih hrest
            exact ⟨_, by rw [hpour, Option.map_some]⟩

end Take

/-! ## From a source that ends -/

section Ending

variable {ε σ : Type} [Read ε σ] {closed failing : Prop} {S : Bytes} {At : σ → ℕ → Prop}

/-- Behind the last byte of `S` there is nothing, or reading fails where it may. -/
def RunsOut (ε : Type) [Read ε σ] (failing : Prop) (S : Bytes) (At : σ → ℕ → Prop) : Prop :=
  ∀ {s n}, At s S.length → 0 < n →
    (∃ s', (Read.read n s : EStateM.Result (IoError ε) σ Bytes) = .ok [] s' ∧ At s' S.length) ∨
    failing ∧ ∃ e s', (Read.read n s : EStateM.Result (IoError ε) σ Bytes) = .error e s'

/-- A buffer gets as many bytes as it has room for, or all that there are. -/
theorem Delivers.fillLoop_eq (h : Delivers closed S At) (hends : RunsOut ε failing S At) :
    ∀ (fuel room : ℕ) {s : σ} {p : ℕ}, At s p → room ≤ fuel →
      (∃ s', (fillLoop fuel room s : Bytes × EStateM.Result (IoError ε) σ Unit) =
        (slice S p room, .ok () s') ∧ At s' (min (p + room) S.length)) ∨
      (failing ∧ S.length < p + room ∧ ∃ e s',
        (fillLoop fuel room s : Bytes × EStateM.Result (IoError ε) σ Unit) =
          (S.drop p, .error e s')) := by
  intro fuel
  induction fuel with
  | zero =>
      intro room s p hs hfuel
      obtain rfl : room = 0 := Nat.le_zero.mp hfuel
      refine .inl ⟨s, by rw [fillLoop, slice_zero_length], ?_⟩
      rwa [Nat.add_zero, Nat.min_eq_left (h.le hs)]
  | succ fuel ih =>
      intro room s p hs hfuel
      cases room with
      | zero =>
          refine .inl ⟨s, by rw [fillLoop, slice_zero_length], ?_⟩
          rwa [Nat.add_zero, Nat.min_eq_left (h.le hs)]
      | succ room =>
          have hle := h.le hs
          rcases Nat.lt_or_eq_of_le hle with hlt | rfl
          · obtain ⟨k, s₁, hread, hk, hkn, hpk, hs₁⟩ := h.progress hs hlt (Nat.succ_pos room)
            have hlen : (slice S p k).length = k := length_slice_of_le hpk
            have hsum : k + (room + 1 - k) = room + 1 := by omega
            rw [fillLoop, hread]
            dsimp only
            rw [if_neg (by rw [List.isEmpty_iff_length_eq_zero, hlen]; omega), hlen]
            rcases ih (room + 1 - k) hs₁ (by omega) with
              ⟨s', hrest, hs'⟩ | ⟨hfails, hcut, e, s', hrest⟩
            · refine .inl ⟨s', ?_, ?_⟩
              · rw [hrest, ← slice_add, hsum]
              · rwa [Nat.add_assoc, hsum] at hs'
            · refine .inr ⟨hfails, by omega, e, s', ?_⟩
              rw [hrest, ← drop_eq_slice_append]
          · rw [fillLoop]
            rcases hends hs (Nat.succ_pos room) with ⟨s', hread, hs'⟩ | ⟨hfails, e, s', hread⟩
            · rw [hread]
              refine .inl ⟨s', ?_, ?_⟩
              · rw [slice_eq_nil_of_le (Nat.le_refl _)]
                rfl
              · rwa [Nat.min_eq_right (Nat.le_add_right _ _)]
            · rw [hread]
              exact .inr ⟨hfails, by omega, e, s', by rw [List.drop_length]⟩

/-- Where the buffers are enough, all that there is comes. -/
theorem Delivers.pour_eq (h : Delivers closed S At) (hends : RunsOut ε failing S At) {room : ℕ} :
    ∀ (fuel : ℕ) {s : σ} {p : ℕ} {poured : Bytes × EStateM.Result (IoError ε) σ Unit}, At s p →
      pour room fuel s = some poured →
      (∃ s', poured = (S.drop p, .ok () s') ∧ At s' S.length) ∨
        failing ∧ ∃ e s', poured = (S.drop p, .error e s') := by
  intro fuel
  induction fuel with
  | zero =>
      intro s p poured _ hrun
      cases hrun
  | succ fuel ih =>
      intro s p poured hs hrun
      have hle := h.le hs
      rw [pour] at hrun
      rcases h.fillLoop_eq hends room room hs (Nat.le_refl room) with
        ⟨s₁, hfill, hs₁⟩ | ⟨hfails, -, e, s₁, hfill⟩
      · rw [fill, hfill] at hrun
        dsimp only at hrun
        rw [length_slice] at hrun
        split at hrun
        · have hend : S.length ≤ p + room := by omega
          obtain rfl := Option.some.inj hrun
          refine .inl ⟨s₁, ?_, ?_⟩
          · rw [slice_eq_drop hend]
          · rwa [Nat.min_eq_right hend] at hs₁
        · rename_i hfull
          have hmore : p + room ≤ S.length := by omega
          rw [Nat.min_eq_left hmore] at hs₁
          obtain ⟨rest, hrest, rfl⟩ := Option.map_eq_some_iff.mp hrun
          rcases ih hs₁ hrest with ⟨s', rfl, hs'⟩ | ⟨hfails, e, s', rfl⟩
          · exact .inl ⟨s', by rw [← drop_eq_slice_append], hs'⟩
          · exact .inr ⟨hfails, e, s', by rw [← drop_eq_slice_append]⟩
      · rw [fill, hfill] at hrun
        obtain rfl := Option.some.inj hrun
        exact .inr ⟨hfails, e, s₁, rfl⟩

end Ending

/-! ## A source that is cut before the limit -/

namespace Take

variable {ε σ : Type} [Read ε σ] {closed : Prop} {S : Bytes} {At : σ → ℕ → Prop} {base len : ℕ}

/-- What there is up to the limit is delivered. -/
theorem delivers_cut (h : Delivers closed S At) :
    Delivers (ε := ε) False (slice S base len) (Within At base len) where
  le {s p} hs := by
    have hlimit := hs.2
    have hle := h.le hs.1
    rw [length_slice]
    omega
  progress {s p n} hs hp hn := by
    have hlimit := hs.2
    rw [length_slice] at hp
    obtain ⟨k, inner, hread, hk, hkn, hpk, hinner⟩ := h.progress hs.1
      (show base + p < S.length by omega) (show 0 < min n s.limit by omega)
    have hcut : slice (slice S base len) p k = slice S (base + p) k := slice_slice_of_le (by omega)
    have hbytes : (slice S (base + p) k).length = k := length_slice_of_le hpk
    refine ⟨k, ⟨inner, s.limit - k⟩, ?_, hk, by omega, ?_, ?_, ?_⟩
    · change (if s.limit = 0 then _ else _) = _
      rw [if_neg (by omega), hread, hcut]
      dsimp only
      rw [hbytes]
    · rw [length_slice]
      omega
    · rwa [← Nat.add_assoc]
    · change s.limit - k + (p + k) = len
      omega
  stop hclosed := hclosed.elim

/-- It ends at the limit or where the source does. -/
theorem runsOut_cut (hends : Ends (ε := ε) S At) (hle : ∀ {s p}, At s p → p ≤ S.length) :
    RunsOut ε (S.length < base + len) (slice S base len) (Within At base len) := by
  intro s n hs hn
  have hlimit := hs.2
  have hinner := hle hs.1
  rw [length_slice] at hlimit
  by_cases hzero : s.limit = 0
  · refine .inl ⟨s, ?_, hs⟩
    change (if s.limit = 0 then _ else _) = _
    rw [if_pos hzero]
  · have hat := hs.1
    rw [length_slice] at hinner hat
    have hlast : base + min len (S.length - base) = S.length := by omega
    rw [hlast] at hat
    rcases hends hat (show 0 < min n s.limit by omega) with
      ⟨inner, hread, hinner'⟩ | ⟨e, inner, hread, -⟩
    · refine .inl ⟨⟨inner, s.limit⟩, ?_, ?_, ?_⟩
      · change (if s.limit = 0 then _ else _) = _
        rw [if_neg hzero, hread]
        rfl
      · rwa [length_slice, hlast]
      · rw [length_slice]
        exact hlimit
    · refine .inr ⟨by omega, e, ⟨inner, s.limit⟩, ?_⟩
      change (if s.limit = 0 then _ else _) = _
      rw [if_neg hzero, hread]

end Take

end Io
