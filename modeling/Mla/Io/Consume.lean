import Mla.Io.Rules

/-!
# Parsers of an in-memory reader

`Consumes x P` says when a parser succeeds, and with what: exactly where what is left of the
bytes starts with bytes `bs` for which `P bs a` holds, and then it has taken these. So the
bytes that a sequence of parsers accepts are the concatenations of what its parts accept.
`Finishes x Q` is about a parser that is the last one, and may look at all that is left.
-/

namespace Io

variable {ε ε' α β : Type}

/-- The parser takes the bytes of `P` from what is left, and fails where there are none. -/
structure Consumes (x : EStateM ε (Cursor ε') α) (P : Bytes → α → Prop) : Prop where
  ok_iff : ∀ {D : Bytes} {p : ℕ} {a : α} {c : Cursor ε'}, p ≤ D.length →
    (x ⟨D, p⟩ = .ok a c ↔ ∃ bs, P bs a ∧ bs <+: D.drop p ∧ c = ⟨D, p + bs.length⟩)

theorem append_prefix_drop_iff {bs cs D : Bytes} {p : ℕ} :
    bs ++ cs <+: D.drop p ↔ bs <+: D.drop p ∧ cs <+: D.drop (p + bs.length) := by
  constructor
  · rintro ⟨rest, hrest⟩
    rw [← List.drop_drop, ← hrest, List.append_assoc, List.drop_left]
    exact ⟨List.prefix_append _ _, List.prefix_append _ _⟩
  · rintro ⟨⟨rest, hrest⟩, hcs⟩
    rw [← List.drop_drop, ← hrest, List.drop_left] at hcs
    rw [← hrest]
    exact (List.prefix_append_right_inj bs).mpr hcs

theorem length_le_of_prefix_drop {bs D : Bytes} {p : ℕ} (hp : p ≤ D.length)
    (h : bs <+: D.drop p) : p + bs.length ≤ D.length := by
  have hlen := h.length_le
  rw [List.length_drop] at hlen
  omega

namespace Consumes

variable {x : EStateM ε (Cursor ε') α} {P : Bytes → α → Prop}

theorem pure (a : α) :
    Consumes (Pure.pure a : EStateM ε (Cursor ε') α) fun bs b => bs = [] ∧ b = a where
  ok_iff {D p b c} _ := by
    constructor
    · intro h
      obtain ⟨rfl, rfl⟩ := EStateM.Result.ok.inj h
      exact ⟨[], ⟨rfl, rfl⟩, List.nil_prefix, rfl⟩
    · rintro ⟨bs, ⟨rfl, rfl⟩, -, rfl⟩
      rfl

theorem throw (e : ε) :
    Consumes (MonadExcept.throw e : EStateM ε (Cursor ε') α) fun _ _ => False where
  ok_iff {D p b c} _ := by
    constructor
    · intro h
      cases h
    · rintro ⟨bs, h, -⟩
      exact h.elim

theorem bind {f : α → EStateM ε (Cursor ε') β} {Q : α → Bytes → β → Prop} (hx : Consumes x P)
    (hf : ∀ a, Consumes (f a) (Q a)) :
    Consumes (x >>= f) fun all b => ∃ bs a cs, all = bs ++ cs ∧ P bs a ∧ Q a cs b where
  ok_iff {D p b c} hp := by
    rw [bind_eq_ok]
    constructor
    · rintro ⟨a, c', hrun, hrest⟩
      obtain ⟨bs, hbs, hpre, rfl⟩ := (hx.ok_iff hp).mp hrun
      obtain ⟨cs, hcs, hpre', rfl⟩ :=
        ((hf a).ok_iff (length_le_of_prefix_drop hp hpre)).mp hrest
      refine ⟨bs ++ cs, ⟨bs, a, cs, rfl, hbs, hcs⟩, append_prefix_drop_iff.mpr ⟨hpre, hpre'⟩, ?_⟩
      rw [List.length_append, Nat.add_assoc]
    · rintro ⟨all, ⟨bs, a, cs, rfl, hbs, hcs⟩, hpre, rfl⟩
      obtain ⟨hpre, hpre'⟩ := append_prefix_drop_iff.mp hpre
      refine ⟨a, _, (hx.ok_iff hp).mpr ⟨bs, hbs, hpre, rfl⟩,
        ((hf a).ok_iff (length_le_of_prefix_drop hp hpre)).mpr ⟨cs, hcs, hpre', ?_⟩⟩
      rw [List.length_append, Nat.add_assoc]

theorem congr {P' : Bytes → α → Prop} (hx : Consumes x P) (h : ∀ bs a, P bs a ↔ P' bs a) :
    Consumes x P' where
  ok_iff hp := by
    simp only [hx.ok_iff hp, h]

theorem map (f : α → β) (hx : Consumes x P) :
    Consumes (f <$> x) fun bs b => ∃ a, P bs a ∧ b = f a :=
  (hx.bind fun a => pure (f a)).congr fun bs b => by
    constructor
    · rintro ⟨bs', a, cs, rfl, hbs, rfl, rfl⟩
      exact ⟨a, by rwa [List.append_nil], rfl⟩
    · rintro ⟨a, hbs, rfl⟩
      exact ⟨bs, a, [], (List.append_nil bs).symm, hbs, rfl, rfl⟩

theorem mapError {ε'' : Type} (f : ε → ε'') (hx : Consumes x P) : Consumes (Io.mapError f x) P where
  ok_iff {D p a c} hp := by
    rw [← hx.ok_iff hp, Io.mapError]
    cases x ⟨D, p⟩ with
    | ok b c' =>
        constructor
        · intro h
          obtain ⟨rfl, rfl⟩ := EStateM.Result.ok.inj h
          rfl
        · intro h
          obtain ⟨rfl, rfl⟩ := EStateM.Result.ok.inj h
          rfl
    | error e c' =>
        constructor
        · intro h
          cases h
        · intro h
          cases h

/-- An absent value is refused. -/
theorem okOr (o : Option α) (e : ε) :
    Consumes (Io.okOr o e : EStateM ε (Cursor ε') α) fun bs a => bs = [] ∧ o = some a where
  ok_iff {D p a c} _ := by
    rw [okOr_eq_ok]
    constructor
    · rintro ⟨ho, rfl⟩
      exact ⟨[], ⟨rfl, ho⟩, List.nil_prefix, rfl⟩
    · rintro ⟨bs, ⟨rfl, ho⟩, -, rfl⟩
      exact ⟨ho, rfl⟩

end Consumes

/-- The parser succeeds with `a` where `Q` holds of all that is left. -/
structure Finishes (x : EStateM ε (Cursor ε') α) (Q : Bytes → α → Prop) : Prop where
  ok_iff : ∀ {D : Bytes} {p : ℕ} {a : α}, p ≤ D.length →
    ((∃ c, x ⟨D, p⟩ = .ok a c) ↔ Q (D.drop p) a)

/-- Behind a parser that takes its bytes there may be more. -/
theorem Consumes.finishes {x : EStateM ε (Cursor ε') α} {P : Bytes → α → Prop}
    (hx : Consumes x P) : Finishes x fun all a => ∃ bs rest, all = bs ++ rest ∧ P bs a where
  ok_iff {D p a} hp := by
    constructor
    · rintro ⟨c, hrun⟩
      obtain ⟨bs, hbs, ⟨rest, hrest⟩, -⟩ := (hx.ok_iff hp).mp hrun
      exact ⟨bs, rest, hrest.symm, hbs⟩
    · rintro ⟨bs, rest, hall, hbs⟩
      exact ⟨_, (hx.ok_iff hp).mpr ⟨bs, hbs, ⟨rest, hall.symm⟩, rfl⟩⟩

theorem Finishes.bind {x : EStateM ε (Cursor ε') α} {P : Bytes → α → Prop}
    {f : α → EStateM ε (Cursor ε') β} {Q : α → Bytes → β → Prop} (hx : Consumes x P)
    (hf : ∀ a, Finishes (f a) (Q a)) :
    Finishes (x >>= f) fun all b => ∃ bs a cs, all = bs ++ cs ∧ P bs a ∧ Q a cs b where
  ok_iff {D p b} hp := by
    constructor
    · rintro ⟨c, hrun⟩
      obtain ⟨a, c', hfirst, hrest⟩ := bind_eq_ok.mp hrun
      obtain ⟨bs, hbs, hpre, rfl⟩ := (hx.ok_iff hp).mp hfirst
      have hq := ((hf a).ok_iff (length_le_of_prefix_drop hp hpre)).mp ⟨c, hrest⟩
      obtain ⟨rest, hrest⟩ := hpre
      rw [← List.drop_drop, ← hrest, List.drop_left] at hq
      exact ⟨bs, a, rest, hrest.symm, hbs, hq⟩
    · rintro ⟨bs, a, cs, hall, hbs, hq⟩
      have hpre : bs <+: D.drop p := ⟨cs, hall.symm⟩
      have hcs : D.drop (p + bs.length) = cs := by
        rw [← List.drop_drop, hall, List.drop_left]
      rw [← hcs] at hq
      obtain ⟨c, hrest⟩ := ((hf a).ok_iff (length_le_of_prefix_drop hp hpre)).mpr hq
      exact ⟨c, bind_eq_ok.mpr ⟨a, _, (hx.ok_iff hp).mpr ⟨bs, hbs, hpre, rfl⟩, hrest⟩⟩

theorem Finishes.congr {x : EStateM ε (Cursor ε') α} {Q Q' : Bytes → α → Prop} (hx : Finishes x Q)
    (h : ∀ bs a, Q bs a ↔ Q' bs a) : Finishes x Q' where
  ok_iff hp := by
    rw [hx.ok_iff hp, h]

theorem Finishes.map {x : EStateM ε (Cursor ε') α} {Q : Bytes → α → Prop} (hx : Finishes x Q)
    (f : α → β) : Finishes (x >>= fun a => pure (f a)) fun all b => ∃ a, Q all a ∧ b = f a where
  ok_iff {D p b} hp := by
    constructor
    · rintro ⟨c, hrun⟩
      obtain ⟨a, c', hfirst, hrest⟩ := bind_eq_ok.mp hrun
      exact ⟨a, (hx.ok_iff hp).mp ⟨c', hfirst⟩, (EStateM.Result.ok.inj hrest).1.symm⟩
    · rintro ⟨a, hq, rfl⟩
      obtain ⟨c, hfirst⟩ := (hx.ok_iff hp).mpr hq
      exact ⟨c, bind_eq_ok.mpr ⟨a, c, hfirst, rfl⟩⟩

theorem Cursor.eq_of_at {D : Bytes} {c : Cursor ε} {p : ℕ} (h : Cursor.At D c p) : c = ⟨D, p⟩ := by
  obtain ⟨rfl, rfl⟩ := h
  rfl

/-- `read_exact` takes as many bytes as it is asked for. -/
theorem consumes_readExact [Patience] (n : ℕ) :
    Consumes (readExact n : Op ε (Cursor ε) Bytes) fun bs a => bs.length = n ∧ a = bs where
  ok_iff {D p a c} hp := by
    obtain ⟨c', hrun, hat⟩ := (Cursor.serves D).readExact_eq (s := ⟨D, p⟩) ⟨rfl, rfl⟩ n
    dsimp only at hrun hat
    obtain rfl := Cursor.eq_of_at hat
    rw [hrun]
    constructor
    · intro h
      split at h
      · rename_i hlen
        obtain ⟨rfl, rfl⟩ := EStateM.Result.ok.inj h
        exact ⟨slice D p n, ⟨hlen, rfl⟩, List.take_prefix _ _, rfl⟩
      · cases h
    · rintro ⟨bs, ⟨hlen, rfl⟩, ⟨rest, hrest⟩, rfl⟩
      have hslice : slice D p n = a := by
        rw [slice, ← hrest, ← hlen, List.take_left]
      rw [hslice, if_pos hlen]

end Io
