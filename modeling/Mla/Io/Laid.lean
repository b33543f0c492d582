import Mathlib.Algebra.BigOperators.Group.List.Basic

/-!
# Records laid out one after the other

Records of several keys stand one behind the other, each taking its own length. `places k base`
are those of key `k`, each with the position at which it starts when the first of all records
starts at `base`.
-/

namespace Io

section Laid

variable {β κ : Type} [DecidableEq κ] (len : β → ℕ) (key : β → κ)

/-- The length of some records together. -/
def extent : List β → ℕ
  | [] => 0
  | b :: records => len b + extent records

def places (k : κ) : ℕ → List β → List (ℕ × β)
  | _, [] => []
  | base, b :: records =>
      if key b = k then (base, b) :: places k (base + len b) records
      else places k (base + len b) records

omit [DecidableEq κ] in
@[simp] theorem extent_nil : extent len [] = 0 := rfl

omit [DecidableEq κ] in
@[simp] theorem extent_cons (b : β) (records : List β) :
    extent len (b :: records) = len b + extent len records := rfl

omit [DecidableEq κ] in
@[simp] theorem extent_append (records records' : List β) :
    extent len (records ++ records') = extent len records + extent len records' := by
  induction records with
  | nil => simp
  | cons b records ih => simp [ih, Nat.add_assoc]

omit [DecidableEq κ] in
/-- Records laid out as lists take the length of what they are laid out to. -/
theorem extent_length {γ : Type} (f : β → List γ) (records : List β) :
    extent (fun b => (f b).length) records = (records.flatMap f).length := by
  induction records with
  | nil => rfl
  | cons b records ih => rw [extent_cons, ih, List.flatMap_cons, List.length_append]

@[simp] theorem places_nil (k : κ) (base : ℕ) : places len key k base [] = [] := rfl

theorem places_cons_of_eq {k : κ} {base : ℕ} {b : β} (records : List β) (h : key b = k) :
    places len key k base (b :: records) =
      (base, b) :: places len key k (base + len b) records := if_pos h

theorem places_cons_of_ne {k : κ} {base : ℕ} {b : β} (records : List β) (h : key b ≠ k) :
    places len key k base (b :: records) = places len key k (base + len b) records := if_neg h

/-- Records behind others start where those end. -/
theorem places_append (k : κ) (base : ℕ) (records records' : List β) :
    places len key k base (records ++ records') =
      places len key k base records ++
        places len key k (base + extent len records) records' := by
  induction records generalizing base with
  | nil => simp
  | cons b records ih =>
      by_cases hb : key b = k
      · rw [List.cons_append, places_cons_of_eq len key _ hb, places_cons_of_eq len key _ hb, ih,
          extent_cons, Nat.add_assoc, List.cons_append]
      · rw [List.cons_append, places_cons_of_ne len key _ hb, places_cons_of_ne len key _ hb, ih,
          extent_cons, Nat.add_assoc]

/-- The records of a key, without their places. -/
theorem map_snd_places (k : κ) (base : ℕ) (records : List β) :
    (places len key k base records).map Prod.snd = records.filter fun b => key b = k := by
  induction records generalizing base with
  | nil => rfl
  | cons b records ih =>
      by_cases hb : key b = k
      · rw [places_cons_of_eq len key _ hb, List.map_cons, ih, List.filter_cons_of_pos (by simpa using hb)]
      · rw [places_cons_of_ne len key _ hb, ih, List.filter_cons_of_neg (by simpa using hb)]

/-- One place of a key parts the records, and the other places with them. -/
theorem places_eq_append_cons {k : κ} {base p : ℕ} {b : β} {records : List β}
    {earlier later : List (ℕ × β)}
    (h : places len key k base records = earlier ++ (p, b) :: later) :
    ∃ before after, records = before ++ b :: after ∧ key b = k ∧ p = base + extent len before ∧
      earlier = places len key k base before ∧ later = places len key k (p + len b) after := by
  induction records generalizing base earlier with
  | nil =>
      rw [places_nil] at h
      exact absurd h.symm (List.append_ne_nil_of_right_ne_nil _ (List.cons_ne_nil _ _))
  | cons c records ih =>
      by_cases hc : key c = k
      · rw [places_cons_of_eq len key _ hc] at h
        cases earlier with
        | nil =>
            obtain ⟨hhead, hlater⟩ := List.cons.inj h
            obtain ⟨rfl, rfl⟩ := Prod.mk.inj hhead
            exact ⟨[], records, rfl, hc, rfl, rfl, hlater.symm⟩
        | cons first earlier =>
            obtain ⟨rfl, hrest⟩ := List.cons.inj h
            obtain ⟨before, after, rfl, hb, rfl, rfl, hlater⟩ := ih hrest
            refine ⟨c :: before, after, rfl, hb, ?_, ?_, hlater⟩
            · rw [extent_cons, Nat.add_assoc]
            · rw [places_cons_of_eq len key _ hc]
      · rw [places_cons_of_ne len key _ hc] at h
        obtain ⟨before, after, rfl, hb, rfl, rfl, hlater⟩ := ih h
        refine ⟨c :: before, after, rfl, hb, ?_, ?_, hlater⟩
        · rw [extent_cons, Nat.add_assoc]
        · rw [places_cons_of_ne len key _ hc]

/-- Where the records of a key stand. -/
theorem mem_places_iff {k : κ} {base p : ℕ} {b : β} {records : List β} :
    (p, b) ∈ places len key k base records ↔
      ∃ before after, records = before ++ b :: after ∧ key b = k ∧ p = base + extent len before := by
  constructor
  · intro h
    obtain ⟨earlier, later, hsplit⟩ := List.append_of_mem h
    obtain ⟨before, after, hrecords, hb, hp, -⟩ := places_eq_append_cons len key hsplit
    exact ⟨before, after, hrecords, hb, hp⟩
  · rintro ⟨before, after, rfl, hb, rfl⟩
    rw [places_append, places_cons_of_eq len key _ hb]
    exact List.mem_append_right _ List.mem_cons_self

/-- Each record starts behind the one before it. -/
theorem pairwise_places (hlen : ∀ b, 0 < len b) (k : κ) (base : ℕ) (records : List β) :
    (places len key k base records).Pairwise fun a b => a.1 < b.1 := by
  induction records generalizing base with
  | nil => exact .nil
  | cons b records ih =>
      by_cases hb : key b = k
      · rw [places_cons_of_eq len key _ hb]
        refine (ih _).cons fun place hplace => ?_
        obtain ⟨before, after, -, -, hp⟩ := (mem_places_iff len key).mp hplace
        have hpos := hlen b
        omega
      · rw [places_cons_of_ne len key _ hb]
        exact ih _

/-- Records that are replaced by others of the same length and key keep their places. -/
theorem places_map {β' : Type} {len' : β' → ℕ} {key' : β' → κ} {f : β → β'} (k : κ) (base : ℕ)
    {records : List β} (hlen : ∀ b ∈ records, len' (f b) = len b)
    (hkey : ∀ b ∈ records, key' (f b) = key b) :
    places len' key' k base (records.map f) =
      (places len key k base records).map fun place => (place.1, f place.2) := by
  induction records generalizing base with
  | nil => rfl
  | cons b records ih =>
      rw [List.forall_mem_cons] at hlen hkey
      rw [List.map_cons]
      by_cases hb : key b = k
      · rw [places_cons_of_eq len' key' _ (hkey.1.trans hb), places_cons_of_eq len key _ hb,
          ih _ hlen.2 hkey.2, hlen.1, List.map_cons]
      · rw [places_cons_of_ne len' key' _ fun h => hb (hkey.1.symm.trans h),
          places_cons_of_ne len key _ hb, ih _ hlen.2 hkey.2, hlen.1]

end Laid

end Io
