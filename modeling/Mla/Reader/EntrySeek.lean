import Mla.Reader.EntryCursor

/-!
# Seeking in an entry

A seek looks for the block in which its target lies, with the sizes of the index summed up from the
start or from the end, goes to the header of the block and reads up to the target. A target outside
the content is refused, and the reader stays where it is. The answer is the target where this is
counted from the start of the content, and the size of the entry where it is counted from the end.
-/

namespace Mla

open Io

namespace ArchiveEntryDataReader

/-! ## Looking for a block -/

section Find

variable {spots : List (ℕ × Block)} {spot : ℕ × Block} {k : ℕ}

def sizesOf (blocks : List ((ℕ × ℕ) × ℕ)) : ℕ := (blocks.map fun block => block.1.2).sum

theorem sizesOf_cons (block : (ℕ × ℕ) × ℕ) (blocks : List ((ℕ × ℕ) × ℕ)) :
    sizesOf (block :: blocks) = block.1.2 + sizesOf blocks := by
  rw [sizesOf, List.map_cons, List.sum_cons]
  rfl

theorem sizesOf_append (blocks blocks' : List ((ℕ × ℕ) × ℕ)) :
    sizesOf (blocks ++ blocks') = sizesOf blocks + sizesOf blocks' := by
  rw [sizesOf, List.map_append, List.sum_append]
  rfl

theorem sizesOf_reverse (blocks : List ((ℕ × ℕ) × ℕ)) : sizesOf blocks.reverse = sizesOf blocks := by
  rw [sizesOf, List.map_reverse, List.sum_reverse]
  rfl

/-- The sizes are summed up until they exceed what is asked, or to the end. -/
theorem findBlock_cases (asked : ℕ) (blocks : List ((ℕ × ℕ) × ℕ)) :
    ∀ sum : ℕ, sum ≤ asked → sum + sizesOf blocks < u64Size →
      (∃ before block behind, blocks = before ++ block :: behind ∧ sum + sizesOf before ≤ asked ∧
        asked < sum + sizesOf before + block.1.2 ∧
        findBlock asked sum blocks = .ok (sum + sizesOf before + block.1.2, some block)) ∨
      (sum + sizesOf blocks ≤ asked ∧
        findBlock asked sum blocks = .ok (sum + sizesOf blocks, none)) := by
  induction blocks with
  | nil => exact fun sum hle _ => .inr ⟨hle, rfl⟩
  | cons block blocks ih =>
      intro sum hle hlt
      rw [sizesOf_cons] at hlt ⊢
      have hfind : findBlock asked sum (block :: blocks) =
          if asked < sum + block.1.2 then .ok (sum + block.1.2, some block)
          else findBlock asked (sum + block.1.2) blocks := by
        rw [findBlock, checkedAdd_of_lt (by omega)]
        rfl
      by_cases hfound : asked < sum + block.1.2
      · refine .inl ⟨[], block, blocks, rfl, hle, hfound, ?_⟩
        rw [hfind, if_pos hfound]
        rfl
      · rw [hfind, if_neg hfound, ← Nat.add_assoc]
        rcases ih (sum + block.1.2) (by omega) (by omega) with
          ⟨before, found, behind, hblocks, hbefore, hasked, hrun⟩ | ⟨hsum, hrun⟩
        · refine .inl ⟨block :: before, found, behind, by rw [hblocks, List.cons_append], ?_, ?_, ?_⟩
          · rwa [sizesOf_cons, ← Nat.add_assoc]
          · rwa [sizesOf_cons, ← Nat.add_assoc]
          · rwa [sizesOf_cons, ← Nat.add_assoc]
        · exact .inr ⟨hsum, hrun⟩

theorem sizesOf_zipIdx (spots : List (ℕ × Block)) (i : ℕ) :
    sizesOf ((told spots).zipIdx i) = (contentOf spots).length := by
  induction spots generalizing i with
  | nil => rfl
  | cons spot spots ih =>
      rw [told, List.map_cons, List.zipIdx_cons, sizesOf_cons, contentOf, List.flatMap_cons,
        List.length_append]
      exact congrArg (spot.2.size + ·) (ih (i + 1))

/-- What stands around block `k` in the numbered index. -/
theorem zipIdx_split {before behind : List ((ℕ × ℕ) × ℕ)} {block : (ℕ × ℕ) × ℕ}
    (h : (told spots).zipIdx = before ++ block :: behind) :
    ∃ k spot, spots[k]? = some spot ∧ block = ((spot.1, spot.2.size), k) ∧
      sizesOf before = startOf spots k ∧
      startOf spots k + spot.2.size + sizesOf behind = (contentOf spots).length := by
  obtain ⟨earlier, rest, htold, hbefore, hrest⟩ := List.zipIdx_eq_append_iff.mp h
  obtain ⟨offsetAndSize, later, rfl, rfl, hbehind⟩ := List.zipIdx_eq_cons_iff.mp hrest.symm
  obtain ⟨first, own, hspots, hfirst, hown⟩ := List.map_eq_append_iff.mp htold
  obtain ⟨spot, last, rfl, rfl, hlast⟩ := List.map_eq_cons_iff.mp hown
  have hlength : earlier.length = first.length := by rw [← hfirst, List.length_map]
  have hspot : spots[first.length]? = some spot := by
    rw [hspots, List.getElem?_append_right (Nat.le_refl _), Nat.sub_self, List.getElem?_cons_zero]
  have hstart : startOf spots first.length = (contentOf first).length := by
    rw [startOf, hspots, List.take_left]
  refine ⟨first.length, spot, hspot, ?_, ?_, ?_⟩
  · rw [hlength, Nat.zero_add]
  · rw [hbefore, ← hfirst, hstart]
    exact sizesOf_zipIdx first 0
  · have hsizes : sizesOf behind = (contentOf last).length := by
      rw [hbehind, ← hlast]
      exact sizesOf_zipIdx last _
    rw [hstart, hsizes, hspots, contentOf, contentOf, contentOf, List.flatMap_append,
      List.flatMap_cons, List.length_append, List.length_append, Block.size]
    exact Nat.add_assoc _ _ _

end Find

/-! ## Where a seek goes -/

/-- A seek goes to position `t` of the content, in one of the blocks. -/
def Lands (spots : List (ℕ × Block)) (t answer : ℕ) (r : Except Exit Jump) : Prop :=
  ∃ k spot off, spots[k]? = some spot ∧ off ≤ spot.2.size ∧ startOf spots k + off = t ∧
    r = .ok ⟨spot.1, k, some off, answer⟩

section Jump

variable {σ : Type} {S : Bytes} {At : σ → ℕ → Prop} {id : ArchiveEntryId} {spots : List (ℕ × Block)}
  {entry : Entry} {s : ArchiveEntryDataReader σ} {asked : ℕ}

theorem length_contentOf (hmade : entry.IsMadeOf id (spots.map Prod.snd)) :
    (contentOf spots).length = entry.content.length := by
  rw [hmade.contentOf_eq]

theorem sizesOf_told_lt (hmade : entry.IsMadeOf id (spots.map Prod.snd))
    (hlt : entry.content.length < i64Size) : 0 + sizesOf (told spots).zipIdx < u64Size := by
  rw [Nat.zero_add, sizesOf_zipIdx, length_contentOf hmade]
  exact hlt.trans (by decide)

/-- The last block of an entry has no content. -/
theorem last_spot (hmade : entry.IsMadeOf id (spots.map Prod.snd)) :
    ∃ spot, spots[entry.chunks.length + 1]? = some spot ∧ spot.2.size = 0 ∧
      startOf spots (entry.chunks.length + 1) = entry.content.length := by
  obtain ⟨spot, hspot⟩ := hmade.next_spot (Nat.le_refl _)
  refine ⟨spot, hspot, ?_, ?_⟩
  · rcases hmade.spot_cases hspot with ⟨hk, -⟩ | ⟨i, options, data, hk, hchunk, -⟩ | ⟨-, options, hblock⟩
    · cases hk
    · obtain ⟨hlt, -⟩ := List.getElem?_eq_some_iff.mp hchunk
      exact absurd (Nat.succ.inj hk) hlt.ne'
    · rw [hblock]
      rfl
  · rw [hmade.startOf_succ_eq (Nat.le_refl _), List.take_length, Entry.content]

/-- A target in the content is gone to. -/
theorem jumpStart_lands (hmade : entry.IsMadeOf id (spots.map Prod.snd))
    (hlt : entry.content.length < i64Size) (hs : s.offsetsAndSizes = told spots)
    (hle : asked ≤ entry.content.length) : Lands spots asked asked (s.jumpStart asked) := by
  rw [jumpStart, hs]
  rcases findBlock_cases asked (told spots).zipIdx 0 (Nat.zero_le _) (sizesOf_told_lt hmade hlt) with
    ⟨before, block, behind, hsplit, hbefore, hasked, hfind⟩ | ⟨hsum, hfind⟩
  · obtain ⟨k, spot, hspot, rfl, hsizes, -⟩ := zipIdx_split hsplit
    rw [hsizes, Nat.zero_add] at hbefore hasked hfind
    dsimp only at hasked hfind
    refine ⟨k, spot, asked - startOf spots k, hspot, by omega, by omega, ?_⟩
    refine Except.bind_eq_ok.mpr ⟨_, hfind, ?_⟩
    dsimp only
    rw [if_neg (by omega)]
    refine Except.bind_eq_ok.mpr ⟨_, rfl, ?_⟩
    dsimp only
    rw [checkedSub_of_le (Nat.le_add_left _ _), Option.bind_some, Nat.add_sub_cancel,
      checkedSub_of_le hbefore]
    rfl
  · obtain ⟨spot, hspot, hsize, hstart⟩ := last_spot hmade
    rw [Nat.zero_add, sizesOf_zipIdx, length_contentOf hmade] at hsum hfind
    obtain rfl : asked = entry.content.length := Nat.le_antisymm hle hsum
    have hlength : (told spots).length = entry.chunks.length + 2 := by
      rw [told, List.length_map, hmade.length_eq]
    refine ⟨entry.chunks.length + 1, spot, 0, hspot, Nat.zero_le _, hstart, ?_⟩
    refine Except.bind_eq_ok.mpr ⟨_, hfind, ?_⟩
    dsimp only
    rw [if_pos rfl]
    refine Except.bind_eq_ok.mpr ⟨entry.chunks.length + 1, ?_, ?_⟩
    · exact orError_eq_ok.mpr (by rw [hlength, checkedSub_of_le (by omega)]; rfl)
    · refine Except.bind_eq_ok.mpr ⟨_, orError_eq_ok.mpr (getElem?_told hspot), ?_⟩
      refine Except.bind_eq_ok.mpr ⟨_, rfl, ?_⟩
      dsimp only
      rw [hsize, checkedSub_of_le (Nat.zero_le _), Option.bind_some, Nat.sub_zero,
        checkedSub_of_le (Nat.le_refl _), Nat.sub_self]
      rfl

/-- A target behind the content is refused. -/
theorem jumpStart_refuses (hmade : entry.IsMadeOf id (spots.map Prod.snd))
    (hlt : entry.content.length < i64Size) (hs : s.offsetsAndSizes = told spots)
    (hasked : entry.content.length < asked) : s.jumpStart asked = .error invalidInput := by
  have hfind : findBlock asked 0 (told spots).zipIdx = .ok (entry.content.length, none) := by
    rcases findBlock_cases asked (told spots).zipIdx 0 (Nat.zero_le _) (sizesOf_told_lt hmade hlt) with
      ⟨before, block, behind, hsplit, -, hfound, -⟩ | ⟨-, hfind⟩
    · obtain ⟨k, spot, -, rfl, hsizes, hsum⟩ := zipIdx_split hsplit
      rw [length_contentOf hmade] at hsum
      dsimp only at hfound
      omega
    · rw [hfind, Nat.zero_add, sizesOf_zipIdx, length_contentOf hmade]
  rw [jumpStart, hs, hfind]
  change (if entry.content.length = asked then _ else _) = _
  rw [if_neg hasked.ne]
  rfl

theorem getSize_eq (hmade : entry.IsMadeOf id (spots.map Prod.snd))
    (hlt : entry.content.length < i64Size) (hs : s.offsetsAndSizes = told spots) :
    s.getSize = entry.content.length := by
  have hsum : ((told spots).map Prod.snd).sum = (contentOf spots).length := by
    rw [told, List.map_map, contentOf, List.length_flatMap]
    rfl
  rw [getSize, hs, hsum, length_contentOf hmade]
  exact Nat.mod_eq_of_lt (hlt.trans (by decide))

/-- A target in the content is found from the end, too. -/
theorem jumpEnd_lands (hmade : entry.IsMadeOf id (spots.map Prod.snd))
    (hlt : entry.content.length < i64Size) (hs : s.offsetsAndSizes = told spots) {t : ℕ} {d : ℤ}
    (ht : (entry.content.length : ℤ) + d = t) (hle : t ≤ entry.content.length) :
    Lands spots t entry.content.length (s.jumpEnd d) := by
  obtain ⟨e, he⟩ : ∃ e, e + t = entry.content.length := ⟨_, Nat.sub_add_cancel hle⟩
  have hneg : i64CheckedNeg d = some (e : ℤ) := by
    rw [i64CheckedNeg, if_neg (by omega)]
    exact congrArg some (by omega)
  have hword : (e : ℤ) < u64Size := by
    have hsize := i64Size_lt_u64Size
    omega
  have hoffset : checkedAddSigned 0 (e : ℤ) = some e := by
    rw [checkedAddSigned_of_range (by omega) (by omega)]
    exact congrArg some (by omega)
  have hbound : 0 + sizesOf (told spots).zipIdx.reverse < u64Size := by
    rw [sizesOf_reverse]
    exact sizesOf_told_lt hmade hlt
  rw [← getSize_eq hmade hlt hs, jumpEnd]
  rcases findBlock_cases e (told spots).zipIdx.reverse 0 (Nat.zero_le _) hbound with
    ⟨before, block, behind, hsplit, hbefore, hasked, hfind⟩ | ⟨hsum, hfind⟩
  · have hsplit' : (told spots).zipIdx = behind.reverse ++ block :: before.reverse := by
      have hrev := congrArg List.reverse hsplit
      rwa [List.reverse_reverse, List.reverse_append, List.reverse_cons, List.append_assoc,
        List.singleton_append] at hrev
    obtain ⟨k, spot, hspot, rfl, -, hsizes⟩ := zipIdx_split hsplit'
    rw [sizesOf_reverse, length_contentOf hmade] at hsizes
    rw [Nat.zero_add] at hbefore hasked hfind
    dsimp only at hasked hfind
    refine ⟨k, spot, sizesOf before + spot.2.size - e, hspot, by omega, by omega, ?_⟩
    refine Except.bind_eq_ok.mpr ⟨_, orError_eq_ok.mpr hneg, ?_⟩
    refine Except.bind_eq_ok.mpr ⟨_, orError_eq_ok.mpr hoffset, ?_⟩
    refine Except.bind_eq_ok.mpr ⟨_, by rw [hs]; exact hfind, ?_⟩
    dsimp only
    rw [if_neg (by omega)]
    refine Except.bind_eq_ok.mpr ⟨_, rfl, ?_⟩
    dsimp only
    rw [checkedSub_of_le (by omega)]
    rfl
  · rw [Nat.zero_add, sizesOf_reverse, sizesOf_zipIdx, length_contentOf hmade] at hsum hfind
    obtain rfl : e = entry.content.length := by omega
    obtain rfl : t = 0 := by omega
    have hlength := hmade.length_eq
    have hpos : 0 < spots.length := by omega
    have hspot : spots[0]? = some spots[0] := List.getElem?_eq_getElem hpos
    refine ⟨0, spots[0], 0, hspot, Nat.zero_le _, rfl, ?_⟩
    refine Except.bind_eq_ok.mpr ⟨_, orError_eq_ok.mpr hneg, ?_⟩
    refine Except.bind_eq_ok.mpr ⟨_, orError_eq_ok.mpr hoffset, ?_⟩
    refine Except.bind_eq_ok.mpr ⟨_, by rw [hs]; exact hfind, ?_⟩
    dsimp only
    rw [if_pos rfl]
    refine Except.bind_eq_ok.mpr ⟨_, orError_eq_ok.mpr (by rw [hs]; exact getElem?_told hspot), ?_⟩
    refine Except.bind_eq_ok.mpr ⟨_, rfl, ?_⟩
    dsimp only
    rw [checkedSub_of_le (Nat.le_refl _), Nat.sub_self]
    rfl

theorem jumpEnd_refuses (hmade : entry.IsMadeOf id (spots.map Prod.snd))
    (hlt : entry.content.length < i64Size) (hs : s.offsetsAndSizes = told spots) {d : ℤ}
    (hd : (entry.content.length : ℤ) + d < 0 ∨ 0 < d) : s.jumpEnd d = .error invalidInput := by
  rw [jumpEnd]
  cases hneg : i64CheckedNeg d with
  | none => rfl
  | some neg =>
      obtain rfl : neg = -d := by
        rw [i64CheckedNeg] at hneg
        split at hneg
        · cases hneg
        · exact (Option.some.inj hneg).symm
      cases hoffset : checkedAddSigned 0 (-d) with
      | none =>
          change (orError (checkedAddSigned 0 (-d)) invalidInput >>= _) = _
          rw [hoffset]
          rfl
      | some e =>
          have he := checkedAddSigned_eq hoffset
          have hfind : findBlock e 0 (told spots).zipIdx.reverse =
              .ok (entry.content.length, none) := by
            have hbound : 0 + sizesOf (told spots).zipIdx.reverse < u64Size := by
              rw [sizesOf_reverse]
              exact sizesOf_told_lt hmade hlt
            rcases findBlock_cases e (told spots).zipIdx.reverse 0 (Nat.zero_le _) hbound with
              ⟨before, block, behind, hsplit, hbefore, hfound, -⟩ | ⟨-, hfind⟩
            · have hsizes := congrArg sizesOf hsplit
              rw [sizesOf_append, sizesOf_cons, sizesOf_reverse, sizesOf_zipIdx,
                length_contentOf hmade] at hsizes
              omega
            · rw [hfind, Nat.zero_add, sizesOf_reverse, sizesOf_zipIdx, length_contentOf hmade]
          change (orError (checkedAddSigned 0 (-d)) invalidInput >>= _) = _
          rw [hoffset]
          change (findBlock e 0 s.offsetsAndSizes.zipIdx.reverse >>= _) = _
          rw [hs, hfind]
          change (if entry.content.length = e then _ else _) = _
          rw [if_neg (by omega)]
          rfl

theorem checkedSum_eq (sizes : List ℕ) (h : sizes.sum < u64Size) : checkedSum sizes = .ok sizes.sum := by
  have hfold : ∀ (sizes : List ℕ) (sum : ℕ), sum + sizes.sum < u64Size →
      sizes.foldlM (fun sum size => orError (checkedAdd sum size) invalidInput) sum =
        (.ok (sum + sizes.sum) : Except Exit ℕ) := by
    intro sizes
    induction sizes with
    | nil => exact fun sum _ => rfl
    | cons size sizes ih =>
        intro sum hsum
        rw [List.sum_cons] at hsum ⊢
        rw [List.foldlM_cons, ← Nat.add_assoc]
        refine Except.bind_eq_ok.mpr ⟨sum + size, ?_, ih _ (by omega)⟩
        exact orError_eq_ok.mpr (checkedAdd_of_lt (by omega))
  rw [checkedSum, hfold sizes 0 (by rwa [Nat.zero_add]), Nat.zero_add]

theorem sum_told_take (spots : List (ℕ × Block)) (k : ℕ) :
    (((told spots).take k).map Prod.snd).sum = startOf spots k := by
  rw [told, ← List.map_take, List.map_map, startOf, contentOf, List.length_flatMap]
  rfl

theorem startOf_le (hmade : entry.IsMadeOf id (spots.map Prod.snd)) (k : ℕ) :
    startOf spots k ≤ entry.content.length := by
  rw [← hmade.contentOf_eq, startOf, ← congrArg contentOf (List.take_append_drop k spots), contentOf,
    contentOf, List.flatMap_append, List.length_append]
  exact Nat.le_add_right _ _

/-- What a seek to `t` answers; `ended` tells whether the end of the entry has been read. -/
def answer (entry : Entry) (ended : Bool) (t : ℕ) : SeekFrom → ℕ
  | .start _ => t
  | .fromEnd _ => entry.content.length
  | .current _ => if ended then entry.content.length else t

theorem EntryAt.kept {c : ℕ} (hs : EntryAt At S id spots s c) :
    s.id = id ∧ s.offsetsAndSizes = told spots := by
  cases hs <;> exact ⟨rfl, rfl⟩

/-- From where the reader is, the place of a target is computed. -/
theorem jumpCurrent_eq {c : ℕ} (hmade : entry.IsMadeOf id (spots.map Prod.snd))
    (hlt : entry.content.length < i64Size) (hs : EntryAt At S id spots s c) (d : ℤ) :
    (s.state = .finish ∧ c = entry.content.length ∧ s.jumpCurrent d = s.jumpEnd d) ∨
    (s.state ≠ .finish ∧
      s.jumpCurrent d = (orError (checkedAddSigned c d) invalidInput >>= s.jumpStart)) := by
  have hword : entry.content.length < u64Size := hlt.trans i64Size_lt_u64Size
  have hlength : (told spots).length = spots.length := List.length_map _
  cases hs with
  | finish hsrc => exact .inl ⟨rfl, length_contentOf hmade, rfl⟩
  | @ready src q k spot hspot hsrc hleads =>
      obtain ⟨hk, -⟩ := List.getElem?_eq_some_iff.mp hspot
      refine .inr ⟨by simp, ?_⟩
      rw [jumpCurrent]
      dsimp only
      rw [if_neg (by omega), sum_told_take,
        Nat.mod_eq_of_lt (lt_of_le_of_lt (startOf_le hmade k) hword)]
  | @inside src k off remaining spot hspot hsrc hsum hpos =>
      obtain ⟨hk, -⟩ := List.getElem?_eq_some_iff.mp hspot
      have hstart := startOf_succ hspot
      have hle := startOf_le hmade (k + 1)
      refine .inr ⟨by simp, ?_⟩
      rw [jumpCurrent]
      dsimp only
      rw [if_neg (by omega), checkedSum_eq _ (by rw [sum_told_take]; omega), sum_told_take, hstart]
      change (orError (checkedSub _ remaining) invalidInput >>= _) = _
      rw [checkedSub_of_le (by omega)]
      change (orError (checkedAddSigned (startOf spots k + spot.2.size - remaining) d) invalidInput >>=
        _) = _
      rw [show startOf spots k + spot.2.size - remaining = startOf spots k + off by omega]

theorem jump_lands {c t : ℕ} (hmade : entry.IsMadeOf id (spots.map Prod.snd))
    (hlt : entry.content.length < i64Size) (hs : EntryAt At S id spots s c) {ended : Bool}
    (hended : ended = true ↔ s.state = .finish) {w : SeekFrom}
    (ht : w.target entry.content c = t) (hle : t ≤ entry.content.length) :
    Lands spots t (answer entry ended t w) (s.jump w) := by
  have htold := hs.kept.2
  cases w with
  | start asked =>
      obtain rfl : asked = t := Int.ofNat.inj ht
      exact jumpStart_lands hmade hlt htold hle
  | fromEnd d => exact jumpEnd_lands hmade hlt htold ht hle
  | current d =>
      rcases jumpCurrent_eq hmade hlt hs d with ⟨hstate, rfl, hjump⟩ | ⟨hstate, hjump⟩
      · rw [jump, hjump, answer, if_pos (hended.mpr hstate)]
        exact jumpEnd_lands hmade hlt htold ht hle
      · rw [jump, hjump, answer, if_neg fun h => hstate (hended.mp h)]
        have hword : entry.content.length < u64Size := hlt.trans i64Size_lt_u64Size
        have htarget : (c : ℤ) + d = t := ht
        rw [checkedAddSigned_of_range (by omega) (by omega), htarget, Int.toNat_natCast]
        exact jumpStart_lands hmade hlt htold hle

theorem jump_refuses {c : ℕ} (hmade : entry.IsMadeOf id (spots.map Prod.snd))
    (hlt : entry.content.length < i64Size) (hs : EntryAt At S id spots s c) {w : SeekFrom}
    (hout : w.target entry.content c < 0 ∨ (entry.content.length : ℤ) < w.target entry.content c) :
    s.jump w = .error invalidInput := by
  have htold := hs.kept.2
  cases w with
  | start asked =>
      refine jumpStart_refuses hmade hlt htold ?_
      change ((asked : ℤ) < 0 ∨ (entry.content.length : ℤ) < asked) at hout
      omega
  | fromEnd d =>
      refine jumpEnd_refuses hmade hlt htold ?_
      change ((entry.content.length : ℤ) + d < 0 ∨ (entry.content.length : ℤ) <
        entry.content.length + d) at hout
      omega
  | current d =>
      change ((c : ℤ) + d < 0 ∨ (entry.content.length : ℤ) < c + d) at hout
      rcases jumpCurrent_eq hmade hlt hs d with ⟨-, rfl, hjump⟩ | ⟨-, hjump⟩
      · rw [jump, hjump]
        exact jumpEnd_refuses hmade hlt htold (by omega)
      · rw [jump, hjump]
        cases hsum : checkedAddSigned c d with
        | none => rfl
        | some t =>
            have ht := checkedAddSigned_eq hsum
            exact jumpStart_refuses hmade hlt htold (by omega)

end Jump

/-! ## Going there -/

section Move

variable {σ : Type} [Patience] [Read Error σ] [Seek Error σ] {closed : Prop} {S : Bytes}
  {At : σ → ℕ → Prop} {Live : σ → Prop} {id : ArchiveEntryId} {spots : List (ℕ × Block)}
  {spot : ℕ × Block} {entry : Entry} {k : ℕ} {s : ArchiveEntryDataReader σ}

omit [Patience] in
theorem OverEntry.live_src (h : OverEntry closed S At Live id spots entry) {c : ℕ}
    (hs : EntryAt At S id spots s c) : Live s.src := by
  cases hs with
  | ready _ hsrc _ => exact h.cursor.live hsrc
  | inside _ hsrc _ _ => exact h.cursor.live hsrc
  | finish hsrc => exact h.cursor.live hsrc

/-- So many bytes of the chunk are read as are left of it at most. -/
theorem OverEntry.skips (h : OverEntry closed S At Live id spots entry)
    (hspot : spots[k]? = some spot) (hk : k ≤ entry.chunks.length) :
    ∀ (fuel m off remaining : ℕ) (s : ArchiveEntryDataReader σ), m ≤ fuel → 0 < m → m ≤ remaining →
      off + remaining = spot.2.size →
      (∀ n, ∃ src state, At src (spot.1 + spot.2.header.length + off) ∧
        read n s = readContent remaining n ⟨src, state, id, k, told spots⟩) →
      ∃ s', readExactLoop fuel m s = .ok () s' ∧
        EntryAt At S id spots s' (startOf spots k + (off + m)) ∧ s'.state ≠ .finish := by
  intro fuel
  induction fuel with
  | zero => intro m off remaining s hfuel hm; omega
  | succ fuel ih =>
      intro m off remaining s hfuel hm hle hsum hread
      obtain ⟨m, rfl⟩ : ∃ m', m = m' + 1 := ⟨m - 1, by omega⟩
      obtain ⟨src, state, hsrc, hrun⟩ := hread (m + 1)
      obtain ⟨j, s', hcontent, hj, hoff, hzero, hstate, hs', hstays⟩ :=
        h.within (n := m + 1) hspot hk hsrc hsum state
      have hpos : 0 < j := by
        rcases Nat.eq_zero_or_pos j with hj | hj
        · rcases hzero hj with hn | hr <;> omega
        · exact hj
      have hbytes : (slice spot.2.data off j).length = j :=
        length_slice_of_le (by rw [Block.size] at hoff; exact hoff)
      have hnonempty : (slice spot.2.data off j).isEmpty = false := by
        rw [List.isEmpty_eq_false_iff]
        intro hnil
        rw [hnil] at hbytes
        exact hpos.ne hbytes
      rw [readExactLoop_succ, hrun, hcontent]
      dsimp only
      rw [if_neg (by rw [hnonempty]; exact Bool.false_ne_true), hbytes]
      rcases Nat.lt_or_ge j (m + 1) with hlt | hge
      · obtain ⟨src', rfl, hsrc'⟩ := hstays (by omega)
        have hagain := ih (m + 1 - j) (off + j) (remaining - j)
          ⟨src', .inEntryContent (remaining - j), id, k, told spots⟩ (by omega) (by omega) (by omega)
          (by omega) fun n => ⟨src', _, hsrc', rfl⟩
        rwa [show off + j + (m + 1 - j) = off + (m + 1) by omega] at hagain
      · obtain rfl : j = m + 1 := by omega
        refine ⟨s', ?_, hs', hstate⟩
        rw [Nat.sub_self]
        cases fuel <;> rfl

/-- The place of a target is gone to. -/
theorem OverEntry.arrives (h : OverEntry closed S At Live id spots entry) {c t answer : ℕ} {jump : Jump}
    (hs : EntryAt At S id spots s c) (hlands : Lands spots t answer (.ok jump)) :
    ∃ s', moveTo jump s = .ok answer s' ∧ EntryAt At S id spots s' t ∧
      s'.state ≠ .finish := by
  obtain ⟨k, spot, off, hspot, hoff, rfl, heq⟩ := hlands
  obtain rfl := Except.ok.inj heq
  have hlive := h.live_src hs
  have hkept := hs.kept
  obtain ⟨src, hseek, hsrc⟩ := h.cursor.seekStart hlive (t := spot.1) (.inl (h.shown.lt_length hspot))
  have hsize := startOf_add_size_le hspot
  rw [length_contentOf h.made] at hsize
  have hlt := h.content_lt
  have hmoved : ∃ s', readExactLoop (off + Patience.retries) off
        (⟨src, .ready, id, k, told spots⟩ : ArchiveEntryDataReader σ) = .ok () s' ∧
      EntryAt At S id spots s' (startOf spots k + off) ∧ s'.state ≠ .finish := by
    cases off with
    | zero => exact ⟨_, by cases Patience.retries <;> rfl, .ready hspot hsrc (.inl rfl), by simp⟩
    | succ off =>
        rcases h.made.spot_cases hspot with ⟨-, options, hblock⟩ |
          ⟨i, options, data, rfl, hchunk, hblock⟩ | ⟨-, options, hblock⟩
        · rw [hblock] at hoff
          cases hoff
        · obtain ⟨hi, -⟩ := List.getElem?_eq_some_iff.mp hchunk
          obtain ⟨src', hrun, hsrc'⟩ := fromReader_spot h.cursor.toDelivers h.shown hspot hsrc
          have hsize' : spot.2.size = data.length := by rw [hblock]; rfl
          rw [hblock] at hrun
          have hskips := h.skips hspot hi (off + 1 + Patience.retries) (off + 1) 0 data.length
            ⟨src, .ready, id, i + 1, told spots⟩ (Nat.le_add_right _ _) (Nat.succ_pos _)
            (hsize' ▸ hoff) (by omega) fun n => ⟨src', .ready, hsrc', readLoop_chunk hrun⟩
          rwa [Nat.zero_add] at hskips
        · rw [hblock] at hoff
          cases hoff
  obtain ⟨s', hrun, hs', hstate⟩ := hmoved
  refine ⟨s', ?_, hs', hstate⟩
  rw [moveTo]
  dsimp only
  rw [hseek]
  dsimp only
  rw [if_neg (by omega), hkept.1, hkept.2, hrun]

/-- A target in the content is gone to. -/
theorem OverEntry.seek_at (h : OverEntry closed S At Live id spots entry) {c t : ℕ}
    (hs : EntryAt At S id spots s c) {ended : Bool} (hended : ended = true ↔ s.state = .finish)
    {w : SeekFrom} (ht : w.target entry.content c = t) (hle : t ≤ entry.content.length) :
    ∃ s', seek w s = .ok (answer entry ended t w) s' ∧ EntryAt At S id spots s' t ∧
      s'.state ≠ .finish := by
  have hlands := jump_lands h.made h.content_lt hs hended ht hle
  obtain ⟨k, spot, off, hspot, hoff, hsum, hjump⟩ := hlands
  obtain ⟨s', hrun, hs', hstate⟩ := h.arrives hs ⟨k, spot, off, hspot, hoff, hsum, rfl⟩
  refine ⟨s', ?_, hs', hstate⟩
  rw [seek, hjump]
  exact hrun

/-- Any other target is refused. -/
theorem OverEntry.seek_refused (h : OverEntry closed S At Live id spots entry) {c : ℕ}
    (hs : EntryAt At S id spots s c) {w : SeekFrom}
    (hout : w.target entry.content c < 0 ∨ (entry.content.length : ℤ) < w.target entry.content c) :
    seek w s = .error invalidInput s := by
  rw [seek, jump_refuses h.made h.content_lt hs hout]

/-! ## Any calls -/

/-- The reader answers the calls as a cursor over the content of the entry at position `c` does;
`ended` tells whether the end of the entry has been read. -/
def FollowsEntry (entry : Entry) : ℕ → Bool → ArchiveEntryDataReader σ → List ReaderCall → Prop
  | _, _, _, [] => True
  | c, ended, s, .read n :: calls =>
      ∃ j ended' s', read n s = .ok (slice entry.content c j) s' ∧ j ≤ n ∧
        c + j ≤ entry.content.length ∧
        (j = 0 → n = 0 ∨ c = entry.content.length ∨ entry.EmptyAt c) ∧
        (ended' = true → c = entry.content.length) ∧ (ended = true → ended' = true) ∧
        (c = entry.content.length → ¬ entry.EmptyAt c → ended' = true) ∧
        FollowsEntry entry (c + j) ended' s' calls
  | c, ended, s, .seek w :: calls =>
      (∀ t : ℕ, w.target entry.content c = t → t ≤ entry.content.length →
        ∃ s', seek w s = .ok (answer entry ended t w) s' ∧ FollowsEntry entry t false s' calls) ∧
      (w.target entry.content c < 0 ∨ (entry.content.length : ℤ) < w.target entry.content c →
        seek w s = .error invalidInput s ∧ FollowsEntry entry c ended s calls)

omit [Patience] in
theorem read_finish [Patience] {n : ℕ} (h : s.state = .finish) : read n s = .ok [] s := by
  rw [read, readLoop]
  dsimp only
  rw [h]

theorem OverEntry.follows (h : OverEntry closed S At Live id spots entry) (calls : List ReaderCall) :
    ∀ {s : ArchiveEntryDataReader σ} {c : ℕ} {ended : Bool}, EntryAt At S id spots s c →
      (ended = true ↔ s.state = .finish) → FollowsEntry entry c ended s calls := by
  induction calls with
  | nil => exact fun _ _ => trivial
  | cons call calls ih =>
      intro s c ended hs hended
      cases call with
      | read n =>
          obtain ⟨j, s', hrun, hj, hle, hempty, hfinish, hends, hs'⟩ := h.read_at hs n
          have hstays : s.state = .finish → s'.state = .finish := by
            intro hstate
            rw [read_finish hstate] at hrun
            obtain ⟨-, rfl⟩ := EStateM.Result.ok.inj hrun
            exact hstate
          exact ⟨j, decide (s'.state = .finish), s', hrun, hj, hle, hempty,
            fun hended' => hfinish (of_decide_eq_true hended'),
            fun h => decide_eq_true (hstays (hended.mp h)),
            fun hc hnone => decide_eq_true (hends hc hnone), ih hs' decide_eq_true_iff⟩
      | seek w =>
          refine ⟨fun t ht hle => ?_, fun hout => ⟨h.seek_refused hs hout, ih hs hended⟩⟩
          obtain ⟨s', hrun, hs', hstate⟩ := h.seek_at hs hended ht hle
          exact ⟨s', hrun, ih hs' (iff_of_false Bool.false_ne_true hstate)⟩

/-- The reader of an entry starts behind the start of the entry. -/
theorem OverEntry.new_at (h : OverEntry closed S At Live id spots entry) {src : σ} (hsrc : Live src) :
    ∃ s : ArchiveEntryDataReader σ, ArchiveEntryDataReader.new src (told spots) = .ok s ∧
      EntryAt At S id spots s 0 ∧ s.state ≠ .finish := by
  obtain ⟨spot', hspot'⟩ := h.made.next_spot (Nat.zero_le _)
  have hlength := h.made.length_eq
  have hspot : spots[0]? = some spots[0] := List.getElem?_eq_getElem (by omega)
  obtain ⟨src₁, hseek, hsrc₁⟩ := h.cursor.seekStart hsrc (t := spots[0].1)
    (.inl (h.shown.lt_length hspot))
  obtain ⟨src₂, hrun, hsrc₂⟩ := fromReader_spot h.cursor.toDelivers h.shown hspot hsrc₁
  rcases h.made.spot_cases hspot with ⟨-, options, hblock⟩ | ⟨i, -, -, hi, -⟩ | ⟨hi, -⟩
  · have hempty : spots[0].2.size = 0 := by rw [hblock]; rfl
    have hencode : spots[0].2.encode.length = spots[0].2.header.length := by
      rw [Block.encode, List.length_append]
      exact congrArg (spots[0].2.header.length + ·) hempty
    have hstart : startOf spots 1 = 0 := by
      rw [startOf_succ hspot, hempty]
      rfl
    refine ⟨⟨src₂, .ready, id, 1, told spots⟩, ?_, ?_, by simp⟩
    · have hhead : getStartOffsetInSrc (told spots) = .ok spots[0].1 := by
        rw [getStartOffsetInSrc, List.head?_eq_getElem?, getElem?_told hspot]
      refine Except.bind_eq_ok.mpr ⟨_, hhead, ?_⟩
      refine Except.bind_eq_ok.mpr ⟨_, runOn_eq_ok.mpr (liftIo_eq_ok.mpr hseek), ?_⟩
      refine Except.bind_eq_ok.mpr ⟨_, runOn_eq_ok.mpr hrun, ?_⟩
      rw [hblock]
      rfl
    · have hleads := h.shown.next hspot hspot'
      rw [hencode] at hleads
      have hready := EntryAt.ready hspot' hsrc₂ hleads
      rwa [hstart] at hready
  · cases hi
  · cases hi

end Move

/-- A stream of blocks shows those of each of its entries. -/
theorem overEntry_spread {σ : Type} [Patience] [Read Error σ] [Seek Error σ] {closed : Prop}
    {S : Bytes} {At : σ → ℕ → Prop} {Live : σ → Prop} (h : IsCursor closed S At Live)
    (hzero : ∀ {s p}, At s p → ∃ s', Read.read 0 s = .ok [] s' ∧ At s' p) (hlt : S.length < i64Size)
    {before rest : Bytes} {blocks : List Block} (hS : S = before ++ (blocks.flatMap Block.encode ++ rest))
    (hvalid : ∀ block ∈ blocks, block.Valid) {id : ArchiveEntryId} {entry : Entry}
    (hmade : entry.IsMadeOf id (blocks.filter fun block => block.id = id)) :
    OverEntry closed S At Live id (spread before.length blocks id) entry := by
  have hmade' : entry.IsMadeOf id ((spread before.length blocks id).map Prod.snd) := by
    rwa [map_snd_spread]
  have hencode : (blocks.flatMap Block.encode).length ≤ S.length := by
    rw [hS, List.length_append, List.length_append]
    omega
  refine ⟨h, hzero, shown_spread hvalid hS, hmade', ?_, ?_⟩
  · have hlength := length_filter_le_encode blocks id
    rw [← map_snd_spread before.length, List.length_map] at hlength
    have hsize := i64Size_lt_u64Size
    omega
  · have hdata := length_data_le_encode blocks id
    rw [← map_snd_spread before.length, List.flatMap_map] at hdata
    rw [← length_contentOf hmade']
    exact lt_of_le_of_lt (hdata.trans hencode) hlt

/-- Wherever the blocks of an entry stand between those of others, a reader that is told their
places answers any calls as a cursor over the content of the entry does. A seek out of the content
is refused and changes nothing; what a seek answers that counts from the end, or from behind the
end, is the size of the entry; and a chunk of length zero is read as nothing. -/
theorem new_follows_entry {σ : Type} [Patience] [Read Error σ] [Seek Error σ] {closed : Prop}
    {S : Bytes} {At : σ → ℕ → Prop} {Live : σ → Prop} (h : IsCursor closed S At Live)
    (hzero : ∀ {s p}, At s p → ∃ s', Read.read 0 s = .ok [] s' ∧ At s' p) (hlt : S.length < i64Size)
    {before rest : Bytes} {blocks : List Block} (hS : S = before ++ (blocks.flatMap Block.encode ++ rest))
    (hvalid : ∀ block ∈ blocks, block.Valid) {id : ArchiveEntryId} {entry : Entry}
    (hmade : entry.IsMadeOf id (blocks.filter fun block => block.id = id)) {src : σ} (hsrc : Live src)
    (calls : List ReaderCall) :
    ∃ s, ArchiveEntryDataReader.new src (told (spread before.length blocks id)) = .ok s ∧
      FollowsEntry entry 0 false s calls := by
  have hover := overEntry_spread h hzero hlt hS hvalid hmade
  obtain ⟨s, hnew, hs, hstate⟩ := hover.new_at hsrc
  exact ⟨s, hnew, hover.follows calls hs (iff_of_false Bool.false_ne_true hstate)⟩

namespace TwoEntries

/-- The two chunks of one entry, between the blocks of another. -/
def interleaved : List Block :=
  [.entryStart 0 nameA none, .entryStart 1 nameB none, .entryContent 0 none [1, 2, 3],
    .entryContent 1 none [9], .endOfEntry 1 none hash, .entryContent 0 none [4, 5],
    .endOfEntry 0 none hash]

def entryA : Entry := ⟨nameA, [[1, 2, 3], [4, 5]], hash⟩

def interleavedStream : Bytes := [7, 7] ++ (interleaved.flatMap Block.encode ++ [])

theorem interleaved_valid : ∀ block ∈ interleaved, block.Valid := by
  have hcheck : ∀ block ∈ interleaved,
      block.id < u64Size ∧ block.size < u64Size ∧ block.options = none := by decide
  intro block hblock
  obtain ⟨hid, hsize, hoptions⟩ := hcheck block hblock
  exact ⟨hid, hsize, fun bytes hbytes => by rw [hoptions] at hbytes; cases hbytes⟩

theorem new_follows_entry_interleaved : ∃ s : ArchiveEntryDataReader (Cursor Error),
    ArchiveEntryDataReader.new ⟨interleavedStream, 0⟩ (told (spread 2 interleaved 0)) = .ok s ∧
      FollowsEntry entryA 0 false s
        [.read 2, .seek (.fromEnd (-1)), .read 9, .seek (.current (-9)), .seek (.start 3)] := by
  have hcursor := Cursor.isCursor (ε := Error) (show interleavedStream.length < u64Size by decide +kernel)
  have hS : interleavedStream = [7, 7] ++ (interleaved.flatMap Block.encode ++ []) := rfl
  exact new_follows_entry hcursor (fun h => hcursor.stop trivial h (.inl rfl)) (by decide +kernel) hS
    interleaved_valid ⟨none, none, [(none, [1, 2, 3]), (none, [4, 5])], rfl, rfl⟩ rfl _

end TwoEntries

end ArchiveEntryDataReader

end Mla
