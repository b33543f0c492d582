import Mla.Entries.Codec
import Mla.Io.Laid

/-!
# An entry among others

The blocks of an entry are spread over the stream of all blocks: between two of them may stand
those of other entries, which start with a header of their own.
-/

namespace Mla

open Io

/-- The blocks of an entry, with the positions of their headers. -/
def spread (base : ℕ) (blocks : List Block) (id : ArchiveEntryId) : List (ℕ × Block) :=
  places (fun block => block.encode.length) Block.id id base blocks

/-- What the index tells of some blocks. -/
def told (spots : List (ℕ × Block)) : List (ℕ × ℕ) :=
  spots.map fun spot => (spot.1, spot.2.size)

/-- An entry of the format. -/
structure Entry where
  name : EntryName
  chunks : List Bytes
  hash : Sha256Hash

namespace Entry

def content (entry : Entry) : Bytes := entry.chunks.flatten

/-- A chunk of length zero starts at position `c` of the content. -/
def EmptyAt (entry : Entry) (c : ℕ) : Prop :=
  ∃ i, entry.chunks[i]? = some [] ∧ (entry.chunks.take i).flatten.length = c

/-- The blocks are those of the entry, with any options. -/
def IsMadeOf (entry : Entry) (id : ArchiveEntryId) (own : List Block) : Prop :=
  ∃ (startOptions endOptions : Option Bytes) (chunks : List (Option Bytes × Bytes)),
    chunks.map Prod.snd = entry.chunks ∧
    own = .entryStart id entry.name startOptions ::
      (chunks.map (fun chunk => .entryContent id chunk.1 chunk.2) ++
        [.endOfEntry id endOptions entry.hash])

end Entry

/-- At `q` stands the block at `p`, or the header of a block of another entry. -/
def LeadsTo (S : Bytes) (id : ArchiveEntryId) (q p : ℕ) : Prop :=
  q = p ∨ ∃ block : Block, block.Valid ∧ block.id ≠ id ∧ block.header <+: S.drop q

/-- The blocks stand where they are said to, and behind each of them something leads to the next. -/
structure Shown (S : Bytes) (id : ArchiveEntryId) (spots : List (ℕ × Block)) : Prop where
  spot : ∀ spot ∈ spots, spot.2.Valid ∧ spot.2.id = id ∧ spot.2.encode <+: S.drop spot.1
  next : ∀ {k : ℕ} {spot spot' : ℕ × Block}, spots[k]? = some spot → spots[k + 1]? = some spot' →
    LeadsTo S id (spot.1 + spot.2.encode.length) spot'.1

section Spread

variable {S before rest : Bytes} {blocks : List Block} {id : ArchiveEntryId}

theorem drop_extent (hS : S = before ++ (blocks.flatMap Block.encode ++ rest)) {earlier later : List Block}
    (hblocks : blocks = earlier ++ later) :
    S.drop (before.length + extent (fun block : Block => block.encode.length) earlier) =
      later.flatMap Block.encode ++ rest := by
  have hextent : extent (fun block : Block => block.encode.length) earlier =
      (earlier.flatMap Block.encode).length := extent_length _ _
  rw [hS, hblocks, hextent, List.flatMap_append, ← List.drop_drop, List.drop_left, List.append_assoc,
    List.drop_left]

theorem getElem?_split {α : Type} {l : List α} {k : ℕ} {a : α} (h : l[k]? = some a) :
    l = l.take k ++ a :: l.drop (k + 1) := by
  obtain ⟨hlt, rfl⟩ := List.getElem?_eq_some_iff.mp h
  rw [← List.drop_eq_getElem_cons hlt, List.take_append_drop]

/-- In a stream of blocks, the blocks of an entry are shown at their places. -/
theorem shown_spread (hvalid : ∀ block ∈ blocks, block.Valid)
    (hS : S = before ++ (blocks.flatMap Block.encode ++ rest)) :
    Shown S id (spread before.length blocks id) where
  spot := by
    rintro ⟨p, block⟩ hspot
    obtain ⟨earlier, later, hblocks, hid, rfl⟩ := (mem_places_iff _ _).mp hspot
    refine ⟨hvalid block (hblocks ▸ List.mem_append_right _ List.mem_cons_self), hid, ?_⟩
    rw [drop_extent hS hblocks, List.flatMap_cons, List.append_assoc]
    exact List.prefix_append _ _
  next := by
    rintro k ⟨p, block⟩ ⟨p', block'⟩ hspot hspot'
    have hsplit := getElem?_split hspot
    have hhead : (spread before.length blocks id).drop (k + 1) =
        (p', block') :: (spread before.length blocks id).drop (k + 2) := by
      obtain ⟨hlt, heq⟩ := List.getElem?_eq_some_iff.mp hspot'
      rw [List.drop_eq_getElem_cons hlt, heq]
    rw [hhead] at hsplit
    obtain ⟨earlier, later, hblocks, -, rfl, -, hlater⟩ := places_eq_append_cons _ _ hsplit
    cases later with
    | nil => cases hlater
    | cons other later =>
        by_cases hid : other.id = id
        · rw [places_cons_of_eq _ _ _ hid] at hlater
          exact .inl (congrArg Prod.fst (List.cons.inj hlater).1).symm
        · refine .inr ⟨other, hvalid other ?_, hid, ?_⟩
          · rw [hblocks]
            exact List.mem_append_right _ (List.mem_cons_of_mem _ List.mem_cons_self)
          · have hblocks' : blocks = (earlier ++ [block]) ++ other :: later := by
              rw [hblocks, List.append_assoc, List.singleton_append]
            have hdrop := drop_extent hS hblocks'
            rw [extent_append, extent_cons, extent_nil, Nat.add_zero, ← Nat.add_assoc] at hdrop
            rw [hdrop, List.flatMap_cons, List.append_assoc, Block.encode, List.append_assoc]
            exact List.prefix_append _ _

theorem Block.encode_pos (block : Block) : 0 < block.encode.length := by
  rw [encode, List.length_append]
  exact Nat.add_pos_left (by cases block <;> exact Nat.succ_pos _) _

theorem Block.size_le_encode (block : Block) : block.size ≤ block.encode.length := by
  rw [encode, List.length_append]
  exact Nat.le_add_left _ _

/-- What the blocks of an entry take is no more than what all blocks do. -/
theorem sum_filter_le_encode {f : Block → ℕ} (hf : ∀ block, f block ≤ block.encode.length)
    (blocks : List Block) (id : ArchiveEntryId) :
    ((blocks.filter fun block => block.id = id).map f).sum ≤ (blocks.flatMap Block.encode).length := by
  induction blocks with
  | nil => rfl
  | cons block blocks ih =>
      have hblock := hf block
      rw [List.flatMap_cons, List.length_append]
      by_cases hid : block.id = id
      · rw [List.filter_cons_of_pos (by simpa using hid), List.map_cons, List.sum_cons]
        omega
      · rw [List.filter_cons_of_neg (by simpa using hid)]
        omega

theorem length_filter_le_encode (blocks : List Block) (id : ArchiveEntryId) :
    (blocks.filter fun block => block.id = id).length ≤ (blocks.flatMap Block.encode).length := by
  have hsum := sum_filter_le_encode Block.encode_pos blocks id
  rwa [List.map_const', List.sum_replicate_nat, Nat.mul_one] at hsum

theorem length_data_le_encode (blocks : List Block) (id : ArchiveEntryId) :
    ((blocks.filter fun block => block.id = id).flatMap Block.data).length ≤
      (blocks.flatMap Block.encode).length := by
  rw [List.length_flatMap]
  exact sum_filter_le_encode Block.size_le_encode blocks id

theorem map_snd_spread (base : ℕ) (blocks : List Block) (id : ArchiveEntryId) :
    (spread base blocks id).map Prod.snd = blocks.filter fun block => block.id = id :=
  map_snd_places _ _ _ _ _

end Spread

end Mla
