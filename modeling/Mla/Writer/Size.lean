import Mathlib.Algebra.Order.BigOperators.Group.List
import Mla.Writer.Layers

/-!
# How long an archive is

The blocks of an entry are a start, at most as many pieces as its content has bytes, and an end. So
the entries tell how much room their archive takes.
-/

namespace Mla

open Io

/-! ## Entries -/

namespace Draft

/-- Room for the blocks of the entry. -/
def blocksRoom (draft : Draft) : ℕ :=
  22 + draft.name.name.length + 23 * draft.content.length + if draft.ended then 46 else 0

/-- Room for its name and the places of its blocks in the index. -/
def indexRoom (draft : Draft) : ℕ := 48 + draft.name.name.length + 16 * draft.content.length

/-- Room for the entry in an archive without layers. -/
def room (draft : Draft) : ℕ :=
  116 + 2 * draft.name.name.length + 39 * draft.content.length

theorem blocksRoom_add_indexRoom_le (draft : Draft) :
    draft.blocksRoom + draft.indexRoom ≤ draft.room := by
  rw [blocksRoom, indexRoom, room]
  split <;> omega

end Draft

/-- Room for an archive of the entries without layers. -/
def roomOf (drafts : List Draft) : ℕ := 40 + (drafts.map Draft.room).sum

theorem sum_map_set {α : Type} (w : α → ℕ) : ∀ {l : List α} {i : ℕ} {a b : α}, l[i]? = some a →
    ((l.set i b).map w).sum + w a = (l.map w).sum + w b
  | [], i, a, b, h => by cases h
  | a' :: l, 0, a, b, h => by
      obtain rfl := Option.some.inj h
      rw [List.set_cons_zero, List.map_cons, List.map_cons, List.sum_cons, List.sum_cons]
      omega
  | a' :: l, i + 1, a, b, h => by
      have ih := sum_map_set w (l := l) (b := b) h
      rw [List.set_cons_succ, List.map_cons, List.map_cons, List.sum_cons, List.sum_cons]
      omega

/-! ## Blocks -/

namespace Written

theorem length_magic : archiveEntryBlockMagic.length = 4 := rfl

theorem length_opts : emptyOptsSerialization.length = 1 := rfl

theorem length_encode_entryStart (id : ArchiveEntryId) (name : EntryName) :
    (entryStart id name).encode.length = 22 + name.name.length := by
  simp only [encode, header, data, Block.header, EntryName.encode, encodeOptions, List.length_append,
    List.length_cons, List.length_nil, length_leBytes, length_magic, length_opts]
  omega

theorem length_encode_entryContent (id : ArchiveEntryId) (size : ℕ) (data : Bytes) :
    (entryContent id size data).encode.length = 22 + data.length := by
  simp only [encode, header, Written.data, List.length_append, List.length_cons, length_leBytes,
    length_magic, length_opts]

theorem length_encode_endOfEntry (id : ArchiveEntryId) (hash : Sha256Hash) :
    (endOfEntry id hash).encode.length = 46 := by
  simp only [encode, header, data, Block.header, encodeOptions, List.length_append, List.length_cons,
    List.length_nil, length_leBytes, length_magic, length_opts, Vector.length_toList]

end Written

theorem ArchiveFooter.length_encodeInfo (info : EntryInfo) :
    (encodeInfo info).length = 8 + 16 * info.offsetsAndSizes.length := by
  have hplaces : (info.offsetsAndSizes.flatMap fun offsetAndSize =>
      leBytes 8 offsetAndSize.1 ++ leBytes 8 offsetAndSize.2).length =
        16 * info.offsetsAndSizes.length := by
    induction info.offsetsAndSizes with
    | nil => rfl
    | cons offsetAndSize rest ih =>
        rw [List.flatMap_cons, List.length_append, List.length_append, length_leBytes, length_leBytes, ih,
          List.length_cons]
        omega
  rw [encodeInfo, encodeVec, List.length_append, length_leBytes, hplaces]

namespace Journal

variable [Sha256] {j : Journal} {id : ArchiveEntryId} {draft : Draft}

/-- The index of an entry has a place for each of its blocks. -/
theorem Sound.length_index_le (h : j.Sound) (hwhole : ∀ block ∈ j.blocks, block.Whole)
    (hdraft : j.drafts[id]? = some draft) :
    (j.index id).offsetsAndSizes.length ≤ 2 + draft.content.length := by
  obtain ⟨pieces, hpieces, hcontent, hown⟩ := h.tells id draft hdraft
  have hle : pieces.length ≤ draft.content.length := by
    rw [← hcontent]
    have hpos : ∀ piece ∈ pieces, 1 ≤ piece.2.length := by
      intro piece hpiece
      have hmem : Written.entryContent id piece.1 piece.2 ∈
          j.blocks.filter fun block => block.id = id := by
        rw [hown]
        exact List.mem_cons_of_mem _ (List.mem_append_left _ (List.mem_map_of_mem hpiece))
      have hsize : piece.2.length = piece.1 := hwhole _ (List.mem_of_mem_filter hmem)
      have hne := hpieces piece hpiece
      omega
    clear hown hcontent hpieces
    induction pieces with
    | nil => exact Nat.le_refl _
    | cons piece pieces ih =>
        have hrest := ih fun other hother => hpos other (List.mem_cons_of_mem _ hother)
        have hfirst := hpos piece List.mem_cons_self
        rw [List.flatMap_cons, List.length_append, List.length_cons]
        omega
  have hplaces := congrArg List.length (map_snd_places (fun block : Written => block.encode.length)
    Written.id id entriesHeader.length j.blocks)
  rw [List.length_map, hown] at hplaces
  rw [index, List.length_map, hplaces, List.length_cons, List.length_append, List.length_map]
  split
  · rw [List.length_singleton]
    omega
  · rw [List.length_nil]
    omega

/-- The index that is written, and its length. -/
theorem Sound.length_footer_le (h : j.Sound) (hwhole : ∀ block ∈ j.blocks, block.Whole) :
    (ArchiveFooter.encodeFooter j.listed).length ≤ 17 + (j.drafts.map Draft.indexRoom).sum := by
  have hperm : j.listed.Perm (j.drafts.mapIdx fun id draft => (draft.name, j.index id)) :=
    List.mergeSort_perm _ _
  have hentry : ∀ x ∈ j.drafts.zipIdx,
      (ArchiveFooter.encodeEntry (x.1.name, j.index x.2)).length ≤ x.1.indexRoom := by
    intro x hx
    have hle := h.length_index_le hwhole (List.mem_zipIdx_iff_getElem?.mp hx)
    rw [ArchiveFooter.encodeEntry, List.length_append, EntryName.encode, List.length_append,
      length_leBytes, ArchiveFooter.length_encodeInfo, Draft.indexRoom]
    dsimp only
    omega
  have hentries : (j.listed.flatMap ArchiveFooter.encodeEntry).length ≤
      (j.drafts.map Draft.indexRoom).sum := by
    have hdrafts : j.drafts.map Draft.indexRoom = j.drafts.zipIdx.map fun x => x.1.indexRoom :=
      (congrArg (List.map Draft.indexRoom) (List.zipIdx_map_fst 0 j.drafts)).symm.trans List.map_map
    rw [(hperm.flatMap_right ArchiveFooter.encodeEntry).length_eq, List.length_flatMap,
      List.mapIdx_eq_zipIdx_map, List.map_map, hdrafts]
    exact List.sum_le_sum hentry
  rw [ArchiveFooter.encodeFooter, ArchiveFooter.encodeIndex, ArchiveFooter.encodeEntries, encodeVec,
    List.length_append, List.length_append, List.length_append, length_leBytes, length_leBytes,
    List.length_singleton]
  omega

theorem Sound.length_stream_le (h : j.Sound) (hwhole : ∀ block ∈ j.blocks, block.Whole)
    (hblocks : j.encode.length ≤ 9 + (j.drafts.map Draft.blocksRoom).sum) :
    j.stream.length ≤ roomOf j.drafts := by
  have hfooter := h.length_footer_le hwhole
  have hend : encodeEndOfArchiveData.length = 5 := rfl
  have htail : emptyTailOptsSerialization.length = 9 := rfl
  have hsum : (j.drafts.map Draft.blocksRoom).sum + (j.drafts.map Draft.indexRoom).sum ≤
      (j.drafts.map Draft.room).sum := by
    rw [← List.sum_map_add]
    exact List.sum_le_sum fun draft _ => draft.blocksRoom_add_indexRoom_le
  rw [stream, body, List.length_append, List.length_append, List.length_append, hend, htail, roomOf]
  omega

end Journal

/-! ## Layers -/

namespace ArchiveWriterConfig

variable [Kem] [SignatureSchemes] (config : ArchiveWriterConfig)

theorem compressionRoom_mono {m n : ℕ} (cap : ℕ) (h : m ≤ n) :
    config.compressionRoom cap m ≤ config.compressionRoom cap n := by
  rw [compressionRoom, compressionRoom]
  split
  · have hblocks : (cap + 4) * (m / uncompressedDataSize + 2) ≤ (cap + 4) * (n / uncompressedDataSize + 2) :=
      Nat.mul_le_mul_left _ (Nat.add_le_add_right (Nat.div_le_div_right h) 2)
    rw [CompressionLayerWriter.room, CompressionLayerWriter.room]
    omega
  · exact h

theorem room_mono {m n : ℕ} (cap : ℕ) (h : m ≤ n) : config.room cap m ≤ config.room cap n :=
  Nat.add_le_add_right (config.signatureRoom_mono (config.encryptionRoom_mono
    (config.compressionRoom_mono cap h))) 30

end ArchiveWriterConfig

end Mla
