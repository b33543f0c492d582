import Mla.Reader.Archive
import Mla.Reader.Opened
import Mla.Writer.Finalized

/-!
# Reading back what was written

The stream of a journal whose entries are all ended, and whose sources supplied what they were said
to, is opened: the index that is read lists the entries of the journal, and any calls on the archive
are answered from their names, contents and hashes.
-/

namespace Mla

open Io

/-! ## The entries of a journal -/

def Written.chunk : Written → Option Bytes
  | entryContent _ _ data => some data
  | _ => none

namespace Journal

variable [Sha256] {j : Journal} {id : ArchiveEntryId} {draft : Draft} {name : EntryName} {entry : Entry}

/-- The entry of the format that an ended entry of the journal is. -/
def entryOf (j : Journal) (id : ArchiveEntryId) (draft : Draft) : Entry :=
  ⟨draft.name, (j.blocks.filter fun block => block.id = id).filterMap Written.chunk,
    Sha256.digest draft.content⟩

def entries (j : Journal) (name : EntryName) : Option Entry := do
  let id ← j.names.idxOf? name
  let draft ← j.drafts[id]?
  some (j.entryOf id draft)

/-- Without two entries of one name, each is found under its own. -/
theorem Sound.entries_eq_some (h : j.Sound) : j.entries name = some entry ↔
    ∃ (id : ArchiveEntryId) (draft : Draft), j.drafts[id]? = some draft ∧ draft.name = name ∧
      j.entryOf id draft = entry := by
  have hindex : ∀ id, j.names.idxOf? name = some id ↔ j.names[id]? = some name := by
    intro id
    rw [List.idxOf?_eq_some_iff, List.getElem?_eq_some_iff]
    constructor
    · rintro ⟨hlt, heq, -⟩
      exact ⟨hlt, heq⟩
    · rintro ⟨hlt, heq⟩
      refine ⟨hlt, heq, fun k hk hsame => ?_⟩
      exact absurd ((h.nodup.getElem_inj_iff).mp (hsame.trans heq.symm)) (Nat.ne_of_lt hk)
  rw [entries, Option.bind_eq_bind, Option.bind_eq_some_iff]
  constructor
  · rintro ⟨id, hid, hentry⟩
    obtain ⟨draft, hdraft, hentry⟩ := Option.bind_eq_some_iff.mp hentry
    rw [hindex, names, List.getElem?_map, hdraft] at hid
    exact ⟨id, draft, hdraft, Option.some.inj hid, Option.some.inj hentry⟩
  · rintro ⟨id, draft, hdraft, hname, hentry⟩
    refine ⟨id, ?_, Option.bind_eq_some_iff.mpr ⟨draft, hdraft, congrArg some hentry⟩⟩
    rw [hindex, names, List.getElem?_map, hdraft, ← hname]
    rfl

/-- The pieces that an ended entry of the journal consists of. -/
theorem Sound.pieces (h : j.Sound) (hdraft : j.drafts[id]? = some draft)
    (hended : draft.ended = true) : ∃ pieces : List (ℕ × Bytes),
      (∀ piece ∈ pieces, piece.1 ≠ 0) ∧ pieces.flatMap Prod.snd = draft.content ∧
      (j.blocks.filter fun block => block.id = id) = .entryStart id draft.name ::
        (pieces.map (fun piece => .entryContent id piece.1 piece.2) ++
          [.endOfEntry id (Sha256.digest draft.content)]) ∧
      (j.entryOf id draft).chunks = pieces.map Prod.snd := by
  obtain ⟨pieces, hsizes, hcontent, hown⟩ := h.tells id draft hdraft
  rw [hended, if_pos rfl] at hown
  refine ⟨pieces, hsizes, hcontent, hown, ?_⟩
  have hchunks : (pieces.map fun piece => Written.entryContent id piece.1 piece.2).filterMap
      Written.chunk = pieces.map Prod.snd := by
    rw [List.filterMap_map, ← List.filterMap_eq_map]
    rfl
  rw [entryOf, hown, List.filterMap_cons_none rfl, List.filterMap_append, hchunks]
  exact List.append_nil _

theorem Sound.entryOf_made (h : j.Sound) (hdraft : j.drafts[id]? = some draft)
    (hended : draft.ended = true) : (j.entryOf id draft).IsMadeOf id
      ((j.blocks.map Written.block).filter fun block => block.id = id) := by
  obtain ⟨pieces, -, -, hown, hchunks⟩ := h.pieces hdraft hended
  have hfilter : (j.blocks.map Written.block).filter (fun block => block.id = id) =
      (j.blocks.filter fun block => block.id = id).map Written.block := by
    rw [List.filter_map]
    congr 2
    funext block
    rw [Function.comp_apply, Written.id_block]
  refine ⟨none, none, pieces.map fun piece => (none, piece.2), ?_, ?_⟩
  · rw [hchunks, List.map_map]
    rfl
  · rw [hfilter, hown, List.map_cons, List.map_append, List.map_map, List.map_map, List.map_singleton]
    rfl

theorem Sound.entryOf_content (h : j.Sound) (hdraft : j.drafts[id]? = some draft)
    (hended : draft.ended = true) : (j.entryOf id draft).content = draft.content := by
  obtain ⟨pieces, -, hcontent, -, hchunks⟩ := h.pieces hdraft hended
  rw [Entry.content, hchunks, ← List.flatMap_def, hcontent]

/-- What is found under a name is what was given to its entry. -/
theorem Sound.entries_content (h : j.Sound) (hended : j.AllEnded) :
    ∀ draft ∈ j.drafts, (j.entries draft.name).map Entry.content = some draft.content := by
  intro draft hmem
  obtain ⟨id, hdraft⟩ := List.getElem?_of_mem hmem
  rw [h.entries_eq_some.mpr ⟨id, draft, hdraft, rfl, rfl⟩, Option.map_some,
    h.entryOf_content hdraft (hended draft hmem)]

/-- Where the sources supplied what they were said to, no chunk is empty. -/
theorem Sound.entryOf_not_emptyAt (h : j.Sound) (hdraft : j.drafts[id]? = some draft)
    (hended : draft.ended = true) (hwhole : ∀ block ∈ j.blocks, block.Whole) (c : ℕ) :
    ¬ (j.entryOf id draft).EmptyAt c := by
  obtain ⟨pieces, hsizes, -, hown, hchunks⟩ := h.pieces hdraft hended
  rintro ⟨i, hchunk, -⟩
  rw [hchunks, List.getElem?_map, Option.map_eq_some_iff] at hchunk
  obtain ⟨⟨size, data⟩, hpiece, rfl⟩ := hchunk
  have hmem := List.mem_of_getElem? hpiece
  have hblock : Written.entryContent id size [] ∈ j.blocks.filter fun block => block.id = id := by
    rw [hown]
    exact List.mem_cons_of_mem _ (List.mem_append_left _ (List.mem_map.mpr ⟨_, hmem, rfl⟩))
  exact hsizes _ hmem (hwhole _ (List.mem_of_mem_filter hblock)).symm

/-! ## The stream of a journal -/

theorem Sound.valid_block (h : j.Sound) (hlen : j.encode.length < u64Size)
    (hwhole : ∀ block ∈ j.blocks, block.Whole) :
    ∀ block ∈ j.blocks.map Written.block, block.Valid := by
  intro block hblock
  obtain ⟨written, hwritten, rfl⟩ := List.mem_map.mp hblock
  have hencode : written.encode.length ≤ j.encode.length := by
    obtain ⟨earlier, later, hblocks⟩ := List.append_of_mem hwritten
    rw [Journal.encode, hblocks, List.flatMap_append, List.flatMap_cons, List.length_append,
      List.length_append, List.length_append]
    omega
  have hsize := written.block.size_le_encode
  rw [(hwhole _ hwritten).encode_block] at hsize
  refine ⟨?_, by omega, ?_⟩
  · rw [Written.id_block]
    have hid := h.known _ hwritten
    have hdrafts := h.length_drafts_le
    have hblocks := j.length_blocks_le
    exact lt_of_lt_of_le hid (hdrafts.trans (hblocks.trans hlen.le))
  · cases written <;> simp [Written.block, Block.options]

omit [Sha256] in
theorem encode_blocks (hwhole : ∀ block ∈ j.blocks, block.Whole) :
    (j.blocks.map Written.block).flatMap Block.encode = j.blocks.flatMap Written.encode := by
  rw [List.flatMap_map]
  exact List.flatMap_congr fun block hblock => (hwhole block hblock).encode_block

omit [Sha256] in
/-- The index of the journal tells where the blocks of the format are. -/
theorem told_spread (hwhole : ∀ block ∈ j.blocks, block.Whole) (id : ArchiveEntryId) :
    (⟨told (spread entriesHeader.length (j.blocks.map Written.block) id)⟩ : EntryInfo) = j.index id := by
  have hplaces : spread entriesHeader.length (j.blocks.map Written.block) id =
      (places (fun block : Written => block.encode.length) Written.id id entriesHeader.length
        j.blocks).map fun place => (place.1, place.2.block) :=
    places_map _ _ id _ (fun block hblock => congrArg List.length (hwhole block hblock).encode_block)
      fun block _ => block.id_block
  rw [told, hplaces, List.map_map, index]
  congr 1
  refine List.map_congr_left fun place hplace => ?_
  obtain ⟨earlier, later, hblocks, -, -⟩ := (mem_places_iff _ _).mp hplace
  have hmem : place.2 ∈ j.blocks := by
    rw [hblocks]
    exact List.mem_append_right _ List.mem_cons_self
  rw [Function.comp_apply, (hwhole _ hmem).size_block]

omit [Sha256] in
/-- What a footer says of an entry of the journal fits its fields. -/
theorem validInfo_index (hlen : j.encode.length < u64Size) (hwhole : ∀ block ∈ j.blocks, block.Whole)
    (id : ArchiveEntryId) : ArchiveFooter.ValidInfo (j.index id) where
  length_lt := by
    have hfilter := length_filter_le_encode (j.blocks.map Written.block) id
    rw [encode_blocks hwhole, ← map_snd_spread entriesHeader.length, List.length_map] at hfilter
    rw [← told_spread hwhole, told, List.length_map]
    rw [encode, List.length_append] at hlen
    omega
  offset_lt := by
    intro offsetAndSize hmem
    obtain ⟨⟨p, block⟩, hplace, rfl⟩ := List.mem_map.mp hmem
    obtain ⟨earlier, later, hblocks, -, rfl⟩ := (mem_places_iff _ _).mp hplace
    have hblock : block ∈ j.blocks := by
      rw [hblocks]
      exact List.mem_append_right _ List.mem_cons_self
    have hsize := block.block.size_le_encode
    rw [(hwhole _ hblock).encode_block, (hwhole _ hblock).size_block] at hsize
    have hextent : extent (fun block : Written => block.encode.length) earlier =
        (earlier.flatMap Written.encode).length := extent_length _ _
    rw [encode, hblocks, List.flatMap_append, List.flatMap_cons, List.length_append,
      List.length_append, List.length_append] at hlen
    change entriesHeader.length + extent _ earlier < u64Size ∧ block.size < u64Size
    rw [hextent]
    exact ⟨by omega, by omega⟩

omit [Sha256] in
theorem mem_listed {info : EntryInfo} : (name, info) ∈ j.listed ↔
    ∃ (id : ArchiveEntryId) (draft : Draft), j.drafts[id]? = some draft ∧ draft.name = name ∧
      j.index id = info := by
  rw [listed, ArchiveFooter.sortByName, List.mem_mergeSort, mem_listed_iff]

theorem Sound.lookup_listed (h : j.Sound) {info : EntryInfo} :
    (ArchiveFooter.collect j.listed).lookup name = some info ↔
      ∃ (id : ArchiveEntryId) (draft : Draft), j.drafts[id]? = some draft ∧ draft.name = name ∧
        j.index id = info := by
  have hperm : j.listed.Perm (j.drafts.mapIdx fun id draft => (draft.name, j.index id)) :=
    List.mergeSort_perm _ _
  have hnodup : (j.listed.map Prod.fst).Nodup := by
    rw [(hperm.map Prod.fst).nodup_iff, map_fst_listed]
    exact h.nodup
  rw [ArchiveFooter.lookup_collect hnodup, mem_listed]

/-- The index that is read has the names of the entries, in some order. -/
theorem Sound.keys_listed (h : j.Sound) : (ArchiveFooter.collect j.listed).keys.Perm j.names := by
  rw [List.perm_ext_iff_of_nodup (AList.keys_nodup _) h.nodup]
  intro name
  rw [← AList.mem_keys, ← AList.lookup_isSome, Option.isSome_iff_exists, names, List.mem_map]
  constructor
  · rintro ⟨info, hinfo⟩
    obtain ⟨id, draft, hdraft, hname, -⟩ := h.lookup_listed.mp hinfo
    exact ⟨draft, List.mem_of_getElem? hdraft, hname⟩
  · rintro ⟨draft, hmem, hname⟩
    obtain ⟨id, hdraft⟩ := List.getElem?_of_mem hmem
    exact ⟨_, h.lookup_listed.mpr ⟨id, draft, hdraft, hname, rfl⟩⟩

end Journal

/-! ## The archive that is opened -/

section ReadBack

variable {ρ : Type} [Patience] [Sha256] [AesGcm] [BrotliDecompressor] [Read Error ρ] [Seek Error ρ]
  {j : Journal} {closed : Prop} {View : LayerStack ρ → ℕ → Prop} {LiveView : LayerStack ρ → Prop}

/-- A stack that shows the stream of the journal is opened as an archive of its entries. -/
theorem ArchiveReader.readEntries_stream (hsound : j.Sound) (hended : j.AllEnded)
    (hwhole : ∀ block ∈ j.blocks, block.Whole) (hlen : j.stream.length < i64Size)
    (hcursor : IsCursor closed j.stream View LiveView)
    (hzero : ∀ {s p}, View s p → ∃ s', Read.read 0 s = .ok [] s' ∧ View s' p) {src : LayerStack ρ}
    (hsrc : LiveView src) :
    ∃ reader, readEntries src = .ok reader ∧
      (∃ names, reader.listEntries = .ok names ∧ names.Perm j.names) ∧
      ∀ calls, FollowsArchive j.entries reader calls := by
  have hword := i64Size_lt_u64Size
  have hbody : j.stream = entriesHeader ++ (j.blocks.flatMap Written.encode ++
      (encodeEndOfArchiveData ++ ArchiveFooter.encodeFooter j.listed ++ emptyTailOptsSerialization)) := by
    simp only [Journal.stream, Journal.body, Journal.encode, List.append_assoc]
  have hencode : j.encode.length < u64Size := by
    rw [Journal.stream, Journal.body, List.length_append, List.length_append, List.length_append] at hlen
    omega
  have hlisted : j.listed.length < u64Size := by
    have hperm : j.listed.Perm (j.drafts.mapIdx fun id draft => (draft.name, j.index id)) :=
      List.mergeSort_perm _ _
    rw [hperm.length_eq, List.length_mapIdx]
    exact lt_of_le_of_lt (hsound.length_drafts_le.trans j.length_blocks_le) hencode
  have hindex : Parses (ArchiveFooter.deserializeFrom : EStateM Error (LayerStack ρ) _)
      (ArchiveFooter.encodeIndex j.listed) (some (ArchiveFooter.collect j.listed)) := by
    refine ArchiveFooter.parses_index hlisted fun entry hentry => ?_
    obtain ⟨id, draft, -, -, hinfo⟩ := Journal.mem_listed.mp hentry
    rw [← hinfo]
    exact Journal.validInfo_index hencode hwhole id
  obtain ⟨reader, hread, hmetadata, hview⟩ := readEntries_eq hcursor hlen hindex
    (show j.body = entriesLayerMagic ++ (emptyOptsSerialization ++ _) from by
      simp only [Journal.body, Journal.encode, entriesHeader, List.append_assoc]
      rfl) hsrc
  refine ⟨reader, hread, ⟨_, ?_, hsound.keys_listed⟩, fun calls => ?_⟩
  · rw [listEntries, hmetadata]
  · have hindexes : Indexes closed j.stream View LiveView j.entries
        (ArchiveFooter.collect j.listed) := by
      constructor
      · intro name hnone
        refine Option.eq_none_iff_forall_not_mem.mpr fun info hinfo => ?_
        obtain ⟨id, draft, hdraft, hname, -⟩ := hsound.lookup_listed.mp hinfo
        rw [hsound.entries_eq_some.mpr ⟨id, draft, hdraft, hname, rfl⟩] at hnone
        cases hnone
      · intro name entry hentry
        obtain ⟨id, draft, hdraft, hname, rfl⟩ := hsound.entries_eq_some.mp hentry
        refine ⟨id, spread entriesHeader.length (j.blocks.map Written.block) id, ?_, ?_⟩
        · rw [Journal.told_spread hwhole]
          exact hsound.lookup_listed.mpr ⟨id, draft, hdraft, hname, rfl⟩
        · rw [← Journal.encode_blocks hwhole] at hbody
          exact ArchiveEntryDataReader.overEntry_spread hcursor hzero hlen hbody
            (hsound.valid_block hencode hwhole)
            (hsound.entryOf_made hdraft (hended _ (List.mem_of_getElem? hdraft)))
    exact hindexes.follows calls hmetadata (hcursor.live hview)

end ReadBack

end Mla
