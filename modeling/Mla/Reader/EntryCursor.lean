import Mla.Entries.Spread
import Mla.Reader.Steps

/-!
# The reader of an entry is a cursor

Where a source shows the blocks of an entry at the places that the index tells, the reader of the
entry stands at a position of its content: between two blocks, inside the data of one, or behind the
block that ends them. What stands between two blocks of the entry is passed over. A read returns
what comes next, and nothing at the end of the content and for a chunk of length zero.
-/

namespace Mla

open Io

/-! ## The content of some blocks -/

def contentOf (spots : List (ℕ × Block)) : Bytes := spots.flatMap fun spot => spot.2.data

/-- How much of the content stands before block `k`. -/
def startOf (spots : List (ℕ × Block)) (k : ℕ) : ℕ := (contentOf (spots.take k)).length

section Content

variable {S : Bytes} {id : ArchiveEntryId} {spots : List (ℕ × Block)} {spot : ℕ × Block} {k : ℕ}
  {entry : Entry}

theorem contentOf_split (h : spots[k]? = some spot) :
    contentOf spots = contentOf (spots.take k) ++ (spot.2.data ++ contentOf (spots.drop (k + 1))) := by
  conv => lhs; rw [getElem?_split h]
  rw [contentOf, List.flatMap_append, List.flatMap_cons]
  rfl

theorem startOf_succ (h : spots[k]? = some spot) :
    startOf spots (k + 1) = startOf spots k + spot.2.size := by
  obtain ⟨hlt, rfl⟩ := List.getElem?_eq_some_iff.mp h
  rw [startOf, List.take_succ_eq_append_getElem hlt, contentOf, List.flatMap_append,
    List.flatMap_singleton, List.length_append]
  rfl

theorem startOf_add_size_le (h : spots[k]? = some spot) :
    startOf spots k + spot.2.size ≤ (contentOf spots).length := by
  rw [contentOf_split h, List.length_append, List.length_append, startOf, Block.size]
  omega

theorem slice_contentOf (h : spots[k]? = some spot) {off n : ℕ} (hn : off + n ≤ spot.2.size) :
    slice (contentOf spots) (startOf spots k + off) n = slice spot.2.data off n := by
  rw [contentOf_split h, startOf, slice_append_right (Nat.le_add_right _ _), Nat.add_sub_cancel_left,
    slice_append_left hn]

/-- A block of an entry is its start, one of its chunks, or its end. -/
theorem Entry.IsMadeOf.spot_cases (h : entry.IsMadeOf id (spots.map Prod.snd))
    (hspot : spots[k]? = some spot) :
    (k = 0 ∧ ∃ options, spot.2 = .entryStart id entry.name options) ∨
    (∃ i options data, k = i + 1 ∧ entry.chunks[i]? = some data ∧
      spot.2 = .entryContent id options data) ∨
    (k = entry.chunks.length + 1 ∧ ∃ options, spot.2 = .endOfEntry id options entry.hash) := by
  obtain ⟨startOptions, endOptions, chunks, hchunks, hown⟩ := h
  have hblock : (spots.map Prod.snd)[k]? = some spot.2 := by rw [List.getElem?_map, hspot]; rfl
  rw [hown] at hblock
  have hlength : entry.chunks.length = chunks.length := by rw [← hchunks, List.length_map]
  cases k with
  | zero =>
      rw [List.getElem?_cons_zero] at hblock
      exact .inl ⟨rfl, startOptions, (Option.some.inj hblock).symm⟩
  | succ i =>
      rw [List.getElem?_cons_succ] at hblock
      rcases Nat.lt_or_ge i chunks.length with hlt | hge
      · rw [List.getElem?_append_left (by rwa [List.length_map]), List.getElem?_map,
          List.getElem?_eq_getElem hlt] at hblock
        refine .inr (.inl ⟨i, chunks[i].1, chunks[i].2, rfl, ?_, (Option.some.inj hblock).symm⟩)
        rw [← hchunks, List.getElem?_map, List.getElem?_eq_getElem hlt]
        rfl
      · rw [List.getElem?_append_right (by rwa [List.length_map]), List.length_map,
          List.getElem?_singleton] at hblock
        split at hblock
        · rename_i hzero
          refine .inr (.inr ⟨?_, endOptions, (Option.some.inj hblock).symm⟩)
          omega
        · cases hblock

theorem Entry.IsMadeOf.length_eq (h : entry.IsMadeOf id (spots.map Prod.snd)) :
    spots.length = entry.chunks.length + 2 := by
  obtain ⟨startOptions, endOptions, chunks, hchunks, hown⟩ := h
  have hlength := congrArg List.length hown
  rw [List.length_map] at hlength
  rw [hlength, ← hchunks, List.length_cons, List.length_append, List.length_map, List.length_map,
    List.length_singleton]

theorem Entry.IsMadeOf.contentOf_eq (h : entry.IsMadeOf id (spots.map Prod.snd)) :
    contentOf spots = entry.content := by
  obtain ⟨startOptions, endOptions, chunks, hchunks, hown⟩ := h
  have hflat : contentOf spots = (spots.map Prod.snd).flatMap Block.data := by
    rw [List.flatMap_map]
    rfl
  have hdata : (chunks.map fun chunk => Block.entryContent id chunk.1 chunk.2).flatMap Block.data =
      (chunks.map Prod.snd).flatten := by
    rw [List.flatMap_map, ← List.flatMap_def]
    rfl
  rw [hflat, hown, List.flatMap_cons, List.flatMap_append, hdata, hchunks, List.flatMap_singleton,
    Entry.content]
  exact List.append_nil _

theorem Entry.IsMadeOf.startOf_succ_eq (h : entry.IsMadeOf id (spots.map Prod.snd)) {i : ℕ}
    (hi : i ≤ entry.chunks.length) : startOf spots (i + 1) = (entry.chunks.take i).flatten.length := by
  obtain ⟨startOptions, endOptions, chunks, hchunks, hown⟩ := h
  have hflat : contentOf (spots.take (i + 1)) = ((spots.map Prod.snd).take (i + 1)).flatMap Block.data := by
    rw [← List.map_take, List.flatMap_map]
    rfl
  have hlength : i ≤ chunks.length := by rwa [← List.length_map Prod.snd, hchunks]
  rw [startOf, hflat, hown, List.take_succ_cons, List.take_append_of_le_length (by rwa [List.length_map]),
    ← List.map_take, List.flatMap_cons, List.flatMap_map, ← hchunks, ← List.map_take]
  rfl

/-- There is another block behind one that is not the end. -/
theorem Entry.IsMadeOf.next_spot (h : entry.IsMadeOf id (spots.map Prod.snd))
    (hk : k ≤ entry.chunks.length) : ∃ spot', spots[k + 1]? = some spot' := by
  have hlt : k + 1 < spots.length := by rw [h.length_eq]; omega
  exact ⟨spots[k + 1], List.getElem?_eq_getElem hlt⟩

theorem getElem?_told (h : spots[k]? = some spot) :
    (told spots)[k]? = some (spot.1, spot.2.size) := by
  rw [told, List.getElem?_map, h]
  rfl

theorem Shown.lt_length (h : Shown S id spots) (hspot : spots[k]? = some spot) :
    spot.1 < S.length := by
  obtain ⟨-, -, hpre⟩ := h.spot spot (List.mem_of_getElem? hspot)
  have hlen := hpre.length_le
  have hpos := spot.2.encode_pos
  rw [List.length_drop] at hlen
  omega

end Content

/-! ## Reading -/

namespace ArchiveEntryDataReader

/-- Where the reader stands in the content. -/
inductive EntryAt {σ : Type} (At : σ → ℕ → Prop) (S : Bytes) (id : ArchiveEntryId)
    (spots : List (ℕ × Block)) : ArchiveEntryDataReader σ → ℕ → Prop
  | ready {src : σ} {q k : ℕ} {spot : ℕ × Block} (hspot : spots[k]? = some spot) (hsrc : At src q)
      (hleads : LeadsTo S id q spot.1) :
      EntryAt At S id spots ⟨src, .ready, id, k, told spots⟩ (startOf spots k)
  | inside {src : σ} {k off remaining : ℕ} {spot : ℕ × Block} (hspot : spots[k]? = some spot)
      (hsrc : At src (spot.1 + spot.2.header.length + off)) (hsum : off + remaining = spot.2.size)
      (hpos : 0 < remaining) :
      EntryAt At S id spots ⟨src, .inEntryContent remaining, id, k, told spots⟩
        (startOf spots k + off)
  | finish {src : σ} {q k : ℕ} (hsrc : At src q) :
      EntryAt At S id spots ⟨src, .finish, id, k, told spots⟩ (contentOf spots).length

/-- The blocks of the entry are shown in what the source delivers. -/
structure OverEntry {σ : Type} [Read Error σ] [Seek Error σ] (closed : Prop) (S : Bytes)
    (At : σ → ℕ → Prop) (Live : σ → Prop) (id : ArchiveEntryId) (spots : List (ℕ × Block))
    (entry : Entry) : Prop where
  cursor : IsCursor closed S At Live
  zero : ∀ {s p}, At s p → ∃ s', Read.read 0 s = .ok [] s' ∧ At s' p
  shown : Shown S id spots
  made : entry.IsMadeOf id (spots.map Prod.snd)
  length_lt : spots.length < u64Size
  content_lt : entry.content.length < i64Size

section Reading

variable {σ : Type} [Patience] [Read Error σ] [Seek Error σ] {closed : Prop} {S : Bytes}
  {At : σ → ℕ → Prop} {Live : σ → Prop} {id : ArchiveEntryId} {spots : List (ℕ × Block)}
  {spot : ℕ × Block} {entry : Entry} {k n fuel : ℕ} {src : σ}

omit [Patience] [Read Error σ] in
/-- The place that the index tells is gone to. -/
theorem moveToBlock_eq [Read Error σ] (h : IsCursor closed S At Live) (hspot : spots[k]? = some spot)
    (hlt : spot.1 < S.length) (hsrc : Live src) (id : ArchiveEntryId)
    (state : ArchiveEntryDataReaderState) :
    ∃ src', moveToBlock (⟨src, state, id, k, told spots⟩ : ArchiveEntryDataReader σ) =
        .ok () ⟨src', state, id, k, told spots⟩ ∧ At src' spot.1 := by
  obtain ⟨src', hseek, hsrc'⟩ := h.seekStart (t := spot.1) hsrc (.inl hlt)
  refine ⟨src', ?_, hsrc'⟩
  rw [moveToBlock]
  dsimp only
  rw [getElem?_told hspot]
  dsimp only
  rw [hseek]

omit [Seek Error σ] in
/-- The header of a block that is shown is parsed. -/
theorem fromReader_spot (h : Delivers closed S At) (hshown : Shown S id spots)
    (hspot : spots[k]? = some spot) (hsrc : At src spot.1) :
    ∃ src', ArchiveEntryBlock.fromReader src = .ok spot.2.parsed src' ∧
      At src' (spot.1 + spot.2.header.length) := by
  obtain ⟨hvalid, -, hpre⟩ := hshown.spot spot (List.mem_of_getElem? hspot)
  exact (parses_block hvalid).ok h hsrc ((List.prefix_append _ _).trans hpre)

/-- What stands before a block of the entry is passed over. -/
theorem readLoop_leads (h : IsCursor closed S At Live) (hshown : Shown S id spots)
    (hspot : spots[k]? = some spot) {q : ℕ} (hsrc : At src q) (hleads : LeadsTo S id q spot.1) :
    ∃ d src', d ≤ 1 ∧ At src' spot.1 ∧ ∀ fuel,
      readLoop n (fuel + d) ⟨src, .ready, id, k, told spots⟩ =
        readLoop n fuel ⟨src', .ready, id, k, told spots⟩ := by
  rcases hleads with rfl | ⟨block, hvalid, hid, hpre⟩
  · exact ⟨0, src, Nat.zero_le _, hsrc, fun _ => rfl⟩
  · obtain ⟨src₁, hrun, hsrc₁⟩ := (parses_block hvalid).ok h.toDelivers hsrc hpre
    obtain ⟨src', hmove, hsrc'⟩ := moveToBlock_eq h hspot (hshown.lt_length hspot)
      (h.live hsrc₁) id .ready
    have hforeign : block.parsed.Foreign id := by
      cases block <;> exact hid
    refine ⟨1, src', Nat.le_refl _, hsrc', fun fuel => ?_⟩
    rw [readLoop_foreign rfl hrun hforeign, bind_apply, hmove]

/-- Reading goes on at a chunk or at the end of the entry. -/
theorem readLoop_reaches (h : IsCursor closed S At Live) (hshown : Shown S id spots)
    (hmade : entry.IsMadeOf id (spots.map Prod.snd))
    (hspot : spots[k]? = some spot) {q : ℕ} (hsrc : At src q) (hleads : LeadsTo S id q spot.1) :
    ∃ d i spot' src', d ≤ 3 ∧ spots[i + 1]? = some spot' ∧ At src' spot'.1 ∧
      startOf spots (i + 1) = startOf spots k ∧ ∀ fuel,
      readLoop n (fuel + d) ⟨src, .ready, id, k, told spots⟩ =
        readLoop n fuel ⟨src', .ready, id, i + 1, told spots⟩ := by
  obtain ⟨d, src₁, hd, hsrc₁, hloop⟩ := readLoop_leads (n := n) h hshown hspot hsrc hleads
  cases k with
  | succ i => exact ⟨d, i, spot, src₁, by omega, hspot, hsrc₁, rfl, hloop⟩
  | zero =>
      obtain ⟨options, hstart⟩ : ∃ options, spot.2 = .entryStart id entry.name options := by
        rcases hmade.spot_cases hspot with ⟨-, h⟩ | ⟨i, -, -, hi, -⟩ | ⟨hi, -⟩
        · exact h
        · cases hi
        · cases hi
      obtain ⟨spot', hspot'⟩ := hmade.next_spot (Nat.zero_le _)
      obtain ⟨src₂, hrun, hsrc₂⟩ := fromReader_spot h.toDelivers hshown hspot hsrc₁
      obtain ⟨src', hmove, hsrc'⟩ := moveToBlock_eq h hspot'
        (hshown.lt_length hspot') (h.live hsrc₂) id .ready
      have hstarts : spot.2.parsed.Starts id := by rw [hstart]; rfl
      have hlength := hmade.length_eq
      have hindex : incrementIndex
          (⟨src₂, .ready, id, 0, told spots⟩ : ArchiveEntryDataReader σ) =
          .ok () ⟨src₂, .ready, id, 1, told spots⟩ := by
        have hsum : checkedAdd 0 1 = some 1 := checkedAdd_of_lt (by decide)
        rw [incrementIndex]
        dsimp only
        rw [hsum]
        dsimp only
        rw [if_neg]
        rw [told, List.length_map]
        omega
      refine ⟨d + 1, 0, spot', src', by omega, hspot', hsrc', ?_, fun fuel => ?_⟩
      · rw [startOf_succ hspot, Block.size, hstart]
        rfl
      · rw [show fuel + (d + 1) = (fuel + 1) + d by omega, hloop, readLoop_starts rfl hrun hstarts,
          bind_apply, hindex]
        dsimp only
        rw [bind_apply, hmove]

omit [Patience] in
/-- Inside a chunk, a read returns what comes next of it. -/
theorem OverEntry.within (h : OverEntry closed S At Live id spots entry) (hspot : spots[k]? = some spot) (hk : k ≤ entry.chunks.length)
    {off remaining : ℕ} (hsrc : At src (spot.1 + spot.2.header.length + off))
    (hsum : off + remaining = spot.2.size) (state : ArchiveEntryDataReaderState) :
    ∃ j s', readContent remaining n ⟨src, state, id, k, told spots⟩ =
        .ok (slice spot.2.data off j) s' ∧
      j ≤ n ∧ off + j ≤ spot.2.size ∧ (j = 0 → n = 0 ∨ remaining = 0) ∧ s'.state ≠ .finish ∧
      EntryAt At S id spots s' (startOf spots k + (off + j)) ∧
      (off + j < spot.2.size → ∃ src', s' = ⟨src', .inEntryContent (remaining - j), id, k, told spots⟩ ∧
        At src' (spot.1 + spot.2.header.length + (off + j))) := by
  obtain ⟨-, -, hpre⟩ := h.shown.spot spot (List.mem_of_getElem? hspot)
  have hencode : spot.2.encode.length = spot.2.header.length + spot.2.size := by
    rw [Block.encode, List.length_append]
    rfl
  have hdata : slice S (spot.1 + spot.2.header.length) spot.2.size = spot.2.data := by
    obtain ⟨rest, hrest⟩ := hpre
    rw [slice, ← List.drop_drop, ← hrest, Block.encode, List.append_assoc, List.drop_left,
      Block.size, List.take_left]
  have hlen : spot.1 + spot.2.header.length + spot.2.size ≤ S.length := by
    have hle := hpre.length_le
    rw [List.length_drop] at hle
    have hlt := h.shown.lt_length hspot
    omega
  have hread : ∃ j src', Read.read n (Take.new src remaining) =
        .ok (slice spot.2.data off j) ⟨src', remaining - j⟩ ∧
      j ≤ n ∧ j ≤ remaining ∧ (j = 0 → n = 0 ∨ remaining = 0) ∧
      At src' (spot.1 + spot.2.header.length + (off + j)) := by
    rw [Take.read_new]
    by_cases hempty : remaining = 0
    · refine ⟨0, src, ?_, Nat.zero_le _, Nat.zero_le _, fun _ => .inr hempty, hsrc⟩
      rw [if_pos hempty, slice_zero_length, Nat.sub_zero]
    · rw [if_neg hempty]
      by_cases hn : n = 0
      · obtain ⟨src', hrun, hsrc'⟩ := h.zero hsrc
        refine ⟨0, src', ?_, Nat.zero_le _, Nat.zero_le _, fun _ => .inl hn, hsrc'⟩
        rw [hn, Nat.zero_min, hrun, slice_zero_length]
        rfl
      · obtain ⟨j, src', hrun, hj, hjn, hjle, hsrc'⟩ := h.cursor.progress hsrc
          (show spot.1 + spot.2.header.length + off < S.length by omega)
          (show 0 < min n remaining by omega)
        refine ⟨j, src', ?_, by omega, by omega, by omega, by rwa [← Nat.add_assoc]⟩
        have hcut : slice S (spot.1 + spot.2.header.length + off) j = slice spot.2.data off j := by
          rw [← hdata, slice_slice_of_le (by omega)]
        rw [hrun, hcut]
        dsimp only
        rw [length_slice_of_le (by rw [Block.size] at hsum; omega)]
  obtain ⟨j, src', hrun, hjn, hj, hempty, hsrc'⟩ := hread
  have hbytes : (slice spot.2.data off j).length = j :=
    length_slice_of_le (by rw [Block.size] at hsum; omega)
  have hsub : checkedSub remaining j = some (remaining - j) := if_pos hj
  have hlength := h.made.length_eq
  have hword := h.length_lt
  have hnext : checkedAdd k 1 = some (k + 1) := checkedAdd_of_lt (by omega)
  have hcontent : readContent remaining n
        (⟨src, state, id, k, told spots⟩ : ArchiveEntryDataReader σ) =
      if 0 < remaining - j then
        .ok (slice spot.2.data off j) ⟨src', .inEntryContent (remaining - j), id, k, told spots⟩
      else .ok (slice spot.2.data off j) ⟨src', .ready, id, k + 1, told spots⟩ := by
    rw [readContent]
    dsimp only
    rw [hrun]
    dsimp only
    rw [hbytes, hsub, hnext]
  by_cases hleft : 0 < remaining - j
  · refine ⟨j, _, hcontent.trans (if_pos hleft), hjn, by omega, hempty, by simp, ?_,
      fun _ => ⟨src', rfl, hsrc'⟩⟩
    exact .inside hspot hsrc' (by omega) hleft
  · obtain ⟨spot', hspot'⟩ := h.made.next_spot hk
    rw [if_neg hleft] at hcontent
    have hpos : startOf spots k + (off + j) = startOf spots (k + 1) := by
      rw [startOf_succ hspot]
      omega
    have hend : spot.1 + spot.2.header.length + (off + j) = spot.1 + spot.2.encode.length := by
      rw [hencode]
      omega
    refine ⟨j, _, hcontent, hjn, by omega, hempty, by simp, ?_, fun hlt => by omega⟩
    rw [hpos]
    exact .ready hspot' (hend ▸ hsrc') (h.shown.next hspot hspot')

/-- What a read at position `c` of the content does. -/
def ReadsAt (At : σ → ℕ → Prop) (S : Bytes) (id : ArchiveEntryId) (spots : List (ℕ × Block))
    (entry : Entry) (n c : ℕ) (r : EStateM.Result Exit (ArchiveEntryDataReader σ) Bytes) : Prop :=
  ∃ j s', r = .ok (slice entry.content c j) s' ∧ j ≤ n ∧ c + j ≤ entry.content.length ∧
    (j = 0 → n = 0 ∨ c = entry.content.length ∨ entry.EmptyAt c) ∧
    (s'.state = .finish → c = entry.content.length) ∧
    (c = entry.content.length → ¬ entry.EmptyAt c → s'.state = .finish) ∧
    EntryAt At S id spots s' (c + j)

/-- A chunk of the entry is read from its header on. -/
theorem readLoop_chunk {length : ℕ} {src' : σ}
    (hrun : ArchiveEntryBlock.fromReader src = .ok (.entryContent length id) src') :
    readLoop n (fuel + 1) ⟨src, .ready, id, k, told spots⟩ =
      readContent length n ⟨src', .ready, id, k, told spots⟩ := by
  rw [readLoop]
  dsimp only
  rw [hrun]
  dsimp only
  rw [if_pos rfl]

/-- The end of the entry is read. -/
theorem readLoop_end {hash : Sha256Hash} {src' : σ}
    (hrun : ArchiveEntryBlock.fromReader src = .ok (.endOfEntry id hash) src') :
    readLoop n (fuel + 1) ⟨src, .ready, id, k, told spots⟩ =
      .ok [] ⟨src', .finish, id, k, told spots⟩ := by
  rw [readLoop]
  dsimp only
  rw [hrun]
  dsimp only
  rw [if_pos rfl]

omit [Patience] in
/-- Inside chunk `i`, where `remaining` bytes of it are left. -/
theorem OverEntry.chunk (h : OverEntry closed S At Live id spots entry) {i : ℕ}
    (hspot : spots[i + 1]? = some spot) (hchunk : entry.chunks[i]? = some spot.2.data)
    {off remaining : ℕ} (hsrc : At src (spot.1 + spot.2.header.length + off))
    (hsum : off + remaining = spot.2.size)
    (hempty : remaining = 0 → entry.EmptyAt (startOf spots (i + 1) + off))
    (state : ArchiveEntryDataReaderState) :
    ReadsAt At S id spots entry n (startOf spots (i + 1) + off)
      (readContent remaining n ⟨src, state, id, i + 1, told spots⟩) := by
  obtain ⟨hlt, -⟩ := List.getElem?_eq_some_iff.mp hchunk
  obtain ⟨j, s', hrun, hjn, hj, hzero, hstate, hs', -⟩ := h.within (n := n) hspot hlt hsrc hsum state
  have hle := startOf_add_size_le hspot
  rw [h.made.contentOf_eq] at hle
  have hbytes : slice spot.2.data off j = slice entry.content (startOf spots (i + 1) + off) j := by
    rw [← h.made.contentOf_eq, slice_contentOf hspot hj]
  rw [← Nat.add_assoc] at hs'
  refine ⟨j, s', hrun.trans (by rw [hbytes]), hjn, by omega, fun hj => ?_, fun hfinish => ?_,
    fun hc hnone => ?_, hs'⟩
  · rcases hzero hj with hn | hremaining
    · exact .inl hn
    · exact .inr (.inr (hempty hremaining))
  · exact absurd hfinish hstate
  · exact absurd (hempty (by omega)) hnone

/-- A read at a position of the content returns what comes next. -/
theorem OverEntry.read_at (h : OverEntry closed S At Live id spots entry)
    {s : ArchiveEntryDataReader σ} {c : ℕ} (hs : EntryAt At S id spots s c) (n : ℕ) :
    ReadsAt At S id spots entry n c (read n s) := by
  have hlength : (told spots).length = entry.chunks.length + 2 := by
    rw [told, List.length_map, h.made.length_eq]
  cases hs with
  | @finish src q k hsrc =>
      rw [h.made.contentOf_eq]
      refine ⟨0, ⟨src, .finish, id, k, told spots⟩, ?_, Nat.zero_le _, Nat.le_refl _, fun _ => .inr (.inl rfl), fun _ => rfl,
        fun _ _ => rfl, ?_⟩
      · rw [slice_zero_length]
        rfl
      · rw [Nat.add_zero, ← h.made.contentOf_eq]
        exact .finish hsrc
  | @inside src k off remaining spot hspot hsrc hsum hpos =>
      rcases h.made.spot_cases hspot with ⟨-, options, hblock⟩ | ⟨i, options, data, rfl, hchunk, hblock⟩ |
        ⟨-, options, hblock⟩
      · rw [hblock] at hsum
        exact absurd hsum (by change off + remaining ≠ 0; omega)
      · refine h.chunk hspot (by rw [hblock]; exact hchunk) hsrc hsum (fun hzero => ?_) _
        omega
      · rw [hblock] at hsum
        exact absurd hsum (by change off + remaining ≠ 0; omega)
  | @ready src q k spot hspot hsrc hleads =>
      obtain ⟨d, i, spot', src', hd, hspot', hsrc', hstart, hloop⟩ :=
        readLoop_reaches (n := n) h.cursor h.shown h.made hspot hsrc hleads
      obtain ⟨src₁, hrun, hsrc₁⟩ := fromReader_spot h.cursor.toDelivers h.shown hspot' hsrc'
      obtain ⟨fuel, hfuel⟩ : ∃ fuel, (told spots).length + 3 = (fuel + 1) + d :=
        ⟨entry.chunks.length + 4 - d, by omega⟩
      rw [read]
      dsimp only
      rw [hfuel, hloop, ← hstart]
      rcases h.made.spot_cases hspot' with ⟨hi, -⟩ | ⟨i', options, data, hi, hchunk, hblock⟩ |
        ⟨hi, options, hblock⟩
      · cases hi
      · obtain rfl : i = i' := Nat.succ.inj hi
        rw [hblock] at hrun
        rw [readLoop_chunk hrun]
        obtain ⟨hlt, -⟩ := List.getElem?_eq_some_iff.mp hchunk
        have hchunk' : entry.chunks[i]? = some spot'.2.data := by rw [hblock]; exact hchunk
        have hsize : spot'.2.size = data.length := by rw [hblock]; rfl
        have hstarts : At src₁ (spot'.1 + spot'.2.header.length + 0) := hsrc₁
        refine h.chunk hspot' hchunk' hstarts (by rw [hsize, Nat.zero_add]) (fun hzero => ?_) _
        refine ⟨i, ?_, (h.made.startOf_succ_eq hlt.le).symm⟩
        rw [hchunk, List.length_eq_zero_iff.mp hzero]
      · obtain rfl : i = entry.chunks.length := Nat.succ.inj hi
        have hend : startOf spots (entry.chunks.length + 1) = entry.content.length := by
          rw [h.made.startOf_succ_eq (Nat.le_refl _), List.take_length, Entry.content]
        rw [hend]
        rw [hblock] at hrun
        refine ⟨0, ⟨src₁, .finish, id, entry.chunks.length + 1, told spots⟩, ?_, Nat.zero_le _,
          Nat.le_refl _, fun _ => .inr (.inl rfl), fun _ => rfl, fun _ _ => rfl, ?_⟩
        · rw [readLoop_end hrun, slice_zero_length]
        · rw [← h.made.contentOf_eq]
          exact .finish hsrc₁

end Reading

end ArchiveEntryDataReader

end Mla
