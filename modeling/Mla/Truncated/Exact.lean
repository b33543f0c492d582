import Mathlib.Data.List.Infix
import Mla.Reader.ReadBack
import Mla.Truncated.Cut
import Mla.Truncated.Ending

/-!
# What was delivered is salvaged

The source delivers the first bytes of an archive, and then nothing, or fails. The conversion comes
to know of each entry what these bytes tell of it, no less and no more.
-/

namespace Mla

open Io

/-! ## Blocks that are told as they are announced -/

namespace Written

theorem Whole.header_block {block : Written} (h : block.Whole) : block.block.header = block.header := by
  cases block with
  | entryStart id name => rfl
  | entryContent id size data =>
      obtain rfl : data.length = size := h
      rfl
  | endOfEntry id hash => rfl

theorem Whole.parsed_block {block : Written} (h : block.Whole) : block.block.parsed = block.parsed := by
  cases block with
  | entryStart id name => rfl
  | entryContent id size data =>
      obtain rfl : data.length = size := h
      rfl
  | endOfEntry id hash => rfl

/-- Parsing a block reads its header. -/
theorem decodes {σ : Type} [Patience] [Read Error σ] {block : Written} (h : block.Whole)
    (hvalid : block.block.Valid) :
    Decodes (ArchiveEntryBlock.fromReader : EStateM Error σ ArchiveEntryBlock) block.header
      block.parsed := by
  rw [← h.header_block, ← h.parsed_block]
  refine decodes_block hvalid ?_
  cases block <;> rfl

end Written

theorem TruncatedReadError.ofNextBlock_ne (err : Error) :
    ofNextBlock err ≠ .endOfOriginalArchiveData := by
  intro h
  unfold ofNextBlock at h
  split at h <;> cases h

/-! ## Conversions that know of some entries -/

namespace Conversion

variable {σ : Type} [Patience] [Sha256] [Read Error σ] {s : Conversion σ Journal}
  {drafts : List Draft} {id : ArchiveEntryId} {draft : Draft} {name : EntryName}

/-- The entries have in the journal the ids that they had. -/
structure Mirrors (s : Conversion σ Journal) (drafts : List Draft) : Prop extends Hashes s where
  told : s.output.drafts = drafts
  ids : ∀ id, s.idTruncated2idOutput.lookup id = if id < drafts.length then some id else none

omit [Patience] [Read Error σ] in
theorem mirrors_new (src : σ) : Mirrors (new src Journal.empty) [] where
  toHashes := hashes_new src
  told := rfl
  ids id := (if_neg (Nat.not_lt_zero id)).symm

omit [Patience] [Read Error σ] in
theorem Mirrors.moved (h : s.Mirrors drafts) (src : σ) : Mirrors { s with src := src } drafts where
  toHashes := h.toHashes.moved src
  told := h.told
  ids := h.ids

omit [Patience] [Read Error σ] in
theorem Mirrors.opened (h : s.Mirrors drafts) (hdraft : drafts[id]? = some draft)
    (hended : draft.ended = false) :
    s.idTruncated2idOutput.lookup id = some id ∧ s.output.opened id = some draft := by
  refine ⟨?_, Journal.opened_eq_some.mpr ⟨h.told ▸ hdraft, hended⟩⟩
  rw [h.ids, if_pos (List.getElem?_eq_some_iff.mp hdraft).1]

omit [Read Error σ] in
theorem Mirrors.entryStart (h : s.Mirrors drafts) (hname : name ∉ drafts.map Draft.name) :
    ∃ s', Conversion.entryStart name drafts.length s = .ok none s' ∧
      s'.Mirrors (drafts ++ [⟨name, [], false⟩]) ∧ s'.src = s.src := by
  have hid : s.idTruncated2idOutput.lookup drafts.length = none := by
    rw [h.ids, if_neg (Nat.lt_irrefl _)]
  have hdone : drafts.length ∉ s.idTruncatedDone := fun hmem =>
    AList.lookup_eq_none.mp hid (h.done _ hmem)
  have hnew : name ∉ s.output.names := by
    rw [Journal.names, h.told]
    exact hname
  refine ⟨_, entryStart_eq hid hdone hnew, ⟨h.toHashes.started hid hnew, ?_, ?_⟩, rfl⟩
  · exact congrArg (· ++ [_]) h.told
  · intro id
    change (s.idTruncated2idOutput.insert drafts.length s.output.drafts.length).lookup id = _
    rw [List.length_append, List.length_singleton, h.told]
    rcases eq_or_ne id drafts.length with rfl | hne
    · rw [AList.lookup_insert, if_pos (Nat.lt_succ_self _)]
    · have hlt : id < drafts.length ↔ id < drafts.length + 1 :=
        ⟨Nat.lt_succ_of_lt, fun hle => Nat.lt_of_le_of_ne (Nat.le_of_lt_succ hle) hne⟩
      rw [AList.lookup_insert_ne hne, h.ids]
      exact if_congr hlt rfl rfl

omit [Patience] [Read Error σ] in
theorem Mirrors.given (h : s.Mirrors drafts) (hdraft : drafts[id]? = some draft)
    (hended : draft.ended = false) {j : Journal} (hj : j.Proper) {data : Bytes}
    (hdrafts : j.drafts = s.output.drafts.set id { draft with content := draft.content ++ data })
    (src : σ) : (s.given src j id (draft.content ++ data)).Mirrors
      (drafts.modify id fun draft => { draft with content := draft.content ++ data }) := by
  obtain ⟨hid, hopen⟩ := h.opened hdraft hended
  refine ⟨h.toHashes.given hid hopen hj hdrafts src, ?_, fun other => ?_⟩
  · rw [modify_of_getElem? hdraft, ← h.told]
    exact hdrafts
  · rw [List.length_modify]
    exact h.ids other

omit [Patience] [Read Error σ] in
theorem Mirrors.closed (h : s.Mirrors drafts) (hdraft : drafts[id]? = some draft)
    (hended : draft.ended = false) :
    (s.closed id id draft).Mirrors (drafts.modify id fun draft => { draft with ended := true }) := by
  obtain ⟨hid, hopen⟩ := h.opened hdraft hended
  refine ⟨h.toHashes.closed hid hopen, ?_, fun other => ?_⟩
  · rw [modify_of_getElem? hdraft, ← h.told]
    rfl
  · rw [List.length_modify]
    exact h.ids other

/-! ## Blocks that are delivered -/

section Delivered

variable {S : Bytes} {closed : Prop} {At : σ → ℕ → Prop} {p size : ℕ} {data : Bytes} {block : Written}
  (hdelivers : Delivers closed S At) (hends : Io.Ends S At)
include hdelivers hends

/-- Of a content comes what there is of it; where this is less than was announced, the source may
have failed. -/
theorem Mirrors.entryContent (h : s.Mirrors drafts) (hdraft : drafts[id]? = some draft)
    (hended : draft.ended = false) (hs : At s.src p) (hdata : slice S p size = data) :
    (∃ s', Conversion.entryContent size id s = .ok none s' ∧
      s'.Mirrors (drafts.modify id fun draft => { draft with content := draft.content ++ data }) ∧
      At s'.src (p + data.length)) ∨
    (S.length < p + size ∧ ∃ err s', Conversion.entryContent size id s =
        .ok (some (.errorInFile err draft.name.rawContentToEscapedString)) s' ∧ s'.Tracks ∧
      s'.output.drafts = drafts.modify id fun draft => { draft with content := draft.content ++ data }) := by
  subst hdata
  obtain ⟨hid, hopen⟩ := h.opened hdraft hended
  have hwithin : Take.Within At p size (Take.new s.src size) 0 := ⟨hs, Nat.add_zero _⟩
  obtain ⟨poured, hpour⟩ := Take.exists_pour (ε := Error)
    (show 0 < cacheSize by decide) (size / cacheSize + 2) (t := Take.new s.src size) (.inr (Nat.le_refl _))
  obtain ⟨j, hj, hdrafts, hok, herror⟩ := entryContent_eq h.toHashes hid hopen hpour
  rcases (Take.delivers_cut hdelivers).pour_eq (Take.runsOut_cut hends hdelivers.le) _ hwithin hpour
    with ⟨src, rfl, hsrc⟩ | ⟨hcut, err, src, rfl⟩
  · rw [List.drop_zero] at hok hdrafts
    exact .inl ⟨_, hok src rfl, h.given hdraft hended hj hdrafts src.inner, hsrc.1⟩
  · rw [List.drop_zero] at hdrafts
    obtain ⟨hash, hrun⟩ := herror err src rfl
    refine .inr ⟨hcut, err, _, hrun, h.toTracks.given hid hopen hj hdrafts src.inner hash, ?_⟩
    rw [modify_of_getElem? hdraft, ← h.told]
    exact hdrafts

/-- A block that is delivered to its end is told. -/
theorem Mirrors.block_whole (h : s.Mirrors drafts) (hfollows : block.Follows drafts)
    (hwhole : block.Whole) (hs : At s.src p) (hdata : block.data <+: S.drop p) :
    ∃ s', Conversion.block block.parsed s = .ok none s' ∧ s'.Mirrors (block.tell drafts) ∧
      At s'.src (p + block.data.length) := by
  cases hfollows with
  | entryStart hname =>
      obtain ⟨s', hrun, hs', hsrc⟩ := h.entryStart hname
      exact ⟨s', hrun, hs', hsrc ▸ hs⟩
  | entryContent size data hdraft hended =>
      obtain rfl : data.length = size := hwhole
      have hslice : slice S p data.length = data := (List.prefix_iff_eq_take.mp hdata).symm
      rcases h.entryContent hdelivers hends hdraft hended hs hslice with hgoes | ⟨hcut, -⟩
      · exact hgoes
      · have hlen := hdata.length_le
        rw [List.length_drop] at hlen
        have hle := hdelivers.le hs
        change data.length ≤ _ at hlen
        omega
  | endOfEntry hdraft hended =>
      obtain ⟨hid, hopen⟩ := h.opened hdraft hended
      exact ⟨_, endOfEntry_eq h.toHashes hid hopen, h.closed hdraft hended, hs⟩

theorem Mirrors.readBlock_whole (h : s.Mirrors drafts) (hfollows : block.Follows drafts)
    (hwhole : block.Whole) (hvalid : block.block.Valid) (hs : At s.src p)
    (hblock : block.encode <+: S.drop p) :
    ∃ s', readBlock s = .ok none s' ∧ s'.Mirrors (block.tell drafts) ∧
      At s'.src (p + block.encode.length) := by
  obtain ⟨src, hread, hsrc⟩ := (Written.decodes hwhole hvalid).ok hdelivers hs
    ((List.prefix_append _ _).trans hblock)
  have hdata : block.data <+: S.drop (p + block.header.length) := by
    obtain ⟨rest, hrest⟩ := hblock
    refine ⟨rest, ?_⟩
    rw [← List.drop_drop, ← hrest, Written.encode, List.append_assoc, List.drop_left]
  obtain ⟨s', hrun, hs', hend⟩ := (h.moved src).block_whole hdelivers hends hfollows hwhole hsrc hdata
  refine ⟨s', (readBlock_of_ok hread).trans hrun, hs', ?_⟩
  rwa [Written.encode, List.length_append, ← Nat.add_assoc]

omit [Sha256] in
/-- No block is read where only a part of one is delivered. -/
theorem readBlock_part {bs : Bytes} {next : ArchiveEntryBlock} [Sha256]
    (hdecodes : Decodes (ArchiveEntryBlock.fromReader : EStateM Error σ ArchiveEntryBlock) bs next)
    (hs : At s.src p) (hpart : S.drop p <+: bs) (hshort : S.length - p < bs.length) :
    ∃ error src, readBlock s = .ok (some error) { s with src := src } ∧
      error ≠ .endOfOriginalArchiveData := by
  have hne : S.drop p ≠ bs := by
    rintro rfl
    rw [List.length_drop] at hshort
    exact Nat.lt_irrefl _ hshort
  obtain ⟨err, src, hread⟩ := hdecodes.cut hdelivers hends hs hpart hne
  exact ⟨_, src, readBlock_of_error hread, TruncatedReadError.ofNextBlock_ne err⟩

/-- Of a content that is cut the data that is there is told, and then the conversion stops. -/
theorem Mirrors.readBlocks_content (h : s.Mirrors drafts) (hdraft : drafts[id]? = some draft)
    (hended : draft.ended = false) {src : σ}
    (hread : ArchiveEntryBlock.fromReader s.src = .ok (.entryContent data.length id) src)
    (hsrc : At src p) (hpart : S.drop p <+: data) (hshort : S.length - p < data.length) (fuel : ℕ) :
    ∃ error s', readBlocks (fuel + 2) s = .ok (some error) s' ∧ s'.Tracks ∧
      s'.output.drafts = drafts.modify id (fun draft =>
        { draft with content := draft.content ++ data.take (S.length - p) }) ∧
      error ≠ .endOfOriginalArchiveData := by
  have hle := hdelivers.le hsrc
  have hslice : slice S p data.length = data.take (S.length - p) := by
    rw [slice_eq_drop (by omega), ← List.length_drop]
    exact List.prefix_iff_eq_take.mp hpart
  rcases (h.moved src).entryContent hdelivers hends hdraft hended hsrc hslice with
    ⟨s', hrun, hs', hend⟩ | ⟨-, err, s', hrun, htracks, hdrafts⟩
  · have hone : readBlock s = .ok none s' := (readBlock_of_ok hread).trans hrun
    rw [List.length_take, Nat.min_eq_left (Nat.le_of_lt hshort), Nat.add_sub_cancel' hle] at hend
    obtain ⟨error, src', hstop, hne⟩ := readBlock_part (s := s') hdelivers hends
      decodes_endOfArchiveData hend (by rw [List.drop_length]; exact List.nil_prefix)
      (by rw [Nat.sub_self]; decide)
    refine ⟨error, { s' with src := src' }, ?_, hs'.toTracks.moved src', hs'.told, hne⟩
    rw [readBlocks, bind_apply, hone]
    dsimp only
    rw [readBlocks, bind_apply, hstop]
    rfl
  · have hone : readBlock s = .ok (some _) s' := (readBlock_of_ok hread).trans hrun
    refine ⟨.errorInFile err draft.name.rawContentToEscapedString, s', ?_, htracks, hdrafts,
      fun h => by cases h⟩
    rw [readBlocks, bind_apply, hone]
    rfl

/-- Of a block that is cut only the data is told. -/
theorem Mirrors.readBlocks_part (h : s.Mirrors drafts) (hfollows : block.Follows drafts)
    (hwhole : block.Whole) (hvalid : block.block.Valid) (hs : At s.src p)
    (hpart : S.drop p <+: block.encode) (hshort : S.length - p < block.encode.length) {fuel : ℕ}
    (hfuel : S.length - p < fuel) (blocks : List Written) :
    ∃ error s', readBlocks fuel s = .ok (some error) s' ∧ s'.Tracks ∧
      s'.output.drafts = (Written.cut (S.length - p) (block :: blocks)).foldl Written.tell drafts ∧
      error ≠ .endOfOriginalArchiveData := by
  have hdecodes := Written.decodes (σ := σ) hwhole hvalid
  have hencode : block.encode.length = block.header.length + block.data.length :=
    List.length_append
  rw [Written.cut, if_neg (Nat.not_le_of_lt hshort)]
  by_cases hheader : block.header.length ≤ S.length - p
  · have hblock : block.header <+: S.drop p := by
      refine List.prefix_of_prefix_length_le (List.prefix_append _ _) hpart ?_
      rwa [List.length_drop]
    obtain ⟨src, hread, hsrc⟩ := hdecodes.ok hdelivers hs hblock
    have hdata : S.drop (p + block.header.length) <+: block.data := by
      have hdrop := List.IsPrefix.drop hpart block.header.length
      rwa [Written.encode, List.drop_left, List.drop_drop] at hdrop
    have hmissing : S.length - (p + block.header.length) < block.data.length := by omega
    obtain ⟨fuel, rfl⟩ : ∃ n, fuel = n + 2 := ⟨fuel - 2, by have := block.header_pos; omega⟩
    rw [if_pos hheader, Nat.sub_sub]
    cases hfollows with
    | entryStart hname => exact absurd hmissing (Nat.not_lt_zero _)
    | entryContent size data hdraft hended =>
        obtain rfl : data.length = size := hwhole
        exact h.readBlocks_content hdelivers hends hdraft hended hread hsrc hdata hmissing fuel
    | endOfEntry hdraft hended => exact absurd hmissing (Nat.not_lt_zero _)
  · have hlt := Nat.lt_of_not_le hheader
    have hpart' : S.drop p <+: block.header := by
      refine List.prefix_of_prefix_length_le hpart (List.prefix_append _ _) ?_
      rw [List.length_drop]
      exact Nat.le_of_lt hlt
    obtain ⟨error, src, hstop, hne⟩ := readBlock_part (s := s) hdelivers hends hdecodes hs hpart' hlt
    obtain ⟨fuel, rfl⟩ : ∃ n, fuel = n + 1 := ⟨fuel - 1, by omega⟩
    rw [if_neg hheader]
    refine ⟨error, { s with src := src }, ?_, h.toTracks.moved src, h.told, hne⟩
    rw [readBlocks, bind_apply, hstop]
    rfl

/-- The blocks that were delivered are told, and what there is of the next one. -/
theorem Mirrors.readBlocks_cut {tail : Bytes} {blocks : List Written} {drafts' : List Draft}
    (htelling : Telling drafts blocks drafts') :
    ∀ {s : Conversion σ Journal} {p fuel : ℕ}, s.Mirrors drafts →
      (∀ block ∈ blocks, block.Whole ∧ block.block.Valid) → At s.src p →
      S.drop p <+: blocks.flatMap Written.encode ++ (encodeEndOfArchiveData ++ tail) →
      S.length - p < fuel →
      ∃ error s', readBlocks fuel s = .ok (some error) s' ∧ s'.Tracks ∧
        s'.output.drafts = (Written.cut (S.length - p) blocks).foldl Written.tell drafts ∧
        (error = .endOfOriginalArchiveData ↔
          (blocks.flatMap Written.encode ++ encodeEndOfArchiveData).length ≤ S.length - p) := by
  induction htelling with
  | @nil drafts =>
      intro s p fuel h _ hs hpre hfuel
      obtain ⟨fuel, rfl⟩ : ∃ n, fuel = n + 1 := ⟨fuel - 1, by omega⟩
      rw [List.flatMap_nil, List.nil_append] at hpre
      rw [Written.cut, List.flatMap_nil, List.nil_append]
      rcases Nat.lt_or_ge (S.length - p) encodeEndOfArchiveData.length with hlt | hge
      · have hpart : S.drop p <+: encodeEndOfArchiveData := by
          refine List.prefix_of_prefix_length_le hpre (List.prefix_append _ _) ?_
          rw [List.length_drop]
          exact Nat.le_of_lt hlt
        obtain ⟨error, src, hstop, hne⟩ := readBlock_part (s := s) hdelivers hends
          decodes_endOfArchiveData hs hpart hlt
        refine ⟨error, { s with src := src }, ?_, h.toTracks.moved src, h.told,
          iff_of_false hne (Nat.not_le_of_lt hlt)⟩
        rw [readBlocks, bind_apply, hstop]
        rfl
      · have hend : encodeEndOfArchiveData <+: S.drop p := by
          refine List.prefix_of_prefix_length_le (List.prefix_append _ _) hpre ?_
          rwa [List.length_drop]
        obtain ⟨src, hread, -⟩ := decodes_endOfArchiveData.ok hdelivers hs hend
        refine ⟨.endOfOriginalArchiveData, { s with src := src }, ?_, h.toTracks.moved src, h.told,
          iff_of_true rfl hge⟩
        rw [readBlocks, bind_apply, readBlock_of_ok hread]
        rfl
  | @cons drafts drafts' block blocks hfollows hrest ih =>
      intro s p fuel h hblocks hs hpre hfuel
      rw [List.forall_mem_cons] at hblocks
      obtain ⟨⟨hwhole, hvalid⟩, hblocks⟩ := hblocks
      rw [List.flatMap_cons, List.append_assoc] at hpre
      rw [List.flatMap_cons, List.append_assoc, List.length_append]
      rcases Nat.lt_or_ge (S.length - p) block.encode.length with hlt | hge
      · have hpart : S.drop p <+: block.encode := by
          refine List.prefix_of_prefix_length_le hpre (List.prefix_append _ _) ?_
          rw [List.length_drop]
          exact Nat.le_of_lt hlt
        obtain ⟨error, s', hrun, htracks, hdrafts, hne⟩ := h.readBlocks_part hdelivers hends hfollows
          hwhole hvalid hs hpart hlt hfuel blocks
        exact ⟨error, s', hrun, htracks, hdrafts, iff_of_false hne (by omega)⟩
      · have hblock : block.encode <+: S.drop p := by
          refine List.prefix_of_prefix_length_le (List.prefix_append _ _) hpre ?_
          rwa [List.length_drop]
        obtain ⟨s₁, hone, hs₁, hat⟩ := h.readBlock_whole hdelivers hends hfollows hwhole hvalid hs hblock
        obtain ⟨fuel, rfl⟩ : ∃ n, fuel = n + 1 := ⟨fuel - 1, by omega⟩
        have hpos := block.encode_pos
        have hpre' : S.drop (p + block.encode.length) <+:
            blocks.flatMap Written.encode ++ (encodeEndOfArchiveData ++ tail) := by
          rw [← List.drop_drop]
          have hdrop := List.IsPrefix.drop hpre block.encode.length
          rwa [List.drop_left] at hdrop
        obtain ⟨error, s', hrun, htracks, hdrafts, hend⟩ :=
          ih hs₁ hblocks hat hpre' (show S.length - (p + block.encode.length) < fuel by omega)
        refine ⟨error, s', ?_, htracks, ?_, ?_⟩
        · rw [readBlocks, bind_apply, hone]
          exact hrun
        · rw [Written.cut, if_pos hge, List.foldl_cons, Nat.sub_sub]
          exact hdrafts
        · rw [hend]
          omega

/-- The entries that are salvaged are those that the delivered bytes tell of, all of them ended. -/
theorem convert_cut [IterationOrder] {τ : Type} [Read Error τ] {calls : List (WriterCall τ)}
    (hblocks : ∀ block ∈ (Journal.run calls).2.blocks, block.Whole)
    (hsize : (Journal.run calls).2.encode.length < u64Size) {tail : Bytes} {src : σ} (hsrc : At src p)
    (hcut : S.drop p <+: (Journal.run calls).2.blocks.flatMap Written.encode ++
      (encodeEndOfArchiveData ++ tail)) {fuel : ℕ} (hfuel : S.length - p < fuel) :
    ∃ error names s known, convert fuel (new src Journal.empty) = .ok (some (reasonOf error names)) s ∧
      s.output.Proper ∧
      Telling [] (Written.cut (S.length - p) (Journal.run calls).2.blocks) known ∧
      PartsOf known (Journal.run calls).2.drafts ∧
      s.output.drafts = known.map (fun draft => { draft with ended := true }) ∧
      names.Perm ((known.filter fun draft => !draft.ended).map Draft.name) ∧
      (error = .endOfOriginalArchiveData ↔
        ((Journal.run calls).2.blocks.flatMap Written.encode ++ encodeEndOfArchiveData).length ≤
          S.length - p) ∧
      (error = .endOfOriginalArchiveData → known = (Journal.run calls).2.drafts) := by
  have hvalid : ∀ block ∈ (Journal.run calls).2.blocks, block.Whole ∧ block.block.Valid :=
    fun block hblock => ⟨hblocks block hblock, (Journal.sound_run calls).valid_block hsize hblocks _
      (List.mem_map_of_mem hblock)⟩
  have htold := Journal.isTold_run calls
  obtain ⟨known, htelling, hparts⟩ := Telling.cut htold (S.length - p)
  obtain ⟨error, s, hrun, htracks, hdrafts, hend⟩ := (mirrors_new src).readBlocks_cut hdelivers hends
    htold hvalid hsrc hcut hfuel
  rw [← htelling.eq_foldl] at hdrafts
  obtain ⟨names, s', hconvert, hnames, hproper, hfinished⟩ := convert_of_readBlocks hrun htracks
  rw [Journal.finished, hdrafts] at hfinished
  rw [Journal.unfinished, hdrafts] at hnames
  refine ⟨error, names, s', known, hconvert, hproper, htelling, hparts, hfinished, hnames, hend,
    fun herror => ?_⟩
  have hall := hend.mp herror
  rw [List.length_append] at hall
  rw [Written.cut_of_le (Nat.le_of_add_right_le hall)] at htelling
  exact htelling.eq_foldl.trans (Telling.eq_foldl htold).symm

end Delivered

end Conversion

end Mla
