import Mla.Io.Simulates
import Mla.Writer.Journal

/-!
# The writer keeps a journal

Whatever calls are made on an archive writer, in whichever order and with whatever sources, it
answers as the journal does, and its five tables and its position are those of the journal. The
layers below have been given the bytes of the journal and take what they are given.
-/

namespace Mla

open Io

/-! ## Sources that are hashed -/

namespace HashWrapperReader

variable {σ : Type} [Read Error σ]

/-- The outcome of a reading behind which the hash is `hash`. -/
def withHash (hash : Bytes) : EStateM.Result (IoError Error) σ Unit →
    EStateM.Result (IoError Error) (HashWrapperReader σ) Unit
  | .ok u src => .ok u ⟨src, hash⟩
  | .error e src => .error e ⟨src, hash⟩

theorem read_mk (n : ℕ) (src : σ) (hash : Bytes) :
    (Read.read n (⟨src, hash⟩ : HashWrapperReader σ) : EStateM.Result (IoError Error) _ Bytes) =
      match Read.read n src with
      | .ok bs src' => .ok bs ⟨src', hash ++ bs⟩
      | .error e src' => .error e ⟨src', hash⟩ := by
  change read n _ = _
  rw [read, bind_apply, zoom]
  cases Read.read n src <;> rfl

theorem supplyLoop_mk :
    ∀ (fuel limit : ℕ) (src : σ) (hash : Bytes),
      supplyLoop fuel limit (⟨src, hash⟩ : HashWrapperReader σ) =
        ((supplyLoop fuel limit src).1,
          withHash (hash ++ (supplyLoop fuel limit src).1) (supplyLoop fuel limit src).2) := by
  intro fuel
  induction fuel with
  | zero =>
      intro limit src hash
      cases limit <;> rw [supplyLoop, supplyLoop, List.append_nil] <;> rfl
  | succ fuel ih =>
      intro limit src hash
      cases limit with
      | zero =>
          rw [supplyLoop, supplyLoop, List.append_nil]
          rfl
      | succ limit =>
          rw [supplyLoop, supplyLoop, read_mk]
          cases Read.read (min copyBufSize (limit + 1)) src with
          | error e src' =>
              dsimp only
              split
              · exact ih _ _ _
              · rw [List.append_nil]
                rfl
          | ok bs src' =>
              dsimp only
              split
              · rename_i hempty
                rw [List.isEmpty_iff.mp hempty, List.append_nil]
                rfl
              · rw [ih, List.append_assoc]

/-- What a source supplies is hashed as it comes. -/
theorem supply_mk [Patience] (limit : ℕ) (src : σ) (hash : Bytes) :
    supply limit (⟨src, hash⟩ : HashWrapperReader σ) =
      ((supply limit src).1, withHash (hash ++ (supply limit src).1) (supply limit src).2) :=
  supplyLoop_mk _ _ _ _

end HashWrapperReader

section Dump

variable {ω σ : Type} [Patience] [Write Error ω] [Read Error σ] {Got : ω → Bytes → Prop} {n : ℕ}

/-- A content is written as its header and what its source supplies, whichever size is announced. -/
theorem dumpContent_supply (happ : Appends Got) (haccepts : Accepts n Got) (hn : n < u64Size)
    (id : ArchiveEntryId) (size : ℕ) (src : σ) {dest : ω} {acc : Bytes} (hdest : Got dest acc)
    (hfits : acc.length + (Written.entryContent id size (supply size src).1).encode.length ≤ n) :
    ∃ dest', Got dest' (acc ++ (Written.entryContent id size (supply size src).1).encode) ∧
      ArchiveEntryBlock.dumpContent size id (src, dest) =
        match (supply size src).2 with
        | .ok _ src' => .ok () (src', dest')
        | .error e src' => .error (.ioError e) (src', dest') := by
  rw [Written.encode, List.length_append] at hfits
  rw [Written.encode, ← List.append_assoc]
  change acc.length + (_ + (supply size src).1.length) ≤ n at hfits
  have hemits := (Written.entryContent id size (supply size src).1).emits_dump (ω := ω)
  obtain ⟨dest₁, hheader⟩ := hemits.accept happ haccepts hdest (by omega) (by omega)
  have hdest₁ := (hemits.ok happ hdest hheader).2
  have hcopy : EndsCopy Got _ (supply size src).2 (copyTake size (src, dest₁)) :=
    happ.copyTake_supply haccepts hdest₁ (by rw [List.length_append]; omega)
  have hzoom : zoom Prod.snd (fun dest s => (s.1, dest))
      (ArchiveEntryBlock.dump (.entryContent size id)) (src, dest) = .ok () (src, dest₁) :=
    zoom_eq_ok.mpr ⟨dest₁, hheader, rfl⟩
  rw [ArchiveEntryBlock.dumpContent, bind_apply, hzoom]
  dsimp only
  rw [liftIo_apply]
  cases hsupply : (supply size src).2 with
  | ok u src' =>
      rw [hsupply] at hcopy
      generalize copyTake size (src, dest₁) = r at hcopy
      cases hcopy with
      | ok hdest₂ => exact ⟨_, hdest₂, rfl⟩
  | error e src' =>
      rw [hsupply] at hcopy
      generalize copyTake size (src, dest₁) = r at hcopy
      cases hcopy with
      | error hdest₂ => exact ⟨_, hdest₂, rfl⟩

end Dump

/-! ## Calls -/

inductive WriterCall (σ : Type)
  | startEntry (name : EntryName)
  | appendEntryContent (id : ArchiveEntryId) (size : ℕ) (src : σ)
  | endEntry (id : ArchiveEntryId)
  | addEntry (name : EntryName) (size : ℕ) (src : σ)

section Perform

variable {ω σ : Type} [Patience] [Sha256] [Write Error ω] [Read Error σ]

/-- The id that a call returns, when it returns one. -/
def ArchiveWriter.perform : WriterCall σ → EStateM Error (ArchiveWriter ω) (Option ArchiveEntryId)
  | .startEntry name => some <$> startEntry name
  | .appendEntryContent id size src => (fun _ => none) <$> appendEntryContent id size src
  | .endEntry id => (fun _ => none) <$> endEntry id
  | .addEntry name size src => (fun _ => none) <$> addEntry name size src

def Journal.perform : WriterCall σ → EStateM Error Journal (Option ArchiveEntryId)
  | .startEntry name => some <$> startEntry name
  | .appendEntryContent id size src => (fun _ => none) <$> appendEntryContent id size src
  | .endEntry id => (fun _ => none) <$> endEntry id
  | .addEntry name size src => (fun _ => none) <$> addEntry name size src

end Perform

/-! ## The state of the writer -/

namespace ArchiveWriter

variable {ω σ : Type}

/-- The writer on top of layers that were given `base` before it was made stands for the journal:
it can be written to the entries that are open, with their contents hashed; each name has the id
of its entry; and of each id, the index has the places of its blocks. -/
structure Represents [Sha256] (Got : ω → Bytes → Prop) (base : Bytes) (s : ArchiveWriter ω)
    (j : Journal) : Prop where
  dest : PositionLayerWriter.Counted Got base s.dest j.encode
  state : ∃ ids hashes, s.state = .openedFiles ids hashes ∧ ids.Nodup ∧
    (∀ id, id ∈ ids ↔ (j.opened id).isSome) ∧
    ∀ id, hashes.lookup id = (j.opened id).map Draft.content
  entriesInfo : ∀ name id, s.entriesInfo.lookup name = some id ↔
    ∃ draft, j.drafts[id]? = some draft ∧ draft.name = name
  idsInfo : ∀ id, s.idsInfo.lookup id = if id < j.drafts.length then some (j.index id) else none
  nextId : s.nextId = j.drafts.length
  sound : j.Sound

end ArchiveWriter

namespace Journal

variable {j : Journal} {n : ℕ}

/-- The bytes of the journal are no more than `n`. -/
def Fits (n : ℕ) (j : Journal) : Prop := j.encode.length ≤ n

theorem fits_snoc {drafts : List Draft} {block : Written}
    (h : Fits n ⟨drafts, j.blocks ++ [block]⟩) : j.encode.length + block.encode.length ≤ n := by
  rwa [Fits, encode_snoc, List.length_append] at h

theorem fits_of_snoc {drafts : List Draft} {block : Written}
    (h : Fits n ⟨drafts, j.blocks ++ [block]⟩) : Fits n j :=
  Nat.le_of_add_right_le (fits_snoc h)

theorem length_blocks_le (j : Journal) : j.blocks.length ≤ j.encode.length := by
  have hblocks : j.blocks.length ≤ (j.blocks.flatMap Written.encode).length := by
    induction j.blocks with
    | nil => exact Nat.le_refl _
    | cons block blocks ih =>
        have hpos := block.encode_pos
        rw [List.flatMap_cons, List.length_append, List.length_cons]
        omega
  rw [encode, List.length_append]
  exact Nat.le_add_left_of_le hblocks

/-- Each entry has a block. -/
theorem Sound.length_drafts_le [Sha256] (h : j.Sound) : j.drafts.length ≤ j.blocks.length := by
  have hsubset : List.range j.drafts.length ⊆ j.blocks.map Written.id := by
    intro id hid
    have hlt := List.mem_range.mp hid
    obtain ⟨pieces, -, -, hown⟩ := h.tells id _ (List.getElem?_eq_getElem hlt)
    have hmem : Written.entryStart id j.drafts[id].name ∈
        j.blocks.filter fun block => block.id = id := hown ▸ List.mem_cons_self
    exact List.mem_map.mpr ⟨_, List.mem_of_mem_filter hmem, rfl⟩
  have hle := (List.subperm_of_subset List.nodup_range hsubset).length_le
  rwa [List.length_range, List.length_map] at hle

theorem started_opened (name : EntryName) (id : ArchiveEntryId) :
    (j.started name).opened id =
      if id = j.drafts.length then some ⟨name, [], false⟩ else j.opened id := by
  rw [opened, started]
  split
  · rename_i heq
    rw [heq, List.getElem?_concat_length]
    rfl
  · rename_i hne
    rw [List.getElem?_append]
    split
    · rfl
    · rename_i hge
      have hnone : j.drafts[id]? = none := List.getElem?_eq_none (Nat.le_of_not_lt hge)
      have hend : [(⟨name, [], false⟩ : Draft)][id - j.drafts.length]? = none :=
        List.getElem?_eq_none (Nat.one_le_iff_ne_zero.mpr (Nat.sub_ne_zero_of_lt
          (Nat.lt_of_le_of_ne (Nat.le_of_not_lt hge) (Ne.symm hne))))
      rw [hend, opened, hnone]

theorem set_opened {id other : ArchiveEntryId} {draft : Draft} (h : j.opened id = some draft)
    (draft' : Draft) (blocks : List Written) :
    opened ⟨j.drafts.set id draft', blocks⟩ other =
      if id = other then (some draft').filter fun draft => !draft.ended else j.opened other := by
  rw [opened, getElem?_set_of_opened h]
  split
  · rfl
  · rfl

end Journal

/-! ## The calls -/

namespace ArchiveWriter

section Simulated

variable {ω σ : Type} [Patience] [Sha256] [Write Error ω] [Read Error σ] {Got : ω → Bytes → Prop}
  {base : Bytes} {n : ℕ} {s : ArchiveWriter ω} {j : Journal} {id : ArchiveEntryId}

omit [Patience] [Write Error ω] in
theorem Represents.checkState_eq (h : Represents Got base s j) : checkState s = .ok () s := by
  obtain ⟨ids, hashes, hstate, -⟩ := h.state
  rw [checkState, get_bind, hstate]
  rfl

omit [Patience] [Write Error ω] in
theorem Represents.checkStateFileOpened_eq (h : Represents Got base s j) (id : ArchiveEntryId) :
    checkStateFileOpened id s =
      if (j.opened id).isSome then .ok () s else .error Journal.notOpened s := by
  obtain ⟨ids, hashes, hstate, -, hids, hhashes⟩ := h.state
  have hkeys : id ∈ hashes ↔ (j.opened id).isSome := by
    rw [← AList.lookup_isSome, hhashes, Option.isSome_map]
  rw [checkStateFileOpened, get_bind, hstate]
  dsimp only
  by_cases hopen : (j.opened id).isSome
  · rw [if_pos hopen, if_neg (not_or.mpr ⟨not_not.mpr ((hids id).mpr hopen),
      not_not.mpr (hkeys.mpr hopen)⟩)]
    rfl
  · rw [if_neg hopen, if_pos (.inl fun hmem => hopen ((hids id).mp hmem))]
    rfl

omit [Patience] [Sha256] [Write Error ω] in
theorem recordOffsetAndSizeInIndex_eq {info : EntryInfo} (h : s.idsInfo.lookup id = some info)
    (size : ℕ) :
    recordOffsetAndSizeInIndex id size s =
      .ok () { s with
        idsInfo := s.idsInfo.insert id ⟨info.offsetsAndSizes ++ [(s.dest.position, size)]⟩
        currentId := id } := by
  rw [recordOffsetAndSizeInIndex, get_bind, h]
  rfl

omit [Sha256] in
/-- A block without data is written where there is room for it. -/
theorem onDest_dump_eq (happ : Appends Got) (haccepts : Accepts (base.length + n) Got)
    (hn : n < u64Size) {acc : Bytes} (hdest : PositionLayerWriter.Counted Got base s.dest acc)
    (block : Written) (hdata : block.data = []) (hfits : acc.length + block.encode.length ≤ n) :
    ∃ dest, onDest block.parsed.dump s = .ok () { s with dest := dest } ∧
      PositionLayerWriter.Counted Got base dest (acc ++ block.encode) := by
  have hencode : block.encode = block.header := by rw [Written.encode, hdata, List.append_nil]
  rw [hencode] at hfits ⊢
  have happ' : Appends (PositionLayerWriter.Counted Got base) := PositionLayerWriter.appends happ
  have haccepts' : Accepts n (PositionLayerWriter.Counted Got base) :=
    PositionLayerWriter.accepts happ haccepts hn
  obtain ⟨dest, hrun⟩ := block.emits_dump.accept happ' haccepts' hdest hfits (by omega)
  exact ⟨dest, zoom_eq_ok.mpr ⟨dest, hrun, rfl⟩, (block.emits_dump.ok happ' hdest hrun).2⟩

omit [Patience] [Sha256] in
/-- The index of the id of a new block gets its place; those of the other ids stay. -/
theorem lookup_insert_index (block : Written) {idsInfo : HashMap ArchiveEntryId EntryInfo}
    {drafts : List Draft}
    (h : ∀ id, idsInfo.lookup id = if id < j.drafts.length then some (j.index id) else none)
    (hlength : ∀ id, id ≠ block.id → (id < drafts.length ↔ id < j.drafts.length))
    (hlt : block.id < drafts.length) (id : ArchiveEntryId) :
    (idsInfo.insert block.id
        ⟨(j.index block.id).offsetsAndSizes ++ [(j.encode.length, block.size)]⟩).lookup id =
      if id < drafts.length then some (Journal.index ⟨drafts, j.blocks ++ [block]⟩ id) else none := by
  rcases eq_or_ne id block.id with rfl | hne
  · rw [AList.lookup_insert, if_pos hlt, Journal.index_snoc_of_eq rfl]
  · rw [AList.lookup_insert_ne hne, h, Journal.index_snoc_of_ne (Ne.symm hne)]
    exact if_congr (hlength id hne).symm rfl rfl

omit [Patience] [Sha256] [Write Error ω] in
/-- A name is known where an entry has it. -/
theorem mem_entriesInfo {entriesInfo : HashMap EntryName ArchiveEntryId}
    (h : ∀ name id, entriesInfo.lookup name = some id ↔
      ∃ draft, j.drafts[id]? = some draft ∧ draft.name = name) (name : EntryName) :
    name ∈ entriesInfo ↔ name ∈ j.names := by
  rw [← AList.lookup_isSome, Option.isSome_iff_exists, Journal.names, List.mem_map]
  constructor
  · rintro ⟨id, hid⟩
    obtain ⟨draft, hdraft, hname⟩ := (h name id).mp hid
    exact ⟨draft, List.mem_of_getElem? hdraft, hname⟩
  · rintro ⟨draft, hmem, hname⟩
    obtain ⟨id, hdraft⟩ := List.getElem?_of_mem hmem
    exact ⟨id, (h name id).mpr ⟨draft, hdraft, hname⟩⟩

theorem Represents.startEntry_eq_error (h : Represents Got base s j) {name : EntryName}
    (hname : name ∈ j.names) : startEntry name s = .error .duplicateEntryName s := by
  rw [startEntry, bind_apply, h.checkState_eq]
  dsimp only
  rw [get_bind, if_pos ((mem_entriesInfo h.entriesInfo name).mpr hname)]
  rfl

omit [Patience] [Write Error ω] in
theorem Represents.started (h : Represents Got base s j) {name : EntryName} (hname : name ∉ j.names)
    {ids : List ArchiveEntryId} {hashes : HashMap ArchiveEntryId Bytes}
    (hnodup : ids.Nodup) (hids : ∀ id, id ∈ ids ↔ (j.opened id).isSome)
    (hhashes : ∀ id, hashes.lookup id = (j.opened id).map Draft.content)
    {dest : PositionLayerWriter ω}
    (hdest : PositionLayerWriter.Counted Got base dest (j.started name).encode) :
    Represents Got base
      ⟨dest, .openedFiles (ids ++ [s.nextId]) (hashes.insert s.nextId []),
        s.entriesInfo.insert name s.nextId, s.idsInfo.insert s.nextId ⟨[(s.dest.position, 0)]⟩,
        s.nextId + 1, s.nextId⟩ (j.started name) := by
  have hnew : j.opened j.drafts.length = none := by
    rw [Journal.opened, List.getElem?_eq_none (Nat.le_refl _)]
    rfl
  have hindex : j.index j.drafts.length = ⟨[]⟩ := by
    rw [Journal.index, EntryInfo.mk.injEq, List.map_eq_nil_iff, List.eq_nil_iff_forall_not_mem]
    rintro ⟨p, block⟩ hplace
    obtain ⟨before, after, hblocks, hid, -⟩ := (mem_places_iff _ _).mp hplace
    have hknown := h.sound.known block (hblocks ▸ List.mem_append_right _ List.mem_cons_self)
    exact Nat.lt_irrefl _ (hid ▸ hknown)
  rw [h.nextId]
  refine ⟨hdest, ⟨_, _, rfl, ?_, fun id => ?_, fun id => ?_⟩, fun other id => ?_, ?_, ?_,
    h.sound.started hname⟩
  · refine hnodup.append (List.nodup_singleton _) (List.disjoint_singleton.mpr fun hmem => ?_)
    rw [hids, hnew] at hmem
    cases hmem
  · rw [List.mem_append, hids, List.mem_singleton, Journal.started_opened]
    split
    · rename_i heq
      exact ⟨fun _ => rfl, fun _ => .inr heq⟩
    · rename_i hne
      exact ⟨fun hmem => hmem.resolve_right hne, .inl⟩
  · rw [Journal.started_opened]
    split
    · rename_i heq
      rw [heq, AList.lookup_insert]
      rfl
    · rename_i hne
      rw [AList.lookup_insert_ne hne, hhashes]
  · rcases eq_or_ne other name with rfl | hne
    · rw [AList.lookup_insert]
      constructor
      · intro hid
        obtain rfl := Option.some.inj hid
        exact ⟨⟨other, [], false⟩, List.getElem?_concat_length, rfl⟩
      · rintro ⟨draft, hdraft, hother⟩
        rcases Nat.lt_or_ge id j.drafts.length with hlt | hge
        · rw [Journal.started, List.getElem?_append_left hlt] at hdraft
          exact absurd (List.mem_map.mpr ⟨draft, List.mem_of_getElem? hdraft, hother⟩) hname
        · have hlt := (List.getElem?_eq_some_iff.mp hdraft).1
          rw [Journal.started, List.length_append, List.length_singleton] at hlt
          exact congrArg some (Nat.le_antisymm hge (Nat.le_of_lt_succ hlt))
    · rw [AList.lookup_insert_ne hne, h.entriesInfo]
      refine exists_congr fun draft => and_congr_left fun hother => ?_
      rcases Nat.lt_trichotomy id j.drafts.length with hlt | heq | hgt
      · rw [Journal.started, List.getElem?_append_left hlt]
      · rw [Journal.started, heq, List.getElem?_concat_length, List.getElem?_eq_none (Nat.le_refl _)]
        refine iff_of_false (fun hnone => by cases hnone) fun hsome => hne ?_
        rw [← hother, ← Option.some.inj hsome]
      · rw [List.getElem?_eq_none (Nat.le_of_lt hgt), List.getElem?_eq_none]
        rw [Journal.started, List.length_append]
        exact hgt
  · have hplace : (⟨[(s.dest.position, 0)]⟩ : EntryInfo) =
        ⟨(j.index j.drafts.length).offsetsAndSizes ++ [(j.encode.length, 0)]⟩ := by
      rw [hindex, PositionLayerWriter.position, h.dest.2]
      rfl
    have hlength : (j.started name).drafts.length = j.drafts.length + 1 := by
      rw [Journal.started, List.length_append, List.length_singleton]
    rw [hplace]
    refine lookup_insert_index (.entryStart j.drafts.length name) h.idsInfo
      (fun id hid => ?_) (hlength ▸ Nat.lt_succ_self _)
    rw [hlength]
    exact ⟨fun hlt => Nat.lt_of_le_of_ne (Nat.le_of_lt_succ hlt) hid, Nat.lt_succ_of_lt⟩
  · rw [Journal.started, List.length_append, List.length_singleton]

omit [Patience] [Write Error ω] in
/-- Behind a block of an open entry, what is left to say is which entries are open. -/
theorem Represents.written (h : Represents Got base s j) (block : Written) {draft draft' : Draft}
    (hopen : j.opened id = some draft) (hname : draft'.name = draft.name) (hid : block.id = id)
    {ids : List ArchiveEntryId} {hashes : HashMap ArchiveEntryId Bytes} (hnodup : ids.Nodup)
    {j' : Journal} (hj' : j' = ⟨j.drafts.set id draft', j.blocks ++ [block]⟩)
    (hids : ∀ id, id ∈ ids ↔ (j'.opened id).isSome)
    (hhashes : ∀ id, hashes.lookup id = (j'.opened id).map Draft.content)
    {dest : PositionLayerWriter ω} (hdest : PositionLayerWriter.Counted Got base dest j'.encode)
    (hsound : j'.Sound) (currentId : ArchiveEntryId) :
    Represents Got base
      ⟨dest, .openedFiles ids hashes, s.entriesInfo,
        s.idsInfo.insert id ⟨(j.index id).offsetsAndSizes ++ [(s.dest.position, block.size)]⟩,
        s.nextId, currentId⟩ j' := by
  have hlength : j'.drafts.length = j.drafts.length := by rw [hj', List.length_set]
  have hget : ∀ other, j'.drafts[other]? = if id = other then some draft' else j.drafts[other]? :=
    fun other => by rw [hj', Journal.getElem?_set_of_opened hopen]
  refine ⟨hdest, ⟨ids, hashes, rfl, hnodup, hids, hhashes⟩, fun name other => ?_, ?_, ?_, hsound⟩
  · rw [h.entriesInfo, hget]
    split
    · rename_i heq
      rw [← heq, (Journal.opened_eq_some.mp hopen).1]
      constructor
      · rintro ⟨found, hfound, rfl⟩
        exact ⟨draft', rfl, hname.trans (congrArg Draft.name (Option.some.inj hfound))⟩
      · rintro ⟨found, hfound, rfl⟩
        exact ⟨draft, rfl, hname.symm.trans (congrArg Draft.name (Option.some.inj hfound))⟩
    · rfl
  · rw [PositionLayerWriter.position, h.dest.2, hj', ← hid]
    refine lookup_insert_index block h.idsInfo (fun other _ => by rw [List.length_set]) ?_
    rw [List.length_set, hid]
    exact Journal.lt_of_opened hopen
  · rw [hlength]
    exact h.nextId

omit [Patience] [Write Error ω] in
theorem Represents.given (h : Represents Got base s j) {draft : Draft}
    (hopen : j.opened id = some draft) {size : ℕ} (hsize : size ≠ 0) {data : Bytes}
    {ids : List ArchiveEntryId} {hashes : HashMap ArchiveEntryId Bytes} (hnodup : ids.Nodup)
    (hids : ∀ id, id ∈ ids ↔ (j.opened id).isSome)
    (hhashes : ∀ id, hashes.lookup id = (j.opened id).map Draft.content)
    {dest : PositionLayerWriter ω}
    (hdest : PositionLayerWriter.Counted Got base dest (j.given id draft size data).encode) :
    Represents Got base
      ⟨dest, .openedFiles ids (hashes.insert id (draft.content ++ data)), s.entriesInfo,
        s.idsInfo.insert id ⟨(j.index id).offsetsAndSizes ++ [(s.dest.position, size)]⟩, s.nextId, id⟩
      (j.given id draft size data) := by
  have hj' : j.given id draft size data =
      ⟨j.drafts.set id { draft with content := draft.content ++ data },
        j.blocks ++ [.entryContent id size data]⟩ := rfl
  have hopened : ∀ other, (j.given id draft size data).opened other =
      if id = other then some { draft with content := draft.content ++ data }
      else j.opened other := by
    intro other
    rw [hj', Journal.set_opened hopen, Option.filter_some, (Journal.opened_eq_some.mp hopen).2]
    rfl
  refine h.written (.entryContent id size data) hopen (by exact rfl) (by exact rfl) hnodup hj'
    (fun other => ?_) (fun other => ?_) hdest (h.sound.given hopen hsize data) id
  · rw [hids, hopened]
    split
    · rename_i heq
      rw [← heq, hopen]
      exact iff_of_true rfl rfl
    · rfl
  · rw [hopened]
    split
    · rename_i heq
      rw [← heq, AList.lookup_insert]
      rfl
    · rename_i hne
      rw [AList.lookup_insert_ne (Ne.symm hne), hhashes]

omit [Patience] [Write Error ω] in
theorem Represents.closed (h : Represents Got base s j) {draft : Draft}
    (hopen : j.opened id = some draft) {ids : List ArchiveEntryId}
    {hashes : HashMap ArchiveEntryId Bytes} (hnodup : ids.Nodup)
    (hids : ∀ id, id ∈ ids ↔ (j.opened id).isSome)
    (hhashes : ∀ id, hashes.lookup id = (j.opened id).map Draft.content)
    {dest : PositionLayerWriter ω}
    (hdest : PositionLayerWriter.Counted Got base dest (j.closed id draft).encode) :
    Represents Got base
      ⟨dest, .openedFiles (ids.erase id) (hashes.erase id), s.entriesInfo,
        s.idsInfo.insert id ⟨(j.index id).offsetsAndSizes ++ [(s.dest.position, 0)]⟩, s.nextId, id⟩
      (j.closed id draft) := by
  have hj' : j.closed id draft = ⟨j.drafts.set id { draft with ended := true },
      j.blocks ++ [.endOfEntry id (Sha256.digest draft.content)]⟩ := rfl
  have hopened : ∀ other, (j.closed id draft).opened other =
      if id = other then none else j.opened other := by
    intro other
    rw [hj', Journal.set_opened hopen]
    rfl
  refine h.written (.endOfEntry id (Sha256.digest draft.content)) hopen (by exact rfl)
    (by exact rfl) (hnodup.erase id) hj' (fun other => ?_) (fun other => ?_) hdest
    (h.sound.closed hopen) id
  · rw [hnodup.mem_erase_iff, hids, hopened]
    split
    · rename_i heq
      exact iff_of_false (fun hmem => hmem.1 heq.symm) (fun hnone => by cases hnone)
    · rename_i hne
      exact and_iff_right (Ne.symm hne)
  · rw [hopened]
    split
    · rename_i heq
      rw [← heq, AList.lookup_erase]
      rfl
    · rename_i hne
      rw [AList.lookup_erase_ne (Ne.symm hne), hhashes]

/-! ### Simulation -/

variable (happ : Appends Got) (haccepts : Accepts (base.length + n) Got) (hn : n < u64Size)
include happ haccepts hn

theorem simulates_startEntry (name : EntryName) :
    Simulates (Journal.Fits n) (Represents Got base)
      (startEntry name : EStateM Error (ArchiveWriter ω) ArchiveEntryId) (Journal.startEntry name) where
  back {j} h := by
    rw [Journal.startEntry] at h
    split at h
    · exact h
    · exact Journal.fits_of_snoc h
  step {s j} hs h := by
    rw [Journal.startEntry] at h ⊢
    have hmem := mem_entriesInfo hs.entriesInfo name
    by_cases hname : name ∈ j.names
    · rw [if_pos hname, hs.startEntry_eq_error hname]
      exact .error hs
    · rw [if_neg hname] at h ⊢
      obtain ⟨ids, hashes, hstate, hnodup, hids, hhashes⟩ := hs.state
      have hroom := Journal.fits_snoc h
      have hcount := Nat.le_trans hs.sound.length_drafts_le j.length_blocks_le
      have hpos := (Written.entryStart j.drafts.length name).encode_pos
      have hnext : checkedAdd s.nextId 1 = some (s.nextId + 1) := by
        refine checkedAdd_of_lt ?_
        rw [hs.nextId]
        omega
      obtain ⟨dest, hdump, hdest⟩ := onDest_dump_eq (s := { s with
        nextId := s.nextId + 1
        currentId := s.nextId
        entriesInfo := s.entriesInfo.insert name s.nextId
        idsInfo := s.idsInfo.insert s.nextId ⟨[(s.dest.position, 0)]⟩ }) happ haccepts hn hs.dest
        (.entryStart j.drafts.length name) rfl hroom
      rw [← hs.nextId] at hdump
      have hrun : startEntry name s = .ok s.nextId
          ⟨dest, .openedFiles (ids ++ [s.nextId]) (hashes.insert s.nextId []),
            s.entriesInfo.insert name s.nextId, s.idsInfo.insert s.nextId ⟨[(s.dest.position, 0)]⟩,
            s.nextId + 1, s.nextId⟩ := by
        refine bind_eq_ok.mpr ⟨(), s, hs.checkState_eq, ?_⟩
        rw [get_bind, if_neg fun hknown => hname (hmem.mp hknown)]
        refine okOr_bind_eq_ok.mpr ⟨_, hnext, bind_eq_ok.mpr ⟨⟨⟩, _, rfl,
          bind_eq_ok.mpr ⟨(), _, hdump, ?_⟩⟩⟩
        rw [get_bind]
        dsimp only
        rw [hstate]
        rfl
      rw [hrun, ← hs.nextId]
      refine .ok (hs.started hname hnodup hids hhashes ?_)
      rw [Journal.started, Journal.encode_snoc]
      exact hdest

theorem simulates_appendEntryContent (id : ArchiveEntryId) (size : ℕ) (src : σ) :
    Simulates (Journal.Fits n) (Represents Got base)
      (appendEntryContent id size src : EStateM Error (ArchiveWriter ω) Unit)
      (Journal.appendEntryContent id size src) where
  back {j} h := by
    rw [Journal.appendEntryContent] at h
    cases hopen : j.opened id with
    | none =>
        rw [hopen] at h
        exact h
    | some draft =>
        rw [hopen] at h
        dsimp only at h
        split at h
        · exact h
        · cases hsupply : (supply size src).2 with
          | ok u src' =>
              rw [hsupply] at h
              exact Journal.fits_of_snoc h
          | error e src' =>
              rw [hsupply] at h
              exact Journal.fits_of_snoc h
  step {s j} hs h := by
    rw [Journal.appendEntryContent] at h ⊢
    rw [appendEntryContent, bind_apply, hs.checkStateFileOpened_eq]
    cases hopen : j.opened id with
    | none => exact .error hs
    | some draft =>
        rw [hopen] at h
        dsimp only [Option.isSome_some] at h ⊢
        rw [if_pos rfl]
        dsimp only
        by_cases hsize : size = 0
        · rw [if_pos hsize, if_pos hsize]
          exact .ok hs
        · rw [if_neg hsize] at h ⊢
          rw [if_neg hsize]
          have hfits : Journal.Fits n (j.given id draft size (supply size src).1) := by
            cases hsupply : (supply size src).2 with
            | ok u src' => rwa [hsupply] at h
            | error e src' => rwa [hsupply] at h
          have hroom := Journal.fits_snoc hfits
          obtain ⟨ids, hashes, hstate, hnodup, hids, hhashes⟩ := hs.state
          have hlt := Journal.lt_of_opened hopen
          have hinfo : s.idsInfo.lookup id = some (j.index id) := by rw [hs.idsInfo, if_pos hlt]
          have hhash : hashes.lookup id = some draft.content := by rw [hhashes, hopen]; rfl
          have haccepts' : Accepts n (PositionLayerWriter.Counted Got base) :=
            PositionLayerWriter.accepts happ haccepts hn
          have hsupply := HashWrapperReader.supply_mk size src draft.content
          have happ' : Appends (PositionLayerWriter.Counted Got base) :=
            PositionLayerWriter.appends happ
          obtain ⟨dest, hdest, hdump⟩ := dumpContent_supply happ' haccepts' hn id size
            (⟨src, draft.content⟩ : HashWrapperReader σ) hs.dest (by rw [hsupply]; exact hroom)
          rw [hsupply] at hdest hdump
          rw [← Journal.encode_snoc] at hdest
          have hrep := hs.given hopen hsize hnodup hids hhashes hdest
          rw [bind_apply, recordOffsetAndSizeInIndex_eq hinfo]
          dsimp only
          rw [dumpHashed]
          dsimp only
          rw [hstate]
          dsimp only
          rw [hhash]
          dsimp only
          rw [hdump]
          cases (supply size src).2 with
          | ok u src' => exact .ok hrep
          | error e src' => exact .error hrep

theorem simulates_endEntry (id : ArchiveEntryId) :
    Simulates (Journal.Fits n) (Represents Got base)
      (endEntry id : EStateM Error (ArchiveWriter ω) Unit) (Journal.endEntry id) where
  back {j} h := by
    rw [Journal.endEntry] at h
    cases hopen : j.opened id with
    | none =>
        rw [hopen] at h
        exact h
    | some draft =>
        rw [hopen] at h
        exact Journal.fits_of_snoc h
  step {s j} hs h := by
    rw [Journal.endEntry] at h ⊢
    cases hopen : j.opened id with
    | none =>
        rw [endEntry, bind_apply, hs.checkStateFileOpened_eq, hopen]
        exact .error hs
    | some draft =>
        rw [hopen] at h
        dsimp only at h ⊢
        obtain ⟨ids, hashes, hstate, hnodup, hids, hhashes⟩ := hs.state
        have hinfo : s.idsInfo.lookup id = some (j.index id) := by
          rw [hs.idsInfo, if_pos (Journal.lt_of_opened hopen)]
        have hhash : hashes.lookup id = some draft.content := by rw [hhashes, hopen]; rfl
        have hrecord := recordOffsetAndSizeInIndex_eq
          (s := { s with state := .openedFiles (ids.erase id) (hashes.erase id) }) hinfo 0
        obtain ⟨dest, hdump, hdest⟩ := onDest_dump_eq (s := { s with
          state := .openedFiles (ids.erase id) (hashes.erase id)
          idsInfo := s.idsInfo.insert id ⟨(j.index id).offsetsAndSizes ++ [(s.dest.position, 0)]⟩
          currentId := id }) happ haccepts hn hs.dest
          (.endOfEntry id (Sha256.digest draft.content)) rfl (Journal.fits_snoc h)
        rw [← Journal.encode_snoc] at hdest
        have hrun : endEntry id s = .ok ()
            ⟨dest, .openedFiles (ids.erase id) (hashes.erase id), s.entriesInfo,
              s.idsInfo.insert id ⟨(j.index id).offsetsAndSizes ++ [(s.dest.position, 0)]⟩, s.nextId,
              id⟩ := by
          refine bind_eq_ok.mpr ⟨(), s, ?_, ?_⟩
          · rw [hs.checkStateFileOpened_eq, hopen]
            rfl
          · rw [get_bind, hstate]
            dsimp only
            rw [hhash, okOr_some, pure_bind]
            exact bind_eq_ok.mpr ⟨⟨⟩, _, rfl, bind_eq_ok.mpr ⟨(), _, hrecord, hdump⟩⟩
        rw [hrun]
        exact .ok (hs.closed hopen hnodup hids hhashes hdest)

theorem simulates_addEntry (name : EntryName) (size : ℕ) (src : σ) :
    Simulates (Journal.Fits n) (Represents Got base)
      (addEntry name size src : EStateM Error (ArchiveWriter ω) Unit)
      (Journal.addEntry name size src) :=
  (simulates_startEntry happ haccepts hn name).bind fun id =>
    (simulates_appendEntryContent happ haccepts hn id size src).bind fun _ =>
      simulates_endEntry happ haccepts hn id

theorem simulates_perform (call : WriterCall σ) :
    Simulates (Journal.Fits n) (Represents Got base)
      (perform call : EStateM Error (ArchiveWriter ω) (Option ArchiveEntryId))
      (Journal.perform call) := by
  cases call with
  | startEntry name => exact (simulates_startEntry happ haccepts hn name).bind fun _ => .pure _
  | appendEntryContent id size src =>
      exact (simulates_appendEntryContent happ haccepts hn id size src).bind fun _ => .pure _
  | endEntry id => exact (simulates_endEntry happ haccepts hn id).bind fun _ => .pure _
  | addEntry name size src =>
      exact (simulates_addEntry happ haccepts hn name size src).bind fun _ => .pure _

omit [Read Error σ] in
/-- A writer that was just made has an empty journal. -/
theorem fromLayers_eq {dest : ω} (hdest : Got dest base) (hroom : entriesHeader.length ≤ n) :
    ∃ s, fromLayers dest = .ok s ∧ Represents Got base s .empty := by
  have hemits : Emits (do put entriesLayerMagic; Opts.dump : EStateM Error (PositionLayerWriter ω) ℕ)
      entriesHeader 1 := (Emits.put entriesLayerMagic).seq emits_opts
  have hstart : PositionLayerWriter.Counted Got base (PositionLayerWriter.new dest).resetPosition [] :=
    ⟨by rwa [List.append_nil], rfl⟩
  have happ' : Appends (PositionLayerWriter.Counted Got base) := PositionLayerWriter.appends happ
  have haccepts' : Accepts n (PositionLayerWriter.Counted Got base) :=
    PositionLayerWriter.accepts happ haccepts hn
  obtain ⟨dest', hrun⟩ := hemits.accept happ' haccepts' hstart
    (by rwa [List.length_nil, Nat.zero_add]) (lt_of_le_of_lt hroom hn)
  have hdest' := (hemits.ok happ' hstart hrun).2
  refine ⟨⟨dest', .openedFiles [] ∅, ∅, ∅, 0, 0⟩,
    Except.bind_eq_ok.mpr ⟨(1, dest'), runOn_eq_ok.mpr hrun, rfl⟩, ?_, ?_, ?_, ?_, rfl,
    Journal.sound_empty⟩
  · rw [Journal.encode, Journal.empty, List.flatMap_nil, List.append_nil]
    exact hdest'
  · refine ⟨[], ∅, rfl, .nil, fun id => ?_, fun id => AList.lookup_empty id⟩
    exact iff_of_false List.not_mem_nil fun h => by cases h
  · intro name id
    rw [AList.lookup_empty]
    exact iff_of_false (fun h => by cases h) fun h => by cases h.choose_spec.1
  · intro id
    rw [AList.lookup_empty]
    exact (if_neg (Nat.not_lt_zero id)).symm

end Simulated

end ArchiveWriter

/-! ## Whole runs -/

section Runs

variable {ω σ : Type} [Patience] [Sha256] [Read Error σ]

/-- What the calls return from the start on, and the journal behind them. -/
def Journal.run (calls : List (WriterCall σ)) : List (Except Error (Option ArchiveEntryId)) × Journal :=
  outcomes perform calls empty

/-- What holds at the start and whatever is written holds behind any calls. -/
theorem Journal.Kept.run {I : Journal → Prop} (h : Kept I) (hempty : I empty)
    (calls : List (WriterCall σ)) : I (Journal.run calls).2 := by
  refine outcomes_preserves (fun call j hj => ?_) calls hempty
  cases call with
  | startEntry name => exact (preserves_startEntry h name).map _ j hj
  | appendEntryContent id size src => exact (preserves_appendEntryContent h id size src).map _ j hj
  | endEntry id => exact (preserves_endEntry h id).map _ j hj
  | addEntry name size src => exact (preserves_addEntry h name size src).map _ j hj

theorem Journal.sound_run (calls : List (WriterCall σ)) : (run calls).2.Sound :=
  kept_sound.run sound_empty calls

namespace ArchiveWriter

variable [Write Error ω] {Got : ω → Bytes → Prop} {base : Bytes} {n : ℕ}

theorem represents_outcomes (happ : Appends Got) (haccepts : Accepts (base.length + n) Got)
    (hn : n < u64Size) {dest : ω} (hdest : Got dest base) {calls : List (WriterCall σ)}
    (hfits : (Journal.run calls).2.Fits n) :
    ∃ s, fromLayers dest = .ok s ∧ (outcomes perform calls s).1 = (Journal.run calls).1 ∧
      Represents Got base (outcomes perform calls s).2 (Journal.run calls).2 := by
  have hperform := simulates_perform (σ := σ) happ haccepts hn
  have hroom : entriesHeader.length ≤ n := by
    have hstart := fits_of_outcomes hperform calls hfits
    rwa [Journal.Fits, Journal.encode, Journal.empty, List.flatMap_nil, List.append_nil] at hstart
  obtain ⟨s, hmake, hs⟩ := fromLayers_eq happ haccepts hn hdest hroom
  exact ⟨s, hmake, outcomes_simulate hperform calls hs hfits⟩

omit [Patience] [Sha256] [Read Error σ] [Write Error ω] in
theorem mem_index_iff {j : Journal} {id : ArchiveEntryId} {p size : ℕ} :
    (p, size) ∈ (j.index id).offsetsAndSizes ↔
      ∃ before block after, j.blocks = before ++ block :: after ∧ block.id = id ∧
        block.size = size ∧ p = (entriesHeader ++ before.flatMap Written.encode).length := by
  have hextent : ∀ before : List Written, extent (fun block => block.encode.length) before =
      (before.flatMap Written.encode).length := extent_length _
  rw [Journal.index, List.mem_map]
  constructor
  · rintro ⟨⟨q, block⟩, hplace, heq⟩
    obtain ⟨rfl, rfl⟩ := Prod.mk.inj heq
    obtain ⟨before, after, hblocks, hid, rfl⟩ := (mem_places_iff _ _).mp hplace
    exact ⟨before, block, after, hblocks, hid, rfl, by rw [List.length_append, hextent]⟩
  · rintro ⟨before, block, after, hblocks, hid, rfl, rfl⟩
    refine ⟨(_, block), (mem_places_iff _ _).mpr ⟨before, after, hblocks, hid, rfl⟩, ?_⟩
    rw [hextent, List.length_append]

/-- A call that the journal refuses is refused, and nothing is done. -/
theorem Represents.perform_refused {s : ArchiveWriter ω} {j : Journal} (h : Represents Got base s j)
    {call : WriterCall σ} {e : Error} (hcall : Journal.perform call j = .error e j) :
    perform call s = .error e s := by
  have hstart : ∀ {name : EntryName} {e : Error}, Journal.startEntry name j = .error e j →
      startEntry name s = .error e s := by
    intro name e hrun
    rw [Journal.startEntry] at hrun
    split at hrun
    · rename_i hname
      obtain ⟨rfl, -⟩ := EStateM.Result.error.inj hrun
      exact h.startEntry_eq_error hname
    · cases hrun
  cases call with
  | startEntry name =>
      rcases bind_eq_error.mp hcall with hrun | ⟨id, j', -, hrun⟩
      · exact bind_eq_error.mpr (.inl (hstart hrun))
      · cases hrun
  | appendEntryContent id size src =>
      rcases bind_eq_error.mp hcall with hrun | ⟨u, j', -, hrun⟩
      · refine bind_eq_error.mpr (.inl ?_)
        rw [appendEntryContent, bind_apply, h.checkStateFileOpened_eq]
        rw [Journal.appendEntryContent] at hrun
        cases hopen : j.opened id with
        | none =>
            rw [hopen] at hrun
            obtain ⟨rfl, -⟩ := EStateM.Result.error.inj hrun
            rfl
        | some draft =>
            rw [hopen] at hrun
            dsimp only at hrun
            split at hrun
            · cases hrun
            · have hblocks : (j.given id draft size (supply size src).1).blocks = j.blocks := by
                split at hrun
                · cases hrun
                · exact congrArg Journal.blocks (EStateM.Result.error.inj hrun).2
              simp [Journal.given] at hblocks
      · cases hrun
  | endEntry id =>
      rcases bind_eq_error.mp hcall with hrun | ⟨u, j', -, hrun⟩
      · refine bind_eq_error.mpr (.inl ?_)
        rw [endEntry, bind_apply, h.checkStateFileOpened_eq]
        rw [Journal.endEntry] at hrun
        cases hopen : j.opened id with
        | none =>
            rw [hopen] at hrun
            obtain ⟨rfl, -⟩ := EStateM.Result.error.inj hrun
            rfl
        | some draft =>
            rw [hopen] at hrun
            cases hrun
      · cases hrun
  | addEntry name size src =>
      rcases bind_eq_error.mp hcall with hrun | ⟨u, j', -, hrun⟩
      · refine bind_eq_error.mpr (.inl ?_)
        rcases bind_eq_error.mp hrun with hrun | ⟨id, j₁, hrun, hrest⟩
        · exact bind_eq_error.mpr (.inl (hstart hrun))
        · -- Behind its start, the journal has a block that it did not have.
          have hmore : j.blocks.length + 1 ≤ j₁.blocks.length := by
            rw [Journal.startEntry] at hrun
            split at hrun
            · cases hrun
            · obtain ⟨-, rfl⟩ := EStateM.Result.ok.inj hrun
              rw [Journal.started, List.length_append, List.length_singleton]
          have hkept := ((Journal.length_blocks_appendEntryContent id size src _).bind
            fun _ => Journal.length_blocks_endEntry id _) j₁ hmore
          rw [hrest] at hkept
          exact absurd hkept (Nat.not_succ_le_self _)
      · cases hrun

end ArchiveWriter

end Runs

/-- After any calls, with sources that may end early or fail, the writer has answered as the journal
does and stands for it. The places in its index are increasing, and are those of the headers of the
blocks of the entry, each with the size that the block announces; and a call that the journal
refuses changes nothing. -/
theorem ArchiveWriter.calls_keep_journal {ω σ : Type} [Patience] [Sha256] [Write Error ω]
    [Read Error σ] {Got : ω → Bytes → Prop} {base : Bytes} {n : ℕ} (happ : Appends Got)
    (haccepts : Accepts (base.length + n) Got) (hn : n < u64Size) {dest : ω} (hdest : Got dest base)
    {calls : List (WriterCall σ)} (hfits : (Journal.run calls).2.Fits n) :
    ∃ s, fromLayers dest = .ok s ∧ (outcomes perform calls s).1 = (Journal.run calls).1 ∧
      Represents Got base (outcomes perform calls s).2 (Journal.run calls).2 ∧
      (∀ id, ((Journal.run calls).2.index id).offsetsAndSizes.Pairwise (fun a b => a.1 < b.1) ∧
        ∀ p size, (p, size) ∈ ((Journal.run calls).2.index id).offsetsAndSizes ↔
          ∃ before block after, (Journal.run calls).2.blocks = before ++ block :: after ∧
            block.id = id ∧ block.size = size ∧
            p = (entriesHeader ++ before.flatMap Written.encode).length) ∧
      ∀ (call : WriterCall σ) (e : Error),
        Journal.perform call (Journal.run calls).2 = .error e (Journal.run calls).2 →
        perform call (outcomes perform calls s).2 = .error e (outcomes perform calls s).2 := by
  obtain ⟨s, hmake, hreturns, hends⟩ := represents_outcomes happ haccepts hn hdest hfits
  refine ⟨s, hmake, hreturns, hends, fun id => ⟨?_, fun p size => mem_index_iff⟩,
    fun call e hcall => hends.perform_refused hcall⟩
  exact List.pairwise_map.mpr (pairwise_places _ _ Written.encode_pos _ _ _)

namespace ShortSource

scoped instance patience : Patience where
  retries := 0

scoped instance sha256 : Sha256 where
  digest _ := .replicate 32 0

def name : EntryName := ⟨[115], by decide, by decide⟩

/-- Of five bytes that are announced, the source has three; and two calls are refused. -/
def calls : List (WriterCall (Cursor Error)) :=
  [.startEntry name, .appendEntryContent 0 5 ⟨[1, 2, 3], 0⟩, .startEntry name, .endEntry 1,
    .endEntry 0]

theorem calls_keep_journal_short : ∃ s : ArchiveWriter (VecWriter Error),
    ArchiveWriter.fromLayers ⟨[]⟩ = .ok s ∧
    ((outcomes ArchiveWriter.perform calls s).2.idsInfo.lookup 0).map EntryInfo.offsetsAndSizes =
      some [(9, 0), (32, 5), (57, 0)] := by
  have hfits : (Journal.run calls).2.Fits 200 :=
    show (Journal.run calls).2.encode.length ≤ 200 by decide
  obtain ⟨s, hmake, -, hends, -⟩ := ArchiveWriter.calls_keep_journal VecWriter.appends
    (VecWriter.accepts _) (by decide) (show VecWriter.Got (⟨[]⟩ : VecWriter Error) [] from rfl) hfits
  refine ⟨s, hmake, ?_⟩
  rw [hends.idsInfo]
  decide

end ShortSource

end Mla
