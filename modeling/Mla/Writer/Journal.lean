import Mla.Entries.Codec
import Mla.Io.Laid
import Mla.Io.Supply
import Mla.Writer.Archive

/-!
# The journal of an archive

What an archive that is being written consists of: its entries in the order in which they were
started, each with the content that it has been given so far, and the blocks that tell of them.
The id of an entry is its place in the journal. A source may supply less than it was said to: the
content is what came of it, while the block announces what was asked for.
-/

namespace Mla

open Io

/-! ## Blocks as they are written -/

/-- Of a content, the size that is announced and the data that came. -/
inductive Written
  | entryStart (id : ArchiveEntryId) (name : EntryName)
  | entryContent (id : ArchiveEntryId) (size : ℕ) (data : Bytes)
  | endOfEntry (id : ArchiveEntryId) (hash : Sha256Hash)

namespace Written

def id : Written → ArchiveEntryId
  | entryStart id _ => id
  | entryContent id _ _ => id
  | endOfEntry id _ => id

/-- The size that stands in the index. -/
def size : Written → ℕ
  | entryContent _ size _ => size
  | _ => 0

def data : Written → Bytes
  | entryContent _ _ data => data
  | _ => []

def parsed : Written → ArchiveEntryBlock
  | entryStart id name => .entryStart name id
  | entryContent id size _ => .entryContent size id
  | endOfEntry id hash => .endOfEntry id hash

def header : Written → Bytes
  | entryStart id name => (Block.entryStart id name none).header
  | entryContent id size _ =>
      archiveEntryBlockMagic ++ (1 :: (leBytes 8 id ++ (emptyOptsSerialization ++ leBytes 8 size)))
  | endOfEntry id hash => (Block.endOfEntry id none hash).header

def encode (block : Written) : Bytes := block.header ++ block.data

/-- The block of the format, for a content as long as it is announced. -/
def block : Written → Block
  | entryStart id name => .entryStart id name none
  | entryContent id _ data => .entryContent id none data
  | endOfEntry id hash => .endOfEntry id none hash

/-- All that was announced came. -/
def Whole (block : Written) : Prop := block.data.length = block.size

@[simp] theorem id_block (block : Written) : block.block.id = block.id := by
  cases block <;> rfl

@[simp] theorem data_block (block : Written) : block.block.data = block.data := by
  cases block <;> rfl

theorem Whole.size_block {block : Written} (h : block.Whole) : block.block.size = block.size := by
  rw [Block.size, data_block, h]

theorem Whole.encode_block {block : Written} (h : block.Whole) : block.block.encode = block.encode := by
  cases block with
  | entryStart id name => rfl
  | entryContent id size data =>
      obtain rfl : data.length = size := h
      rfl
  | endOfEntry id hash => rfl

theorem header_pos (block : Written) : 0 < block.header.length := by
  cases block <;> exact Nat.succ_pos _

theorem encode_pos (block : Written) : 0 < block.encode.length := by
  rw [encode, List.length_append]
  exact Nat.add_pos_left block.header_pos _

theorem emits_dump {ω : Type} [Patience] [Write Error ω] (block : Written) :
    Emits (block.parsed.dump : EStateM Error ω Unit) block.header () := by
  cases block with
  | entryStart id name => exact emits_block (.entryStart id name none) rfl
  | entryContent id size data =>
      exact (Emits.put archiveEntryBlockMagic).seq ((emits_u8 1).bind ((emits_u64 id).bind
        (emits_opts.bind (((emits_u64 size).bind (Emits.pure ())).cast (List.append_nil _) rfl))))
  | endOfEntry id hash => exact emits_block (.endOfEntry id none hash) rfl

end Written

/-! ## Journals -/

/-- An entry that is being written. -/
structure Draft where
  name : EntryName
  content : Bytes
  ended : Bool

structure Journal where
  drafts : List Draft
  blocks : List Written

/-- What stands before the blocks. -/
def entriesHeader : Bytes := entriesLayerMagic ++ emptyOptsSerialization

namespace Journal

variable {σ : Type}

def empty : Journal := ⟨[], []⟩

def encode (j : Journal) : Bytes := entriesHeader ++ j.blocks.flatMap Written.encode

/-- The blocks of an entry: where they start, and the sizes that they announce. -/
def index (j : Journal) (id : ArchiveEntryId) : EntryInfo :=
  ⟨(places (fun block => block.encode.length) Written.id id entriesHeader.length j.blocks).map
    fun place => (place.1, place.2.size)⟩

/-- The entry, when it can be written to. -/
def opened (j : Journal) (id : ArchiveEntryId) : Option Draft :=
  j.drafts[id]?.filter fun draft => !draft.ended

def names (j : Journal) : List EntryName := j.drafts.map Draft.name

/-- The error of a call on an entry that cannot be written to. -/
def notOpened : Error := .wrongArchiveWriterState "ArchiveWriterState with id $y"

def started (j : Journal) (name : EntryName) : Journal :=
  ⟨j.drafts ++ [⟨name, [], false⟩], j.blocks ++ [.entryStart j.drafts.length name]⟩

def given (j : Journal) (id : ArchiveEntryId) (draft : Draft) (size : ℕ) (data : Bytes) : Journal :=
  ⟨j.drafts.set id { draft with content := draft.content ++ data },
    j.blocks ++ [.entryContent id size data]⟩

def closed [Sha256] (j : Journal) (id : ArchiveEntryId) (draft : Draft) : Journal :=
  ⟨j.drafts.set id { draft with ended := true },
    j.blocks ++ [.endOfEntry id (Sha256.digest draft.content)]⟩

def startEntry (name : EntryName) : EStateM Error Journal ArchiveEntryId := fun j =>
  if name ∈ j.names then .error .duplicateEntryName j
  else .ok j.drafts.length (j.started name)

def appendEntryContent [Patience] [Read Error σ] (id : ArchiveEntryId) (size : ℕ) (src : σ) :
    EStateM Error Journal Unit := fun j =>
  match j.opened id with
  | none => .error notOpened j
  | some draft =>
      if size = 0 then .ok () j
      else
        let j' := j.given id draft size (supply size src).1
        match (supply size src).2 with
        | .ok _ _ => .ok () j'
        | .error e _ => .error (.ioError e) j'

def endEntry [Sha256] (id : ArchiveEntryId) : EStateM Error Journal Unit := fun j =>
  match j.opened id with
  | none => .error notOpened j
  | some draft => .ok () (j.closed id draft)

def addEntry [Patience] [Read Error σ] [Sha256] (name : EntryName) (size : ℕ) (src : σ) :
    EStateM Error Journal Unit := do
  let id ← startEntry name
  appendEntryContent id size src
  endEntry id

variable {j : Journal} {id other : ArchiveEntryId} {draft : Draft}

theorem opened_eq_some : j.opened id = some draft ↔ j.drafts[id]? = some draft ∧ draft.ended = false := by
  simp [opened, Option.filter_eq_some_iff]

theorem lt_of_opened (h : j.opened id = some draft) : id < j.drafts.length :=
  (List.getElem?_eq_some_iff.mp (opened_eq_some.mp h).1).1

/-- An entry that is written to stays where it is, and so do the others. -/
theorem getElem?_set_of_opened (h : j.opened id = some draft) (draft' : Draft) :
    (j.drafts.set id draft')[other]? = if id = other then some draft' else j.drafts[other]? := by
  rw [List.getElem?_set, if_pos (lt_of_opened h)]

theorem names_set (h : j.opened id = some draft) {draft' : Draft} (hname : draft'.name = draft.name) :
    (j.drafts.set id draft').map Draft.name = j.names := by
  obtain ⟨hlt, hget⟩ := List.getElem?_eq_some_iff.mp (opened_eq_some.mp h).1
  have hlt' : id < j.names.length := by rwa [names, List.length_map]
  have hsame : j.names[id] = draft.name := by
    rw [← hget]
    exact List.getElem_map _
  rw [List.map_set, hname, ← hsame]
  exact List.set_getElem_self _

/-! ## Where the blocks are -/

theorem index_snoc_of_eq {block : Written} (h : block.id = id) (drafts : List Draft) :
    index ⟨drafts, j.blocks ++ [block]⟩ id =
      ⟨(j.index id).offsetsAndSizes ++ [(j.encode.length, block.size)]⟩ := by
  have hextent : extent (fun block : Written => block.encode.length) j.blocks =
      (j.blocks.flatMap Written.encode).length := extent_length _ _
  rw [index, places_append, places_cons_of_eq _ _ _ h, places_nil, List.map_append, List.map_singleton,
    hextent, encode, List.length_append]
  rfl

theorem index_snoc_of_ne {block : Written} (h : block.id ≠ id) (drafts : List Draft) :
    index ⟨drafts, j.blocks ++ [block]⟩ id = j.index id := by
  rw [index, places_append, places_cons_of_ne _ _ _ h, places_nil, List.append_nil]
  rfl

theorem encode_snoc (drafts : List Draft) (block : Written) :
    encode ⟨drafts, j.blocks ++ [block]⟩ = j.encode ++ block.encode := by
  rw [encode, List.flatMap_append, List.flatMap_singleton, ← List.append_assoc]
  rfl

/-! ## Blocks are only added -/

theorem length_blocks_appendEntryContent [Patience] [Read Error σ] (id : ArchiveEntryId) (size : ℕ)
    (src : σ) (m : ℕ) :
    Preserves (fun j => m ≤ j.blocks.length) (appendEntryContent id size src) := by
  intro j hj
  rw [appendEntryContent]
  cases j.opened id with
  | none => exact hj
  | some draft =>
      have hadded : m ≤ (j.given id draft size (supply size src).1).blocks.length := by
        rw [given, List.length_append]
        exact Nat.le_add_right_of_le hj
      dsimp only
      split
      · exact hj
      · cases (supply size src).2 <;> exact hadded

theorem length_blocks_endEntry [Sha256] (id : ArchiveEntryId) (m : ℕ) :
    Preserves (fun j => m ≤ j.blocks.length) (endEntry id) := by
  intro j hj
  rw [endEntry]
  cases j.opened id with
  | none => exact hj
  | some draft =>
      change m ≤ (j.blocks ++ [_]).length
      rw [List.length_append]
      exact Nat.le_add_right_of_le hj

/-! ## What the blocks tell -/

section Sound

variable [Sha256]

/-- The blocks of one entry: its start, the pieces of its content, and its end when it is ended. -/
def Tells (id : ArchiveEntryId) (draft : Draft) (own : List Written) : Prop :=
  ∃ pieces : List (ℕ × Bytes), (∀ piece ∈ pieces, piece.1 ≠ 0) ∧
    pieces.flatMap Prod.snd = draft.content ∧
    own = .entryStart id draft.name ::
      (pieces.map (fun piece => .entryContent id piece.1 piece.2) ++
        if draft.ended then [.endOfEntry id (Sha256.digest draft.content)] else [])

/-- No two entries have one name, and the blocks tell of the entries and of nothing else. -/
structure Sound (j : Journal) : Prop where
  nodup : j.names.Nodup
  known : ∀ block ∈ j.blocks, block.id < j.drafts.length
  tells : ∀ id draft, j.drafts[id]? = some draft →
    Tells id draft (j.blocks.filter fun block => block.id = id)

theorem sound_empty : Sound empty where
  nodup := .nil
  known block hblock := absurd hblock List.not_mem_nil
  tells id draft h := by
    rw [empty, List.getElem?_nil] at h
    cases h

omit [Sha256] in
theorem filter_snoc_of_ne {block : Written} (h : block.id ≠ id) :
    (j.blocks ++ [block]).filter (fun block => block.id = id) =
      j.blocks.filter fun block => block.id = id := by
  rw [List.filter_append, List.filter_singleton]
  simp [h]

omit [Sha256] in
theorem filter_snoc_of_eq {block : Written} (h : block.id = id) :
    (j.blocks ++ [block]).filter (fun block => block.id = id) =
      (j.blocks.filter fun block => block.id = id) ++ [block] := by
  rw [List.filter_append, List.filter_singleton]
  simp [h]

theorem Sound.started (h : j.Sound) {name : EntryName} (hname : name ∉ j.names) :
    (j.started name).Sound where
  nodup := by
    rw [names, Journal.started, List.map_append, List.map_singleton]
    exact h.nodup.append (List.nodup_singleton name) (List.disjoint_singleton.mpr hname)
  known block hblock := by
    rw [Journal.started, List.length_append, List.length_singleton]
    rcases List.mem_append.mp hblock with hold | hnew
    · exact Nat.lt_succ_of_lt (h.known block hold)
    · obtain rfl := List.mem_singleton.mp hnew
      exact Nat.lt_succ_self _
  tells id draft hdraft := by
    rcases Nat.lt_or_ge id j.drafts.length with hlt | hge
    · rw [Journal.started, List.getElem?_append_left hlt] at hdraft
      rw [Journal.started, filter_snoc_of_ne (Nat.ne_of_gt hlt)]
      exact h.tells id draft hdraft
    · rw [Journal.started, List.getElem?_append_right hge, List.getElem?_singleton] at hdraft
      split at hdraft
      · rename_i hzero
        obtain rfl : id = j.drafts.length := Nat.le_antisymm (Nat.le_of_sub_eq_zero hzero) hge
        obtain rfl := Option.some.inj hdraft
        have hnone : (j.blocks.filter fun block => block.id = j.drafts.length) = [] := by
          refine List.filter_eq_nil_iff.mpr fun block hblock => ?_
          simpa using Nat.ne_of_lt (h.known block hblock)
        have hown : ((j.started name).blocks.filter fun block => block.id = j.drafts.length) =
            [.entryStart j.drafts.length name] := by
          have hid : (Written.entryStart j.drafts.length name).id = j.drafts.length := rfl
          rw [Journal.started, filter_snoc_of_eq hid, hnone, List.nil_append]
        rw [hown]
        exact ⟨[], fun piece hpiece => absurd hpiece List.not_mem_nil, rfl, rfl⟩
      · cases hdraft

/-- A block of an entry that can be written to is the next one of this entry. -/
theorem Sound.written (h : j.Sound) (hopen : j.opened id = some draft) {draft' : Draft}
    {block : Written} (hname : draft'.name = draft.name) (hid : block.id = id)
    (htells : ∀ own, Tells id draft own → Tells id draft' (own ++ [block])) :
    Sound ⟨j.drafts.set id draft', j.blocks ++ [block]⟩ where
  nodup := by
    rw [names, names_set hopen hname]
    exact h.nodup
  known other hother := by
    rw [List.length_set]
    rcases List.mem_append.mp hother with hold | hnew
    · exact h.known other hold
    · obtain rfl := List.mem_singleton.mp hnew
      rw [hid]
      exact lt_of_opened hopen
  tells other draft₁ hdraft := by
    rw [getElem?_set_of_opened hopen] at hdraft
    split at hdraft
    · rename_i heq
      subst heq
      obtain rfl := Option.some.inj hdraft
      rw [filter_snoc_of_eq hid]
      exact htells _ (h.tells id draft (opened_eq_some.mp hopen).1)
    · rename_i hne
      rw [filter_snoc_of_ne (hid ▸ hne)]
      exact h.tells other draft₁ hdraft

theorem Sound.given (h : j.Sound) (hopen : j.opened id = some draft) {size : ℕ} (hsize : size ≠ 0)
    (data : Bytes) : (j.given id draft size data).Sound := by
  refine h.written hopen rfl rfl ?_
  rintro own ⟨pieces, hpieces, hcontent, rfl⟩
  refine ⟨pieces ++ [(size, data)], ?_, ?_, ?_⟩
  · rw [List.forall_mem_append]
    exact ⟨hpieces, List.forall_mem_singleton.mpr hsize⟩
  · rw [List.flatMap_append, List.flatMap_singleton, hcontent]
  · have hended := (opened_eq_some.mp hopen).2
    simp [hended]

theorem Sound.closed (h : j.Sound) (hopen : j.opened id = some draft) : (j.closed id draft).Sound := by
  refine h.written hopen rfl rfl ?_
  rintro own ⟨pieces, hpieces, hcontent, rfl⟩
  refine ⟨pieces, hpieces, hcontent, ?_⟩
  have hended := (opened_eq_some.mp hopen).2
  simp [hended]

/-- What holds of a journal whatever is written to it. -/
structure Kept (I : Journal → Prop) : Prop where
  started : ∀ {j name}, I j → name ∉ j.names → I (j.started name)
  given : ∀ {j id draft size} (data : Bytes), I j → j.opened id = some draft → size ≠ 0 →
    I (j.given id draft size data)
  closed : ∀ {j id draft}, I j → j.opened id = some draft → I (j.closed id draft)

theorem kept_sound : Kept Sound where
  started h hname := h.started hname
  given data h hopen hsize := h.given hopen hsize data
  closed h hopen := h.closed hopen

section Preserves

variable {I : Journal → Prop} (h : Kept I)
include h

theorem preserves_startEntry (name : EntryName) : Preserves I (startEntry name) := by
  intro j hj
  rw [startEntry]
  split
  · exact hj
  · rename_i hname
    exact h.started hj hname

theorem preserves_appendEntryContent [Patience] [Read Error σ] (id : ArchiveEntryId) (size : ℕ)
    (src : σ) : Preserves I (appendEntryContent id size src) := by
  intro j hj
  rw [appendEntryContent]
  cases hopen : j.opened id with
  | none => exact hj
  | some draft =>
      dsimp only
      split
      · exact hj
      · rename_i hsize
        cases (supply size src).2 <;> exact h.given _ hj hopen hsize

theorem preserves_endEntry (id : ArchiveEntryId) : Preserves I (endEntry id) := by
  intro j hj
  rw [endEntry]
  cases hopen : j.opened id with
  | none => exact hj
  | some draft => exact h.closed hj hopen

theorem preserves_addEntry [Patience] [Read Error σ] (name : EntryName) (size : ℕ) (src : σ) :
    Preserves I (addEntry name size src) :=
  (preserves_startEntry h name).bind fun id => (preserves_appendEntryContent h id size src).bind
    fun _ => preserves_endEntry h id

end Preserves

end Sound

end Journal

end Mla
