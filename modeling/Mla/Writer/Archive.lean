import Mathlib.Data.List.AList
import Mathlib.Data.List.Sort
import Mla.Entries.Block
import Mla.Layers.Position

/-!
# The archive writer

Entries are started, given content and ended in any order, each block going to the layer
below as it comes. The writer remembers where the blocks of each entry are, and writes this
index behind them when it is finalized.
-/

namespace Mla

open Io

/-- The maps of the program are lists of pairs without two equal keys. -/
abbrev HashMap (α β : Type) := AList fun _ : α => β

inductive ArchiveWriterState
  | openedFiles (ids : List ArchiveEntryId) (hashes : HashMap ArchiveEntryId Bytes)
  | finalized

structure EntryInfo where
  offsetsAndSizes : List (ℕ × ℕ)
  deriving DecidableEq

/-! ## The footer -/

namespace ArchiveFooter

variable {ω : Type} [Patience] [Write Error ω]

def serializeEntryInfo (info : EntryInfo) : EStateM Error ω ℕ :=
  serializeVec (serializePair serializeU64 serializeU64) info.offsetsAndSizes

/-- The names with what is known of their entries. -/
def combine (idsInfo : HashMap ArchiveEntryId EntryInfo) :
    List (Sigma fun _ : EntryName => ArchiveEntryId) → Except Error (List (EntryName × EntryInfo))
  | [] => pure []
  | ⟨name, id⟩ :: entries => do
      let info ← orError (idsInfo.lookup id)
        (.wrongWriterState "[ArchiveFooter seriliaze] Unable to find the ID")
      let rest ← combine idsInfo entries
      pure ((name, info) :: rest)

def sortByName (entries : List (EntryName × EntryInfo)) : List (EntryName × EntryInfo) :=
  entries.mergeSort fun a b => EntryName.le a.1 b.1

/-- The entries, after `length` bytes of the footer. -/
def serializeEntries : ℕ → List (EntryName × EntryInfo) → EStateM Error ω ℕ
  | length, [] => pure length
  | length, (name, info) :: entries => do
      let n ← serializeEntryName name
      let length ← okOr (checkedAdd length n) .serializationError
      let m ← serializeEntryInfo info
      let length ← okOr (checkedAdd length m) .serializationError
      serializeEntries length entries

def serializeInto (entriesInfo : HashMap EntryName ArchiveEntryId)
    (idsInfo : HashMap ArchiveEntryId EntryInfo) : EStateM Error ω Unit := fun s =>
  match combine idsInfo entriesInfo.entries with
  | .error e => .error e s
  | .ok entries =>
      (do
        let _ ← serializeU64 entries.length
        let length ← serializeEntries 8 (sortByName entries)
        -- One more, for the byte that tells that there is an index.
        let length ← okOr (checkedAdd length 1) .serializationError
        let _ ← serializeU64 length
        pure () : EStateM Error ω Unit) s

end ArchiveFooter

/-! ## The writer -/

structure ArchiveWriter (ω : Type) where
  dest : PositionLayerWriter ω
  state : ArchiveWriterState
  entriesInfo : HashMap EntryName ArchiveEntryId
  idsInfo : HashMap ArchiveEntryId EntryInfo
  nextId : ArchiveEntryId
  currentId : ArchiveEntryId

namespace ArchiveWriter

variable {W ω σ : Type} [Patience]

def onDest {α : Type} (x : EStateM Error (PositionLayerWriter ω) α) :
    EStateM Error (ArchiveWriter ω) α :=
  zoom ArchiveWriter.dest (fun dest s => { s with dest := dest }) x

/-- The last steps of `from_config`, on top of all layers. -/
def fromLayers [Write Error ω] (dest : ω) : Except Error (ArchiveWriter ω) := do
  let (_, dest) ← runOn (do
    put entriesLayerMagic
    Opts.dump) (PositionLayerWriter.new dest).resetPosition
  pure ⟨dest, .openedFiles [] ∅, ∅, ∅, 0, 0⟩

def checkState : EStateM Error (ArchiveWriter ω) Unit := do
  let s ← get
  match s.state with
  | .openedFiles _ _ => pure ()
  | .finalized => throw (.wrongArchiveWriterState "ArchiveWriterState::$y")

def checkStateFileOpened (id : ArchiveEntryId) : EStateM Error (ArchiveWriter ω) Unit := do
  let s ← get
  match s.state with
  | .openedFiles ids hashes =>
      if id ∉ ids ∨ id ∉ hashes then
        throw (.wrongArchiveWriterState "ArchiveWriterState with id $y")
      else pure ()
  | .finalized => throw (.wrongArchiveWriterState "ArchiveWriterState with id $y")

/-- The position is that of the header of the block that comes next. -/
def recordOffsetAndSizeInIndex (id : ArchiveEntryId) (size : ℕ) :
    EStateM Error (ArchiveWriter ω) Unit := do
  let s ← get
  match s.idsInfo.lookup id with
  | some info =>
      let info := ⟨info.offsetsAndSizes ++ [(s.dest.position, size)]⟩
      set { s with idsInfo := s.idsInfo.insert id info, currentId := id }
  | none => throw (.wrongWriterState "[mark_continuous_block] Unable to find the ID")

section Calls

variable [Write Error ω]

def startEntry (name : EntryName) : EStateM Error (ArchiveWriter ω) ArchiveEntryId := do
  checkState
  let s ← get
  if name ∈ s.entriesInfo then throw .duplicateEntryName
  else do
    let id := s.nextId
    let nextId ← okOr (checkedAdd s.nextId 1) .serializationError
    set { s with
      nextId := nextId
      currentId := id
      entriesInfo := s.entriesInfo.insert name id
      idsInfo := s.idsInfo.insert id ⟨[(s.dest.position, 0)]⟩ }
    onDest (ArchiveEntryBlock.entryStart name id).dump
    let s ← get
    match s.state with
    | .openedFiles ids hashes => do
        set { s with state := .openedFiles (ids ++ [id]) (hashes.insert id []) }
        pure id
    | .finalized =>
        throw (.wrongWriterState "[StartFile] State have changes inside start_file")

/-- The content is hashed as it is read; the hash is kept whatever comes of the copy. -/
def dumpHashed [Read Error σ] (id : ArchiveEntryId) (size : ℕ) (src : σ) :
    EStateM Error (ArchiveWriter ω) Unit := fun s =>
  match s.state with
  | .openedFiles ids hashes =>
      match hashes.lookup id with
      | some hash =>
          match ArchiveEntryBlock.dumpContent size id ((⟨src, hash⟩ : HashWrapperReader σ), s.dest) with
          | .ok _ (src, dest) =>
              .ok () { s with dest := dest, state := .openedFiles ids (hashes.insert id src.hash) }
          | .error e (src, dest) =>
              .error e { s with dest := dest, state := .openedFiles ids (hashes.insert id src.hash) }
      | none => .error (.wrongWriterState "[wrap_with_hash] Unable to find the ID") s
  | .finalized => .error (.wrongWriterState "[wrap_with_hash] Wrong state") s

def appendEntryContent [Read Error σ] (id : ArchiveEntryId) (size : ℕ) (src : σ) :
    EStateM Error (ArchiveWriter ω) Unit := do
  checkStateFileOpened id
  -- No block is written for an empty content.
  if size = 0 then pure ()
  else do
    recordOffsetAndSizeInIndex id size
    dumpHashed id size src

def endEntry [Sha256] (id : ArchiveEntryId) : EStateM Error (ArchiveWriter ω) Unit := do
  checkStateFileOpened id
  let s ← get
  match s.state with
  | .openedFiles ids hashes => do
      let hash ← okOr (hashes.lookup id)
        (.wrongWriterState "[EndFile] Unable to retrieve the hash")
      set { s with state := .openedFiles (ids.erase id) (hashes.erase id) }
      recordOffsetAndSizeInIndex id 0
      onDest (ArchiveEntryBlock.endOfEntry id (Sha256.digest hash)).dump
  | .finalized => throw (.wrongWriterState "[EndFile] State have changes inside end_file")

def addEntry [Read Error σ] [Sha256] (name : EntryName) (size : ℕ) (src : σ) :
    EStateM Error (ArchiveWriter ω) Unit := do
  let id ← startEntry name
  appendEntryContent id size src
  endEntry id

/-- What `finalize` writes before it finalizes the layers. -/
def writeFooter (entriesInfo : HashMap EntryName ArchiveEntryId)
    (idsInfo : HashMap ArchiveEntryId EntryInfo) : EStateM Error ω Unit := do
  ArchiveEntryBlock.endOfArchiveData.dump
  -- There is always an index.
  put [1]
  ArchiveFooter.serializeInto entriesInfo idsInfo
  put emptyTailOptsSerialization

end Calls

def finalize [LayerWriter W ω] [Write Error W] (s : ArchiveWriter ω) : Except Error W := do
  match s.state with
  | .openedFiles ids hashes => do
      if ¬ ids.isEmpty ∨ ¬ hashes.entries.isEmpty then
        throw (.wrongWriterState "[Finalize] At least one file is still open")
      else do
        let (_, dest) ← runOn (writeFooter s.entriesInfo s.idsInfo) s.dest
        let finalDest ← LayerWriter.finalize dest
        let (_, finalDest) ← runOn (do
          put emptyTailOptsSerialization
          put endMlaMagic) finalDest
        pure finalDest
  | .finalized => throw (.wrongArchiveWriterState "ArchiveWriterState::$y")

end ArchiveWriter

end Mla
