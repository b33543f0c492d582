import Mla.Io.Fill
import Mla.Io.Simulates
import Mla.Names.Path
import Mla.Reader.Open
import Mla.Writer.Archive

/-!
# Converting a truncated archive

The blocks of an archive are read from its start for as long as they make sense, and what they tell
is given to the writer of another archive. In the end the entries that were left open are ended, and
the other archive is finalized.
-/

namespace Mla

open Io

inductive TruncatedReadError
  | noError
  | unexpectedEofOnNextBlock
  | ioErrorOnNextBlock (err : IoError Error)
  | errorOnNextBlock (err : Error)
  | errorInFile (err : IoError Error) (entry : Bytes)
  | archiveEntryIdReuse (id : ArchiveEntryId)
  | entryNameReuse (entry : Bytes)
  | archiveEntryIdAlreadyClosed (id : ArchiveEntryId)
  | contentForUnknownFile (id : ArchiveEntryId)
  | eofForUnknownFile (id : ArchiveEntryId)
  | unfinishedEntries (names : List EntryName) (stoppingError : TruncatedReadError)
  | endOfOriginalArchiveData
  | truncatedReadInternalError
  | hashDiffers (expected obtained : Sha256Hash)

/-- Why the conversion stops where no block could be read. -/
def TruncatedReadError.ofNextBlock : Error → TruncatedReadError
  | .ioError (.kind .unexpectedEof) => unexpectedEofOnNextBlock
  | .ioError err => ioErrorOnNextBlock err
  | err => errorOnNextBlock err

/-- The order in which the pairs of a map are gone through is not told. -/
class IterationOrder where
  order {α : Type} : List α → List α
  perm {α : Type} (l : List α) : (order l).Perm l

/-- What the entries that are recovered are given to. -/
class WriteEntries (τ : Type) where
  startEntry : EntryName → EStateM Error τ ArchiveEntryId
  appendEntryContent : ArchiveEntryId → Bytes → EStateM Error τ Unit
  endEntry : ArchiveEntryId → EStateM Error τ Unit

instance ArchiveWriter.instWriteEntries {ω : Type} [Patience] [Sha256] [Write Error ω] :
    WriteEntries (ArchiveWriter ω) where
  startEntry := startEntry
  appendEntryContent id buf := appendEntryContent id buf.length (⟨buf, 0⟩ : Cursor Error)
  endEntry := endEntry

/-! ## Contents -/

/-- `CACHE_SIZE`. -/
def cacheSize : ℕ := 8 * 1024 * 1024

/-- The copy of a content: what is left of it, where it goes, and its hash. -/
structure ContentCopy (σ τ : Type) where
  src : Take σ
  output : τ
  hash : Bytes

namespace ContentCopy

variable {σ τ : Type} [Read Error σ] [WriteEntries τ]

def append (idOutput : ArchiveEntryId) (buf : Bytes) : EStateM Error (ContentCopy σ τ) Unit :=
  zoom ContentCopy.output (fun output s => { s with output := output })
    (WriteEntries.appendEntryContent idOutput buf)

/-- What a filling gets, and the error that ended it. -/
def fillCache : EStateM Error (ContentCopy σ τ) (Bytes × Option (IoError Error)) := fun s =>
  let filled := fill cacheSize s.src
  match filled.2 with
  | .ok _ src => .ok (filled.1, none) { s with src := src }
  | .error err src => .ok (filled.1, some err) { s with src := src }

/-- Buffer by buffer, up to one that is not full. -/
def copyLoop (idOutput : ArchiveEntryId) (entry : EntryName) :
    ℕ → EStateM Error (ContentCopy σ τ) (Option TruncatedReadError)
  | 0 => throw (.ioError (.kind .exhausted))
  | fuel + 1 => do
      let (buf, failure) ← fillCache
      append idOutput buf
      match failure with
      | some err => pure (some (.errorInFile err entry.rawContentToEscapedString))
      | none => do
          modify fun s => { s with hash := s.hash ++ buf }
          if buf.length < cacheSize then pure none else copyLoop idOutput entry fuel

/-- The buffers that are full take up the limit; the next one is not, and at worst the one behind. -/
def copy (idOutput : ArchiveEntryId) (entry : EntryName) (length : ℕ) :
    EStateM Error (ContentCopy σ τ) (Option TruncatedReadError) :=
  copyLoop idOutput entry (length / cacheSize + 2)

end ContentCopy

/-! ## Blocks -/

/-- The variables of the conversion. The ids of the archive that is read are not those of the one
that is written. -/
structure Conversion (σ τ : Type) where
  src : σ
  output : τ
  idTruncated2idOutput : HashMap ArchiveEntryId ArchiveEntryId
  idTruncated2entryname : HashMap ArchiveEntryId EntryName
  idTruncatedDone : List ArchiveEntryId
  idTruncated2hash : HashMap ArchiveEntryId Bytes

namespace Conversion

variable {σ τ α : Type} [Patience] [Sha256] [Read Error σ] [WriteEntries τ]

def new (src : σ) (output : τ) : Conversion σ τ := ⟨src, output, ∅, ∅, [], ∅⟩

def onOutput (x : EStateM Error τ α) : EStateM Error (Conversion σ τ) α :=
  zoom Conversion.output (fun output s => { s with output := output }) x

def entryStart (name : EntryName) (id : ArchiveEntryId) :
    EStateM (Failure Error) (Conversion σ τ) (Option TruncatedReadError) := do
  match ← gets fun s => s.idTruncated2idOutput.lookup id with
  | some _ => pure (some (.archiveEntryIdReuse id))
  | none => do
      let done ← gets Conversion.idTruncatedDone
      if id ∈ done then pure (some (.archiveEntryIdAlreadyClosed id))
      else do
        modify fun s => { s with
          idTruncated2entryname := s.idTruncated2entryname.insert id name }
        match ← attempt (onOutput (WriteEntries.startEntry name)) with
        | .error .duplicateEntryName =>
            pure (some (.entryNameReuse name.rawContentToEscapedString))
        | .error err => throw (.error err)
        | .ok idOutput => do
            modify fun s => { s with
              idTruncated2idOutput := s.idTruncated2idOutput.insert id idOutput
              idTruncated2hash := s.idTruncated2hash.insert id [] }
            pure none

/-- The copy of a content is given the hash, and hands it back. -/
def copyContent (idOutput : ArchiveEntryId) (entry : EntryName) (length : ℕ) (id : ArchiveEntryId)
    (hash : Bytes) : EStateM Error (Conversion σ τ) (Option TruncatedReadError) :=
  zoom (fun s => ⟨Take.new s.src length, s.output, hash⟩)
    (fun copy s => { s with
      src := copy.src.inner
      output := copy.output
      idTruncated2hash := s.idTruncated2hash.insert id copy.hash })
    (ContentCopy.copy idOutput entry length)

def entryContent (length : ℕ) (id : ArchiveEntryId) :
    EStateM (Failure Error) (Conversion σ τ) (Option TruncatedReadError) := do
  match ← gets fun s => s.idTruncated2idOutput.lookup id with
  | none => pure (some (.contentForUnknownFile id))
  | some idOutput => do
      let done ← gets Conversion.idTruncatedDone
      if id ∈ done then pure (some (.archiveEntryIdAlreadyClosed id))
      else do
        let entry ← orPanic (← gets fun s => s.idTruncated2entryname.lookup id)
        let hash ← orPanic (← gets fun s => s.idTruncated2hash.lookup id)
        noPanic (copyContent idOutput entry length id hash)

def endOfEntry (id : ArchiveEntryId) (hash : Sha256Hash) :
    EStateM (Failure Error) (Conversion σ τ) (Option TruncatedReadError) := do
  match ← gets fun s => s.idTruncated2idOutput.lookup id with
  | none => pure (some (.eofForUnknownFile id))
  | some idOutput => do
      let done ← gets Conversion.idTruncatedDone
      if id ∈ done then pure (some (.archiveEntryIdAlreadyClosed id))
      else do
        match ← gets fun s => s.idTruncated2hash.lookup id with
        | none => pure (some .truncatedReadInternalError)
        | some hashArchive => do
            modify fun s => { s with idTruncated2hash := s.idTruncated2hash.erase id }
            if Sha256.digest hashArchive ≠ hash then
              pure (some (.hashDiffers (Sha256.digest hashArchive) hash))
            else do
              noPanic (onOutput (WriteEntries.endEntry idOutput))
              modify fun s => { s with idTruncatedDone := s.idTruncatedDone ++ [id] }
              pure none

/-- What a block does; an error that is returned ends the reading of blocks. -/
def block : ArchiveEntryBlock → EStateM (Failure Error) (Conversion σ τ) (Option TruncatedReadError)
  | .entryStart name id => entryStart name id
  | .entryContent length id => entryContent length id
  | .endOfEntry id hash => endOfEntry id hash
  | .endOfArchiveData => pure (some .endOfOriginalArchiveData)

def readBlock : EStateM (Failure Error) (Conversion σ τ) (Option TruncatedReadError) := do
  let next ← attempt (zoom Conversion.src (fun src s => { s with src := src })
    ArchiveEntryBlock.fromReader)
  match next with
  | .error err => pure (some (.ofNextBlock err))
  | .ok next => block next

/-- `fuel` blocks are read at most. -/
def readBlocks : ℕ → EStateM (Failure Error) (Conversion σ τ) (Option TruncatedReadError)
  | 0 => pure none
  | fuel + 1 => do
      match ← readBlock with
      | some error => pure (some error)
      | none => readBlocks fuel

/-- The entries that are still open are ended. -/
def cleanUp : List (Sigma fun _ : ArchiveEntryId => ArchiveEntryId) →
    EStateM (Failure Error) (Conversion σ τ) (List EntryName)
  | [] => pure []
  | ⟨idTruncated, idOutput⟩ :: ids => do
      let done ← gets Conversion.idTruncatedDone
      if idTruncated ∈ done then cleanUp ids
      else do
        let entry ← orPanic (← gets fun s => s.idTruncated2entryname.lookup idTruncated)
        noPanic (onOutput (WriteEntries.endEntry idOutput))
        let unfinishedFiles ← cleanUp ids
        pure (entry :: unfinishedFiles)

/-- The reason why the conversion has stopped, if it has within `fuel` blocks. -/
def convert [IterationOrder] (fuel : ℕ) :
    EStateM (Failure Error) (Conversion σ τ) (Option TruncatedReadError) := do
  match ← readBlocks fuel with
  | none => pure none
  | some error => do
      let ids ← gets fun s => s.idTruncated2idOutput.entries
      let unfinishedFiles ← cleanUp (IterationOrder.order ids)
      if unfinishedFiles.isEmpty then pure (some error)
      else pure (some (.unfinishedEntries unfinishedFiles error))

end Conversion

/-- With the reason comes what the layers of the other archive return when they are finalized. -/
def TruncatedArchiveReader.convertToArchive {W ω ρ : Type} [Patience] [AesGcm] [Sha256]
    [BrotliStream] [IterationOrder] [Read Error ρ] [Write Error W] [LayerWriter W ω]
    (fuel : ℕ) (self : TruncatedArchiveReader ρ) (output : ArchiveWriter ω) :
    Except (Failure Error) (Option (TruncatedReadError × W)) := do
  let (error, s) ← runOn (Conversion.convert fuel) (Conversion.new self.src output)
  match error with
  | none => pure none
  | some error => do
      let dest ← (ArchiveWriter.finalize s.output).mapError Failure.error
      pure (some (error, dest))

end Mla
