import Mla.Entries.Block
import Mla.Io.Take

/-!
# Reading an entry

The content of an entry is read block by block. Behind a block of the entry another one is
tried first, and where this belongs to another entry the index tells where to go on; `read`
then calls itself. Neither the index nor the blocks are to be trusted.
-/

namespace Mla

open Io

/-- How a call may end without an answer. -/
inductive Exit
  | error (e : IoError Error)
  | panicked
  /-- The call goes on calling itself. -/
  | looping

inductive ArchiveEntryDataReaderState
  /-- Remaining size -/
  | inEntryContent (remaining : ℕ)
  /-- underlying position is at a block header -/
  | ready
  | finish
  deriving DecidableEq, Repr

structure ArchiveEntryDataReader (σ : Type) where
  /-- This structure wraps the internals to get back a file's content -/
  src : σ
  state : ArchiveEntryDataReaderState
  /-- id of the File being read -/
  id : ArchiveEntryId
  /-- index in `offsets_and_sizes` of the block to read at next `read()` call -/
  currentOffsetsAndSizesIndex : ℕ
  /-- List of offsets of continuous blocks corresponding to where the file can be read -/
  offsetsAndSizes : List (ℕ × ℕ)

def getStartOffsetInSrc (offsetsAndSizes : List (ℕ × ℕ)) : Except Error ℕ :=
  match offsetsAndSizes.head? with
  | some p => .ok p.1
  | none => .error (.wrongReaderState "An entry should have at least 2 offsets in footer")

namespace ArchiveEntryDataReader

variable {σ : Type}

/-- `get_size`, in the arithmetic of a release build. -/
def getSize (s : ArchiveEntryDataReader σ) : ℕ :=
  (s.offsetsAndSizes.map Prod.snd).sum % u64Size

def invalidInput : Exit := .error (.kind .invalidInput)

section Read

variable [Patience] [Read Error σ] [Seek Error σ]

def new (src : σ) (offsetsAndSizes : List (ℕ × ℕ)) :
    Except Error (ArchiveEntryDataReader σ) := do
  let startOffset ← getStartOffsetInSrc offsetsAndSizes
  let (_, src) ← runOn (liftIo (Seek.seek (.start startOffset))) src
  let (block, src) ← runOn ArchiveEntryBlock.fromReader src
  match block with
  | .entryStart _ id => pure ⟨src, .ready, id, 1, offsetsAndSizes⟩
  | _ => throw (.wrongReaderState "[ArchiveEntryDataReader] A file must start with an EntryStart")

omit [Patience] [Read Error σ] [Seek Error σ] in
/-- `increment_current_offsets_and_sizes_index`. -/
def incrementIndex : EStateM Exit (ArchiveEntryDataReader σ) Unit := fun s =>
  match checkedAdd s.currentOffsetsAndSizesIndex 1 with
  | none => .error (.error (.other .deserializationError)) s
  | some index =>
      let s := { s with currentOffsetsAndSizesIndex := index }
      if s.offsetsAndSizes.length ≤ index then
        .error (.error (.other (.wrongReaderState "[ArchiveEntryDataReader] No more continuous blocks"))) s
      else .ok () s

omit [Patience] [Read Error σ] in
/-- `move_to_block_at_current_offsets_and_sizes_index`: the list is indexed without a check. -/
def moveToBlock : EStateM Exit (ArchiveEntryDataReader σ) Unit := fun s =>
  match s.offsetsAndSizes[s.currentOffsetsAndSizesIndex]? with
  | none => .error .panicked s
  | some p =>
      match Seek.seek (.start p.1) s.src with
      | .ok _ src => .ok () { s with src := src }
      | .error e src => .error (.error (.other (.ioError e))) { s with src := src }

omit [Patience] [Seek Error σ] in
/-- A read of a content of which `remaining` bytes are left. -/
def readContent (remaining n : ℕ) : EStateM Exit (ArchiveEntryDataReader σ) Bytes := fun s =>
  match Read.read n (Take.new s.src remaining) with
  | .error e t => .error (.error e) { s with src := t.inner }
  | .ok bs t =>
      let s := { s with src := t.inner }
      match checkedSub remaining bs.length with
      | none => .error (.error (.other .deserializationError)) s
      | some remaining =>
          if 0 < remaining then .ok bs { s with state := .inEntryContent remaining }
          else
            match checkedAdd s.currentOffsetsAndSizesIndex 1 with
            | none => .error (.error (.other .deserializationError)) s
            | some index => .ok bs { s with currentOffsetsAndSizesIndex := index, state := .ready }

/-- `read`, with `fuel` calls of itself left. -/
def readLoop (n : ℕ) : ℕ → EStateM Exit (ArchiveEntryDataReader σ) Bytes
  | 0 => throw .looping
  | fuel + 1 => fun s =>
      match s.state with
      | .ready =>
          match ArchiveEntryBlock.fromReader s.src with
          | .error e src => .error (.error (.other e)) { s with src := src }
          | .ok block src =>
              let s := { s with src := src }
              match block with
              | .entryContent length id =>
                  if id = s.id then readContent length n s
                  else (do moveToBlock; readLoop n fuel) s
              | .endOfEntry id _ =>
                  if id = s.id then .ok [] { s with state := .finish }
                  else (do moveToBlock; readLoop n fuel) s
              | .entryStart _ id =>
                  if id = s.id then (do incrementIndex; moveToBlock; readLoop n fuel) s
                  else (do moveToBlock; readLoop n fuel) s
              | .endOfArchiveData =>
                  .error (.error (.other (.wrongReaderState "[ArchiveEntryDataReader] Try to read the end of the archive"))) s
      | .inEntryContent remaining => readContent remaining n s
      | .finish => .ok [] s

/-- More calls than the index has blocks are never needed. -/
def read (n : ℕ) : EStateM Exit (ArchiveEntryDataReader σ) Bytes := fun s =>
  readLoop n (s.offsetsAndSizes.length + 3) s

/-- `read_exact` over the entry, with `fuel` calls left; the bytes are dropped. -/
def readExactLoop : ℕ → ℕ → EStateM Exit (ArchiveEntryDataReader σ) Unit
  | _, 0 => pure ()
  | 0, _ + 1 => throw (.error (.kind .exhausted))
  | fuel + 1, n + 1 => fun s =>
      match read (n + 1) s with
      | .ok bs s' =>
          if bs.isEmpty then .error (.error (.kind .unexpectedEof)) s'
          else readExactLoop fuel (n + 1 - bs.length) s'
      | .error (.error e) s' =>
          if e.isInterrupted then readExactLoop fuel (n + 1) s' else .error (.error e) s'
      | .error exit s' => .error exit s'

end Read

/-! ## Seeking -/

/-- Where a seek goes: to a block, so far behind its start, and what it answers. -/
structure Jump where
  offset : ℕ
  index : ℕ
  /-- The difference, when there is one. -/
  fromBlockStart : Option ℕ
  answer : ℕ
  deriving DecidableEq, Repr

/-- The first block at which the sizes sum up to more than `asked`, and the sum there. -/
def findBlock (asked : ℕ) : ℕ → List ((ℕ × ℕ) × ℕ) → Except Exit (ℕ × Option ((ℕ × ℕ) × ℕ))
  | sum, [] => .ok (sum, none)
  | sum, block :: blocks => do
      let sum ← orError (checkedAdd sum block.1.2) invalidInput
      if asked < sum then pure (sum, some block) else findBlock asked sum blocks

/-- `SeekFrom::Start`. -/
def jumpStart (s : ArchiveEntryDataReader σ) (asked : ℕ) : Except Exit Jump := do
  let (sum, found) ← findBlock asked 0 s.offsetsAndSizes.zipIdx
  -- The end of the content is the last block.
  let found ←
    if sum = asked then do
      let lastIndex ← orError (checkedSub s.offsetsAndSizes.length 1) invalidInput
      let last ← orError s.offsetsAndSizes[lastIndex]? .panicked
      pure (some (last, lastIndex))
    else pure found
  match found with
  | some ((offset, size), index) =>
      let fromBlockStart := (checkedSub sum size).bind fun blockStart => checkedSub asked blockStart
      pure ⟨offset, index, fromBlockStart, asked⟩
  | none => throw invalidInput

/-- `SeekFrom::End`: the answer is the size of the entry. -/
def jumpEnd (s : ArchiveEntryDataReader σ) (asked : ℤ) : Except Exit Jump := do
  let neg ← orError (i64CheckedNeg asked) invalidInput
  let offsetFromEnd ← orError (checkedAddSigned 0 neg) invalidInput
  let (sum, found) ← findBlock offsetFromEnd 0 s.offsetsAndSizes.zipIdx.reverse
  -- The start of the content is the first block.
  let found ←
    if sum = offsetFromEnd then do
      let first ← orError s.offsetsAndSizes[0]? .panicked
      pure (some (first, 0))
    else pure found
  match found with
  | some ((offset, _), index) => pure ⟨offset, index, checkedSub sum offsetFromEnd, s.getSize⟩
  | none => throw invalidInput

/-- The sum of some sizes, where an overflow is an error. -/
def checkedSum (sizes : List ℕ) : Except Exit ℕ :=
  sizes.foldlM (fun sum size => orError (checkedAdd sum size) invalidInput) 0

/-- `SeekFrom::Current`: slices of the list are taken without a check. -/
def jumpCurrent (s : ArchiveEntryDataReader σ) (asked : ℤ) : Except Exit Jump :=
  match s.state with
  | .inEntryContent remaining => do
      if s.offsetsAndSizes.length ≤ s.currentOffsetsAndSizesIndex then throw .panicked
      else do
        let sum ← checkedSum
          ((s.offsetsAndSizes.take (s.currentOffsetsAndSizesIndex + 1)).map Prod.snd)
        let offsetFromStart ← orError (checkedSub sum remaining) invalidInput
        let newPos ← orError (checkedAddSigned offsetFromStart asked) invalidInput
        s.jumpStart newPos
  | .ready => do
      if s.offsetsAndSizes.length < s.currentOffsetsAndSizesIndex then throw .panicked
      else do
        let offsetFromStart :=
          ((s.offsetsAndSizes.take s.currentOffsetsAndSizesIndex).map Prod.snd).sum % u64Size
        let newPos ← orError (checkedAddSigned offsetFromStart asked) invalidInput
        s.jumpStart newPos
  | .finish => s.jumpEnd asked

def jump (s : ArchiveEntryDataReader σ) : SeekFrom → Except Exit Jump
  | .start asked => s.jumpStart asked
  | .fromEnd asked => s.jumpEnd asked
  | .current asked => s.jumpCurrent asked

variable [Patience] [Read Error σ] [Seek Error σ]

/-- The source is moved to the block, and the part of the block before the place is read. -/
def moveTo (jump : Jump) : EStateM Exit (ArchiveEntryDataReader σ) ℕ := fun s =>
  match Seek.seek (.start jump.offset) s.src with
  | .error e src => .error (.error e) { s with src := src }
  | .ok _ src =>
      let s := { s with src := src, state := .ready, currentOffsetsAndSizesIndex := jump.index }
      match jump.fromBlockStart with
      | none => .error invalidInput s
      | some n =>
          -- A vector of `n` bytes is allocated: its capacity is an `isize`.
          if i64Size ≤ n then .error .panicked s
          else
            match readExactLoop (n + Patience.retries) n s with
            | .ok _ s => .ok jump.answer s
            | .error exit s => .error exit s

def seek (w : SeekFrom) : EStateM Exit (ArchiveEntryDataReader σ) ℕ := fun s =>
  match s.jump w with
  | .ok jump => moveTo jump s
  | .error exit => .error exit s

end ArchiveEntryDataReader

end Mla
