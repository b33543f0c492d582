import Mla.Crypto.AesGcm
import Mla.Crypto.Hash
import Mla.Format
import Mla.Reads

/-!
# The blocks of the entries stream

An archive entry is made of blocks, those of several entries may be interleaved. The content
of an entry stands behind the block that announces its length; it is not read with it.
-/

namespace Mla

open Io

/-! ## Names -/

def entryNameMaxSize : ℕ := 1024

inductive EntryNameError
  | forbiddenPathTraversalComponent
  | invalidPathComponentContent
  | entryNameTooLong
  deriving DecidableEq, Repr

structure EntryName where
  name : Bytes
  nonempty : name ≠ []
  le_max : name.length ≤ entryNameMaxSize
  deriving DecidableEq

namespace EntryName

def fromArbitraryBytes (bytes : Bytes) : Except EntryNameError EntryName :=
  if hempty : bytes = [] then .error .invalidPathComponentContent
  else if hmax : bytes.length ≤ entryNameMaxSize then .ok ⟨bytes, hempty, hmax⟩
  else .error .entryNameTooLong

theorem fromArbitraryBytes_name (name : EntryName) :
    fromArbitraryBytes name.name = .ok name := by
  rw [fromArbitraryBytes, dif_neg name.nonempty, dif_pos name.le_max]

/-- The names are ordered as their bytes are. -/
def le (a b : EntryName) : Bool := decide (a.name ≤ b.name)

def encode (name : EntryName) : Bytes := leBytes 8 name.name.length ++ name.name

theorem length_lt (name : EntryName) : name.name.length < u64Size :=
  lt_of_le_of_lt name.le_max (by decide)

end EntryName

abbrev ArchiveEntryId := ℕ

section Serialize

variable {ω σ : Type} [Patience]

def serializeEntryName [Write Error ω] (name : EntryName) : EStateM Error ω ℕ :=
  addLength (serializeU64 name.name.length) (serializeSlice serializeU8 name.name)

/-- `src.take(n).read_to_end`, of which no error is passed on. -/
def readToEndField [Read Error σ] (n : ℕ) : EStateM Error σ Bytes := fun s =>
  match takeReadToEnd n s with
  | (bytes, .ok _ s') => .ok bytes s'
  | (_, .error _ s') => .error .deserializationError s'

def deserializeEntryName [Read Error σ] : EStateM Error σ EntryName := do
  let n ← deserializeU64
  let name ← readToEndField n
  match EntryName.fromArbitraryBytes name with
  | .ok name => pure name
  | .error _ => throw .deserializationError

end Serialize

/-! ## Blocks -/

/-- `b"MAEB"`. -/
def archiveEntryBlockMagic : Bytes := ascii ['M', 'A', 'E', 'B']

/-- `b"MLAENAAA"`. -/
def entriesLayerMagic : Bytes := ascii ['M', 'L', 'A', 'E', 'N', 'A', 'A', 'A']

inductive ArchiveEntryBlockType
  | entryStart
  | entryContent
  | endOfArchiveData
  | endOfEntry
  deriving DecidableEq, Repr

namespace ArchiveEntryBlockType

def toByte : ArchiveEntryBlockType → UInt8
  | entryStart => 0
  | entryContent => 1
  | endOfArchiveData => 0xFE
  | endOfEntry => 0xFF

def serialize {ω : Type} [Patience] [Write Error ω] (blockType : ArchiveEntryBlockType) :
    EStateM Error ω ℕ :=
  serializeU8 blockType.toByte

def deserialize {σ : Type} [Patience] [Read Error σ] : EStateM Error σ ArchiveEntryBlockType := do
  let serializedBlockType ← deserializeU8
  if serializedBlockType = 0 then pure entryStart
  else if serializedBlockType = 1 then pure entryContent
  else if serializedBlockType = 0xFE then pure endOfArchiveData
  else if serializedBlockType = 0xFF then pure endOfEntry
  else throw .wrongBlockSubFileType

end ArchiveEntryBlockType

/-- A block as it is parsed: of a content, only the length. -/
inductive ArchiveEntryBlock
  | entryStart (name : EntryName) (id : ArchiveEntryId)
  | entryContent (length : ℕ) (id : ArchiveEntryId)
  | endOfEntry (id : ArchiveEntryId) (hash : Sha256Hash)
  | endOfArchiveData

namespace ArchiveEntryBlock

section Dump

variable {σ ω : Type} [Patience] [Write Error ω]

/-- `dump` up to the data of a content. -/
def dump : ArchiveEntryBlock → EStateM Error ω Unit
  | entryStart name id => do
      put archiveEntryBlockMagic
      let _ ← ArchiveEntryBlockType.entryStart.serialize
      let _ ← serializeU64 id
      let _ ← serializeEntryName name
      let _ ← Opts.dump
      pure ()
  | entryContent length id => do
      put archiveEntryBlockMagic
      let _ ← ArchiveEntryBlockType.entryContent.serialize
      let _ ← serializeU64 id
      let _ ← Opts.dump
      let _ ← serializeU64 length
      pure ()
  | endOfEntry id hash => do
      put archiveEntryBlockMagic
      let _ ← ArchiveEntryBlockType.endOfEntry.serialize
      let _ ← serializeU64 id
      let _ ← Opts.dump
      put hash.toList
  | endOfArchiveData => do
      put archiveEntryBlockMagic
      let _ ← ArchiveEntryBlockType.endOfArchiveData.serialize
      pure ()

/-- `dump` of a content with the reader of its data. How much the reader had is not checked. -/
def dumpContent [Read Error σ] (length : ℕ) (id : ArchiveEntryId) :
    EStateM Error (σ × ω) Unit := do
  zoom Prod.snd (fun dest s => (s.1, dest)) (dump (.entryContent length id))
  liftIo (copyTake length)

end Dump

section From

variable {σ : Type} [Patience] [Read Error σ]

/-- `src.read_exact(&mut hash)`. -/
def readHash : EStateM Error σ Sha256Hash := do
  let bs ← readExactly 32
  if h : bs.length = 32 then pure (arrayOf bs h)
  else
    -- As many bytes were read as were asked for.
    throw .deserializationError

/-- What follows the type of a block. -/
def fromType : ArchiveEntryBlockType → EStateM Error σ ArchiveEntryBlock
  | .entryStart => do
      let id ← deserializeU64
      let name ← deserializeEntryName
      Opts.fromReader
      pure (entryStart name id)
  | .entryContent => do
      let id ← deserializeU64
      Opts.fromReader
      let length ← deserializeU64
      pure (entryContent length id)
  | .endOfEntry => do
      let id ← deserializeU64
      Opts.fromReader
      let hash ← readHash
      pure (endOfEntry id hash)
  | .endOfArchiveData => pure endOfArchiveData

/-- `ArchiveEntryBlock::from`: the magic is read, not checked. -/
def fromReader : EStateM Error σ ArchiveEntryBlock := do
  let _ ← deserializeU32
  let blockType ← ArchiveEntryBlockType.deserialize
  fromType blockType

end From

end ArchiveEntryBlock

/-! ## Their bytes -/

/-- A block with all that it holds: its options, and the data of a content. -/
inductive Block
  | entryStart (id : ArchiveEntryId) (name : EntryName) (options : Option Bytes)
  | entryContent (id : ArchiveEntryId) (options : Option Bytes) (data : Bytes)
  | endOfEntry (id : ArchiveEntryId) (options : Option Bytes) (hash : Sha256Hash)

namespace Block

def id : Block → ArchiveEntryId
  | entryStart id _ _ => id
  | entryContent id _ _ => id
  | endOfEntry id _ _ => id

def options : Block → Option Bytes
  | entryStart _ _ options => options
  | entryContent _ options _ => options
  | endOfEntry _ options _ => options

/-- The data that the block adds to its entry. -/
def data : Block → Bytes
  | entryContent _ _ data => data
  | _ => []

def size (block : Block) : ℕ := block.data.length

/-- What parsing the block returns. -/
def parsed : Block → ArchiveEntryBlock
  | entryStart id name _ => .entryStart name id
  | entryContent id _ data => .entryContent data.length id
  | endOfEntry id _ hash => .endOfEntry id hash

/-- The bytes of the block before its data. -/
def header : Block → Bytes
  | entryStart id name options =>
      archiveEntryBlockMagic ++ (0 :: (leBytes 8 id ++ (name.encode ++ encodeOptions options)))
  | entryContent id options data =>
      archiveEntryBlockMagic ++ (1 :: (leBytes 8 id ++ (encodeOptions options ++ leBytes 8 data.length)))
  | endOfEntry id options hash =>
      archiveEntryBlockMagic ++ (0xFF :: (leBytes 8 id ++ (encodeOptions options ++ hash.toList)))

def encode (block : Block) : Bytes := block.header ++ block.data

/-- The numbers of the block fit their fields. -/
structure Valid (block : Block) : Prop where
  id_lt : block.id < u64Size
  size_lt : block.size < u64Size
  options_lt : ∀ bytes, block.options = some bytes → bytes.length < u64Size

end Block

/-- The bytes of the block that ends the entries. -/
def encodeEndOfArchiveData : Bytes := archiveEntryBlockMagic ++ [0xFE]

end Mla
