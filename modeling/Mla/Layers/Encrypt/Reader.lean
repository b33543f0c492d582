import Mla.Error
import Mla.Io.Rules
import Mla.Layers.Encrypt.Stream

/-!
# The encryption reader

`InternalEncryptionLayerReader` keeps the chunk it reads from in a cache, and the
next one, still encrypted, in a second cache. Without a truncated decryption mode
it is the normal reader, which knows the size of the plaintext from the length of
the inner stream; with one it guesses where the last tag ends from what is in the
two caches.

The cipher of the source is made anew before each use, so here it is local.
-/

namespace Mla

open Io

inductive TruncatedReaderDecryptionMode
  | onlyAuthenticatedData
  | dataEvenUnauthenticated
  deriving DecidableEq, Repr

structure InternalEncryptionLayerReader (σ : Type) where
  inner : σ
  key : Key
  nonce : Nonce
  chunkCache : Cursor Error
  nextChunkCache : Bytes
  /-- Size of the plaintext, computed from the length of the inner stream. -/
  allPlaintextSize : ℕ
  currentPositionInThisLayer : ℕ
  truncatedDecryptionMode : Option TruncatedReaderDecryptionMode

/-! ## Where the tag of a chunk ends -/

/-- Whether the first `k` bytes of the final block magic end the chunk cache and the
others start the next one. -/
def magicAcross (chunkCache nextChunkCache : Bytes) (k : ℕ) : Bool :=
  k ≤ chunkCache.length && finalBlockMagic.length - k ≤ nextChunkCache.length &&
    chunkCache.drop (chunkCache.length - k) = finalBlockMagic.take k &&
    nextChunkCache.take (finalBlockMagic.length - k) = finalBlockMagic.drop k

/-- Search for the final block magic in the chunk cache, then in the next one, then
across the boundary. -/
def finalBlockMagicScan (chunkCache nextChunkCache : Bytes) : Option ℕ :=
  match windowPosition finalBlockMagic chunkCache with
  | some pos => some pos
  | none =>
      match windowPosition finalBlockMagic nextChunkCache with
      | some pos => checkedAdd chunkCache.length pos
      | none =>
          ((List.range' 1 (finalBlockMagic.length - 1)).find?
            (magicAcross chunkCache nextChunkCache)).bind fun k => checkedSub chunkCache.length k

/-- Recovering the last bytes when the final tag is truncated is not supported. -/
def tryTagPosAtFrom0To (_maxPos : ℕ) : Option ℕ := none

def getEndOfTagPos (mode : Option TruncatedReaderDecryptionMode)
    (chunkCache nextChunkCache : Bytes) : Except Error ℕ :=
  if chunkCache.length = m0ChunkSize ∧ finalInfoSize < nextChunkCache.length then
    .ok m0ChunkSize
  else if chunkCache.length < tagLength then
    .error .truncatedTag
  else
    match finalBlockMagicScan chunkCache nextChunkCache with
    | some pos => .ok pos
    | none =>
        match tryTagPosAtFrom0To (chunkCache.length - tagLength) with
        | some pos => .ok pos
        | none =>
            if mode = some .dataEvenUnauthenticated then
              -- The tag length added here is taken off again to get the end of the ciphertext.
              match checkedAdd chunkCache.length tagLength with
              | some pos => .ok pos
              | none => .error .deserializationError
            else .error .unknownTagPosition

/-! ## Opening the chunk in the cache -/

def currentDataChunkNumber (currentPositionInThisLayer : ℕ) : ℕ :=
  currentPositionInThisLayer / normalChunkPtSize

def lastDataChunkNumber (allPlaintextSize : ℕ) : ℕ :=
  if allPlaintextSize % normalChunkPtSize = 0 then allPlaintextSize / normalChunkPtSize - 1
  else allPlaintextSize / normalChunkPtSize

def isAtLeastInLastDataChunk (allPlaintextSize currentPositionInThisLayer : ℕ) :
    Except Error Bool :=
  match checkedMul (lastDataChunkNumber allPlaintextSize) normalChunkPtSize with
  | some lastDataChunkPos => .ok (lastDataChunkPos ≤ currentPositionInThisLayer)
  | none => .error .deserializationError

/-- How an attempt to open the chunk in the cache ended. -/
inductive Opened
  /-- The cache now holds the head and the plaintext. -/
  | chunk (cache : Bytes)
  /-- There is no chunk, the cache is left as it was. -/
  | nothing
  /-- The attempt failed, and left this in the cache. -/
  | failed (e : Error) (cache : Bytes)

/-- Decrypt, in place, what lies between the head and the tag. -/
def decryptedCache [AesGcm] (cipher : AesGcm256) (chunkCache : Bytes) (endOfCiphertextPos : ℕ) :
    Bytes :=
  let dataPart := slice chunkCache chunkHeadSize (endOfCiphertextPos - chunkHeadSize)
  chunkCache.take chunkHeadSize ++ (cipher.decryptUnauthenticated dataPart) ++
    chunkCache.drop endOfCiphertextPos

/-- Open the chunk in the cache, given where its tag ends. -/
def openChunkAt [AesGcm] (mode : Option TruncatedReaderDecryptionMode) (key : Key)
    (nonce : Nonce) (currentPositionInThisLayer : ℕ) (chunkCache : Bytes) (endOfTagPos : ℕ) :
    Opened :=
  let endOfCiphertextPos := endOfTagPos - tagLength
  if endOfCiphertextPos = 0 then .nothing
  else
    match checkedAdd (currentDataChunkNumber currentPositionInThisLayer) firstDataChunkNumber with
    | none => .failed .deserializationError chunkCache
    | some sequenceNumber =>
        let cipher := AesGcm256.new key (computeNonce nonce sequenceNumber) associatedData
        if endOfCiphertextPos < chunkHeadSize ∨ chunkCache.length < endOfCiphertextPos then
          .failed (.wrongReaderState "Invalid chunk cache data part") chunkCache
        else
          let dataPart := slice chunkCache chunkHeadSize (endOfCiphertextPos - chunkHeadSize)
          let cache := decryptedCache cipher chunkCache endOfCiphertextPos
          if mode = some .dataEvenUnauthenticated then .chunk (cache.take endOfCiphertextPos)
          else if chunkCache.length < endOfTagPos then
            .failed (.wrongReaderState "Invalid chunk cache tag part") cache
          else
            let tagPart := slice chunkCache endOfCiphertextPos (endOfTagPos - endOfCiphertextPos)
            if (cipher.decrypt dataPart).2 = tagPart then .chunk (cache.take endOfCiphertextPos)
            else .failed .authenticatedDecryptionWrongTag cache

/-- Open the chunk in the cache where its tag is found to end. -/
def openGuessed [AesGcm] (mode : Option TruncatedReaderDecryptionMode) (key : Key)
    (nonce : Nonce) (currentPositionInThisLayer : ℕ) (chunkCache nextChunkCache : Bytes) :
    Opened :=
  match getEndOfTagPos mode chunkCache nextChunkCache with
  | .error e => .failed e chunkCache
  | .ok endOfTagPos => openChunkAt mode key nonce currentPositionInThisLayer chunkCache endOfTagPos

/-- Open the chunk in the cache where the size of the plaintext says that its tag ends. -/
def openLast [AesGcm] (mode : Option TruncatedReaderDecryptionMode) (key : Key)
    (nonce : Nonce) (allPlaintextSize currentPositionInThisLayer : ℕ) (chunkCache : Bytes) :
    Opened :=
  let contentLen := allPlaintextSize - currentPositionInThisLayer
  if contentLen = 0 then .nothing
  else
    match (checkedAdd contentLen tagLength).bind (checkedAdd · chunkHeadSize) with
    | none => .failed .deserializationError chunkCache
    | some endOfTagPos =>
        openChunkAt mode key nonce currentPositionInThisLayer chunkCache endOfTagPos

/-- Open the chunk in the cache. -/
def openChunk [AesGcm] (mode : Option TruncatedReaderDecryptionMode) (key : Key) (nonce : Nonce)
    (allPlaintextSize currentPositionInThisLayer : ℕ) (chunkCache nextChunkCache : Bytes) :
    Opened :=
  if mode.isNone then
    match isAtLeastInLastDataChunk allPlaintextSize currentPositionInThisLayer with
    | .error e => .failed e chunkCache
    | .ok true => openLast mode key nonce allPlaintextSize currentPositionInThisLayer chunkCache
    | .ok false => openGuessed mode key nonce currentPositionInThisLayer chunkCache nextChunkCache
  else openGuessed mode key nonce currentPositionInThisLayer chunkCache nextChunkCache

namespace InternalEncryptionLayerReader

variable {σ : Type} [Patience] [AesGcm]

/-! ## Reading -/

section Read

variable [Read Error σ]

/-- Append what the inner reader holds, up to a chunk, to the next chunk cache. -/
def fillNextChunkCache : Op Error (InternalEncryptionLayerReader σ) Unit := fun s =>
  match takeReadToEnd m0ChunkSize s.inner with
  | (bytes, .ok () inner) =>
      .ok () { s with inner, nextChunkCache := s.nextChunkCache ++ bytes }
  | (bytes, .error e inner) =>
      .error e { s with inner, nextChunkCache := s.nextChunkCache ++ bytes }

def new (inner : σ) (encryptParameters : Option (Key × Nonce))
    (mode : Option TruncatedReaderDecryptionMode) :
    Except Error (InternalEncryptionLayerReader σ) :=
  match takeReadToEnd m0ChunkSize inner with
  | (_, .error e _) => .error (.ioError e)
  | (nextChunkCache, .ok () inner) =>
      match encryptParameters with
      | some (key, nonce) =>
          .ok
            { inner, key, nonce, nextChunkCache
              chunkCache := ⟨[], 0⟩
              allPlaintextSize := 0
              currentPositionInThisLayer := 0
              truncatedDecryptionMode := mode }
      | none => .error .privateKeyNeeded

/-- The next chunk cache becomes the chunk cache. -/
def swapCaches (s : InternalEncryptionLayerReader σ) : InternalEncryptionLayerReader σ :=
  { s with chunkCache := ⟨s.nextChunkCache, 0⟩, nextChunkCache := [] }

/-- Open the chunk in the cache, the reader standing at its start. -/
def openCached (s : InternalEncryptionLayerReader σ) : Opened :=
  openChunk s.truncatedDecryptionMode s.key s.nonce s.allPlaintextSize
    s.currentPositionInThisLayer s.chunkCache.data s.nextChunkCache

/-- Open the chunk in the cache and keep what comes out of it. -/
def openInCache : EStateM Error (InternalEncryptionLayerReader σ) (Option Unit) := fun s =>
  match s.openCached with
  | .chunk cache => .ok (some ()) { s with chunkCache := ⟨cache, chunkHeadSize⟩ }
  | .nothing => .ok none s
  | .failed e cache => .error e { s with chunkCache := ⟨cache, 0⟩ }

def loadInCache : EStateM Error (InternalEncryptionLayerReader σ) (Option Unit) := do
  modify swapCaches
  liftIo fillNextChunkCache
  openInCache

/-- Read from the chunk cache into a buffer of `n` bytes: the bytes put in the buffer,
and the outcome. -/
def consumeCache (n : ℕ) (s : InternalEncryptionLayerReader σ) :
    Bytes × EStateM.Result Error (InternalEncryptionLayerReader σ) Unit :=
  -- Consume at most the bytes left in the cache, to detect the need for a renewal.
  let size := min (normalChunkPtAndTagSize - s.chunkCache.pos) n
  let bytes := s.chunkCache.next size
  let s' := { s with chunkCache := s.chunkCache.advance size }
  match checkedAdd s.currentPositionInThisLayer bytes.length with
  | some position => (bytes, .ok () { s' with currentPositionInThisLayer := position })
  | none => (bytes, .error .deserializationError s')

/-- `read_internal` into a buffer of `n` bytes: the bytes put in the buffer, and the
outcome. A cache that was just renewed is not consumed, so that the source's call of
itself ends there. -/
def readInternal (n : ℕ) (s : InternalEncryptionLayerReader σ) :
    Bytes × EStateM.Result Error (InternalEncryptionLayerReader σ) Unit :=
  match checkedSub normalChunkPtAndTagSize s.chunkCache.pos with
  | none => ([], .error .deserializationError s)
  | some 0 =>
      match loadInCache s with
      | .ok none s' => ([], .ok () s')
      | .ok (some ()) s' => consumeCache n s'
      | .error e s' => ([], .error e s')
  | some (_ + 1) => consumeCache n s

instance instRead : Read Error (InternalEncryptionLayerReader σ) where
  read n := fun s =>
    match readInternal n s with
    | (bytes, .ok () s') => .ok bytes s'
    | (_, .error e s') => .error (mlaErrorToIoError e) s'

end Read

/-! ## Seeking -/

section Seek

variable [Read Error σ] [Seek Error σ]

/-- Seek the inner reader. -/
def seekInner (w : SeekFrom) : Op Error (InternalEncryptionLayerReader σ) ℕ :=
  zoom inner (fun inner s => { s with inner }) (Seek.seek w)

def thisLayerPositionToInnerPosition (position : ℕ) : Option ℕ :=
  ((checkedMul (position / normalChunkPtSize) m0ChunkSize).bind
    (checkedAdd · (position % normalChunkPtSize))).bind (checkedAdd · chunkHeadSize)

/-- The first part of a seek: go to the start of the chunk that holds a position, and
hold the chunk ready to be loaded. The result is the offset in the plaintext of the chunk. -/
def moveToChunk (askedPos : ℕ) : Op Error (InternalEncryptionLayerReader σ) ℕ := do
  let e : IoError Error := .kind .invalidInput
  let innerPositionOfAskedPos ← okOr (thisLayerPositionToInnerPosition askedPos) e
  let askedPosChunkNumber := innerPositionOfAskedPos / m0ChunkSize
  let innerPositionOfM0ChunkStart ← okOr (checkedMul askedPosChunkNumber m0ChunkSize) e
  let askedPosInChunkPlaintext ←
    okOr (checkedSub (innerPositionOfAskedPos % m0ChunkSize) chunkHeadSize) e
  let _ ← seekInner (.start innerPositionOfM0ChunkStart)
  let chunkPosition ← okOr (checkedMul askedPosChunkNumber normalChunkPtSize) e
  modify fun s => { s with currentPositionInThisLayer := chunkPosition, nextChunkCache := [] }
  fillNextChunkCache
  pure askedPosInChunkPlaintext

/-- The last part of a seek: stand at an offset in the plaintext of the chunk. -/
def moveInChunk (askedPosInChunkPlaintext : ℕ) :
    Op Error (InternalEncryptionLayerReader σ) Unit := do
  let e : IoError Error := .kind .invalidInput
  let cachePosition ← okOr (checkedAdd chunkHeadSize askedPosInChunkPlaintext) e
  modify fun s => { s with chunkCache := { s.chunkCache with pos := cachePosition } }
  let s ← get
  let position ← okOr (checkedAdd s.currentPositionInThisLayer askedPosInChunkPlaintext) e
  modify fun s => { s with currentPositionInThisLayer := position }

def seekStart (askedPos : ℕ) : Op Error (InternalEncryptionLayerReader σ) ℕ := do
  let askedPosInChunkPlaintext ← moveToChunk askedPos
  let _ ← intoIo loadInCache
  moveInChunk askedPosInChunkPlaintext
  pure askedPos

/-- The position from the start that a seek asks for. -/
def askedPosition (s : InternalEncryptionLayerReader σ) : SeekFrom → Except (IoError Error) ℕ
  | .start askedPos => .ok askedPos
  | .current value => do
      let pos ← orError (toI64 s.currentPositionInThisLayer)
        (ioOther "Position overflow converting u64 to i64")
      let newPos ← orError (i64CheckedAdd pos value)
        (ioOther "Position overflow when adding offset")
      orError (toU64 newPos) (ioOther "Negative position not allowed")
  | .fromEnd pos =>
      if 0 < pos then .error (.other .endOfStream)
      else do
        let size ← orError (toI64 s.allPlaintextSize)
          (ioOther "Overflow converting size to i64")
        let newPos ← orError (i64CheckedAdd size pos) (ioOther "Overflow adding offset to size")
        orError (toU64 newPos) (ioOther "Overflow converting new position to u64")

def seek (w : SeekFrom) : Op Error (InternalEncryptionLayerReader σ) ℕ := fun s =>
  if w = .current 0 then .ok s.currentPositionInThisLayer s
  else
    match s.askedPosition w with
    | .ok askedPos => seekStart askedPos s
    | .error e => .error e s

instance instSeek : Seek Error (InternalEncryptionLayerReader σ) where
  seek := seek

/-! ## Initialisation -/

/-- The size of the plaintext of a stream of `inputSize` bytes. -/
def plaintextSize (inputSize : ℕ) : Option ℕ := do
  let finalAndHeaderLen ←
    (checkedAdd endOfEncryptedInnerLayerMagic.length finalInfoSize).bind
      (checkedAdd · chunkHeadSize)
  let inputSizeWithoutFinalNorHeader := inputSize - finalAndHeaderLen
  let chunkNumberAtEndOfData := inputSizeWithoutFinalNorHeader / m0ChunkSize
  let lastChunkSize := inputSizeWithoutFinalNorHeader % m0ChunkSize
  let fullChunks ← checkedMul chunkNumberAtEndOfData normalChunkPtSize
  if lastChunkSize = 0 then some fullChunks
  else (checkedAdd fullChunks lastChunkSize).bind (checkedSub · tagLength)

def setAllPlaintextSize : EStateM Error (InternalEncryptionLayerReader σ) Unit := do
  let inputSize ← liftIo (seekInner (.fromEnd 0))
  let allPlaintextSize ← okOr (plaintextSize inputSize) .deserializationError
  modify fun s => { s with allPlaintextSize }

/-- Read the rest of the inner reader; a vector holds less than `i64Size` bytes. -/
def readInnerToEnd : EStateM Error (InternalEncryptionLayerReader σ) Bytes := fun s =>
  match takeReadToEnd (i64Size - 1) s.inner with
  | (bytes, .ok () inner) => .ok bytes { s with inner }
  | (_, .error e inner) => .error (.ioError e) { s with inner }

/-- Whether a final block opens under a sequence number. -/
def finalBlockOpens (key : Key) (nonce : Nonce) (sequenceNumber : ℕ) (dataAndTag : Bytes) :
    Bool :=
  let cipher := AesGcm256.new key (computeNonce nonce sequenceNumber) finalAssociatedData
  let tag := slice dataAndTag finalBlockContent.length (finalInfoSizeWom - finalBlockContent.length)
  let decrypted := cipher.decrypt (dataAndTag.take finalBlockContent.length)
  decrypted.2 = tag && decrypted.1 = finalBlockContent

def checkLastBlock : EStateM Error (InternalEncryptionLayerReader σ) Unit := do
  let offset := finalInfoSizeWom + endOfEncryptedInnerLayerMagic.length
  let _ ← liftIo (seekInner (.fromEnd (-offset)))
  let s ← get
  let sequenceNumber ← okOr
    ((checkedAdd (lastDataChunkNumber s.allPlaintextSize) 1).bind
      (checkedAdd · firstDataChunkNumber)) .deserializationError
  let dataAndTag ← readInnerToEnd
  if dataAndTag.length < finalInfoSizeWom then throw .invalidLastTag
  else if finalBlockOpens s.key s.nonce sequenceNumber dataAndTag then pure ()
  else throw .invalidLastTag

def rewind : Op Error (InternalEncryptionLayerReader σ) Unit := do
  let _ ← seek (.start 0)
  pure ()

def initializeLayer : EStateM Error (InternalEncryptionLayerReader σ) Unit := do
  setAllPlaintextSize
  checkLastBlock
  liftIo rewind

end Seek

end InternalEncryptionLayerReader

/-! ## Truncated reader -/

/-- `EncryptionLayerTruncatedReader`: the internal reader in a truncated mode. -/
structure EncryptionLayerTruncatedReader (σ : Type) where
  inner : InternalEncryptionLayerReader σ

namespace EncryptionLayerTruncatedReader

variable {σ : Type} [Patience] [AesGcm] [Read Error σ]

def newSkipHeader (inner : σ) (encryptParameters : Option (Key × Nonce))
    (truncatedDecryptionMode : TruncatedReaderDecryptionMode) :
    Except Error (EncryptionLayerTruncatedReader σ) :=
  match InternalEncryptionLayerReader.new inner encryptParameters
      (some truncatedDecryptionMode) with
  | .error e => .error e
  | .ok inner =>
      match InternalEncryptionLayerReader.loadInCache inner with
      | .ok _ inner => .ok ⟨inner⟩
      | .error e _ => .error e

instance instRead : Read Error (EncryptionLayerTruncatedReader σ) where
  read n := zoom inner (fun inner _ => ⟨inner⟩) (Read.read n)

end EncryptionLayerTruncatedReader

end Mla
