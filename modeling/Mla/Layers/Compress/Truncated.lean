import Mla.Layers.Compress.Reader
import Mla.Layers.Compress.Streams

/-!
# Decompressing a truncated layer

The compressed streams are decompressed one after the other, without an index. When a stream
fails to decompress, it is decompressed again from its start with an input of one byte at a time,
and what was already returned of it is skipped.
-/

namespace Mla

open Io

inductive BrotliResult
  | resultSuccess
  | needsMoreInput
  | needsMoreOutput
  | resultFailure
  deriving DecidableEq

/-- What `BrotliDecompressStream` does with a buffer of input and one of output. -/
structure DecompressStreamResult (S : Type) where
  result : BrotliResult
  inputOffset : ℕ
  output : Bytes
  brotliState : S

/-- The streaming interface of the decompressor of `brotli`. -/
class BrotliStream where
  BrotliState : Type
  new : BrotliState
  decompressStream : BrotliState → Bytes → ℕ → DecompressStreamResult BrotliState

export BrotliStream (BrotliState)

def truncatedReaderBufferInitialSize : ℕ := 4096

structure CompressionLayerTruncatedReader (σ : Type) [BrotliStream] where
  cache : Bytes
  cacheFilledLen : ℕ
  readOffset : ℕ
  brotliState : BrotliState
  uncompressedRead : ℕ
  inner : BrotliStreamReader σ
  byteByByteDecompression : Bool

/-- `Vec::resize`, with zeros. -/
def resize (buf : Bytes) (n : ℕ) : Bytes := buf.take n ++ List.replicate (n - buf.length) 0

/-- `u32::checked_add` of a number of bytes. -/
def checkedAddU32 (a b : ℕ) : Option ℕ := if b < u32Size ∧ a + b < u32Size then some (a + b) else none

namespace CompressionLayerTruncatedReader

variable {σ α : Type} [BrotliStream]

/-- Calls that fail with an I/O error, or panic. -/
abbrev Call (σ α : Type) : Type :=
  EStateM (Failure (IoError Error)) (CompressionLayerTruncatedReader σ) α

def newSkipHeader (inner : σ) : CompressionLayerTruncatedReader σ where
  cache := List.replicate truncatedReaderBufferInitialSize 0
  cacheFilledLen := 0
  readOffset := 0
  brotliState := BrotliStream.new
  uncompressedRead := 0
  inner := .new inner
  byteByByteDecompression := false

def newSkipMagic [Patience] [Read Error σ] (inner : σ) :
    Except Error (CompressionLayerTruncatedReader σ) := do
  let (_, inner) ← runOn Opts.fromReader inner
  pure (newSkipHeader inner)

/-- A checked operation, which fails with the error of a bad argument. -/
def checked (o : Option α) : Call σ α := noPanic (okOr o invalidInput)

/-- `new_brotli_stream`, with its error as an I/O error. -/
def newBrotliStream (remainingCached : ℕ) : Call σ Unit := fun s =>
  match BrotliStreamReader.newBrotliStream remainingCached s.inner with
  | .ok _ inner => .ok () { s with inner := inner }
  | .error .panicked inner => .error .panicked { s with inner := inner }
  | .error (.error e) inner => .error (.error (.other e)) { s with inner := inner }

/-- The bytes of the input that were used, and the bytes of the output, are counted. -/
def advance (inputOffset outputOffset : ℕ) : Call σ Unit := do
  let s ← get
  let readOffset ← checked (checkedAdd s.readOffset inputOffset)
  set { s with readOffset := readOffset }
  let uncompressedRead ← checked (checkedAddU32 s.uncompressedRead outputOffset)
  set { s with readOffset := readOffset, uncompressedRead := uncompressedRead }

/-- Make room in the cache behind the bytes that were not used. -/
def makeRoom : Call σ Unit := do
  let s ← get
  if s.readOffset = 0 ∧ s.cacheFilledLen = s.cache.length then do
    let newCacheLen ← checked (checkedAdd s.cache.length 1)
    set { s with cache := resize s.cache newCacheLen }
  else do
    let cache ← orPanic (copyWithin s.cache s.readOffset s.cacheFilledLen 0)
    let cacheFilledLen ← checked (checkedSub s.cacheFilledLen s.readOffset)
    let cache := if s.byteByByteDecompression ∧ cache.length ≠ 1 then resize cache 1 else cache
    set { s with cache := cache, cacheFilledLen := cacheFilledLen, readOffset := 0 }

variable [Read Error σ]

/-- A read into the cache, behind the bytes that are in it. -/
def fill : Call σ ℕ := do
  let s ← get
  let room ← orPanic (if s.cacheFilledLen ≤ s.cache.length then
    some (s.cache.length - s.cacheFilledLen) else none)
  let bs ← noPanic (zoom (·.inner) (fun inner s => { s with inner := inner }) (Read.read room))
  modify fun s => { s with
    cache := s.cache.take s.cacheFilledLen ++ bs ++ s.cache.drop (s.cacheFilledLen + bs.length) }
  pure bs.length

/-- `io::copy` of `take(limit)` to a sink, with `fuel` calls of `recur` left. -/
def skip (recur : ℕ → Call σ Bytes) : ℕ → ℕ → Call σ Unit
  | _, 0 => pure ()
  | 0, _ + 1 => throw (.error (.kind .exhausted))
  | fuel + 1, limit + 1 => fun s =>
      match recur (min copyBufSize (limit + 1)) s with
      | .ok bs s => if bs.isEmpty then .ok () s else skip recur fuel (limit + 1 - bs.length) s
      | .error .panicked s => .error .panicked s
      | .error (.error e) s =>
          if e.isInterrupted then skip recur fuel (limit + 1) s else .error (.error e) s

variable [Patience]

/-- `truncated_reader_decompress_stream`; `recur` is `read`. -/
def truncatedReaderDecompressStream (recur : ℕ → Call σ Bytes) (n : ℕ) : Call σ Bytes := do
  let s ← get
  let input ← orPanic (if s.readOffset ≤ s.cacheFilledLen ∧ s.cacheFilledLen ≤ s.cache.length then
    some (slice s.cache s.readOffset (s.cacheFilledLen - s.readOffset)) else none)
  let r := BrotliStream.decompressStream s.brotliState input n
  set { s with brotliState := r.brotliState }
  match r.result with
  | .resultSuccess => do
      let readOffset ← checked (checkedAdd s.readOffset r.inputOffset)
      set { s with readOffset := readOffset, brotliState := BrotliStream.new, uncompressedRead := 0 }
      let remainingCached ← checked (checkedSub s.cacheFilledLen readOffset)
      newBrotliStream remainingCached
      if r.output.length = 0 then recur n else pure r.output
  | .needsMoreInput => do
      advance r.inputOffset r.output.length
      if r.output.length = 0 then do
        makeRoom
        let read ← fill
        let s ← get
        if read = 0 then
          -- No more data: an error inside a stream only.
          if 0 < s.uncompressedRead then throw (.error (.kind .unexpectedEof)) else pure []
        else do
          let cacheFilledLen ← checked (checkedAdd s.cacheFilledLen read)
          set { s with cacheFilledLen := cacheFilledLen }
          recur n
      else pure r.output
  | .needsMoreOutput => do
      advance r.inputOffset r.output.length
      pure r.output
  | .resultFailure => do
      if s.byteByByteDecompression then
        throw (.error (ioOther "Invalid data while decompressing"))
      else do
        set { s with
          cache := resize s.cache 1
          cacheFilledLen := 0
          readOffset := 0
          brotliState := BrotliStream.new
          uncompressedRead := 0
          inner := s.inner.rewindToStreamStart
          byteByByteDecompression := true }
        -- What was already returned of the stream is not returned again.
        skip recur (s.uncompressedRead + Patience.retries) s.uncompressedRead
        recur n

/-- `read`, with `fuel` calls of itself left; a stack that is used up is a panic. -/
def readLoop : ℕ → ℕ → Call σ Bytes
  | 0, _ => throw .panicked
  | fuel + 1, n => do
      let s ← get
      if uncompressedDataSize < s.uncompressedRead then
        throw (.error (.other (.wrongReaderState "[Compress FailSafe Layer] Too much data read")))
      else if n = 0 then pure []
      else do
        let _availableIn ← checked (checkedSub s.cacheFilledLen s.readOffset)
        truncatedReaderDecompressStream (readLoop fuel) n

/-- Above the reader a panic is taken for an error. -/
instance instRead : Read Error (CompressionLayerTruncatedReader σ) where
  read n := panicAs (.other (.wrongReaderState "[Reader] Empty type to inner is impossible"))
    (readLoop Patience.retries n)

end CompressionLayerTruncatedReader

end Mla
