import Mla.Io.Basic
import Mla.Io.Simulates
import Mla.Io.Slice
import Mla.Io.Chunks
import Mla.Io.Laid
import Mla.Io.Word
import Mla.Io.Cursor
import Mla.Io.Rules
import Mla.Io.Window
import Mla.Io.Trickle
import Mla.Io.Consume
import Mla.Io.Sink
import Mla.Io.Recorder
import Mla.Io.Yields
import Mla.Io.Supply
import Mla.Io.Zoom
import Mla.Io.Presents
import Mla.Io.Tally
import Mla.Io.Take
import Mla.Io.Fill
import Mla.Error
import Mla.Serialize
import Mla.Crypto.AesGcm
import Mla.Crypto.Ctr
import Mla.Crypto.Gcm
import Mla.Crypto.GcmGuard
import Mla.Crypto.Hpke
import Mla.Crypto.Hybrid
import Mla.Crypto.Decapsulate
import Mla.Layers.Traits
import Mla.Layers.Encrypt.Stream
import Mla.Layers.Encrypt.Reader
import Mla.Layers.Encrypt.Chunk
import Mla.Layers.Encrypt.Load
import Mla.Layers.Encrypt.Gate
import Mla.Layers.Encrypt.Deliver
import Mla.Layers.Encrypt.Scan
import Mla.Layers.Encrypt.Recovery
import Mla.Layers.Encrypt.Garbage
import Mla.Layers.Encrypt.Normal
import Mla.Layers.Encrypt.Truncation
import Mla.Layers.Encrypt.Config
import Mla.Layers.Encrypt.Writer
import Mla.Layers.Encrypt.Written
import Mla.Layers.Encrypt.Nonces
import Mla.Layers.Encrypt.Cursor
import Mla.SharedSecret
import Mla.Layers.StripHeadTail
import Mla.Layers.Window
import Mla.Crypto.Hash
import Mla.Crypto.HybridSignature
import Mla.Crypto.Base64
import Mla.Crypto.Base64Loops
import Mla.Crypto.KeyFile
import Mla.Crypto.KeyLines
import Mla.Crypto.KeyRoundTrip
import Mla.Crypto.KeyGrammar
import Mla.Layers.Position
import Mla.Format
import Mla.Layers.Signature.Writer
import Mla.Layers.Encrypt.Layer
import Mla.Layers.Encrypt.Presented
import Mla.Layers.Encrypt.Opened
import Mla.Layers.Compress.Presented
import Mla.Layers.Signature.Reader
import Mla.Reads
import Mla.Reader.Source
import Mla.Reader.Signed
import Mla.Reader.Footer
import Mla.Io.Fails
import Mla.Reader.Open
import Mla.Reader.Stack
import Mla.Reader.Opened
import Mla.Reader.Verified
import Mla.Reader.Policy
import Mla.Reader.Refusals
import Mla.Entries.Block
import Mla.Entries.Located
import Mla.Entries.Codec
import Mla.Entries.Spread
import Mla.Entries.Stream
import Mla.Writer.Archive
import Mla.Writer.Journal
import Mla.Writer.Calls
import Mla.Writer.Finalized
import Mla.Writer.Layers
import Mla.Writer.Size
import Mla.Reader.Entry
import Mla.Reader.Steps
import Mla.Reader.InRange
import Mla.Reader.Returns
import Mla.Reader.EntryCursor
import Mla.Reader.EntrySeek
import Mla.Reader.Archive
import Mla.Reader.ReadBack
import Mla.Reader.Layers
import Mla.Reader.RoundTrip
import Mla.Truncated.Convert
import Mla.Truncated.Cut
import Mla.Truncated.Ending
import Mla.Truncated.Exact
import Mla.Truncated.Reopened
import Mla.Truncated.Rewritten
import Mla.Truncated.Salvaged
import Mla.Names.Escape
import Mla.Names.Path
import Mla.Names.Normal
import Mla.Layers.Compress.Brotli
import Mla.Layers.Compress.Writer
import Mla.Layers.Compress.Written
import Mla.Layers.Compress.Reader
import Mla.Layers.Compress.Cursor
import Mla.Layers.Compress.Opened
import Mla.Layers.Compress.Poison
import Mla.Layers.Compress.Streams
import Mla.Layers.Compress.Truncated
