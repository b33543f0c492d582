import Mla.Serialize
import Mla.Io.Yields

/-!
# The header of an archive
-/

namespace Mla

open Io

def mlaMagic : Bytes := ascii ['M', 'L', 'A', 'F', 'A', 'A', 'A', 'A']
def mlaFormatVersion : ℕ := 2
def endMlaMagic : Bytes := ascii ['E', 'M', 'L', 'A', 'A', 'A', 'A', 'A']

/-- `read_layer_magic`. -/
def readLayerMagic {σ : Type} [Patience] [Read Error σ] : EStateM Error σ Bytes :=
  readExactly 8

structure ArchiveHeader where
  formatVersionNumber : ℕ

namespace ArchiveHeader

/-- The bytes of the header. -/
def encode : Bytes := mlaMagic ++ (leBytes 4 mlaFormatVersion ++ emptyOptsSerialization)

theorem length_encode : encode.length = 13 := rfl

variable {ω σ : Type} [Patience]

/-- The version that is written is the one of the format. -/
def serialize [Write Error ω] (_ : ArchiveHeader) : EStateM Error ω ℕ := do
  put mlaMagic
  let n ← serializeU32 mlaFormatVersion
  let len ← okOr (checkedAdd 8 n) .serializationError
  let m ← Opts.dump
  okOr (checkedAdd len m) .serializationError

def deserialize [Read Error σ] : EStateM Error σ ArchiveHeader := do
  let magic ← readLayerMagic
  if magic ≠ mlaMagic then throw .wrongMagic
  else do
    let formatVersionNumber ← deserializeU32
    if formatVersionNumber ≠ mlaFormatVersion then throw .unsupportedVersion
    else do
      Opts.fromReader
      pure ⟨formatVersionNumber⟩

theorem emits [Write Error ω] (header : ArchiveHeader) :
    Emits (header.serialize : EStateM Error ω ℕ) encode 13 := by
  refine (Emits.put mlaMagic).seq ((emits_u32 mlaFormatVersion).bind ?_)
  have hlen : checkedAdd 8 4 = some 12 := rfl
  have hsum : checkedAdd 12 1 = some 13 := rfl
  rw [hlen, okOr_some, pure_bind]
  refine (emits_opts.bind ?_).cast (List.append_nil _) rfl
  rw [hsum]
  exact Emits.pure 13

end ArchiveHeader

end Mla
