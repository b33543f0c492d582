import Mla.Io.Basic

/-!
# Errors

The errors of the archive format. An I/O error that wraps an archive error stands
for the text that the source prints into it.
-/

namespace Mla

open Io

inductive ConfigError
  | incoherentPersistentConfig
  | compressionLevelOutOfRange
  | noRecipients
  | encryptionKeyIsMissing
  | privateKeyNotSet
  | privateKeyNotFound
  | mlkemComputationError
  | dhkemComputationError
  | keyCommitmentComputationError
  | keyCommitmentCheckingError
  | keyWrappingComputationError
  deriving DecidableEq, Repr

inductive Error
  | ioError (e : IoError Error)
  | wrongMagic
  | unsupportedVersion
  | invalidKeyFormat
  | wrongBlockSubFileType
  | utf8ConversionError
  | entryNameTooLong
  | wrongArchiveWriterState (expectedState : String)
  | assertionError (msg : String)
  | wrongReaderState (msg : String)
  | wrongWriterState (msg : String)
  | randError
  | privateKeyNeeded
  | deserializationError
  | serializationError
  | missingMetadata
  | badAPIArgument (msg : String)
  | endOfStream
  | configError (e : ConfigError)
  | duplicateEntryName
  | authenticatedDecryptionWrongTag
  | hkdfInvalidKeyLength
  | hpkeError
  | invalidLastTag
  | encryptionAskedButNotMarkedPresent
  | wrongEndMagic
  | noValidSignatureFound
  | signatureVerificationAskedButNoSignatureLayerFound
  | missingEndOfEncryptedInnerLayerMagic
  | truncatedTag
  | unknownTagPosition
  | other (msg : String)

/-- `From<ConfigError> for Error`. -/
def Error.ofConfig : ConfigError → Error
  | .privateKeyNotSet => .privateKeyNeeded
  | e => .configError e

/-- `mla_error_to_io_error`: an I/O error that was wrapped is handed back as it is. -/
def mlaErrorToIoError : Error → IoError Error
  | .ioError e => e
  | e => .other e

/-- `io::Error::other` with a message of its own. -/
def ioOther (msg : String) : IoError Error :=
  .other (.other msg)

/-- An I/O operation used with `?` where archive errors are returned. -/
def liftIo {σ α : Type} (x : Op Error σ α) : EStateM Error σ α :=
  mapError .ioError x

/-- An operation returning archive errors used with `?` where I/O errors are. -/
def intoIo {σ α : Type} (x : EStateM Error σ α) : Op Error σ α :=
  mapError .other x

@[simp] theorem liftIo_apply {σ α : Type} (x : Op Error σ α) (s : σ) :
    liftIo x s =
      match x s with
      | .ok a s' => .ok a s'
      | .error e s' => .error (.ioError e) s' := by
  unfold liftIo mapError
  cases x s <;> rfl

@[simp] theorem intoIo_apply {σ α : Type} (x : EStateM Error σ α) (s : σ) :
    intoIo x s =
      match x s with
      | .ok a s' => .ok a s'
      | .error e s' => .error (.other e) s' := by
  unfold intoIo mapError
  cases x s <;> rfl

end Mla
