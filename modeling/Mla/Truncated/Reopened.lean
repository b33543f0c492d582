import Mla.Reader.Policy
import Mla.Reader.RoundTrip
import Mla.Truncated.Exact
import Mla.Truncated.Rewritten

/-!
# What is converted is an archive

A truncated archive is converted to an archive that is complete: whatever its source yields, the
other archive is finalized, and a reader opens it on the entries that were salvaged. These are the
entries that the source has told of.
-/

namespace Mla

open Io

section Convert

variable {σ W : Type} [Patience] [AesGcm] [Hkdf] [Kem] [Sha512] [Sha256] [SignatureSchemes] [Brotli]
  [IterationOrder] [Read Error σ] [Write Error W] {Got : W → Bytes → Prop}
  {config : ArchiveWriterConfig} {cap fuel : ℕ}

/-- The writer is told what the journal is, and is finalized. -/
theorem Conversion.convert_writes (happ : Appends Got) (haccepts : ∀ n, Accepts n Got)
    (hwhole : config.signature ≠ none → TakesWhole Got) (hcap : Brotli.Bounded cap)
    (hencapsulates : config.Encapsulates) (hsign : config.CanSign) {src : σ}
    {reason : TruncatedReadError} {t : Conversion σ Journal}
    (hrun : convert fuel (new src Journal.empty) = .ok (some reason) t) (hended : t.output.AllEnded)
    (hroom : config.room cap t.output.stream.length < i64Size) {dest : W} (hdest : Got dest []) :
    ∃ s s' w X, ArchiveWriter.fromConfig dest config = .ok s ∧
      convert fuel (new src s) = .ok (some reason) s' ∧
      ArchiveWriter.finalize s'.output = .ok w ∧ Got w (X ++ archiveTail) ∧
      config.Makes t.output.stream X := by
  have hfits : t.output.Fits t.output.stream.length := t.output.fits_stream
  obtain ⟨s, Holds, hmake, hs, happ', haccepts', hlen, hmakes⟩ := ArchiveWriter.fromConfig_stream happ
    haccepts hwhole hcap hencapsulates hsign hroom (t.output.length_entriesHeader_le.trans hfits) hdest
  have hsame : Alike (ArchiveWriter.Represents Holds []) (new src s) (new src Journal.empty) :=
    ⟨rfl, hs, rfl, rfl, rfl, rfl⟩
  have hstep := (simulates_convert (ArchiveWriter.follows happ' haccepts' hlen) fuel).step hsame
    (by rw [hrun]; exact hfits)
  rw [hrun] at hstep
  obtain ⟨s', hconvert, hs'⟩ := hstep.of_ok
  obtain ⟨w, X, hfinalize, hw, hX⟩ := hmakes hs'.output hended (Nat.le_refl _)
  exact ⟨s, s', w, X, hmake, hconvert, hfinalize, hw, hX⟩

end Convert

namespace TruncatedArchiveReader

variable {W ρ₀ ρ : Type} [Patience] [AesGcm] [Hkdf] [Kem] [Sha512] [Sha256] [SignatureSchemes] [Brotli]
  [BrotliStream] [BrotliDecompressor] [IterationOrder] [Write Error W] [Read Error ρ₀] [Read Error ρ]
  [Seek Error ρ] {Got : W → Bytes → Prop} {config : ArchiveWriterConfig}
  {readerConfig : ArchiveReaderConfig} {self : TruncatedArchiveReader ρ₀} {cap fuel : ℕ}

variable (ρ) in
/-- The conversion stops for that reason, and makes an archive of the entries of the journal. -/
def Restores (self : TruncatedArchiveReader ρ₀) (fuel cap : ℕ) (readerConfig : ArchiveReaderConfig)
    (config : ArchiveWriterConfig) (Got : W → Bytes → Prop) (dest : W) (reason : TruncatedReadError)
    (j : Journal) : Prop :=
  ∃ output w X, ArchiveWriter.fromConfig dest config = .ok output ∧
    self.convertToArchive fuel output = .ok (some (reason, w)) ∧ Got w X ∧
    X.length ≤ config.room cap (roomOf j.drafts) ∧ ArchiveReader.OpensOn ρ readerConfig config j X

section Restored

variable (hschemes : SchemesCorrect) (hcap : Brotli.Bounded cap) (hinverts : Brotli.Inverts)
  (happ : Appends Got) (haccepts : ∀ n, Accepts n Got)
  (hwhole : config.signature ≠ none → TakesWhole Got) (hencapsulates : config.Encapsulates)
  (hsign : config.CanSign) (hsuits : readerConfig.Suits config)
include hschemes hcap hinverts happ haccepts hwhole hencapsulates hsign hsuits

/-- What is converted to a journal is converted to its archive. -/
theorem restores_of_convert {reason : TruncatedReadError}
    {salvaged : Conversion (TruncatedLayerStack ρ₀) Journal}
    (hrun : Conversion.convert fuel (Conversion.new self.src Journal.empty) =
      .ok (some reason) salvaged)
    (hproper : salvaged.output.Proper) (hended : salvaged.output.AllEnded)
    (hroom : config.room cap (roomOf salvaged.output.drafts) < i64Size) {dest : W}
    (hdest : Got dest []) :
    self.Restores ρ fuel cap readerConfig config Got dest reason salvaged.output := by
  have hle := config.room_mono cap hproper.length_stream_le
  have hroom' := Nat.lt_of_le_of_lt hle hroom
  obtain ⟨output, s', w, X, hmake, hconvert, hfinalize, hw, hmakes⟩ := Conversion.convert_writes happ
    haccepts hwhole hcap hencapsulates hsign hrun hended hroom' hdest
  obtain ⟨hlen, hopens⟩ := ArchiveReader.fromConfig_stream (ρ := ρ) hschemes hcap hinverts hsuits
    hproper.sound hended hproper.whole hroom' hmakes
  refine ⟨output, w, X ++ archiveTail, hmake, ?_, hw, hlen.trans hle, hopens⟩
  rw [convertToArchive]
  refine Except.bind_eq_ok.mpr ⟨(some reason, s'), runOn_eq_ok.mpr hconvert, ?_⟩
  dsimp only
  rw [hfinalize]
  rfl

/-- Whatever the source yields, the conversion stops, and what it has made is an archive of the
entries that it has salvaged. -/
theorem convertToArchive_opens {S : Bytes} {View : TruncatedLayerStack ρ₀ → ℕ → Prop} {p : ℕ}
    (hyields : Yields S View) (hself : View self.src p) (hfuel : S.length - p < fuel) {dest : W}
    (hdest : Got dest []) :
    ∃ reason salvaged, Conversion.convert fuel (Conversion.new self.src Journal.empty) =
        .ok (some reason) salvaged ∧ salvaged.output.AllEnded ∧
      (config.room cap (roomOf salvaged.output.drafts) < i64Size →
        self.Restores ρ fuel cap readerConfig config Got dest reason salvaged.output) := by
  obtain ⟨reason, salvaged, hrun, hproper, hended⟩ := Conversion.convert_ends hyields hself hfuel
  exact ⟨reason, salvaged, hrun, hended, fun hroom => restores_of_convert hschemes hcap hinverts happ
    haccepts hwhole hencapsulates hsign hsuits hrun hproper hended hroom hdest⟩

end Restored

end TruncatedArchiveReader

/-! ## An archive without layers -/

namespace TruncatedArchiveReader

variable {ρ : Type} [AesGcm] [Patience] [BrotliStream] [Read Error ρ] {S : Bytes} {closed : Prop}
  {At : ρ → ℕ → Prop}

/-- Where the entries are read from the archive itself. -/
def RawAt (At : ρ → ℕ → Prop) : TruncatedLayerStack ρ → ℕ → Prop :=
  OptionalLayer.At (OptionalLayer.At (OptionalLayer.At (fun raw p => At raw.inner p)
    fun _ _ => False) fun _ _ => False) fun _ _ => False

theorem delivers_rawAt (h : Delivers closed S At) :
    Delivers closed S (RawAt At : TruncatedLayerStack ρ → ℕ → Prop) :=
  OptionalLayer.delivers (OptionalLayer.delivers (OptionalLayer.delivers
    (ReadsThrough.delivers readsThrough_raw h) (.never S _)) (.never S _)) (.never S _)

theorem yields_rawAt (h : Yields S At) :
    Yields S (RawAt At : TruncatedLayerStack ρ → ℕ → Prop) :=
  OptionalLayer.yields (OptionalLayer.yields (OptionalLayer.yields
    (ReadsThrough.yields readsThrough_raw h) (.never S)) (.never S)) (.never S)

end TruncatedArchiveReader

namespace CutEntries

open TruncatedArchiveReader
open scoped KeyedCipher LabelKem LabelSignature StoredBrotli ShortSource

scoped instance iterationOrder : IterationOrder where
  order l := l
  perm l := .refl l

/-- Of an entry with three bytes of content, the block that has them is cut behind two. -/
def bytes : Bytes :=
  ((Journal.run ArchiveReader.writtenCalls).2.blocks.flatMap Written.encode).take 47

def reader : TruncatedArchiveReader (Cursor Error) := ⟨.absent (.absent (.absent ⟨⟨bytes, 0⟩⟩))⟩

theorem delivers_bytes : Delivers True bytes
    (RawAt fun (c : Cursor Error) p => c.At bytes p ∧ p ≤ bytes.length) :=
  delivers_rawAt (Cursor.delivers bytes)

theorem ends_bytes : Io.Ends bytes
    (RawAt fun (c : Cursor Error) p => c.At bytes p ∧ p ≤ bytes.length) :=
  fun hs _ => .inl (delivers_bytes.stop trivial hs (.inr rfl))

theorem bytes_prefix : bytes.drop 0 <+:
    (Journal.run ArchiveReader.writtenCalls).2.blocks.flatMap Written.encode ++
      (encodeEndOfArchiveData ++ []) :=
  (List.take_prefix _ _).trans (List.prefix_append _ _)

theorem told_bytes : (Written.cut (bytes.length - 0)
    (Journal.run ArchiveReader.writtenCalls).2.blocks).foldl Written.tell [] =
      [⟨ShortSource.name, [1, 2], false⟩] := rfl

theorem reader_at : RawAt (fun (c : Cursor Error) p => c.At bytes p ∧ p ≤ bytes.length) reader.src 0 :=
  ⟨⟨rfl, rfl⟩, Nat.zero_le _⟩

theorem convertToArchive_opens_bytes : ∃ reason salvaged output w archive keys,
    Conversion.convert 60 (Conversion.new reader.src Journal.empty) = .ok (some reason) salvaged ∧
    ArchiveWriter.fromConfig (⟨[]⟩ : VecWriter Error) ArchiveReader.writtenConfig = .ok output ∧
    reader.convertToArchive 60 output = .ok (some (reason, w)) ∧
    ArchiveReader.fromConfig ArchiveReader.readingConfig (⟨w.data, 0⟩ : Cursor Error) =
      .ok (archive, keys) ∧
    archive.FollowsArchive salvaged.output.entries [.getEntry ShortSource.name [.read 3]] := by
  obtain ⟨reason, salvaged, hrun, -, hrestores⟩ := convertToArchive_opens (ρ := Cursor Error)
    ArchiveReader.schemesCorrect_labels StoredBrotli.bounded
    StoredBrotli.inverts VecWriter.appends VecWriter.accepts (fun _ => VecWriter.takesWhole)
    ArchiveReader.writtenConfig_encapsulates ArchiveReader.writtenConfig_canSign
    ArchiveReader.readingConfig_suits (yields_rawAt (Cursor.moves bytes).toYields)
    (show RawAt (Cursor.At bytes) reader.src 0 from ⟨rfl, rfl⟩)
    (show bytes.length - 0 < 60 by decide)
    (show VecWriter.Got (⟨[]⟩ : VecWriter Error) [] from rfl)
  obtain ⟨error, names, s, known, hrun', -, htelling, -, hdrafts, -⟩ := Conversion.convert_cut
    delivers_bytes ends_bytes ArchiveReader.whole_writtenCalls (by decide) reader_at bytes_prefix (show bytes.length - 0 < 60 by decide)
  obtain ⟨-, rfl⟩ := EStateM.Result.ok.inj (hrun'.symm.trans hrun)
  obtain rfl : known = [⟨ShortSource.name, [1, 2], false⟩] := htelling.eq_foldl.trans told_bytes
  have hroom : ArchiveReader.writtenConfig.room 4194498 (roomOf s.output.drafts) < i64Size := by
    rw [hdrafts]
    decide
  have hword := i64Size_lt_u64Size
  obtain ⟨output, w, X, hmake, hconvert, hw, hlen, hopens⟩ := hrestores hroom
  obtain rfl : w.data = X := hw
  obtain ⟨archive, keys, hopen, -, -, -, hfollows⟩ :=
    hopens (Cursor.isCursor (ε := Error) ((hlen.trans_lt hroom).trans hword))
      (show (⟨w.data, 0⟩ : Cursor Error).data = w.data from rfl)
  exact ⟨reason, s, output, w, archive, keys, hrun, hmake, hconvert, hopen, hfollows _⟩

end CutEntries

end Mla
