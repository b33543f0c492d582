import Mla.Reader.EntrySeek
import Mla.Reader.Open

/-!
# The reader of an archive

An archive that has been opened lists its entries, tells their hashes, and lends its source to the
reader of one of them at a time. Whatever is asked of it, in whichever order and however far each
entry is read, the answers are those of the entries that the index tells of.
-/

namespace Mla

open Io

structure ArchiveEntry (σ : Type) where
  name : EntryName
  data : ArchiveEntryDataReader σ

def ArchiveEntry.getSize {σ : Type} (entry : ArchiveEntry σ) : ℕ := entry.data.getSize

namespace ArchiveReader

variable {ρ : Type} [BrotliDecompressor]

def listEntries (s : ArchiveReader ρ) : Except Error (List EntryName) :=
  match s.metadata with
  | some entriesInfo => .ok entriesInfo.keys
  | none => .error .missingMetadata

section Ops

variable [Patience] [AesGcm] [Read Error ρ] [Seek Error ρ]

/-- The block at the last place of an entry tells its hash. -/
def readHashAt (offset : ℕ) : EStateM Error (LayerStack ρ) (Option Sha256Hash) := do
  let _ ← liftIo (Seek.seek (.start offset))
  let block ← ArchiveEntryBlock.fromReader
  match block with
  | .endOfEntry _ hash => pure (some hash)
  | _ => throw (.wrongReaderState "[ArchiveReader] last offset must point to a EndOfEntry")

def getHash (name : EntryName) : EStateM Error (ArchiveReader ρ) (Option Sha256Hash) := do
  let s ← get
  match s.metadata with
  | none => throw .missingMetadata
  | some entriesInfo =>
      match entriesInfo.lookup name with
      | none => pure none
      | some fileInfo => do
          let last ← okOr fileInfo.offsetsAndSizes.getLast? .deserializationError
          zoom ArchiveReader.src (fun src s => { s with src := src }) (readHashAt last.1)

/-- The entry holds the source of the archive as long as it is read. -/
def getEntry (name : EntryName) (s : ArchiveReader ρ) :
    Except Error (Option (ArchiveEntry (LayerStack ρ))) :=
  match s.metadata with
  | none => .error .missingMetadata
  | some entriesInfo =>
      match entriesInfo.lookup name with
      | none => .ok none
      | some fileInfo =>
          if fileInfo.offsetsAndSizes.isEmpty then
            .error (.wrongReaderState "[ArchiveReader] A file must have at least one offset")
          else do
            let reader ← ArchiveEntryDataReader.new s.src fileInfo.offsetsAndSizes
            pure (some ⟨name, reader⟩)

end Ops

/-- The reader, with the source given back. -/
def withSrc (s : ArchiveReader ρ) (src : LayerStack ρ) : ArchiveReader ρ := { s with src := src }

end ArchiveReader

/-! ## Anything that is asked of an archive -/

inductive ArchiveCall
  | getHash (name : EntryName)
  /-- An entry is got, and calls are made on it. -/
  | getEntry (name : EntryName) (calls : List ReaderCall)

section Calls

variable {ρ : Type} [Patience] [AesGcm] [BrotliDecompressor] [Read Error ρ] [Seek Error ρ]

def ArchiveEntryDataReader.afterAll {σ : Type} [Read Error σ] [Seek Error σ] :
    List ReaderCall → ArchiveEntryDataReader σ → ArchiveEntryDataReader σ
  | [], s => s
  | call :: calls, s => afterAll calls (after call s)

/-- The reader answers as an archive of these entries does. -/
def ArchiveReader.FollowsArchive (entries : EntryName → Option Entry) :
    ArchiveReader ρ → List ArchiveCall → Prop
  | _, [] => True
  | s, .getHash name :: calls =>
      ∃ s', s.getHash name = .ok ((entries name).map Entry.hash) s' ∧ FollowsArchive entries s' calls
  | s, .getEntry name asked :: calls =>
      match entries name with
      | none => s.getEntry name = .ok none ∧ FollowsArchive entries s calls
      | some entry =>
          ∃ data, s.getEntry name = .ok (some ⟨name, data⟩) ∧
            data.getSize = entry.content.length ∧
            ArchiveEntryDataReader.FollowsEntry entry 0 false data asked ∧
            FollowsArchive entries (s.withSrc (data.afterAll asked).src) calls

end Calls

namespace ArchiveReader

open ArchiveEntryDataReader

section Follows

variable {ρ : Type} [Patience] [AesGcm] [BrotliDecompressor] [Read Error ρ] [Seek Error ρ]
  {closed : Prop} {S : Bytes} {View : LayerStack ρ → ℕ → Prop} {LiveView : LayerStack ρ → Prop}
  {entries : EntryName → Option Entry} {s : ArchiveReader ρ} {id : ArchiveEntryId}
  {spots : List (ℕ × Block)} {entry : Entry} {name : EntryName}
  {entriesInfo : HashMap EntryName EntryInfo}

/-- The index of the reader tells where the blocks of the entries are shown. -/
structure Indexes (closed : Prop) (S : Bytes) (View : LayerStack ρ → ℕ → Prop)
    (LiveView : LayerStack ρ → Prop) (entries : EntryName → Option Entry)
    (entriesInfo : HashMap EntryName EntryInfo) : Prop where
  unknown : ∀ {name}, entries name = none → entriesInfo.lookup name = none
  known : ∀ {name entry}, entries name = some entry → ∃ id spots,
    entriesInfo.lookup name = some ⟨told spots⟩ ∧ OverEntry closed S View LiveView id spots entry

theorem getHash_of_none (hmetadata : s.metadata = some entriesInfo)
    (hlookup : entriesInfo.lookup name = none) : getHash name s = .ok none s := by
  rw [getHash, get_bind, hmetadata]
  dsimp only
  rw [hlookup]
  rfl

theorem getEntry_of_none (hmetadata : s.metadata = some entriesInfo)
    (hlookup : entriesInfo.lookup name = none) : getEntry name s = .ok none := by
  rw [getEntry, hmetadata]
  dsimp only
  rw [hlookup]

/-- The hash of an entry is that of its last block. -/
theorem getHash_of_some (h : OverEntry closed S View LiveView id spots entry)
    (hmetadata : s.metadata = some entriesInfo)
    (hlookup : entriesInfo.lookup name = some ⟨told spots⟩) (hlive : LiveView s.src) :
    ∃ src, getHash name s = .ok (some entry.hash) (s.withSrc src) ∧ LiveView src := by
  obtain ⟨spot, hspot⟩ := h.made.next_spot (Nat.le_refl _)
  have hlast : (told spots).getLast? = some (spot.1, spot.2.size) := by
    have hlength : (told spots).length = entry.chunks.length + 2 := by
      rw [told, List.length_map, h.made.length_eq]
    rw [List.getLast?_eq_getElem?, hlength]
    exact getElem?_told hspot
  obtain ⟨options, hblock⟩ : ∃ options, spot.2 = .endOfEntry id options entry.hash := by
    rcases h.made.spot_cases hspot with ⟨hk, -⟩ | ⟨i, options, data, hk, hchunk, -⟩ | ⟨-, hend⟩
    · cases hk
    · obtain ⟨hlt, -⟩ := List.getElem?_eq_some_iff.mp hchunk
      exact absurd (Nat.succ.inj hk) hlt.ne'
    · exact hend
  obtain ⟨src₁, hseek, hsrc₁⟩ := h.cursor.seekStart (t := spot.1) hlive
    (.inl (h.shown.lt_length hspot))
  obtain ⟨src₂, hrun, hsrc₂⟩ := fromReader_spot h.cursor.toDelivers h.shown hspot hsrc₁
  rw [hblock] at hrun
  have hread : readHashAt spot.1 s.src = .ok (some entry.hash) src₂ :=
    bind_eq_ok.mpr ⟨_, src₁, liftIo_eq_ok.mpr hseek, bind_eq_ok.mpr ⟨_, src₂, hrun, rfl⟩⟩
  refine ⟨src₂, ?_, h.cursor.live hsrc₂⟩
  rw [getHash, get_bind, hmetadata]
  dsimp only
  rw [hlookup]
  exact okOr_bind_eq_ok.mpr ⟨_, hlast, zoom_eq_ok.mpr ⟨src₂, hread, rfl⟩⟩

theorem getEntry_of_some (h : OverEntry closed S View LiveView id spots entry)
    (hmetadata : s.metadata = some entriesInfo)
    (hlookup : entriesInfo.lookup name = some ⟨told spots⟩) (hlive : LiveView s.src) :
    ∃ data, getEntry name s = .ok (some ⟨name, data⟩) ∧ EntryAt View S id spots data 0 ∧
      data.state ≠ .finish := by
  obtain ⟨data, hnew, hdata, hstate⟩ := h.new_at hlive
  refine ⟨data, ?_, hdata, hstate⟩
  have hlength : (told spots).length = entry.chunks.length + 2 := by
    rw [told, List.length_map, h.made.length_eq]
  have hne : ¬ (told spots).isEmpty := by
    rw [List.isEmpty_iff]
    intro hnil
    rw [hnil] at hlength
    cases hlength
  rw [getEntry, hmetadata]
  dsimp only
  rw [hlookup]
  dsimp only
  rw [if_neg hne]
  exact Except.bind_eq_ok.mpr ⟨data, hnew, rfl⟩

/-- Calls on an entry leave it at a position of its content. -/
theorem exists_afterAll (h : OverEntry closed S View LiveView id spots entry)
    (calls : List ReaderCall) : ∀ {data : ArchiveEntryDataReader (LayerStack ρ)} {c : ℕ},
      EntryAt View S id spots data c → ∃ c', EntryAt View S id spots (data.afterAll calls) c' := by
  induction calls with
  | nil => exact fun hdata => ⟨_, hdata⟩
  | cons call calls ih =>
      intro data c hdata
      obtain ⟨c', hafter⟩ : ∃ c', EntryAt View S id spots (after call data) c' := by
        cases call with
        | read n =>
            obtain ⟨j, data', hrun, -, -, -, -, -, hdata'⟩ := h.read_at hdata n
            exact ⟨c + j, by rw [after, hrun]; exact hdata'⟩
        | seek w =>
            by_cases hin : 0 ≤ w.target entry.content c ∧
                w.target entry.content c ≤ entry.content.length
            · obtain ⟨t, ht⟩ := Int.eq_ofNat_of_zero_le hin.1
              have hended : decide (data.state = .finish) = true ↔ data.state = .finish :=
                decide_eq_true_iff
              obtain ⟨data', hrun, hdata', -⟩ := h.seek_at hdata hended ht (by omega)
              exact ⟨t, by rw [after, hrun]; exact hdata'⟩
            · refine ⟨c, ?_⟩
              rw [after, h.seek_refused hdata (by omega)]
              exact hdata
      exact ih hafter

/-- With an index that tells where the entries are, any calls are answered from the entries. -/
theorem Indexes.follows (h : Indexes closed S View LiveView entries entriesInfo)
    (calls : List ArchiveCall) : ∀ {s : ArchiveReader ρ}, s.metadata = some entriesInfo →
      LiveView s.src → FollowsArchive entries s calls := by
  induction calls with
  | nil => exact fun _ _ => trivial
  | cons call calls ih =>
      intro s hmetadata hlive
      cases call with
      | getHash name =>
          cases hentry : entries name with
          | none =>
              refine ⟨s, ?_, ih hmetadata hlive⟩
              rw [hentry]
              exact getHash_of_none hmetadata (h.unknown hentry)
          | some entry =>
              obtain ⟨id, spots, hlookup, hover⟩ := h.known hentry
              obtain ⟨src, hrun, hsrc⟩ := getHash_of_some hover hmetadata hlookup hlive
              exact ⟨s.withSrc src, by rw [hentry]; exact hrun, ih hmetadata hsrc⟩
      | getEntry name asked =>
          rw [FollowsArchive]
          cases hentry : entries name with
          | none => exact ⟨getEntry_of_none hmetadata (h.unknown hentry), ih hmetadata hlive⟩
          | some entry =>
              obtain ⟨id, spots, hlookup, hover⟩ := h.known hentry
              obtain ⟨data, hrun, hdata, hstate⟩ := getEntry_of_some hover hmetadata hlookup hlive
              obtain ⟨c', hafter⟩ := exists_afterAll hover asked hdata
              refine ⟨data, hrun, getSize_eq hover.made hover.content_lt hdata.kept.2,
                hover.follows asked hdata (iff_of_false Bool.false_ne_true hstate), ih hmetadata ?_⟩
              exact hover.live_src hafter

end Follows

end ArchiveReader

end Mla
