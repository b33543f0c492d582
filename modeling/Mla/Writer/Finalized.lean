import Mla.Reader.Footer
import Mla.Writer.Calls

/-!
# Finalizing a writer

A writer is finalized when all its entries are ended. Behind the blocks of the journal then comes
the block that ends them, the index of all entries sorted by their names, and the options.
-/

namespace Mla

open Io

namespace Journal

/-- What the footer lists. -/
def listed (j : Journal) : List (EntryName × EntryInfo) :=
  ArchiveFooter.sortByName (j.drafts.mapIdx fun id draft => (draft.name, j.index id))

/-- What stands before the footer. -/
def body (j : Journal) : Bytes := j.encode ++ encodeEndOfArchiveData

/-- All that is given to the layers. -/
def stream (j : Journal) : Bytes :=
  j.body ++ ArchiveFooter.encodeFooter j.listed ++ emptyTailOptsSerialization

def AllEnded (j : Journal) : Prop := ∀ draft ∈ j.drafts, draft.ended = true

theorem length_entriesHeader_le (j : Journal) : entriesHeader.length ≤ j.encode.length := by
  rw [encode, List.length_append]
  exact Nat.le_add_right _ _

theorem fits_stream (j : Journal) : j.Fits j.stream.length := by
  rw [Fits, stream, body, List.length_append, List.length_append, List.length_append]
  omega

theorem mem_listed_iff {j : Journal} {name : EntryName} {info : EntryInfo} :
    (name, info) ∈ j.drafts.mapIdx (fun id draft => (draft.name, j.index id)) ↔
      ∃ (id : ArchiveEntryId) (draft : Draft), j.drafts[id]? = some draft ∧ draft.name = name ∧
        j.index id = info := by
  rw [List.mem_mapIdx]
  constructor
  · rintro ⟨id, hlt, heq⟩
    obtain ⟨hname, hinfo⟩ := Prod.mk.inj heq
    exact ⟨id, j.drafts[id], List.getElem?_eq_getElem hlt, hname, hinfo⟩
  · rintro ⟨id, draft, hdraft, rfl, rfl⟩
    obtain ⟨hlt, rfl⟩ := List.getElem?_eq_some_iff.mp hdraft
    exact ⟨id, hlt, rfl⟩

theorem map_fst_listed (j : Journal) :
    (j.drafts.mapIdx fun id draft => (draft.name, j.index id)).map Prod.fst = j.names := by
  refine List.ext_getElem? fun id => ?_
  rw [List.getElem?_map, List.getElem?_mapIdx, Option.map_map, names, List.getElem?_map]
  rfl

theorem isOpen_iff {j : Journal} : ¬ j.AllEnded ↔ ∃ id, (j.opened id).isSome := by
  constructor
  · intro h
    obtain ⟨draft, hmem, hended⟩ : ∃ draft ∈ j.drafts, draft.ended ≠ true := by
      simpa [AllEnded] using h
    obtain ⟨id, hid⟩ := List.getElem?_of_mem hmem
    exact ⟨id, Option.isSome_iff_exists.mpr
      ⟨draft, opened_eq_some.mpr ⟨hid, Bool.eq_false_of_not_eq_true hended⟩⟩⟩
  · rintro ⟨id, hid⟩ hall
    obtain ⟨draft, hdraft⟩ := Option.isSome_iff_exists.mp hid
    obtain ⟨hget, hended⟩ := opened_eq_some.mp hdraft
    rw [hall draft (List.mem_of_getElem? hget)] at hended
    cases hended

end Journal

namespace ArchiveWriter

variable {W ω : Type} [Patience] [Sha256] {Got : ω → Bytes → Prop} {base : Bytes} {n : ℕ}
  {s : ArchiveWriter ω} {j : Journal}

omit [Patience] in
/-- The two maps of the writer say together what the footer lists. -/
theorem Represents.infoOf_iff (h : Represents Got base s j) {name : EntryName} {info : EntryInfo} :
    ArchiveFooter.infoOf s.entriesInfo s.idsInfo name = some info ↔
      ∃ (id : ArchiveEntryId) (draft : Draft), j.drafts[id]? = some draft ∧ draft.name = name ∧
        j.index id = info := by
  rw [ArchiveFooter.infoOf, Option.bind_eq_some_iff]
  constructor
  · rintro ⟨id, hid, hinfo⟩
    obtain ⟨draft, hdraft, hname⟩ := (h.entriesInfo name id).mp hid
    rw [h.idsInfo, if_pos (List.getElem?_eq_some_iff.mp hdraft).1] at hinfo
    exact ⟨id, draft, hdraft, hname, Option.some.inj hinfo⟩
  · rintro ⟨id, draft, hdraft, hname, rfl⟩
    refine ⟨id, (h.entriesInfo name id).mpr ⟨draft, hdraft, hname⟩, ?_⟩
    rw [h.idsInfo, if_pos (List.getElem?_eq_some_iff.mp hdraft).1]

omit [Patience] in
theorem Represents.total (h : Represents Got base s j) :
    ArchiveFooter.Total s.entriesInfo s.idsInfo := by
  intro name id hid
  obtain ⟨draft, hdraft, -⟩ := (h.entriesInfo name id).mp hid
  refine ⟨j.index id, ?_⟩
  rw [h.idsInfo, if_pos (List.getElem?_eq_some_iff.mp hdraft).1]

omit [Patience] in
theorem Represents.lists (h : Represents Got base s j) :
    ArchiveFooter.Lists j.listed (ArchiveFooter.infoOf s.entriesInfo s.idsInfo) := by
  refine ArchiveFooter.lists_sortByName ?_ fun name info =>
    Journal.mem_listed_iff.trans h.infoOf_iff.symm
  rw [Journal.map_fst_listed]
  exact h.sound.nodup

omit [Sha256] in
theorem emits_writeFooter [Write Error ω] {entriesInfo : HashMap EntryName ArchiveEntryId}
    {idsInfo : HashMap ArchiveEntryId EntryInfo} {entries : List (EntryName × EntryInfo)}
    (htotal : ArchiveFooter.Total entriesInfo idsInfo)
    (hlists : ArchiveFooter.Lists entries (ArchiveFooter.infoOf entriesInfo idsInfo)) :
    Emits (writeFooter entriesInfo idsInfo : EStateM Error ω Unit)
      (encodeEndOfArchiveData ++ (ArchiveFooter.encodeFooter entries ++ emptyTailOptsSerialization))
      () := by
  have hfooter := (ArchiveFooter.emits_footer (ω := ω) htotal hlists).seq
    (Emits.put emptyTailOptsSerialization)
  rw [bind_assoc] at hfooter
  exact emits_endOfArchiveData.seq hfooter

variable [LayerWriter W ω] [Write Error W]

/-- A writer with an open entry is not finalized. -/
theorem Represents.finalize_open (h : Represents Got base s j) (hopen : ¬ j.AllEnded) :
    (finalize s : Except Error W) =
      .error (.wrongWriterState "[Finalize] At least one file is still open") := by
  obtain ⟨ids, hashes, hstate, -, hids, -⟩ := h.state
  obtain ⟨id, hid⟩ := Journal.isOpen_iff.mp hopen
  have hne : ¬ ids.isEmpty := by
    rw [List.isEmpty_iff]
    exact List.ne_nil_of_mem ((hids id).mpr hid)
  rw [finalize, hstate]
  exact if_pos (.inl hne)

/-- Otherwise the layers are given the whole stream, and are finalized. -/
theorem Represents.finalize_ended (h : Represents Got base s j) (happ : Appends Got)
    (haccepts : Accepts (base.length + n) Got) (hn : n < u64Size) (hended : j.AllEnded)
    (hfits : j.stream.length ≤ n) :
    ∃ dest, Got dest (base ++ j.stream) ∧ (finalize s : Except Error W) = (do
      let finalDest ← LayerWriter.finalize dest
      let r ← runOn (do put emptyTailOptsSerialization; put endMlaMagic) finalDest
      pure r.2) := by
  obtain ⟨ids, hashes, hstate, -, hids, hhashes⟩ := h.state
  have hnone : ∀ id, j.opened id = none := fun id =>
    Option.not_isSome_iff_eq_none.mp fun hid => Journal.isOpen_iff.mpr ⟨id, hid⟩ hended
  obtain rfl : ids = [] := List.eq_nil_iff_forall_not_mem.mpr fun id hid => by
    rw [hids, hnone] at hid
    cases hid
  have hempty : hashes.entries = [] := by
    refine List.eq_nil_iff_forall_not_mem.mpr fun entry hentry => ?_
    have hlookup := (hhashes entry.1).symm.trans (AList.mem_lookup_iff.mpr hentry)
    rw [hnone] at hlookup
    cases hlookup
  have hemits := emits_writeFooter (ω := PositionLayerWriter ω) h.total h.lists
  have hstream : j.stream = j.encode ++ (encodeEndOfArchiveData ++
      (ArchiveFooter.encodeFooter j.listed ++ emptyTailOptsSerialization)) := by
    rw [Journal.stream, Journal.body]
    simp only [List.append_assoc]
  rw [hstream, List.length_append] at hfits
  have happ' : Appends (PositionLayerWriter.Counted Got base) := PositionLayerWriter.appends happ
  have haccepts' : Accepts n (PositionLayerWriter.Counted Got base) :=
    PositionLayerWriter.accepts happ haccepts hn
  obtain ⟨dest, hrun⟩ := hemits.accept happ' haccepts' h.dest hfits (by omega)
  have hdest := (hemits.ok happ' h.dest hrun).2
  rw [← hstream] at hdest
  refine ⟨dest.inner, hdest.1, ?_⟩
  have hwritten : runOn (writeFooter s.entriesInfo s.idsInfo) s.dest = .ok ((), dest) :=
    runOn_eq_ok.mpr hrun
  rw [finalize, hstate]
  dsimp only
  rw [hempty, if_neg (by simp), hwritten]
  rfl

end ArchiveWriter

end Mla
