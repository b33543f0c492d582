import Mla.Truncated.Convert
import Mla.Writer.Size

/-!
# What is salvaged

The conversion is run on a journal. Whatever is read, it goes on until no block can be read or one
makes no sense, and the journal behind it is that of an archive whose entries are all ended.
-/

namespace Mla

open Io

/-! ## Journals that are written to -/

namespace Journal

variable [Patience] [Sha256] {j : Journal} {id : ArchiveEntryId} {draft : Draft}

instance instWriteEntries : WriteEntries Journal where
  startEntry := startEntry
  appendEntryContent id buf := appendEntryContent id buf.length (⟨buf, 0⟩ : Cursor Error)
  endEntry := endEntry

/-- The journal of an archive that can be read back, and is no longer than its entries. -/
structure Proper (j : Journal) : Prop where
  sound : j.Sound
  whole : ∀ block ∈ j.blocks, block.Whole
  length_le : j.encode.length ≤ 9 + (j.drafts.map Draft.blocksRoom).sum

omit [Patience] in
theorem proper_empty : empty.Proper := ⟨sound_empty, fun _ h => absurd h List.not_mem_nil, by decide⟩

omit [Patience] in
theorem Proper.started (h : j.Proper) {name : EntryName} (hname : name ∉ j.names) :
    (j.started name).Proper where
  sound := h.sound.started hname
  whole := List.forall_mem_append.mpr ⟨h.whole, List.forall_mem_singleton.mpr rfl⟩
  length_le := by
    have hle := h.length_le
    have hroom : Draft.blocksRoom ⟨name, [], false⟩ = 22 + name.name.length := rfl
    rw [Journal.started, encode_snoc, List.length_append, Written.length_encode_entryStart,
      List.map_append, List.sum_append, List.map_singleton, List.sum_singleton, hroom]
    omega

omit [Patience] in
theorem Proper.closed (h : j.Proper) (hopen : j.opened id = some draft) :
    (j.closed id draft).Proper where
  sound := h.sound.closed hopen
  whole := List.forall_mem_append.mpr ⟨h.whole, List.forall_mem_singleton.mpr rfl⟩
  length_le := by
    obtain ⟨hdraft, hended⟩ := opened_eq_some.mp hopen
    have hle := h.length_le
    have hsum := sum_map_set Draft.blocksRoom (b := { draft with ended := true }) hdraft
    rw [Draft.blocksRoom, Draft.blocksRoom, hended, if_neg Bool.false_ne_true, if_pos rfl] at hsum
    rw [Journal.closed, encode_snoc, List.length_append, Written.length_encode_endOfEntry]
    dsimp only at hsum ⊢
    omega

omit [Patience] in
theorem Proper.given (h : j.Proper) (hopen : j.opened id = some draft) {data : Bytes}
    (hdata : data.length ≠ 0) : (j.given id draft data.length data).Proper where
  sound := h.sound.given hopen hdata data
  whole := List.forall_mem_append.mpr ⟨h.whole, List.forall_mem_singleton.mpr rfl⟩
  length_le := by
    obtain ⟨hdraft, hended⟩ := opened_eq_some.mp hopen
    have hle := h.length_le
    have hsum := sum_map_set Draft.blocksRoom
      (b := { draft with content := draft.content ++ data }) hdraft
    have hopened : ¬ draft.ended = true := Bool.eq_false_iff.mp hended
    rw [Draft.blocksRoom, Draft.blocksRoom, if_neg hopened] at hsum
    rw [Journal.given, encode_snoc, List.length_append, Written.length_encode_entryContent]
    dsimp only at hsum ⊢
    rw [List.length_append] at hsum
    omega

omit [Patience] in
theorem Proper.length_stream_le (h : j.Proper) : j.stream.length ≤ roomOf j.drafts :=
  h.sound.length_stream_le h.whole h.length_le

/-- An entry is given all of a buffer. -/
theorem Proper.append (h : j.Proper) (hopen : j.opened id = some draft) (buf : Bytes) :
    ∃ j', WriteEntries.appendEntryContent id buf j = .ok () j' ∧ j'.Proper ∧
      j'.drafts = j.drafts.set id { draft with content := draft.content ++ buf } := by
  obtain ⟨c, hsupply⟩ := Cursor.supply_eq (ε := Error) buf
  change ∃ j', appendEntryContent id buf.length (⟨buf, 0⟩ : Cursor Error) j = .ok () j' ∧ _
  rw [appendEntryContent, hopen, hsupply]
  dsimp only
  by_cases hsize : buf.length = 0
  · obtain rfl := List.length_eq_zero_iff.mp hsize
    obtain ⟨hlt, hget⟩ := List.getElem?_eq_some_iff.mp (opened_eq_some.mp hopen).1
    refine ⟨j, if_pos rfl, h, ?_⟩
    rw [List.append_nil]
    subst hget
    exact (List.set_getElem_self hlt).symm
  · exact ⟨j.given id draft buf.length buf, if_neg hsize, h.given hopen hsize, rfl⟩

end Journal

/-! ## Contents -/

namespace ContentCopy

variable {σ : Type} [Patience] [Sha256] [Read Error σ]

/-- A copy ends as the pouring of its source does. -/
inductive EndsPour (entry : EntryName) (j : Journal) (hash : Bytes) :
    EStateM.Result (IoError Error) (Take σ) Unit →
      EStateM.Result Error (ContentCopy σ Journal) (Option TruncatedReadError) → Prop
  | ok {src : Take σ} : EndsPour entry j hash (.ok () src) (.ok none ⟨src, j, hash⟩)
  | error {err : IoError Error} {src : Take σ} {hash' : Bytes} :
      EndsPour entry j hash (.error err src)
        (.ok (some (.errorInFile err entry.rawContentToEscapedString)) ⟨src, j, hash'⟩)

section Ends

variable {entry : EntryName} {j : Journal} {hash : Bytes} {src : Take σ} {err : IoError Error}
  {r : EStateM.Result Error (ContentCopy σ Journal) (Option TruncatedReadError)}

omit [Patience] [Sha256] [Read Error σ] in
theorem EndsPour.of_ok (h : EndsPour entry j hash (.ok () src) r) : r = .ok none ⟨src, j, hash⟩ := by
  cases h with
  | ok => rfl

omit [Patience] [Sha256] [Read Error σ] in
theorem EndsPour.of_error (h : EndsPour entry j hash (.error err src) r) :
    ∃ hash', r = .ok (some (.errorInFile err entry.rawContentToEscapedString)) ⟨src, j, hash'⟩ := by
  cases h with
  | error => exact ⟨_, rfl⟩

end Ends

/-- The buffers are appended one after the other, and hashed. -/
theorem copyLoop_pour (id : ArchiveEntryId) (entry : EntryName) :
    ∀ (fuel : ℕ) {c : ContentCopy σ Journal} {draft : Draft}
      {poured : Bytes × EStateM.Result (IoError Error) (Take σ) Unit}, c.output.Proper →
      c.output.opened id = some draft → pour cacheSize fuel c.src = some poured →
      ∃ j : Journal, j.Proper ∧
        j.drafts = c.output.drafts.set id { draft with content := draft.content ++ poured.1 } ∧
        EndsPour entry j (c.hash ++ poured.1) poured.2 (copyLoop id entry fuel c) := by
  intro fuel
  induction fuel with
  | zero =>
      intro c draft poured _ _ hpour
      cases hpour
  | succ fuel ih =>
      intro c draft poured hproper hopen hpour
      rw [pour] at hpour
      obtain ⟨j, happend, hj, hdrafts⟩ := hproper.append hopen
        (fill cacheSize c.src : Bytes × EStateM.Result (IoError Error) (Take σ) Unit).1
      rw [copyLoop, bind_apply, fillCache]
      cases hfill : (fill cacheSize c.src : Bytes × EStateM.Result (IoError Error) (Take σ) Unit).2 with
      | error err src =>
          rw [hfill] at hpour
          obtain rfl := Option.some.inj hpour
          refine ⟨j, hj, hdrafts, ?_⟩
          dsimp only
          rw [bind_apply, append, zoom, happend]
          exact .error
      | ok u src =>
          rw [hfill] at hpour
          dsimp only at hpour ⊢
          rw [bind_apply, append, zoom, happend]
          dsimp only
          rw [modify_bind]
          split
          · rename_i hlast
            rw [if_pos hlast] at hpour
            obtain rfl := Option.some.inj hpour
            exact ⟨j, hj, hdrafts, .ok⟩
          · rename_i hfull
            rw [if_neg hfull] at hpour
            obtain ⟨rest, hrest, rfl⟩ := Option.map_eq_some_iff.mp hpour
            have hopen' : j.opened id = some { draft with content := draft.content ++
                (fill cacheSize c.src : Bytes × EStateM.Result (IoError Error) (Take σ) Unit).1 } := by
              rw [Journal.opened_eq_some, hdrafts, Journal.getElem?_set_of_opened hopen, if_pos rfl]
              exact ⟨rfl, (Journal.opened_eq_some.mp hopen).2⟩
            obtain ⟨j', hj', hdrafts', hends⟩ := ih (c := ⟨src, j, c.hash ++ _⟩) hj hopen' hrest
            refine ⟨j', hj', ?_, ?_⟩
            · rw [hdrafts', hdrafts, List.set_set, List.append_assoc]
            · rw [← List.append_assoc]
              exact hends

end ContentCopy

/-! ## What the maps say -/

namespace Conversion

variable {σ : Type} [Patience] [Sha256] [Read Error σ] {s s' : Conversion σ Journal}
  {id o : ArchiveEntryId} {draft draft' : Draft} {name : EntryName}

/-- Each entry of the journal is one of the archive that is read, and those that are done are the
ones that are ended. -/
structure Tracks (s : Conversion σ Journal) : Prop where
  proper : s.output.Proper
  injective : ∀ {id id' o}, s.idTruncated2idOutput.lookup id = some o →
    s.idTruncated2idOutput.lookup id' = some o → id = id'
  onto : ∀ o < s.output.drafts.length, ∃ id, s.idTruncated2idOutput.lookup id = some o
  known : ∀ {id o}, s.idTruncated2idOutput.lookup id = some o →
    ∃ draft, s.output.drafts[o]? = some draft ∧
      s.idTruncated2entryname.lookup id = some draft.name ∧
      (draft.ended = true ↔ id ∈ s.idTruncatedDone)
  done : ∀ id ∈ s.idTruncatedDone, id ∈ s.idTruncated2idOutput

/-- The contents of the open entries are hashed. -/
structure Hashes (s : Conversion σ Journal) : Prop extends Tracks s where
  hash : ∀ {id o draft}, s.idTruncated2idOutput.lookup id = some o →
    s.output.opened o = some draft → s.idTruncated2hash.lookup id = some draft.content

omit [Patience] [Read Error σ] in
theorem hashes_new (src : σ) : Hashes (new src Journal.empty) where
  proper := Journal.proper_empty
  injective h := by cases h
  onto o h := absurd h (Nat.not_lt_zero o)
  known h := by cases h
  done id h := absurd h List.not_mem_nil
  hash h := by cases h

omit [Patience] [Read Error σ] in
theorem Tracks.opened_iff (h : s.Tracks) (hid : s.idTruncated2idOutput.lookup id = some o) :
    id ∉ s.idTruncatedDone ↔ ∃ draft, s.output.opened o = some draft := by
  obtain ⟨draft, hdraft, -, hended⟩ := h.known hid
  rw [← hended, Bool.not_eq_true]
  constructor
  · exact fun hopen => ⟨draft, Journal.opened_eq_some.mpr ⟨hdraft, hopen⟩⟩
  · rintro ⟨draft', hopen⟩
    obtain ⟨hdraft', hopen⟩ := Journal.opened_eq_some.mp hopen
    obtain rfl := Option.some.inj (hdraft.symm.trans hdraft')
    exact hopen

def started (s : Conversion σ Journal) (name : EntryName) (id : ArchiveEntryId) :
    Conversion σ Journal :=
  { s with
    output := s.output.started name
    idTruncated2idOutput := s.idTruncated2idOutput.insert id s.output.drafts.length
    idTruncated2entryname := s.idTruncated2entryname.insert id name
    idTruncated2hash := s.idTruncated2hash.insert id [] }

/-- The content of an entry has been copied. -/
def given (s : Conversion σ Journal) (src : σ) (output : Journal) (id : ArchiveEntryId) (hash : Bytes) :
    Conversion σ Journal :=
  { s with
    src := src
    output := output
    idTruncated2hash := s.idTruncated2hash.insert id hash }

def closed (s : Conversion σ Journal) (id o : ArchiveEntryId) (draft : Draft) : Conversion σ Journal :=
  { s with
    output := s.output.closed o draft
    idTruncatedDone := s.idTruncatedDone ++ [id]
    idTruncated2hash := s.idTruncated2hash.erase id }

omit [Patience] [Read Error σ] in
/-- An entry is started under an id that was not used. -/
theorem Hashes.started (h : s.Hashes) (hid : s.idTruncated2idOutput.lookup id = none)
    (hname : name ∉ s.output.names) : (s.started name id).Hashes := by
  have hlt : ∀ {other o}, s.idTruncated2idOutput.lookup other = some o → o < s.output.drafts.length := by
    intro other o hother
    obtain ⟨draft, hdraft, -⟩ := h.known hother
    exact (List.getElem?_eq_some_iff.mp hdraft).1
  have hlookup : ∀ {other o}, (s.idTruncated2idOutput.insert id s.output.drafts.length).lookup other =
      some o → (other = id ∧ o = s.output.drafts.length) ∨
        (other ≠ id ∧ s.idTruncated2idOutput.lookup other = some o) := by
    intro other o hother
    rcases eq_or_ne other id with rfl | hne
    · rw [AList.lookup_insert] at hother
      exact .inl ⟨rfl, (Option.some.inj hother).symm⟩
    · rw [AList.lookup_insert_ne hne] at hother
      exact .inr ⟨hne, hother⟩
  have hdone : id ∉ s.idTruncatedDone := by
    intro hmem
    have hkey := AList.lookup_isSome.mpr (h.done id hmem)
    rw [hid] at hkey
    cases hkey
  refine ⟨⟨h.proper.started hname, ?_, ?_, ?_, ?_⟩, ?_⟩
  · intro other other' o hother hother'
    rcases hlookup hother with ⟨hnew, ho⟩ | ⟨-, hold⟩ <;>
      rcases hlookup hother' with ⟨hnew', ho'⟩ | ⟨-, hold'⟩
    · exact hnew.trans hnew'.symm
    · exact absurd (hlt hold') (ho ▸ Nat.lt_irrefl _)
    · exact absurd (hlt hold) (ho' ▸ Nat.lt_irrefl _)
    · exact h.injective hold hold'
  · intro o ho
    change o < (s.output.drafts ++ [_]).length at ho
    rw [List.length_append, List.length_singleton] at ho
    rcases Nat.lt_succ_iff_lt_or_eq.mp ho with ho | rfl
    · obtain ⟨other, hother⟩ := h.onto o ho
      have hne : other ≠ id := by
        rintro rfl
        rw [hid] at hother
        cases hother
      exact ⟨other, (AList.lookup_insert_ne hne).trans hother⟩
    · exact ⟨id, AList.lookup_insert _⟩
  · intro other o hother
    rcases hlookup hother with ⟨rfl, rfl⟩ | ⟨hne, hother⟩
    · refine ⟨⟨name, [], false⟩, List.getElem?_concat_length, AList.lookup_insert _, ?_⟩
      exact iff_of_false Bool.false_ne_true hdone
    · obtain ⟨draft, hdraft, hentry, hended⟩ := h.known hother
      refine ⟨draft, ?_, (AList.lookup_insert_ne hne).trans hentry, hended⟩
      change (s.output.drafts ++ [_])[o]? = _
      rw [List.getElem?_append_left (hlt hother), hdraft]
  · intro other hother
    exact (AList.mem_insert _).mpr (.inr (h.done other hother))
  · intro other o draft hother hopen
    change (s.output.started name).opened o = some draft at hopen
    rw [Journal.started_opened] at hopen
    rcases hlookup hother with ⟨rfl, rfl⟩ | ⟨hne, hother⟩
    · rw [if_pos rfl] at hopen
      obtain rfl := Option.some.inj hopen
      exact AList.lookup_insert _
    · rw [if_neg (Nat.ne_of_lt (hlt hother))] at hopen
      exact (AList.lookup_insert_ne hne).trans (h.hash hother hopen)

omit [Patience] [Read Error σ] in
theorem Tracks.congr (h : s.Tracks) (houtput : s'.output = s.output)
    (hids : s'.idTruncated2idOutput = s.idTruncated2idOutput)
    (hnames : ∀ id o, s.idTruncated2idOutput.lookup id = some o →
      s'.idTruncated2entryname.lookup id = s.idTruncated2entryname.lookup id)
    (hdone : s'.idTruncatedDone = s.idTruncatedDone) : s'.Tracks where
  proper := houtput ▸ h.proper
  injective := by
    rw [hids]
    exact h.injective
  onto := by
    rw [houtput, hids]
    exact h.onto
  known {id o} hid := by
    rw [hids] at hid
    rw [houtput, hdone, hnames id o hid]
    exact h.known hid
  done := by
    rw [hdone, hids]
    exact h.done

omit [Patience] [Read Error σ] in
/-- An open entry is written to, and perhaps ended. -/
theorem Tracks.updated (h : s.Tracks) (hid : s.idTruncated2idOutput.lookup id = some o)
    (hopen : s.output.opened o = some draft) (hproper : s'.output.Proper)
    (hdrafts : s'.output.drafts = s.output.drafts.set o draft') (hname : draft'.name = draft.name)
    (hids : s'.idTruncated2idOutput = s.idTruncated2idOutput)
    (hnames : s'.idTruncated2entryname = s.idTruncated2entryname)
    (hdone : ∀ other, other ∈ s'.idTruncatedDone ↔
      other ∈ s.idTruncatedDone ∨ (other = id ∧ draft'.ended = true)) : s'.Tracks where
  proper := hproper
  injective := by
    rw [hids]
    exact h.injective
  onto := by
    rw [hdrafts, List.length_set, hids]
    exact h.onto
  known {other o'} hother := by
    rw [hids] at hother
    rw [hdrafts, hnames, hdone, Journal.getElem?_set_of_opened hopen]
    obtain ⟨found, hfound, hentry, hended⟩ := h.known hother
    rcases eq_or_ne o o' with rfl | hne
    · obtain rfl := h.injective hid hother
      rw [(Journal.opened_eq_some.mp hopen).1] at hfound
      obtain rfl := Option.some.inj hfound
      refine ⟨draft', if_pos rfl, hname ▸ hentry, ?_⟩
      rw [← hended, (Journal.opened_eq_some.mp hopen).2]
      simp
    · refine ⟨found, (if_neg hne).trans hfound, hentry, ?_⟩
      have hother' : other ≠ id := by
        rintro rfl
        exact hne (Option.some.inj (hid.symm.trans hother))
      rw [hended]
      simp [hother']
  done other hother := by
    rw [hids]
    rcases (hdone other).mp hother with hother | ⟨rfl, -⟩
    · exact h.done other hother
    · exact AList.lookup_isSome.mp (by rw [hid]; rfl)

omit [Patience] [Read Error σ] in
theorem Hashes.updated (h : s.Hashes) (hid : s.idTruncated2idOutput.lookup id = some o)
    (hopen : s.output.opened o = some draft) (htracks : s'.Tracks)
    (hdrafts : s'.output.drafts = s.output.drafts.set o draft')
    (hids : s'.idTruncated2idOutput = s.idTruncated2idOutput)
    (hother : ∀ other, other ≠ id → s'.idTruncated2hash.lookup other = s.idTruncated2hash.lookup other)
    (hhash : draft'.ended = false → s'.idTruncated2hash.lookup id = some draft'.content) :
    s'.Hashes where
  toTracks := htracks
  hash {other o' found} hlookup hfound := by
    rw [hids] at hlookup
    obtain ⟨hfound, hended⟩ := Journal.opened_eq_some.mp hfound
    rw [hdrafts, Journal.getElem?_set_of_opened hopen] at hfound
    rcases eq_or_ne o o' with rfl | hne
    · obtain rfl := h.injective hid hlookup
      rw [if_pos rfl] at hfound
      obtain rfl := Option.some.inj hfound
      exact hhash hended
    · rw [if_neg hne] at hfound
      have hne' : other ≠ id := by
        rintro rfl
        exact hne (Option.some.inj (hid.symm.trans hlookup))
      rw [hother other hne']
      exact h.hash hlookup (Journal.opened_eq_some.mpr ⟨hfound, hended⟩)

omit [Patience] [Read Error σ] in
theorem Tracks.given (h : s.Tracks) (hid : s.idTruncated2idOutput.lookup id = some o)
    (hopen : s.output.opened o = some draft) {j : Journal} (hj : j.Proper) {content : Bytes}
    (hdrafts : j.drafts = s.output.drafts.set o { draft with content := content }) (src : σ)
    (hash : Bytes) : (s.given src j id hash).Tracks :=
  h.updated hid hopen hj hdrafts rfl rfl rfl fun other => by
    simp [Conversion.given, (Journal.opened_eq_some.mp hopen).2]

omit [Patience] [Read Error σ] in
theorem Hashes.given (h : s.Hashes) (hid : s.idTruncated2idOutput.lookup id = some o)
    (hopen : s.output.opened o = some draft) {j : Journal} (hj : j.Proper) {content : Bytes}
    (hdrafts : j.drafts = s.output.drafts.set o { draft with content := content }) (src : σ) :
    (s.given src j id content).Hashes :=
  h.updated hid hopen (h.toTracks.given hid hopen hj hdrafts src content) hdrafts rfl
    (fun _ hne => AList.lookup_insert_ne hne) fun _ => AList.lookup_insert _

omit [Patience] [Read Error σ] in
theorem Hashes.closed (h : s.Hashes) (hid : s.idTruncated2idOutput.lookup id = some o)
    (hopen : s.output.opened o = some draft) : (s.closed id o draft).Hashes := by
  have hdrafts : (s.closed id o draft).output.drafts =
      s.output.drafts.set o { draft with ended := true } := rfl
  have htracks : (s.closed id o draft).Tracks :=
    h.toTracks.updated hid hopen (h.proper.closed hopen) hdrafts rfl rfl rfl fun other => by
      simp [Conversion.closed]
  exact h.updated hid hopen htracks hdrafts rfl (fun _ hne => AList.lookup_erase_ne hne)
    fun hended => by cases hended

/-! ## What a block does -/

omit [Read Error σ] in
theorem entryStart_eq (hid : s.idTruncated2idOutput.lookup id = none) (hdone : id ∉ s.idTruncatedDone)
    (hname : name ∉ s.output.names) : entryStart name id s = .ok none (s.started name id) := by
  have hstart : onOutput (WriteEntries.startEntry name)
      { s with idTruncated2entryname := s.idTruncated2entryname.insert id name } =
      .ok s.output.drafts.length { s with
        output := s.output.started name
        idTruncated2entryname := s.idTruncated2entryname.insert id name } :=
    zoom_eq_ok.mpr ⟨s.output.started name, if_neg hname, rfl⟩
  rw [entryStart, gets_bind, hid]
  dsimp only
  rw [gets_bind, if_neg hdone, modify_bind, bind_apply, attempt_ok hstart]
  rfl

omit [Read Error σ] in
/-- An id or a name that was used ends the conversion. -/
theorem entryStart_stops (h : s.Tracks)
    (hused : s.idTruncated2idOutput.lookup id ≠ none ∨ name ∈ s.output.names) :
    ∃ error s', entryStart name id s = .ok (some error) s' ∧ s'.Tracks := by
  rw [entryStart, gets_bind]
  cases hid : s.idTruncated2idOutput.lookup id with
  | some o => exact ⟨_, s, rfl, h⟩
  | none =>
      have hname : name ∈ s.output.names := hused.resolve_left fun hne => hne hid
      dsimp only
      rw [gets_bind]
      split
      · exact ⟨_, s, rfl, h⟩
      · have hstart : onOutput (WriteEntries.startEntry name)
            { s with idTruncated2entryname := s.idTruncated2entryname.insert id name } =
            .error .duplicateEntryName
              { s with idTruncated2entryname := s.idTruncated2entryname.insert id name } :=
          zoom_eq_error.mpr ⟨s.output, if_pos hname, rfl⟩
        rw [modify_bind, bind_apply, attempt_error hstart]
        refine ⟨_, _, rfl, h.congr rfl rfl (fun other o hother => ?_) rfl⟩
        refine AList.lookup_insert_ne ?_
        rintro rfl
        rw [hid] at hother
        cases hother

/-- A content goes to its entry up to where the source ends or fails. -/
theorem entryContent_eq (h : s.Hashes) (hid : s.idTruncated2idOutput.lookup id = some o)
    (hopen : s.output.opened o = some draft) {length : ℕ}
    {poured : Bytes × EStateM.Result (IoError Error) (Take σ) Unit}
    (hpour : pour cacheSize (length / cacheSize + 2) (Take.new s.src length) = some poured) :
    ∃ j : Journal, j.Proper ∧
      j.drafts = s.output.drafts.set o { draft with content := draft.content ++ poured.1 } ∧
      (∀ src, poured.2 = .ok () src → entryContent length id s =
        .ok none (s.given src.inner j id (draft.content ++ poured.1))) ∧
      ∀ err src, poured.2 = .error err src → ∃ hash, entryContent length id s =
        .ok (some (.errorInFile err draft.name.rawContentToEscapedString))
          (s.given src.inner j id hash) := by
  have hdone : id ∉ s.idTruncatedDone := (h.toTracks.opened_iff hid).mpr ⟨draft, hopen⟩
  have hentry : s.idTruncated2entryname.lookup id = some draft.name := by
    obtain ⟨found, hfound, hentry, -⟩ := h.known hid
    rw [(Journal.opened_eq_some.mp hopen).1] at hfound
    exact (Option.some.inj hfound) ▸ hentry
  have hrun : entryContent length id s =
      noPanic (copyContent o draft.name length id draft.content) s := by
    rw [entryContent, gets_bind, hid]
    dsimp only
    rw [gets_bind, if_neg hdone, gets_bind, hentry, orPanic, pure_bind, gets_bind, h.hash hid hopen,
      orPanic, pure_bind]
  obtain ⟨j, hj, hdrafts, hends⟩ := ContentCopy.copyLoop_pour o draft.name _
    (c := ⟨Take.new s.src length, s.output, draft.content⟩) h.proper hopen hpour
  refine ⟨j, hj, hdrafts, fun src hok => ?_, fun err src herror => ?_⟩
  · rw [hok] at hends
    rw [hrun, noPanic, copyContent, zoom, ContentCopy.copy, hends.of_ok]
    rfl
  · rw [herror] at hends
    obtain ⟨hash, hcopy⟩ := hends.of_error
    rw [hrun, noPanic, copyContent, zoom, ContentCopy.copy, hcopy]
    exact ⟨hash, rfl⟩

theorem entryContent_stops (h : s.Tracks) (length : ℕ)
    (hunknown : ∀ o draft, s.idTruncated2idOutput.lookup id = some o →
      s.output.opened o ≠ some draft) :
    ∃ error, entryContent length id s = .ok (some error) s := by
  rw [entryContent, gets_bind]
  cases hid : s.idTruncated2idOutput.lookup id with
  | none => exact ⟨_, rfl⟩
  | some o =>
      have hdone : id ∈ s.idTruncatedDone := by
        by_contra hdone
        obtain ⟨draft, hopen⟩ := (h.opened_iff hid).mp hdone
        exact hunknown o draft hid hopen
      dsimp only
      rw [gets_bind, if_pos hdone]
      exact ⟨_, rfl⟩

omit [Read Error σ] in
theorem endOfEntry_eq (h : s.Hashes) (hid : s.idTruncated2idOutput.lookup id = some o)
    (hopen : s.output.opened o = some draft) :
    endOfEntry id (Sha256.digest draft.content) s = .ok none (s.closed id o draft) := by
  have hdone : id ∉ s.idTruncatedDone := (h.toTracks.opened_iff hid).mpr ⟨draft, hopen⟩
  have hend : WriteEntries.endEntry o s.output = .ok () (s.output.closed o draft) := by
    change Journal.endEntry o s.output = _
    rw [Journal.endEntry, hopen]
  rw [endOfEntry, gets_bind, hid]
  dsimp only
  rw [gets_bind, if_neg hdone, gets_bind, h.hash hid hopen]
  dsimp only
  rw [modify_bind, if_neg (not_not_intro rfl), bind_apply, noPanic, onOutput, zoom]
  dsimp only
  rw [hend]
  rfl

omit [Read Error σ] in
/-- Another hash than that of the content ends the conversion. -/
theorem endOfEntry_stops (h : s.Hashes) {hash : Sha256Hash}
    (hother : ∀ o draft, s.idTruncated2idOutput.lookup id = some o →
      s.output.opened o = some draft → Sha256.digest draft.content ≠ hash) :
    ∃ error s', endOfEntry id hash s = .ok (some error) s' ∧ s'.Tracks := by
  rw [endOfEntry, gets_bind]
  cases hid : s.idTruncated2idOutput.lookup id with
  | none => exact ⟨_, s, rfl, h.toTracks⟩
  | some o =>
      dsimp only
      rw [gets_bind]
      by_cases hdone : id ∈ s.idTruncatedDone
      · rw [if_pos hdone]
        exact ⟨_, s, rfl, h.toTracks⟩
      · obtain ⟨draft, hopen⟩ := (h.toTracks.opened_iff hid).mp hdone
        rw [if_neg hdone, gets_bind, h.hash hid hopen]
        dsimp only
        rw [modify_bind, if_pos (hother o draft hid hopen)]
        exact ⟨_, _, rfl, h.toTracks.congr rfl rfl (fun _ _ _ => rfl) rfl⟩

/-! ## Reading blocks -/

section Blocks

variable {P : σ → Prop}
  (hP : ∀ {n : ℕ} {src src' : σ} {bs : Bytes}, P src →
    (Read.read n : Op Error σ Bytes) src = .ok bs src' → P src')
include hP

/-- A block is told to the journal, or ends the conversion. -/
theorem block_tracks (h : s.Hashes) (hsrc : P s.src) (next : ArchiveEntryBlock) :
    ∃ r s', block next s = .ok r s' ∧ s'.Tracks ∧ (r = none → s'.Hashes ∧ P s'.src) := by
  cases next with
  | entryStart name id =>
      by_cases hnew : s.idTruncated2idOutput.lookup id = none ∧ name ∉ s.output.names
      · obtain ⟨hid, hname⟩ := hnew
        have hdone : id ∉ s.idTruncatedDone := fun hmem =>
          AList.lookup_eq_none.mp hid (h.done id hmem)
        have hstarted := h.started hid hname
        exact ⟨none, _, entryStart_eq hid hdone hname, hstarted.toTracks, fun _ => ⟨hstarted, hsrc⟩⟩
      · have hused : s.idTruncated2idOutput.lookup id ≠ none ∨ name ∈ s.output.names := by
          rwa [not_and_or, not_not] at hnew
        obtain ⟨error, s', hrun, hs'⟩ := entryStart_stops h.toTracks hused
        exact ⟨some error, s', hrun, hs', fun hnone => by cases hnone⟩
  | entryContent length id =>
      by_cases hknown : ∃ o draft, s.idTruncated2idOutput.lookup id = some o ∧
          s.output.opened o = some draft
      · obtain ⟨o, draft, hid, hopen⟩ := hknown
        obtain ⟨poured, hpour⟩ := Take.exists_pour (ε := Error)
          (show 0 < cacheSize by decide) (length / cacheSize + 2) (t := Take.new s.src length) (.inr (Nat.le_refl _))
        obtain ⟨j, hj, hdrafts, hok, herror⟩ := entryContent_eq h hid hopen hpour
        obtain ⟨data, r⟩ := poured
        cases r with
        | ok u src =>
            have hgiven := h.given hid hopen hj hdrafts src.inner
            refine ⟨none, _, hok src rfl, hgiven.toTracks, fun _ => ⟨hgiven, ?_⟩⟩
            refine pour_keeps (P := fun t : Take σ => P t.inner) ?_ _ hsrc hpour
            intro n t t' bs ht hread
            change (if t.limit = 0 then _ else _ : EStateM.Result (IoError Error) (Take σ) Bytes) = _
              at hread
            split at hread
            · obtain ⟨-, rfl⟩ := EStateM.Result.ok.inj hread
              exact ht
            · cases hinner : (Read.read (min n t.limit) : Op Error σ Bytes) t.inner with
              | error e inner =>
                  rw [hinner] at hread
                  cases hread
              | ok bs' inner =>
                  rw [hinner] at hread
                  obtain ⟨-, rfl⟩ := EStateM.Result.ok.inj hread
                  exact hP ht hinner
        | error err src =>
            obtain ⟨hash, hrun⟩ := herror err src rfl
            exact ⟨_, _, hrun, h.toTracks.given hid hopen hj hdrafts _ _, fun hnone => by cases hnone⟩
      · obtain ⟨error, hrun⟩ := entryContent_stops h.toTracks length fun o draft hid hopen =>
          hknown ⟨o, draft, hid, hopen⟩
        exact ⟨some error, s, hrun, h.toTracks, fun hnone => by cases hnone⟩
  | endOfEntry id hash =>
      by_cases hknown : ∃ o draft, s.idTruncated2idOutput.lookup id = some o ∧
          s.output.opened o = some draft ∧ Sha256.digest draft.content = hash
      · obtain ⟨o, draft, hid, hopen, rfl⟩ := hknown
        have hclosed := h.closed hid hopen
        exact ⟨none, _, endOfEntry_eq h hid hopen, hclosed.toTracks, fun _ => ⟨hclosed, hsrc⟩⟩
      · obtain ⟨error, s', hrun, hs'⟩ := endOfEntry_stops h fun o draft hid hopen hhash =>
          hknown ⟨o, draft, hid, hopen, hhash⟩
        exact ⟨some error, s', hrun, hs', fun hnone => by cases hnone⟩
  | endOfArchiveData => exact ⟨_, s, rfl, h.toTracks, fun hnone => by cases hnone⟩

end Blocks

end Conversion

end Mla
