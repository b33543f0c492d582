import Mla.Truncated.Salvaged

/-!
# A conversion ends

A block that is read takes some bytes of the source. Therefore the conversion of a source of `n`
bytes stops within `n` blocks and one; then the entries that are open are ended, all of them.
-/

namespace Mla

open Io

/-! ## Blocks that are read -/

namespace Reads

variable {σ : Type} [Patience] [Read Error σ]

theorem readExactly (n : ℕ) : Reads (Mla.readExactly n : EStateM Error σ Bytes) where
  ok h _ _ _ _ hs hrun := ⟨_, (h.readExactly_ok hs hrun).2.2⟩

theorem readToEndField (n : ℕ) : Reads (Mla.readToEndField n : EStateM Error σ Bytes) where
  ok {S At} h s s' p bs hs hrun := by
    rw [Mla.readToEndField] at hrun
    split at hrun
    · rename_i htake
      obtain ⟨rfl, rfl⟩ := EStateM.Result.ok.inj hrun
      exact ⟨_, (h.takeReadToEnd_ok hs htake).2⟩
    · cases hrun

theorem entryName : Reads (deserializeEntryName : EStateM Error σ EntryName) := by
  refine u64.bind fun n => (readToEndField n).bind fun name => ?_
  cases EntryName.fromArbitraryBytes name with
  | ok name => exact pure name
  | error e => exact throw _

theorem blockType : Reads (ArchiveEntryBlockType.deserialize : EStateM Error σ _) := by
  refine u8.bind fun b => ?_
  split
  · exact pure _
  · split
    · exact pure _
    · split
      · exact pure _
      · split
        · exact pure _
        · exact throw _

theorem hash : Reads (ArchiveEntryBlock.readHash : EStateM Error σ Sha256Hash) := by
  refine (readExactly 32).bind fun bs => ?_
  split
  · exact pure _
  · exact throw _

theorem fromType : ∀ blockType : ArchiveEntryBlockType,
    Reads (ArchiveEntryBlock.fromType blockType : EStateM Error σ ArchiveEntryBlock)
  | .entryStart => u64.bind fun _ => entryName.bind fun _ => opts.bind fun _ => pure _
  | .entryContent => u64.bind fun _ => opts.bind fun _ => u64.bind fun _ => pure _
  | .endOfEntry => u64.bind fun _ => opts.bind fun _ => hash.bind fun _ => pure _
  | .endOfArchiveData => pure _

end Reads

section Advance

variable {σ α : Type} [Read Error σ] {S : Bytes} {At : σ → ℕ → Prop} {s s' : σ} {p : ℕ}

/-- What only reads does not go back. -/
theorem Reads.advances {ε : Type} {x : EStateM ε σ α} {a : α} (hx : Reads x) (h : Yields S At)
    (hs : At s p) (hrun : x s = .ok a s') : ∃ q, At s' q ∧ p ≤ q :=
  hx.ok (h.beyond p) ⟨hs, Nat.le_refl p⟩ hrun

/-- A block takes some bytes. -/
theorem ArchiveEntryBlock.fromReader_ok [Patience] (h : Yields S At) (hs : At s p)
    {block : ArchiveEntryBlock} (hrun : fromReader s = .ok block s') :
    p < S.length ∧ ∃ q, At s' q ∧ p < q := by
  obtain ⟨magic, s₁, hmagic, hrest⟩ := bind_eq_ok.mp hrun
  obtain ⟨hbytes, hs₁⟩ := h.deserializeU32_ok hs hmagic
  have hlen := congrArg List.length hbytes
  rw [length_slice, length_leBytes] at hlen
  obtain ⟨q, hq, hle⟩ := (Reads.blockType.bind Reads.fromType).advances h hs₁ hrest
  exact ⟨by omega, q, hq, by omega⟩

end Advance

/-! ## Reading blocks -/

namespace Conversion

section Read

variable {σ : Type} [Patience] [Sha256] [Read Error σ] {s : Conversion σ Journal} {S : Bytes}
  {At : σ → ℕ → Prop} {p : ℕ}

theorem readBlock_of_ok {next : ArchiveEntryBlock} {src : σ}
    (h : ArchiveEntryBlock.fromReader s.src = .ok next src) :
    readBlock s = block next { s with src := src } := by
  have hnext : zoom Conversion.src (fun src s => { s with src := src })
      ArchiveEntryBlock.fromReader s = .ok next { s with src := src } :=
    zoom_eq_ok.mpr ⟨src, h, rfl⟩
  rw [readBlock, bind_apply, attempt_ok hnext]

theorem readBlock_of_error {err : Error} {src : σ}
    (h : ArchiveEntryBlock.fromReader s.src = .error err src) :
    readBlock s = .ok (some (.ofNextBlock err)) { s with src := src } := by
  have hnext : zoom Conversion.src (fun src s => { s with src := src })
      ArchiveEntryBlock.fromReader s = .error err { s with src := src } :=
    zoom_eq_error.mpr ⟨src, h, rfl⟩
  rw [readBlock, bind_apply, attempt_error hnext]
  rfl

omit [Patience] [Read Error σ] in
theorem Tracks.moved (h : s.Tracks) (src : σ) : Tracks { s with src := src } :=
  h.congr rfl rfl (fun _ _ _ => rfl) rfl

omit [Patience] [Read Error σ] in
theorem Hashes.moved (h : s.Hashes) (src : σ) : Hashes { s with src := src } :=
  { toTracks := h.toTracks.moved src, hash := h.hash }

theorem readBlock_tracks (h : s.Hashes) (hyields : Yields S At) (hs : At s.src p) :
    ∃ r s', readBlock s = .ok r s' ∧ s'.Tracks ∧
      (r = none → s'.Hashes ∧ p < S.length ∧ ∃ q, At s'.src q ∧ p < q) := by
  cases hread : ArchiveEntryBlock.fromReader s.src with
  | error err src =>
      rw [readBlock_of_error hread]
      exact ⟨_, _, rfl, h.toTracks.moved src, fun hnone => by cases hnone⟩
  | ok next src =>
      obtain ⟨hlt, hsrc⟩ := ArchiveEntryBlock.fromReader_ok hyields hs hread
      rw [readBlock_of_ok hread]
      obtain ⟨r, s', hrun, htracks, hgoes⟩ := block_tracks (P := fun src => ∃ q, At src q ∧ p < q)
        (fun {n src src' bs} hsrc hstep => by
          obtain ⟨q, hq, hpq⟩ := hsrc
          exact ⟨_, (hyields.read hq hstep).2.2.2, Nat.lt_add_right _ hpq⟩) (h.moved src) hsrc next
      exact ⟨r, s', hrun, htracks, fun hnone => ⟨(hgoes hnone).1, hlt, (hgoes hnone).2⟩⟩

/-- There are no more blocks than bytes. -/
theorem readBlocks_stops (hyields : Yields S At) : ∀ (fuel : ℕ) {s : Conversion σ Journal} {p : ℕ},
    s.Hashes → At s.src p → S.length - p < fuel →
      ∃ error s', readBlocks fuel s = .ok (some error) s' ∧ s'.Tracks := by
  intro fuel
  induction fuel with
  | zero => exact fun _ _ hfuel => absurd hfuel (Nat.not_lt_zero _)
  | succ fuel ih =>
      intro s p h hs hfuel
      obtain ⟨r, s', hrun, htracks, hgoes⟩ := readBlock_tracks h hyields hs
      rw [readBlocks, bind_apply, hrun]
      cases r with
      | some error => exact ⟨error, s', rfl, htracks⟩
      | none =>
          obtain ⟨h', hmore, q, hq, hlt⟩ := hgoes rfl
          exact ih h' hq (by omega)

end Read

/-! ## Ending the entries -/

end Conversion

namespace Journal

/-- The names of the entries that are open. -/
def unfinished (j : Journal) : List EntryName :=
  (j.drafts.filter fun draft => !draft.ended).map Draft.name

/-- The entries with all of them ended. -/
def finished (j : Journal) : List Draft := j.drafts.map fun draft => { draft with ended := true }

/-- The ids of the entries are gone through. -/
theorem unfinished_eq (j : Journal) :
    ((List.range j.drafts.length).filterMap fun o => (j.opened o).map Draft.name) = j.unfinished := by
  have hrange : (List.range j.drafts.length).map (fun o => j.drafts[o]?) = j.drafts.map some := by
    refine List.ext_getElem? fun o => ?_
    rw [List.getElem?_map, List.getElem?_map]
    rcases Nat.lt_or_ge o j.drafts.length with hlt | hge
    · rw [List.getElem?_range hlt, List.getElem?_eq_getElem hlt]
      exact congrArg some (List.getElem?_eq_getElem hlt)
    · rw [List.getElem?_eq_none hge, List.getElem?_eq_none (by rwa [List.length_range])]
      rfl
  have hopened : (List.range j.drafts.length).filterMap (fun o => (j.opened o).map Draft.name) =
      ((List.range j.drafts.length).map fun o => j.drafts[o]?).filterMap fun found =>
        (found.filter fun draft => !draft.ended).map Draft.name := by
    rw [List.filterMap_map]
    rfl
  rw [hopened, hrange, List.filterMap_map, unfinished, ← List.filterMap_eq_map, List.filterMap_filter]
  refine List.filterMap_congr fun draft _ => ?_
  rw [Function.comp_apply, Option.filter_some]
  cases draft.ended <;> rfl

end Journal

namespace Conversion

section CleanUp

variable {σ : Type} [Patience] [Sha256] [Read Error σ] {s : Conversion σ Journal}
  {id o : ArchiveEntryId} {draft : Draft}

omit [Read Error σ] in
theorem endEntry_eq (hopen : s.output.opened o = some draft) :
    onOutput (WriteEntries.endEntry o) s = .ok () { s with output := s.output.closed o draft } := by
  have hend : WriteEntries.endEntry o s.output = .ok () (s.output.closed o draft) := by
    change Journal.endEntry o s.output = _
    rw [Journal.endEntry, hopen]
  exact zoom_eq_ok.mpr ⟨_, hend, rfl⟩

/-- The pair is that of an entry of which it is known whether it is ended. -/
def Knows (s : Conversion σ Journal) (x : Sigma fun _ : ArchiveEntryId => ArchiveEntryId) : Prop :=
  ∃ draft, s.output.drafts[x.2]? = some draft ∧
    s.idTruncated2entryname.lookup x.1 = some draft.name ∧
    (draft.ended = true ↔ x.1 ∈ s.idTruncatedDone)

omit [Read Error σ] in
/-- The entries that are open are named, and are ended. -/
theorem cleanUp_eq : ∀ (ids : List (Sigma fun _ : ArchiveEntryId => ArchiveEntryId))
    {s : Conversion σ Journal}, s.output.Proper → (∀ x ∈ ids, s.Knows x) →
      (ids.map Sigma.snd).Nodup →
      ∃ j : Journal, j.Proper ∧
        cleanUp ids s = .ok (ids.filterMap fun x => (s.output.opened x.2).map Draft.name)
          { s with output := j } ∧
        ∀ o : ℕ, j.drafts[o]? = (s.output.drafts[o]?).map fun draft =>
          { draft with ended := draft.ended || decide (o ∈ ids.map Sigma.snd) } := by
  intro ids
  induction ids with
  | nil =>
      intro s hproper _ _
      refine ⟨s.output, hproper, rfl, fun o => ?_⟩
      cases s.output.drafts[o]? with
      | none => rfl
      | some draft => simp
  | cons x ids ih =>
      intro s hproper hknows hnodup
      obtain ⟨id, o⟩ := x
      rw [List.map_cons, List.nodup_cons] at hnodup
      obtain ⟨hnew, hnodup⟩ := hnodup
      obtain ⟨draft, hdraft, hname, hended⟩ := hknows _ List.mem_cons_self
      have hrest : ∀ x ∈ ids, s.Knows x := fun x hx => hknows x (List.mem_cons_of_mem _ hx)
      rw [cleanUp, gets_bind]
      by_cases hdone : id ∈ s.idTruncatedDone
      · obtain ⟨j, hj, hrun, hdrafts⟩ := ih hproper hrest hnodup
        have hclosed : s.output.opened o = none := by
          rw [Journal.opened, hdraft]
          simp [hended.mpr hdone]
        refine ⟨j, hj, ?_, fun other => ?_⟩
        · rw [if_pos hdone, hrun, List.filterMap_cons, hclosed]
          rfl
        · rw [hdrafts]
          rcases eq_or_ne other o with rfl | hne
          · rw [hdraft]
            simp [hended.mpr hdone]
          · have hmem : other ∈ ids.map Sigma.snd ↔ other ∈ o :: ids.map Sigma.snd :=
              (List.mem_cons.trans (or_iff_right hne)).symm
            exact Option.map_congr fun found _ => congrArg
              (fun b => ({ found with ended := found.ended || b } : Draft)) (decide_eq_decide.mpr hmem)
      · have hopen : s.output.opened o = some draft :=
          Journal.opened_eq_some.mpr ⟨hdraft, Bool.eq_false_of_not_eq_true (mt hended.mp hdone)⟩
        have hset : ∀ other, (s.output.closed o draft).drafts[other]? =
            if o = other then some { draft with ended := true } else s.output.drafts[other]? :=
          fun other => Journal.getElem?_set_of_opened hopen _
        have hother : ∀ x ∈ ids, o ≠ x.2 := by
          rintro x hx rfl
          exact hnew (List.mem_map.mpr ⟨x, hx, rfl⟩)
        obtain ⟨j, hj, hrun, hdrafts⟩ := ih (s := { s with output := s.output.closed o draft })
          (hproper.closed hopen) (fun x hx => by
            obtain ⟨found, hfound, hknown⟩ := hrest x hx
            exact ⟨found, ((hset x.2).trans (if_neg (hother x hx))).trans hfound, hknown⟩) hnodup
        have hnames : (ids.filterMap fun x =>
            ((s.output.closed o draft).opened x.2).map Draft.name) =
              ids.filterMap fun x => (s.output.opened x.2).map Draft.name := by
          refine List.filterMap_congr fun x hx => ?_
          rw [Journal.closed, Journal.set_opened hopen, if_neg (hother x hx)]
        refine ⟨j, hj, ?_, fun other => ?_⟩
        · rw [if_neg hdone, gets_bind, hname, orPanic, pure_bind, bind_apply, noPanic,
            endEntry_eq hopen]
          dsimp only
          rw [bind_apply, hrun]
          dsimp only
          rw [hnames, List.filterMap_cons, hopen]
          rfl
        · rw [hdrafts, hset]
          rcases eq_or_ne other o with rfl | hne
          · rw [if_pos rfl, hdraft]
            simp
          · rw [if_neg hne.symm]
            have hmem : other ∈ ids.map Sigma.snd ↔ other ∈ o :: ids.map Sigma.snd :=
              (List.mem_cons.trans (or_iff_right hne)).symm
            exact Option.map_congr fun found _ => congrArg
              (fun b => ({ found with ended := found.ended || b } : Draft)) (decide_eq_decide.mpr hmem)

omit [Patience] [Sha256] [Read Error σ] in
/-- The ids of the journal are those that the map gives. -/
theorem Tracks.perm_ids [Sha256] {s : Conversion σ Journal} (h : s.Tracks) :
    (s.idTruncated2idOutput.entries.map Sigma.snd).Perm (List.range s.output.drafts.length) := by
  refine (List.perm_ext_iff_of_nodup ?_ List.nodup_range).mpr fun o => ?_
  · refine s.idTruncated2idOutput.nodupKeys.nodup.map_on fun x hx y hy hxy => ?_
    have hfst : x.1 = y.1 := h.injective (AList.mem_lookup_iff.mpr hx) (AList.mem_lookup_iff.mpr (hxy ▸ hy))
    exact s.idTruncated2idOutput.nodupKeys.eq_of_fst_eq hx hy hfst
  · rw [List.mem_range]
    constructor
    · intro ho
      obtain ⟨x, hx, rfl⟩ := List.mem_map.mp ho
      obtain ⟨draft, hdraft, -⟩ := h.known (AList.mem_lookup_iff.mpr hx)
      exact (List.getElem?_eq_some_iff.mp hdraft).1
    · intro ho
      obtain ⟨id, hid⟩ := h.onto o ho
      exact List.mem_map.mpr ⟨⟨id, o⟩, AList.mem_lookup_iff.mp hid, rfl⟩

omit [Patience] [Sha256] [Read Error σ] in
theorem Tracks.knows [Sha256] {s : Conversion σ Journal} (h : s.Tracks)
    {x : Sigma fun _ : ArchiveEntryId => ArchiveEntryId} (hx : x ∈ s.idTruncated2idOutput.entries) :
    s.Knows x :=
  h.known (AList.mem_lookup_iff.mpr hx)

omit [Read Error σ] in
/-- All entries are ended, and those that were open are named. -/
theorem cleanUp_order [IterationOrder] (h : s.Tracks) : ∃ (j : Journal) (names : List EntryName),
    cleanUp (IterationOrder.order s.idTruncated2idOutput.entries) s =
      .ok names { s with output := j } ∧
    j.Proper ∧ j.drafts = s.output.finished ∧ names.Perm s.output.unfinished := by
  have horder := IterationOrder.perm s.idTruncated2idOutput.entries
  have hids := (horder.map Sigma.snd).trans h.perm_ids
  obtain ⟨j, hj, hrun, hdrafts⟩ := cleanUp_eq _ h.proper (fun x hx => h.knows (horder.subset hx))
    (hids.nodup_iff.mpr List.nodup_range)
  refine ⟨j, _, hrun, hj, ?_, ?_⟩
  · refine List.ext_getElem? fun o => ?_
    rw [hdrafts, Journal.finished, List.getElem?_map]
    refine Option.map_congr fun draft hdraft => ?_
    have hmem : o ∈ (IterationOrder.order s.idTruncated2idOutput.entries).map Sigma.snd :=
      hids.symm.subset (List.mem_range.mpr (List.getElem?_eq_some_iff.mp hdraft).1)
    rw [decide_eq_true hmem, Bool.or_true]
  · rw [← Journal.unfinished_eq]
    have hmap := hids.filterMap fun o => (s.output.opened o).map Draft.name
    rwa [List.filterMap_map] at hmap

end CleanUp

/-! ## The whole conversion -/

section Convert

variable {σ : Type} [Patience] [Sha256] [IterationOrder] [Read Error σ] {S : Bytes}
  {At : σ → ℕ → Prop} {src : σ} {p fuel : ℕ}

/-- The reason that is given: which entries were left open, if any were. -/
def reasonOf (error : TruncatedReadError) (names : List EntryName) : TruncatedReadError :=
  if names.isEmpty then error else .unfinishedEntries names error

/-- What the blocks have told is ended. -/
theorem convert_of_readBlocks {s₀ s : Conversion σ Journal} {error : TruncatedReadError}
    (hrun : readBlocks fuel s₀ = .ok (some error) s) (h : s.Tracks) :
    ∃ (names : List EntryName) (s' : Conversion σ Journal),
      convert fuel s₀ = .ok (some (reasonOf error names)) s' ∧ names.Perm s.output.unfinished ∧
      s'.output.Proper ∧ s'.output.drafts = s.output.finished := by
  obtain ⟨j, names, hclean, hj, hdrafts, hnames⟩ := cleanUp_order h
  refine ⟨names, { s with output := j }, ?_, hnames, hj, hdrafts⟩
  rw [convert, bind_apply, hrun]
  dsimp only
  rw [gets_bind, bind_apply, hclean, reasonOf]
  dsimp only
  split <;> rfl

/-- Whatever is read, the journal behind it is that of an archive whose entries are all ended. -/
theorem convert_ends (hyields : Yields S At) (hsrc : At src p) (hfuel : S.length - p < fuel) :
    ∃ reason s, convert fuel (new src Journal.empty) = .ok (some reason) s ∧ s.output.Proper ∧
      s.output.AllEnded := by
  obtain ⟨error, s, hrun, htracks⟩ := readBlocks_stops hyields fuel (hashes_new src) hsrc hfuel
  obtain ⟨names, s', hconvert, -, hproper, hdrafts⟩ := convert_of_readBlocks hrun htracks
  refine ⟨_, s', hconvert, hproper, fun draft hdraft => ?_⟩
  rw [hdrafts, Journal.finished] at hdraft
  obtain ⟨found, -, rfl⟩ := List.mem_map.mp hdraft
  rfl

end Convert

end Conversion

end Mla
