import Mla.Entries.Codec
import Mla.Writer.Archive

/-!
# The footer

The writer combines its two maps into the entries of the footer, sorted by the bytes of their
names, and tells the length of the footer behind it. The reader finds the footer from that length
and collects its entries into a map. Maps are told apart by what is looked up in them only.
-/

namespace Mla

open Io

namespace ArchiveFooter

/-! ## Reading -/

section Read

variable {σ : Type} [Patience] [Read Error σ]

def deserializeEntryInfo : EStateM Error σ EntryInfo := do
  let offsetsAndSizes ← deserializeVec (deserializePair deserializeU64 deserializeU64)
  pure ⟨offsetsAndSizes⟩

/-- `collect` into a map: the last value of a key is kept. -/
def collect (entries : List (EntryName × EntryInfo)) : HashMap EntryName EntryInfo :=
  entries.foldl (fun map entry => map.insert entry.1 entry.2) ∅

def deserializeFrom : EStateM Error σ (Option (HashMap EntryName EntryInfo)) := do
  let indexPresent ← deserializeU8
  if indexPresent = 1 then
    let n ← deserializeU64
    let entries ← deserializeTimes (deserializePair deserializeEntryName deserializeEntryInfo) n
    pure (some (collect entries))
  else pure none

/-- The seeks of `from_config` from the end of the entries layer to the footer. -/
def seekToFooter [Seek Error σ] : EStateM Error σ Unit := do
  let _ ← liftIo (Seek.seek (.fromEnd (-8)))
  let entriesFooterOptionsLength ← deserializeU64
  let entriesFooterLengthOffsetFromEnd ←
    okOr (i64CheckedSubUnsigned (-16) entriesFooterOptionsLength) .deserializationError
  let _ ← liftIo (Seek.seek (.fromEnd entriesFooterLengthOffsetFromEnd))
  let entriesFooterLength ← deserializeU64
  let startOfEntriesFooterFromCurrent ←
    okOr (i64CheckedSubUnsigned (-8) entriesFooterLength) .deserializationError
  let _ ← liftIo (Seek.seek (.current startOfEntriesFooterFromCurrent))
  pure ()

/-- The part of `from_config` that reads the footer. -/
def readMetadata [Seek Error σ] : EStateM Error σ (Option (HashMap EntryName EntryInfo)) := do
  seekToFooter
  deserializeFrom

end Read

/-! ## Entries -/

def encodeInfo (info : EntryInfo) : Bytes :=
  encodeVec (fun offsetAndSize => leBytes 8 offsetAndSize.1 ++ leBytes 8 offsetAndSize.2)
    info.offsetsAndSizes

def encodeEntry (entry : EntryName × EntryInfo) : Bytes := entry.1.encode ++ encodeInfo entry.2

/-- The bytes of the footer in front of its length. -/
def encodeEntries (entries : List (EntryName × EntryInfo)) : Bytes := encodeVec encodeEntry entries

/-- The offsets and sizes are 64-bit numbers. -/
structure ValidInfo (info : EntryInfo) : Prop where
  length_lt : info.offsetsAndSizes.length < u64Size
  offset_lt : ∀ offsetAndSize ∈ info.offsetsAndSizes,
    offsetAndSize.1 < u64Size ∧ offsetAndSize.2 < u64Size

section Parses

variable {σ α β : Type} [Read Error σ]

theorem parses_pair {d : EStateM Error σ α} {d' : EStateM Error σ β} {bs cs : Bytes} {a : α} {b : β}
    (hd : Parses d bs a) (hd' : Parses d' cs b) : Parses (deserializePair d d') (bs ++ cs) (a, b) :=
  hd.bind (hd'.map (a, ·))

theorem parses_times {d : EStateM Error σ α} {enc : α → Bytes} {vs : List α}
    (hd : ∀ v ∈ vs, Parses d (enc v) v) :
    Parses (deserializeTimes d vs.length) (vs.flatMap enc) vs := by
  induction vs with
  | nil => exact (Decodes.pure []).parses
  | cons v vs ih =>
      have hrest := ih fun w hw => hd w (List.mem_cons_of_mem _ hw)
      rw [List.flatMap_cons]
      exact (hd v List.mem_cons_self).bind (hrest.map (v :: ·))

end Parses

section Codec

variable {ω σ : Type} [Patience] [Write Error ω] [Read Error σ] {info : EntryInfo}

omit [Read Error σ] in
theorem emits_info (info : EntryInfo) :
    Emits (serializeEntryInfo info : EStateM Error ω ℕ) (encodeInfo info) (encodeInfo info).length := by
  refine emits_vec fun offsetAndSize _ => ?_
  exact Emits.addLength ((emits_u64 _).cast rfl (length_leBytes 8 _).symm)
    ((emits_u64 _).cast rfl (length_leBytes 8 _).symm)

omit [Write Error ω] in
theorem decodes_info (h : ValidInfo info) :
    Decodes (deserializeEntryInfo : EStateM Error σ EntryInfo) (encodeInfo info) info := by
  have hvec := decodes_vec (σ := σ) h.length_lt fun offsetAndSize hmem =>
    decodes_pair (decodes_u64 (h.offset_lt offsetAndSize hmem).1)
      (decodes_u64 (h.offset_lt offsetAndSize hmem).2)
  exact hvec.bindPure

omit [Read Error σ] in
theorem serializeEntries_ok {entries : List (EntryName × EntryInfo)} {Got : ω → Bytes → Prop}
    (happ : Appends Got) {s s' : ω} {acc : Bytes} {length n : ℕ} (hs : Got s acc)
    (h : serializeEntries length entries s = .ok n s') :
    n = length + (entries.flatMap encodeEntry).length ∧
      Got s' (acc ++ entries.flatMap encodeEntry) := by
  induction entries generalizing s acc length with
  | nil =>
      obtain ⟨rfl, rfl⟩ := EStateM.Result.ok.inj h
      exact ⟨rfl, by rwa [List.flatMap_nil, List.append_nil]⟩
  | cons entry entries ih =>
      obtain ⟨_, s₁, hname, hrest⟩ := bind_eq_ok.mp h
      obtain ⟨rfl, hs₁⟩ := (emits_entryName entry.1).ok happ hs hname
      obtain ⟨_, hsum, hrest⟩ := okOr_bind_eq_ok.mp hrest
      obtain rfl := checkedAdd_eq hsum
      obtain ⟨_, s₂, hinfo, hrest⟩ := bind_eq_ok.mp hrest
      obtain ⟨rfl, hs₂⟩ := (emits_info entry.2).ok happ hs₁ hinfo
      obtain ⟨_, hsum, hrest⟩ := okOr_bind_eq_ok.mp hrest
      obtain rfl := checkedAdd_eq hsum
      obtain ⟨rfl, hs'⟩ := ih hs₂ hrest
      rw [List.flatMap_cons, encodeEntry, List.length_append, List.length_append]
      refine ⟨by omega, ?_⟩
      simpa only [List.append_assoc] using hs'

omit [Read Error σ] in
theorem serializeEntries_accept (entries : List (EntryName × EntryInfo)) {Got : ω → Bytes → Prop}
    (happ : Appends Got) {m : ℕ} (haccepts : Accepts m Got) {s : ω} {acc : Bytes} (length : ℕ)
    (hs : Got s acc) (hm : acc.length + (entries.flatMap encodeEntry).length ≤ m)
    (hlen : length + (entries.flatMap encodeEntry).length < u64Size) :
    ∃ n s', serializeEntries length entries s = .ok n s' := by
  induction entries generalizing s acc length with
  | nil => exact ⟨length, s, rfl⟩
  | cons entry entries ih =>
      rw [List.flatMap_cons, encodeEntry, List.length_append, List.length_append] at hm hlen
      obtain ⟨s₁, hname⟩ := (emits_entryName entry.1).accept happ haccepts hs (by omega) (by omega)
      obtain ⟨-, hs₁⟩ := (emits_entryName entry.1).ok happ hs hname
      obtain ⟨s₂, hinfo⟩ := (emits_info entry.2).accept happ haccepts hs₁
        (by rw [List.length_append]; omega) (by omega)
      obtain ⟨-, hs₂⟩ := (emits_info entry.2).ok happ hs₁ hinfo
      obtain ⟨n, s', hrest⟩ := ih (length + entry.1.encode.length + (encodeInfo entry.2).length) hs₂
        (by rw [List.length_append, List.length_append]; omega) (by omega)
      refine ⟨n, s', bind_eq_ok.mpr ⟨_, s₁, hname, okOr_bind_eq_ok.mpr ⟨_, checkedAdd_of_lt
        (by omega), bind_eq_ok.mpr ⟨_, s₂, hinfo, okOr_bind_eq_ok.mpr ⟨_, checkedAdd_of_lt
        (by omega), hrest⟩⟩⟩⟩⟩

/-- What `serialize_into` writes of `n` sorted entries. -/
def serializeSorted (n : ℕ) (entries : List (EntryName × EntryInfo)) : EStateM Error ω Unit := do
  let _ ← serializeU64 n
  let length ← serializeEntries 8 entries
  let length ← okOr (checkedAdd length 1) .serializationError
  let _ ← serializeU64 length
  pure ()

omit [Read Error σ] in
theorem emits_sorted (n : ℕ) (entries : List (EntryName × EntryInfo)) :
    Emits (serializeSorted n entries : EStateM Error ω Unit)
      (leBytes 8 n ++ (entries.flatMap encodeEntry ++
        leBytes 8 (8 + (entries.flatMap encodeEntry).length + 1))) () where
  ok happ s acc _ s' hs h := by
    obtain ⟨_, s₁, hnumber, hrest⟩ := bind_eq_ok.mp h
    obtain ⟨-, hs₁⟩ := (emits_u64 n).ok happ hs hnumber
    obtain ⟨_, s₂, hentries, hrest⟩ := bind_eq_ok.mp hrest
    obtain ⟨rfl, hs₂⟩ := serializeEntries_ok happ hs₁ hentries
    obtain ⟨_, hsum, hrest⟩ := okOr_bind_eq_ok.mp hrest
    obtain rfl := checkedAdd_eq hsum
    obtain ⟨_, s₃, hlength, hrest⟩ := bind_eq_ok.mp hrest
    obtain ⟨-, hs₃⟩ := (emits_u64 _).ok happ hs₂ hlength
    obtain ⟨-, rfl⟩ := EStateM.Result.ok.inj hrest
    exact ⟨rfl, by simpa only [List.append_assoc] using hs₃⟩
  accept happ m s acc haccepts hs hm hlen := by
    simp only [List.length_append, length_leBytes] at hm hlen
    obtain ⟨s₁, hnumber⟩ := (emits_u64 n).accept happ haccepts hs
      (by rw [length_leBytes]; omega) (by rw [length_leBytes]; omega)
    obtain ⟨-, hs₁⟩ := (emits_u64 n).ok happ hs hnumber
    obtain ⟨_, s₂, hentries⟩ := serializeEntries_accept entries happ haccepts 8 hs₁
      (by rw [List.length_append, length_leBytes]; omega) (by omega)
    obtain ⟨rfl, hs₂⟩ := serializeEntries_ok happ hs₁ hentries
    obtain ⟨s₃, hlength⟩ := (emits_u64 (8 + (entries.flatMap encodeEntry).length + 1)).accept happ
      haccepts hs₂ (by simp only [List.length_append, length_leBytes]; omega)
      (by rw [length_leBytes]; omega)
    exact ⟨s₃, bind_eq_ok.mpr ⟨_, s₁, hnumber, bind_eq_ok.mpr ⟨_, s₂, hentries,
      okOr_bind_eq_ok.mpr ⟨_, checkedAdd_of_lt (by omega), bind_eq_ok.mpr ⟨_, s₃, hlength, rfl⟩⟩⟩⟩⟩

end Codec

/-! ## Maps -/

section Maps

variable {entriesInfo entriesInfo' : HashMap EntryName ArchiveEntryId}
  {idsInfo idsInfo' : HashMap ArchiveEntryId EntryInfo} {entries : List (EntryName × EntryInfo)}

/-- Every id that is in use is known. -/
def Total (entriesInfo : HashMap EntryName ArchiveEntryId)
    (idsInfo : HashMap ArchiveEntryId EntryInfo) : Prop :=
  ∀ name id, entriesInfo.lookup name = some id → ∃ info, idsInfo.lookup id = some info

/-- What is known of an entry, by its name. -/
def infoOf (entriesInfo : HashMap EntryName ArchiveEntryId)
    (idsInfo : HashMap ArchiveEntryId EntryInfo) (name : EntryName) : Option EntryInfo :=
  (entriesInfo.lookup name).bind idsInfo.lookup

/-- The entries of a footer: sorted by the bytes of their names, no two of one name. -/
structure Lists (entries : List (EntryName × EntryInfo)) (info : EntryName → Option EntryInfo) :
    Prop where
  sorted : entries.Pairwise fun a b => a.1.name < b.1.name
  mem_iff : ∀ name i, (name, i) ∈ entries ↔ info name = some i

theorem combine_ok (htotal : Total entriesInfo idsInfo) :
    ∃ entries, combine idsInfo entriesInfo.entries = .ok entries ∧
      entries.map Prod.fst = entriesInfo.keys ∧
      ∀ name i, (name, i) ∈ entries ↔ infoOf entriesInfo idsInfo name = some i := by
  have hlist : ∀ used : List (Sigma fun _ : EntryName => ArchiveEntryId),
      (∀ nameAndId ∈ used, ∃ i, idsInfo.lookup nameAndId.2 = some i) →
      ∃ entries, combine idsInfo used = .ok entries ∧ entries.map Prod.fst = used.keys ∧
        ∀ name i, (name, i) ∈ entries ↔
          ∃ id, ⟨name, id⟩ ∈ used ∧ idsInfo.lookup id = some i := by
    intro used
    induction used with
    | nil => exact fun _ => ⟨[], rfl, rfl, fun name i => by simp⟩
    | cons nameAndId used ih =>
        intro hknown
        obtain ⟨i, hi⟩ := hknown _ List.mem_cons_self
        obtain ⟨entries, hcombine, hkeys, hmem⟩ :=
          ih fun nameAndId h => hknown nameAndId (List.mem_cons_of_mem _ h)
        refine ⟨(nameAndId.1, i) :: entries, ?_, ?_, fun name j => ?_⟩
        · rw [combine, hi, hcombine]
          rfl
        · rw [List.map_cons, hkeys, List.keys_cons]
        · rw [List.mem_cons, hmem]
          constructor
          · rintro (hhead | ⟨id, hid, hj⟩)
            · obtain ⟨rfl, rfl⟩ := Prod.mk.inj hhead
              exact ⟨nameAndId.2, List.mem_cons_self, hi⟩
            · exact ⟨id, List.mem_cons_of_mem _ hid, hj⟩
          · rintro ⟨id, hid, hj⟩
            rcases List.mem_cons.mp hid with rfl | hid
            · exact .inl (Prod.ext rfl (Option.some.inj (hj.symm.trans hi)))
            · exact .inr ⟨id, hid, hj⟩
  obtain ⟨entries, hcombine, hkeys, hmem⟩ := hlist entriesInfo.entries fun nameAndId h =>
    htotal nameAndId.1 nameAndId.2 (AList.mem_lookup_iff.mpr h)
  refine ⟨entries, hcombine, hkeys, fun name i => ?_⟩
  rw [hmem, infoOf, Option.bind_eq_some_iff]
  exact exists_congr fun id => and_congr_left fun _ => AList.mem_lookup_iff.symm

/-- What a footer lists is sorted in one way only. -/
theorem Lists.unique {info : EntryName → Option EntryInfo} {entries' : List (EntryName × EntryInfo)}
    (h : Lists entries info) (h' : Lists entries' info) : entries = entries' := by
  have hdistinct : ∀ {es : List (EntryName × EntryInfo)},
      es.Pairwise (fun a b => a.1.name < b.1.name) → es.Nodup := by
    refine fun {es} hsorted => hsorted.imp fun {a b} hlt hab => ?_
    rw [hab] at hlt
    exact List.lt_irrefl _ hlt
  have hperm : entries.Perm entries' := by
    rw [List.perm_ext_iff_of_nodup (hdistinct h.sorted) (hdistinct h'.sorted)]
    exact fun entry => (h.mem_iff entry.1 entry.2).trans (h'.mem_iff entry.1 entry.2).symm
  exact hperm.eq_of_pairwise (fun a b _ _ hab hba => absurd hba (List.lt_asymm hab))
    h.sorted h'.sorted

/-- Entries of different names are sorted without ties. -/
theorem lists_sortByName {info : EntryName → Option EntryInfo}
    (hnodup : (entries.map Prod.fst).Nodup)
    (hmem : ∀ name i, (name, i) ∈ entries ↔ info name = some i) :
    Lists (sortByName entries) info where
  sorted := by
    have hperm : (sortByName entries).Perm entries := List.mergeSort_perm entries _
    have hle : (sortByName entries).Pairwise fun a b => a.1.name ≤ b.1.name := by
      have htrans : ∀ a b c : EntryName × EntryInfo, EntryName.le a.1 b.1 = true →
          EntryName.le b.1 c.1 = true → EntryName.le a.1 c.1 = true := fun a b c hab hbc =>
        decide_eq_true (List.le_trans (of_decide_eq_true hab) (of_decide_eq_true hbc))
      have htotal : ∀ a b : EntryName × EntryInfo,
          (EntryName.le a.1 b.1 || EntryName.le b.1 a.1) = true := by
        intro a b
        rw [Bool.or_eq_true]
        exact (List.le_total a.1.name b.1.name).imp decide_eq_true decide_eq_true
      have h := List.pairwise_mergeSort htrans htotal entries
      exact h.imp fun hab => of_decide_eq_true hab
    have hne : (sortByName entries).Pairwise fun a b => a.1 ≠ b.1 :=
      List.pairwise_map.mp ((hperm.map Prod.fst).nodup_iff.mpr hnodup)
    refine hle.imp₂ (fun a b hab hne => ?_) hne
    refine (List.le_iff_lt_or_eq.mp hab).resolve_right fun hname => hne ?_
    exact (EntryName.mk.injEq ..).mpr hname
  mem_iff name i := (List.mergeSort_perm entries _).mem_iff.trans (hmem name i)

/-- A map of entries without two of one name is what is looked up in their list. -/
theorem lookup_collect (hnodup : (entries.map Prod.fst).Nodup) (name : EntryName) (i : EntryInfo) :
    (collect entries).lookup name = some i ↔ (name, i) ∈ entries := by
  have hfold : ∀ map : HashMap EntryName EntryInfo,
      (entries.foldl (fun map entry => map.insert entry.1 entry.2) map).lookup name = some i ↔
        (name, i) ∈ entries ∨ name ∉ entries.map Prod.fst ∧ map.lookup name = some i := by
    induction entries with
    | nil => exact fun map => by simp
    | cons entry entries ih =>
        intro map
        obtain ⟨hfirst, hrest⟩ := List.nodup_cons.mp hnodup
        rw [List.foldl_cons, ih hrest, List.mem_cons, List.map_cons, List.mem_cons, not_or]
        rcases eq_or_ne name entry.1 with rfl | hne
        · have hnot : ∀ i, (entry.1, i) ∉ entries := fun i hi =>
            hfirst (List.mem_map.mpr ⟨_, hi, rfl⟩)
          simp [hfirst, hnot, AList.lookup_insert, Prod.ext_iff, eq_comm]
        · rw [AList.lookup_insert_ne hne]
          have hother : (name, i) ≠ entry := fun h => hne (congrArg Prod.fst h)
          simp [hne, hother]
  rw [collect, hfold, AList.lookup_empty]
  simp

end Maps

/-! ## The whole footer -/

/-- What the reader parses: the byte that tells that there is an index, and the entries. -/
def encodeIndex (entries : List (EntryName × EntryInfo)) : Bytes := [1] ++ encodeEntries entries

/-- What the writer writes: behind the index, its length. -/
def encodeFooter (entries : List (EntryName × EntryInfo)) : Bytes :=
  encodeIndex entries ++ leBytes 8 (encodeIndex entries).length

section Footer

variable {ω σ : Type} [Patience] [Write Error ω] [Read Error σ]
  {entriesInfo : HashMap EntryName ArchiveEntryId} {idsInfo : HashMap ArchiveEntryId EntryInfo}
  {entries : List (EntryName × EntryInfo)}

omit [Read Error σ] in
/-- The footer is that of the entries that are sorted, in whichever order the maps hold them. -/
theorem emits_footer (htotal : Total entriesInfo idsInfo)
    (hlists : Lists entries (infoOf entriesInfo idsInfo)) :
    Emits (do put [1]; serializeInto entriesInfo idsInfo : EStateM Error ω Unit)
      (encodeFooter entries) () := by
  obtain ⟨combined, hcombine, hkeys, hmem⟩ := combine_ok htotal
  have hnodup : (combined.map Prod.fst).Nodup := hkeys ▸ AList.keys_nodup entriesInfo
  obtain rfl := hlists.unique (lists_sortByName hnodup hmem)
  have hlen : combined.length = (sortByName combined).length :=
    (List.mergeSort_perm combined _).length_eq.symm
  have hserialize : serializeInto entriesInfo idsInfo =
      (serializeSorted combined.length (sortByName combined) : EStateM Error ω Unit) := by
    funext s
    rw [serializeInto, hcombine]
    rfl
  rw [hserialize, hlen]
  refine ((Emits.put [1]).seq (emits_sorted _ _)).cast ?_ rfl
  rw [encodeFooter, encodeIndex, encodeEntries, encodeVec, List.length_append, List.length_append,
    length_leBytes, List.length_singleton, Nat.add_comm 1]
  simp only [List.append_assoc]

omit [Write Error ω] in
theorem parses_index {entries : List (EntryName × EntryInfo)} (hlen : entries.length < u64Size)
    (hinfo : ∀ entry ∈ entries, ValidInfo entry.2) :
    Parses (deserializeFrom : EStateM Error σ _) (encodeIndex entries) (some (collect entries)) := by
  have hentries : Parses (deserializeTimes (deserializePair deserializeEntryName
      deserializeEntryInfo : EStateM Error σ _) entries.length) (entries.flatMap encodeEntry) entries :=
    parses_times fun entry hmem =>
      parses_pair (parses_entryName entry.1) (decodes_info (hinfo entry hmem)).parses
  refine (decodes_u8 1).parses.bind ?_
  rw [if_pos rfl]
  refine (decodes_u64 hlen).parses.bind ?_
  exact (hentries.map fun entries => some (collect entries))

/-- The length that stands behind the index leads back to its start. -/
theorem seekToFooter_eq [Seek Error σ] {closed : Prop} {before : Bytes} {At : σ → ℕ → Prop}
    {Live : σ → Prop}
    (h : IsCursor closed (before ++ encodeFooter entries ++ emptyTailOptsSerialization) At Live)
    (hlen : (before ++ encodeFooter entries ++ emptyTailOptsSerialization).length < i64Size)
    {s : σ} (hs : Live s) : ∃ s', seekToFooter s = .ok () s' ∧ At s' before.length := by
  generalize hD : before ++ encodeFooter entries ++ emptyTailOptsSerialization = D at h hlen
  generalize hL : (encodeIndex entries).length = L
  have hlength : D.length = before.length + L + 17 := by
    rw [← hD, encodeFooter, hL]
    simp only [List.length_append, length_leBytes, length_emptyTailOptsSerialization, hL]
    omega
  have hsize := i64Size_lt_u64Size
  have hrest : D = before ++ (encodeIndex entries ++ (leBytes 8 L ++ ([0] ++ leBytes 8 1))) := by
    rw [← hD, encodeFooter, hL]
    simp only [List.append_assoc]
    rfl
  have hfooter : leBytes 8 L <+: D.drop (before.length + L) := by
    rw [hrest, ← List.drop_drop, List.drop_left, ← hL, List.drop_left]
    exact List.prefix_append _ _
  have htail : leBytes 8 1 <+: D.drop (before.length + L + 9) := by
    have hlen' : ((before ++ encodeIndex entries ++ leBytes 8 L) ++ [0]).length =
        before.length + L + 9 := by
      simp only [List.length_append, length_leBytes, hL, List.length_singleton]
    refine ⟨[], ?_⟩
    rw [List.append_nil, hrest, ← List.append_assoc, ← List.append_assoc, ← List.append_assoc,
      List.drop_left' hlen']
  -- The options: their length, which is one, and the byte that is skipped.
  obtain ⟨s₁, hseek₁, hs₁⟩ := h.seekEnd (t := before.length + L + 9) hs (Or.inl (by omega))
  obtain ⟨s₂, hread₁, hs₂⟩ := (decodes_u64 (by decide)).ok h.toDelivers hs₁ htail
  obtain ⟨s₃, hseek₂, hs₃⟩ := h.seekEnd (t := before.length + L) (h.live hs₂) (Or.inl (by omega))
  obtain ⟨s₄, hread₂, hs₄⟩ :=
    (decodes_u64 (v := L) (by omega)).ok h.toDelivers hs₃ hfooter
  obtain ⟨s₅, hseek₃, hs₅⟩ := h.seekCurrent (t := before.length) hs₄ (Or.inl (by omega))
  refine ⟨s₅, ?_, hs₅⟩
  rw [show ((before.length + L + 9 : ℕ) : ℤ) - D.length = -8 by omega] at hseek₁
  rw [show ((before.length + L : ℕ) : ℤ) - D.length = -16 - (1 : ℕ) by omega] at hseek₂
  rw [length_leBytes, show (before.length : ℤ) - ((before.length + L + 8 : ℕ) : ℤ) = -8 - L by omega]
    at hseek₃
  have hinI64 : inI64 (-8 - L) := ⟨by omega, by omega⟩
  exact bind_eq_ok.mpr ⟨_, s₁, liftIo_eq_ok.mpr hseek₁, bind_eq_ok.mpr ⟨_, s₂, hread₁,
    okOr_bind_eq_ok.mpr ⟨_, if_pos (by decide), bind_eq_ok.mpr ⟨_, s₃, liftIo_eq_ok.mpr hseek₂,
    bind_eq_ok.mpr ⟨_, s₄, hread₂, okOr_bind_eq_ok.mpr ⟨_, if_pos hinI64,
    bind_eq_ok.mpr ⟨_, s₅, liftIo_eq_ok.mpr hseek₃, rfl⟩⟩⟩⟩⟩⟩⟩

theorem readMetadata_eq [Seek Error σ] {closed : Prop} {before : Bytes} {At : σ → ℕ → Prop}
    {Live : σ → Prop}
    (h : IsCursor closed (before ++ encodeFooter entries ++ emptyTailOptsSerialization) At Live)
    (hlen : (before ++ encodeFooter entries ++ emptyTailOptsSerialization).length < i64Size)
    {map : HashMap EntryName EntryInfo}
    (hparses : Parses (deserializeFrom : EStateM Error σ _) (encodeIndex entries) (some map))
    {s : σ} (hs : Live s) : ∃ s', readMetadata s = .ok (some map) s' ∧ Live s' := by
  obtain ⟨s₁, hseek, hs₁⟩ := seekToFooter_eq h hlen hs
  have hpre : encodeIndex entries <+:
      (before ++ encodeFooter entries ++ emptyTailOptsSerialization).drop before.length := by
    rw [List.append_assoc, List.drop_left, encodeFooter, List.append_assoc]
    exact List.prefix_append _ _
  obtain ⟨s', hrun, hs'⟩ := hparses.ok h.toDelivers hs₁ hpre
  exact ⟨s', bind_eq_ok.mpr ⟨(), s₁, hseek, hrun⟩, h.live hs'⟩

end Footer

/-- The bounds of the types of the program: offsets and sizes are 64-bit numbers, and a map or a
vector has no more elements than such a number counts. -/
structure Bounded (entriesInfo : HashMap EntryName ArchiveEntryId)
    (idsInfo : HashMap ArchiveEntryId EntryInfo) : Prop where
  length_lt : entriesInfo.entries.length < u64Size
  valid : ∀ id info, idsInfo.lookup id = some info → ValidInfo info

/-- The footer of two maps. Its bytes depend on what is looked up in the maps only; it ends with
the number of its bytes in front of that, and parsing those gives the map from the names to what
is known of the entries. Where the footer stands before the options of the entries layer, seeking
back from the end finds it. -/
theorem footer_parsed {ω σ : Type} [Patience] [Write Error ω] [Read Error σ] [Seek Error σ]
    {entriesInfo : HashMap EntryName ArchiveEntryId} {idsInfo : HashMap ArchiveEntryId EntryInfo}
    (htotal : Total entriesInfo idsInfo) (hbounded : Bounded entriesInfo idsInfo) :
    ∃ (footer : Bytes) (map : HashMap EntryName EntryInfo),
      (∀ name, map.lookup name = infoOf entriesInfo idsInfo name) ∧
      (∀ (entriesInfo' : HashMap EntryName ArchiveEntryId)
        (idsInfo' : HashMap ArchiveEntryId EntryInfo),
        (∀ name, entriesInfo'.lookup name = entriesInfo.lookup name) →
        (∀ id, idsInfo'.lookup id = idsInfo.lookup id) →
        Emits (do put [1]; serializeInto entriesInfo' idsInfo' : EStateM Error ω Unit)
          (footer ++ leBytes 8 footer.length) ()) ∧
      (∃ entries, Lists entries (infoOf entriesInfo idsInfo) ∧ footer = encodeIndex entries) ∧
      Parses (deserializeFrom : EStateM Error σ _) footer (some map) ∧
      ∀ (closed : Prop) (before : Bytes) (At : σ → ℕ → Prop) (Live : σ → Prop),
        IsCursor closed (before ++ (footer ++ leBytes 8 footer.length) ++
          emptyTailOptsSerialization) At Live →
        (before ++ (footer ++ leBytes 8 footer.length) ++ emptyTailOptsSerialization).length <
          i64Size →
        ∀ s, Live s →
          (∃ s', seekToFooter s = .ok () s' ∧ At s' before.length) ∧
          ∃ s', readMetadata s = .ok (some map) s' := by
  obtain ⟨combined, -, hkeys, hmem⟩ := combine_ok htotal
  have hnodup : (combined.map Prod.fst).Nodup := hkeys ▸ AList.keys_nodup entriesInfo
  have hlists := lists_sortByName hnodup hmem
  have hperm : (sortByName combined).Perm combined := List.mergeSort_perm combined _
  generalize sortByName combined = entries at hlists hperm
  have hnodup : (entries.map Prod.fst).Nodup := (hperm.map Prod.fst).nodup_iff.mpr hnodup
  have hlength : entries.length < u64Size := by
    have h : entries.length = entriesInfo.entries.length := by
      rw [hperm.length_eq, ← List.length_map Prod.fst, hkeys, AList.keys, List.keys, List.length_map]
    rw [h]
    exact hbounded.length_lt
  have hinfo : ∀ entry ∈ entries, ValidInfo entry.2 := by
    intro entry hentry
    obtain ⟨id, -, hid⟩ := Option.bind_eq_some_iff.mp ((hlists.mem_iff entry.1 entry.2).mp hentry)
    exact hbounded.valid id entry.2 hid
  have hparses := parses_index (σ := σ) hlength hinfo
  refine ⟨encodeIndex entries, collect entries, fun name => ?_, ?_, ⟨entries, hlists, rfl⟩, hparses,
    fun closed before At Live hcursor hlen s hs =>
      ⟨seekToFooter_eq hcursor hlen hs, (readMetadata_eq hcursor hlen hparses hs).imp fun _ h => h.1⟩⟩
  · exact Option.ext fun info => (lookup_collect hnodup name info).trans (hlists.mem_iff name info)
  · intro entriesInfo' idsInfo' hnames hids
    have hsame : infoOf entriesInfo' idsInfo' = infoOf entriesInfo idsInfo := by
      funext name
      rw [infoOf, infoOf, hnames]
      exact congrArg _ (funext hids)
    refine emits_footer (fun name id hid => ?_) (hsame ▸ hlists)
    rw [hids]
    exact htotal name id (hnames name ▸ hid)

end ArchiveFooter

/-! ## Two entries -/

namespace TwoEntries

open ArchiveFooter

scoped instance patience : Patience where
  retries := 0

def nameF : EntryName := ⟨[102], by decide, by decide⟩
def nameG : EntryName := ⟨[103], by decide, by decide⟩

/-- The entries are added in the order of their ids. -/
def entriesInfo : HashMap EntryName ArchiveEntryId :=
  (AList.insert nameF 1 ∅).insert nameG 0

def idsInfo : HashMap ArchiveEntryId EntryInfo :=
  (AList.insert 1 ⟨[(0, 0), (19, 5)]⟩ ∅).insert 0 ⟨[(40, 0)]⟩

theorem lookup_idsInfo (id : ArchiveEntryId) (info : EntryInfo) (h : idsInfo.lookup id = some info) :
    id = 0 ∧ info = ⟨[(40, 0)]⟩ ∨ id = 1 ∧ info = ⟨[(0, 0), (19, 5)]⟩ := by
  rcases eq_or_ne id 0 with rfl | hzero
  · rw [idsInfo, AList.lookup_insert] at h
    exact .inl ⟨rfl, (Option.some.inj h).symm⟩
  · rcases eq_or_ne id 1 with rfl | hone
    · rw [idsInfo, AList.lookup_insert_ne hzero, AList.lookup_insert] at h
      exact .inr ⟨rfl, (Option.some.inj h).symm⟩
    · rw [idsInfo, AList.lookup_insert_ne hzero, AList.lookup_insert_ne hone,
        AList.lookup_empty] at h
      cases h

theorem total : Total entriesInfo idsInfo := by
  intro name id h
  rcases eq_or_ne name nameG with rfl | hg
  · rw [entriesInfo, AList.lookup_insert] at h
    obtain rfl := Option.some.inj h
    exact ⟨_, AList.lookup_insert _⟩
  · rcases eq_or_ne name nameF with rfl | hf
    · rw [entriesInfo, AList.lookup_insert_ne hg, AList.lookup_insert] at h
      obtain rfl := Option.some.inj h
      exact ⟨⟨[(0, 0), (19, 5)]⟩, rfl⟩
    · rw [entriesInfo, AList.lookup_insert_ne hg, AList.lookup_insert_ne hf,
        AList.lookup_empty] at h
      cases h

theorem bounded : Bounded entriesInfo idsInfo where
  length_lt := by decide
  valid id info h := by
    rcases lookup_idsInfo id info h with ⟨-, rfl⟩ | ⟨-, rfl⟩
    · exact ⟨by decide, by decide⟩
    · exact ⟨by decide, by decide⟩

def entries : List (EntryName × EntryInfo) :=
  [(nameF, ⟨[(0, 0), (19, 5)]⟩), (nameG, ⟨[(40, 0)]⟩)]

theorem lists : Lists entries (infoOf entriesInfo idsInfo) where
  sorted := by decide
  mem_iff name info := by
    rcases eq_or_ne name nameG with rfl | hg
    · have hlookup : entriesInfo.lookup nameG = some 0 := AList.lookup_insert _
      have hne : nameG ≠ nameF := by decide
      rw [infoOf, hlookup, Option.bind_some, idsInfo, AList.lookup_insert]
      simp [entries, hne, eq_comm]
    · rcases eq_or_ne name nameF with rfl | hf
      · have hlookup : entriesInfo.lookup nameF = some 1 := rfl
        have hinfo : idsInfo.lookup 1 = some ⟨[(0, 0), (19, 5)]⟩ := rfl
        rw [infoOf, hlookup, Option.bind_some, hinfo]
        simp [entries, hg, eq_comm]
      · have hlookup : entriesInfo.lookup name = none := by
          rw [entriesInfo, AList.lookup_insert_ne hg, AList.lookup_insert_ne hf, AList.lookup_empty]
        rw [infoOf, hlookup]
        simp [entries, hf, hg]

/-- The footer of two entries is parsed from a cursor over it. -/
theorem footer_parsed_two : ∃ (map : HashMap EntryName EntryInfo) (s : Cursor Error),
    map.lookup nameF = some ⟨[(0, 0), (19, 5)]⟩ ∧ map.lookup nameG = some ⟨[(40, 0)]⟩ ∧
    deserializeFrom (⟨encodeIndex entries, 0⟩ : Cursor Error) = .ok (some map) s := by
  obtain ⟨footer, map, hlookup, -, ⟨entries', hlists, rfl⟩, hparses, -⟩ :=
    footer_parsed (ω := VecWriter Error) (σ := Cursor Error) total bounded
  obtain rfl := hlists.unique lists
  have hcursor := Cursor.isCursor (ε := Error)
    (show (encodeIndex entries).length < u64Size by decide)
  obtain ⟨s, hrun, -⟩ := hparses.ok hcursor.toDelivers
    (show Cursor.At (encodeIndex entries) (⟨encodeIndex entries, 0⟩ : Cursor Error) 0 ∧ _ from
      ⟨⟨rfl, rfl⟩, Nat.zero_le _⟩) (List.prefix_refl _)
  exact ⟨map, s, hlookup nameF, hlookup nameG, hrun⟩

end TwoEntries

end Mla
