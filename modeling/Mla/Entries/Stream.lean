import Mla.Entries.Codec

/-!
# Streams of blocks

A stream is a sequence of blocks, those of the entries and the ones that end them. It is written
block by block, the data of each content from a reader of its own, and parsed block by block, the
data of each content being passed over.
-/

namespace Mla

open Io

/-- A block with its data; there are no options yet. -/
inductive StreamBlock
  | entryStart (id : ArchiveEntryId) (name : EntryName)
  | entryContent (id : ArchiveEntryId) (data : Bytes)
  | endOfEntry (id : ArchiveEntryId) (hash : Sha256Hash)
  | endOfArchiveData

namespace StreamBlock

/-- The block of an entry that it is. -/
def entryBlock : StreamBlock → Option Block
  | entryStart id name => some (.entryStart id name none)
  | entryContent id data => some (.entryContent id none data)
  | endOfEntry id hash => some (.endOfEntry id none hash)
  | endOfArchiveData => none

def parsed : StreamBlock → ArchiveEntryBlock
  | entryStart id name => .entryStart name id
  | entryContent id data => .entryContent data.length id
  | endOfEntry id hash => .endOfEntry id hash
  | endOfArchiveData => .endOfArchiveData

def header (block : StreamBlock) : Bytes :=
  match block.entryBlock with
  | some entry => entry.header
  | none => encodeEndOfArchiveData

def data : StreamBlock → Bytes
  | entryContent _ data => data
  | _ => []

def encode (block : StreamBlock) : Bytes := block.header ++ block.data

theorem encode_of_data {block : StreamBlock} (h : block.data = []) : block.encode = block.header := by
  rw [encode, h, List.append_nil]

/-- The numbers of the block fit their fields. -/
def Valid (block : StreamBlock) : Prop :=
  ∀ entry, block.entryBlock = some entry → entry.Valid

end StreamBlock

/-! ## Reading -/

section Read

variable {σ : Type} [Patience] [Read Error σ]

/-- A block and what stands behind it: a content has the length that it says. -/
def readBlock : EStateM Error σ (ArchiveEntryBlock × Bytes) := do
  let block ← ArchiveEntryBlock.fromReader
  match block with
  | .entryContent length _ => do
      let data ← readExactly length
      pure (block, data)
  | _ => pure (block, [])

def readBlocks : ℕ → EStateM Error σ (List (ArchiveEntryBlock × Bytes))
  | 0 => pure []
  | n + 1 => do
      let block ← readBlock
      let blocks ← readBlocks n
      pure (block :: blocks)

/-- A block is parsed from its header, and refused where its header is cut. -/
theorem decodes_header {block : StreamBlock} (h : block.Valid) :
    Decodes (ArchiveEntryBlock.fromReader : EStateM Error σ ArchiveEntryBlock) block.header
      block.parsed := by
  cases block with
  | entryStart id name => exact decodes_block (h _ rfl) rfl
  | entryContent id data => exact decodes_block (h _ rfl) rfl
  | endOfEntry id hash => exact decodes_block (h _ rfl) rfl
  | endOfArchiveData => exact decodes_endOfArchiveData

theorem decodes_readBlock {block : StreamBlock} (h : block.Valid) :
    Decodes (readBlock : EStateM Error σ (ArchiveEntryBlock × Bytes)) block.encode
      (block.parsed, block.data) := by
  refine (decodes_header h).bind ?_
  cases block with
  | entryStart id name => exact Decodes.pure _
  | entryContent id data => exact (decodes_readExactly rfl).bindPure
  | endOfEntry id hash => exact Decodes.pure _
  | endOfArchiveData => exact Decodes.pure _

theorem decodes_readBlocks {blocks : List StreamBlock} (h : ∀ block ∈ blocks, block.Valid) :
    Decodes (readBlocks blocks.length : EStateM Error σ (List (ArchiveEntryBlock × Bytes)))
      (blocks.flatMap StreamBlock.encode) (blocks.map fun block => (block.parsed, block.data)) := by
  induction blocks with
  | nil => exact Decodes.pure []
  | cons block blocks ih =>
      have hrest := ih fun other hother => h other (List.mem_cons_of_mem _ hother)
      rw [List.flatMap_cons, List.map_cons]
      exact (decodes_readBlock (h block List.mem_cons_self)).bind (hrest.map _)

end Read

/-! ## Writing -/

section Write

variable {σ ω : Type} [Patience] [Read Error σ] [Write Error ω]

/-- `dump`, the data of a content coming from `source`. -/
def dumpFrom (source : σ) (block : ArchiveEntryBlock) : EStateM Error ω Unit := fun dest =>
  match block with
  | .entryContent length id =>
      match ArchiveEntryBlock.dumpContent length id (source, dest) with
      | .ok _ s => .ok () s.2
      | .error e s => .error e s.2
  | block => block.dump dest

def dumpBlocks : List (ArchiveEntryBlock × σ) → EStateM Error ω Unit
  | [] => pure ()
  | block :: blocks => do
      dumpFrom block.2 block.1
      dumpBlocks blocks

/-- The reader has all of `data` to deliver. -/
def HasData (source : σ) (data : Bytes) : Prop :=
  ∃ (closed : Prop) (At : σ → ℕ → Prop), Delivers closed data At ∧ At source 0

variable {Got : ω → Bytes → Prop} {n : ℕ}

omit [Read Error σ] in
theorem emits_header (block : StreamBlock) :
    Emits (block.parsed.dump : EStateM Error ω Unit) block.header () := by
  cases block with
  | entryStart id name => exact emits_block (.entryStart id name none) rfl
  | entryContent id data => exact emits_block (.entryContent id none data) rfl
  | endOfEntry id hash => exact emits_block (.endOfEntry id none hash) rfl
  | endOfArchiveData => exact emits_endOfArchiveData

/-- A block is written as its header and its data. -/
theorem dumpFrom_eq (happ : Appends Got) (haccepts : Accepts n Got) {block : StreamBlock}
    {source : σ} (hsource : HasData source block.data) {dest : ω} {acc : Bytes} (hdest : Got dest acc)
    (hn : acc.length + block.encode.length ≤ n) (hlen : block.encode.length < u64Size) :
    ∃ dest', dumpFrom source block.parsed dest = .ok () dest' ∧ Got dest' (acc ++ block.encode) := by
  rw [StreamBlock.encode, List.length_append] at hn hlen
  have hemits := emits_header (ω := ω) block
  obtain ⟨dest₁, hheader⟩ := hemits.accept happ haccepts hdest (by omega) (by omega)
  obtain ⟨-, hdest₁⟩ := hemits.ok happ hdest hheader
  cases block with
  | entryContent id data =>
      obtain ⟨closed, At, hdelivers, hstart⟩ := hsource
      obtain ⟨source', dest₂, hcopy, -, hdest₂⟩ := hdelivers.copyTake_eq happ haccepts hstart hdest₁
        (show 0 + data.length ≤ data.length by omega) (by
          rw [List.length_append, Nat.add_assoc]
          exact hn)
      have hall : slice data 0 data.length = data := slice_zero_of_le (Nat.le_refl _)
      rw [StreamBlock.data, hall, List.append_assoc] at hdest₂
      have hdump : ArchiveEntryBlock.dumpContent data.length id (source, dest) =
          .ok () (source', dest₂) :=
        bind_eq_ok.mpr ⟨(), (source, dest₁), zoom_eq_ok.mpr ⟨dest₁, hheader, rfl⟩,
          liftIo_eq_ok.mpr hcopy⟩
      refine ⟨dest₂, ?_, hdest₂⟩
      simp only [StreamBlock.parsed, dumpFrom, hdump]
  | entryStart id name => exact ⟨dest₁, hheader, by rwa [StreamBlock.encode_of_data rfl]⟩
  | endOfEntry id hash => exact ⟨dest₁, hheader, by rwa [StreamBlock.encode_of_data rfl]⟩
  | endOfArchiveData => exact ⟨dest₁, hheader, by rwa [StreamBlock.encode_of_data rfl]⟩

/-- Blocks are written one after the other. -/
theorem dumpBlocks_eq (happ : Appends Got) (haccepts : Accepts n Got) :
    ∀ {blocks : List (StreamBlock × σ)} {dest : ω} {acc : Bytes},
      (∀ block ∈ blocks, HasData block.2 block.1.data) → Got dest acc →
      acc.length + (blocks.flatMap fun block => block.1.encode).length ≤ n → n < u64Size →
      ∃ dest', dumpBlocks (blocks.map fun block => (block.1.parsed, block.2)) dest = .ok () dest' ∧
        Got dest' (acc ++ blocks.flatMap fun block => block.1.encode) := by
  intro blocks
  induction blocks with
  | nil =>
      intro dest acc _ hdest _ _
      exact ⟨dest, rfl, by rwa [List.flatMap_nil, List.append_nil]⟩
  | cons block blocks ih =>
      intro dest acc hdata hdest hn hword
      rw [List.flatMap_cons, List.length_append] at hn
      obtain ⟨dest₁, hfirst, hdest₁⟩ := dumpFrom_eq happ haccepts
        (hdata block List.mem_cons_self) hdest (by omega) (by omega)
      obtain ⟨dest', hrest, hdest'⟩ := ih
        (fun other hother => hdata other (List.mem_cons_of_mem _ hother)) hdest₁
        (by rw [List.length_append]; omega) hword
      refine ⟨dest', bind_eq_ok.mpr ⟨(), dest₁, hfirst, hrest⟩, ?_⟩
      rwa [List.flatMap_cons, ← List.append_assoc]

end Write

/-- A stream of blocks is written as the encodings of its blocks and parsed as these blocks, with
nothing read of what follows; a header that is cut is refused. -/
theorem blockStream_roundTrip {σ ω ρ : Type} [Patience] [Read Error σ] [Write Error ω]
    [Read Error ρ] {blocks : List (StreamBlock × σ)} (hvalid : ∀ block ∈ blocks, block.1.Valid)
    (hdata : ∀ block ∈ blocks, HasData block.2 block.1.data) :
    (∀ (Got : ω → Bytes → Prop) (n : ℕ), Appends Got → Accepts n Got → n < u64Size →
      ∀ dest acc, Got dest acc →
        acc.length + (blocks.flatMap fun block => block.1.encode).length ≤ n →
        ∃ dest', dumpBlocks (blocks.map fun block => (block.1.parsed, block.2)) dest = .ok () dest' ∧
          Got dest' (acc ++ blocks.flatMap fun block => block.1.encode)) ∧
    (∀ (closed : Prop) (following : Bytes) (D : Bytes) (At : ρ → ℕ → Prop), Delivers closed D At →
      ∀ s p, At s p →
        D.drop p = (blocks.flatMap fun block => block.1.encode) ++ following →
        ∃ s', readBlocks blocks.length s =
            .ok (blocks.map fun block => (block.1.parsed, block.1.data)) s' ∧
          At s' (D.length - following.length)) ∧
    (∀ block ∈ blocks, ∀ cut, cut <+: block.1.header → cut ≠ block.1.header →
      ∀ (closed : Prop) (D : Bytes) (At : ρ → ℕ → Prop), Delivers closed D At → Ends D At →
        ∀ s p, At s p → D.drop p = cut → ∃ e s', ArchiveEntryBlock.fromReader s = .error e s') := by
  refine ⟨?_, ?_, ?_⟩
  · intro Got n happ haccepts hword dest acc hdest hn
    exact dumpBlocks_eq happ haccepts hdata hdest hn hword
  · intro closed following D At hdelivers s p hs hdrop
    have hblocks : ∀ block ∈ blocks.map Prod.fst, block.Valid := by
      intro block hblock
      obtain ⟨b, hb, rfl⟩ := List.mem_map.mp hblock
      exact hvalid b hb
    have hdecodes := decodes_readBlocks (σ := ρ) hblocks
    rw [List.length_map, List.flatMap_map, List.map_map] at hdecodes
    obtain ⟨s', hrun, hs'⟩ := hdecodes.ok hdelivers hs (hdrop ▸ List.prefix_append _ _)
    have hlength := congrArg List.length hdrop
    have hle := hdelivers.le hs
    rw [List.length_drop, List.length_append] at hlength
    refine ⟨s', hrun, ?_⟩
    have hpos : D.length - following.length =
        p + (blocks.flatMap fun block => block.1.encode).length := by omega
    rw [hpos]
    exact hs'
  · intro block hblock cut hcut hne closed D At hdelivers hends s p hs hdrop
    subst hdrop
    exact (decodes_header (hvalid block hblock)).cut hdelivers hends hs hcut hne

namespace ThreeBlocks

scoped instance patience : Patience where
  retries := 0

/-- An entry without an end, and the end of the entries. -/
def blocks : List StreamBlock :=
  [.entryStart 0 ⟨[109], by decide, by decide⟩, .entryContent 0 [1, 2, 3], .endOfArchiveData]

/-- Each block with a reader of its data. -/
def sources : List (StreamBlock × Cursor Error) := blocks.map fun block => (block, ⟨block.data, 0⟩)

theorem blocks_valid : ∀ block ∈ sources, block.1.Valid := by
  intro block hblock
  obtain ⟨b, hb, rfl⟩ := List.mem_map.mp hblock
  intro entry hentry
  rw [blocks] at hb
  simp only [List.mem_cons, List.not_mem_nil, or_false] at hb
  rcases hb with rfl | rfl | rfl
  · obtain rfl := Option.some.inj hentry
    exact ⟨by decide, by decide, fun _ h => by cases h⟩
  · obtain rfl := Option.some.inj hentry
    exact ⟨by decide, by decide, fun _ h => by cases h⟩
  · cases hentry

theorem sources_hasData : ∀ block ∈ sources, HasData block.2 block.1.data := by
  intro block hblock
  obtain ⟨b, hb, rfl⟩ := List.mem_map.mp hblock
  have hlen : b.data.length < u64Size := by
    rw [blocks] at hb
    simp only [List.mem_cons, List.not_mem_nil, or_false] at hb
    rcases hb with rfl | rfl | rfl
    · decide
    · decide
    · decide
  exact ⟨_, _, (Cursor.isCursor (ε := Error) hlen).toDelivers, ⟨rfl, rfl⟩, Nat.zero_le _⟩

/-- They are parsed with one byte left behind them. -/
theorem blockStream_roundTrip_three :
    ∃ s', readBlocks 3 (⟨blocks.flatMap StreamBlock.encode ++ [7], 0⟩ : Cursor Error) =
        .ok (blocks.map fun block => (block.parsed, block.data)) s' ∧
      s'.pos = (blocks.flatMap StreamBlock.encode).length := by
  have hcursor := Cursor.isCursor (ε := Error)
    (show (blocks.flatMap StreamBlock.encode ++ [7]).length < u64Size by decide)
  obtain ⟨s', hrun, hs'⟩ := (blockStream_roundTrip (ω := VecWriter Error) blocks_valid
    sources_hasData).2.1 _ [7] _ _ hcursor.toDelivers
      (⟨blocks.flatMap StreamBlock.encode ++ [7], 0⟩ : Cursor Error) 0 ⟨⟨rfl, rfl⟩, Nat.zero_le _⟩ rfl
  exact ⟨s', hrun, hs'.1.2⟩

end ThreeBlocks

end Mla
