import Mla.Entries.Block

/-!
# Writing and parsing blocks

A block is written as its header and its data, and parsed from its header whatever its options
are. Where a stream is cut in the header of a block without options, parsing it fails.
-/

namespace Mla

open Io

/-! ## Parsing what comes next -/

section Parses

variable {σ ε α β : Type} [Read Error σ]

/-- The operation returns `a` where the reader is followed by `bs`. -/
structure Parses (x : EStateM ε σ α) (bs : Bytes) (a : α) : Prop where
  ok : ∀ {closed D} {At : σ → ℕ → Prop}, Delivers closed D At → ∀ {s p}, At s p →
    bs <+: D.drop p → ∃ s', x s = .ok a s' ∧ At s' (p + bs.length)

theorem Decodes.parses {x : EStateM ε σ α} {bs : Bytes} {a : α} (h : Decodes x bs a) :
    Parses x bs a where
  ok := h.ok

namespace Parses

variable {x : EStateM ε σ α} {bs cs : Bytes} {a : α} {b : β}

theorem bind {f : α → EStateM ε σ β} (hx : Parses x bs a) (hf : Parses (f a) cs b) :
    Parses (x >>= f) (bs ++ cs) b where
  ok {closed D At} hdelivers {s p} hs hpre := by
    obtain ⟨s₁, hrun, hs₁⟩ := hx.ok hdelivers hs ((List.prefix_append bs cs).trans hpre)
    have hrest : cs <+: D.drop (p + bs.length) := by
      obtain ⟨rest, hrest⟩ := hpre
      refine ⟨rest, ?_⟩
      rw [← List.drop_drop, ← hrest, List.append_assoc, List.drop_left]
    obtain ⟨s', hrun', hs'⟩ := hf.ok hdelivers hs₁ hrest
    refine ⟨s', bind_eq_ok.mpr ⟨a, s₁, hrun, hrun'⟩, ?_⟩
    rwa [List.length_append, ← Nat.add_assoc]

theorem cast (hx : Parses x bs a) (hbs : bs = cs) : Parses x cs a := hbs ▸ hx

theorem map (hx : Parses x bs a) (f : α → β) : Parses (f <$> x) bs (f a) :=
  (hx.bind (f := fun a => Pure.pure (f a)) (Decodes.pure (f a)).parses).cast (List.append_nil _)

end Parses

end Parses

/-! ## Fields -/

section Fields

variable {σ β : Type} [Patience] [Read Error σ]

theorem parses_readToEnd {bytes : Bytes} :
    Parses (readToEndField bytes.length : EStateM Error σ Bytes) bytes bytes where
  ok {closed D At} hdelivers {s p} hs hpre := by
    have hlen := hpre.length_le
    rw [List.length_drop] at hlen
    have hle := hdelivers.le hs
    obtain ⟨s', hrun, hs'⟩ := hdelivers.takeReadToEnd_eq bytes.length hs (Or.inr (by omega))
    have hslice : slice D p bytes.length = bytes := by
      obtain ⟨rest, hrest⟩ := hpre
      rw [slice, ← hrest, List.take_left]
    rw [hslice] at hrun
    rw [min_eq_left (by omega)] at hs'
    exact ⟨s', by rw [readToEndField, hrun], hs'⟩

theorem parses_entryName (name : EntryName) :
    Parses (deserializeEntryName : EStateM Error σ EntryName) name.encode name := by
  refine ((decodes_u64 name.length_lt).parses.bind (parses_readToEnd.bind (?_ : Parses _ [] name))).cast
    (by rw [List.append_nil, EntryName.encode])
  rw [EntryName.fromArbitraryBytes_name]
  exact (Decodes.pure name).parses

theorem parses_options {options : Option Bytes}
    (h : ∀ bytes, options = some bytes → bytes.length < u64Size) :
    Parses (Opts.fromReader : EStateM Error σ Unit) (encodeOptions options) () := by
  cases options with
  | none => exact decodes_opts.parses
  | some bytes =>
      have hlt : bytes.length < 256 ^ 8 := h bytes rfl
      have hone : ¬ ((1 : UInt8) = 0) := by decide
      refine ((decodes_u8 1).parses.bind
        (?_ : Parses _ (leBytes 8 bytes.length ++ bytes) ())).cast rfl
      rw [if_neg hone, if_pos rfl]
      refine (decodes_readExactly (length_leBytes 8 _)).parses.bind ?_
      rw [fromLeBytes_leBytes_of_lt hlt]
      constructor
      intro closed D At hdelivers s p hs hpre
      obtain ⟨s', hrun, hs'⟩ := parses_readToEnd.ok hdelivers hs hpre
      refine ⟨s', ?_, hs'⟩
      rw [readToEndField] at hrun
      cases htake : takeReadToEnd bytes.length s with
      | mk read r =>
          rw [htake] at hrun
          cases r with
          | ok u t =>
              obtain ⟨-, rfl⟩ := EStateM.Result.ok.inj hrun
              rfl
          | error e t => cases hrun

/-- A name is cut when its options are: they are missing behind all that a cut name can be. -/
theorem decodes_entryName_opts (name : EntryName) (f : EntryName → β) :
    Decodes (do
      let name ← deserializeEntryName
      Opts.fromReader
      pure (f name) : EStateM Error σ β) (name.encode ++ emptyOptsSerialization) (f name) where
  ok := (((parses_entryName name).bind (decodes_opts.parses.bind
    (Decodes.pure (f name)).parses)).cast (by rw [List.append_nil])).ok
  cut {closed D At} hdelivers hends {s p} hs hpre hne := by
    have hle := hdelivers.le hs
    have hopts : ∀ {t : σ} {a : EntryName}, At t D.length → ∃ e s',
        (do Opts.fromReader; pure (f a) : EStateM Error σ β) t = .error e s' := by
      intro t a ht
      obtain ⟨e, s', hrun⟩ := (decodes_opts.bind (f := fun _ => pure (f a)) (Decodes.pure (f a))).cut hdelivers hends ht
        (by rw [List.drop_length]; exact List.nil_prefix)
        (by rw [List.drop_length]; simp [emptyOptsSerialization])
      exact ⟨e, s', hrun⟩
    have hlength : (D.drop p).length < (name.encode ++ emptyOptsSerialization).length := by
      refine lt_of_le_of_ne hpre.length_le fun h => hne (hpre.eq_of_length h)
    rw [EntryName.encode, List.append_assoc] at hpre
    rcases Nat.lt_or_ge (D.drop p).length 8 with hshort | hlong
    · have hcut := List.prefix_of_prefix_length_le hpre (List.prefix_append _ _)
        (by rw [length_leBytes]; exact hshort.le)
      obtain ⟨e, s', hrun⟩ := (decodes_u64 name.length_lt).cut hdelivers hends hs hcut
        fun h => by
          rw [h, length_leBytes] at hshort
          exact Nat.lt_irrefl _ hshort
      exact ⟨e, s', bind_eq_error.mpr (Or.inl (bind_eq_error.mpr (Or.inl hrun)))⟩
    · have hhead := List.prefix_of_prefix_length_le (List.prefix_append _ _) hpre
        (by rw [length_leBytes]; exact hlong)
      obtain ⟨s₁, hrun, hs₁⟩ := (decodes_u64 name.length_lt).ok hdelivers hs hhead
      rw [length_leBytes] at hs₁
      have hend : D.length ≤ p + 8 + name.name.length := by
        simp only [List.length_drop, EntryName.encode, List.length_append, length_leBytes,
          emptyOptsSerialization, List.length_singleton] at hlength
        omega
      -- What is left of the name is read, or fails to be; the options are missing behind it.
      have hread : (∃ bytes s', takeReadToEnd name.name.length s₁ = (bytes, .ok () s') ∧
          At s' D.length) ∨
          ∃ bytes e s', takeReadToEnd name.name.length s₁ = (bytes, .error e s') := by
        rcases Nat.lt_or_eq_of_le hend with hlt | heq
        · rcases hdelivers.takeReadToEnd_ends hends hs₁ hlt with ⟨s', hrun', hs'⟩ | h
          · exact Or.inl ⟨_, s', hrun', hs'⟩
          · exact Or.inr h
        · obtain ⟨s', hrun', hs'⟩ := hdelivers.takeReadToEnd_eq name.name.length hs₁
            (Or.inr heq.ge)
          rw [heq, min_self] at hs'
          exact Or.inl ⟨_, s', hrun', by rwa [heq]⟩
      have hname : ∀ e s', deserializeEntryName s = .error e s' → ∃ e s', (do
          let name ← deserializeEntryName
          Opts.fromReader
          pure (f name) : EStateM Error σ β) s = .error e s' := fun e s' h =>
        ⟨e, s', bind_eq_error.mpr (Or.inl h)⟩
      rcases hread with ⟨bytes, s₂, htake, hs₂⟩ | ⟨bytes, e, s₂, htake⟩
      · have hfield : readToEndField name.name.length s₁ = .ok bytes s₂ := by
          rw [readToEndField, htake]
        cases hparsed : EntryName.fromArbitraryBytes bytes with
        | error e =>
            refine hname .deserializationError s₂ ?_
            rw [deserializeEntryName]
            simp only [bind_apply, hrun, hfield, hparsed, throw_apply]
        | ok parsed =>
            obtain ⟨e, s', hfail⟩ := hopts (a := parsed) hs₂
            refine ⟨e, s', bind_eq_error.mpr (Or.inr ⟨parsed, s₂, ?_, hfail⟩)⟩
            rw [deserializeEntryName]
            simp only [bind_apply, hrun, hfield, hparsed, pure_apply]
      · refine hname .deserializationError s₂ ?_
        have hfield : readToEndField name.name.length s₁ =
            .error .deserializationError s₂ := by rw [readToEndField, htake]
        rw [deserializeEntryName]
        simp only [bind_apply, hrun, hfield]

theorem decodes_readHash (hash : Sha256Hash) :
    Decodes (ArchiveEntryBlock.readHash : EStateM Error σ Sha256Hash) hash.toList hash := by
  have hlen : hash.toList.length = 32 := Vector.length_toList
  have hpure : Decodes (if h : hash.toList.length = 32 then pure (arrayOf hash.toList h)
      else throw .deserializationError : EStateM Error σ Sha256Hash) [] hash := by
    rw [dif_pos hlen]
    exact Decodes.pure hash
  exact ((decodes_readExactly hlen).bind hpure).cast (List.append_nil _) rfl

end Fields

/-! ## Blocks -/

section Blocks

variable {σ ω : Type} [Patience] [Read Error σ]

theorem decodes_blockType (blockType : ArchiveEntryBlockType) :
    Decodes (ArchiveEntryBlockType.deserialize : EStateM Error σ ArchiveEntryBlockType)
      [blockType.toByte] blockType := by
  have hpure := Decodes.pure (σ := σ) (ε := Error) blockType
  cases blockType with
  | entryStart => exact (decodes_u8 0).bind hpure
  | entryContent => exact (decodes_u8 1).bind hpure
  | endOfArchiveData => exact (decodes_u8 0xFE).bind hpure
  | endOfEntry => exact (decodes_u8 0xFF).bind hpure

theorem decodes_blockMagic :
    Decodes (deserializeU32 : EStateM Error σ ℕ) archiveEntryBlockMagic
      (fromLeBytes archiveEntryBlockMagic) :=
  (decodes_readField (show archiveEntryBlockMagic.length = 4 by decide)).map fromLeBytes

/-- A block is told from what follows its type. -/
theorem Parses.fromReader (blockType : ArchiveEntryBlockType) {bs : Bytes}
    {block : ArchiveEntryBlock}
    (h : Parses (ArchiveEntryBlock.fromType blockType : EStateM Error σ ArchiveEntryBlock) bs block) :
    Parses (ArchiveEntryBlock.fromReader : EStateM Error σ ArchiveEntryBlock)
      (archiveEntryBlockMagic ++ (blockType.toByte :: bs)) block :=
  decodes_blockMagic.parses.bind ((decodes_blockType blockType).parses.bind h)

theorem Decodes.fromReader (blockType : ArchiveEntryBlockType) {bs : Bytes}
    {block : ArchiveEntryBlock}
    (h : Decodes (ArchiveEntryBlock.fromType blockType : EStateM Error σ ArchiveEntryBlock) bs block) :
    Decodes (ArchiveEntryBlock.fromReader : EStateM Error σ ArchiveEntryBlock)
      (archiveEntryBlockMagic ++ (blockType.toByte :: bs)) block :=
  decodes_blockMagic.bind ((decodes_blockType blockType).bind h)

theorem decodes_endOfArchiveData :
    Decodes (ArchiveEntryBlock.fromReader : EStateM Error σ ArchiveEntryBlock)
      encodeEndOfArchiveData .endOfArchiveData :=
  Decodes.fromReader .endOfArchiveData (Decodes.pure _)

/-- Parsing a block reads its header, whatever its options are. -/
theorem parses_block {block : Block} (h : block.Valid) :
    Parses (ArchiveEntryBlock.fromReader : EStateM Error σ ArchiveEntryBlock) block.header
      block.parsed := by
  have hopts := parses_options (σ := σ) h.options_lt
  have hid := (decodes_u64 (σ := σ) h.id_lt).parses
  cases block with
  | entryStart id name options =>
      refine Parses.fromReader .entryStart ?_
      exact hid.bind ((parses_entryName name).bind (hopts.map fun _ => ArchiveEntryBlock.entryStart name id))
  | entryContent id options data =>
      refine Parses.fromReader .entryContent ?_
      exact hid.bind (hopts.bind ((decodes_u64 h.size_lt).parses.map (ArchiveEntryBlock.entryContent · id)))
  | endOfEntry id options hash =>
      refine Parses.fromReader .endOfEntry ?_
      exact hid.bind (hopts.bind ((decodes_readHash hash).parses.map (ArchiveEntryBlock.endOfEntry id ·)))

/-- Without options, a block that is cut in its header is refused. -/
theorem decodes_block {block : Block} (h : block.Valid) (hoptions : block.options = none) :
    Decodes (ArchiveEntryBlock.fromReader : EStateM Error σ ArchiveEntryBlock) block.header
      block.parsed := by
  have hid := decodes_u64 (σ := σ) h.id_lt
  cases block with
  | entryStart id name options =>
      obtain rfl : options = none := hoptions
      refine Decodes.fromReader .entryStart ?_
      exact hid.bind (decodes_entryName_opts name fun name => ArchiveEntryBlock.entryStart name id)
  | entryContent id options data =>
      obtain rfl : options = none := hoptions
      refine Decodes.fromReader .entryContent ?_
      exact hid.bind (decodes_opts.bind ((decodes_u64 h.size_lt).map (ArchiveEntryBlock.entryContent · id)))
  | endOfEntry id options hash =>
      obtain rfl : options = none := hoptions
      refine Decodes.fromReader .endOfEntry ?_
      exact hid.bind (decodes_opts.bind ((decodes_readHash hash).map (ArchiveEntryBlock.endOfEntry id ·)))

variable [Write Error ω]

omit [Read Error σ] in
theorem emits_entryName (name : EntryName) :
    Emits (serializeEntryName name : EStateM Error ω ℕ) name.encode name.encode.length :=
  Emits.addLength ((emits_u64 _).cast rfl (length_leBytes 8 _).symm) (emits_bytes _)

/-- Writing a block writes its header. -/
theorem emits_block (block : Block) (hoptions : block.options = none) :
    Emits (block.parsed.dump : EStateM Error ω Unit) block.header () := by
  have hmagic : Emits (put archiveEntryBlockMagic : EStateM Error ω Unit) archiveEntryBlockMagic () :=
    Emits.put _
  cases block with
  | entryStart id name options =>
      obtain rfl : options = none := hoptions
      exact hmagic.seq ((emits_u8 0).bind ((emits_u64 id).bind ((emits_entryName name).bind
        ((emits_opts.bind (Emits.pure ())).cast (List.append_nil _) rfl))))
  | entryContent id options data =>
      obtain rfl : options = none := hoptions
      exact hmagic.seq ((emits_u8 1).bind ((emits_u64 id).bind (emits_opts.bind
        (((emits_u64 data.length).bind (Emits.pure ())).cast (List.append_nil _) rfl))))
  | endOfEntry id options hash =>
      obtain rfl : options = none := hoptions
      exact hmagic.seq ((emits_u8 0xFF).bind ((emits_u64 id).bind (emits_opts.bind (Emits.put _))))

theorem emits_endOfArchiveData :
    Emits (ArchiveEntryBlock.endOfArchiveData.dump : EStateM Error ω Unit)
      encodeEndOfArchiveData () :=
  (Emits.put archiveEntryBlockMagic).seq
    (((emits_u8 0xFE).bind (Emits.pure ())).cast (List.append_nil _) rfl)

end Blocks

end Mla
