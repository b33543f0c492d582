import Mla.Truncated.Ending

/-!
# The writer follows the conversion

The conversion is one program over whatever it gives the entries to. On an archive writer it does
what it does on a journal, as long as the blocks fit into what the layers take.
-/

namespace Mla

open Io

/-! ## The calls on the output -/

section Output

variable {ω : Type} [Patience] [Sha256] [Write Error ω] {Got : ω → Bytes → Prop} {base : Bytes}
  {n : ℕ}

/-- What the writer is asked to do is what the journal is. -/
structure WriteEntries.Follows {τ υ : Type} [WriteEntries τ] [WriteEntries υ] (Fits : υ → Prop)
    (R : τ → υ → Prop) : Prop where
  startEntry : ∀ name, Simulates Fits R
    (WriteEntries.startEntry name : EStateM Error τ ArchiveEntryId) (WriteEntries.startEntry name)
  appendEntryContent : ∀ id buf, Simulates Fits R
    (WriteEntries.appendEntryContent id buf : EStateM Error τ Unit)
    (WriteEntries.appendEntryContent id buf)
  endEntry : ∀ id, Simulates Fits R
    (WriteEntries.endEntry id : EStateM Error τ Unit) (WriteEntries.endEntry id)

theorem ArchiveWriter.follows (happ : Appends Got) (haccepts : Accepts (base.length + n) Got)
    (hn : n < u64Size) :
    WriteEntries.Follows (Journal.Fits n) (ArchiveWriter.Represents Got base) where
  startEntry name := simulates_startEntry happ haccepts hn name
  appendEntryContent id _ := simulates_appendEntryContent happ haccepts hn id _ _
  endEntry id := simulates_endEntry happ haccepts hn id

end Output

/-! ## The conversion -/

section Run

variable {σ τ υ : Type} {Fits : υ → Prop} {R : τ → υ → Prop}

namespace ContentCopy

/-- The same copy, with outputs that are related. -/
structure Alike (R : τ → υ → Prop) (s : ContentCopy σ τ) (t : ContentCopy σ υ) : Prop where
  src : s.src = t.src
  output : R s.output t.output
  hash : s.hash = t.hash

theorem simulates_fillCache [Read Error σ] :
    Simulates (fun t : ContentCopy σ υ => Fits t.output) (Alike R) fillCache fillCache where
  back {t} h := by
    rw [fillCache] at h
    revert h
    cases (fill cacheSize t.src : Bytes × EStateM.Result (IoError Error) (Take σ) Unit).2 <;>
      exact id
  step {s t} hs _ := by
    rw [fillCache, fillCache, hs.src]
    cases (fill cacheSize t.src : Bytes × EStateM.Result (IoError Error) (Take σ) Unit).2 with
    | ok u src => exact .ok ⟨rfl, hs.output, hs.hash⟩
    | error e src => exact .ok ⟨rfl, hs.output, hs.hash⟩

variable [WriteEntries τ] [WriteEntries υ] (hfollows : WriteEntries.Follows Fits R)
include hfollows

theorem simulates_append (id : ArchiveEntryId) (buf : Bytes) :
    Simulates (fun t : ContentCopy σ υ => Fits t.output) (Alike R) (append id buf) (append id buf) :=
  (hfollows.appendEntryContent id buf).zoom (fun h => h) (fun h => h) (fun hs => hs.output)
    fun hs hout => ⟨hs.src, hout, hs.hash⟩

theorem simulates_copyLoop [Read Error σ] (id : ArchiveEntryId) (entry : EntryName) : ∀ fuel : ℕ,
    Simulates (fun t : ContentCopy σ υ => Fits t.output) (Alike R) (copyLoop id entry fuel)
      (copyLoop id entry fuel)
  | 0 => .throw _
  | fuel + 1 => by
      rw [copyLoop, copyLoop]
      refine simulates_fillCache.bind fun filled => ?_
      obtain ⟨buf, failure⟩ := filled
      refine (simulates_append hfollows id buf).bind fun _ => ?_
      cases failure with
      | some err => exact .pure _
      | none =>
          refine .bind (.modify (fun h => h) fun hs =>
            ⟨hs.src, hs.output, congrArg (· ++ buf) hs.hash⟩) fun _ => ?_
          exact .ite (.pure _) (simulates_copyLoop id entry fuel)

end ContentCopy

namespace Conversion

/-- The same conversion, with outputs that are related. -/
structure Alike (R : τ → υ → Prop) (s : Conversion σ τ) (t : Conversion σ υ) : Prop where
  src : s.src = t.src
  output : R s.output t.output
  ids : s.idTruncated2idOutput = t.idTruncated2idOutput
  names : s.idTruncated2entryname = t.idTruncated2entryname
  done : s.idTruncatedDone = t.idTruncatedDone
  hashes : s.idTruncated2hash = t.idTruncated2hash

section Steps

theorem simulates_onOutput {α : Type} {x : EStateM Error τ α} {y : EStateM Error υ α}
    (hx : Simulates Fits R x y) :
    Simulates (fun t : Conversion σ υ => Fits t.output) (Alike R) (onOutput x) (onOutput y) :=
  hx.zoom (fun h => h) (fun h => h) (fun hs => hs.output)
    fun hs hout => ⟨hs.src, hout, hs.ids, hs.names, hs.done, hs.hashes⟩

variable [WriteEntries τ] [WriteEntries υ] (hfollows : WriteEntries.Follows Fits R)
include hfollows

theorem simulates_entryStart (name : EntryName) (id : ArchiveEntryId) :
    Simulates (fun t : Conversion σ υ => Fits t.output) (Alike R) (entryStart name id)
      (entryStart name id) := by
  refine (Simulates.gets fun hs => by rw [hs.ids]).bind fun known => ?_
  cases known with
  | some o => exact .pure _
  | none =>
      refine (Simulates.gets fun hs => hs.done).bind fun done => .ite (.pure _) ?_
      refine .bind (.modify (fun h => h) fun hs => ⟨hs.src, hs.output, hs.ids,
        congrArg (·.insert id name) hs.names, hs.done, hs.hashes⟩) fun _ => ?_
      refine (simulates_onOutput (hfollows.startEntry name)).attempt.bind fun started => ?_
      split
      · exact .pure _
      · exact .throw _
      · rename_i idOutput
        exact .bind (.modify (fun h => h) fun hs => ⟨hs.src, hs.output,
          congrArg (·.insert id idOutput) hs.ids, hs.names, hs.done,
          congrArg (·.insert id []) hs.hashes⟩) fun _ => .pure _

variable [Read Error σ]

theorem simulates_copyContent (o : ArchiveEntryId) (entry : EntryName) (length : ℕ)
    (id : ArchiveEntryId) (hash : Bytes) :
    Simulates (fun t : Conversion σ υ => Fits t.output) (Alike R)
      (copyContent o entry length id hash) (copyContent o entry length id hash) :=
  (ContentCopy.simulates_copyLoop hfollows o entry _).zoom (fun h => h) (fun h => h)
    (fun hs => ⟨congrArg (Take.new · length) hs.src, hs.output, rfl⟩)
    fun hs hcopy => ⟨congrArg Take.inner hcopy.src, hcopy.output, hs.ids, hs.names, hs.done, by
      rw [hs.hashes, hcopy.hash]⟩

theorem simulates_entryContent (length : ℕ) (id : ArchiveEntryId) :
    Simulates (fun t : Conversion σ υ => Fits t.output) (Alike R) (entryContent length id)
      (entryContent length id) := by
  refine (Simulates.gets fun hs => by rw [hs.ids]).bind fun known => ?_
  cases known with
  | none => exact .pure _
  | some o =>
      refine (Simulates.gets fun hs => hs.done).bind fun done => .ite (.pure _) ?_
      refine (Simulates.gets fun hs => by rw [hs.names]).bind fun entry => ?_
      refine (Simulates.orPanic entry).bind fun entry => ?_
      refine (Simulates.gets fun hs => by rw [hs.hashes]).bind fun hash => ?_
      refine (Simulates.orPanic hash).bind fun hash => ?_
      exact (simulates_copyContent hfollows o entry length id hash).noPanic

omit [Read Error σ] in
theorem simulates_endOfEntry [Sha256] (id : ArchiveEntryId) (hash : Sha256Hash) :
    Simulates (fun t : Conversion σ υ => Fits t.output) (Alike R) (endOfEntry id hash)
      (endOfEntry id hash) := by
  refine (Simulates.gets fun hs => by rw [hs.ids]).bind fun known => ?_
  cases known with
  | none => exact .pure _
  | some o =>
      refine (Simulates.gets fun hs => hs.done).bind fun done => .ite (.pure _) ?_
      refine (Simulates.gets fun hs => by rw [hs.hashes]).bind fun hashArchive => ?_
      cases hashArchive with
      | none => exact .pure _
      | some hashArchive =>
          refine .bind (.modify (fun h => h) fun hs => ⟨hs.src, hs.output, hs.ids, hs.names,
            hs.done, congrArg (·.erase id) hs.hashes⟩) fun _ => .ite (.pure _) ?_
          refine (simulates_onOutput (hfollows.endEntry o)).noPanic.bind fun _ => ?_
          exact .bind (.modify (fun h => h) fun hs => ⟨hs.src, hs.output, hs.ids, hs.names,
            congrArg (· ++ [id]) hs.done, hs.hashes⟩) fun _ => .pure _

variable [Sha256]

theorem simulates_block (next : ArchiveEntryBlock) :
    Simulates (fun t : Conversion σ υ => Fits t.output) (Alike R) (block next) (block next) := by
  cases next with
  | entryStart name id => exact simulates_entryStart hfollows name id
  | entryContent length id => exact simulates_entryContent hfollows length id
  | endOfEntry id hash => exact simulates_endOfEntry hfollows id hash
  | endOfArchiveData => exact .pure _

variable [Patience]

theorem simulates_readBlock :
    Simulates (fun t : Conversion σ υ => Fits t.output) (Alike R) readBlock readBlock := by
  have hnext : Simulates (fun t : Conversion σ υ => Fits t.output) (Alike R)
      (zoom Conversion.src (fun src s => { s with src := src }) ArchiveEntryBlock.fromReader)
      (zoom Conversion.src (fun src s => { s with src := src }) ArchiveEntryBlock.fromReader) :=
    .shared _ (fun h => h) (fun hs => hs.src)
      fun hs => ⟨rfl, hs.output, hs.ids, hs.names, hs.done, hs.hashes⟩
  refine hnext.attempt.bind fun next => ?_
  cases next with
  | error err => exact .pure _
  | ok next => exact simulates_block hfollows next

theorem simulates_readBlocks : ∀ fuel : ℕ,
    Simulates (fun t : Conversion σ υ => Fits t.output) (Alike R) (readBlocks fuel) (readBlocks fuel)
  | 0 => .pure _
  | fuel + 1 => by
      refine (simulates_readBlock hfollows).bind fun stopped => ?_
      cases stopped with
      | some error => exact .pure _
      | none => exact simulates_readBlocks fuel

omit [Read Error σ] [Sha256] [Patience] in
theorem simulates_cleanUp : ∀ ids : List (Sigma fun _ : ArchiveEntryId => ArchiveEntryId),
    Simulates (fun t : Conversion σ υ => Fits t.output) (Alike R) (cleanUp ids) (cleanUp ids)
  | [] => .pure _
  | ⟨id, o⟩ :: ids => by
      refine (Simulates.gets fun hs => hs.done).bind fun done => ?_
      refine .ite (simulates_cleanUp ids) ?_
      refine (Simulates.gets fun hs => by rw [hs.names]).bind fun entry => ?_
      refine (Simulates.orPanic entry).bind fun entry => ?_
      refine (simulates_onOutput (hfollows.endEntry o)).noPanic.bind fun _ => ?_
      exact (simulates_cleanUp ids).bind fun names => .pure _

/-- Whatever the conversion does on an output, it does on one that follows it. -/
theorem simulates_convert [IterationOrder] (fuel : ℕ) :
    Simulates (fun t : Conversion σ υ => Fits t.output) (Alike R) (convert fuel) (convert fuel) := by
  refine (simulates_readBlocks hfollows fuel).bind fun stopped => ?_
  cases stopped with
  | none => exact .pure _
  | some error =>
      refine (Simulates.gets fun hs => by rw [hs.ids]).bind fun ids => ?_
      exact (simulates_cleanUp hfollows _).bind fun names => .ite (.pure _) (.pure _)

end Steps

end Conversion

end Run

end Mla
