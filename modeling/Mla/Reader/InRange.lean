import Mla.Reader.Steps

/-!
# Where the reader of an entry panics

The list of blocks is indexed without a check where a block of another entry is found, and
where a seek sums up the sizes before the current block. The index of the current block is
moved on with every content that has been read, whatever the list says. A seek allocates the
bytes that it skips, as many as the list says.
-/

namespace Mla

open Io

namespace ArchiveEntryDataReader

section Steps

variable {σ : Type} [Patience] [Read Error σ] [Seek Error σ] {s : ArchiveEntryDataReader σ}
  {block : ArchiveEntryBlock} {src : σ} {fuel n : ℕ}

/-- Behind the start of the entry the index is moved on within the list. -/
theorem readLoop_starts_not_panics (hstate : s.state = .ready)
    (hrun : ArchiveEntryBlock.fromReader s.src = .ok block src) (hstarts : block.Starts s.id)
    (hrest : ∀ {s : ArchiveEntryDataReader σ},
      s.currentOffsetsAndSizesIndex < s.offsetsAndSizes.length → ¬ Panics (readLoop n fuel s)) :
    ¬ Panics (readLoop n (fuel + 1) s) := by
  rw [readLoop_starts hstate hrun hstarts, bind_apply]
  rcases incrementIndex_cases { s with src := src } with
    ⟨hlt, -, hincrement⟩ | ⟨-, e, s', hincrement⟩
  · rw [hincrement]
    exact moveToBlock_bind (P := fun r => ¬ Panics r) hlt (fun _ => hrest hlt)
      fun _ => Answers.not_panics (Or.inr ⟨_, _, rfl⟩)
  · rw [hincrement]
    exact Answers.not_panics (Or.inr ⟨_, _, rfl⟩)

/-- Where the index is in the list, a read never takes it out of its range. -/
theorem readLoop_not_panics (n : ℕ) :
    ∀ (fuel : ℕ) {s : ArchiveEntryDataReader σ},
      s.currentOffsetsAndSizesIndex < s.offsetsAndSizes.length → ¬ Panics (readLoop n fuel s) := by
  intro fuel
  induction fuel with
  | zero =>
      rintro s - ⟨s', h⟩
      cases h
  | succ fuel ih =>
      intro s hindex
      cases meets s with
      | settled h => exact (h n fuel).not_panics
      | foreign hstate hrun h =>
          rw [readLoop_foreign hstate hrun h]
          exact moveToBlock_bind (P := fun r => ¬ Panics r) hindex (fun _ => ih hindex)
            fun _ => Answers.not_panics (Or.inr ⟨_, _, rfl⟩)
      | starts hstate hrun h => exact readLoop_starts_not_panics hstate hrun h ih

/-- The condition on the state that a read finds: a block of another entry is only found where
the index is in the list. -/
def MeetsRead (s : ArchiveEntryDataReader σ) : Prop :=
  s.state = .ready → ∀ {block src}, ArchiveEntryBlock.fromReader s.src = .ok block src →
    block.Foreign s.id → s.currentOffsetsAndSizesIndex < s.offsetsAndSizes.length

theorem panics_read_iff : Panics (read n s) ↔ ¬ MeetsRead s := by
  cases meets s with
  | settled h =>
      have hmeets : MeetsRead s := by
        intro hstate block src hrun hforeign
        have hanswers := h 0 0
        rw [readLoop_foreign hstate hrun hforeign, bind_apply] at hanswers
        by_contra hindex
        rw [moveToBlock, List.getElem?_eq_none (Nat.not_lt.mp hindex)] at hanswers
        exact hanswers.not_panics ⟨_, rfl⟩
      exact iff_of_false (h n _).not_panics (not_not_intro hmeets)
  | @foreign block src hstate hrun h =>
      by_cases hindex : s.currentOffsetsAndSizesIndex < s.offsetsAndSizes.length
      · exact iff_of_false (readLoop_not_panics n _ hindex)
          (not_not_intro fun _ _ _ _ _ => hindex)
      · refine iff_of_true ⟨{ s with src := src }, ?_⟩ fun hmeets => hindex (hmeets hstate hrun h)
        rw [read, readLoop_foreign hstate hrun h, bind_apply, moveToBlock,
          List.getElem?_eq_none (Nat.not_lt.mp hindex)]
  | @starts block src hstate hrun h =>
      have hmeets : MeetsRead s := by
        intro _ block' src' hrun' hforeign
        obtain ⟨rfl, rfl⟩ := EStateM.Result.ok.inj (hrun.symm.trans hrun')
        exact absurd hforeign h.not_foreign
      exact iff_of_false (readLoop_starts_not_panics hstate hrun h (readLoop_not_panics n _))
        (not_not_intro hmeets)

theorem decides_panicked :
    Decides (· = .panicked) (fun s : ArchiveEntryDataReader σ => s.offsetsAndSizes ≠ [])
      MeetsRead where
  error _ := nofun
  panicked := rfl
  nonempty h := h
  read_iff _ := by rw [← panics_iff, panics_read_iff]
  read n s hs := by
    have hkept : Kept (fun _ => True) s.offsetsAndSizes s.id (stateOf (read n s)) :=
      Stable.trivial.read n s ⟨trivial, rfl, rfl⟩
    exact fun hnil => hs (hkept.offsetsAndSizes.symm.trans hnil)
  move _ _ _ hs := hs

/-- The call does not panic: no access to the list is out of its range. -/
def InRange : ReaderCall → ArchiveEntryDataReader σ → Prop
  | .read n, s => ¬ Panics (read n s)
  | .seek w, s => ¬ Panics (seek w s)

/-- A run keeps to its list if and only if all its calls meet their conditions. -/
theorem inRange_iff_allMeet (calls : List ReaderCall) (s : ArchiveEntryDataReader σ)
    (hne : s.offsetsAndSizes ≠ []) :
    AllCalls InRange calls s ↔ AllCalls (MeetsCall MeetsRead) calls s := by
  refine decides_panicked.allCalls_iff ?_ calls s hne
  intro call s hs
  cases call with
  | read n => rw [InRange, MeetsCall, panics_read_iff, not_not]
  | seek w => rw [InRange, MeetsCall, panics_iff, decides_panicked.seek_iff hs, not_not]

end Steps

section Example

open TwoEntries

/-- The end of the entry is read, and then the reader is moved back to its start. -/
theorem inRange_iff_allMeet_empty :
    AllCalls InRange [.read 1, .seek (.start 0)] emptyReader := by
  refine (inRange_iff_allMeet _ _ (List.cons_ne_nil _ _)).mpr ⟨?_, ⟨trivial, ?_⟩, trivial⟩
  · rintro - block src hrun hforeign
    have hend : ArchiveEntryBlock.fromReader emptyReader.src =
        .ok (.endOfEntry 0 hash) ⟨startA ++ endA, (startA ++ endA).length⟩ := by rfl
    obtain ⟨rfl, -⟩ := EStateM.Result.ok.inj (hend.symm.trans hrun)
    exact absurd rfl hforeign
  · rintro jump hjump m pos src hm -
    obtain rfl := Except.ok.inj hjump
    obtain rfl := Option.some.inj hm
    exact ⟨by decide, trivial⟩

/-- A reader of the first of two entries, of which only the starts are there. -/
def startsReader : ArchiveEntryDataReader (Cursor Error) :=
  ⟨⟨startA ++ startB, startA.length⟩, .ready, 0, 1, [(0, 0)]⟩

/-- The list ends before the block of the other entry is found. -/
theorem foreignBlock_panics :
    new ⟨startA ++ startB, 0⟩ [(0, 0)] = .ok startsReader ∧
      ¬ ∀ calls, AllCalls InRange calls startsReader :=
  ⟨rfl, fun hinRange => (hinRange [.read 1]).1 ⟨_, rfl⟩⟩

end Example

end ArchiveEntryDataReader

end Mla
