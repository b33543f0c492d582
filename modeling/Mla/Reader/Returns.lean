import Mla.Entries.Located
import Mla.Reader.Steps

/-!
# Where the reader of an entry does not return

A read moves on to the next block of the list behind the start of its entry, and to the
current block of the list behind a block of another entry. The second step does not advance
the index: where it leads to a block of another entry the read calls itself for ever.
`Escapes` says of what is left of the list that a read which follows it does return.
-/

namespace Mla

open Io

namespace ArchiveEntryDataReader

section Escapes

variable [Patience]

/-- A read that goes on at the first of these blocks returns: it is refused to go there, or the
block is not one of another entry, and where it is the start of the entry itself, the list ends
or a read that goes on at the next block returns. -/
def Escapes (S : Bytes) (Reach : ℕ → Prop) (id : ArchiveEntryId) : List (ℕ × ℕ) → Prop
  | [] => False
  | (offset, _) :: rest => Reach offset → ∀ block, blockAt S offset = some block →
      ¬ block.Foreign id ∧ (block.Starts id → rest = [] ∨ Escapes S Reach id rest)

end Escapes

section Source

variable {σ : Type} [Patience] [Read Error σ] [Seek Error σ] {S : Bytes} {At : σ → ℕ → Prop}

theorem blockAt_of_ok (h : Serves S At) {src src' : σ} {p : ℕ} {block : ArchiveEntryBlock}
    (hsrc : At src p) (hrun : ArchiveEntryBlock.fromReader src = .ok block src') :
    blockAt S p = some block ∧ ∃ q, At src' q := by
  obtain ⟨src'', q, hsrc'', hblock⟩ := Serves.fromReader_eq h hsrc
  cases hat : blockAt S p with
  | none =>
      rw [hat] at hblock
      obtain ⟨e, herror⟩ := hblock
      cases hrun.symm.trans herror
  | some block' =>
      rw [hat] at hblock
      obtain ⟨rfl, rfl⟩ := EStateM.Result.ok.inj (hrun.symm.trans hblock)
      exact ⟨rfl, q, hsrc''⟩

theorem ok_of_blockAt (h : Serves S At) {src : σ} {p : ℕ} {block : ArchiveEntryBlock}
    (hsrc : At src p) (hat : blockAt S p = some block) :
    ∃ src' q, ArchiveEntryBlock.fromReader src = .ok block src' ∧ At src' q := by
  obtain ⟨src', q, hsrc', hblock⟩ := Serves.fromReader_eq h hsrc
  rw [hat] at hblock
  exact ⟨src', q, hblock, hsrc'⟩

/-- A source that serves `S` does so after every operation of the reader. -/
theorem stable_of_serves (h : Serves S At) : Stable fun src : σ => ∃ p, At src p where
  block src := by
    rintro ⟨p, hsrc⟩
    obtain ⟨src', q, hsrc', hblock⟩ := Serves.fromReader_eq h hsrc
    cases hat : blockAt S p with
    | none =>
        rw [hat] at hblock
        obtain ⟨e, herror⟩ := hblock
        rw [herror]
        exact ⟨q, hsrc'⟩
    | some block =>
        rw [hat] at hblock
        rw [hblock]
        exact ⟨q, hsrc'⟩
  content {src} n limit := by
    rintro ⟨p, hsrc⟩
    obtain ⟨k, src', hread, -, -, -, hsrc'⟩ := h.read (n := min n limit) hsrc
    rw [Take.read_new]
    by_cases hlimit : limit = 0
    · rw [if_pos hlimit]
      exact ⟨p, hsrc⟩
    · rw [if_neg hlimit, hread]
      exact ⟨_, hsrc'⟩
  move offset src := by
    rintro ⟨p, hsrc⟩
    rcases h.seekStart (t := offset) hsrc with ⟨src', hseek, hsrc'⟩ | ⟨e, src', hseek, hsrc'⟩
    · rw [hseek]
      exact ⟨_, hsrc'⟩
    · rw [hseek]
      exact ⟨_, hsrc'⟩

end Source

section Steps

variable {σ : Type} [Patience] [Read Error σ] [Seek Error σ] {s : ArchiveEntryDataReader σ}
  {S : Bytes} {Reach : ℕ → Prop} {At : σ → ℕ → Prop} {n : ℕ}

omit [Patience] [Read Error σ] [Seek Error σ] in
theorem lt_length_of_drop_eq_cons {α : Type} {list rest : List α} {i : ℕ} {a : α}
    (hdrop : list.drop i = a :: rest) : i < list.length := by
  have hlen := congrArg List.length hdrop
  rw [List.length_drop, List.length_cons] at hlen
  omega

/-- Behind the start of the entry a read goes on at the next block of the list. -/
theorem answers_of_starts (h : Serves S At) {fuel p : ℕ} {block : ArchiveEntryBlock} {src : σ}
    (hsrc : At s.src p) (hstate : s.state = .ready)
    (hrun : ArchiveEntryBlock.fromReader s.src = .ok block src) (hstarts : block.Starts s.id)
    (hnext : s.offsetsAndSizes.drop (s.currentOffsetsAndSizesIndex + 1) = [] ∨
      ∀ q, At src q → Answers ((do moveToBlock; readLoop n fuel)
        { s with src := src, currentOffsetsAndSizesIndex := s.currentOffsetsAndSizesIndex + 1 })) :
    Answers (readLoop n (fuel + 1) s) := by
  obtain ⟨-, q, hsrc'⟩ := blockAt_of_ok h hsrc hrun
  rw [readLoop_starts hstate hrun hstarts, bind_apply]
  rcases incrementIndex_cases { s with src := src } with
    ⟨hlt, -, hincrement⟩ | ⟨-, e, s', hincrement⟩
  · rw [hincrement]
    rcases hnext with hnil | hnext
    · exact absurd hlt (Nat.not_lt.mpr (List.drop_eq_nil_iff.mp hnil))
    · exact hnext q hsrc'
  · rw [hincrement]
    exact Or.inr ⟨e, s', rfl⟩

/-- Where the list leads to a returning read, the move to its current block does. -/
theorem answers_of_escapes (h : Fixed S Reach At) {list : List (ℕ × ℕ)} :
    ∀ {s : ArchiveEntryDataReader σ} {fuel p : ℕ}, At s.src p → s.state = .ready →
      s.offsetsAndSizes.drop s.currentOffsetsAndSizesIndex = list → list.length < fuel →
      Escapes S Reach s.id list → Answers ((do moveToBlock; readLoop n fuel) s) := by
  induction list with
  | nil => exact fun _ _ _ _ hescapes => hescapes.elim
  | cons block rest ih =>
      obtain ⟨offset, size⟩ := block
      intro s fuel p hsrc hstate hdrop hfuel hescapes
      obtain ⟨fuel, rfl⟩ : ∃ m, fuel = m + 1 := ⟨fuel - 1, by omega⟩
      have hindex := lt_length_of_drop_eq_cons hdrop
      rw [List.drop_eq_getElem_cons hindex] at hdrop
      obtain ⟨hget, hrest⟩ := List.cons.inj hdrop
      refine moveToBlock_bind hindex ?_ fun _ => Or.inr ⟨_, _, rfl⟩
      rw [hget]
      intro pos src hseek
      have hreach : Reach offset := by
        by_contra haway
        obtain ⟨e, src', herror, -⟩ := h.seekAway hsrc haway
        cases hseek.symm.trans herror
      obtain ⟨src', hseek', hsrc'⟩ := h.seekTo hsrc hreach
      obtain ⟨-, rfl⟩ := EStateM.Result.ok.inj (hseek.symm.trans hseek')
      cases meets { s with src := src } with
      | settled hsettled => exact hsettled n fuel
      | foreign _ hrun hforeign =>
          obtain ⟨hat, -⟩ := blockAt_of_ok h.toServes hsrc' hrun
          exact absurd hforeign (hescapes hreach _ hat).1
      | starts _ hrun hstarts =>
          obtain ⟨hat, -⟩ := blockAt_of_ok h.toServes hsrc' hrun
          refine answers_of_starts (s := { s with src := src }) h.toServes hsrc' hstate hrun hstarts ?_
          rcases (hescapes hreach _ hat).2 hstarts with rfl | hescapes'
          · exact Or.inl hrest
          · exact Or.inr fun q hsrc'' =>
              ih hsrc'' hstate hrest (Nat.lt_of_succ_lt_succ hfuel) hescapes'

/-- From this block a read does return: behind a block of another entry it goes on at the
current block of the list, behind the start of the entry at the next one. -/
structure Goes (S : Bytes) (Reach : ℕ → Prop) (s : ArchiveEntryDataReader σ)
    (block : ArchiveEntryBlock) : Prop where
  foreign : block.Foreign s.id →
    Escapes S Reach s.id (s.offsetsAndSizes.drop s.currentOffsetsAndSizesIndex)
  starts : block.Starts s.id →
    s.offsetsAndSizes.drop (s.currentOffsetsAndSizesIndex + 1) = [] ∨
      Escapes S Reach s.id (s.offsetsAndSizes.drop (s.currentOffsetsAndSizesIndex + 1))

/-- The condition on the state that a read finds. -/
def MeetsGo (S : Bytes) (Reach : ℕ → Prop) (At : σ → ℕ → Prop)
    (s : ArchiveEntryDataReader σ) : Prop :=
  s.state = .ready → ∀ p block, At s.src p → blockAt S p = some block → Goes S Reach s block

/-- As many calls as the list has blocks, and two, are enough. -/
theorem answers_of_meetsGo (h : Fixed S Reach At) {fuel p : ℕ} (hsrc : At s.src p)
    (hfuel : s.offsetsAndSizes.length + 2 ≤ fuel) (hmeets : MeetsGo S Reach At s) :
    Answers (readLoop n fuel s) := by
  obtain ⟨fuel, rfl⟩ : ∃ m, fuel = m + 1 := ⟨fuel - 1, by omega⟩
  have hdrop : ∀ i, (s.offsetsAndSizes.drop i).length < fuel := by
    intro i
    rw [List.length_drop]
    omega
  cases meets s with
  | settled hsettled => exact hsettled n fuel
  | foreign hstate hrun hforeign =>
      obtain ⟨hat, q, hsrc'⟩ := blockAt_of_ok h.toServes hsrc hrun
      rw [readLoop_foreign hstate hrun hforeign]
      exact answers_of_escapes h hsrc' hstate rfl (hdrop _) ((hmeets hstate p _ hsrc hat).foreign hforeign)
  | starts hstate hrun hstarts =>
      obtain ⟨hat, -⟩ := blockAt_of_ok h.toServes hsrc hrun
      refine answers_of_starts h.toServes hsrc hstate hrun hstarts ?_
      rcases (hmeets hstate p _ hsrc hat).starts hstarts with hnil | hescapes
      · exact Or.inl hnil
      · exact Or.inr fun q hsrc' => answers_of_escapes h hsrc' hstate rfl (hdrop _) hescapes

/-- Where the list does not lead to a returning read, the move to its current block panics or
comes to a block from which a read does not return. -/
theorem moveToBlock_of_not_escapes (h : Fixed S Reach At) {p : ℕ}
    {x : EStateM Exit (ArchiveEntryDataReader σ) Bytes} (hsrc : At s.src p)
    (hescapes : ¬ Escapes S Reach s.id (s.offsetsAndSizes.drop s.currentOffsetsAndSizesIndex)) :
    Panics ((do moveToBlock; x) s) ∨ ∃ src offset block, At src offset ∧
      blockAt S offset = some block ∧ ¬ Goes S Reach { s with src := src } block ∧
      (do moveToBlock; x) s = x { s with src := src } := by
  by_cases hindex : s.currentOffsetsAndSizesIndex < s.offsetsAndSizes.length
  · right
    have hescapes' := hescapes
    rw [List.drop_eq_getElem_cons hindex, Escapes] at hescapes'
    obtain ⟨hreach, hescapes'⟩ := Classical.not_imp.mp hescapes'
    obtain ⟨block, hescapes'⟩ := Classical.not_forall.mp hescapes'
    obtain ⟨hat, hblock⟩ := Classical.not_imp.mp hescapes'
    obtain ⟨src, hseek, hsrc'⟩ := h.seekTo hsrc hreach
    refine ⟨src, _, block, hsrc', hat, ?_, ?_⟩
    · exact fun hgoes => hblock ⟨fun hforeign => hescapes (hgoes.foreign hforeign), hgoes.starts⟩
    · rw [bind_apply, moveToBlock, List.getElem?_eq_getElem hindex]
      dsimp only
      rw [hseek]
  · left
    rw [bind_apply, moveToBlock, List.getElem?_eq_none (Nat.not_lt.mp hindex)]
    exact ⟨s, rfl⟩

/-- From a block that does not lead to a returning read, no number of calls is enough. -/
theorem not_answers_of_not_goes (h : Fixed S Reach At) :
    ∀ {fuel : ℕ} {s : ArchiveEntryDataReader σ} {p : ℕ} {block : ArchiveEntryBlock}, At s.src p →
      s.state = .ready → s.offsetsAndSizes.length ≤ u64Size → blockAt S p = some block →
      ¬ Goes S Reach s block → ¬ Answers (readLoop n fuel s) := by
  intro fuel
  induction fuel with
  | zero =>
      rintro s p block - - - - - (⟨bs, s', hrun⟩ | ⟨e, s', hrun⟩)
      · cases hrun
      · cases hrun
  | succ fuel ih =>
      intro s p block hsrc hstate hlen hat hgoes
      obtain ⟨src, q, hrun, hsrc'⟩ := ok_of_blockAt h.toServes hsrc hat
      -- Behind the move it is the same question, with one call less.
      have hmove : ∀ i, ¬ Escapes S Reach s.id (s.offsetsAndSizes.drop i) →
          ¬ Answers ((do moveToBlock; readLoop n fuel)
            { s with src := src, currentOffsetsAndSizesIndex := i }) := by
        intro i hescapes
        rcases moveToBlock_of_not_escapes (s := { s with src := src, currentOffsetsAndSizesIndex := i })
          (x := readLoop n fuel) h hsrc' hescapes with
          hpanics | ⟨src', offset, block', hsrc'', hat', hgoes', heq⟩
        · exact fun hanswers => hanswers.not_panics hpanics
        · rw [heq]
          exact ih hsrc'' hstate hlen hat' hgoes'
      by_cases hforeign : block.Foreign s.id
      · rw [readLoop_foreign hstate hrun hforeign]
        refine hmove s.currentOffsetsAndSizesIndex fun hescapes => hgoes ⟨fun _ => hescapes, ?_⟩
        exact fun hstarts => absurd hforeign hstarts.not_foreign
      · by_cases hstarts : block.Starts s.id
        · have hrest := fun hescapes => hgoes ⟨fun h => absurd h hforeign, fun _ => hescapes⟩
          obtain ⟨hne, hescapes⟩ := not_or.mp hrest
          rw [List.drop_eq_nil_iff, Nat.not_le] at hne
          rw [readLoop_starts hstate hrun hstarts, bind_apply]
          rcases incrementIndex_cases { s with src := src } with
            ⟨-, -, hincrement⟩ | ⟨hend, -⟩
          · rw [hincrement]
            exact hmove _ hescapes
          · dsimp only at hend
            omega
        · exact absurd ⟨fun h => absurd h hforeign, fun h => absurd h hstarts⟩ hgoes

/-! ## Runs -/

/-- The reader is over a source that serves the archive, and has a list of blocks. -/
structure Served (At : σ → ℕ → Prop) (s : ArchiveEntryDataReader σ) : Prop where
  src : ∃ p, At s.src p
  nonempty : s.offsetsAndSizes ≠ []
  length_le : s.offsetsAndSizes.length ≤ u64Size

omit [Patience] [Read Error σ] [Seek Error σ] in
theorem Served.of_kept {J : σ → Prop} {s' : ArchiveEntryDataReader σ} (hs : Served At s)
    (hkept : Kept J s.offsetsAndSizes s.id s') (hJ : ∀ src, J src → ∃ p, At src p) :
    Served At s' where
  src := hJ _ hkept.src
  nonempty := hkept.offsetsAndSizes ▸ hs.nonempty
  length_le := hkept.offsetsAndSizes ▸ hs.length_le

theorem answers_read_iff (h : Fixed S Reach At) (hs : Served At s) :
    Answers (read n s) ↔ MeetsGo S Reach At s := by
  obtain ⟨p, hsrc⟩ := hs.src
  constructor
  · intro hanswers hstate q block hq hat
    by_contra hgoes
    exact not_answers_of_not_goes h hq hstate hs.length_le hat hgoes hanswers
  · exact answers_of_meetsGo h hsrc (Nat.le_succ _)

theorem decides_stuck (h : Fixed S Reach At) :
    Decides Exit.Stuck (Served At) (MeetsGo S Reach At) where
  error _ h := h
  panicked := trivial
  nonempty hs := hs.nonempty
  read_iff {n s} hs := by rw [← not_iff_not, ← answers_iff, not_not, answers_read_iff h hs]
  read n s hs := hs.of_kept ((stable_of_serves h.toServes).read n s ⟨hs.src, rfl, rfl⟩) fun _ h => h
  move offset _ _ hs := ⟨(stable_of_serves h.toServes).move offset _ hs.src, hs.nonempty, hs.length_le⟩

/-- The call ends after finitely many calls of itself, with an answer or an error. -/
def Returns : ReaderCall → ArchiveEntryDataReader σ → Prop
  | .read n, s => ∃ fuel, Answers (readLoop n fuel s)
  | .seek w, s => Answers (seek w s)

/-- All calls of a run return if and only if they all meet their conditions. -/
theorem returns_iff_allMeet (h : Fixed S Reach At) (calls : List ReaderCall)
    (s : ArchiveEntryDataReader σ) (hs : Served At s) :
    AllCalls Returns calls s ↔ AllCalls (MeetsCall (MeetsGo S Reach At)) calls s := by
  refine (decides_stuck h).allCalls_iff ?_ calls s hs
  intro call s hs
  cases call with
  | read n =>
      rw [Returns, MeetsCall]
      constructor
      · rintro ⟨fuel, hanswers⟩ hstate p block hsrc hat
        by_contra hgoes
        exact not_answers_of_not_goes h hsrc hstate hs.length_le hat hgoes hanswers
      · exact fun hmeets => ⟨_, (answers_read_iff h hs).mpr hmeets⟩
  | seek w => rw [Returns, MeetsCall, answers_iff, (decides_stuck h).seek_iff hs w, not_not]

end Steps

section Example

open TwoEntries

/-- The end of the entry is read, and then the reader is moved back to its start. -/
theorem returns_iff_allMeet_empty : AllCalls Returns [.read 1, .seek (.start 0)] emptyReader := by
  refine (returns_iff_allMeet (Cursor.fixed (startA ++ endA)) _ emptyReader
    ⟨⟨_, rfl, rfl⟩, List.cons_ne_nil _ _, by decide⟩).mpr ⟨?_, ⟨trivial, ?_⟩, trivial⟩
  · rintro - p block ⟨-, rfl⟩ hat
    have hend : blockAt (startA ++ endA) startA.length = some (.endOfEntry 0 hash) := by rfl
    obtain rfl := Option.some.inj (hend.symm.trans hat)
    exact ⟨fun hforeign => absurd rfl hforeign, fun hstarts => hstarts.elim⟩
  · rintro jump hjump m pos src hm -
    obtain rfl := Except.ok.inj hjump
    obtain rfl := Option.some.inj hm
    exact ⟨by decide, trivial⟩

/-- The list leads the reader of the first entry to the start of the second. -/
def loopReader : ArchiveEntryDataReader (Cursor Error) :=
  ⟨⟨startA ++ startB, startA.length⟩, .ready, 0, 1, [(0, 0), (startA.length, 0)]⟩

/-- A read goes on from where it was, again and again. -/
theorem foreignBlock_loops :
    new ⟨startA ++ startB, 0⟩ [(0, 0), (startA.length, 0)] = .ok loopReader ∧
      ¬ ∀ calls, AllCalls Returns calls loopReader := by
  refine ⟨rfl, fun hreturns => ?_⟩
  obtain ⟨fuel, hanswers⟩ := (hreturns [.read 1]).1
  have hloops : ∀ fuel, ¬ Answers (readLoop 1 fuel loopReader) := by
    intro fuel
    induction fuel with
    | zero =>
        rintro (⟨bs, s', hrun⟩ | ⟨e, s', hrun⟩)
        · cases hrun
        · cases hrun
    | succ fuel ih => exact ih
  exact hloops fuel hanswers

end Example

end ArchiveEntryDataReader

end Mla
