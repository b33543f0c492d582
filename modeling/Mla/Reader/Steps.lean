import Mla.Io.Rules
import Mla.Io.Sink
import Mla.Reader.Entry

/-!
# The calls of the reader of an entry

What one call meets, what it keeps, and when it ends in a way that is neither an answer nor
an error. The last is told for any kind `bad` of such ends: `Decides bad I P` says that of the
states in which `I` holds it is those without `P` where a read ends so, and then a seek ends
so when one of its own reads does, or when it takes the list out of its range.
-/

namespace Mla

open Io

/-- The block belongs to another entry. -/
def ArchiveEntryBlock.Foreign (id : ArchiveEntryId) : ArchiveEntryBlock → Prop
  | .entryStart _ other => other ≠ id
  | .entryContent _ other => other ≠ id
  | .endOfEntry other _ => other ≠ id
  | .endOfArchiveData => False

/-- The block that starts the entry, which a read passes over. -/
def ArchiveEntryBlock.Starts (id : ArchiveEntryId) : ArchiveEntryBlock → Prop
  | .entryStart _ other => other = id
  | _ => False

theorem ArchiveEntryBlock.Starts.not_foreign {id : ArchiveEntryId} {block : ArchiveEntryBlock}
    (h : block.Starts id) : ¬ block.Foreign id := by
  cases block with
  | entryStart name other => exact not_not_intro h
  | entryContent length other => exact h.elim
  | endOfEntry other hash => exact h.elim
  | endOfArchiveData => exact h.elim

/-- The call does not return. -/
def Exit.Stuck : Exit → Prop
  | .error _ => False
  | .panicked => True
  | .looping => True

namespace ArchiveEntryDataReader

/-! ## Where a jump settles -/

/-- There is a result, or an error. -/
def Settles {α : Type} (x : Except Exit α) : Prop :=
  ∀ exit, x = .error exit → ∃ e, exit = .error e

theorem Settles.ok {α : Type} (a : α) : Settles (.ok a) := nofun

theorem Settles.invalidInput {α : Type} :
    Settles (.error ArchiveEntryDataReader.invalidInput : Except Exit α) := by
  rintro exit h
  obtain rfl := Except.error.inj h
  exact ⟨_, rfl⟩

theorem Settles.bind {α β : Type} {x : Except Exit α} {f : α → Except Exit β} (hx : Settles x)
    (hf : ∀ a, x = .ok a → Settles (f a)) : Settles (x >>= f) := by
  cases x with
  | error exit =>
      intro exit' h
      obtain rfl := Except.error.inj h
      exact hx _ rfl
  | ok a => exact hf a rfl

theorem Settles.orError {α : Type} (o : Option α) :
    Settles (Io.orError o ArchiveEntryDataReader.invalidInput) := by
  cases o with
  | none => exact Settles.invalidInput
  | some a => exact Settles.ok a

theorem findBlock_settles (asked : ℕ) :
    ∀ (blocks : List ((ℕ × ℕ) × ℕ)) (sum : ℕ), Settles (findBlock asked sum blocks)
  | [], _ => Settles.ok _
  | _ :: blocks, _ => by
      refine (Settles.orError _).bind fun sum _ => ?_
      split
      · exact Settles.ok _
      · exact findBlock_settles asked blocks sum

theorem checkedSum_settles (sizes : List ℕ) : Settles (checkedSum sizes) := by
  have hfold : ∀ (sizes : List ℕ) (sum : ℕ), Settles (sizes.foldlM
      (fun sum size => orError (checkedAdd sum size) invalidInput) sum) := by
    intro sizes
    induction sizes with
    | nil => exact fun _ => Settles.ok _
    | cons size sizes ih =>
        intro sum
        rw [List.foldlM_cons]
        exact (Settles.orError _).bind fun sum _ => ih sum
  exact hfold sizes 0

section Steps

variable {σ : Type} [Patience] [Read Error σ] [Seek Error σ] {s s' : ArchiveEntryDataReader σ}
  {block : ArchiveEntryBlock} {src : σ} {fuel n : ℕ}

/-! ## One call -/

/-- A block of another entry: the reader goes on where the index says. -/
theorem readLoop_foreign (hstate : s.state = .ready)
    (hrun : ArchiveEntryBlock.fromReader s.src = .ok block src) (hforeign : block.Foreign s.id) :
    readLoop n (fuel + 1) s = (do moveToBlock; readLoop n fuel) { s with src := src } := by
  rw [readLoop]
  dsimp only
  rw [hstate]
  dsimp only
  rw [hrun]
  cases block with
  | entryStart name id => exact if_neg hforeign
  | entryContent length id => exact if_neg hforeign
  | endOfEntry id hash => exact if_neg hforeign
  | endOfArchiveData => exact hforeign.elim

/-- The start of the entry: the reader goes on at its next block. -/
theorem readLoop_starts (hstate : s.state = .ready)
    (hrun : ArchiveEntryBlock.fromReader s.src = .ok block src) (hstarts : block.Starts s.id) :
    readLoop n (fuel + 1) s =
      (do incrementIndex; moveToBlock; readLoop n fuel) { s with src := src } := by
  rw [readLoop]
  dsimp only
  rw [hstate]
  dsimp only
  rw [hrun]
  cases block with
  | entryStart name id => exact if_pos hstarts
  | entryContent length id => exact hstarts.elim
  | endOfEntry id hash => exact hstarts.elim
  | endOfArchiveData => exact hstarts.elim

/-- A call that returns. -/
def Answers {α : Type} (r : EStateM.Result Exit (ArchiveEntryDataReader σ) α) : Prop :=
  (∃ a s', r = .ok a s') ∨ ∃ e s', r = .error (.error e) s'

def Panics {α : Type} (r : EStateM.Result Exit (ArchiveEntryDataReader σ) α) : Prop :=
  ∃ s', r = .error .panicked s'

omit [Patience] [Read Error σ] [Seek Error σ] in
theorem Answers.not_panics {α : Type} {r : EStateM.Result Exit (ArchiveEntryDataReader σ) α}
    (h : Answers r) : ¬ Panics r := by
  rintro ⟨s', rfl⟩
  rcases h with ⟨a, s'', h⟩ | ⟨e, s'', h⟩
  · cases h
  · cases h

/-- The call ends in an exit of the kind `bad`. -/
def Fails {α : Type} (bad : Exit → Prop)
    (r : EStateM.Result Exit (ArchiveEntryDataReader σ) α) : Prop :=
  ∃ exit s', r = .error exit s' ∧ bad exit

omit [Patience] [Read Error σ] [Seek Error σ] in
theorem not_fails_ok {α : Type} {bad : Exit → Prop} {a : α} :
    ¬ Fails bad (.ok a s : EStateM.Result Exit (ArchiveEntryDataReader σ) α) := by
  rintro ⟨exit, s', h, -⟩
  cases h

omit [Patience] [Read Error σ] [Seek Error σ] in
theorem fails_error_iff {α : Type} {bad : Exit → Prop} {exit : Exit} :
    Fails bad (.error exit s : EStateM.Result Exit (ArchiveEntryDataReader σ) α) ↔ bad exit := by
  constructor
  · rintro ⟨exit', s', h, hbad⟩
    obtain ⟨rfl, -⟩ := EStateM.Result.error.inj h
    exact hbad
  · exact fun hbad => ⟨exit, s, rfl, hbad⟩

omit [Patience] [Read Error σ] [Seek Error σ] in
theorem panics_iff {α : Type} {r : EStateM.Result Exit (ArchiveEntryDataReader σ) α} :
    Panics r ↔ Fails (· = .panicked) r := by
  constructor
  · rintro ⟨s', rfl⟩
    exact ⟨_, s', rfl, rfl⟩
  · rintro ⟨exit, s', rfl, rfl⟩
    exact ⟨s', rfl⟩

omit [Patience] [Read Error σ] [Seek Error σ] in
theorem answers_iff {α : Type} {r : EStateM.Result Exit (ArchiveEntryDataReader σ) α} :
    Answers r ↔ ¬ Fails Exit.Stuck r := by
  cases r with
  | ok a s' => exact iff_of_true (Or.inl ⟨a, s', rfl⟩) not_fails_ok
  | error exit s' =>
      rw [fails_error_iff]
      cases exit with
      | error e => exact iff_of_true (Or.inr ⟨e, s', rfl⟩) fun h => h
      | panicked =>
          refine iff_of_false ?_ (not_not_intro trivial)
          rintro (⟨a, s'', h⟩ | ⟨e, s'', h⟩)
          · cases h
          · cases h
      | looping =>
          refine iff_of_false ?_ (not_not_intro trivial)
          rintro (⟨a, s'', h⟩ | ⟨e, s'', h⟩)
          · cases h
          · cases h

omit [Patience] [Seek Error σ] in
/-- A read within a content returns. -/
theorem readContent_answers (remaining n : ℕ) (s : ArchiveEntryDataReader σ) :
    Answers (readContent remaining n s) := by
  rw [readContent]
  split
  · exact Or.inr ⟨_, _, rfl⟩
  · dsimp only
    split
    · exact Or.inr ⟨_, _, rfl⟩
    · split
      · exact Or.inl ⟨_, _, rfl⟩
      · split
        · exact Or.inr ⟨_, _, rfl⟩
        · exact Or.inl ⟨_, _, rfl⟩

/-- What a read meets: it does not call itself, or it finds a block of another entry, or the
start of its own. -/
inductive Meets (s : ArchiveEntryDataReader σ) : Prop
  | settled (h : ∀ n fuel, Answers (readLoop n (fuel + 1) s)) : Meets s
  | foreign {block : ArchiveEntryBlock} {src : σ} (hstate : s.state = .ready)
      (hrun : ArchiveEntryBlock.fromReader s.src = .ok block src) (h : block.Foreign s.id) : Meets s
  | starts {block : ArchiveEntryBlock} {src : σ} (hstate : s.state = .ready)
      (hrun : ArchiveEntryBlock.fromReader s.src = .ok block src) (h : block.Starts s.id) : Meets s

theorem meets (s : ArchiveEntryDataReader σ) : Meets s := by
  cases hstate : s.state with
  | inEntryContent remaining =>
      refine .settled fun n fuel => ?_
      rw [readLoop]
      dsimp only
      rw [hstate]
      exact readContent_answers remaining n s
  | finish =>
      refine .settled fun n fuel => ?_
      rw [readLoop]
      dsimp only
      rw [hstate]
      exact Or.inl ⟨_, _, rfl⟩
  | ready =>
      cases hrun : (ArchiveEntryBlock.fromReader s.src : EStateM.Result Error σ _) with
      | error e src =>
          refine .settled fun n fuel => ?_
          rw [readLoop]
          dsimp only
          rw [hstate]
          dsimp only
          rw [hrun]
          exact Or.inr ⟨_, _, rfl⟩
      | ok block src =>
          cases block with
          | entryStart name id =>
              by_cases hid : id = s.id
              · exact .starts hstate hrun hid
              · exact .foreign hstate hrun hid
          | entryContent length id =>
              by_cases hid : id = s.id
              · refine .settled fun n fuel => ?_
                rw [readLoop]
                dsimp only
                rw [hstate]
                dsimp only
                rw [hrun]
                dsimp only
                rw [if_pos hid]
                exact readContent_answers length n _
              · exact .foreign hstate hrun hid
          | endOfEntry id hash =>
              by_cases hid : id = s.id
              · refine .settled fun n fuel => ?_
                rw [readLoop]
                dsimp only
                rw [hstate]
                dsimp only
                rw [hrun]
                dsimp only
                rw [if_pos hid]
                exact Or.inl ⟨_, _, rfl⟩
              · exact .foreign hstate hrun hid
          | endOfArchiveData =>
              refine .settled fun n fuel => ?_
              rw [readLoop]
              dsimp only
              rw [hstate]
              dsimp only
              rw [hrun]
              exact Or.inr ⟨_, _, rfl⟩

omit [Patience] [Read Error σ] [Seek Error σ] in
theorem incrementIndex_cases (s : ArchiveEntryDataReader σ) :
    (s.currentOffsetsAndSizesIndex + 1 < s.offsetsAndSizes.length ∧
      s.currentOffsetsAndSizesIndex + 1 < u64Size ∧ incrementIndex s =
      .ok () { s with currentOffsetsAndSizesIndex := s.currentOffsetsAndSizesIndex + 1 }) ∨
    ((s.offsetsAndSizes.length ≤ s.currentOffsetsAndSizesIndex + 1 ∨
      u64Size ≤ s.currentOffsetsAndSizesIndex + 1) ∧
      ∃ e s', incrementIndex s = .error (.error e) s') := by
  rw [incrementIndex]
  by_cases hword : s.currentOffsetsAndSizesIndex + 1 < u64Size
  · rw [checkedAdd_of_lt hword]
    dsimp only
    by_cases hlen : s.offsetsAndSizes.length ≤ s.currentOffsetsAndSizesIndex + 1
    · rw [if_pos hlen]
      exact Or.inr ⟨Or.inl hlen, _, _, rfl⟩
    · rw [if_neg hlen]
      exact Or.inl ⟨by omega, hword, rfl⟩
  · rw [checkedAdd, if_neg hword]
    exact Or.inr ⟨Or.inr (by omega), _, _, rfl⟩

omit [Patience] [Read Error σ] in
/-- The move to a block of the list, and what follows. -/
theorem moveToBlock_bind {α : Type} {P : EStateM.Result Exit (ArchiveEntryDataReader σ) α → Prop}
    {x : EStateM Exit (ArchiveEntryDataReader σ) α}
    (h : s.currentOffsetsAndSizesIndex < s.offsetsAndSizes.length)
    (hok : ∀ {pos src}, Seek.seek (.start s.offsetsAndSizes[s.currentOffsetsAndSizesIndex].1) s.src =
      .ok pos src → P (x { s with src := src }))
    (herror : ∀ {e src}, Seek.seek (.start s.offsetsAndSizes[s.currentOffsetsAndSizesIndex].1) s.src =
      .error e src → P (.error (.error (.other (.ioError e))) { s with src := src })) :
    P ((do moveToBlock; x) s) := by
  rw [bind_apply, moveToBlock, List.getElem?_eq_getElem h]
  dsimp only
  cases hseek : Seek.seek (SeekFrom.start s.offsetsAndSizes[s.currentOffsetsAndSizesIndex].1) s.src with
  | ok pos src => exact hok hseek
  | error e src => exact herror hseek

/-! ## What a call keeps -/

/-- Reading a block, reading in a content and moving keep `J`. -/
structure Stable (J : σ → Prop) : Prop where
  block : Preserves J (ArchiveEntryBlock.fromReader : EStateM Error σ ArchiveEntryBlock)
  content : ∀ {src} (n limit : ℕ), J src → J (stateOf (Read.read n (Take.new src limit))).inner
  move : ∀ offset : ℕ, Preserves J (Seek.seek (.start offset) : Op Error σ ℕ)

theorem Stable.trivial : Stable fun _ : σ => True where
  block _ _ := True.intro
  content _ _ _ := True.intro
  move _ _ _ := True.intro

/-- What a call keeps: the list, the id of the entry, and what holds of the source. -/
structure Kept (J : σ → Prop) (offsetsAndSizes : List (ℕ × ℕ)) (id : ArchiveEntryId)
    (s : ArchiveEntryDataReader σ) : Prop where
  src : J s.src
  offsetsAndSizes : s.offsetsAndSizes = offsetsAndSizes
  id : s.id = id

section Kept

variable {J : σ → Prop} {list : List (ℕ × ℕ)} {id : ArchiveEntryId}

omit [Patience] [Seek Error σ] in
theorem Stable.readContent [Patience] [Seek Error σ] (h : Stable J) (remaining n : ℕ) :
    Preserves (Kept J list id) (readContent remaining n) := by
  intro s hs
  have hsrc := h.content n remaining hs.src
  rw [ArchiveEntryDataReader.readContent]
  split
  · rename_i hrun
    rw [hrun] at hsrc
    exact ⟨hsrc, hs.2, hs.3⟩
  · rename_i hrun
    rw [hrun] at hsrc
    dsimp only
    split
    · exact ⟨hsrc, hs.2, hs.3⟩
    · split
      · exact ⟨hsrc, hs.2, hs.3⟩
      · split <;> exact ⟨hsrc, hs.2, hs.3⟩

theorem Stable.moveToBlock (h : Stable J) : Preserves (Kept J list id) moveToBlock := by
  intro s hs
  rw [ArchiveEntryDataReader.moveToBlock]
  split
  · exact hs
  · rename_i p _
    have hsrc := h.move p.1 s.src hs.src
    split
    · rename_i hrun
      rw [hrun] at hsrc
      exact ⟨hsrc, hs.2, hs.3⟩
    · rename_i hrun
      rw [hrun] at hsrc
      exact ⟨hsrc, hs.2, hs.3⟩

omit [Patience] [Read Error σ] [Seek Error σ] in
theorem incrementIndex_kept : Preserves (Kept J list id) (incrementIndex (σ := σ)) := by
  intro s hs
  rw [incrementIndex]
  split
  · exact hs
  · dsimp only
    split <;> exact ⟨hs.1, hs.2, hs.3⟩

theorem Stable.readLoop (h : Stable J) (n : ℕ) :
    ∀ fuel : ℕ, Preserves (Kept J list id) (readLoop n fuel) := by
  intro fuel
  induction fuel with
  | zero => exact fun s hs => hs
  | succ fuel ih =>
      intro s hs
      have hmove := h.moveToBlock.bind fun _ : Unit => ih
      have hsrc := h.block s.src hs.src
      rw [ArchiveEntryDataReader.readLoop]
      dsimp only
      split
      · split
        · rename_i hrun
          rw [hrun] at hsrc
          exact ⟨hsrc, hs.2, hs.3⟩
        · rename_i hrun
          rw [hrun] at hsrc
          have hs' : Kept J list id { s with src := _ } := ⟨hsrc, hs.2, hs.3⟩
          split
          · split
            · exact h.readContent _ n _ hs'
            · exact hmove _ hs'
          · split
            · exact ⟨hsrc, hs.2, hs.3⟩
            · exact hmove _ hs'
          · split
            · exact incrementIndex_kept.bind (fun _ => hmove) _ hs'
            · exact hmove _ hs'
          · exact hs'
      · exact h.readContent _ n s hs
      · exact hs

theorem Stable.read (h : Stable J) (n : ℕ) : Preserves (Kept J list id) (read n) :=
  fun s hs => h.readLoop n _ s hs

end Kept

/-! ## `read_exact` -/

theorem readExactLoop_succ (s : ArchiveEntryDataReader σ) :
    readExactLoop (fuel + 1) (n + 1) s =
      match read (n + 1) s with
      | .ok bs s' =>
          if bs.isEmpty then .error (.error (.kind .unexpectedEof)) s'
          else readExactLoop fuel (n + 1 - bs.length) s'
      | .error (.error e) s' =>
          if e.isInterrupted then readExactLoop fuel (n + 1) s' else .error (.error e) s'
      | .error exit s' => .error exit s' := (rfl)

/-- The reads of `read_exact` all satisfy `P`. -/
def AllReads (P : ArchiveEntryDataReader σ → Prop) : ℕ → ℕ → ArchiveEntryDataReader σ → Prop
  | _, 0, _ => True
  | 0, _ + 1, _ => True
  | fuel + 1, n + 1, s => P s ∧
      match read (n + 1) s with
      | .ok bs s' => bs.isEmpty = false → AllReads P fuel (n + 1 - bs.length) s'
      | .error (.error e) s' => e.isInterrupted = true → AllReads P fuel (n + 1) s'
      | .error _ _ => True

/-- Of the states with `I`, a read ends in an exit of the kind `bad` in those without `P`. -/
structure Decides (bad : Exit → Prop) (I P : ArchiveEntryDataReader σ → Prop) : Prop where
  error : ∀ e, ¬ bad (.error e)
  panicked : bad .panicked
  nonempty : ∀ {s}, I s → s.offsetsAndSizes ≠ []
  read_iff : ∀ {n s}, I s → (Fails bad (read n s) ↔ ¬ P s)
  read : ∀ n, Preserves I (read n)
  move : ∀ {s} (offset : ℕ) state index, I s →
    I { s with src := stateOf (Seek.seek (.start offset) s.src), state := state, currentOffsetsAndSizesIndex := index }

section Decides

variable {bad : Exit → Prop} {I P : ArchiveEntryDataReader σ → Prop}

theorem Decides.readExactLoop_iff (h : Decides bad I P) :
    ∀ (fuel n : ℕ) (s : ArchiveEntryDataReader σ), I s →
      (Fails bad (readExactLoop fuel n s) ↔ ¬ AllReads P fuel n s) := by
  intro fuel
  induction fuel with
  | zero =>
      intro n s _
      cases n with
      | zero => exact iff_of_false not_fails_ok (not_not_intro trivial)
      | succ n => exact iff_of_false (fails_error_iff.not.mpr (h.error _)) (not_not_intro trivial)
  | succ fuel ih =>
      intro n s hs
      cases n with
      | zero => exact iff_of_false not_fails_ok (not_not_intro trivial)
      | succ n =>
          have hread := h.read_iff (n := n + 1) hs
          have hkept := h.read (n + 1) s hs
          rw [AllReads, readExactLoop_succ]
          cases hrun : ArchiveEntryDataReader.read (n + 1) s with
          | ok bs s' =>
              rw [hrun] at hread
              rw [hrun, stateOf_ok] at hkept
              dsimp only
              rw [and_iff_right (not_not.mp (mt hread.mpr not_fails_ok))]
              cases hempty : bs.isEmpty with
              | true =>
                  rw [if_pos rfl]
                  exact iff_of_false (fails_error_iff.not.mpr (h.error _)) (not_not_intro nofun)
              | false =>
                  rw [if_neg Bool.false_ne_true, ih _ _ hkept]
                  exact not_congr ⟨fun h _ => h, fun h => h rfl⟩
          | error exit s' =>
              rw [hrun, fails_error_iff] at hread
              rw [hrun, stateOf_error] at hkept
              cases exit with
              | error e =>
                  dsimp only
                  rw [and_iff_right (not_not.mp (mt hread.mpr (h.error e)))]
                  cases hint : e.isInterrupted with
                  | false =>
                      rw [if_neg Bool.false_ne_true]
                      exact iff_of_false (fails_error_iff.not.mpr (h.error e)) (not_not_intro nofun)
                  | true =>
                      rw [if_pos rfl, ih _ _ hkept]
                      exact not_congr ⟨fun h _ => h, fun h => h rfl⟩
              | panicked =>
                  dsimp only
                  rw [fails_error_iff, hread, and_true]
              | looping =>
                  dsimp only
                  rw [fails_error_iff, hread, and_true]

end Decides

/-! ## Seeking -/

/-- The condition on the state that a seek finds, for the slices of the list. -/
def MeetsJump (s : ArchiveEntryDataReader σ) : SeekFrom → Prop
  | .current _ =>
      match s.state with
      | .inEntryContent _ => s.currentOffsetsAndSizesIndex < s.offsetsAndSizes.length
      | .ready => s.currentOffsetsAndSizesIndex ≤ s.offsetsAndSizes.length
      | .finish => True
  | _ => True

omit [Patience] [Read Error σ] [Seek Error σ] in
theorem jumpStart_settles (s : ArchiveEntryDataReader σ) (asked : ℕ) :
    Settles (s.jumpStart asked) := by
  refine (findBlock_settles asked _ 0).bind ?_
  rintro ⟨sum, found⟩ -
  dsimp only
  split
  · refine (Settles.orError _).bind fun lastIndex hlast => ?_
    obtain ⟨hle, rfl⟩ := checkedSub_eq_some.mp (orError_eq_ok.mp hlast)
    rw [List.getElem?_eq_getElem (by omega)]
    exact Settles.ok _
  · rcases found with _ | ⟨⟨offset, size⟩, index⟩
    · exact Settles.invalidInput
    · exact Settles.ok _

omit [Patience] [Read Error σ] [Seek Error σ] in
theorem jumpEnd_settles (hne : s.offsetsAndSizes ≠ []) (asked : ℤ) :
    Settles (s.jumpEnd asked) := by
  refine (Settles.orError _).bind fun neg _ => ?_
  refine (Settles.orError _).bind fun offsetFromEnd _ => ?_
  refine (findBlock_settles _ _ 0).bind ?_
  rintro ⟨sum, found⟩ -
  dsimp only
  split
  · rw [List.getElem?_eq_getElem (List.length_pos_iff.mpr hne)]
    exact Settles.ok _
  · rcases found with _ | ⟨⟨offset, size⟩, index⟩
    · exact Settles.invalidInput
    · exact Settles.ok _

omit [Patience] [Read Error σ] [Seek Error σ] in
/-- A seek takes a slice out of the range of the list when its condition is not met. -/
theorem jump_cases (hne : s.offsetsAndSizes ≠ []) (w : SeekFrom) :
    MeetsJump s w ∧ Settles (s.jump w) ∨ ¬ MeetsJump s w ∧ s.jump w = .error .panicked := by
  cases w with
  | start asked => exact Or.inl ⟨trivial, jumpStart_settles s asked⟩
  | fromEnd asked => exact Or.inl ⟨trivial, jumpEnd_settles hne asked⟩
  | current asked =>
      rw [jump, jumpCurrent, MeetsJump]
      cases s.state with
      | inEntryContent remaining =>
          dsimp only
          by_cases hindex : s.offsetsAndSizes.length ≤ s.currentOffsetsAndSizesIndex
          · rw [if_pos hindex]
            exact Or.inr ⟨by omega, rfl⟩
          · rw [if_neg hindex]
            refine Or.inl ⟨by omega, ?_⟩
            exact (checkedSum_settles _).bind fun _ _ => (Settles.orError _).bind fun _ _ =>
              (Settles.orError _).bind fun _ _ => jumpStart_settles s _
      | ready =>
          dsimp only
          by_cases hindex : s.offsetsAndSizes.length < s.currentOffsetsAndSizesIndex
          · rw [if_pos hindex]
            exact Or.inr ⟨by omega, rfl⟩
          · rw [if_neg hindex]
            refine Or.inl ⟨by omega, ?_⟩
            exact (Settles.orError _).bind fun _ _ => jumpStart_settles s _
      | finish => exact Or.inl ⟨trivial, jumpEnd_settles hne asked⟩

/-- The condition on the state that a move finds: the place is less than `isize::MAX` bytes
behind the start of its block, and so are the reads up to it. -/
def MeetsMove (P : ArchiveEntryDataReader σ → Prop) (s : ArchiveEntryDataReader σ)
    (jump : Jump) : Prop :=
  ∀ m pos src, jump.fromBlockStart = some m → Seek.seek (.start jump.offset) s.src = .ok pos src →
    m < i64Size ∧ AllReads P (m + Patience.retries) m
      { s with src := src, state := .ready, currentOffsetsAndSizesIndex := jump.index }

/-- The condition on the state that a seek finds. -/
def MeetsSeek (P : ArchiveEntryDataReader σ → Prop) (s : ArchiveEntryDataReader σ)
    (w : SeekFrom) : Prop :=
  MeetsJump s w ∧ ∀ jump, s.jump w = .ok jump → MeetsMove P s jump

section Decides

variable {bad : Exit → Prop} {I P : ArchiveEntryDataReader σ → Prop}

theorem Decides.moveTo_iff (h : Decides bad I P) {jump : Jump} (hs : I s) :
    Fails bad (moveTo jump s) ↔ ¬ MeetsMove P s jump := by
  have hmoved := h.move jump.offset .ready jump.index hs
  rw [moveTo, MeetsMove]
  cases hseek : Seek.seek (SeekFrom.start jump.offset) s.src with
  | error e src =>
      exact iff_of_false (fails_error_iff.not.mpr (h.error _)) (not_not_intro nofun)
  | ok pos src =>
      rw [hseek, stateOf_ok] at hmoved
      dsimp only
      cases hstart : jump.fromBlockStart with
      | none => exact iff_of_false (fails_error_iff.not.mpr (h.error _)) (not_not_intro nofun)
      | some m =>
          have hiff : (∀ m' pos' src', some m = some m' →
              (.ok pos src : EStateM.Result (IoError Error) σ ℕ) = .ok pos' src' →
              m' < i64Size ∧ AllReads P (m' + Patience.retries) m' { s with
                src := src', state := .ready, currentOffsetsAndSizesIndex := jump.index }) ↔
              m < i64Size ∧ AllReads P (m + Patience.retries) m { s with
                src := src, state := .ready, currentOffsetsAndSizesIndex := jump.index } := by
            constructor
            · exact fun h => h m pos src rfl rfl
            · rintro h m' pos' src' hm hsrc
              obtain rfl := Option.some.inj hm
              obtain ⟨-, rfl⟩ := EStateM.Result.ok.inj hsrc
              exact h
          rw [hiff]
          dsimp only
          by_cases hm : i64Size ≤ m
          · rw [if_pos hm, fails_error_iff]
            exact iff_of_true h.panicked fun h => absurd h.1 (Nat.not_lt.mpr hm)
          · rw [if_neg hm, and_iff_right (Nat.not_le.mp hm), ← h.readExactLoop_iff _ _ _ hmoved]
            cases hrun : readExactLoop (m + Patience.retries) m
                { s with src := src, state := .ready, currentOffsetsAndSizesIndex := jump.index } with
            | ok u s' => exact iff_of_false not_fails_ok not_fails_ok
            | error exit s' =>
                dsimp only
                rw [fails_error_iff, fails_error_iff]

theorem Decides.seek_iff (h : Decides bad I P) (hs : I s) (w : SeekFrom) :
    Fails bad (seek w s) ↔ ¬ MeetsSeek P s w := by
  rw [seek, MeetsSeek]
  rcases jump_cases (h.nonempty hs) w with ⟨hmeets, hsettles⟩ | ⟨hmeets, hjump⟩
  · cases hrun : s.jump w with
    | ok jump =>
        dsimp only
        rw [h.moveTo_iff hs, and_iff_right hmeets]
        exact not_congr ⟨fun h jump' hjump' => by
          obtain rfl := Except.ok.inj hjump'
          exact h, fun h => h jump rfl⟩
    | error exit =>
        obtain ⟨e, rfl⟩ := hsettles exit hrun
        exact iff_of_false (fails_error_iff.not.mpr (h.error e)) (not_not_intro ⟨hmeets, nofun⟩)
  · rw [hjump]
    exact iff_of_true (fails_error_iff.mpr h.panicked) fun h => hmeets h.1

theorem Decides.readExactLoop (h : Decides bad I P) :
    ∀ fuel n : ℕ, Preserves I (readExactLoop fuel n) := by
  intro fuel
  induction fuel with
  | zero =>
      intro n s hs
      cases n <;> exact hs
  | succ fuel ih =>
      intro n s hs
      cases n with
      | zero => exact hs
      | succ n =>
          have hkept := h.read (n + 1) s hs
          rw [readExactLoop_succ]
          cases hrun : ArchiveEntryDataReader.read (n + 1) s with
          | ok bs s' =>
              rw [hrun] at hkept
              dsimp only
              split
              · exact hkept
              · exact ih _ s' hkept
          | error exit s' =>
              rw [hrun] at hkept
              cases exit with
              | error e =>
                  dsimp only
                  split
                  · exact ih _ s' hkept
                  · exact hkept
              | panicked => exact hkept
              | looping => exact hkept

theorem Decides.seek (h : Decides bad I P) (w : SeekFrom) : Preserves I (seek w) := by
  intro s hs
  rw [ArchiveEntryDataReader.seek]
  split
  · rename_i jump _
    have hmoved := h.move jump.offset .ready jump.index hs
    rw [moveTo]
    split
    · rename_i hseek
      have hsame := h.move jump.offset s.state s.currentOffsetsAndSizesIndex hs
      rw [hseek] at hsame
      exact hsame
    · rename_i hseek
      rw [hseek, stateOf_ok] at hmoved
      dsimp only
      split
      · exact hmoved
      · rename_i m _
        split
        · exact hmoved
        · have hrest := h.readExactLoop (m + Patience.retries) m _ hmoved
          split
          · rename_i hread
            rw [hread] at hrest
            exact hrest
          · rename_i hread
            rw [hread] at hrest
            exact hrest
  · exact hs

end Decides

/-! ## Runs -/

/-- What a call does to the reader. -/
def after : ReaderCall → ArchiveEntryDataReader σ → ArchiveEntryDataReader σ
  | .read n, s => stateOf (read n s)
  | .seek w, s => stateOf (seek w s)

/-- Every call of the run satisfies `Q` in the state that it finds. -/
def AllCalls (Q : ReaderCall → ArchiveEntryDataReader σ → Prop) :
    List ReaderCall → ArchiveEntryDataReader σ → Prop
  | [], _ => True
  | call :: calls, s => Q call s ∧ AllCalls Q calls (after call s)

/-- The condition on the state that a call finds. -/
def MeetsCall (P : ArchiveEntryDataReader σ → Prop) : ReaderCall → ArchiveEntryDataReader σ → Prop
  | .read _, s => P s
  | .seek w, s => MeetsSeek P s w

theorem Decides.after {bad : Exit → Prop} {I P : ArchiveEntryDataReader σ → Prop}
    (h : Decides bad I P) (call : ReaderCall) (hs : I s) : I (after call s) := by
  cases call with
  | read n => exact h.read n s hs
  | seek w => exact h.seek w s hs

/-- What is decided of one call is decided of a run. -/
theorem Decides.allCalls_iff {bad : Exit → Prop} {I P : ArchiveEntryDataReader σ → Prop}
    (h : Decides bad I P) {Q : ReaderCall → ArchiveEntryDataReader σ → Prop}
    (hQ : ∀ {call s}, I s → (Q call s ↔ MeetsCall P call s)) (calls : List ReaderCall) :
    ∀ s, I s → (AllCalls Q calls s ↔ AllCalls (MeetsCall P) calls s) := by
  induction calls with
  | nil => exact fun _ _ => Iff.rfl
  | cons call calls ih =>
      intro s hs
      rw [AllCalls, AllCalls, hQ hs, ih _ (h.after call hs)]

end Steps

/-! ## The blocks of two entries -/

namespace TwoEntries

scoped instance patience : Patience where
  retries := 0

def nameA : EntryName := ⟨[97], by decide, by decide⟩

def nameB : EntryName := ⟨[98], by decide, by decide⟩

def hash : Sha256Hash := Vector.replicate 32 0

def startA : Bytes := (Block.entryStart 0 nameA none).encode

def startB : Bytes := (Block.entryStart 1 nameB none).encode

def endA : Bytes := (Block.endOfEntry 0 none hash).encode

/-- A reader of an empty entry, behind the start of the entry. -/
def emptyReader : ArchiveEntryDataReader (Cursor Error) :=
  ⟨⟨startA ++ endA, startA.length⟩, .ready, 0, 1, [(0, 0)]⟩

end TwoEntries

end ArchiveEntryDataReader

end Mla
