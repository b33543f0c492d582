import Mla.Error
import Mla.Io.Cursor
import Mla.Io.Slice
import Mla.Io.Take
import Mla.Io.Word

/-!
# The streams of a compressed layer

`BrotliStreamReader` reads a succession of streams and keeps what it has read of the current one,
so that it can go back to its start. `Tape` is a source with the bytes that it has given, in which
the current stream has a place of its own.
-/

namespace Io

/-- A source and the bytes that its calls have returned. -/
structure Tape (σ : Type) where
  inner : σ
  given : Bytes

instance Tape.instRead {ε σ : Type} [Read ε σ] : Read ε (Tape σ) where
  read n := fun s =>
    match Read.read n s.inner with
    | .ok bs inner => .ok bs ⟨inner, s.given ++ bs⟩
    | .error e inner => .error e ⟨inner, s.given⟩

/-- `copy_within` of a range to `dest`, in the same buffer. -/
def copyWithin (buf : Bytes) (first last dest : ℕ) : Option Bytes :=
  if first ≤ last ∧ last ≤ buf.length ∧ dest + (last - first) ≤ buf.length then
    some (buf.take dest ++ slice buf first (last - first) ++ buf.drop (dest + (last - first)))
  else none

theorem take_copyWithin {buf : Bytes} {first : ℕ} (h : first ≤ buf.length) :
    ∃ buf', copyWithin buf first buf.length 0 = some buf' ∧
      buf'.take (buf.length - first) = buf.drop first := by
  refine ⟨_, if_pos ⟨h, le_rfl, by omega⟩, ?_⟩
  have hslice : slice buf first (buf.length - first) = buf.drop first := slice_eq_drop (by omega)
  rw [List.take_zero, List.nil_append, hslice]
  exact List.take_left' (List.length_drop)

end Io

namespace Mla

open Io

structure BrotliStreamReader (σ : Type) where
  cache : Bytes
  inner : σ
  numberOfBytesRead : ℕ

namespace BrotliStreamReader

variable {σ : Type}

def new (inner : σ) : BrotliStreamReader σ := ⟨[], inner, 0⟩

def newBrotliStream (offsetFromCurrentPos : ℕ) :
    EStateM (Failure Error) (BrotliStreamReader σ) Unit := do
  let s ← get
  let cacheLen := s.cache.length
  let cache ← orPanic (copyWithin s.cache offsetFromCurrentPos cacheLen 0)
  set { s with cache := cache }
  let newCacheLen ← noPanic (okOr (checkedSub cacheLen offsetFromCurrentPos) .deserializationError)
  set { s with cache := cache.take newCacheLen, numberOfBytesRead := newCacheLen }

def rewindToStreamStart (s : BrotliStreamReader σ) : BrotliStreamReader σ :=
  { s with numberOfBytesRead := 0 }

instance instRead [Read Error σ] : Read Error (BrotliStreamReader σ) where
  read n := do
    let s ← get
    if s.numberOfBytesRead < s.cache.length then
      let remainingInCache ← okOr (checkedSub s.cache.length s.numberOfBytesRead) (.kind .invalidInput)
      let copyLen := min remainingInCache n
      let endOffset ← okOr (checkedAdd s.numberOfBytesRead copyLen) (.kind .invalidInput)
      set { s with numberOfBytesRead := endOffset }
      pure (slice s.cache s.numberOfBytesRead copyLen)
    else
      let bs ← zoom (·.inner) (fun inner s => { s with inner := inner }) (Read.read n)
      modify fun s => { s with cache := s.cache ++ bs }
      let s ← get
      let count ← okOr (checkedAdd s.numberOfBytesRead bs.length) (.kind .invalidInput)
      set { s with numberOfBytesRead := count }
      pure bs

section Spec

variable {s s' : BrotliStreamReader σ} {n r : ℕ}

/-- What stands behind the first `r` bytes of the cache is kept, and counts as read. -/
theorem newBrotliStream_eq (h : r ≤ s.cache.length) :
    newBrotliStream r s =
      .ok () { s with cache := s.cache.drop r, numberOfBytesRead := s.cache.length - r } := by
  obtain ⟨cache, hcopy, htake⟩ := take_copyWithin h
  simp only [newBrotliStream, bind_apply, get_apply, hcopy, orPanic, checkedSub_of_le h, okOr_some,
    pure_apply, noPanic, set_apply, htake]

/-- A read from the cache. -/
theorem read_cached [Read Error σ] (h : s.numberOfBytesRead < s.cache.length) :
    (∃ e, Read.read n s = .error e s) ∨
    Read.read n s = .ok (slice s.cache s.numberOfBytesRead
        (min (s.cache.length - s.numberOfBytesRead) n))
      { s with numberOfBytesRead :=
          s.numberOfBytesRead + min (s.cache.length - s.numberOfBytesRead) n } := by
  simp only [Read.read, bind_apply, get_apply, if_pos h, checkedSub_of_le h.le, okOr_some, pure_apply]
  cases hadd : checkedAdd s.numberOfBytesRead (min (s.cache.length - s.numberOfBytesRead) n) with
  | none => exact .inl ⟨_, rfl⟩
  | some k =>
      obtain rfl := checkedAdd_eq hadd
      exact .inr rfl

/-- A read from the source. -/
theorem read_source [Read Error σ] (h : ¬ s.numberOfBytesRead < s.cache.length) :
    (∃ e inner, Read.read n s.inner = .error e inner ∧
      Read.read n s = .error e { s with inner := inner }) ∨
    ∃ bs inner, Read.read n s.inner = .ok bs inner ∧
      ((∃ e, Read.read n s = .error e { s with cache := s.cache ++ bs, inner := inner }) ∨
        Read.read n s = .ok bs { s with
          cache := s.cache ++ bs, inner := inner
          numberOfBytesRead := s.numberOfBytesRead + bs.length }) := by
  cases hread : Read.read n s.inner with
  | error e inner =>
      refine .inl ⟨e, inner, rfl, ?_⟩
      simp only [Read.read, bind_apply, get_apply, if_neg h, zoom, hread]
  | ok bs inner =>
      refine .inr ⟨bs, inner, rfl, ?_⟩
      simp only [Read.read, bind_apply, get_apply, if_neg h, zoom, hread, modify_apply]
      cases hadd : checkedAdd s.numberOfBytesRead bs.length with
      | none => exact .inl ⟨_, rfl⟩
      | some k =>
          obtain rfl := checkedAdd_eq hadd
          exact .inr rfl

end Spec

/-! ## The current stream -/

/-- What the caller asks for: bytes, to go back to the start of the stream, or to go on with the
next stream, of which `r` bytes have already been read. -/
inductive StreamCall
  | read (n : ℕ)
  | rewind
  | newStream (r : ℕ)

/-- The reader, and where the current stream begins in what the source has given. -/
structure Followed (σ : Type) where
  reader : BrotliStreamReader (Tape σ)
  start : ℕ

namespace Followed

def begin (inner : σ) : Followed σ := ⟨.new ⟨inner, []⟩, 0⟩

/-- What the source has given. -/
def given (s : Followed σ) : Bytes := s.reader.inner.given

/-- The place of the next byte of the reader in what the source has given. -/
def position (s : Followed σ) : ℕ :=
  s.given.length - (s.reader.cache.length - s.reader.numberOfBytesRead)

variable [Read Error σ]

/-- The stream that follows begins with the bytes that were read and not consumed. -/
def step : StreamCall → Followed σ → Followed σ
  | .read n, s => ⟨stateOf (Read.read n s.reader), s.start⟩
  | .rewind, s => ⟨s.reader.rewindToStreamStart, s.start⟩
  | .newStream r, s => ⟨stateOf (newBrotliStream r s.reader), s.position - r⟩

/-- The states of a run. -/
def states : List StreamCall → Followed σ → List (Followed σ)
  | [], s => [s]
  | call :: calls, s => s :: states calls (step call s)

/-- The bytes that were read and not consumed are bytes of the current stream. -/
def Sound : StreamCall → Followed σ → Prop
  | .read _, _ => True
  | .rewind, _ => True
  | .newStream r, s => s.start + r ≤ s.position

def AllSound : List StreamCall → Followed σ → Prop
  | [], _ => True
  | call :: calls, s => Sound call s ∧ AllSound calls (step call s)

/-- A stream that is gone on with leaves as many bytes as it has consumed. -/
def Halved : StreamCall → Followed σ → Prop
  | .read _, _ => True
  | .rewind, _ => True
  | .newStream r, s => s.reader.numberOfBytesRead = 2 * r

def AllHalved : List StreamCall → Followed σ → Prop
  | [], _ => True
  | call :: calls, s => Halved call s ∧ AllHalved calls (step call s)

/-- The bytes that a read has returned. -/
def returned {ε ρ : Type} : EStateM.Result ε ρ Bytes → Bytes
  | .ok bs _ => bs
  | .error _ _ => []

/-- What reads of the sizes `sizes` return, one after the other, and the state behind them. -/
def readAll : List ℕ → Followed σ → Bytes × Followed σ
  | [], s => ([], s)
  | n :: sizes, s =>
      (returned (Read.read n s.reader) ++ (readAll sizes (step (.read n) s)).1,
        (readAll sizes (step (.read n) s)).2)

omit [Read Error σ] in
/-- The cache holds the current stream from its first byte to the last byte read. -/
def CachesStream (s : Followed σ) : Prop :=
  s.reader.cache = s.given.drop s.start

/-- From the start of the stream, reads return it again from its first byte, and go on with what
the source gives then. -/
def Replays (s : Followed σ) : Prop :=
  ∀ sizes, ∀ r, readAll sizes (step .rewind s) = r →
    r.1 <+: r.2.given.drop s.start ∧ s.given <+: r.2.given ∧
      (r.2.given = s.given ∨ s.given.drop s.start <+: r.1)

/-! ## The invariant -/

/-- The cache holds the current stream, and the reader stands in it. -/
structure Inv (s : Followed σ) : Prop where
  caches : s.CachesStream
  read_le : s.reader.numberOfBytesRead ≤ s.reader.cache.length
  start_le : s.start ≤ s.given.length

omit [Read Error σ] in
theorem inv_begin (inner : σ) : (begin inner).Inv := ⟨rfl, le_rfl, le_rfl⟩

omit [Read Error σ] in
theorem Inv.length_cache {s : Followed σ} (h : s.Inv) :
    s.start + s.reader.cache.length = s.given.length := by
  have hlen := congrArg List.length h.caches
  have hle := h.start_le
  rw [List.length_drop] at hlen
  omega

omit [Read Error σ] in
theorem Inv.position_eq {s : Followed σ} (h : s.Inv) :
    s.position = s.start + s.reader.numberOfBytesRead := by
  have hlen := h.length_cache
  have hle := h.read_le
  rw [position]
  omega

/-- Reads have returned `bs`, first from the cache and then from the source. -/
structure Reads (s s' : Followed σ) (bs : Bytes) : Prop where
  inv : s'.Inv
  start_eq : s'.start = s.start
  count_eq : s'.reader.numberOfBytesRead = s.reader.numberOfBytesRead + bs.length
  bytes : bs = slice s'.reader.cache s.reader.numberOfBytesRead bs.length
  grows : s.given <+: s'.given
  fresh : s'.given = s.given ∨ s.reader.cache.length ≤ s'.reader.numberOfBytesRead

omit [Read Error σ] in
theorem Reads.cache_isPrefix {s s' : Followed σ} {bs : Bytes} (hs : s.Inv) (h : Reads s s' bs) :
    s.reader.cache <+: s'.reader.cache := by
  rw [hs.caches, h.inv.caches, h.start_eq]
  obtain ⟨more, hmore⟩ := h.grows
  rw [← hmore, List.drop_append_of_le_length hs.start_le]
  exact List.prefix_append _ _

omit [Read Error σ] in
theorem Inv.reads_nil {s : Followed σ} (h : s.Inv) : Reads s s [] :=
  ⟨h, rfl, rfl, (slice_zero_length _ _).symm, List.prefix_rfl, .inl rfl⟩

omit [Read Error σ] in
theorem Reads.append {s s₁ s₂ : Followed σ} {bs bs' : Bytes} (hs : s.Inv) (h : Reads s s₁ bs)
    (h' : Reads s₁ s₂ bs') : Reads s s₂ (bs ++ bs') where
  inv := h'.inv
  start_eq := h'.start_eq.trans h.start_eq
  count_eq := by rw [h'.count_eq, h.count_eq, List.length_append, Nat.add_assoc]
  bytes := by
    have hread := h.inv.read_le
    have hbytes := h'.bytes
    rw [h.count_eq] at hread hbytes
    rw [List.length_append, slice_add, ← hbytes,
      ← isPrefix_slice_of_isPrefix (h'.cache_isPrefix h.inv) hread, ← h.bytes]
  grows := h.grows.trans h'.grows
  fresh := by
    have hlen := (h.cache_isPrefix hs).length_le
    rcases h'.fresh with hgiven | hle
    · rw [hgiven]
      refine h.fresh.imp id fun hle => ?_
      rw [h'.count_eq]
      omega
    · exact .inr (hlen.trans hle)

/-- One read goes on in the cache, or behind its end. -/
theorem Inv.reads {s : Followed σ} (h : s.Inv) (n : ℕ) :
    Reads s (step (.read n) s) (returned (Read.read n s.reader)) := by
  have hlen := h.length_cache
  have hle := h.read_le
  by_cases hcached : s.reader.numberOfBytesRead < s.reader.cache.length
  · rcases read_cached (n := n) hcached with ⟨e, hread⟩ | hread
    · rw [step, hread]
      exact h.reads_nil
    · rw [step, hread]
      have hslice : (slice s.reader.cache s.reader.numberOfBytesRead
          (min (s.reader.cache.length - s.reader.numberOfBytesRead) n)).length =
          min (s.reader.cache.length - s.reader.numberOfBytesRead) n :=
        length_slice_of_le (by omega)
      refine ⟨⟨h.caches, ?_, h.start_le⟩, rfl, ?_, ?_, List.prefix_rfl, .inl rfl⟩
      · simp only [stateOf_ok]
        omega
      · rw [stateOf_ok, returned, hslice]
      · rw [stateOf_ok, returned, hslice]
  · have hfull : s.reader.numberOfBytesRead = s.reader.cache.length := by omega
    have hcache : ∀ bs, s.reader.cache ++ bs = (s.given ++ bs).drop s.start := by
      intro bs
      rw [List.drop_append_of_le_length h.start_le, ← h.caches]
    have htape : ∀ {bs inner}, Read.read n s.reader.inner = .ok bs inner →
        inner.given = s.given ++ bs := by
      intro bs inner hread
      simp only [Read.read] at hread
      split at hread
      · obtain ⟨rfl, rfl⟩ := EStateM.Result.ok.inj hread
        rfl
      · cases hread
    have htape' : ∀ {e inner}, Read.read n s.reader.inner = .error e inner →
        inner.given = s.given := by
      intro e inner hread
      simp only [Read.read] at hread
      split at hread
      · cases hread
      · obtain ⟨rfl, rfl⟩ := EStateM.Result.error.inj hread
        rfl
    rcases read_source (n := n) hcached with
      ⟨e, inner, hinner, hread⟩ | ⟨bs, inner, hinner, ⟨e, hread⟩ | hread⟩
    · have hgiven := htape' hinner
      rw [step, hread]
      refine ⟨⟨?_, hle, ?_⟩, rfl, rfl, (slice_zero_length _ _).symm, ?_, .inl hgiven⟩
      · exact h.caches.trans (congrArg (List.drop s.start) hgiven.symm)
      · exact h.start_le.trans_eq (congrArg List.length hgiven.symm)
      · exact ⟨[], (List.append_nil _).trans hgiven.symm⟩
    · have hgiven := htape hinner
      have hstart : s.start ≤ (s.given ++ bs).length := by
        rw [List.length_append]
        exact h.start_le.trans (Nat.le_add_right _ _)
      rw [step, hread]
      refine ⟨⟨?_, ?_, ?_⟩, rfl, rfl, (slice_zero_length _ _).symm, ?_, .inr hfull.ge⟩
      · exact (hcache bs).trans (congrArg (List.drop s.start) hgiven.symm)
      · simp only [stateOf_error, List.length_append]
        omega
      · exact hstart.trans_eq (congrArg List.length hgiven.symm)
      · exact ⟨bs, hgiven.symm⟩
    · have hgiven := htape hinner
      have hstart : s.start ≤ (s.given ++ bs).length := by
        rw [List.length_append]
        exact h.start_le.trans (Nat.le_add_right _ _)
      rw [step, hread]
      refine ⟨⟨?_, ?_, ?_⟩, rfl, rfl, ?_, ?_, .inr ?_⟩
      · exact (hcache bs).trans (congrArg (List.drop s.start) hgiven.symm)
      · simp only [stateOf_ok, List.length_append]
        omega
      · exact hstart.trans_eq (congrArg List.length hgiven.symm)
      · simp only [stateOf_ok, returned, hfull]
        exact (slice_append_length _ _ le_rfl).symm
      · exact ⟨bs, hgiven.symm⟩
      · simp only [stateOf_ok]
        omega

theorem Inv.reads_all (sizes : List ℕ) :
    ∀ {s : Followed σ}, s.Inv → Reads s (readAll sizes s).2 (readAll sizes s).1 := by
  induction sizes with
  | nil => exact fun h => h.reads_nil
  | cons n sizes ih => exact fun h => (h.reads n).append h (ih (h.reads n).inv)

theorem Inv.rewind {s : Followed σ} (h : s.Inv) : (step .rewind s).Inv :=
  ⟨h.caches, Nat.zero_le _, h.start_le⟩

theorem Inv.replays {s : Followed σ} (h : s.Inv) : s.Replays := by
  rintro sizes r rfl
  have hreads := h.rewind.reads_all sizes
  have hcount : (readAll sizes (step .rewind s)).2.reader.numberOfBytesRead =
      (readAll sizes (step .rewind s)).1.length := hreads.count_eq.trans (Nat.zero_add _)
  have hbytes : (readAll sizes (step .rewind s)).1 =
      (readAll sizes (step .rewind s)).2.reader.cache.take
        (readAll sizes (step .rewind s)).1.length := hreads.bytes.trans (slice_zero _ _)
  have hprefix : (readAll sizes (step .rewind s)).1 <+:
      (readAll sizes (step .rewind s)).2.reader.cache := by
    rw [hbytes]
    exact List.take_prefix _ _
  have hcache : (readAll sizes (step .rewind s)).2.reader.cache =
      (readAll sizes (step .rewind s)).2.given.drop s.start := by
    rw [hreads.inv.caches, hreads.start_eq]
    rfl
  have hold := Reads.cache_isPrefix h.rewind hreads
  change s.reader.cache <+: _ at hold
  refine ⟨by rwa [hcache] at hprefix, hreads.grows, hreads.fresh.imp id fun hle => ?_⟩
  rw [hcount] at hle
  rw [← h.caches]
  exact List.prefix_of_prefix_length_le hold hprefix hle

/-! ## Streams that follow -/

/-- The bytes that are kept for the next stream are its first bytes if and only if the finished
stream has consumed as many bytes as were read behind it. -/
theorem Inv.newStream_iff {s : Followed σ} (h : s.Inv) {r : ℕ} (hsound : s.start + r ≤ s.position) :
    ((step (.newStream r) s).CachesStream ↔ Halved (.newStream r) s) ∧
      (Halved (.newStream r) s → (step (.newStream r) s).Inv) := by
  have hlen := h.length_cache
  have hle := h.read_le
  have hposition := h.position_eq
  have hr : r ≤ s.reader.cache.length := by omega
  have hcache : s.reader.cache.drop r = s.given.drop (s.start + r) := by
    rw [h.caches, List.drop_drop]
  have hiff : (step (.newStream r) s).CachesStream ↔ Halved (.newStream r) s := by
    rw [CachesStream, step, newBrotliStream_eq hr]
    change s.reader.cache.drop r = s.given.drop (s.position - r) ↔ _ = 2 * r
    rw [hcache]
    constructor
    · intro heq
      have hlens := congrArg List.length heq
      rw [List.length_drop, List.length_drop] at hlens
      omega
    · intro hhalf
      congr 1
      omega
  refine ⟨hiff, fun hhalf => ⟨hiff.mpr hhalf, ?_, ?_⟩⟩
  · rw [step, newBrotliStream_eq hr]
    simp only [stateOf_ok, List.length_drop]
    exact le_rfl
  · rw [step, newBrotliStream_eq hr]
    change s.position - r ≤ s.given.length
    omega

theorem Inv.step_iff {s : Followed σ} (h : s.Inv) {call : StreamCall} (hsound : Sound call s) :
    ((step call s).CachesStream ↔ Halved call s) ∧ (Halved call s → (step call s).Inv) := by
  cases call with
  | read n => exact ⟨iff_of_true (h.reads n).inv.caches trivial, fun _ => (h.reads n).inv⟩
  | rewind => exact ⟨iff_of_true h.rewind.caches trivial, fun _ => h.rewind⟩
  | newStream r => exact h.newStream_iff hsound

omit [Read Error σ] in
theorem mem_states_self [Read Error σ] (calls : List StreamCall) (s : Followed σ) :
    s ∈ states calls s := by
  cases calls with
  | nil => exact List.mem_singleton_self s
  | cons call calls => exact List.mem_cons_self

theorem Inv.states_iff (calls : List StreamCall) :
    ∀ {s : Followed σ}, s.Inv → AllSound calls s →
      ((∀ s' ∈ states calls s, s'.CachesStream ∧ s'.Replays) ↔ AllHalved calls s) := by
  induction calls with
  | nil =>
      intro s h _
      refine iff_of_true (fun s' hs' => ?_) trivial
      obtain rfl := List.mem_singleton.mp hs'
      exact ⟨h.caches, h.replays⟩
  | cons call calls ih =>
      intro s h hsound
      obtain ⟨hiff, hinv⟩ := h.step_iff hsound.1
      constructor
      · intro hall
        have hhalf := hiff.mp (hall _ (List.mem_cons_of_mem _ (mem_states_self calls _))).1
        exact ⟨hhalf, (ih (hinv hhalf) hsound.2).mp fun s' hs' => hall s' (List.mem_cons_of_mem _ hs')⟩
      · rintro ⟨hhalf, hrest⟩ s' hs'
        rcases List.mem_cons.mp hs' with rfl | hs'
        · exact ⟨h.caches, h.replays⟩
        · exact (ih (hinv hhalf) hsound.2).mpr hrest s' hs'


end Followed

open Followed

/-- In every state of a run the cache holds the current stream, and reads return it again from its
start, if and only if every stream that was gone on with leaves as many bytes as it has consumed. -/
theorem cachesStream_iff [Read Error σ] (inner : σ) (calls : List StreamCall)
    (hsound : AllSound calls (begin inner)) :
    (∀ s ∈ states calls (begin inner), s.CachesStream ∧ s.Replays) ↔
      AllHalved calls (begin inner) :=
  (inv_begin inner).states_iff calls hsound

/-- Two streams of one byte and more, the second begun when one byte of each was read. -/
theorem cachesStream_iff_two :
    AllSound [.read 2, .newStream 1, .rewind, .read 4] (begin (⟨[1, 2, 3, 4], 0⟩ : Cursor Error)) ∧
    ∀ s ∈ states [.read 2, .newStream 1, .rewind, .read 4] (begin (⟨[1, 2, 3, 4], 0⟩ : Cursor Error)),
      s.CachesStream ∧ s.Replays := by
  have hsound : AllSound [.read 2, .newStream 1, .rewind, .read 4]
      (begin (⟨[1, 2, 3, 4], 0⟩ : Cursor Error)) :=
    ⟨trivial, Nat.le_succ 1, trivial, trivial, trivial⟩
  exact ⟨hsound, (cachesStream_iff _ _ hsound).mpr ⟨trivial, rfl, trivial, trivial, trivial⟩⟩

/-- A stream of two bytes, with one byte of the next: the cache keeps the last byte of the first,
which is read when the second is gone back to. -/
theorem cachesStream_shifted :
    AllSound [.read 3, .newStream 1] (begin (⟨[1, 2, 3], 0⟩ : Cursor Error)) ∧
    ∃ s ∈ states [.read 3, .newStream 1] (begin (⟨[1, 2, 3], 0⟩ : Cursor Error)),
      s.reader.cache = [2, 3] ∧ s.given.drop s.start = [3] ∧
        (readAll [4] (step .rewind s)).1 = [2, 3] := by
  refine ⟨⟨trivial, Nat.le_add_left 1 2, trivial⟩, _,
    List.mem_cons_of_mem _ (List.mem_cons_of_mem _ (List.mem_singleton_self _)), ?_⟩
  exact ⟨rfl, rfl, rfl⟩

end BrotliStreamReader

end Mla
