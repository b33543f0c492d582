import Mla.Layers.Encrypt.Load

/-!
# What the encryption reader hands out

A run is a sequence of calls on an `InternalEncryptionLayerReader`, whatever each of
them returns. `placed` lists the bytes that the calls put in their callers' buffers.

An attempt to load a chunk that ends without one leaves in the cache bytes that no tag
vouches for. As long as no read takes bytes from such a cache (`ReadsOpened`), all that is
placed is plaintext of chunks whose tag was verified.
-/

namespace Mla

open Io

/-- Slot `c` of the stream holds the ciphertext of `pt` as chunk `c`, followed by a tag that
authenticates it. -/
def InternalEncryptionConfig.VerifiedChunk [AesGcm] (config : InternalEncryptionConfig)
    (S : Bytes) (c : ℕ) (pt : Bytes) : Prop :=
  ∃ m, m0ChunkSize * c + chunkHeadSize + m + tagLength ≤ S.length ∧
    chunkHeadSize + m + tagLength ≤ m0ChunkSize ∧
    config.Authentic c (slice S (m0ChunkSize * c + chunkHeadSize) m)
      (slice S (m0ChunkSize * c + chunkHeadSize + m) tagLength) ∧
    pt = config.plaintext c (slice S (m0ChunkSize * c + chunkHeadSize) m)

namespace InternalEncryptionLayerReader

inductive Call
  | init
  | read (n : ℕ)
  | seek (w : SeekFrom)

section Runs

variable {σ : Type} [Patience] [AesGcm] [Read Error σ] [Seek Error σ]

/-- The bytes that a call puts in the buffer of its caller, and the reader after it. -/
def Call.run : Call → InternalEncryptionLayerReader σ → Bytes × InternalEncryptionLayerReader σ
  | .init, s => ([], stateOf (initializeLayer s))
  | .read n, s => ((readInternal n s).1, stateOf (readInternal n s).2)
  | .seek w, s => ([], stateOf (InternalEncryptionLayerReader.seek w s))

/-- All that the calls of a run put in buffers. -/
def placed : List Call → InternalEncryptionLayerReader σ → List Bytes
  | [], _ => []
  | call :: calls, s => (call.run s).1 :: placed calls (call.run s).2

/-- All that the calls place in a buffer is plaintext of chunks of `S` whose tags were verified. -/
def PlacesVerified (config : InternalEncryptionConfig) (S : Bytes) (calls : List Call)
    (s : InternalEncryptionLayerReader σ) : Prop :=
  ∀ bytes ∈ placed calls s, bytes ≠ [] →
    ∃ c x pt, config.VerifiedChunk S c pt ∧ bytes = slice pt x bytes.length

/-- The reader as a seek is about to load a chunk, when the seek gets there. -/
def loadingAt (askedPos : ℕ) (s : InternalEncryptionLayerReader σ) :
    Option (InternalEncryptionLayerReader σ) :=
  match moveToChunk askedPos s with
  | .error _ _ => none
  | .ok _ s => some s

/-- The reader as a call is about to load a chunk, when the call gets there. -/
def Call.loading : Call → InternalEncryptionLayerReader σ →
    Option (InternalEncryptionLayerReader σ)
  | .init, s =>
      match (do setAllPlaintextSize; checkLastBlock) s with
      | .error _ _ => none
      | .ok _ s => loadingAt 0 s
  | .read _, s => if s.chunkCache.pos = normalChunkPtAndTagSize then some s else none
  | .seek w, s =>
      if w = .current 0 then none
      else
        match s.askedPosition w with
        | .error _ => none
        | .ok askedPos => loadingAt askedPos s

/-- Whether the last attempt to load a chunk opened one, after a possible attempt. -/
def openedAfter (loading : Option (InternalEncryptionLayerReader σ)) (before : Bool) : Bool :=
  match loading with
  | none => before
  | some s =>
      match loadInCache s with
      | .ok (some ()) _ => true
      | _ => false

/-- Whether the last attempt to load a chunk opened one, after a call. -/
def Call.opened (call : Call) (s : InternalEncryptionLayerReader σ) (before : Bool) : Bool :=
  openedAfter (call.loading s) before

/-- A read only takes bytes from the cache when the last attempt to load a chunk opened one. -/
def Call.Careful (s : InternalEncryptionLayerReader σ) (opened : Bool) : Call → Prop
  | .read n => opened = true ∨ s.chunkCache.data.length ≤ s.chunkCache.pos ∨ n = 0
  | _ => True

instance (s : InternalEncryptionLayerReader σ) (opened : Bool) (call : Call) :
    Decidable (call.Careful s opened) := by
  cases call <;> unfold Call.Careful <;> infer_instance

/-- Every read of a run is careful. -/
def ReadsOpened : List Call → InternalEncryptionLayerReader σ → Bool → Prop
  | [], _, _ => True
  | call :: calls, s, opened =>
      call.Careful s opened ∧ ReadsOpened calls (call.run s).2 (call.opened s opened)

instance decidableReadsOpened : ∀ (calls : List Call) (s : InternalEncryptionLayerReader σ)
    (opened : Bool), Decidable (ReadsOpened calls s opened)
  | [], _, _ => .isTrue trivial
  | call :: calls, s, opened =>
      haveI := decidableReadsOpened calls (call.run s).2 (call.opened s opened)
      inferInstanceAs (Decidable (_ ∧ _))

/-- A reader that was just built: the normal one, or the truncated one, which loads the first
chunk at once. -/
inductive Started (inner : σ) (key : Key) (nonce : Nonce)
    (mode : Option TruncatedReaderDecryptionMode) : InternalEncryptionLayerReader σ → Bool → Prop
  | new {s} (h : InternalEncryptionLayerReader.new inner (some (key, nonce)) mode = .ok s) :
      Started inner key nonce mode s true
  | loaded {s s' found}
      (h : InternalEncryptionLayerReader.new inner (some (key, nonce)) mode = .ok s)
      (hload : loadInCache s = .ok found s') :
      Started inner key nonce mode s' found.isSome

/-! ## The invariant -/

section Invariant

variable {S : Bytes} {At : σ → ℕ → Prop} {config : InternalEncryptionConfig}
  {mode : Option TruncatedReaderDecryptionMode} {s s' : InternalEncryptionLayerReader σ} {c x : ℕ}

/-- The parts of the invariant that do not depend on the caches. -/
structure Session (At : σ → ℕ → Prop) (config : InternalEncryptionConfig)
    (mode : Option TruncatedReaderDecryptionMode) (s : InternalEncryptionLayerReader σ) :
    Prop where
  config_eq : s.config = config
  mode_eq : s.truncatedDecryptionMode = mode
  placed : ∃ p, At s.inner p

/-- The next chunk cache holds slot `c`, or nothing, and the inner reader stands behind it. -/
structure NextIs (S : Bytes) (At : σ → ℕ → Prop) (s : InternalEncryptionLayerReader σ)
    (c : ℕ) : Prop where
  cache : s.nextChunkCache = slice S (131104 * c) 131104 ∨ s.nextChunkCache = []
  inner : ∃ p, At s.inner p ∧ (p = 131104 * (c + 1) ∨ S.length ≤ p)

/-- The cache holds the plaintext of chunk `c`, and the reader stands at offset `x` of it. -/
structure Holds (S : Bytes) (At : σ → ℕ → Prop) (config : InternalEncryptionConfig)
    (s : InternalEncryptionLayerReader σ) (c x : ℕ) : Prop where
  chunk : ∃ head pt, head.length = 16 ∧ s.chunkCache = ⟨head ++ pt, 16 + x⟩ ∧
    config.VerifiedChunk S c pt
  offset : x ≤ 131072
  position : s.currentPositionInThisLayer = 131072 * c + x
  next : NextIs S At s (c + 1)

/-- The state between two calls. -/
structure Gated (S : Bytes) (At : σ → ℕ → Prop) (config : InternalEncryptionConfig)
    (mode : Option TruncatedReaderDecryptionMode) (s : InternalEncryptionLayerReader σ)
    (opened : Bool) : Prop extends Session At config mode s where
  position_lt : s.currentPositionInThisLayer < u64Size
  fresh : opened = true →
    (s.chunkCache.data = [] ∧ s.chunkCache.pos < 131088) ∨ ∃ c x, Holds S At config s c x
  stale : opened = false → s.chunkCache.pos < 131088

/-- The state in which chunk `c` is about to be loaded. -/
structure AboutToLoad (S : Bytes) (At : σ → ℕ → Prop) (config : InternalEncryptionConfig)
    (mode : Option TruncatedReaderDecryptionMode) (s : InternalEncryptionLayerReader σ)
    (c : ℕ) : Prop extends Session At config mode s where
  position : s.currentPositionInThisLayer = 131072 * c
  next : NextIs S At s c

/-! ## Loading a chunk -/

omit [Patience] [AesGcm] [Read Error σ] [Seek Error σ] in
theorem NextIs.of_slice {bytes : Bytes} {inner : σ} {p : ℕ}
    (hp : p = 131104 * c ∨ S.length ≤ p) (hbytes : bytes = slice S p 131104)
    (hinner : At inner (p + bytes.length)) :
    NextIs S At { s with inner, nextChunkCache := bytes } c where
  cache := by
    rcases hp with rfl | hp
    · exact Or.inl hbytes
    · exact Or.inr (hbytes.trans (slice_eq_nil_of_le hp _))
  inner := by
    refine ⟨_, hinner, ?_⟩
    rw [hbytes, length_slice]
    omega

omit [Patience] [Read Error σ] [Seek Error σ] in
theorem VerifiedChunk.lt {pt : Bytes} (h : config.VerifiedChunk S c pt) :
    131104 * c + 32 + pt.length ≤ S.length ∧ pt.length ≤ 131072 := by
  obtain ⟨m, hm, hm', -, rfl⟩ := h
  rw [m0ChunkSize_eq, chunkHeadSize_eq, tagLength_eq] at hm hm'
  have hlen : (config.plaintext c (slice S (m0ChunkSize * c + chunkHeadSize) m)).length = m := by
    rw [InternalEncryptionConfig.length_plaintext, m0ChunkSize_eq, chunkHeadSize_eq]
    exact length_slice_of_le (by omega)
  omega

omit [Patience] [Read Error σ] [Seek Error σ] in
/-- A chunk that is opened is the one of its slot, and it is verified. -/
theorem AboutToLoad.verified {bytes cache : Bytes} {inner : σ}
    (h : AboutToLoad S At config mode s c) (hmode : mode ≠ some .dataEvenUnauthenticated)
    (hopen : (s.loaded bytes inner).openCached = .chunk cache) :
    ∃ head pt, head.length = 16 ∧ cache = head ++ pt ∧ config.VerifiedChunk S c pt := by
  obtain ⟨m, hm, rfl, hauth⟩ := openChunk_eq_chunk s.config
    (by rw [loaded, h.mode_eq]; exact hmode) hopen
  have hchunk : (s.loaded bytes inner).chunkCache.data = s.nextChunkCache := rfl
  have hposition : (s.loaded bytes inner).currentPositionInThisLayer / 131072 = c := by
    have := h.position
    simp only [loaded]
    omega
  have hslot : s.nextChunkCache = slice S (131104 * c) 131104 := by
    refine h.next.cache.resolve_right ?_
    intro hnil
    rw [hchunk, hnil, List.length_nil] at hm
    omega
  rw [hchunk, hslot] at hm hauth ⊢
  rw [length_slice] at hm
  rw [h.config_eq, hposition] at hauth ⊢
  rw [slice_slice_of_le (by omega), slice_slice_of_le (by omega)] at hauth
  rw [slice_slice_of_le (by omega)]
  refine ⟨_, _, ?_, rfl, m, ?_, ?_, ?_, ?_⟩
  · rw [List.length_take, length_slice]
    omega
  · rw [m0ChunkSize_eq, chunkHeadSize_eq, tagLength_eq]
    omega
  · rw [m0ChunkSize_eq, chunkHeadSize_eq, tagLength_eq]
    omega
  · rwa [m0ChunkSize_eq, chunkHeadSize_eq, tagLength_eq, Nat.add_assoc (131104 * c)]
  · rw [m0ChunkSize_eq, chunkHeadSize_eq]

omit [Seek Error σ] in
/-- Loading a chunk opens the one of its slot, or leaves the reader with nothing read. -/
theorem AboutToLoad.load [Seek Error σ] (hserves : Serves S At)
    (hmode : mode ≠ some .dataEvenUnauthenticated) (h : AboutToLoad S At config mode s c) :
    (∃ s', loadInCache s = .ok (some ()) s' ∧ Session At config mode s' ∧
      Holds S At config s' c 0) ∨
    (∃ s', (loadInCache s = .ok none s' ∨ ∃ e, loadInCache s = .error e s') ∧
      Session At config mode s' ∧ s'.chunkCache.pos = 0 ∧
      s'.currentPositionInThisLayer = s.currentPositionInThisLayer) := by
  obtain ⟨p, hp, hpend⟩ := h.next.inner
  obtain ⟨inner, htake, hinner⟩ := hserves.takeReadToEnd_eq hp m0ChunkSize
  have hnext := NextIs.of_slice (s := s.loaded (slice S p m0ChunkSize) inner) hpend
    (by rw [m0ChunkSize_eq]) hinner
  rw [loadInCache_eq htake, openInCache]
  cases hopen : (s.loaded (slice S p m0ChunkSize) inner).openCached with
  | chunk cache =>
      left
      obtain ⟨head, pt, hhead, rfl, hpt⟩ := h.verified hmode hopen
      refine ⟨_, rfl, ⟨h.config_eq, h.mode_eq, _, hinner⟩, ⟨head, pt, hhead, ?_, hpt⟩, by omega,
        h.position, hnext.cache, hnext.inner⟩
      rw [chunkHeadSize_eq]
  | nothing =>
      right
      exact ⟨_, Or.inl rfl, ⟨h.config_eq, h.mode_eq, _, hinner⟩, rfl, rfl⟩
  | failed e cache =>
      right
      exact ⟨_, Or.inr ⟨e, rfl⟩, ⟨h.config_eq, h.mode_eq, _, hinner⟩, rfl, rfl⟩

/-! ## Reading -/

section Reading

omit [Patience] [AesGcm] [Read Error σ] [Seek Error σ] in
theorem consumeCache_of_nil {n : ℕ} (hnil : cacheBytes n s = [])
    (hposition : s.currentPositionInThisLayer < u64Size) :
    consumeCache n s = ([], .ok () s) := by
  rw [consumeCache_eq (by simpa [hnil] using hposition), hnil]
  simp

omit [Patience] [Read Error σ] [Seek Error σ] in
/-- The bytes that a read takes from an opened chunk are plaintext of it. -/
theorem Holds.cacheBytes_eq (h : Holds S At config s c x) (n : ℕ) :
    ∃ pt, config.VerifiedChunk S c pt ∧ cacheBytes n s = slice pt x (min (131072 - x) n) := by
  obtain ⟨head, pt, hhead, hcache, hpt⟩ := h.chunk
  refine ⟨pt, hpt, ?_⟩
  have hsize : 131088 - (16 + x) = 131072 - x := by omega
  rw [cacheBytes, hcache]
  simp only [hsize]
  rw [slice_append_right (by omega), hhead, Nat.add_sub_cancel_left]

omit [Patience] [Read Error σ] [Seek Error σ] in
theorem Holds.consume (hS : S.length < u64Size) (h : Holds S At config s c x)
    (hposition : s.currentPositionInThisLayer < u64Size) (n : ℕ) :
    ∃ s', (consumeCache n s).2 = .ok () s' ∧ s'.config = s.config ∧
      s'.truncatedDecryptionMode = s.truncatedDecryptionMode ∧ s'.inner = s.inner ∧
      s'.currentPositionInThisLayer < u64Size ∧
      Holds S At config s' c (x + (cacheBytes n s).length) := by
  obtain ⟨pt, hpt, hbytes⟩ := h.cacheBytes_eq n
  obtain ⟨hslot, hlen⟩ := VerifiedChunk.lt hpt
  obtain ⟨head, pt', hhead, hcache, hpt'⟩ := h.chunk
  have hpos := h.position
  have hoff := h.offset
  have hle : (cacheBytes n s).length ≤ 131072 - x ∧
      ((cacheBytes n s).length = 0 ∨ x + (cacheBytes n s).length ≤ pt.length) := by
    rw [hbytes, length_slice]
    omega
  have hnew : s.currentPositionInThisLayer + (cacheBytes n s).length < u64Size := by omega
  rw [consumeCache_eq hnew]
  refine ⟨_, rfl, rfl, rfl, rfl, hnew, ⟨head, pt', hhead, ?_, hpt'⟩, by omega, ?_, h.next.cache,
    h.next.inner⟩
  · rw [hcache, Nat.add_assoc]
  · simp only [hpos, Nat.add_assoc]

omit [Patience] [Read Error σ] [Seek Error σ] in
/-- Reading from the cache keeps the invariant, and takes verified bytes. -/
theorem Gated.consume {opened : Bool} {n : ℕ} (hS : S.length < u64Size)
    (h : Gated S At config mode s opened) (hcare : (Call.read n).Careful s opened) :
    Gated S At config mode (stateOf (consumeCache n s).2) opened ∧
      ((consumeCache n s).1 ≠ [] →
        ∃ c x pt, config.VerifiedChunk S c pt ∧
          (consumeCache n s).1 = slice pt x (consumeCache n s).1.length) := by
  by_cases hnil : cacheBytes n s = []
  · rw [consumeCache_of_nil hnil h.position_lt]
    exact ⟨h, fun hne => absurd rfl hne⟩
  · have hopened : opened = true := by
      rcases hcare with hopened | hend | rfl
      · exact hopened
      · exact absurd (slice_eq_nil_of_le hend _) hnil
      · exact absurd (by simp [cacheBytes]) hnil
    obtain ⟨c, x, hholds⟩ : ∃ c x, Holds S At config s c x := by
      rcases h.fresh hopened with ⟨hempty, -⟩ | hholds
      · refine absurd ?_ hnil
        rw [cacheBytes, hempty]
        exact slice_eq_nil_of_le (Nat.zero_le _) _
      · exact hholds
    obtain ⟨s', hs', hconfig, hmode, hinner, hposition, hholds'⟩ :=
      hholds.consume hS h.position_lt n
    obtain ⟨pt, hpt, hbytes⟩ := hholds.cacheBytes_eq n
    refine ⟨?_, fun _ => ⟨c, x, pt, hpt, ?_⟩⟩
    · rw [hs']
      refine ⟨⟨hconfig.trans h.config_eq, hmode.trans h.mode_eq, ?_⟩, hposition,
        fun _ => Or.inr ⟨c, _, hholds'⟩, fun hfalse => ?_⟩
      · rw [stateOf, hinner]
        exact h.placed
      · rw [hopened] at hfalse
        cases hfalse
    · rw [consumeCache_fst, hbytes, length_slice]
      exact slice_eq_slice_min _ _ _

omit [Seek Error σ] in
/-- A read keeps the invariant, and puts verified bytes in its buffer. -/
theorem Gated.read [Seek Error σ] {opened : Bool} {n : ℕ} (hserves : Serves S At)
    (hS : S.length < u64Size) (hmode : mode ≠ some .dataEvenUnauthenticated)
    (h : Gated S At config mode s opened) (hcare : (Call.read n).Careful s opened) :
    Gated S At config mode ((Call.read n).run s).2 ((Call.read n).opened s opened) ∧
      (((Call.read n).run s).1 ≠ [] →
        ∃ c x pt, config.VerifiedChunk S c pt ∧
          ((Call.read n).run s).1 = slice pt x ((Call.read n).run s).1.length) := by
  by_cases hpos : s.chunkCache.pos < 131088
  · have hloading : (Call.read n).opened s opened = opened := by
      rw [Call.opened, Call.loading, normalChunkPtAndTagSize_eq, if_neg (by omega), openedAfter]
    rw [hloading, Call.run, readInternal_of_lt hpos]
    exact h.consume hS hcare
  · have hopened : opened = true := by
      cases opened with
      | true => rfl
      | false => exact absurd (h.stale rfl) hpos
    obtain ⟨c, x, hholds⟩ : ∃ c x, Holds S At config s c x :=
      (h.fresh hopened).resolve_left fun hempty => hpos hempty.2
    obtain ⟨head, pt, -, hcache, -⟩ := hholds.chunk
    have hx : x = 131072 := by
      have hoff := hholds.offset
      simp only [hcache] at hpos
      omega
    have heq : s.chunkCache.pos = 131088 := by rw [hcache, hx]
    have habout : AboutToLoad S At config mode s (c + 1) :=
      ⟨h.toSession, by rw [hholds.position, hx]; omega, hholds.next⟩
    have hloading : (Call.read n).opened s opened = openedAfter (some s) opened := by
      rw [Call.opened, Call.loading, normalChunkPtAndTagSize_eq, if_pos heq]
    rw [hloading, Call.run, readInternal_of_eq heq]
    rcases habout.load hserves hmode with
      ⟨s', hload, hsession, hholds'⟩ | ⟨s', hload, hsession, hzero, hposition⟩
    · have hgated : Gated S At config mode s' true := by
        refine ⟨hsession, ?_, fun _ => Or.inr ⟨_, _, hholds'⟩, fun h => by cases h⟩
        obtain ⟨_, pt, -, -, hpt⟩ := hholds'.chunk
        obtain ⟨hslot, -⟩ := VerifiedChunk.lt hpt
        rw [hholds'.position]
        omega
      simp only [openedAfter, hload]
      exact hgated.consume hS (Or.inl rfl)
    · have hgated : Gated S At config mode s' false :=
        ⟨hsession, hposition ▸ h.position_lt, (fun h => by cases h), fun _ => by omega⟩
      rcases hload with hload | ⟨e, hload⟩ <;>
      · simp only [openedAfter, hload]
        exact ⟨hgated, fun hne => absurd rfl hne⟩

end Reading

/-! ## Seeking -/

omit [Patience] [Read Error σ] [Seek Error σ] in
/-- The inner reader may be moved to the end, or stay where it is. -/
theorem Gated.of_inner {opened : Bool} {inner : σ} (all : ℕ)
    (h : Gated S At config mode s opened)
    (hinner : ∀ p, At s.inner p → ∃ q, At inner q ∧ (q = p ∨ S.length ≤ q)) :
    Gated S At config mode { s with inner, allPlaintextSize := all } opened := by
  obtain ⟨p, hp⟩ := h.placed
  obtain ⟨q, hq, -⟩ := hinner p hp
  refine ⟨⟨h.config_eq, h.mode_eq, q, hq⟩, h.position_lt, fun hopened => ?_, h.stale⟩
  rcases h.fresh hopened with hempty | ⟨c, x, hholds⟩
  · exact Or.inl hempty
  · obtain ⟨p, hp, hpend⟩ := hholds.next.inner
    obtain ⟨q, hq, hqend⟩ := hinner p hp
    refine Or.inr ⟨c, x, hholds.chunk, hholds.offset, hholds.position, hholds.next.cache, q, hq, ?_⟩
    rcases hqend with rfl | hqend
    · exact hpend
    · exact Or.inr hqend

omit [Patience] [AesGcm] in
/-- A reader that refuses a seek stays everywhere it was. -/
theorem refused_stays (hserves : Serves S At) {inner inner' : σ} {t : ℕ} {e : IoError Error}
    (hseek : Seek.seek (.start t) inner = .error e inner') :
    ∀ p, At inner p → ∃ q, At inner' q ∧ (q = p ∨ S.length ≤ q) := by
  intro p hp
  rcases hserves.seekStart (t := t) hp with ⟨_, hok, -⟩ | ⟨_, _, herr, hp'⟩
  · rw [hseek] at hok
    cases hok
  · rw [hseek] at herr
    cases herr
    exact ⟨p, hp', Or.inl rfl⟩

/-- Moving to a chunk holds it ready to be loaded, or changes nothing that matters. -/
theorem Gated.move {opened : Bool} (hserves : Serves S At) (h : Gated S At config mode s opened)
    (p : ℕ) :
    (∃ e s', moveToChunk p s = .error e s' ∧ Gated S At config mode s' opened) ∨
    (∃ x s', moveToChunk p s = .ok x s' ∧ x < 131072 ∧
      AboutToLoad S At config mode s' (p / 131072) ∧
      s'.currentPositionInThisLayer + x < u64Size) := by
  by_cases hover : 131104 * (p / 131072) + p % 131072 + 16 < u64Size
  · have hx : p % 131072 < 131072 := by omega
    have hmove := moveToChunk_eq (s := s) (p := p) (c := p / 131072) (by omega) hx hover
    obtain ⟨q, hq⟩ := h.placed
    rcases hserves.seekStart (t := 131104 * (p / 131072)) hq with
      ⟨inner, hseek, hinner⟩ | ⟨e, inner, hseek, -⟩
    · right
      obtain ⟨inner', htake, hinner'⟩ := hserves.takeReadToEnd_eq hinner m0ChunkSize
      have hfill := fillNextChunkCache_eq
        (s := { s with inner, currentPositionInThisLayer := 131072 * (p / 131072),
                       nextChunkCache := [] }) htake
      rw [hmove, hseek]
      dsimp only
      rw [hfill]
      refine ⟨_, _, rfl, hx, ⟨⟨h.config_eq, h.mode_eq, _, hinner'⟩, rfl, ?_⟩, ?_⟩
      · exact NextIs.of_slice (s := { s with currentPositionInThisLayer := 131072 * (p / 131072) })
          (Or.inl rfl) (by rw [m0ChunkSize_eq]; rfl) hinner'
      · simp only
        omega
    · left
      rw [hmove, hseek]
      exact ⟨e, _, rfl, h.of_inner _ (refused_stays hserves hseek)⟩
  · left
    exact ⟨_, s, moveToChunk_overflow hover, h⟩

/-- A seek keeps the invariant. -/
theorem Gated.seekStart {opened : Bool} (hserves : Serves S At)
    (hmode : mode ≠ some .dataEvenUnauthenticated) (h : Gated S At config mode s opened)
    (p : ℕ) :
    Gated S At config mode (stateOf (seekStart p s)) (openedAfter (loadingAt p s) opened) := by
  rcases h.move hserves p with ⟨e, s', hmove, hgated⟩ | ⟨x, s', hmove, hx, habout, hposition⟩
  · have hloading : loadingAt p s = none := by rw [loadingAt, hmove]
    have hseek : InternalEncryptionLayerReader.seekStart p s = .error e s' := by
      rw [InternalEncryptionLayerReader.seekStart, bind_apply, hmove]
    rw [hloading, hseek, stateOf_error]
    exact hgated
  · have hloading : loadingAt p s = some s' := by rw [loadingAt, hmove]
    rw [hloading]
    rcases habout.load hserves hmode with
      ⟨s'', hload, hsession, hholds⟩ | ⟨s'', hload, hsession, hzero, hpos⟩
    · have hpos : s''.currentPositionInThisLayer = s'.currentPositionInThisLayer := by
        rw [hholds.position, habout.position, Nat.add_zero]
      have hplace := moveInChunk_eq (s := s'') hx (hpos ▸ hposition)
      have hseek := seekStart_of_ok hmove hload hplace
      have hopened : openedAfter (some s') opened = true := by rw [openedAfter, hload]
      rw [hseek, hopened, stateOf_ok]
      obtain ⟨head, pt, hhead, hcache, hpt⟩ := hholds.chunk
      refine ⟨⟨hsession.config_eq, hsession.mode_eq, hsession.placed⟩, hpos ▸ hposition,
        fun _ => Or.inr ⟨p / 131072, x, ⟨head, pt, hhead, ?_, hpt⟩, by omega, ?_,
          hholds.next.cache, hholds.next.inner⟩, fun h => by cases h⟩
      · rw [hcache]
      · rw [hpos, habout.position]
    · have hopened : openedAfter (some s') opened = false := by
        rcases hload with hload | ⟨e, hload⟩ <;> rw [openedAfter, hload]
      rw [hopened]
      rcases hload with hload | ⟨e, hload⟩
      · have hplace := moveInChunk_eq (s := s'') hx (hpos ▸ hposition)
        have hseek := seekStart_of_ok hmove hload hplace
        rw [hseek, stateOf_ok]
        refine ⟨⟨hsession.config_eq, hsession.mode_eq, hsession.placed⟩, hpos ▸ hposition,
          (fun h => by cases h), fun _ => ?_⟩
        simp only
        omega
      · have hseek := seekStart_of_error hmove hload
        rw [hseek, stateOf_error]
        exact ⟨hsession, by omega, (fun h => by cases h), fun _ => by omega⟩

theorem Gated.seek {opened : Bool} (hserves : Serves S At)
    (hmode : mode ≠ some .dataEvenUnauthenticated) (h : Gated S At config mode s opened)
    (w : SeekFrom) :
    Gated S At config mode (stateOf (InternalEncryptionLayerReader.seek w s))
      ((Call.seek w).opened s opened) := by
  rw [Call.opened, Call.loading, InternalEncryptionLayerReader.seek]
  by_cases hcur : w = .current 0
  · rw [if_pos hcur, if_pos hcur]
    exact h
  · rw [if_neg hcur, if_neg hcur]
    cases s.askedPosition w with
    | error e => exact h
    | ok p =>
        dsimp only
        exact h.seekStart hserves hmode p

/-! ## Initialisation -/

omit [Patience] [AesGcm] in
/-- A seek from the end is refused, or goes to a place that is the end in the first call. -/
theorem seekInner_end (hserves : Serves S At) (hplaced : ∃ p, At s.inner p) (d : ℤ) :
    (∃ e inner, seekInner (.fromEnd d) s = .error e { s with inner } ∧
      ∀ p, At s.inner p → ∃ q, At inner q ∧ (q = p ∨ S.length ≤ q)) ∨
    (∃ t inner, seekInner (.fromEnd d) s = .ok t { s with inner } ∧ (t : ℤ) = S.length + d ∧
      At inner t) := by
  obtain ⟨p, hp⟩ := hplaced
  simp only [seekInner, zoom]
  rcases hserves.seekEnd (d := d) hp with ⟨t, inner, hseek, ht, hinner⟩ | ⟨e, inner, hseek, -⟩
  · right
    exact ⟨t, inner, by rw [hseek], ht, hinner⟩
  · left
    refine ⟨e, inner, by rw [hseek], fun p' hp' => ?_⟩
    rcases hserves.seekEnd (d := d) hp' with ⟨_, _, hok, -⟩ | ⟨_, _, herr, hinner⟩
    · rw [hseek] at hok
      cases hok
    · rw [hseek] at herr
      cases herr
      exact ⟨p', hinner, Or.inl rfl⟩

omit [Patience] in
/-- Computing the size of the plaintext keeps the invariant. -/
theorem Gated.setAllPlaintextSize {opened : Bool} (hserves : Serves S At)
    (h : Gated S At config mode s opened) :
    (∃ e s', InternalEncryptionLayerReader.setAllPlaintextSize s = .error e s' ∧
      Gated S At config mode s' opened) ∨
    (∃ s', InternalEncryptionLayerReader.setAllPlaintextSize s = .ok () s' ∧
      Gated S At config mode s' opened ∧ s'.allPlaintextSize < u64Size) := by
  rw [InternalEncryptionLayerReader.setAllPlaintextSize]
  rcases seekInner_end hserves h.placed 0 with
    ⟨e, inner, hseek, hstays⟩ | ⟨t, inner, hseek, ht, hinner⟩
  · left
    refine ⟨.ioError e, { s with inner }, ?_, h.of_inner _ hstays⟩
    simp only [bind_apply, liftIo_apply, hseek]
  · have hend : ∀ p, At s.inner p → ∃ q, At inner q ∧ (q = p ∨ S.length ≤ q) :=
      fun _ _ => ⟨t, hinner, Or.inr (by omega)⟩
    cases hsize : plaintextSize t with
    | none =>
        left
        refine ⟨.deserializationError, { s with inner }, ?_, h.of_inner _ hend⟩
        simp only [bind_apply, liftIo_apply, hseek, hsize, okOr_none, throw_apply]
    | some size =>
        right
        refine ⟨_, ?_, h.of_inner size hend, plaintextSize_lt hsize⟩
        simp only [bind_apply, liftIo_apply, hseek, hsize, okOr_some, pure_apply, modify_apply]

/-- Checking the last block keeps the invariant. -/
theorem Gated.checkLastBlock {opened : Bool} (hserves : Serves S At)
    (h : Gated S At config mode s opened) (hall : s.allPlaintextSize < u64Size) :
    Gated S At config mode (stateOf (InternalEncryptionLayerReader.checkLastBlock s)) opened := by
  have hseq := finalSequenceNumber_eq hall
  have hoffset : ((finalInfoSizeWom + endOfEncryptedInnerLayerMagic.length : ℕ) : ℤ) = 34 := rfl
  rw [InternalEncryptionLayerReader.checkLastBlock]
  simp only [hoffset]
  rcases seekInner_end hserves h.placed (-34) with
    ⟨e, inner, hseek, hstays⟩ | ⟨t, inner, hseek, ht, hinner⟩
  · simp only [bind_apply, liftIo_apply, hseek, stateOf_error]
    exact h.of_inner _ hstays
  · obtain ⟨inner', htake, hinner'⟩ := hserves.takeReadToEnd_eq hinner (i64Size - 1)
    have hend : S.length ≤ t + (slice S t (i64Size - 1)).length := by
      rw [length_slice, i64Size_eq]
      omega
    have hgated : Gated S At config mode { s with inner := inner' } opened :=
      h.of_inner _ fun _ _ => ⟨_, hinner', Or.inr hend⟩
    have hread : readInnerToEnd { s with inner } =
        .ok (slice S t (i64Size - 1)) { s with inner := inner' } := by
      simp only [readInnerToEnd, htake]
    simp only [bind_apply, liftIo_apply, hseek, get_apply, hseq, okOr_some, pure_apply, hread]
    split
    · exact hgated
    · split <;> exact hgated

/-- Initialising keeps the invariant. -/
theorem Gated.initializeLayer {opened : Bool} (hserves : Serves S At)
    (hmode : mode ≠ some .dataEvenUnauthenticated) (h : Gated S At config mode s opened) :
    Gated S At config mode (stateOf (InternalEncryptionLayerReader.initializeLayer s))
      (Call.init.opened s opened) := by
  rw [Call.opened, Call.loading, InternalEncryptionLayerReader.initializeLayer]
  simp only [bind_apply]
  rcases h.setAllPlaintextSize hserves with ⟨e, s', hset, hs'⟩ | ⟨s', hset, hs', hall⟩
  · simp only [hset, stateOf_error, openedAfter]
    exact hs'
  · have hcheck := hs'.checkLastBlock hserves hall
    simp only [hset]
    revert hcheck
    cases InternalEncryptionLayerReader.checkLastBlock s' with
    | error e s'' =>
        intro hs''
        simp only [stateOf_error, openedAfter] at hs'' ⊢
        exact hs''
    | ok _ s'' =>
        intro hs''
        rw [stateOf_ok] at hs''
        have hseek := hs''.seekStart hserves hmode 0
        have hrewind : stateOf (liftIo InternalEncryptionLayerReader.rewind s'') =
            stateOf (InternalEncryptionLayerReader.seekStart 0 s'') := by
          have hzero : InternalEncryptionLayerReader.seek (.start 0) s'' =
              InternalEncryptionLayerReader.seekStart 0 s'' := rfl
          rw [liftIo_apply, InternalEncryptionLayerReader.rewind, bind_apply, hzero]
          cases InternalEncryptionLayerReader.seekStart 0 s'' <;> rfl
        rw [← hrewind] at hseek
        exact hseek

/-! ## Runs -/

/-- A call keeps the invariant, and what it places is verified. -/
theorem Gated.run {opened : Bool} (hserves : Serves S At) (hS : S.length < u64Size)
    (hmode : mode ≠ some .dataEvenUnauthenticated) (h : Gated S At config mode s opened)
    (call : Call) (hcare : call.Careful s opened) :
    Gated S At config mode (call.run s).2 (call.opened s opened) ∧
      ((call.run s).1 ≠ [] →
        ∃ c x pt, config.VerifiedChunk S c pt ∧
          (call.run s).1 = slice pt x (call.run s).1.length) := by
  cases call with
  | init => exact ⟨h.initializeLayer hserves hmode, fun hne => absurd rfl hne⟩
  | read n => exact h.read hserves hS hmode hcare
  | seek w => exact ⟨h.seek hserves hmode w, fun hne => absurd rfl hne⟩

theorem Gated.placed_verified (hserves : Serves S At) (hS : S.length < u64Size)
    (hmode : mode ≠ some .dataEvenUnauthenticated) :
    ∀ (calls : List Call) {s : InternalEncryptionLayerReader σ} {opened : Bool},
      Gated S At config mode s opened → ReadsOpened calls s opened →
      PlacesVerified config S calls s := by
  intro calls
  induction calls with
  | nil => intro s opened _ _ bytes hbytes; cases hbytes
  | cons call calls ih =>
      intro s opened hs hcare bytes hbytes hne
      obtain ⟨hnext, hplaced⟩ := hs.run hserves hS hmode call hcare.1
      rcases List.mem_cons.mp hbytes with rfl | hbytes
      · exact hplaced hne
      · exact ih hnext hcare.2 bytes hbytes hne

theorem Started.gated (hserves : Serves S At) {inner : σ} (hinner : At inner 0) {opened : Bool}
    (hmode : mode ≠ some .dataEvenUnauthenticated)
    (h : Started inner config.key config.nonce mode s opened) :
    Gated S At config mode s opened := by
  obtain ⟨inner', htake, hinner'⟩ := hserves.takeReadToEnd_eq hinner m0ChunkSize
  have hnew : ∀ {s : InternalEncryptionLayerReader σ},
      InternalEncryptionLayerReader.new inner (some (config.key, config.nonce)) mode = .ok s →
      AboutToLoad S At config mode s 0 ∧ s.chunkCache = ⟨[], 0⟩ := by
    intro s hs
    simp only [InternalEncryptionLayerReader.new, htake, Except.ok.injEq] at hs
    subst hs
    refine ⟨⟨⟨rfl, rfl, _, hinner'⟩, rfl, ?_⟩, rfl⟩
    exact NextIs.of_slice (s := { s with
      key := config.key, nonce := config.nonce, chunkCache := ⟨[], 0⟩, allPlaintextSize := 0,
      currentPositionInThisLayer := 0, truncatedDecryptionMode := mode })
      (Or.inl rfl) (by rw [m0ChunkSize_eq]) hinner'
  cases h with
  | new hs =>
      obtain ⟨habout, hcache⟩ := hnew hs
      refine ⟨habout.toSession, ?_, fun _ => Or.inl ⟨by rw [hcache], by simp [hcache]⟩,
        fun h => by cases h⟩
      rw [habout.position, u64Size_eq]
      omega
  | loaded hs hload =>
      obtain ⟨habout, -⟩ := hnew hs
      rcases habout.load hserves hmode with
        ⟨s'', hload', hsession, hholds⟩ | ⟨s'', hload', hsession, hzero, hposition⟩
      · rw [hload] at hload'
        cases hload'
        refine ⟨hsession, ?_, fun _ => Or.inr ⟨_, _, hholds⟩, fun h => by cases h⟩
        rw [hholds.position, u64Size_eq]
        omega
      · rcases hload' with hload' | ⟨e, hload'⟩
        · rw [hload] at hload'
          cases hload'
          refine ⟨hsession, ?_, (fun h => by cases h), fun _ => by omega⟩
          rw [hposition, habout.position, u64Size_eq]
          omega
        · rw [hload] at hload'
          cases hload'

end Invariant

/-- In every run in which no read takes bytes from a cache that holds no opened chunk, all
that is placed in a buffer is plaintext of a chunk whose tag was verified under the nonce of
its number. -/
theorem placed_of_readsOpened {S : Bytes} {At : σ → ℕ → Prop} (hserves : Serves S At)
    (hS : S.length < u64Size) (config : InternalEncryptionConfig)
    {mode : Option TruncatedReaderDecryptionMode} (hmode : mode ≠ some .dataEvenUnauthenticated)
    {inner : σ} (hinner : At inner 0) {s : InternalEncryptionLayerReader σ} {opened : Bool}
    (hstart : Started inner config.key config.nonce mode s opened) (calls : List Call)
    (hcalls : ReadsOpened calls s opened) :
    PlacesVerified config S calls s :=
  (hstart.gated hserves hinner hmode).placed_verified hserves hS hmode calls hcalls

end Runs

/-! ## Runs on small streams -/

section Small

open scoped CountingCipher

/-- The reader just built on the stream of a short plaintext. -/
def smallReader (P : Bytes) : InternalEncryptionLayerReader (Cursor Error) where
  inner := ⟨CountingCipher.config.encBody P, (CountingCipher.config.encBody P).length⟩
  key := CountingCipher.config.key
  nonce := CountingCipher.config.nonce
  chunkCache := ⟨[], 0⟩
  nextChunkCache := CountingCipher.config.encBody P
  allPlaintextSize := 0
  currentPositionInThisLayer := 0
  truncatedDecryptionMode := none

theorem placed_of_readsOpened_pair :
    PlacesVerified CountingCipher.config (CountingCipher.config.encBody [7, 8])
      [.init, .read 1, .seek (.start 1), .read 3, .read 3] (smallReader [7, 8]) :=
  placed_of_readsOpened (Cursor.serves (CountingCipher.config.encBody [7, 8])) (by decide)
    CountingCipher.config
    ((fun h => by cases h) : none ≠ some TruncatedReaderDecryptionMode.dataEvenUnauthenticated)
    (show Cursor.At _ (⟨CountingCipher.config.encBody [7, 8], 0⟩ : Cursor Error) 0 from ⟨rfl, rfl⟩)
    (.new rfl) _ (by decide)

/-- No piece of the stream of the empty plaintext passes for a chunk that is not empty. -/
theorem verifiedChunk_empty {c : ℕ} {pt : Bytes}
    (h : CountingCipher.config.VerifiedChunk (CountingCipher.config.encBody []) c pt) :
    pt = [] := by
  have hlen : (CountingCipher.config.encBody []).length = 74 := rfl
  have hnone : ∀ m < 43, 0 < m →
      ¬ CountingCipher.config.Authentic 0 (slice (CountingCipher.config.encBody []) 16 m)
        (slice (CountingCipher.config.encBody []) (16 + m) 16) := by decide
  obtain ⟨m, hm, -, hauth, rfl⟩ := h
  rw [m0ChunkSize_eq, chunkHeadSize_eq, tagLength_eq, hlen] at *
  obtain rfl : c = 0 := by omega
  rw [Nat.mul_zero, Nat.zero_add] at hauth ⊢
  rcases Nat.eq_zero_or_pos m with rfl | hpos
  · rw [slice_zero_length]
    rfl
  · exact absurd hauth (hnone m (by omega) hpos)

/-- Once initialised on the stream of the empty plaintext, the reader hands out a byte of the
stream itself. -/
theorem empty_places_raw :
    ¬ PlacesVerified CountingCipher.config (CountingCipher.config.encBody []) [.init, .read 1]
      (smallReader []) := by
  have hplaced : placed [.init, .read 1] (smallReader []) = [[], [0]] := rfl
  intro h
  obtain ⟨c, x, pt, hpt, hbytes⟩ := h [0] (by rw [hplaced]; simp) (by simp)
  rw [verifiedChunk_empty hpt] at hbytes
  simp [slice] at hbytes

end Small

end InternalEncryptionLayerReader

end Mla
