import Mla.Layers.Compress.Opened

/-!
# Calls that fail

Behind any layer and with any index, a call of the reader may fail in the middle: it then
leaves the state `empty`, and the next seek panics. `Meets s call` says that the block which
the call is about can be opened and read, so that no call fails there; the calls that are
refused before leave the reader as it is.
-/

namespace Mla

open Io

/-! ## The index -/

namespace SizesInfo

variable {info : SizesInfo} {k : ℕ}

/-- The index tells how long the data are. -/
def Measured (info : SizesInfo) : Prop :=
  0 < info.compressedSizes.length ∧ info.dataLength < u64Size

theorem Measured.maxUncompressedPos_eq (h : info.Measured) :
    info.maxUncompressedPos = .ok info.dataLength :=
  maxUncompressedPos_eq_ok.mpr ⟨h.1, rfl, h.2⟩

theorem maxUncompressedPos_eq_error (h : ¬ info.Measured) :
    ∃ e, info.maxUncompressedPos = .error e := by
  cases hmax : info.maxUncompressedPos with
  | error e => exact ⟨e, rfl⟩
  | ok m =>
      obtain ⟨hlen, rfl, hlt⟩ := maxUncompressedPos_eq_ok.mp hmax
      exact absurd ⟨hlen, hlt⟩ h

/-- A block of the index ends within the data. -/
theorem blockEnd_le (hk : k < info.compressedSizes.length) :
    uncompressedDataSize * k + info.blockSize k ≤ info.dataLength := by
  rw [blockSize, dataLength]
  split
  · rename_i hfull
    have hmul : uncompressedDataSize * (k + 1) ≤
        uncompressedDataSize * (info.compressedSizes.length - 1) :=
      Nat.mul_le_mul_left _ (by omega)
    rw [Nat.mul_succ] at hmul
    omega
  · rename_i hlast
    obtain rfl : k = info.compressedSizes.length - 1 := by omega
    exact Nat.le_refl _

/-- A block that does not end the data is full. -/
theorem blockSize_of_lt (hk : k < info.compressedSizes.length)
    (hlt : uncompressedDataSize * k + info.blockSize k < info.dataLength) :
    info.blockSize k = uncompressedDataSize := by
  rw [blockSize]
  split
  · rfl
  · rename_i hlast
    obtain rfl : k = info.compressedSizes.length - 1 := by omega
    rw [blockSize, if_neg (Nat.lt_irrefl _), dataLength] at hlt
    exact absurd hlt (Nat.lt_irrefl _)

/-- A block that begins within the data holds some of them. -/
theorem blockSize_pos (hk : k < info.compressedSizes.length)
    (hlt : uncompressedDataSize * k < info.dataLength) : 0 < info.blockSize k := by
  by_contra hzero
  have hsize : info.blockSize k = 0 := Nat.eq_zero_of_not_pos hzero
  have hfull := blockSize_of_lt hk (by rwa [hsize, Nat.add_zero])
  rw [hfull] at hsize
  cases hsize

theorem blockSize_lt (hlast : info.lastBlockSize < u32Size) (k : ℕ) : info.blockSize k < u32Size := by
  rw [blockSize]
  split
  · decide
  · exact hlast

end SizesInfo

namespace CompressionLayerReader

section Reader

variable {σ : Type} [BrotliDecompressor] [Read Error σ] [Seek Error σ]
  {s s' : CompressionLayerReader σ} {info : SizesInfo} {inner : σ} {k m n t : ℕ}

/-! ## Running calls -/

section Runs

variable [Patience]

/-- What a caller sees of a call. -/
inductive Answer where
  | bytes (bs : Bytes)
  | position (pos : ℕ)
  | failed
  | panicked

omit [BrotliDecompressor] [Patience] in
theorem Answer.bytes_settled (bs : Bytes) : Answer.bytes bs ≠ .failed ∧ Answer.bytes bs ≠ .panicked := by
  constructor
  · intro h
    cases h
  · intro h
    cases h

omit [BrotliDecompressor] [Patience] in
theorem Answer.position_settled (pos : ℕ) :
    Answer.position pos ≠ .failed ∧ Answer.position pos ≠ .panicked := by
  constructor
  · intro h
    cases h
  · intro h
    cases h

omit [BrotliDecompressor] [Patience] in
theorem Answer.failed_ne_panicked : Answer.failed ≠ .panicked := by
  intro h
  cases h

def answer : ReaderCall → CompressionLayerReader σ → Answer × CompressionLayerReader σ
  | .read n, s =>
      match read n s with
      | .ok bs s' => (.bytes bs, s')
      | .error (.error _) s' => (.failed, s')
      | .error .panicked s' => (.panicked, s')
  | .seek w, s =>
      match seek w s with
      | .ok pos s' => (.position pos, s')
      | .error (.error _) s' => (.failed, s')
      | .error .panicked s' => (.panicked, s')

/-- What a caller sees of a run. -/
def answers : List ReaderCall → CompressionLayerReader σ → List Answer
  | [], _ => []
  | call :: calls, s => (answer call s).1 :: answers calls (answer call s).2

/-- No call panics, and a seek that fails leaves the position and the answers to all calls
that may follow as they were. -/
def Unpoisoned : List ReaderCall → CompressionLayerReader σ → Prop
  | [], _ => True
  | .read n :: calls, s =>
      (answer (.read n) s).1 ≠ .panicked ∧ Unpoisoned calls (answer (.read n) s).2
  | .seek w :: calls, s =>
      (answer (.seek w) s).1 ≠ .panicked ∧
      ((answer (.seek w) s).1 = .failed →
        (answer (.seek w) s).2.underlayerPos = s.underlayerPos ∧
        ∀ later, answers later (answer (.seek w) s).2 = answers later s) ∧
      Unpoisoned calls (answer (.seek w) s).2

end Runs

/-! ## The condition -/

/-- The layer below can be moved to block `k`, which the index places in the data. -/
def Opens (info : SizesInfo) (inner : σ) (k : ℕ) (d : Decompressor σ) : Prop :=
  info.Measured ∧ uncompressedDataSize * k < info.dataLength ∧
    ∃ (hk : k < info.compressedSizes.length) (pos : ℕ) (inner' : σ),
      Seek.seek (.start (info.blockStart k)) inner = .ok pos inner' ∧
      d = .new inner' info.compressedSizes[k]

/-- The decompressor can be read. -/
def Decompresses (d : Decompressor σ) (n : ℕ) : Prop :=
  ∃ bs d', Read.read n d = .ok bs d'

/-- A read within the data finds its block open and readable, or opens it. -/
def MeetsRead (info : SizesInfo) (s : CompressionLayerReader σ) (n : ℕ) : Prop :=
  info.Measured → s.underlayerPos < info.dataLength →
    match s.state with
    | .ready inner =>
        ∃ d, Opens info inner (s.underlayerPos / uncompressedDataSize) d ∧
          Decompresses d (min (info.blockSize (s.underlayerPos / uncompressedDataSize)) n)
    | .inData read size d =>
        if read = size then
          ∃ d', Opens info d.intoInner (s.underlayerPos / uncompressedDataSize) d' ∧
            Decompresses d' (min (info.blockSize (s.underlayerPos / uncompressedDataSize)) n)
        else Decompresses d (min (size - read) n)
    | .empty => False

/-- A seek that is not refused at once opens the block of its target, and passes over the
part of the block before it. -/
def MeetsSeek [Patience] (info : SizesInfo) (s : CompressionLayerReader σ) (w : SeekFrom) : Prop :=
  w ≠ .current 0 → ∀ t, s.askedPosition info w = .ok t →
    ∃ inner d r, s.state.intoInner = some inner ∧ Opens info inner (t / uncompressedDataSize) d ∧
      copyTake (t % uncompressedDataSize) (d, (Sink.mk : Sink Error)) = .ok () r

def Meets [Patience] (info : SizesInfo) (s : CompressionLayerReader σ) : ReaderCall → Prop
  | .read n => MeetsRead info s n
  | .seek w => MeetsSeek info s w

/-- Every call of a run meets the condition in the state that it finds. -/
def AllMeet [Patience] (info : SizesInfo) : List ReaderCall → CompressionLayerReader σ → Prop
  | [], _ => True
  | call :: calls, s => Meets info s call ∧ AllMeet info calls (answer call s).2

/-! ## Opening a block -/

omit [Read Error σ] in
theorem Opens.openBlock_eq {d : Decompressor σ} (h : Opens info inner k d)
    (hinfo : s.sizesInfo = some info) :
    s.openBlock inner (uncompressedDataSize * k) = .ok (d, info.blockSize k) := by
  obtain ⟨hmeasured, hlt, hk, pos, inner', hseek, rfl⟩ := h
  rw [CompressionLayerReader.openBlock_eq hinfo hmeasured.maxUncompressedPos_eq hlt hk, hseek]

omit [Read Error σ] in
/-- A block that cannot be opened is refused. -/
theorem openBlock_error (hinfo : s.sizesInfo = some info) (h : ∀ d, ¬ Opens info inner k d) :
    ∃ e, s.openBlock inner (uncompressedDataSize * k) = .error e := by
  have hdiv : uncompressedDataSize * k / uncompressedDataSize = k :=
    Nat.mul_div_cancel_left k uncompressedDataSize_pos
  by_cases hmeasured : info.Measured
  · have hmax := hmeasured.maxUncompressedPos_eq
    by_cases hlt : uncompressedDataSize * k < info.dataLength
    · by_cases hk : k < info.compressedSizes.length
      · rw [CompressionLayerReader.openBlock_eq hinfo hmax hlt hk]
        cases hseek : Seek.seek (SeekFrom.start (info.blockStart k)) inner with
        | error e inner' => exact ⟨_, rfl⟩
        | ok pos inner' => exact absurd ⟨hmeasured, hlt, hk, pos, inner', hseek, rfl⟩ (h _)
      · -- The index has no size for the block.
        rw [openBlock]
        cases s.syncInnerWithUncompressedPos inner (uncompressedDataSize * k) with
        | error e => exact ⟨e, rfl⟩
        | ok inner' =>
            have hnone : s.newDecompressorAt inner' (uncompressedDataSize * k) =
                .error .deserializationError := by
              rw [newDecompressorAt, checkStart_eq hinfo hmax, if_pos hlt, hinfo]
              dsimp only [bind, Except.bind]
              rw [SizesInfo.compressedBlockSizeAt, hdiv, List.getElem?_eq_none (by omega)]
              rfl
            dsimp only [bind, Except.bind]
            rw [hnone]
            exact ⟨_, rfl⟩
    · exact ⟨_, openBlock_refused hinfo hmax (by omega)⟩
  · obtain ⟨e, herror⟩ := SizesInfo.maxUncompressedPos_eq_error hmeasured
    refine ⟨e, ?_⟩
    rw [openBlock, syncInnerWithUncompressedPos, checkStart, Nat.mul_mod_right,
      if_neg (not_not_intro rfl), posInStream, hinfo]
    dsimp only [bind, Except.bind]
    rw [herror]

/-! ## The invariant -/

/-- The reader stands in a block of the index or before one. -/
def Usable (info : SizesInfo) (s : CompressionLayerReader σ) : Prop :=
  s.sizesInfo = some info ∧
    match s.state with
    | .ready _ => ∃ k, s.underlayerPos = uncompressedDataSize * k
    | .inData read size _ => ∃ k, k < info.compressedSizes.length ∧ size = info.blockSize k ∧
        s.underlayerPos = uncompressedDataSize * k + read ∧
        (read ≤ size ∨ info.dataLength ≤ s.underlayerPos)
    | .empty => False

/-- A call that goes on in a block succeeds when the condition is met, and leaves nothing when
it is not. -/
structure Settles {α : Type} (info : SizesInfo) (meets : Prop)
    (r : EStateM.Result (Failure (IoError Error)) (CompressionLayerReader σ) α) : Prop where
  met : meets → ∃ a s', r = .ok a s' ∧ Usable info s'
  missed : ¬ meets → ∃ e s', r = .error (.error e) s' ∧ s'.state = .empty ∧
    s'.sizesInfo = some info

variable (hfills : ∀ {d d' : BrotliDecompressor.Decoder × Take σ} {n : ℕ} {bs : Bytes},
    Read.read n d = .ok bs d' → bs.length ≤ n)
  (hlast : info.lastBlockSize < u32Size)
include hfills

omit [Seek Error σ] in
theorem Decompressor.length_read_le {d d' : Decompressor σ} {bs : Bytes}
    (hread : Read.read n d = .ok bs d') : bs.length ≤ n := by
  rw [Decompressor.read_eq] at hread
  split at hread
  · rename_i hrun
    obtain ⟨rfl, -⟩ := EStateM.Result.ok.inj hread
    exact hfills hrun
  · cases hread

include hlast

omit [Seek Error σ] in
/-- A read in a block that has not been read to its end. -/
theorem settles_readInData {r : ℕ} {d : Decompressor σ} (hinfo : s.sizesInfo = some info)
    (hmeasured : info.Measured) (hk : k < info.compressedSizes.length)
    (hpos : s.underlayerPos = uncompressedDataSize * k + r) (hr : r ≤ info.blockSize k) (n : ℕ) :
    Settles info (Decompresses d (min (info.blockSize k - r) n))
      (noPanic (readInData r (info.blockSize k) d n) s) where
  met := by
    rintro ⟨bs, d', hread⟩
    have hlen := Decompressor.length_read_le hfills hread
    have hend := info.blockEnd_le hk
    have hlt := hmeasured.2
    have hsize := SizesInfo.blockSize_lt hlast k
    refine ⟨bs, { s with
      state := .inData (r + bs.length) (info.blockSize k) d'
      underlayerPos := s.underlayerPos + bs.length }, ?_, hinfo, k, hk, rfl, ?_, Or.inl ?_⟩
    · rw [noPanic, readInData_eq hread (by omega) (by omega)]
    · change s.underlayerPos + bs.length = uncompressedDataSize * k + (r + bs.length)
      omega
    · omega
  missed := by
    intro hnone
    cases hread : Read.read (min (info.blockSize k - r) n) d with
    | ok bs d' => exact absurd ⟨bs, d', hread⟩ hnone
    | error e d' =>
        refine ⟨e, { s with state := .empty }, ?_, rfl, hinfo⟩
        rw [noPanic, readInData, hread]

/-- A read between two blocks. -/
theorem settles_ready (fuel : ℕ) (hinfo : s.sizesInfo = some info) (hmeasured : info.Measured)
    (hstate : s.state = .ready inner) (hpos : s.underlayerPos = uncompressedDataSize * k)
    (hlt : s.underlayerPos < info.dataLength) (n : ℕ) :
    Settles info (∃ d, Opens info inner k d ∧ Decompresses d (min (info.blockSize k) n))
      (readLoop n (fuel + 2) s) := by
  have hmax := hmeasured.maxUncompressedPos_eq
  rw [readLoop_ready hinfo hmax hlt hstate]
  by_cases hopens : ∃ d, Opens info inner k d
  · obtain ⟨d, hd⟩ := hopens
    have hsize := info.blockSize_pos hd.2.2.1 hd.2.1
    have hrun : readLoop n (fuel + 1) { s with state := .inData 0 (info.blockSize k) d } =
        noPanic (readInData 0 (info.blockSize k) d n)
          { s with state := .inData 0 (info.blockSize k) d } :=
      readLoop_inData (s := { s with state := .inData 0 _ d }) hinfo hmax hlt rfl hsize
    have hsettles := settles_readInData (s := { s with state := .inData 0 (info.blockSize k) d })
      (d := d) hfills hlast hinfo hmeasured hd.2.2.1 hpos (Nat.zero_le _) n
    have hopen := hd.openBlock_eq hinfo
    rw [← hpos] at hopen
    rw [hopen]
    dsimp only
    rw [hrun]
    refine ⟨?_, fun hnone => hsettles.missed fun hread => hnone ⟨d, hd, hread⟩⟩
    rintro ⟨d', hd', hread⟩
    obtain ⟨-, -, _, _, _, hseek, rfl⟩ := hd
    obtain ⟨-, -, _, _, _, hseek', rfl⟩ := hd'
    obtain ⟨rfl, rfl⟩ := EStateM.Result.ok.inj (hseek.symm.trans hseek')
    exact hsettles.met hread
  · obtain ⟨e, herror⟩ := openBlock_error hinfo fun d hd => hopens ⟨d, hd⟩
    rw [← hpos] at herror
    rw [herror]
    exact ⟨fun ⟨d, hd, _⟩ => absurd ⟨d, hd⟩ hopens, fun _ => ⟨_, _, rfl, rfl, hinfo⟩⟩

/-- A read within the data. -/
theorem settles_read (hs : Usable info s) (hmeasured : info.Measured)
    (hlt : s.underlayerPos < info.dataLength) (n : ℕ) :
    Settles info (MeetsRead info s n) (read n s) := by
  have hmax := hmeasured.maxUncompressedPos_eq
  obtain ⟨hinfo, hstands⟩ := hs
  have hmeets : ∀ {p : Prop}, (info.Measured → s.underlayerPos < info.dataLength → p) ↔ p :=
    ⟨fun h => h hmeasured hlt, fun h _ _ => h⟩
  rw [MeetsRead, hmeets]
  cases hstate : s.state with
  | ready inner =>
      rw [hstate] at hstands
      obtain ⟨k, hpos⟩ := hstands
      have hdiv : s.underlayerPos / uncompressedDataSize = k := by
        rw [hpos, Nat.mul_div_cancel_left k uncompressedDataSize_pos]
      dsimp only
      rw [hdiv]
      exact settles_ready hfills hlast 1 hinfo hmeasured hstate hpos hlt n
  | inData r size d =>
      rw [hstate] at hstands
      obtain ⟨k, hk, rfl, hpos, hr⟩ := hstands
      dsimp only
      by_cases hfull : r = info.blockSize k
      · have hsize := SizesInfo.blockSize_of_lt hk (by rwa [← hfull, ← hpos])
        have hnext : s.underlayerPos = uncompressedDataSize * (k + 1) := by
          rw [Nat.mul_succ]
          omega
        have hdiv : s.underlayerPos / uncompressedDataSize = k + 1 := by
          rw [hnext, Nat.mul_div_cancel_left _ uncompressedDataSize_pos]
        rw [if_pos hfull, hdiv, read, readLoop_full hinfo hmax hlt (by rw [hstate, hfull])]
        exact settles_ready (s := { s with state := .ready d.intoInner }) hfills hlast 0 hinfo
          hmeasured rfl hnext hlt n
      · rw [if_neg hfull, read, readLoop_inData hinfo hmax hlt hstate (by omega)]
        exact settles_readInData hfills hlast hinfo hmeasured hk hpos (by omega) n
  | empty =>
      rw [hstate] at hstands
      exact hstands.elim

variable [Patience]

omit hlast hfills in
/-- A seek that has not been refused at once. -/
theorem settles_seekStart (hs : Usable info s) (t : ℕ) :
    Settles info (∃ inner d r, s.state.intoInner = some inner ∧
        Opens info inner (t / uncompressedDataSize) d ∧
        copyTake (t % uncompressedDataSize) (d, (Sink.mk : Sink Error)) = .ok () r)
      (seekStart t s) := by
  obtain ⟨hinfo, hstands⟩ := hs
  obtain ⟨inner, hinner⟩ : ∃ inner, s.state.intoInner = some inner := by
    cases hstate : s.state with
    | ready inner => exact ⟨inner, rfl⟩
    | inData r size d => exact ⟨d.intoInner, rfl⟩
    | empty =>
        rw [hstate] at hstands
        exact hstands.elim
  have hsplit := Nat.div_add_mod t uncompressedDataSize
  have hrounded : t - t % uncompressedDataSize =
      uncompressedDataSize * (t / uncompressedDataSize) := by omega
  rw [seekStart, hinner]
  dsimp only
  rw [hrounded]
  by_cases hopens : ∃ d, Opens info inner (t / uncompressedDataSize) d
  · obtain ⟨d, hd⟩ := hopens
    have hunique : ∀ {d'}, Opens info inner (t / uncompressedDataSize) d' → d' = d := by
      rintro d' ⟨-, -, _, _, _, hseek', rfl⟩
      obtain ⟨-, -, _, _, _, hseek, rfl⟩ := hd
      obtain ⟨rfl, rfl⟩ := EStateM.Result.ok.inj (hseek.symm.trans hseek')
      rfl
    rw [hd.openBlock_eq hinfo]
    dsimp only
    cases hcopy : copyTake (t % uncompressedDataSize) (d, (Sink.mk : Sink Error)) with
    | ok u r =>
        refine ⟨fun _ => ⟨t, { s with
          state := .inData (t % uncompressedDataSize) (info.blockSize (t / uncompressedDataSize)) r.1
          underlayerPos := t }, rfl, hinfo, _, hd.2.2.1, rfl, hsplit.symm, ?_⟩, fun hnone => ?_⟩
        · have hmod : t % uncompressedDataSize < uncompressedDataSize := Nat.mod_lt _ uncompressedDataSize_pos
          have hend := SizesInfo.blockEnd_le hd.2.2.1
          change t % uncompressedDataSize ≤ info.blockSize (t / uncompressedDataSize) ∨
            info.dataLength ≤ t
          by_cases hlt : uncompressedDataSize * (t / uncompressedDataSize) +
              info.blockSize (t / uncompressedDataSize) < info.dataLength
          · have hsize := SizesInfo.blockSize_of_lt hd.2.2.1 hlt
            omega
          · omega
        · exact absurd ⟨inner, d, r, rfl, hd, hcopy⟩ hnone
    | error e r =>
        refine ⟨?_, fun _ => ⟨e, { s with state := .empty }, rfl, rfl, hinfo⟩⟩
        rintro ⟨inner', d', r', hinner', hd', hcopy'⟩
        obtain rfl := Option.some.inj hinner'
        rw [hunique hd', hcopy] at hcopy'
        cases hcopy'
  · obtain ⟨e, herror⟩ := openBlock_error hinfo fun d hd => hopens ⟨d, hd⟩
    rw [herror]
    refine ⟨?_, fun _ => ⟨_, { s with state := .empty }, rfl, rfl, hinfo⟩⟩
    rintro ⟨inner', d', -, hinner', hd', -⟩
    obtain rfl := Option.some.inj hinner'
    exact absurd ⟨d', hd'⟩ hopens

/-! ## Runs -/

/-- A call that meets the condition does not panic and keeps the invariant; when it fails it
changes nothing. -/
theorem answer_of_meets (hs : Usable info s) {call : ReaderCall} (h : Meets info s call) :
    (answer call s).1 ≠ .panicked ∧ Usable info (answer call s).2 ∧
      ((answer call s).1 = .failed → (answer call s).2 = s) := by
  have hsettled : ∀ {α : Type} {f : α → Answer} {p : Prop}
      {r : EStateM.Result (Failure (IoError Error)) (CompressionLayerReader σ) α},
      Settles info p r → p → (∀ a, f a ≠ .failed ∧ f a ≠ .panicked) →
      ∃ a s', r = .ok a s' ∧ f a ≠ .panicked ∧ Usable info s' ∧ (f a = .failed → s' = s) := by
    intro α f p r hr hp hf
    obtain ⟨a, s', hrun, hs'⟩ := hr.met hp
    exact ⟨a, s', hrun, (hf a).2, hs', fun hfailed => absurd hfailed (hf a).1⟩
  cases call with
  | read n =>
      rw [answer]
      by_cases hmeasured : info.Measured
      · have hmax := hmeasured.maxUncompressedPos_eq
        by_cases hlt : s.underlayerPos < info.dataLength
        · obtain ⟨bs, s', hrun, hs'⟩ := hsettled (f := .bytes)
            (settles_read hfills hlast hs hmeasured hlt n) h (fun bs => Answer.bytes_settled bs)
          rw [hrun]
          exact hs'
        · rw [read, readLoop_end hs.1 hmax (by omega)]
          exact ⟨(Answer.bytes_settled _).2, hs, fun _ => rfl⟩
      · obtain ⟨e, herror⟩ := SizesInfo.maxUncompressedPos_eq_error hmeasured
        have hpos : s.posInStream s.underlayerPos = .error e := by
          rw [posInStream, hs.1]
          dsimp only [bind, Except.bind]
          rw [herror]
        rw [read, readLoop]
        dsimp only
        rw [hpos]
        exact ⟨Answer.failed_ne_panicked, hs, fun _ => rfl⟩
  | seek w =>
      rw [answer]
      by_cases hstay : w = .current 0
      · rw [seek, hs.1]
        dsimp only
        rw [if_pos hstay]
        exact ⟨(Answer.position_settled _).2, hs, fun hfailed => absurd hfailed (Answer.position_settled _).1⟩
      · cases hasked : s.askedPosition info w with
        | error e =>
            rw [seek, hs.1]
            dsimp only
            rw [if_neg hstay, hasked]
            exact ⟨Answer.failed_ne_panicked, hs, fun _ => rfl⟩
        | ok t =>
            obtain ⟨pos, s', hrun, hs'⟩ := hsettled (f := .position) (settles_seekStart hs t)
              (h hstay t hasked) (fun pos => Answer.position_settled pos)
            rw [seek_eq hs.1 hstay hasked, hrun]
            exact hs'

/-- A call that does not meet the condition leaves nothing to read from. -/
theorem answer_of_not_meets (hs : Usable info s) {call : ReaderCall} (h : ¬ Meets info s call) :
    (answer call s).2.state = .empty ∧ (answer call s).2.sizesInfo = some info := by
  cases call with
  | read n =>
      obtain ⟨hmeasured, hlt⟩ : info.Measured ∧ s.underlayerPos < info.dataLength := by
        by_contra hout
        exact h fun hmeasured hlt => absurd ⟨hmeasured, hlt⟩ hout
      obtain ⟨e, s', hrun, hs'⟩ := (settles_read hfills hlast hs hmeasured hlt n).missed h
      rw [answer, hrun]
      exact hs'
  | seek w =>
      obtain ⟨hstay, t, hasked, hnone⟩ : w ≠ .current 0 ∧ ∃ t, s.askedPosition info w = .ok t ∧
          ¬ ∃ inner d r, s.state.intoInner = some inner ∧
            Opens info inner (t / uncompressedDataSize) d ∧
            copyTake (t % uncompressedDataSize) (d, (Sink.mk : Sink Error)) = .ok () r := by
        by_contra hall
        exact h fun hstay t hasked => by_contra fun hnone => hall ⟨hstay, t, hasked, hnone⟩
      obtain ⟨e, s', hrun, hs'⟩ := (settles_seekStart hs t).missed hnone
      rw [answer, seek_eq hs.1 hstay hasked, hrun]
      exact hs'

omit hfills hlast in
/-- Without a state the next seek panics. -/
theorem answer_of_empty (hinfo : s.sizesInfo = some info) (hstate : s.state = .empty) :
    (answer (.seek (.start 0)) s).1 = .panicked := by
  rw [answer, seek_eq hinfo (w := .start 0) nofun rfl, seekStart, hstate]
  rfl

/-- A run whose calls all meet the condition is not poisoned. -/
theorem Usable.unpoisoned {calls : List ReaderCall} (hs : Usable info s)
    (hmeets : AllMeet info calls s) : Unpoisoned calls s := by
  induction calls generalizing s with
  | nil => trivial
  | cons call calls ih =>
      obtain ⟨hmeet, hrest⟩ := hmeets
      obtain ⟨hpanic, hs', hsame⟩ := answer_of_meets hfills hlast hs hmeet
      have ih := ih hs' hrest
      cases call with
      | read n => exact ⟨hpanic, ih⟩
      | seek w =>
          refine ⟨hpanic, fun hfailed => ?_, ih⟩
          rw [hsame hfailed]
          exact ⟨rfl, fun _ => rfl⟩

/-- The first call that does not meet the condition is followed by a panic. -/
theorem Usable.poisoned {calls : List ReaderCall} (hs : Usable info s)
    (hmeets : ¬ AllMeet info calls s) :
    ∃ m, ¬ Unpoisoned (calls.take m ++ [.seek (.start 0)]) s := by
  induction calls generalizing s with
  | nil => exact absurd trivial hmeets
  | cons call calls ih =>
      have hrest : ∀ {later}, Unpoisoned (call :: later) s → Unpoisoned later (answer call s).2 := by
        intro later hunpoisoned
        cases call with
        | read n => exact hunpoisoned.2
        | seek w => exact hunpoisoned.2.2
      by_cases hmeet : Meets info s call
      · obtain ⟨-, hs', -⟩ := answer_of_meets hfills hlast hs hmeet
        obtain ⟨m, hm⟩ := ih hs' fun hall => hmeets ⟨hmeet, hall⟩
        exact ⟨m + 1, fun hunpoisoned => hm (hrest hunpoisoned)⟩
      · obtain ⟨hstate, hinfo⟩ := answer_of_not_meets hfills hlast hs hmeet
        refine ⟨1, fun hunpoisoned => ?_⟩
        exact (hrest hunpoisoned).1 (answer_of_empty hinfo hstate)

/-- In an initialised reader a run whose calls all meet the condition is not poisoned, and
after the first call that does not the next seek panics. -/
theorem unpoisoned_of_allMeet (inner : σ) (calls : List ReaderCall) :
    (AllMeet info calls ⟨.ready inner, some info, 0⟩ →
      Unpoisoned calls (⟨.ready inner, some info, 0⟩ : CompressionLayerReader σ)) ∧
    (¬ AllMeet info calls ⟨.ready inner, some info, 0⟩ →
      ∃ m, ¬ Unpoisoned (calls.take m ++ [.seek (.start 0)])
        (⟨.ready inner, some info, 0⟩ : CompressionLayerReader σ)) := by
  have hs : Usable info (⟨.ready inner, some info, 0⟩ : CompressionLayerReader σ) := ⟨rfl, 0, rfl⟩
  exact ⟨hs.unpoisoned hfills hlast, hs.poisoned hfills hlast⟩

end Reader

section Example

open StoredBrotli

/-- A reader of one block of three bytes. -/
def storedReader : CompressionLayerReader (Cursor Error) :=
  ⟨.ready ⟨store [1, 2, 3], 0⟩, some ⟨[8], 3⟩, 0⟩

/-- A read takes two of the bytes, and a seek goes back to the second. -/
theorem unpoisoned_of_allMeet_stored : Unpoisoned [.read 2, .seek (.start 1)] storedReader := by
  have hopens : ∀ k, k = 0 → Opens ⟨[8], 3⟩ (⟨store [1, 2, 3], 0⟩ : Cursor Error) k
      (.new ⟨store [1, 2, 3], 0⟩ 8) := by
    rintro k rfl
    exact ⟨⟨by decide, by decide⟩, by decide, by decide, 0, _, rfl, rfl⟩
  have hread : ∀ n, n = 2 → Decompresses
      (.new (⟨store [1, 2, 3], 0⟩ : Cursor Error) 8 : Decompressor (Cursor Error)) n := by
    rintro n rfl
    exact ⟨_, _, rfl⟩
  refine (unpoisoned_of_allMeet length_decode_le
    (show (⟨[8], 3⟩ : SizesInfo).lastBlockSize < u32Size by decide) _ _).1
      ⟨fun _ _ => ⟨_, hopens _ (by decide), hread _ (by decide)⟩, fun _ t ht => ?_, trivial⟩
  obtain rfl := Except.ok.inj ht
  exact ⟨_, _, _, rfl, hopens _ (by decide), rfl⟩

/-- A seek to behind the only block is refused, and the seek back panics. -/
theorem refusedSeek_poisons : ¬ ∀ calls, Unpoisoned calls storedReader := by
  intro hunpoisoned
  exact (hunpoisoned [.seek (.start 4194304), .seek (.start 0)]).2.2.1 rfl

end Example

end CompressionLayerReader

end Mla
