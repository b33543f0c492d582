import Mla.Layers.Traits
import Mla.Io.Yields

/-!
# Views on the source

The lowest layers of a reader. `RawLayerReader` is the source, with a place in it that counts
as position 0. `StripHeadTailReader` shows what the layer below holds between a head and a
tail: `strip S head tail` is what it stands for when the layer below stands for `S`.
-/

namespace Mla

open Io

class LayerReader (σ : Type) extends Read Error σ, Seek Error σ where
  initializeLayer : EStateM Error σ Unit

/-- `Error` of the kind that a bad argument of a seek makes. -/
def invalidInput : IoError Error := .kind .invalidInput

/-! ## The source -/

structure RawLayerReader (ρ : Type) where
  inner : ρ
  offsetPos : ℕ

namespace RawLayerReader

variable {ρ α : Type} [Read Error ρ] [Seek Error ρ]

def new (inner : ρ) : RawLayerReader ρ := ⟨inner, 0⟩

def onInner (x : Op Error ρ α) : Op Error (RawLayerReader ρ) α :=
  zoom RawLayerReader.inner (fun inner s => { s with inner := inner }) x

/-- The current position becomes position 0. -/
def resetPosition : Op Error (RawLayerReader ρ) Unit := do
  let position ← onInner (Seek.seek (.current 0))
  modify fun s => { s with offsetPos := position }

/-- A seek that may have gone to before position 0. -/
def seekWithin (askPos : SeekFrom) : Op Error (RawLayerReader ρ) ℕ := do
  let innerPos ← onInner (Seek.seek askPos)
  let s ← get
  if innerPos < s.offsetPos then do
    let _ ← onInner (Seek.seek (.start s.offsetPos))
    pure 0
  else
    okOr (checkedSub innerPos s.offsetPos) invalidInput

def seek : SeekFrom → Op Error (RawLayerReader ρ) ℕ
  | .start pos => do
      let s ← get
      let innerPos ← okOr (checkedAdd s.offsetPos pos) invalidInput
      let _ ← onInner (Seek.seek (.start innerPos))
      pure pos
  | .current d => seekWithin (.current d)
  | .fromEnd d => seekWithin (.fromEnd d)

instance instLayerReader : LayerReader (RawLayerReader ρ) where
  read n := onInner (Read.read n)
  seek := seek
  initializeLayer := pure ()

section Contract

variable {S : Bytes} {At : ρ → ℕ → Prop} {o : ℕ} {s s' : RawLayerReader ρ}

/-- The source stands `p` bytes behind what counts as its start. -/
def Behind (At : ρ → ℕ → Prop) (o : ℕ) (s : RawLayerReader ρ) (p : ℕ) : Prop :=
  At s.inner (o + p) ∧ s.offsetPos = o

/-- A seek that went to `u` below has gone to the same place here, or to position 0. -/
theorem seekWithin_ok (hmoves : Moves S At) {w : SeekFrom} {v : ℕ} {d : ℤ}
    (hseek : ∀ {inner u}, Seek.seek w s.inner = .ok u inner →
      (u : ℤ) = max 0 (o + d) ∧ At inner u)
    (hoffset : s.offsetPos = o) (h : seekWithin w s = .ok v s') :
    (v : ℤ) = max 0 d ∧ Behind At o s' v := by
  obtain ⟨u, s₁, hstep, hrest⟩ := bind_eq_ok.mp h
  obtain ⟨inner, hinner, rfl⟩ := zoom_eq_ok.mp hstep
  obtain ⟨hu, hat⟩ := hseek hinner
  simp only [bind_apply, get_apply, hoffset] at hrest
  split at hrest
  · rename_i hlt
    obtain ⟨v', s₂, hstep₂, hrest₂⟩ := bind_eq_ok.mp hrest
    obtain ⟨inner₂, hback, rfl⟩ := zoom_eq_ok.mp hstep₂
    obtain ⟨rfl, rfl⟩ := EStateM.Result.ok.inj hrest₂
    obtain ⟨-, hat₂⟩ := hmoves.seekStart hat hback
    refine ⟨?_, hat₂, rfl⟩
    rw [Nat.cast_zero]
    omega
  · rename_i hle
    rw [checkedSub_of_le (by omega)] at hrest
    obtain ⟨rfl, rfl⟩ := EStateM.Result.ok.inj hrest
    refine ⟨by omega, ?_, rfl⟩
    have hpos : o + (u - o) = u := by omega
    rw [hpos]
    exact hat

theorem initializeLayer_ok {s s' : RawLayerReader ρ} {o p : ℕ} (hs : Behind At o s p)
    (hrun : LayerReader.initializeLayer s = .ok () s') : Behind At o s' p := by
  obtain ⟨-, rfl⟩ := EStateM.Result.ok.inj hrun
  exact hs

theorem resetPosition_ok (h : Moves S At) {inner : ρ} (hinner : At inner o) {u : Unit}
    (hrun : resetPosition (new inner) = .ok u s') : Behind At o s' 0 := by
  obtain ⟨position, s₁, hstep, hrest⟩ := bind_eq_ok.mp hrun
  obtain ⟨inner₁, hseek, rfl⟩ := zoom_eq_ok.mp hstep
  obtain ⟨-, rfl⟩ := EStateM.Result.ok.inj hrest
  obtain ⟨hu, hat⟩ := h.seekCurrent hinner hseek
  obtain rfl : position = o := by omega
  exact ⟨hat, rfl⟩

theorem moves (h : Moves S At) (ho : o ≤ S.length) : Moves (S.drop o) (Behind At o) where
  read {s s' p n bs} hs hread := by
    change onInner (Read.read n) s = _ at hread
    obtain ⟨inner, hinner, rfl⟩ := zoom_eq_ok.mp hread
    obtain ⟨hbytes, hle, hstop, hat⟩ := h.read hs.1 hinner
    refine ⟨?_, hle, fun hnil => ?_, ?_, hs.2⟩
    · rwa [slice_drop]
    · rw [List.length_drop]
      rcases hstop hnil with h0 | hend
      · exact Or.inl h0
      · right
        omega
    · rwa [← Nat.add_assoc]
  interrupted {s s' p n e} hs hread hint := by
    change onInner (Read.read n) s = _ at hread
    obtain ⟨inner, hinner, rfl⟩ := zoom_eq_error.mp hread
    exact ⟨h.interrupted hs.1 hinner hint, hs.2⟩
  seekStart {s s' p t u} hs hseek := by
    change seek (.start t) s = _ at hseek
    simp only [seek, bind_apply, get_apply] at hseek
    cases hsum : checkedAdd s.offsetPos t with
    | none =>
        rw [hsum] at hseek
        cases hseek
    | some innerPos =>
        rw [hsum] at hseek
        obtain ⟨v, s₁, hstep, hrest⟩ := bind_eq_ok.mp hseek
        obtain ⟨inner, hinner, rfl⟩ := zoom_eq_ok.mp hstep
        obtain ⟨rfl, rfl⟩ := EStateM.Result.ok.inj hrest
        obtain ⟨-, hat⟩ := h.seekStart hs.1 hinner
        have hpos := checkedAdd_eq hsum
        rw [hs.2] at hpos
        refine ⟨rfl, ?_, hs.2⟩
        rwa [← hpos]
  seekCurrent {s s' p d u} hs hseek := by
    refine seekWithin_ok (d := p + d) h (fun hinner => ?_) hs.2 hseek
    obtain ⟨hu, hat⟩ := h.seekCurrent hs.1 hinner
    exact ⟨by omega, hat⟩
  seekEnd {s s' p d u} hs hseek := by
    refine seekWithin_ok h (fun hinner => ?_) hs.2 hseek
    obtain ⟨hu, hat⟩ := h.seekEnd hs.1 hinner
    rw [List.length_drop]
    exact ⟨by omega, hat⟩

variable {closed : Prop} {Live : ρ → Prop}

omit [Read Error ρ] in
/-- A seek that goes to where it is asked to, in a source that does. -/
theorem seekWithin_eq {w : SeekFrom} {t : ℕ} {inner : ρ} (hoffset : s.offsetPos = o)
    (hseek : Seek.seek w s.inner = .ok (o + t) inner) :
    seekWithin w s = .ok t { s with inner := inner } := by
  have hstep : onInner (Seek.seek w) s = .ok (o + t) { s with inner := inner } :=
    zoom_eq_ok.mpr ⟨inner, hseek, rfl⟩
  rw [seekWithin, bind_apply, hstep]
  dsimp only
  rw [get_bind]
  dsimp only
  rw [hoffset, if_neg (by omega), checkedSub_of_le (by omega), Nat.add_sub_cancel_left]
  rfl

omit [Read Error ρ] [Seek Error ρ] in
theorem target_of_drop {t : ℕ} (ho : o ≤ S.length) (ht : Target closed (S.drop o) t) :
    Target closed S (o + t) := by
  rcases ht with ht | ⟨hclosed, ht⟩
  · rw [List.length_drop] at ht
    exact Or.inl (by omega)
  · rw [List.length_drop] at ht
    exact Or.inr ⟨hclosed, by omega⟩

theorem isCursor (h : IsCursor closed S At Live) (ho : o ≤ S.length) (hS : S.length < u64Size) :
    IsCursor closed (S.drop o) (Behind At o) (fun s => Live s.inner ∧ s.offsetPos = o) where
  le {s p} hs := by
    have hle := h.le hs.1
    rw [List.length_drop]
    omega
  live hs := ⟨h.live hs.1, hs.2⟩
  progress {s p n} hs hp hn := by
    rw [List.length_drop] at hp ⊢
    obtain ⟨k, inner, hread, hk, hkn, hpk, hinner⟩ := h.progress hs.1
      (show o + p < S.length by omega) hn
    refine ⟨k, { s with inner := inner }, ?_, hk, hkn, by omega, ?_, hs.2⟩
    · rw [slice_drop]
      change onInner (Read.read n) s = _
      exact zoom_eq_ok.mpr ⟨inner, hread, rfl⟩
    · rwa [← Nat.add_assoc]
  stop {s p n} hclosed hs hstop := by
    rw [List.length_drop] at hstop
    have hle := h.le hs.1
    obtain ⟨inner, hread, hinner⟩ := h.stop (n := n) hclosed hs.1 (by omega)
    refine ⟨{ s with inner := inner }, ?_, hinner, hs.2⟩
    change onInner (Read.read n) s = _
    exact zoom_eq_ok.mpr ⟨inner, hread, rfl⟩
  seekStart {s t} hs ht := by
    have htarget := target_of_drop ho ht
    have hle := htarget.le
    obtain ⟨inner, hseek, hinner⟩ := h.seekStart hs.1 htarget
    refine ⟨{ s with inner := inner }, ?_, hinner, hs.2⟩
    have hstep : onInner (Seek.seek (.start (o + t))) s = .ok (o + t) { s with inner := inner } :=
      zoom_eq_ok.mpr ⟨inner, hseek, rfl⟩
    change seek (.start t) s = _
    rw [seek, get_bind, hs.2, checkedAdd_of_lt (by omega), okOr_some, pure_bind, bind_apply, hstep,
      hs.2]
    rfl
  seekEnd {s t} hs ht := by
    have htarget := target_of_drop ho ht
    obtain ⟨inner, hseek, hinner⟩ := h.seekEnd hs.1 htarget
    refine ⟨{ s with inner := inner }, ?_, hinner, hs.2⟩
    have hd : ((o + t : ℕ) : ℤ) - S.length = (t : ℤ) - (S.drop o).length := by
      rw [List.length_drop]
      omega
    rw [hd] at hseek
    exact seekWithin_eq hs.2 hseek
  seekCurrent {s p t} hs ht := by
    have htarget := target_of_drop ho ht
    obtain ⟨inner, hseek, hinner⟩ := h.seekCurrent hs.1 htarget
    refine ⟨{ s with inner := inner }, ?_, hinner, hs.2⟩
    have hd : ((o + t : ℕ) : ℤ) - (o + p : ℕ) = (t : ℤ) - p := by omega
    rw [hd] at hseek
    exact seekWithin_eq hs.2 hseek

end Contract

end RawLayerReader

/-! ## A view without head and tail -/

structure StripHeadTailReader (σ : Type) where
  inner : σ
  headLen : ℕ
  tailLen : ℕ
  innerLenInclHeadTail : ℕ
  currentPositionInThisLayer : ℕ

namespace StripHeadTailReader

variable {σ α : Type}

def new (inner : σ) (headLen tailLen innerLenInclHeadTail currentPositionInThisLayer : ℕ) :
    Except Error (StripHeadTailReader σ) := do
  let strippedLen ← orError (checkedAdd headLen tailLen) (.wrongReaderState "Internal error")
  if innerLenInclHeadTail < strippedLen then throw (.wrongReaderState "Internal error")
  else pure ⟨inner, headLen, tailLen, innerLenInclHeadTail, currentPositionInThisLayer⟩

def onInner {ε : Type} (x : EStateM ε σ α) : EStateM ε (StripHeadTailReader σ) α :=
  zoom StripHeadTailReader.inner (fun inner s => { s with inner := inner }) x

def tailOffsetFromInnerStart (s : StripHeadTailReader σ) : Option ℕ :=
  checkedSub s.innerLenInclHeadTail s.tailLen

def thisLayerLength (s : StripHeadTailReader σ) : Option ℕ :=
  (checkedSub s.innerLenInclHeadTail s.headLen).bind (checkedSub · s.tailLen)

section Seek

variable [Seek Error σ]

/-- Move the layer below, then the position in this one. -/
def moveTo (askedSeek : SeekFrom) (position : ℕ) : Op Error (StripHeadTailReader σ) ℕ := do
  let _ ← onInner (Seek.seek askedSeek)
  modify fun s => { s with currentPositionInThisLayer := position }
  pure position

def seek : SeekFrom → Op Error (StripHeadTailReader σ) ℕ
  | .start askedOffset => do
      let s ← get
      let newInnerPosition ← okOr (checkedAdd askedOffset s.headLen) invalidInput
      let tailOffset ← okOr s.tailOffsetFromInnerStart invalidInput
      if tailOffset < newInnerPosition then throw invalidInput
      else moveTo (.start newInnerPosition) askedOffset
  | .current askedOffset => do
      let s ← get
      let newPosition ←
        okOr (checkedAddSigned s.currentPositionInThisLayer askedOffset) invalidInput
      let length ← okOr s.thisLayerLength invalidInput
      if length < newPosition then throw invalidInput
      else moveTo (.current askedOffset) newPosition
  | .fromEnd askedOffset => do
      let s ← get
      let length ← okOr s.thisLayerLength invalidInput
      let newPosition ← okOr (checkedAddSigned length askedOffset) invalidInput
      if 0 < askedOffset then throw invalidInput
      else do
        let innerOffset ← okOr (i64CheckedSubUnsigned askedOffset s.tailLen) invalidInput
        moveTo (.fromEnd innerOffset) newPosition

end Seek

/-- `take(limit).read`: a reader that is used up is not asked. -/
def takeRead [Read Error σ] (limit n : ℕ) : Op Error σ Bytes :=
  if limit = 0 then pure [] else Read.read (min n limit)

def read [Read Error σ] (n : ℕ) : Op Error (StripHeadTailReader σ) Bytes := do
  let s ← get
  let length ← okOr s.thisLayerLength invalidInput
  let remaining ← okOr (checkedSub length s.currentPositionInThisLayer) invalidInput
  let bytes ← onInner (takeRead remaining n)
  let position ← okOr (checkedAdd s.currentPositionInThisLayer bytes.length) invalidInput
  modify fun s => { s with currentPositionInThisLayer := position }
  pure bytes

instance instLayerReader [LayerReader σ] : LayerReader (StripHeadTailReader σ) where
  read := read
  seek := seek
  initializeLayer := onInner LayerReader.initializeLayer

section Contract

variable {S : Bytes} {At : σ → ℕ → Prop} {headLen tailLen p : ℕ}
  {s s' : StripHeadTailReader σ}

/-- What is left of `S` without its head and its tail. -/
def strip (S : Bytes) (headLen tailLen : ℕ) : Bytes :=
  slice S headLen (S.length - headLen - tailLen)

theorem length_strip (S : Bytes) (headLen tailLen : ℕ) :
    (strip S headLen tailLen).length = S.length - headLen - tailLen := by
  rw [strip, length_slice]
  omega

/-- The layer below stands behind the head and `p` bytes. -/
structure Shows (S : Bytes) (At : σ → ℕ → Prop) (headLen tailLen : ℕ)
    (s : StripHeadTailReader σ) (p : ℕ) : Prop where
  inner : At s.inner (headLen + p)
  headLen_eq : s.headLen = headLen
  tailLen_eq : s.tailLen = tailLen
  innerLen : s.innerLenInclHeadTail = S.length
  position : s.currentPositionInThisLayer = p
  le : p ≤ S.length - headLen - tailLen

theorem new_ok {innerLen position : ℕ} {inner : σ}
    (h : new inner headLen tailLen innerLen position = .ok s) :
    headLen + tailLen ≤ innerLen ∧ s = ⟨inner, headLen, tailLen, innerLen, position⟩ := by
  obtain ⟨strippedLen, hsum, hrest⟩ := Except.bind_eq_ok.mp h
  have hsum := checkedAdd_eq (orError_eq_ok.mp hsum)
  split at hrest
  · cases hrest
  · obtain rfl := Except.ok.inj hrest
    exact ⟨by omega, rfl⟩

theorem new_eq {innerLen : ℕ} (hlen : headLen + tailLen ≤ innerLen) (hword : innerLen < u64Size)
    (inner : σ) (position : ℕ) :
    new inner headLen tailLen innerLen position = .ok ⟨inner, headLen, tailLen, innerLen, position⟩ := by
  refine Except.bind_eq_ok.mpr ⟨headLen + tailLen,
    orError_eq_ok.mpr (checkedAdd_of_lt (by omega)), ?_⟩
  rw [if_neg (by omega)]
  rfl

theorem Shows.thisLayerLength (h : Shows S At headLen tailLen s p)
    (hlen : headLen + tailLen ≤ S.length) :
    s.thisLayerLength = some (S.length - headLen - tailLen) := by
  rw [StripHeadTailReader.thisLayerLength, h.innerLen, h.headLen_eq, h.tailLen_eq,
    checkedSub_of_le (by omega), Option.bind_some, checkedSub_of_le (by omega)]

theorem Shows.moveTo_ok [Seek Error σ] (h : Shows S At headLen tailLen s p) {w : SeekFrom} {t u : ℕ}
    (ht : t ≤ S.length - headLen - tailLen)
    (hseek : ∀ {inner v}, Seek.seek w s.inner = .ok v inner → At inner (headLen + t))
    (hrun : moveTo w t s = .ok u s') : u = t ∧ Shows S At headLen tailLen s' t := by
  obtain ⟨v, s₁, hstep, hrest⟩ := bind_eq_ok.mp hrun
  obtain ⟨inner, hinner, rfl⟩ := zoom_eq_ok.mp hstep
  obtain ⟨rfl, rfl⟩ := EStateM.Result.ok.inj hrest
  exact ⟨rfl, hseek hinner, h.headLen_eq, h.tailLen_eq, h.innerLen, rfl, ht⟩

theorem Shows.takeRead_ok [LayerReader σ] (h : Moves S At) (hs : Shows S At headLen tailLen s p)
    {n : ℕ} {bs : Bytes} {inner : σ}
    (hrun : takeRead (S.length - headLen - tailLen - p) n s.inner = .ok bs inner) :
    bs = slice (strip S headLen tailLen) p bs.length ∧ bs.length ≤ n ∧
      p + bs.length ≤ S.length - headLen - tailLen ∧
      (bs = [] → n = 0 ∨ (strip S headLen tailLen).length ≤ p) ∧
      At inner (headLen + (p + bs.length)) := by
  have hle := hs.le
  rw [length_strip]
  rw [takeRead] at hrun
  split at hrun
  · obtain ⟨rfl, rfl⟩ := EStateM.Result.ok.inj hrun
    exact ⟨by rw [List.length_nil, slice_zero_length], Nat.zero_le _, hle,
      fun _ => Or.inr (by omega), hs.inner⟩
  · obtain ⟨hbytes, hlen, hstop, hat⟩ := h.read hs.inner hrun
    rw [Nat.add_assoc] at hat
    refine ⟨?_, by omega, by omega, fun hnil => ?_, hat⟩
    · rwa [strip, slice_slice_of_le (by omega)]
    · have := hstop hnil
      omega

theorem read_apply [Read Error σ] (h : Shows S At headLen tailLen s p) (hlen : headLen + tailLen ≤ S.length)
    (n : ℕ) :
    read n s = (do
      let bytes ← onInner (takeRead (S.length - headLen - tailLen - p) n)
      let position ← okOr (checkedAdd p bytes.length) invalidInput
      modify fun s => { s with currentPositionInThisLayer := position }
      pure bytes : Op Error (StripHeadTailReader σ) Bytes) s := by
  rw [read, get_bind, h.thisLayerLength hlen, okOr_some, pure_bind, h.position,
    checkedSub_of_le h.le, okOr_some, pure_bind]

theorem Shows.initializeLayer_ok [LayerReader σ]
    (h : ∀ {t t' : σ} {q : ℕ}, At t q → LayerReader.initializeLayer t = .ok () t' → At t' q)
    (hs : Shows S At headLen tailLen s p) (hrun : LayerReader.initializeLayer s = .ok () s') :
    Shows S At headLen tailLen s' p := by
  change onInner LayerReader.initializeLayer s = _ at hrun
  obtain ⟨inner, hinner, rfl⟩ := zoom_eq_ok.mp hrun
  exact ⟨h hs.inner hinner, hs.headLen_eq, hs.tailLen_eq, hs.innerLen, hs.position, hs.le⟩

/-- The view stands for what lies between head and tail. -/
theorem moves [LayerReader σ] (h : Moves S At) (hlen : headLen + tailLen ≤ S.length) :
    Moves (strip S headLen tailLen) (Shows S At headLen tailLen) where
  read {s s' p n bs} hs hread := by
    change read n s = _ at hread
    rw [read_apply hs hlen] at hread
    obtain ⟨bytes, s₁, hstep, hrest⟩ := bind_eq_ok.mp hread
    obtain ⟨inner, hinner, rfl⟩ := zoom_eq_ok.mp hstep
    obtain ⟨position, s₂, hposition, hset⟩ := bind_eq_ok.mp hrest
    obtain ⟨hsum, rfl⟩ := okOr_eq_ok.mp hposition
    obtain ⟨rfl, rfl⟩ := EStateM.Result.ok.inj hset
    obtain ⟨hbytes, hle, hend, hstop, hat⟩ := hs.takeRead_ok h hinner
    rw [checkedAdd_eq hsum]
    exact ⟨hbytes, hle, hstop, hat, hs.headLen_eq, hs.tailLen_eq, hs.innerLen, rfl, hend⟩
  interrupted {s s' p n e} hs hread hint := by
    change read n s = _ at hread
    rw [read_apply hs hlen] at hread
    rcases bind_eq_error.mp hread with hstep | ⟨bytes, s₁, -, hrest⟩
    · obtain ⟨inner, hinner, rfl⟩ := zoom_eq_error.mp hstep
      rw [takeRead] at hinner
      split at hinner
      · cases hinner
      · exact ⟨h.interrupted hs.inner hinner hint, hs.headLen_eq, hs.tailLen_eq, hs.innerLen,
          hs.position, hs.le⟩
    · rcases bind_eq_error.mp hrest with hposition | ⟨position, s₂, -, hset⟩
      · obtain ⟨-, rfl, -⟩ := okOr_eq_error.mp hposition
        cases hint
      · cases hset
  seekStart {s s' p t u} hs hseek := by
    change seek (.start t) s = _ at hseek
    rw [seek, get_bind] at hseek
    obtain ⟨innerPosition, s₁, hstep, hrest⟩ := bind_eq_ok.mp hseek
    obtain ⟨hsum, rfl⟩ := okOr_eq_ok.mp hstep
    obtain ⟨tailOffset, s₂, hstep₂, hrest₂⟩ := bind_eq_ok.mp hrest
    obtain ⟨hoffset, rfl⟩ := okOr_eq_ok.mp hstep₂
    have hpos := checkedAdd_eq hsum
    rw [tailOffsetFromInnerStart, hs.innerLen, hs.tailLen_eq, checkedSub_of_le (by omega)] at hoffset
    obtain rfl := Option.some.inj hoffset
    rw [hs.headLen_eq] at hpos
    split at hrest₂
    · cases hrest₂
    · refine hs.moveTo_ok (by omega) (fun hinner => ?_) hrest₂
      obtain ⟨-, hat⟩ := h.seekStart hs.inner hinner
      rwa [hpos, Nat.add_comm] at hat
  seekCurrent {s s' p d u} hs hseek := by
    change seek (.current d) s = _ at hseek
    rw [seek, get_bind, hs.thisLayerLength hlen] at hseek
    obtain ⟨position, s₁, hstep, hrest⟩ := bind_eq_ok.mp hseek
    obtain ⟨hsum, rfl⟩ := okOr_eq_ok.mp hstep
    have hposition := checkedAddSigned_eq hsum
    rw [hs.position] at hposition
    rw [okOr_some, pure_bind] at hrest
    split at hrest
    · cases hrest
    · have hgo : ∀ {inner v}, Seek.seek (.current d) s₁.inner = .ok v inner →
          At inner (headLen + position) := by
        intro inner v hinner
        obtain ⟨hv, hat⟩ := h.seekCurrent hs.inner hinner
        have hvpos : v = headLen + position := by omega
        rwa [← hvpos]
      obtain ⟨rfl, hshows⟩ := hs.moveTo_ok (by omega) hgo hrest
      exact ⟨by omega, hshows⟩
  seekEnd {s s' p d u} hs hseek := by
    change seek (.fromEnd d) s = _ at hseek
    rw [seek, get_bind, hs.thisLayerLength hlen, okOr_some, pure_bind, hs.tailLen_eq] at hseek
    obtain ⟨position, s₁, hstep, hrest⟩ := bind_eq_ok.mp hseek
    obtain ⟨hsum, rfl⟩ := okOr_eq_ok.mp hstep
    have hposition := checkedAddSigned_eq hsum
    split at hrest
    · cases hrest
    · obtain ⟨offset, s₂, hstep₂, hrest₂⟩ := bind_eq_ok.mp hrest
      obtain ⟨hoffset, rfl⟩ := okOr_eq_ok.mp hstep₂
      have hoffset := i64CheckedSubUnsigned_eq hoffset
      have hgo : ∀ {inner v}, Seek.seek (.fromEnd offset) s₂.inner = .ok v inner →
          At inner (headLen + position) := by
        intro inner v hinner
        obtain ⟨hv, hat⟩ := h.seekEnd hs.inner hinner
        have hvpos : v = headLen + position := by omega
        rwa [← hvpos]
      obtain ⟨rfl, hshows⟩ := hs.moveTo_ok (by omega) hgo hrest₂
      refine ⟨?_, hshows⟩
      rw [length_strip]
      omega

section Total

variable [LayerReader σ] {closed : Prop} {Live : σ → Prop}

/-- What a seek needs of the view. -/
structure Usable (S : Bytes) (Live : σ → Prop) (headLen tailLen : ℕ) (s : StripHeadTailReader σ) :
    Prop where
  inner : Live s.inner
  headLen_eq : s.headLen = headLen
  tailLen_eq : s.tailLen = tailLen
  innerLen : s.innerLenInclHeadTail = S.length

omit [LayerReader σ] in
theorem Usable.thisLayerLength (h : Usable S Live headLen tailLen s)
    (hlen : headLen + tailLen ≤ S.length) :
    s.thisLayerLength = some (S.length - headLen - tailLen) := by
  rw [StripHeadTailReader.thisLayerLength, h.innerLen, h.headLen_eq, h.tailLen_eq,
    checkedSub_of_le (by omega), Option.bind_some, checkedSub_of_le (by omega)]

theorem Usable.moveTo_eq (h : Usable S Live headLen tailLen s) {w : SeekFrom} {t u : ℕ} {inner : σ}
    (ht : t ≤ S.length - headLen - tailLen) (hseek : Seek.seek w s.inner = .ok u inner)
    (hinner : At inner (headLen + t)) :
    ∃ s', moveTo w t s = .ok t s' ∧ Shows S At headLen tailLen s' t := by
  have hstep : onInner (Seek.seek w) s = .ok u { s with inner := inner } :=
    zoom_eq_ok.mpr ⟨inner, hseek, rfl⟩
  refine ⟨{ s with inner := inner, currentPositionInThisLayer := t }, ?_, hinner, h.headLen_eq,
    h.tailLen_eq, h.innerLen, rfl, ht⟩
  rw [moveTo, bind_apply, hstep]
  rfl

omit [LayerReader σ] in
/-- A place in the view is one in the layer below. -/
theorem target_of_strip {t : ℕ} (hlen : headLen + tailLen ≤ S.length)
    (ht : Target closed (strip S headLen tailLen) t) :
    Target closed S (headLen + t) := by
  rcases ht with ht | ⟨hclosed, ht⟩
  · rw [length_strip] at ht
    exact Or.inl (by omega)
  · rw [length_strip] at ht
    rcases Nat.eq_zero_or_pos tailLen with hzero | hpos
    · exact Or.inr ⟨hclosed, by omega⟩
    · exact Or.inl (by omega)

theorem isCursor (h : IsCursor closed S At Live) (hlen : headLen + tailLen ≤ S.length)
    (hS : S.length < i64Size) :
    IsCursor closed (strip S headLen tailLen) (Shows S At headLen tailLen)
      (Usable S Live headLen tailLen) where
  le hs := by
    rw [length_strip]
    exact hs.le
  live hs := ⟨h.live hs.inner, hs.headLen_eq, hs.tailLen_eq, hs.innerLen⟩
  progress {s p n} hs hp hn := by
    have hword := i64Size_lt_u64Size
    rw [length_strip] at hp ⊢
    obtain ⟨k, inner, hread, hk, hkn, hpk, hinner⟩ := h.progress hs.inner
      (show headLen + p < S.length by omega)
      (show 0 < min n (S.length - headLen - tailLen - p) by omega)
    have hstep : onInner (takeRead (S.length - headLen - tailLen - p) n) s =
        .ok (slice S (headLen + p) k) { s with inner := inner } := by
      refine zoom_eq_ok.mpr ⟨inner, ?_, rfl⟩
      rw [takeRead, if_neg (by omega)]
      exact hread
    have hbytes : (slice S (headLen + p) k).length = k := length_slice_of_le hpk
    rw [Nat.add_assoc] at hinner
    refine ⟨k, { s with inner := inner, currentPositionInThisLayer := p + k }, ?_, hk, by omega,
      by omega, hinner, hs.headLen_eq, hs.tailLen_eq, hs.innerLen, rfl, by omega⟩
    change read n s = _
    rw [read_apply hs hlen, bind_apply, hstep]
    dsimp only
    rw [hbytes, checkedAdd_of_lt (by omega), okOr_some, pure_bind, strip,
      slice_slice_of_le (by omega)]
    rfl
  stop {s p n} hclosed hs hstop := by
    have hword := i64Size_lt_u64Size
    have hle := hs.le
    rw [length_strip] at hstop
    obtain ⟨inner, htake, hinner⟩ : ∃ inner,
        takeRead (S.length - headLen - tailLen - p) n s.inner = .ok [] inner ∧
          At inner (headLen + p) := by
      rw [takeRead]
      by_cases hzero : S.length - headLen - tailLen - p = 0
      · rw [if_pos hzero]
        exact ⟨s.inner, rfl, hs.inner⟩
      · obtain rfl : n = 0 := by omega
        rw [if_neg hzero, Nat.zero_min]
        exact h.stop hclosed hs.inner (Or.inl rfl)
    have hstep : onInner (takeRead (S.length - headLen - tailLen - p) n) s =
        .ok [] { s with inner := inner } := zoom_eq_ok.mpr ⟨inner, htake, rfl⟩
    refine ⟨{ s with inner := inner, currentPositionInThisLayer := p }, ?_, hinner, hs.headLen_eq,
      hs.tailLen_eq, hs.innerLen, rfl, hle⟩
    change read n s = _
    rw [read_apply hs hlen, bind_apply, hstep]
    dsimp only
    rw [List.length_nil, checkedAdd_of_lt (by omega), okOr_some, pure_bind]
    rfl
  seekStart {s t} hs ht := by
    have hword := i64Size_lt_u64Size
    have hle := ht.le
    rw [length_strip] at hle
    obtain ⟨inner, hseek, hinner⟩ := h.seekStart hs.inner (target_of_strip hlen ht)
    obtain ⟨s', hrun, hs'⟩ := hs.moveTo_eq hle hseek hinner
    refine ⟨s', ?_, hs'⟩
    change seek (.start t) s = _
    rw [seek, get_bind, hs.headLen_eq, checkedAdd_of_lt (by omega), okOr_some, pure_bind,
      tailOffsetFromInnerStart, hs.innerLen, hs.tailLen_eq, checkedSub_of_le (by omega), okOr_some,
      pure_bind, if_neg (by omega), Nat.add_comm t]
    exact hrun
  seekEnd {s t} hs ht := by
    have hword := i64Size_lt_u64Size
    have hle := ht.le
    rw [length_strip] at hle ⊢
    obtain ⟨inner, hseek, hinner⟩ := h.seekEnd hs.inner (target_of_strip hlen ht)
    obtain ⟨s', hrun, hs'⟩ := hs.moveTo_eq hle hseek hinner
    refine ⟨s', ?_, hs'⟩
    have hoffset : i64CheckedSubUnsigned ((t : ℤ) - (S.length - headLen - tailLen : ℕ)) tailLen =
        some (((headLen + t : ℕ) : ℤ) - S.length) := by
      have hd : (t : ℤ) - (S.length - headLen - tailLen : ℕ) - tailLen =
          ((headLen + t : ℕ) : ℤ) - S.length := by omega
      rw [i64CheckedSubUnsigned, hd, if_pos]
      exact ⟨by omega, by omega⟩
    change seek (.fromEnd _) s = _
    rw [seek, get_bind, hs.thisLayerLength hlen, okOr_some, pure_bind,
      checkedAddSigned_of_range (by omega) (by omega), okOr_some, pure_bind, if_neg (by omega),
      hs.tailLen_eq, hoffset, okOr_some, pure_bind,
      show ((S.length - headLen - tailLen : ℕ) : ℤ) + ((t : ℤ) - (S.length - headLen - tailLen : ℕ)) =
        t by omega, Int.toNat_natCast]
    exact hrun
  seekCurrent {s p t} hs ht := by
    have hword := i64Size_lt_u64Size
    have hle := ht.le
    have hp := hs.le
    rw [length_strip] at hle
    have hd : ((headLen + t : ℕ) : ℤ) - (headLen + p : ℕ) = (t : ℤ) - p := by omega
    obtain ⟨inner, hseek, hinner⟩ := h.seekCurrent hs.inner (target_of_strip hlen ht)
    rw [hd] at hseek
    have husable : Usable S Live headLen tailLen s :=
      ⟨h.live hs.inner, hs.headLen_eq, hs.tailLen_eq, hs.innerLen⟩
    obtain ⟨s', hrun, hs'⟩ := husable.moveTo_eq hle hseek hinner
    refine ⟨s', ?_, hs'⟩
    change seek (.current _) s = _
    rw [seek, get_bind, hs.position, checkedAddSigned_of_range (by omega) (by omega), okOr_some,
      pure_bind, hs.thisLayerLength hlen, okOr_some, pure_bind,
      show (p : ℤ) + ((t : ℤ) - p) = t by omega, Int.toNat_natCast, if_neg (by omega)]
    exact hrun

end Total

end Contract

end StripHeadTailReader

end Mla
