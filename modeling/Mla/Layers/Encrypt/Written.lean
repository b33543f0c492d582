import Mla.Layers.Encrypt.Writer

/-!
# What the encryption layer has written

However the plaintext is cut into buffers, and whatever part of a buffer the layer below
takes at a time, the layer writes the stream of the plaintext: `Opened s P i` says that the
writer is in chunk `i` with the plaintext `P`, and holds from one call to the next.
-/

namespace Mla

open Io
open InternalEncryptionConfig (chunkHead)

namespace InternalEncryptionLayerWriter

variable {ω W α ε : Type} {s s' : InternalEncryptionLayerWriter ω}

/-! ## Operations on the layer below -/

theorem onInner_eq (x : EStateM ε ω α) (s : InternalEncryptionLayerWriter ω) :
    onInner x s =
      match x s.inner with
      | .ok a inner => .ok a { s with inner := inner }
      | .error e inner => .error e { s with inner := inner } := by
  unfold onInner zoom
  cases x s.inner <;> rfl

section Inner

variable [Write Error ω] {Got : ω → Bytes → Prop} {x : EStateM ε ω α} {bs acc : Bytes} {a : α}

theorem onInner_ok (hx : Emits x bs a) (happ : Appends Got) (hs : Got s.inner acc) {a' : α}
    (h : onInner x s = .ok a' s') :
    a' = a ∧ ∃ inner, s' = { s with inner := inner } ∧ Got inner (acc ++ bs) := by
  rw [onInner_eq] at h
  cases hrun : x s.inner with
  | ok a₁ inner =>
      rw [hrun] at h
      obtain ⟨rfl, rfl⟩ := EStateM.Result.ok.inj h
      obtain ⟨rfl, hgot⟩ := hx.ok happ hs hrun
      exact ⟨rfl, inner, rfl, hgot⟩
  | error e inner =>
      rw [hrun] at h
      cases h

theorem onInner_accept (hx : Emits x bs a) (happ : Appends Got) {n : ℕ}
    (haccepts : Accepts n Got) (hs : Got s.inner acc) (hn : acc.length + bs.length ≤ n)
    (hlen : bs.length < u64Size) :
    ∃ inner, onInner x s = .ok a { s with inner := inner } ∧ Got inner (acc ++ bs) := by
  obtain ⟨inner, hrun⟩ := hx.accept happ haccepts hs hn hlen
  obtain ⟨-, hgot⟩ := hx.ok happ hs hrun
  exact ⟨inner, by rw [onInner_eq, hrun], hgot⟩

/-- An operation that succeeds, followed by others that do. -/
theorem onInner_bind_accept {β : Type} {f : α → EStateM ε (InternalEncryptionLayerWriter ω) β}
    {b : β} (hx : Emits x bs a) (happ : Appends Got) {n : ℕ} (haccepts : Accepts n Got)
    (hs : Got s.inner acc) (hn : acc.length + bs.length ≤ n) (hlen : bs.length < u64Size)
    (hf : ∀ inner, Got inner (acc ++ bs) → ∃ s', f a { s with inner := inner } = .ok b s') :
    ∃ s', (onInner x >>= f) s = .ok b s' := by
  obtain ⟨inner, hrun, hgot⟩ := onInner_accept hx happ haccepts hs hn hlen
  obtain ⟨s', hrest⟩ := hf inner hgot
  exact ⟨s', bind_eq_ok.mpr ⟨a, _, hrun, hrest⟩⟩

end Inner

/-- Operations on the layer below make one operation on it. -/
theorem onInner_bind {β : Type} (x : EStateM ε ω α) (f : α → EStateM ε ω β) :
    (onInner x >>= fun a => onInner (f a)) = onInner (x >>= f) := by
  funext s
  rw [bind_apply, onInner_eq, onInner_eq, bind_apply]
  cases x s.inner with
  | ok a inner => exact onInner_eq (f a) _
  | error e inner => rfl

/-! ## Chunks of a growing plaintext -/

section Chunks

variable [AesGcm] {config : InternalEncryptionConfig} {P Q : Bytes} {i j m : ℕ}

omit [AesGcm] in
theorem length_chunkData_eq (h : m + 131072 * i = P.length) (hm : m ≤ 131072) :
    (chunkData P i).length = m := by
  rw [chunkData, normalChunkPtSize_eq, length_slice]
  omega

omit [AesGcm] in
/-- A chunk that is not complete yet grows with the plaintext. -/
theorem chunkData_append (h : m + 131072 * i = P.length) (hm : m + Q.length ≤ 131072) :
    chunkData (P ++ Q) i = chunkData P i ++ Q := by
  rw [chunkData, chunkData, normalChunkPtSize_eq, slice, slice,
    List.drop_append_of_le_length (by omega), List.take_of_length_le, List.take_of_length_le]
  · rw [List.length_drop]
    omega
  · rw [List.length_append, List.length_drop]
    omega

omit [AesGcm] in
theorem chunkData_append_of_lt (h : m + 131072 * i = P.length) (hj : j < i) :
    chunkData (P ++ Q) j = chunkData P j := by
  rw [chunkData, chunkData, normalChunkPtSize_eq, slice_append_left]
  omega

theorem frontChunks_append (h : m + 131072 * i = P.length) :
    config.frontChunks (P ++ Q) i = config.frontChunks P i := by
  rw [InternalEncryptionConfig.frontChunks, InternalEncryptionConfig.frontChunks]
  refine List.flatMap_congr fun j hj => ?_
  rw [chunkData_append_of_lt h (List.mem_range.mp hj)]

theorem frontChunks_succ (P : Bytes) (i : ℕ) :
    config.frontChunks P (i + 1) =
      config.frontChunks P i ++ config.encChunk i (chunkData P i) := by
  rw [InternalEncryptionConfig.frontChunks, InternalEncryptionConfig.frontChunks,
    List.range_succ, List.flatMap_append, List.flatMap_singleton]

theorem encChunk_eq_append (i : ℕ) (data : Bytes) :
    config.encChunk i data = chunkHead i ++ ((config.chunkCipher i).encrypt data).1 ++
      ((config.chunkCipher i).encrypt data).2.intoTag.toList := by
  rw [InternalEncryptionConfig.encChunk, InternalEncryptionConfig.sealWith, List.append_assoc]

theorem length_frontChunks_of_le (h : 131072 * i ≤ P.length) :
    (config.frontChunks P i).length = 131104 * i := by
  refine length_flatMap_range fun j hj => ?_
  rw [InternalEncryptionConfig.length_encChunk, chunkData, normalChunkPtSize_eq, length_slice]
  omega

variable (config) in
/-- What has been written when chunk `i` is open. -/
theorem length_open (h : m + 131072 * i = P.length) (hm : m ≤ 131072) :
    (config.frontChunks P i ++
      (chunkHead i ++ ((config.chunkCipher i).encrypt (chunkData P i)).1)).length =
      P.length + 32 * i + 16 := by
  have hdata := length_chunkData_eq h hm
  have hct : ((config.chunkCipher i).encrypt (chunkData P i)).1.length = m := by
    simp [AesGcm256.encrypt, hdata]
  rw [List.length_append, List.length_append, length_frontChunks_of_le (by omega), hct,
    InternalEncryptionConfig.length_chunkHead]
  omega

omit [AesGcm] in
/-- The chunk that is open is the last one when it is the first, or holds something. -/
theorem lastChunk_eq (h : m + 131072 * i = P.length) (hm : m ≤ 131072) (hpos : i = 0 ∨ 0 < m) :
    lastChunk P = i := by
  obtain ⟨hfirst, hlast, hin⟩ := lastChunk_spec P
  by_cases hP : P = []
  · subst hP
    rw [List.length_nil] at h hfirst
    omega
  · have := hin hP
    omega

end Chunks

/-! ## Steps of a call -/

section Step

variable [Patience] [AesGcm] [Write Error ω] {config : InternalEncryptionConfig}
  {Got : ω → Bytes → Prop} {base P buf : Bytes} {i k n : ℕ}

/-- The writer has been given `P`, of which the chunks before chunk `i` are complete, and
chunk `i` is open. -/
structure Opened (config : InternalEncryptionConfig) (Got : ω → Bytes → Prop) (base : Bytes)
    (s : InternalEncryptionLayerWriter ω) (P : Bytes) (i : ℕ) : Prop where
  key : s.key = config.key
  baseNonce : s.baseNonce = config.nonce
  ctr : s.currentCtr = i + 1
  offset : s.currentChunkOffset + 131072 * i = P.length
  le : s.currentChunkOffset ≤ 131072
  cipher : s.cipher = ((config.chunkCipher i).encrypt (chunkData P i)).2
  inner : Got s.inner (base ++ (config.frontChunks P i ++
    (chunkHead i ++ ((config.chunkCipher i).encrypt (chunkData P i)).1)))

/-- The state behind a context that has given its tag. -/
def renewed (s : InternalEncryptionLayerWriter ω) (aad : Bytes) :
    InternalEncryptionLayerWriter ω :=
  { s with
    currentCtr := s.currentCtr + 1
    currentChunkOffset := 0
    cipher := AesGcm256.new s.key (computeNonce s.baseNonce (s.currentCtr + 1)) aad
    retired := s.retired ++ [s.cipher] }

omit [Patience] [Write Error ω] in
theorem renewCipherAad_eq (aad : Bytes) (s : InternalEncryptionLayerWriter ω) :
    renewCipherAad aad s =
      if s.currentCtr + 1 < u64Size then .ok s.cipher.intoTag (s.renewed aad)
      else .error .hpkeError s := by
  rw [renewCipherAad, checkedAdd]
  by_cases h : s.currentCtr + 1 < u64Size
  · rw [if_pos h, if_pos h]
    rfl
  · rw [if_neg h, if_neg h]

/-- What is written between two chunks. -/
def betweenChunks (tag : Tag) (ctr : ℕ) : Op Error ω Unit := do
  writeAll tag.toList
  writeAll chunkMagic
  let _ ← intoIo (serializeU64 ctr)
  pure ()

omit [AesGcm] in
theorem emits_betweenChunks (tag : Tag) (ctr : ℕ) :
    Emits (betweenChunks tag ctr : Op Error ω Unit)
      (tag.toList ++ (chunkMagic ++ leBytes 8 ctr)) () :=
  (Emits.writeAll _).seq ((Emits.writeAll _).seq
    ((((emits_u64 ctr).mapError _).bind (Emits.pure ())).cast (List.append_nil _) rfl))

theorem nextChunk_eq (s : InternalEncryptionLayerWriter ω) :
    nextChunk s =
      if s.currentCtr + 1 < u64Size then
        onInner (betweenChunks s.cipher.intoTag (s.currentCtr + 1)) (s.renewed associatedData)
      else .error (.other .hpkeError) s := by
  rw [nextChunk, bind_apply, intoIo_apply, renewCipher, renewCipherAad_eq]
  by_cases h : s.currentCtr + 1 < u64Size
  · rw [if_pos h, if_pos h, betweenChunks]
    simp only [bind_apply, onInner_eq, intoIo_apply, get_apply, pure_apply]
    cases htag : writeAll s.cipher.intoTag.toList (s.renewed associatedData).inner with
    | error e inner => simp only
    | ok u inner =>
        cases hmagic : writeAll chunkMagic inner with
        | error e inner => simp only [hmagic]
        | ok u inner =>
            cases hctr : (serializeU64 (s.currentCtr + 1) : EStateM Error ω ℕ) inner with
            | error e inner => simp only [hmagic, renewed, hctr]
            | ok m inner => simp only [hmagic, renewed, hctr]
  · rw [if_neg h, if_neg h]

theorem Opened.nextChunk_ok (happ : Appends Got) (h : Opened config Got base s P i)
    (hfull : s.currentChunkOffset = 131072) {u : Unit} (hrun : nextChunk s = .ok u s') :
    Opened config Got base s' P (i + 1) := by
  have hoffset := h.offset
  have hnil : chunkData P (i + 1) = [] := by
    rw [← List.length_eq_zero_iff, length_chunkData_eq (m := 0) (by omega) (by omega)]
  rw [nextChunk_eq] at hrun
  by_cases hctr : s.currentCtr + 1 < u64Size
  · rw [if_pos hctr] at hrun
    have hinner : Got (s.renewed associatedData).inner _ := h.inner
    obtain ⟨-, inner, rfl, hgot⟩ := onInner_ok (emits_betweenChunks _ _) happ hinner hrun
    refine ⟨h.key, h.baseNonce, ?_, ?_, Nat.zero_le _, ?_, ?_⟩
    · change s.currentCtr + 1 = i + 1 + 1
      rw [h.ctr]
    · change 0 + 131072 * (i + 1) = P.length
      omega
    · change AesGcm256.new s.key (computeNonce s.baseNonce (s.currentCtr + 1)) associatedData = _
      rw [hnil, AesGcm256.encrypt_nil, h.key, h.baseNonce, h.ctr]
      rfl
    · have htext : base ++ (config.frontChunks P (i + 1) ++
          (chunkHead (i + 1) ++ ((config.chunkCipher (i + 1)).encrypt (chunkData P (i + 1))).1)) =
          base ++ (config.frontChunks P i ++
            (chunkHead i ++ ((config.chunkCipher i).encrypt (chunkData P i)).1)) ++
            (s.cipher.intoTag.toList ++ (chunkMagic ++ leBytes 8 (s.currentCtr + 1))) := by
        have hhead : chunkHead (i + 1) = chunkMagic ++ leBytes 8 (i + 1 + 1) := (rfl)
        rw [hnil, AesGcm256.encrypt_nil, frontChunks_succ, encChunk_eq_append, h.cipher, h.ctr,
          hhead]
        simp only [List.append_assoc, List.append_nil]
      rw [htext]
      exact hgot
  · rw [if_neg hctr] at hrun
    cases hrun

theorem Opened.nextChunk_accept (happ : Appends Got) (haccepts : Accepts n Got)
    (h : Opened config Got base s P i) (hctr : i + 2 < u64Size)
    (hn : base.length + P.length + 32 * i + 48 ≤ n) : ∃ s', nextChunk s = .ok () s' := by
  have hinner : Got (s.renewed associatedData).inner _ := h.inner
  rw [nextChunk_eq, if_pos (by rw [h.ctr]; exact hctr)]
  have hlen : (s.cipher.intoTag.toList ++
      (chunkMagic ++ leBytes 8 (s.currentCtr + 1))).length = 32 := by
    rw [List.length_append, List.length_append, length_chunkMagic, length_leBytes,
      Vector.length_toList, tagLength_eq]
  obtain ⟨inner, hrun, -⟩ := onInner_accept (emits_betweenChunks _ _) happ haccepts hinner
    (by rw [List.length_append, length_open config h.offset h.le, hlen]; omega)
    (by rw [hlen, u64Size_eq]; omega)
  exact ⟨_, hrun⟩

theorem writeInChunk_eq (hle : s.currentChunkOffset ≤ 131072) :
    writeInChunk buf s =
      let size := min (min 4096 buf.length) (131072 - s.currentChunkOffset)
      match onInner (writeAll (s.cipher.encrypt (buf.take size)).1)
          { s with cipher := (s.cipher.encrypt (buf.take size)).2 } with
      | .ok _ s' => .ok size { s' with currentChunkOffset := s.currentChunkOffset + size }
      | .error e s' => .error e s' := by
  have hcipher : cipherBufSize = 4096 := rfl
  rw [writeInChunk]
  simp only [bind_apply, get_apply, normalChunkPtSize_eq, checkedSub_of_le hle, okOr_some,
    pure_apply, modify_apply, hcipher, onInner_eq]
  cases writeAll (s.cipher.encrypt (buf.take (min (min 4096 buf.length)
      (131072 - s.currentChunkOffset)))).1 s.inner with
  | error e inner => rfl
  | ok u inner =>
      have hsum : checkedAdd s.currentChunkOffset (min (min 4096 buf.length)
          (131072 - s.currentChunkOffset)) = some (s.currentChunkOffset +
            min (min 4096 buf.length) (131072 - s.currentChunkOffset)) :=
        checkedAdd_of_lt (by rw [u64Size_eq]; omega)
      simp only [hsum, okOr_some, pure_apply]

/-- The plaintext that a call takes goes into the open chunk. -/
theorem Opened.writeInChunk_ok (happ : Appends Got) (h : Opened config Got base s P i)
    (hrun : writeInChunk buf s = .ok k s') :
    k = min (min 4096 buf.length) (131072 - s.currentChunkOffset) ∧
      Opened config Got base s' (P ++ buf.take k) i := by
  have hoffset := h.offset
  have hle := h.le
  rw [writeInChunk_eq h.le] at hrun
  generalize hsize : min (min 4096 buf.length) (131072 - s.currentChunkOffset) = size at hrun
  have htake : (buf.take size).length = size := by
    rw [List.length_take]
    omega
  have hdata : chunkData (P ++ buf.take size) i = chunkData P i ++ buf.take size :=
    chunkData_append hoffset (by omega)
  have hpiece := (config.chunkCipher i).encrypt_append (chunkData P i) (buf.take size)
  rw [← h.cipher] at hpiece
  have hinner : Got ({ s with cipher := (s.cipher.encrypt (buf.take size)).2 } :
      InternalEncryptionLayerWriter ω).inner _ := h.inner
  cases hwrite : onInner (writeAll (s.cipher.encrypt (buf.take size)).1)
      { s with cipher := (s.cipher.encrypt (buf.take size)).2 } with
  | error e s₁ =>
      simp only [hwrite] at hrun
      cases hrun
  | ok u s₁ =>
      simp only [hwrite] at hrun
      obtain ⟨rfl, rfl⟩ := EStateM.Result.ok.inj hrun
      obtain ⟨-, inner, rfl, hgot⟩ := onInner_ok (Emits.writeAll _) happ hinner hwrite
      refine ⟨rfl, h.key, h.baseNonce, h.ctr, ?_, ?_, ?_, ?_⟩
      · change s.currentChunkOffset + size + 131072 * i = _
        rw [List.length_append, htake]
        omega
      · change s.currentChunkOffset + size ≤ 131072
        omega
      · change (s.cipher.encrypt (buf.take size)).2 = _
        rw [hdata, hpiece]
      · have htext : base ++ (config.frontChunks (P ++ buf.take size) i ++ (chunkHead i ++
            ((config.chunkCipher i).encrypt (chunkData (P ++ buf.take size) i)).1)) =
            base ++ (config.frontChunks P i ++
              (chunkHead i ++ ((config.chunkCipher i).encrypt (chunkData P i)).1)) ++
              (s.cipher.encrypt (buf.take size)).1 := by
          rw [hdata, hpiece, frontChunks_append hoffset]
          simp only [List.append_assoc]
        rw [htext]
        exact hgot

variable (buf) in
theorem Opened.writeInChunk_accept (happ : Appends Got) (haccepts : Accepts n Got)
    (h : Opened config Got base s P i)
    (hn : base.length + P.length + buf.length + 32 * i + 16 ≤ n) :
    ∃ k s', writeInChunk buf s = .ok k s' := by
  rw [writeInChunk_eq h.le]
  generalize hsize : min (min 4096 buf.length) (131072 - s.currentChunkOffset) = size
  have hlen : (s.cipher.encrypt (buf.take size)).1.length = size := by
    simp only [AesGcm256.encrypt, length_applyKeystream, List.length_take]
    omega
  have hinner : Got ({ s with cipher := (s.cipher.encrypt (buf.take size)).2 } :
      InternalEncryptionLayerWriter ω).inner _ := h.inner
  obtain ⟨inner, hrun, -⟩ := onInner_accept
    (Emits.writeAll (s.cipher.encrypt (buf.take size)).1) happ haccepts hinner
    (by rw [List.length_append, length_open config h.offset h.le, hlen]; omega)
    (by rw [hlen, u64Size_eq]; omega)
  refine ⟨size, ?_⟩
  simp only [hrun]
  exact ⟨_, rfl⟩

omit [Patience] [AesGcm] [Write Error ω] in
theorem neverInterrupted_intoIo {σ : Type} (x : EStateM Error σ α) :
    NeverInterrupted (intoIo x) := by
  intro s e s' h
  rw [intoIo_apply] at h
  cases hrun : x s with
  | ok a s₁ =>
      rw [hrun] at h
      cases h
  | error e₁ s₁ =>
      rw [hrun] at h
      obtain ⟨rfl, -⟩ := EStateM.Result.error.inj h
      rfl

theorem neverInterrupted_nextChunk :
    NeverInterrupted (nextChunk : Op Error (InternalEncryptionLayerWriter ω) Unit) :=
  (neverInterrupted_intoIo _).bind fun _ =>
    (NeverInterrupted.writeAll _).zoom.bind fun _ =>
      (NeverInterrupted.writeAll _).zoom.bind fun _ =>
        NeverInterrupted.getState.bind fun _ =>
          (neverInterrupted_intoIo _).bind fun _ => .pure _

theorem neverInterrupted_writeInChunk (buf : Bytes) :
    NeverInterrupted (writeInChunk buf : Op Error (InternalEncryptionLayerWriter ω) ℕ) := by
  have hokOr : ∀ (o : Option ℕ) msg, NeverInterrupted
      (okOr o (ioOther msg) : Op Error (InternalEncryptionLayerWriter ω) ℕ) := by
    intro o msg s e s' h
    cases o with
    | none =>
        obtain ⟨rfl, -⟩ := EStateM.Result.error.inj h
        rfl
    | some k => cases h
  exact NeverInterrupted.getState.bind fun _ => (hokOr _ _).bind fun _ =>
    (NeverInterrupted.modifyState _).bind fun _ => (NeverInterrupted.writeAll _).zoom.bind fun _ =>
      NeverInterrupted.getState.bind fun _ => (hokOr _ _).bind fun _ =>
        (NeverInterrupted.modifyState _).bind fun _ => .pure _

theorem neverInterrupted_write (buf : Bytes) :
    NeverInterrupted (write buf : Op Error (InternalEncryptionLayerWriter ω) ℕ) := by
  intro s e s' h
  rw [write] at h
  split at h
  · obtain ⟨rfl, -⟩ := EStateM.Result.error.inj h
    rfl
  · split at h
    · exact (neverInterrupted_nextChunk.bind fun _ => neverInterrupted_writeInChunk buf) _ _ _ h
    · exact neverInterrupted_writeInChunk buf _ _ _ h

end Step

/-! ## Calls -/

section Calls

variable [Patience] [AesGcm] [Write Error ω] {config : InternalEncryptionConfig}
  {Got : ω → Bytes → Prop} {base P buf : Bytes} {i k n : ℕ}

/-- The writer has been given `P`. -/
def Keeps (config : InternalEncryptionConfig) (Got : ω → Bytes → Prop) (base : Bytes)
    (s : InternalEncryptionLayerWriter ω) (P : Bytes) : Prop :=
  Opened config Got base s P (lastChunk P)

theorem Keeps.write_ok (happ : Appends Got) (h : Keeps config Got base s P) (hne : buf ≠ [])
    (hrun : write buf s = .ok k s') :
    k ≤ buf.length ∧ Keeps config Got base s' (P ++ buf.take k) := by
  have hle := Opened.le h
  have hpos := List.length_pos_iff.mpr hne
  rw [write, normalChunkPtSize_eq, if_neg (by omega)] at hrun
  by_cases hfull : s.currentChunkOffset = 131072
  · rw [if_pos hfull] at hrun
    obtain ⟨u, s₁, hnext, hrun⟩ := bind_eq_ok.mp hrun
    have hopen := Opened.nextChunk_ok happ h hfull hnext
    obtain ⟨hk, hopen'⟩ := hopen.writeInChunk_ok happ hrun
    have hoffset := Opened.offset h
    have hoffset₁ := hopen.offset
    have hoffset' := hopen'.offset
    rw [List.length_append, List.length_take] at hoffset'
    refine ⟨by omega, ?_⟩
    rw [Keeps, lastChunk_eq hopen'.offset hopen'.le (Or.inr (by omega))]
    exact hopen'
  · rw [if_neg hfull] at hrun
    obtain ⟨hk, hopen'⟩ := Opened.writeInChunk_ok happ h hrun
    have hoffset := Opened.offset h
    have hoffset' := hopen'.offset
    rw [List.length_append, List.length_take] at hoffset'
    refine ⟨by omega, ?_⟩
    rw [Keeps, lastChunk_eq hopen'.offset hopen'.le (Or.inr (by omega))]
    exact hopen'

/-- What the writer is given is a byte string that it keeps. -/
theorem appends (happ : Appends Got) :
    Appends (Keeps config Got base : InternalEncryptionLayerWriter ω → Bytes → Prop) where
  ok hs hne hrun := Keeps.write_ok happ hs hne hrun
  interrupted _ _ hrun hint := by
    rw [neverInterrupted_write _ _ _ _ hrun] at hint
    cases hint

theorem accepts (happ : Appends Got) {m : ℕ} (haccepts : Accepts m Got) (hn : n < i64Size)
    (hm : base.length + 2 * n + 131104 ≤ m) :
    Accepts n (Keeps config Got base : InternalEncryptionLayerWriter ω → Bytes → Prop) := by
  intro s P buf h hne hlen
  rw [i64Size_eq] at hn
  have hle := Opened.le h
  have hoffset := Opened.offset h
  have hpos := List.length_pos_iff.mpr hne
  have hsize : ∀ {m}, min (min 4096 buf.length) (131072 - m) = 0 → 131072 ≤ m := by omega
  change ∃ k s', write buf s = .ok k s' ∧ 0 < k
  rw [write, normalChunkPtSize_eq, if_neg (by omega)]
  by_cases hfull : s.currentChunkOffset = 131072
  · rw [if_pos hfull]
    obtain ⟨s₁, hnext⟩ := Opened.nextChunk_accept happ haccepts h
      (by rw [u64Size_eq]; omega) (by omega)
    have hopen := Opened.nextChunk_ok happ h hfull hnext
    have hoffset₁ := hopen.offset
    obtain ⟨k, s', hrun⟩ := hopen.writeInChunk_accept buf happ haccepts (by omega)
    obtain ⟨hk, -⟩ := hopen.writeInChunk_ok happ hrun
    exact ⟨k, s', bind_eq_ok.mpr ⟨(), s₁, hnext, hrun⟩, by omega⟩
  · rw [if_neg hfull]
    obtain ⟨k, s', hrun⟩ := Opened.writeInChunk_accept buf happ haccepts h (by omega)
    obtain ⟨hk, -⟩ := Opened.writeInChunk_ok happ h hrun
    exact ⟨k, s', hrun, by omega⟩

end Calls

/-! ## The end of the stream -/

section End

variable [Patience] [AesGcm] [Write Error ω] {config : InternalEncryptionConfig}
  {Got : ω → Bytes → Prop} {base P : Bytes} {i n : ℕ}

/-- The content of the final block is written by one call. -/
theorem put_finalBlockContent (hoffset : s.currentChunkOffset = 0) :
    (put finalBlockContent : EStateM Error (InternalEncryptionLayerWriter ω) Unit) s =
      match onInner (put (s.cipher.encrypt finalBlockContent).1)
          { s with cipher := (s.cipher.encrypt finalBlockContent).2 } with
      | .ok _ s' => .ok () { s' with currentChunkOffset := 10 }
      | .error e s' => .error e s' := by
  have hwrite : Write.write finalBlockContent s = writeInChunk finalBlockContent s := by
    change write finalBlockContent s = _
    rw [write, hoffset, normalChunkPtSize_eq, if_neg (by decide), if_neg (by decide)]
  have hsize : min (min 4096 finalBlockContent.length) (131072 - 0) = 10 := rfl
  have htake : finalBlockContent.take 10 = finalBlockContent := rfl
  have hne : finalBlockContent ≠ [] := by decide
  rw [writeInChunk_eq (by omega)] at hwrite
  simp only [hoffset, hsize, htake, onInner_eq] at hwrite
  rw [put, liftIo_apply, onInner_eq, put, liftIo_apply]
  cases hrun : writeAll (s.cipher.encrypt finalBlockContent).1 s.inner with
  | ok u inner =>
      simp only [hrun] at hwrite
      rw [writeAll_of_write hne hwrite]
  | error e inner =>
      simp only [hrun] at hwrite
      rw [writeAll_of_error hne hwrite (NeverInterrupted.writeAll _ _ _ _ hrun), ← hoffset]

/-- The end of the stream, from chunk `i` on. -/
def endOf (config : InternalEncryptionConfig) (P : Bytes) (i : ℕ) : Bytes :=
  config.frontChunks P i ++ (config.encChunk i (chunkData P i) ++ (config.finalBlock (i + 1) ++
    (endOfEncryptedInnerLayerMagic ++ emptyTailOptsSerialization)))

omit [Patience] in
theorem endOf_lastChunk (P : Bytes) : endOf config P (lastChunk P) = config.encStream P := by
  rw [endOf, InternalEncryptionConfig.encStream, InternalEncryptionConfig.encBody_eq,
    InternalEncryptionConfig.encTail, chunkCount_eq]
  simp only [List.append_assoc]

omit [Patience] [Write Error ω] in
/-- The pieces that `finalize` writes behind an open chunk. -/
theorem endOf_eq (hcipher : s.cipher = ((config.chunkCipher i).encrypt (chunkData P i)).2) :
    base ++ (config.frontChunks P i ++
      (chunkHead i ++ ((config.chunkCipher i).encrypt (chunkData P i)).1)) ++
        s.cipher.intoTag.toList ++ finalBlockMagic ++
        ((config.finalCipher (i + 1)).encrypt finalBlockContent).1 ++
        ((config.finalCipher (i + 1)).encrypt finalBlockContent).2.intoTag.toList ++
        endOfEncryptedInnerLayerMagic ++ emptyTailOptsSerialization =
      base ++ endOf config P i := by
  rw [endOf, encChunk_eq_append, InternalEncryptionConfig.finalBlock,
    InternalEncryptionConfig.sealWith, hcipher]
  simp only [List.append_assoc]

omit [Patience] [Write Error ω] in
theorem Opened.renewed_cipher (h : Opened config Got base s P i) :
    (s.renewed finalAssociatedData).cipher = config.finalCipher (i + 1) := by
  change AesGcm256.new s.key (computeNonce s.baseNonce (s.currentCtr + 1)) _ = _
  rw [h.key, h.baseNonce, h.ctr]
  rfl

theorem Opened.finalizeLayer_ok (happ : Appends Got) (h : Opened config Got base s P i) {u : Unit}
    (hrun : finalizeLayer s = .ok u s') : Got s'.inner (base ++ endOf config P i) := by
  obtain ⟨tag, s₁, hlast, hrun⟩ := bind_eq_ok.mp hrun
  rw [lastRenewCipher, renewCipherAad_eq] at hlast
  split at hlast
  · obtain ⟨rfl, rfl⟩ := EStateM.Result.ok.inj hlast
    have hinner : Got (s.renewed finalAssociatedData).inner _ := h.inner
    obtain ⟨_, s₂, hput, hrun⟩ := bind_eq_ok.mp hrun
    obtain ⟨-, inner₂, rfl, h₂⟩ := onInner_ok (Emits.put _) happ hinner hput
    obtain ⟨_, s₃, hput, hrun⟩ := bind_eq_ok.mp hrun
    obtain ⟨-, inner₃, rfl, h₃⟩ := onInner_ok (Emits.put _) happ h₂ hput
    obtain ⟨_, s₄, hcontent, hrun⟩ := bind_eq_ok.mp hrun
    rw [put_finalBlockContent (by rfl)] at hcontent
    split at hcontent
    · rename_i s₅ hput
      obtain ⟨-, rfl⟩ := EStateM.Result.ok.inj hcontent
      obtain ⟨-, inner₅, rfl, h₅⟩ := onInner_ok (Emits.put _) happ h₃ hput
      obtain ⟨tag, s₆, hrenew, hrun⟩ := bind_eq_ok.mp hrun
      rw [renewCipher, renewCipherAad_eq] at hrenew
      split at hrenew
      · obtain ⟨rfl, rfl⟩ := EStateM.Result.ok.inj hrenew
        obtain ⟨_, s₇, hput, hrun⟩ := bind_eq_ok.mp hrun
        obtain ⟨-, inner₇, rfl, h₇⟩ := onInner_ok (Emits.put _) happ h₅ hput
        obtain ⟨_, s₈, hput, hrun⟩ := bind_eq_ok.mp hrun
        obtain ⟨-, inner₈, rfl, h₈⟩ := onInner_ok (Emits.put _) happ h₇ hput
        obtain ⟨-, inner₉, rfl, h₉⟩ := onInner_ok (Emits.put _) happ h₈ hrun
        rw [h.renewed_cipher] at h₉
        rw [← endOf_eq h.cipher]
        exact h₉
      · cases hrenew
    · cases hcontent
  · cases hlast

theorem Opened.finalizeLayer_accept (happ : Appends Got) (haccepts : Accepts n Got)
    (h : Opened config Got base s P i) (hctr : i + 3 < u64Size)
    (hn : base.length + P.length + 32 * i + 100 ≤ n) :
    ∃ s', finalizeLayer s = .ok () s' := by
  have hopen := length_open config h.offset h.le
  obtain ⟨acc, hinner, hacc⟩ : ∃ acc, Got (s.renewed finalAssociatedData).inner acc ∧
      acc.length + 83 ≤ n :=
    ⟨_, h.inner, by rw [List.length_append, hopen]; omega⟩
  have htag : ∀ tag : Tag, tag.toList.length = 16 := fun tag => Vector.length_toList
  have hsmall : 16 < u64Size := by decide
  have hct : ((s.renewed finalAssociatedData).cipher.encrypt finalBlockContent).1.length = 10 := by
    simp [AesGcm256.encrypt]
  have hlast : lastRenewCipher s = .ok s.cipher.intoTag (s.renewed finalAssociatedData) := by
    rw [lastRenewCipher, renewCipherAad_eq, if_pos (by rw [h.ctr]; omega)]
  rw [finalizeLayer, bind_apply, hlast]
  refine onInner_bind_accept (Emits.put _) happ haccepts hinner (by rw [htag]; omega)
    (by rw [htag]; exact hsmall) fun inner₂ h₂ => ?_
  refine onInner_bind_accept (Emits.put _) happ haccepts h₂
    (by rw [List.length_append, htag, length_finalBlockMagic]; omega)
    (by rw [length_finalBlockMagic]; omega) fun inner₃ h₃ => ?_
  rw [bind_apply, put_finalBlockContent (by rfl)]
  obtain ⟨inner₅, hrun₅, h₅⟩ := onInner_accept
    (Emits.put ((s.renewed finalAssociatedData).cipher.encrypt finalBlockContent).1) happ haccepts
    (s := { s.renewed finalAssociatedData with
      inner := inner₃
      cipher := ((s.renewed finalAssociatedData).cipher.encrypt finalBlockContent).2 }) h₃
    (by simp only [List.length_append, htag, length_finalBlockMagic, hct]; omega)
    (by rw [hct]; omega)
  rw [hrun₅]
  have hctr' : (s.renewed finalAssociatedData).currentCtr + 1 < u64Size := by
    change s.currentCtr + 1 + 1 < u64Size
    rw [h.ctr]
    omega
  simp only
  rw [bind_apply, renewCipher, renewCipherAad_eq, if_pos hctr']
  refine onInner_bind_accept (Emits.put _) happ haccepts h₅
    (by simp only [List.length_append, htag, length_finalBlockMagic, hct]; omega)
    (by rw [htag]; exact hsmall) fun inner₇ h₇ => ?_
  refine onInner_bind_accept (Emits.put _) happ haccepts h₇
    (by
      simp only [List.length_append, htag, length_finalBlockMagic, hct,
        length_endOfEncryptedInnerLayerMagic]
      omega)
    (by rw [length_endOfEncryptedInnerLayerMagic]; omega) fun inner₈ h₈ => ?_
  have hlen : ∀ {x : Bytes}, x.length = acc.length + 58 → x.length + 9 ≤ n := fun hx => by omega
  obtain ⟨inner₉, hrun₉⟩ := (Emits.put emptyTailOptsSerialization).accept happ haccepts h₈
    (by
      rw [length_emptyTailOptsSerialization]
      refine hlen ?_
      simp only [List.length_append, htag, length_finalBlockMagic, hct,
        length_endOfEncryptedInnerLayerMagic])
    (by rw [length_emptyTailOptsSerialization]; omega)
  rw [onInner_eq, hrun₉]
  exact ⟨_, rfl⟩

end End

end InternalEncryptionLayerWriter

/-! ## The layer as a whole -/

namespace EncryptionLayerWriter

open InternalEncryptionConfig (chunkHead)
open InternalEncryptionLayerWriter (Keeps)

variable {ω W : Type} [Patience] [AesGcm] [Hkdf] [Kem] {Got : ω → Bytes → Prop}
  {inner : ω} {acc P : Bytes} {encryptionConfig : EncryptionConfig}
  {persistentConfig : EncryptionPersistentConfig} {config : InternalEncryptionConfig}

/-- The header of the layer, up to the head of the first chunk. -/
def header (persistentConfig : EncryptionPersistentConfig) : Bytes :=
  encryptionLayerMagic ++ (emptyOptsSerialization ++ (leBytes 2 0 ++ persistentConfig.encode))

omit [Patience] [AesGcm] [Hkdf] in
theorem length_header (persistentConfig : EncryptionPersistentConfig) :
    (header persistentConfig).length =
      99 + 1648 * persistentConfig.hybridMultiRecipientEncapsulateKey.recipients.length := by
  have hmagic : encryptionLayerMagic.length = 8 := rfl
  have hopts : emptyOptsSerialization.length = 1 := rfl
  simp only [header, List.length_append, hmagic, hopts, length_leBytes,
    EncryptionPersistentConfig.length_encode]
  omega

omit [AesGcm] [Hkdf] in
theorem emits_writeHeader [Write Error ω] (persistentConfig : EncryptionPersistentConfig) :
    Emits (writeHeader persistentConfig : EStateM Error ω Unit)
      (header persistentConfig ++ (chunkMagic ++ leBytes 8 1)) () := by
  refine Emits.cast ((Emits.put encryptionLayerMagic).seq (emits_opts.bind
    ((emits_u16 0).bind (persistentConfig.emits.bind ((Emits.put chunkMagic).seq
      ((emits_u64 1).bind (Emits.pure ()))))))) ?_ rfl
  simp only [header, List.append_assoc, List.append_nil]

omit [Patience] [Hkdf] [Kem] in
/-- The first chunk is open behind the header. -/
theorem keeps_of_header (hgot : Got inner (acc ++ (P ++ (chunkMagic ++ leBytes 8 1)))) :
    Keeps config Got (acc ++ P) (InternalEncryptionLayerWriter.new inner config) [] := by
  have hlast : lastChunk [] = 0 := (lastChunk_eq_zero []).mpr (Nat.zero_le _)
  have hdata : chunkData [] 0 = [] := rfl
  rw [Keeps, hlast]
  refine ⟨rfl, rfl, rfl, rfl, Nat.zero_le _, ?_, ?_⟩
  · rw [hdata, AesGcm256.encrypt_nil]
    rfl
  · have hhead : chunkHead 0 = chunkMagic ++ leBytes 8 1 := rfl
    have hfront : config.frontChunks [] 0 = [] := rfl
    rw [hdata, AesGcm256.encrypt_nil, hhead, hfront, List.nil_append, List.append_nil,
      List.append_assoc]
    exact hgot

theorem keeps_new [Write Error ω] (happ : Appends Got) (hinner : Got inner acc)
    (hconfig : encryptionConfig.toPersistent = .ok (persistentConfig, config))
    {s : EncryptionLayerWriter ω} (hnew : new inner encryptionConfig = .ok s) :
    Keeps config Got (acc ++ header persistentConfig) s [] := by
  rw [new, hconfig] at hnew
  cases hheader : writeHeader persistentConfig inner with
  | error e inner' =>
      simp only [bind, Except.bind, hheader] at hnew
      cases hnew
  | ok u inner' =>
      simp only [bind, Except.bind, hheader] at hnew
      obtain rfl := Except.ok.inj hnew
      obtain ⟨-, hgot⟩ := (emits_writeHeader persistentConfig).ok happ hinner hheader
      exact keeps_of_header hgot

/-- The header can be written when the layer below takes it. -/
theorem new_accept [Write Error ω] (happ : Appends Got) {n : ℕ} (haccepts : Accepts n Got)
    (hinner : Got inner acc)
    (hconfig : encryptionConfig.toPersistent = .ok (persistentConfig, config))
    (hn : acc.length + (header persistentConfig).length + 16 ≤ n)
    (hlen : (header persistentConfig).length + 16 < u64Size) :
    ∃ s, new inner encryptionConfig = .ok s := by
  have hhead : (header persistentConfig ++ (chunkMagic ++ leBytes 8 1)).length =
      (header persistentConfig).length + 16 := by
    rw [List.length_append, List.length_append, length_chunkMagic, length_leBytes]
  obtain ⟨inner', hheader⟩ := (emits_writeHeader persistentConfig).accept happ haccepts hinner
    (by rw [hhead]; omega) (by rw [hhead]; exact hlen)
  refine ⟨InternalEncryptionLayerWriter.new inner' config, ?_⟩
  rw [new, hconfig]
  simp only [bind, Except.bind, hheader]
  rfl

/-- A run of calls with buffers that are not empty; `P` is what they have taken. -/
inductive Written [Write Error ω] (s : EncryptionLayerWriter ω) :
    Bytes → EncryptionLayerWriter ω → Prop
  | start : Written s [] s
  | write {P buf : Bytes} {k : ℕ} {s₁ s₂ : EncryptionLayerWriter ω} : Written s P s₁ → buf ≠ [] →
      Write.write buf s₁ = .ok k s₂ → Written s (P ++ buf.take k) s₂

omit [Hkdf] [Kem] in
theorem Written.keeps [Write Error ω] (happ : Appends Got) {base : Bytes}
    {s s' : EncryptionLayerWriter ω} (h : Written s P s') (hs : Keeps config Got base s []) :
    Keeps config Got base s' P := by
  induction h with
  | start => exact hs
  | write _ hne hwrite ih => exact (Keeps.write_ok happ ih hne hwrite).2

omit [Hkdf] [Kem] in
/-- What a layer takes can be written to it. -/
theorem Written.exists_append [Write Error ω] (happ : Appends Got) {base : Bytes} {n : ℕ}
    (haccepts : Accepts n (Keeps config Got base : EncryptionLayerWriter ω → Bytes → Prop))
    {s : EncryptionLayerWriter ω} (hs : Keeps config Got base s []) :
    ∀ (m : ℕ) {Q R : Bytes} {s₁ : EncryptionLayerWriter ω}, R.length ≤ m → Written s Q s₁ →
      Q.length + R.length ≤ n → ∃ s', Written s (Q ++ R) s' := by
  intro m
  induction m with
  | zero =>
      intro Q R s₁ hm hwritten _
      obtain rfl := List.length_eq_zero_iff.mp (Nat.le_zero.mp hm)
      exact ⟨s₁, by rwa [List.append_nil]⟩
  | succ m ih =>
      intro Q R s₁ hm hwritten hn
      by_cases hne : R = []
      · subst hne
        exact ⟨s₁, by rwa [List.append_nil]⟩
      · obtain ⟨k, s₂, hwrite, hk⟩ := haccepts (hwritten.keeps happ hs) hne hn
        obtain ⟨s', hrest⟩ := ih (R := R.drop k) (by rw [List.length_drop]; omega)
          (hwritten.write hne hwrite) (by
            rw [List.length_append, List.length_take, List.length_drop]
            omega)
        rw [List.append_assoc, List.take_append_drop] at hrest
        exact ⟨s', hrest⟩

omit [Hkdf] [Kem] in
theorem Written.exists [Write Error ω] (happ : Appends Got) {base : Bytes} {n : ℕ}
    (haccepts : Accepts n (Keeps config Got base : EncryptionLayerWriter ω → Bytes → Prop))
    {s : EncryptionLayerWriter ω} (hs : Keeps config Got base s []) (P : Bytes)
    (hn : P.length ≤ n) : ∃ s', Written s P s' :=
  Written.exists_append happ haccepts hs _ (Nat.le_refl _) .start
    (by rwa [List.length_nil, Nat.zero_add])

omit [Hkdf] [Kem] in
theorem finalize_eq [LayerWriter W ω] (s : EncryptionLayerWriter ω) :
    LayerWriter.finalize s =
      match InternalEncryptionLayerWriter.finalizeLayer s with
      | .ok _ s' => LayerWriter.finalize s'.inner
      | .error e _ => .error e := (rfl)

/-- However the plaintext is written, what lies behind the header is its stream; and
nothing but the layer below can keep it from being written. -/
theorem finalize_encStream [LayerWriter W ω] (happ : Appends Got) (hinner : Got inner acc)
    (hconfig : encryptionConfig.toPersistent = .ok (persistentConfig, config)) :
    (∀ s P s' w, new inner encryptionConfig = .ok s → Written s P s' →
      LayerWriter.finalize s' = .ok w →
        ∃ d, Got d (acc ++ header persistentConfig ++ config.encStream P) ∧
          LayerWriter.finalize d = .ok w) ∧
    (∀ bufs n, Accepts n Got →
      (header persistentConfig).length + bufs.flatten.length < i64Size →
      acc.length + (header persistentConfig).length + 2 * bufs.flatten.length + 131204 ≤ n →
        ∃ s s' d, new inner encryptionConfig = .ok s ∧ writeBuffers bufs s = .ok () s' ∧
          Got d (acc ++ header persistentConfig ++ config.encStream bufs.flatten) ∧
          LayerWriter.finalize s' = LayerWriter.finalize d) := by
  have hend : ∀ {s P s'}, Keeps config Got (acc ++ header persistentConfig) s P →
      InternalEncryptionLayerWriter.finalizeLayer s = .ok () s' →
        Got s'.inner (acc ++ header persistentConfig ++ config.encStream P) := by
    intro s P s' hkeeps hrun
    have hgot := InternalEncryptionLayerWriter.Opened.finalizeLayer_ok happ hkeeps hrun
    rwa [InternalEncryptionLayerWriter.endOf_lastChunk] at hgot
  constructor
  · intro s P s' w hnew hwritten hfinalize
    have hkeeps := hwritten.keeps happ (keeps_new happ hinner hconfig hnew)
    rw [finalize_eq] at hfinalize
    cases hrun : InternalEncryptionLayerWriter.finalizeLayer s' with
    | error e s'' =>
        simp only [hrun] at hfinalize
        cases hfinalize
    | ok u s'' =>
        simp only [hrun] at hfinalize
        exact ⟨s''.inner, hend hkeeps hrun, hfinalize⟩
  · intro bufs n haccepts hlen hn
    rw [← List.length_append] at hn
    obtain ⟨s, hnew⟩ := new_accept happ haccepts hinner hconfig
      (by rw [List.length_append] at hn; omega) (by rw [u64Size_eq]; rw [i64Size_eq] at hlen; omega)
    have hkeeps := keeps_new happ hinner hconfig hnew
    obtain ⟨s', hwrites, hkeeps'⟩ := (InternalEncryptionLayerWriter.appends happ).writeBuffers_eq
      (InternalEncryptionLayerWriter.accepts happ haccepts
        (show bufs.flatten.length < i64Size by omega) (by omega)) hkeeps
      (by rw [List.length_nil, Nat.zero_add])
    rw [List.nil_append] at hkeeps'
    obtain ⟨hfirst, -, -⟩ := lastChunk_spec bufs.flatten
    obtain ⟨s'', hrun⟩ := InternalEncryptionLayerWriter.Opened.finalizeLayer_accept happ haccepts
      hkeeps' (by rw [u64Size_eq]; rw [i64Size_eq] at hlen; omega) (by omega)
    refine ⟨s, s', s''.inner, hnew, hwrites, hend hkeeps' hrun, ?_⟩
    rw [finalize_eq, hrun]

end EncryptionLayerWriter

section Example

open CountingCipher LabelKem

def labelConfig : EncryptionConfig := ⟨⟨[LabelKem.publicKey 1]⟩, LabelKem.rng⟩

/-- A stream written in two buffers to memory. -/
theorem EncryptionLayerWriter.finalize_encStream_label :
    ∃ persistentConfig config w,
      labelConfig.toPersistent = .ok (persistentConfig, config) ∧
      (∃ s s' : EncryptionLayerWriter (RawLayerWriter (VecWriter Error)),
        EncryptionLayerWriter.new ⟨⟨[]⟩⟩ labelConfig = .ok s ∧
        writeBuffers [[1], [2, 3]] s = .ok () s' ∧ LayerWriter.finalize s' = .ok w) ∧
      w.data = EncryptionLayerWriter.header persistentConfig ++ config.encStream [1, 2, 3] := by
  obtain ⟨⟨persistentConfig, config⟩, hconfig, hone⟩ :
      ∃ r, labelConfig.toPersistent = .ok r ∧
        r.1.hybridMultiRecipientEncapsulateKey.recipients.length = 1 := ⟨_, rfl, rfl⟩
  have happ : Appends fun (s : RawLayerWriter (VecWriter Error)) acc => s.inner.Got acc :=
    RawLayerWriter.appends VecWriter.appends
  have hinner : (⟨⟨[]⟩⟩ : RawLayerWriter (VecWriter Error)).inner.Got [] := rfl
  have hlen := EncryptionLayerWriter.length_header persistentConfig
  rw [hone] at hlen
  obtain ⟨s, s', d, hnew, hwrites, hgot, hfinalize⟩ :=
    (EncryptionLayerWriter.finalize_encStream happ hinner hconfig).2 [[1], [2, 3]] 200000
      (RawLayerWriter.accepts (VecWriter.accepts _)) (by rw [hlen]; decide) (by rw [hlen]; decide)
  exact ⟨persistentConfig, config, d.inner, hconfig, ⟨s, s', hnew, hwrites, hfinalize⟩, hgot⟩

end Example

end Mla
