import Mathlib.Data.List.Nodup
import Mla.Layers.Encrypt.Written

/-!
# Nonces of a writing session

The cipher contexts of a session, in the order in which they are made: the one of the key
commitment, those of the chunks, and the one of the final block. Their numbers follow one
another, so no nonce is used for two messages, whatever fails and whatever is tried again.

The bytes that a context encrypts are counted by the offset in the chunk, which is only
moved on when the layer below has taken them. A write that fails leaves the context ahead of
the offset, and a later write in the same chunk encrypts more than the chunk has room for.
-/

namespace Mla

open Io

/-- The context of the key commitment, when it has encrypted the text. -/
def commitmentContext [AesGcm] (config : InternalEncryptionConfig) : AesGcm256 :=
  ((keyCommitmentCipher config.key config.nonce).encryptArray keyCommitmentChainArray).2

namespace InternalEncryptionLayerWriter

variable {ω : Type}

/-- What a context is made with. -/
def parameters (c : AesGcm256) : Key × Nonce × Bytes := (c.key, c.nonce, c.associatedData)

/-- The contexts that the writer has made. -/
def contexts (s : InternalEncryptionLayerWriter ω) : List AesGcm256 :=
  s.retired ++ [s.cipher]

/-- Number, key and nonce of the context `seq` of a session. -/
def numbered (config : InternalEncryptionConfig) (seq : ℕ) : Key × Nonce × Bytes :=
  (config.key, computeNonce config.nonce seq, associatedData)

/-- The offset says what the context in use has encrypted: no write in this chunk has failed
to pass on what it had encrypted. -/
def Settled (s : InternalEncryptionLayerWriter ω) : Prop :=
  s.cipher.encrypted.length = s.currentChunkOffset

/-- The contexts are those of the chunks, numbered from 1, of which the last one is in use. -/
structure Numbered (config : InternalEncryptionConfig) (s : InternalEncryptionLayerWriter ω) :
    Prop where
  key : s.key = config.key
  baseNonce : s.baseNonce = config.nonce
  ctr : s.currentCtr < u64Size
  offset : s.currentChunkOffset ≤ 131072
  contexts : (contexts s).map parameters =
    (List.range s.currentCtr).map fun i => numbered config (i + 1)

/-- No context has encrypted more than a chunk. -/
structure Bounded (s : InternalEncryptionLayerWriter ω) : Prop where
  retired : ∀ c ∈ s.retired, c.encrypted.length ≤ 131072
  cipher : s.cipher.encrypted.length ≤ 131072

section Calls

variable {config : InternalEncryptionConfig} {s t : InternalEncryptionLayerWriter ω}
  {buf piece : Bytes} {inner : ω}

/-- The state in whose chunk a call writes: the chunk is the one that is open, or the next
one when that is full. -/
def Turned (s t : InternalEncryptionLayerWriter ω) : Prop :=
  t = s ∨ s.currentCtr + 1 < u64Size ∧
    ∃ inner, t = { s.renewed associatedData with inner := inner }

theorem Numbered.turned (h : Numbered config s) (ht : Turned s t) : Numbered config t := by
  rcases ht with rfl | ⟨hctr, inner, rfl⟩
  · exact h
  · refine ⟨h.key, h.baseNonce, hctr, Nat.zero_le _, ?_⟩
    change (InternalEncryptionLayerWriter.contexts s ++ [AesGcm256.new s.key
      (computeNonce s.baseNonce (s.currentCtr + 1)) associatedData]).map parameters =
        (List.range (s.currentCtr + 1)).map _
    rw [List.map_append, h.contexts, List.range_succ, List.map_append, h.key, h.baseNonce]
    rfl

theorem Bounded.turned (h : Bounded s) (ht : Turned s t) : Bounded t := by
  rcases ht with rfl | ⟨-, inner, rfl⟩
  · exact h
  · refine ⟨fun c hc => ?_, Nat.zero_le _⟩
    rcases List.mem_append.mp hc with hc | hc
    · exact h.retired c hc
    · rw [List.mem_singleton.mp hc]
      exact h.cipher

theorem Settled.turned (h : Settled s) (ht : Turned s t) : Settled t := by
  rcases ht with rfl | ⟨-, inner, rfl⟩
  · exact h
  · rfl

/-- Operations on the layer below leave all else as it is. -/
theorem stateOf_onInner {ε α : Type} (x : EStateM ε ω α) (s : InternalEncryptionLayerWriter ω) :
    ∃ inner, stateOf (onInner x s) = { s with inner := inner } := by
  rw [onInner_eq]
  cases x s.inner with
  | ok a inner => exact ⟨inner, rfl⟩
  | error e inner => exact ⟨inner, rfl⟩

section Encrypted

variable [AesGcm]

/-- The state when a piece has been encrypted, and `moved` of it has been counted. -/
def encrypted (t : InternalEncryptionLayerWriter ω) (piece : Bytes) (moved : ℕ) (inner : ω) :
    InternalEncryptionLayerWriter ω :=
  { t with
    inner := inner
    cipher := (t.cipher.encrypt piece).2
    currentChunkOffset := t.currentChunkOffset + moved }

theorem Numbered.encrypted (h : Numbered config t) {moved : ℕ}
    (hmoved : t.currentChunkOffset + moved ≤ 131072) :
    Numbered config (encrypted t piece moved inner) := by
  refine ⟨h.key, h.baseNonce, h.ctr, hmoved, ?_⟩
  have hcontexts := h.contexts
  rw [InternalEncryptionLayerWriter.contexts, List.map_append] at hcontexts ⊢
  exact hcontexts

theorem length_encrypted_encrypt (cipher : AesGcm256) (piece : Bytes) :
    (cipher.encrypt piece).2.encrypted.length = cipher.encrypted.length + piece.length := by
  simp [AesGcm256.encrypt]

theorem Bounded.encrypted (h : Bounded t) (hsettled : Settled t) {moved : ℕ}
    (hpiece : t.currentChunkOffset + piece.length ≤ 131072) :
    Bounded (encrypted t piece moved inner) := by
  refine ⟨h.retired, ?_⟩
  change (t.cipher.encrypt piece).2.encrypted.length ≤ 131072
  rw [length_encrypted_encrypt, hsettled]
  exact hpiece

end Encrypted

end Calls

/-! ## One call -/

section Write

variable [Patience] [AesGcm] [Write Error ω] {config : InternalEncryptionConfig}
  {s t : InternalEncryptionLayerWriter ω} {buf : Bytes}

/-- A call encrypts a piece that fits in the chunk, and counts it or fails. -/
theorem stateOf_writeInChunk (hle : t.currentChunkOffset ≤ 131072) :
    ∃ piece moved inner, t.currentChunkOffset + piece.length ≤ 131072 ∧
      moved ≤ piece.length ∧ stateOf (writeInChunk buf t) = encrypted t piece moved inner := by
  have hlen : (buf.take (min (min 4096 buf.length) (131072 - t.currentChunkOffset))).length =
      min (min 4096 buf.length) (131072 - t.currentChunkOffset) := by
    rw [List.length_take]
    omega
  rw [writeInChunk_eq hle]
  simp only [onInner_eq]
  cases writeAll (t.cipher.encrypt (buf.take (min (min 4096 buf.length)
      (131072 - t.currentChunkOffset)))).1 t.inner with
  | error e inner => exact ⟨_, 0, inner, by rw [hlen]; omega, Nat.zero_le _, rfl⟩
  | ok u inner =>
      refine ⟨_, _, inner, by rw [hlen]; omega, Nat.le_refl _, ?_⟩
      rw [encrypted, hlen, stateOf_ok]

theorem stateOf_nextChunk (s : InternalEncryptionLayerWriter ω) :
    Turned s (stateOf (nextChunk s)) := by
  rw [nextChunk_eq]
  by_cases hctr : s.currentCtr + 1 < u64Size
  · rw [if_pos hctr]
    obtain ⟨inner, hstate⟩ := stateOf_onInner
      (betweenChunks s.cipher.intoTag (s.currentCtr + 1)) (s.renewed associatedData)
    exact Or.inr ⟨hctr, inner, hstate⟩
  · rw [if_neg hctr]
    exact Or.inl rfl

variable (buf) in
/-- All that a call can do to the contexts. -/
theorem stateOf_write (hle : s.currentChunkOffset ≤ 131072) :
    ∃ t, Turned s t ∧ (stateOf (write buf s) = t ∨
      ∃ piece moved inner, t.currentChunkOffset + piece.length ≤ 131072 ∧
        moved ≤ piece.length ∧ stateOf (write buf s) = encrypted t piece moved inner) := by
  rw [write, normalChunkPtSize_eq, if_neg (by omega)]
  by_cases hfull : s.currentChunkOffset = 131072
  · rw [if_pos hfull, bind_apply]
    have hturned := stateOf_nextChunk s
    cases hnext : nextChunk s with
    | error e t =>
        rw [hnext] at hturned
        exact ⟨t, hturned, Or.inl rfl⟩
    | ok u t =>
        rw [hnext] at hturned
        have ht : t.currentChunkOffset ≤ 131072 := by
          rcases hturned with rfl | ⟨-, inner, rfl⟩
          · exact hle
          · exact Nat.zero_le _
        exact ⟨t, hturned, Or.inr (stateOf_writeInChunk ht)⟩
  · rw [if_neg hfull]
    exact ⟨s, Or.inl rfl, Or.inr (stateOf_writeInChunk hle)⟩

theorem Numbered.write (h : Numbered config s) (buf : Bytes) :
    Numbered config (stateOf (write buf s)) := by
  obtain ⟨t, hturned, hstate | ⟨piece, moved, inner, hpiece, hmoved, hstate⟩⟩ :=
    stateOf_write buf h.offset
  · rw [hstate]
    exact h.turned hturned
  · rw [hstate]
    exact (h.turned hturned).encrypted (by omega)

theorem Bounded.write (h : Bounded s) (hsettled : Settled s)
    (hle : s.currentChunkOffset ≤ 131072) (buf : Bytes) : Bounded (stateOf (write buf s)) := by
  obtain ⟨t, hturned, hstate | ⟨piece, moved, inner, hpiece, hmoved, hstate⟩⟩ :=
    stateOf_write buf hle
  · rw [hstate]
    exact h.turned hturned
  · rw [hstate]
    exact (h.turned hturned).encrypted (hsettled.turned hturned) hpiece

end Write

/-! ## The end -/

section End

variable {config : InternalEncryptionConfig} {s : InternalEncryptionLayerWriter ω}

/-- The two contexts that `finalize` can make: that of the final block, and one that is not
used. -/
def finalParameters (config : InternalEncryptionConfig) (ctr : ℕ) : List (Key × Nonce × Bytes) :=
  [(config.key, computeNonce config.nonce (ctr + 1), finalAssociatedData),
    numbered config (ctr + 2)]

/-- A state that `finalize` leaves behind, whether it succeeds or not. -/
structure Finished (config : InternalEncryptionConfig) (s s' : InternalEncryptionLayerWriter ω)
    (added : List AesGcm256) : Prop where
  contexts : contexts s' = contexts s ++ added
  parameters : added.map parameters <+: finalParameters config s.currentCtr
  unused : ∀ c ∈ added.tail, c.encrypted = []
  counter : s'.currentCtr = s.currentCtr + added.length
  ctr : s'.currentCtr < u64Size

/-- The contexts of the session are those of before, and what `finalize` has added. -/
def Finishes (config : InternalEncryptionConfig) (s s' : InternalEncryptionLayerWriter ω) : Prop :=
  ∃ added, Finished config s s' added

theorem Numbered.finishes (h : Numbered config s) : Finishes config s s :=
  ⟨[], (List.append_nil _).symm, List.nil_prefix, fun c hc => (by cases hc), rfl, h.ctr⟩

/-- The context of the final block is in use. -/
theorem Numbered.finishes_final (h : Numbered config s) (hctr : s.currentCtr + 1 < u64Size)
    (ct : Bytes) (offset : ℕ) (inner : ω) :
    Finishes config s { s.renewed finalAssociatedData with
      inner := inner
      cipher := { (s.renewed finalAssociatedData).cipher with encrypted := ct }
      currentChunkOffset := offset } := by
  refine ⟨[_], rfl, ⟨[numbered config (s.currentCtr + 2)], ?_⟩, fun c hc => (by cases hc), rfl,
    hctr⟩
  rw [finalParameters, ← h.key, ← h.baseNonce]
  rfl

/-- The context of the final block has given its tag. -/
theorem Numbered.finishes_renewed (h : Numbered config s) (hctr : s.currentCtr + 2 < u64Size)
    (ct : Bytes) (offset : ℕ) (inner inner' : ω) :
    Finishes config s
      { renewed { s.renewed finalAssociatedData with
          inner := inner
          cipher := { (s.renewed finalAssociatedData).cipher with encrypted := ct }
          currentChunkOffset := offset } associatedData with
        inner := inner' } := by
  refine ⟨[_, _], List.append_assoc _ _ _, ⟨[], ?_⟩, fun c hc => ?_, rfl, hctr⟩
  · rw [finalParameters, numbered, ← h.key, ← h.baseNonce]
    rfl
  · rw [List.mem_singleton.mp hc]
    rfl

section Run

variable [Patience] [AesGcm] [Write Error ω]

omit [Patience] [AesGcm] [Write Error ω] in
/-- A property of the state that an operation on the layer below and what follows it leave. -/
theorem stateOf_onInner_bind {ε α β : Type} {x : EStateM ε ω α}
    {f : α → EStateM ε (InternalEncryptionLayerWriter ω) β}
    {Q : InternalEncryptionLayerWriter ω → Prop} (herror : ∀ inner, Q { s with inner := inner })
    (hok : ∀ a inner, Q (stateOf (f a { s with inner := inner }))) :
    Q (stateOf ((onInner x >>= f) s)) := by
  rw [bind_apply, onInner_eq]
  cases x s.inner with
  | ok a inner => exact hok a inner
  | error e inner => exact herror inner

/-- Whatever becomes of it, `finalize` makes no other contexts. -/
theorem Numbered.finalizeLayer (h : Numbered config s) :
    Finishes config s (stateOf (finalizeLayer s)) := by
  rw [InternalEncryptionLayerWriter.finalizeLayer, bind_apply, lastRenewCipher, renewCipherAad_eq]
  by_cases hctr : s.currentCtr + 1 < u64Size
  · rw [if_pos hctr]
    refine stateOf_onInner_bind (Q := Finishes config s) (h.finishes_final hctr [] 0)
      fun _ inner => ?_
    refine stateOf_onInner_bind (Q := Finishes config s) (h.finishes_final hctr [] 0)
      fun _ inner => ?_
    rw [bind_apply, put_finalBlockContent (by rfl), onInner_eq]
    cases (put ((s.renewed finalAssociatedData).cipher.encrypt finalBlockContent).1 :
        EStateM Error ω Unit) inner with
    | error e inner => exact h.finishes_final hctr _ 0 inner
    | ok u inner =>
        simp only
        rw [bind_apply, renewCipher, renewCipherAad_eq]
        by_cases hctr' : (s.renewed finalAssociatedData).currentCtr + 1 < u64Size
        · simp only [if_pos hctr']
          refine stateOf_onInner_bind (Q := Finishes config s)
            (h.finishes_renewed hctr' _ 10 inner) fun _ inner' => ?_
          refine stateOf_onInner_bind (Q := Finishes config s)
            (h.finishes_renewed hctr' _ 10 inner) fun _ inner' => ?_
          obtain ⟨inner'', hstate⟩ := stateOf_onInner
            (put emptyTailOptsSerialization : EStateM Error ω Unit) _
          rw [hstate]
          exact h.finishes_renewed hctr' _ 10 inner inner''
        · simp only [if_neg hctr']
          exact h.finishes_final hctr _ 10 inner
  · rw [if_neg hctr]
    exact h.finishes

end Run

end End

/-! ## Sessions -/

section Sessions

variable [AesGcm] {config : InternalEncryptionConfig} {s s' : InternalEncryptionLayerWriter ω}

/-- The states that calls of `write` reach, with any buffers and whatever becomes of them,
when each call finds the writer in a state that is allowed. -/
inductive Reached [Patience] [Write Error ω] (s₀ : InternalEncryptionLayerWriter ω)
    (allowed : InternalEncryptionLayerWriter ω → Prop) : InternalEncryptionLayerWriter ω → Prop
  | start : Reached s₀ allowed s₀
  | write {s : InternalEncryptionLayerWriter ω} (buf : Bytes) :
      Reached s₀ allowed s → allowed s → Reached s₀ allowed (stateOf (write buf s))

/-- The nonces of all contexts under the session key. -/
def nonces (config : InternalEncryptionConfig) (s : InternalEncryptionLayerWriter ω) :
    List Nonce :=
  (commitmentContext config :: contexts s).map AesGcm256.nonce

theorem Reached.numbered [Patience] [Write Error ω] {inner : ω}
    {allowed : InternalEncryptionLayerWriter ω → Prop} (h : Reached (new inner config) allowed s) :
    Numbered config s := by
  induction h with
  | start => exact ⟨rfl, rfl, (by decide : 1 < u64Size), Nat.zero_le _, rfl⟩
  | write buf _ _ ih => exact ih.write buf

theorem Reached.bounded [Patience] [Write Error ω] {inner : ω}
    (h : Reached (new inner config) Settled s) : Bounded s := by
  induction h with
  | start => exact ⟨fun c hc => (by cases hc), Nat.zero_le _⟩
  | write buf hrun hsettled ih => exact ih.write hsettled hrun.numbered.offset buf

omit [AesGcm] in
theorem Bounded.contexts (h : Bounded s) :
    ∀ c ∈ contexts s, c.encrypted.length ≤ 131072 := by
  intro c hc
  rcases List.mem_append.mp hc with hc | hc
  · exact h.retired c hc
  · rw [List.mem_singleton.mp hc]
    exact h.cipher

theorem Numbered.session (h : Numbered config s) :
    (commitmentContext config :: InternalEncryptionLayerWriter.contexts s).map parameters =
      (List.range (s.currentCtr + 1)).map (numbered config) := by
  rw [List.map_cons, h.contexts, List.range_succ_eq_map, List.map_cons, List.map_map]
  rfl

theorem nonces_eq (config : InternalEncryptionConfig) (s : InternalEncryptionLayerWriter ω) :
    nonces config s =
      ((commitmentContext config :: contexts s).map parameters).map fun p => p.2.1 := by
  rw [nonces, List.map_map]
  rfl

theorem Numbered.nonces (h : Numbered config s) :
    nonces config s = (List.range (s.currentCtr + 1)).map (computeNonce config.nonce) := by
  rw [nonces_eq, h.session, List.map_map]
  rfl

/-- The number of the final block is the one behind those of the chunks. -/
theorem Finished.nonces {added : List AesGcm256} (h : Numbered config s)
    (hfinished : Finished config s s' added) :
    InternalEncryptionLayerWriter.nonces config s' =
      (List.range (s'.currentCtr + 1)).map (computeNonce config.nonce) := by
  have hlen : (InternalEncryptionLayerWriter.nonces config s').length = s'.currentCtr + 1 := by
    have hctr := congrArg List.length h.nonces
    rw [List.length_map, List.length_range] at hctr
    rw [InternalEncryptionLayerWriter.nonces, hfinished.contexts, hfinished.counter]
    rw [InternalEncryptionLayerWriter.nonces] at hctr
    simp only [List.length_map, List.length_cons, List.length_append] at hctr ⊢
    omega
  have hall : InternalEncryptionLayerWriter.nonces config s' <+:
      (List.range (s.currentCtr + 1 + 2)).map (computeNonce config.nonce) := by
    rw [nonces_eq, hfinished.contexts, ← List.cons_append, List.map_append, List.map_append,
      ← nonces_eq, h.nonces, List.range_succ (n := s.currentCtr + 1 + 1),
      List.range_succ (n := s.currentCtr + 1), List.append_assoc, List.map_append]
    exact (List.prefix_append_right_inj _).mpr (hfinished.parameters.map _)
  rw [List.prefix_iff_eq_take.mp hall, hlen, ← List.map_take, List.take_range]
  have hle := hall.length_le
  rw [hlen, List.length_map, List.length_range] at hle
  rw [Nat.min_eq_left hle]

omit [AesGcm] in
theorem nodup_nonces {n : ℕ} (hn : n ≤ u64Size) (base : Nonce) :
    ((List.range n).map (computeNonce base)).Nodup := by
  refine List.Nodup.map_on (fun i hi j hj hij => ?_) List.nodup_range
  rw [List.mem_range] at hi hj
  exact computeNonce_injective (by omega) (by omega) hij

/-- The counter is not carried past its end. -/
theorem stuck_of_end [Patience] [Write Error ω] (hctr : ¬ s.currentCtr + 1 < u64Size) :
    finalizeLayer s = .error .hpkeError s ∧
      ∀ buf, s.currentChunkOffset = 131072 → write buf s = .error (.other .hpkeError) s := by
  constructor
  · rw [finalizeLayer, bind_apply, lastRenewCipher, renewCipherAad_eq, if_neg hctr]
  · intro buf hfull
    rw [write, normalChunkPtSize_eq, if_neg (by omega), if_pos hfull, bind_apply, nextChunk_eq,
      if_neg hctr]

end Sessions

end InternalEncryptionLayerWriter

namespace EncryptionLayerWriter

open InternalEncryptionLayerWriter

variable {ω : Type} [Patience] [AesGcm] [Hkdf] [Kem] [Write Error ω]
  {inner : ω} {encryptionConfig : EncryptionConfig}
  {persistentConfig : EncryptionPersistentConfig} {config : InternalEncryptionConfig}

theorem new_eq (hconfig : encryptionConfig.toPersistent = .ok (persistentConfig, config))
    {s : EncryptionLayerWriter ω} (hnew : new inner encryptionConfig = .ok s) :
    ∃ inner', s = InternalEncryptionLayerWriter.new inner' config := by
  rw [new, hconfig] at hnew
  cases hheader : writeHeader persistentConfig inner with
  | error e inner' =>
      simp only [bind, Except.bind, hheader] at hnew
      cases hnew
  | ok u inner' =>
      simp only [bind, Except.bind, hheader] at hnew
      exact ⟨inner', (Except.ok.inj hnew).symm⟩

omit [Patience] in
theorem keyCommitment_eq
    (hconfig : encryptionConfig.toPersistent = .ok (persistentConfig, config)) :
    persistentConfig.keyCommitment = buildKeyCommitmentChain config.key config.nonce := by
  rw [EncryptionConfig.toPersistent] at hconfig
  split at hconfig
  · cases hconfig
  · obtain ⟨rfl, rfl⟩ := Prod.mk.inj (Except.ok.inj hconfig)
    rfl

/-- In every run the contexts of the session are numbered one after the other, by a counter
that does not wrap; and when no call finds a chunk of which bytes have been encrypted that
could not be passed on, none of them encrypts more than a chunk. -/
theorem session_contexts
    (hconfig : encryptionConfig.toPersistent = .ok (persistentConfig, config))
    {s₀ : EncryptionLayerWriter ω} (hnew : new inner encryptionConfig = .ok s₀) :
    (∀ base i j, i < u64Size → j < u64Size →
      computeNonce base i = computeNonce base j → i = j) ∧
    persistentConfig.keyCommitment.tag = (commitmentContext config).intoTag ∧
    (∀ s, Reached s₀ (fun _ => True) s →
      (commitmentContext config :: contexts s).map parameters =
        (List.range (s.currentCtr + 1)).map (numbered config) ∧
      (nonces config s).Nodup ∧
      s.currentCtr < u64Size ∧
      (¬ s.currentCtr + 1 < u64Size → finalizeLayer s = .error .hpkeError s ∧
        ∀ buf, s.currentChunkOffset = 131072 → write buf s = .error (.other .hpkeError) s) ∧
      ∃ added, Finished config s (stateOf (finalizeLayer s)) added ∧
        (nonces config (stateOf (finalizeLayer s))).Nodup) ∧
    (∀ s, Reached s₀ Settled s → ∀ c ∈ contexts s, c.encrypted.length ≤ 131072) := by
  obtain ⟨inner', rfl⟩ := new_eq hconfig hnew
  refine ⟨fun base i j => computeNonce_injective, ?_, fun s hrun => ?_, fun s hrun => ?_⟩
  · rw [keyCommitment_eq hconfig]
    rfl
  · have hnumbered := hrun.numbered
    obtain ⟨added, hfinished⟩ := hnumbered.finalizeLayer
    refine ⟨hnumbered.session, ?_, hnumbered.ctr, stuck_of_end, added, hfinished, ?_⟩
    · rw [hnumbered.nonces]
      exact nodup_nonces hnumbered.ctr _
    · rw [hfinished.nonces hnumbered]
      exact nodup_nonces hfinished.ctr _
  · exact hrun.bounded.contexts

end EncryptionLayerWriter

section Example

open CountingCipher LabelKem InternalEncryptionLayerWriter

/-- The session of a stream that ends right after it has begun. -/
theorem EncryptionLayerWriter.session_contexts_label :
    ∃ persistentConfig config, labelConfig.toPersistent = .ok (persistentConfig, config) ∧
      ∃ s₀ : EncryptionLayerWriter (RawLayerWriter (VecWriter Error)),
        EncryptionLayerWriter.new ⟨⟨[]⟩⟩ labelConfig = .ok s₀ ∧ (nonces config s₀).Nodup ∧
        (nonces config (stateOf (finalizeLayer s₀))).Nodup := by
  obtain ⟨⟨persistentConfig, config⟩, hconfig, hone⟩ :
      ∃ r, labelConfig.toPersistent = .ok r ∧
        r.1.hybridMultiRecipientEncapsulateKey.recipients.length = 1 := ⟨_, rfl, rfl⟩
  have hlen := EncryptionLayerWriter.length_header persistentConfig
  rw [hone] at hlen
  have happ : Appends fun (s : RawLayerWriter (VecWriter Error)) acc => s.inner.Got acc :=
    RawLayerWriter.appends VecWriter.appends
  obtain ⟨s₀, hnew⟩ := EncryptionLayerWriter.new_accept happ
    (RawLayerWriter.accepts (VecWriter.accepts 1763))
    (show (⟨⟨[]⟩⟩ : RawLayerWriter (VecWriter Error)).inner.Got [] from rfl) hconfig
    (by rw [hlen]; decide) (by rw [hlen]; decide)
  obtain ⟨-, -, hrun, -⟩ := EncryptionLayerWriter.session_contexts hconfig hnew
  obtain ⟨-, hnodup, -, -, added, -, hnodup'⟩ := hrun s₀ .start
  exact ⟨persistentConfig, config, hconfig, s₀, hnew, hnodup, hnodup'⟩

/-- A slice as a writer: it has room for so many bytes, and takes none when it is full. -/
structure SliceWriter where
  room : ℕ

namespace SliceWriter

instance instWrite : Write Error SliceWriter where
  write buf s := .ok (min s.room buf.length) ⟨s.room - buf.length⟩

def Got (capacity : ℕ) (s : SliceWriter) (acc : Bytes) : Prop :=
  s.room + acc.length = capacity

theorem appends (capacity : ℕ) : Appends (Got capacity) where
  ok {s s' acc buf k} h _ hwrite := by
    obtain ⟨rfl, rfl⟩ := EStateM.Result.ok.inj hwrite
    rw [Got] at h
    refine ⟨Nat.min_le_right _ _, ?_⟩
    rw [Got, List.length_append, List.length_take]
    simp only
    omega
  interrupted _ _ hwrite _ := by cases hwrite

theorem accepts (capacity : ℕ) : Accepts capacity (Got capacity) := by
  intro s acc buf h hne hlen
  rw [Got] at h
  have hpos := List.length_pos_iff.mpr hne
  exact ⟨_, _, rfl, by omega⟩

/-- What is written to a full slice is encrypted all the same. -/
theorem stateOf_write_full {t : InternalEncryptionLayerWriter SliceWriter} {buf : Bytes}
    (hroom : t.inner.room = 0) (hoffset : t.currentChunkOffset = 0) (hbuf : buf.length = 4096) :
    stateOf (write buf t) = encrypted t buf 0 t.inner := by
  have hsize : min (min 4096 buf.length) (131072 - 0) = buf.length := by omega
  have hne : (t.cipher.encrypt buf).1 ≠ [] := by
    rw [← List.length_pos_iff]
    simp [AesGcm256.encrypt, hbuf]
  have hfail : writeAll (t.cipher.encrypt buf).1 t.inner =
      .error (.kind .writeZero) t.inner := by
    refine writeAll_of_zero hne ?_
    change EStateM.Result.ok (min t.inner.room _) (⟨t.inner.room - _⟩ : SliceWriter) =
      .ok 0 t.inner
    rw [hroom, Nat.zero_min, Nat.zero_sub, ← hroom]
  rw [write, hoffset, normalChunkPtSize_eq, if_neg (by decide), if_neg (by decide),
    writeInChunk_eq (by omega), hoffset, hsize]
  simp only [List.take_length, onInner_eq, hfail, encrypted, stateOf_error, hoffset]

theorem reached_full {s₀ : InternalEncryptionLayerWriter SliceWriter} (hroom : s₀.inner.room = 0)
    (hoffset : s₀.currentChunkOffset = 0) (k : ℕ) :
    ∃ s, Reached s₀ (fun _ => True) s ∧ s.inner.room = 0 ∧ s.currentChunkOffset = 0 ∧
      4096 * k ≤ s.cipher.encrypted.length := by
  obtain ⟨buf, hbuf⟩ : ∃ buf : Bytes, buf.length = 4096 := ⟨_, List.length_replicate (a := 0)⟩
  induction k with
  | zero => exact ⟨s₀, .start, hroom, hoffset, Nat.zero_le _⟩
  | succ k ih =>
      obtain ⟨s, hrun, hroom', hoffset', hlen⟩ := ih
      refine ⟨_, .write buf hrun trivial, ?_⟩
      rw [stateOf_write_full hroom' hoffset' hbuf]
      refine ⟨hroom', hoffset', ?_⟩
      change 4096 * (k + 1) ≤ (s.cipher.encrypt buf).2.encrypted.length
      rw [length_encrypted_encrypt, hbuf]
      omega

end SliceWriter

/-- A slice that is full behind the header, to which 4 KiB are written 33 times over: the
context of the first chunk encrypts 132 KiB. -/
theorem SliceWriter.session_too_long :
    ∃ persistentConfig config, labelConfig.toPersistent = .ok (persistentConfig, config) ∧
      ∃ s₀ s : EncryptionLayerWriter SliceWriter,
        EncryptionLayerWriter.new ⟨1763⟩ labelConfig = .ok s₀ ∧ Reached s₀ (fun _ => True) s ∧
        ∃ c ∈ contexts s, 131072 < c.encrypted.length := by
  obtain ⟨⟨persistentConfig, config⟩, hconfig, hone⟩ :
      ∃ r, labelConfig.toPersistent = .ok r ∧
        r.1.hybridMultiRecipientEncapsulateKey.recipients.length = 1 := ⟨_, rfl, rfl⟩
  have hlen := EncryptionLayerWriter.length_header persistentConfig
  rw [hone] at hlen
  have hgot : SliceWriter.Got 1763 ⟨1763⟩ [] := rfl
  obtain ⟨s₀, hnew⟩ := EncryptionLayerWriter.new_accept (SliceWriter.appends 1763)
    (SliceWriter.accepts 1763) hgot hconfig (by rw [hlen]; decide) (by rw [hlen]; decide)
  have hkeeps := EncryptionLayerWriter.keeps_new (SliceWriter.appends 1763) hgot hconfig hnew
  have hoffset : s₀.currentChunkOffset = 0 := by
    have hzero := hkeeps.offset
    rw [List.length_nil] at hzero
    omega
  have hroom : s₀.inner.room = 0 := by
    have hinner := hkeeps.inner
    rw [SliceWriter.Got, List.length_append, length_open config hkeeps.offset hkeeps.le,
      List.nil_append, hlen] at hinner
    omega
  obtain ⟨s, hrun, -, -, hlong⟩ := SliceWriter.reached_full hroom hoffset 33
  exact ⟨persistentConfig, config, hconfig, s₀, s, hnew, hrun, s.cipher,
    List.mem_append_right _ (List.mem_singleton_self _), by omega⟩

end Example

end Mla
