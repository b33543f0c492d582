import Mla.Reader.Source

/-!
# What is signed of an archive

A signature layer that writes is followed from the header of the archive to its tail, with a
record of the calls made to the destination. The hash that is signed is that of the buffers
of these calls; what the reader hashes again is what the destination has taken of them.
-/

namespace Mla

open Io

variable [Patience] [SignatureSchemes]

/-- What `ArchiveWriter` adds to the destination, behind all layers. -/
def archiveTail : Bytes := emptyTailOptsSerialization ++ endMlaMagic

omit [Patience] [SignatureSchemes] in
theorem length_archiveTail : archiveTail.length = 17 := rfl

section Tails

namespace SignatureLayerWriter

omit [Patience] [SignatureSchemes] in
theorem length_signatureTail (sigs : Bytes) : (signatureTail sigs).length = sigs.length + 25 := by
  simp only [signatureTail, List.length_append, length_emptyTailOptsSerialization, length_leBytes]
  omega

omit [Patience] [SignatureSchemes] in
/-- The tail of the layer is found from its last bytes. -/
theorem signatureTailLen_append {X sigs : Bytes} (h : sigs.length + 8 < u64Size) :
    SignatureLayerReader.signatureTailLen (X ++ signatureTail sigs) = sigs.length + 25 := by
  have hlen : (X ++ signatureTail sigs).length = X.length + (sigs.length + 25) := by
    rw [List.length_append, length_signatureTail]
  have hlast : slice (X ++ signatureTail sigs) (X.length + (sigs.length + 17)) 8 =
      leBytes 8 (sigs.length + 8) := by
    refine slice_eq_mid
      (a := X ++ (emptyTailOptsSerialization ++ (leBytes 8 sigs.length ++ sigs))) (c := [])
      ?_ ?_ (length_leBytes 8 _).symm
    · simp only [signatureTail, List.append_assoc, List.append_nil]
    · simp only [List.length_append, length_emptyTailOptsSerialization, length_leBytes]
      omega
  have hfirst : slice (X ++ signatureTail sigs) (X.length + 1) 8 = leBytes 8 1 := by
    refine slice_eq_mid (a := X ++ [0])
      (c := leBytes 8 sigs.length ++ (sigs ++ leBytes 8 (sigs.length + 8)))
      ?_ (by rw [List.length_append, List.length_singleton]) (length_leBytes 8 _).symm
    simp only [signatureTail, List.append_assoc]
    rfl
  have hone : fromLeBytes (leBytes 8 1) = 1 := rfl
  rw [SignatureLayerReader.signatureTailLen, hlen,
    show X.length + (sigs.length + 25) - 8 = X.length + (sigs.length + 17) by omega, hlast,
    fromLeBytes_leBytes_of_lt h,
    show X.length + (sigs.length + 25) - (8 + (sigs.length + 8) + 8) = X.length + 1 by omega,
    hfirst, hone]
  omega

end SignatureLayerWriter

omit [Patience] [SignatureSchemes] in
theorem tailLen_append (X : Bytes) : ArchiveReader.tailLen (X ++ archiveTail) = 17 := by
  have hlength : slice (X ++ archiveTail) ((X ++ archiveTail).length - 16) 8 = leBytes 8 1 := by
    refine slice_eq_mid (a := X ++ [0]) (c := endMlaMagic) ?_ ?_ (length_leBytes 8 _).symm
    · rw [List.append_assoc, List.append_assoc]
      rfl
    · rw [List.length_append, length_archiveTail, List.length_append, List.length_singleton]
      omega
  have hone : fromLeBytes (leBytes 8 1) = 1 := rfl
  rw [ArchiveReader.tailLen, hlength, hone]

end Tails

section Written

variable {W : Type} [Write Error W]

/-- The destination has taken `acc`, and the hash was given all buffers. -/
def HashWrapperWriter.Recorded (s : HashWrapperWriter (RawLayerWriter (Recorder W))) (acc : Bytes) :
    Prop :=
  s.inner.inner.delivered = acc ∧ s.hash = s.inner.inner.asked

def SignatureLayerWriter.Recorded (config : SignatureConfig)
    (s : SignatureLayerWriter (RawLayerWriter (Recorder W))) (acc : Bytes) : Prop :=
  s.inner.inner.delivered = acc ∧ s.hash = s.inner.inner.asked ∧ s.signatureConfig = config

omit [Patience] [SignatureSchemes] in
theorem HashWrapperWriter.appends_recorded (h : WithinBuffer (ε := Error) W) :
    Appends (HashWrapperWriter.Recorded (W := W)) :=
  (HashWrapperWriter.forwards.appends (RawLayerWriter.appends (Recorder.appends h))).and
    HashWrapperWriter.preserves_write

omit [Patience] in
theorem SignatureLayerWriter.appends_recorded (h : WithinBuffer (ε := Error) W)
    (config : SignatureConfig) : Appends (SignatureLayerWriter.Recorded (W := W) config) :=
  (SignatureLayerWriter.forwards.appends (RawLayerWriter.appends (Recorder.appends h))).and
    (SignatureLayerWriter.preserves_write config)

/-- From the header of the archive on, up to the last buffer of the inner layer. -/
def writeSigned (dest : W) (config : SignatureConfig) (bufs : List Bytes) :
    Except Error (SignatureLayerWriter (RawLayerWriter W)) := do
  let (raw, archiveHeaderHash) ← writeArchiveHeader dest
  let layer ← SignatureLayerWriter.new raw config archiveHeaderHash
  let (_, layer) ← runOn (liftIo (writeBuffers bufs)) layer
  pure layer

/-- All that is signed when the inner layer is `body`. -/
def signedBytes (body : Bytes) : Bytes :=
  ArchiveHeader.encode ++ (signatureLayerMagic ++ emptyOptsSerialization) ++ body

variable {dest : W} {raw : RawLayerWriter (Recorder W)} {hash acc : Bytes} {config : SignatureConfig}
  {s : SignatureLayerWriter (RawLayerWriter (Recorder W))} {w : Recorder W}

omit [SignatureSchemes] in
theorem writeArchiveHeader_ok (h : WithinBuffer (ε := Error) W)
    (hrun : writeArchiveHeader (⟨dest, []⟩ : Recorder W) = .ok (raw, hash)) :
    HashWrapperWriter.Recorded ⟨raw, hash⟩ ArchiveHeader.encode := by
  obtain ⟨⟨n, t⟩, hstep, hend⟩ := Except.bind_eq_ok.mp hrun
  cases Except.ok.inj hend
  exact ((ArchiveHeader.emits _).ok (HashWrapperWriter.appends_recorded h) ⟨rfl, rfl⟩
    (runOn_eq_ok.mp hstep)).2

theorem SignatureLayerWriter.new_ok (h : WithinBuffer (ε := Error) W)
    (hraw : HashWrapperWriter.Recorded ⟨raw, hash⟩ acc)
    (hrun : SignatureLayerWriter.new raw config hash = .ok s) :
    SignatureLayerWriter.Recorded config s
      (acc ++ (signatureLayerMagic ++ emptyOptsSerialization)) := by
  obtain ⟨⟨n, t⟩, hstep, hend⟩ := Except.bind_eq_ok.mp hrun
  cases Except.ok.inj hend
  obtain ⟨-, hdelivered, hhash⟩ := ((Emits.put signatureLayerMagic).seq emits_opts).ok
    (HashWrapperWriter.appends_recorded h) hraw (runOn_eq_ok.mp hstep)
  exact ⟨hdelivered, hhash, rfl⟩

theorem SignatureLayerWriter.finalize_ok [Sha512] (h : WithinBuffer (ε := Error) W)
    (hs : SignatureLayerWriter.Recorded config s acc) (hrun : LayerWriter.finalize s = .ok w) :
    ∃ sigs, SignatureLayerWriter.signatureBytes s.hash config.signatureKeys config.rng = some sigs ∧
      sigs.length + 8 < u64Size ∧ w.delivered = acc ++ SignatureLayerWriter.signatureTail sigs := by
  obtain ⟨out, hout, hrun⟩ := Except.bind_eq_ok.mp hrun
  obtain rfl := Except.ok.inj hout
  obtain ⟨⟨u, t⟩, hstep, hend⟩ := Except.bind_eq_ok.mp hrun
  cases Except.ok.inj hend
  obtain ⟨hdelivered, -, rfl⟩ := hs
  exact SignatureLayerWriter.writeSignatures_ok (Recorder.appends h) hdelivered
    (runOn_eq_ok.mp hstep)

theorem SignatureLayerWriter.finalize_accept [Sha512] (h : WithinBuffer (ε := Error) W) {n : ℕ}
    (haccepts : Accepts n fun (s : Recorder W) acc => s.delivered = acc)
    (hs : SignatureLayerWriter.Recorded config s acc) {sigs : Bytes}
    (hsigs : SignatureLayerWriter.signatureBytes s.hash config.signatureKeys config.rng = some sigs)
    (hn : acc.length + (sigs.length + 25) ≤ n) (hlt : sigs.length + 8 < u64Size) :
    ∃ w : Recorder W, LayerWriter.finalize s = .ok w := by
  obtain ⟨hdelivered, -, rfl⟩ := hs
  obtain ⟨w, hrun⟩ := SignatureLayerWriter.writeSignatures_accept (Recorder.appends h) haccepts
    hdelivered hsigs hn hlt
  exact ⟨w, Except.bind_eq_ok.mpr ⟨s.inner.inner, rfl,
    Except.bind_eq_ok.mpr ⟨((), w), runOn_eq_ok.mpr hrun, rfl⟩⟩⟩

theorem writeSigned_ok (h : WithinBuffer (ε := Error) W) {bufs : List Bytes}
    (hrun : writeSigned (⟨dest, []⟩ : Recorder W) config bufs = .ok s) :
    SignatureLayerWriter.Recorded config s (signedBytes bufs.flatten) := by
  obtain ⟨⟨raw, hash⟩, hheader, hrun⟩ := Except.bind_eq_ok.mp hrun
  obtain ⟨s₁, hnew, hrun⟩ := Except.bind_eq_ok.mp hrun
  obtain ⟨⟨u, s₂⟩, hwrites, hrun⟩ := Except.bind_eq_ok.mp hrun
  obtain rfl := Except.ok.inj hrun
  have hs₁ := SignatureLayerWriter.new_ok h (writeArchiveHeader_ok h hheader) hnew
  exact (SignatureLayerWriter.appends_recorded h config).writeBuffers_ok hs₁
    (liftIo_eq_ok.mp (runOn_eq_ok.mp hwrites))

end Written

/-! ## What a reader hashes again -/

omit [Patience] [SignatureSchemes] in
theorem drop_encode (X : Bytes) : (ArchiveHeader.encode ++ X).drop (12 + 1) = X :=
  List.drop_left' ArchiveHeader.length_encode

omit [Patience] [SignatureSchemes] in
theorem layers_archive (X : Bytes) :
    ArchiveReader.layers (ArchiveHeader.encode ++ (X ++ archiveTail)) (12 + 1) = X := by
  rw [ArchiveReader.layers, StripHeadTailReader.strip, drop_encode, tailLen_append, slice_zero,
    List.length_append, length_archiveTail, Nat.sub_zero, Nat.add_sub_cancel, List.take_left]

omit [Patience] [SignatureSchemes] in
theorem optsLength_archive (X : Bytes) :
    optsLength ((ArchiveHeader.encode ++ X).drop 12) = some 1 := by
  rw [optsLength, if_pos]
  rw [slice_drop, slice_append_left (by rw [ArchiveHeader.length_encode])]
  decide

omit [SignatureSchemes] in
/-- Of an archive with a signature layer, header and layer are hashed up to the tail. -/
theorem signedHash_archive [Kem] {ρ : Type} [Read Error ρ] [Seek Error ρ] {At : ρ → ℕ → Prop}
    {layer sigs hash : Bytes} (hsigs : sigs.length + 8 < u64Size)
    (hmoves : Moves (ArchiveHeader.encode ++
      (layer ++ SignatureLayerWriter.signatureTail sigs ++ archiveTail)) At)
    (hlen : (ArchiveHeader.encode ++
      (layer ++ SignatureLayerWriter.signatureTail sigs ++ archiveTail)).length < u64Size)
    {src : ρ} {p : ℕ} (hsrc : At src p) (hrun : ArchiveReader.signedHash src = .ok hash) :
    hash = ArchiveHeader.encode ++ layer := by
  obtain ⟨k, hk, hhash⟩ := ArchiveReader.signedHash_ok hmoves hlen hsrc hrun
  rw [optsLength_archive] at hk
  obtain rfl := Option.some.inj hk
  have hcut : 12 + 1 + ((layer ++ SignatureLayerWriter.signatureTail sigs).length -
      (sigs.length + 25)) = (ArchiveHeader.encode ++ layer).length := by
    rw [List.length_append, SignatureLayerWriter.length_signatureTail, List.length_append,
      ArchiveHeader.length_encode, Nat.add_sub_cancel]
  rw [hhash, layers_archive, SignatureLayerWriter.signatureTailLen_append hsigs, hcut,
    List.append_assoc layer, ← List.append_assoc ArchiveHeader.encode, List.take_left]

/-! ## What is signed is what was delivered -/

section Signed

variable {W : Type} [Write Error W] [Sha512] [Kem]

/-- The hash that is signed is that of the bytes which the destination has taken, and so is
the one that a reader of the archive comes to. -/
structure CoversDelivered (s : SignatureLayerWriter (RawLayerWriter (Recorder W)))
    (w : Recorder W) : Prop where
  signed : s.hash = s.inner.inner.delivered
  recomputed : ∀ {ρ : Type} [Read Error ρ] [Seek Error ρ] {At : ρ → ℕ → Prop} {src : ρ} {p : ℕ}
    {hash : Bytes}, Moves (w.delivered ++ archiveTail) At →
    (w.delivered ++ archiveTail).length < u64Size → At src p →
    ArchiveReader.signedHash src = .ok hash → hash = s.hash

/-- The signatures are made over the hash, and the hash covers what was delivered exactly
when each call to the destination has taken its whole buffer. -/
theorem coversDelivered_iff (h : WithinBuffer (ε := Error) W) {dest : W} {config : SignatureConfig}
    {bufs : List Bytes} {s : SignatureLayerWriter (RawLayerWriter (Recorder W))}
    (hrun : writeSigned ⟨dest, []⟩ config bufs = .ok s) {w : Recorder W}
    (hfinal : LayerWriter.finalize s = .ok w) :
    s.inner.inner.delivered = signedBytes bufs.flatten ∧
      (∃ sigs, SignatureLayerWriter.signatureBytes s.hash config.signatureKeys config.rng =
        some sigs ∧ w.delivered = s.inner.inner.delivered ++ SignatureLayerWriter.signatureTail sigs) ∧
      (CoversDelivered s w ↔ s.inner.inner.Whole) := by
  have hs := writeSigned_ok h hrun
  obtain ⟨sigs, hsigs, hlt, hw⟩ := SignatureLayerWriter.finalize_ok h hs hfinal
  obtain ⟨hdelivered, hhash, -⟩ := hs
  refine ⟨hdelivered, ⟨sigs, hsigs, by rw [hw, hdelivered]⟩, ?_⟩
  rw [← Recorder.asked_eq_delivered_iff, ← hhash]
  refine ⟨CoversDelivered.signed, fun hsigned => ⟨hsigned, ?_⟩⟩
  intro ρ _ _ At src p hash hmoves hlen hsrc hrun
  have harchive : w.delivered ++ archiveTail = ArchiveHeader.encode ++
      (signatureLayerMagic ++ emptyOptsSerialization ++ bufs.flatten ++
        SignatureLayerWriter.signatureTail sigs ++ archiveTail) := by
    rw [hw, signedBytes]
    simp only [List.append_assoc]
  rw [harchive] at hmoves hlen
  rw [signedHash_archive hlt hmoves hlen hsrc hrun, hsigned, hdelivered, signedBytes,
    List.append_assoc ArchiveHeader.encode]

end Signed

end Mla

namespace Mla.LabelSignature

open Io LabelKem CountingCipher

/-- A destination that takes one byte in each call. -/
structure ByteWriter where
  data : Bytes

instance instWriteByteWriter : Write Error ByteWriter where
  write
    | [] => fun s => .ok 0 s
    | b :: _ => fun s => .ok 1 ⟨s.data ++ [b]⟩

theorem withinBuffer_byteWriter : WithinBuffer (ε := Error) ByteWriter := by
  intro buf s s' k hwrite
  cases buf with
  | nil =>
      obtain ⟨rfl, -⟩ := EStateM.Result.ok.inj hwrite
      exact Nat.le_refl 0
  | cons b bs =>
      obtain ⟨rfl, -⟩ := EStateM.Result.ok.inj hwrite
      exact Nat.succ_pos _

theorem withinBuffer_vecWriter : WithinBuffer (ε := Error) (VecWriter Error) := by
  intro buf s s' k hwrite
  obtain ⟨rfl, -⟩ := EStateM.Result.ok.inj hwrite
  exact Nat.le_refl _

def config : SignatureConfig := ⟨[privateKey 1], rng⟩

/-- Whatever the hash, the one key has signatures. -/
theorem signatureBytes_config (hash : Bytes) :
    ∃ sigs, SignatureLayerWriter.signatureBytes hash config.signatureKeys config.rng = some sigs :=
  ⟨_, rfl⟩

theorem exists_finalize {W : Type} [Write Error W] (h : WithinBuffer (ε := Error) W)
    (hprogress : ∀ {buf : Bytes} {s : W}, buf ≠ [] → ∃ k s', Write.write buf s = .ok k s' ∧ 0 < k)
    {dest : W} {bufs : List Bytes} {s : SignatureLayerWriter (RawLayerWriter (Recorder W))}
    (hrun : writeSigned ⟨dest, []⟩ config bufs = .ok s) :
    ∃ w : Recorder W, LayerWriter.finalize s = .ok w := by
  obtain ⟨sigs, hsigs⟩ := signatureBytes_config s.hash
  have hlength : sigs.length = 4695 := SignatureLayerWriter.length_signatureBytes s.hash hsigs
  refine SignatureLayerWriter.finalize_accept h ?_ (writeSigned_ok h hrun) hsigs le_rfl
    (by rw [hlength]; decide)
  intro t acc buf _ hne _
  obtain ⟨k, t', hwrite, hk⟩ := hprogress (s := t.inner) hne
  exact ⟨k, ⟨t', t.calls ++ [(buf, k)]⟩, by rw [Recorder.write_eq, hwrite], hk⟩

/-- Two bytes are signed and delivered as they are to a destination in memory. -/
theorem coversDelivered_iff_two :
    ∃ (s : SignatureLayerWriter (RawLayerWriter (Recorder (VecWriter Error)))) (w : Recorder (VecWriter Error)),
      writeSigned ⟨⟨[]⟩, []⟩ config [[1, 2]] = .ok s ∧ LayerWriter.finalize s = .ok w ∧
      CoversDelivered s w := by
  have hwhole : (writeSigned (⟨⟨[]⟩, []⟩ : Recorder (VecWriter Error)) config [[1, 2]]).toOption.map
      (fun s => decide s.inner.inner.Whole) = some true := by decide +kernel
  cases hrun : writeSigned (⟨⟨[]⟩, []⟩ : Recorder (VecWriter Error)) config [[1, 2]] with
  | error e =>
      rw [hrun] at hwhole
      cases hwhole
  | ok s =>
  rw [hrun] at hwhole
  obtain ⟨w, hfinal⟩ := exists_finalize withinBuffer_vecWriter
    (fun {buf s} hne => ⟨buf.length, _, rfl, List.length_pos_iff.mpr hne⟩) hrun
  exact ⟨s, w, rfl, hfinal, (coversDelivered_iff withinBuffer_vecWriter hrun hfinal).2.2.mpr
    (of_decide_eq_true (Option.some.inj hwhole))⟩

/-- A destination that takes one byte at a time is handed what is left of each buffer again,
and all of it is hashed again. -/
theorem bytewise_not_coversDelivered :
    ∃ (s : SignatureLayerWriter (RawLayerWriter (Recorder ByteWriter))) (w : Recorder ByteWriter),
      writeSigned ⟨⟨[]⟩, []⟩ config [[1, 2]] = .ok s ∧ LayerWriter.finalize s = .ok w ∧
      ¬ CoversDelivered s w := by
  have hdiffers : (writeSigned (⟨⟨[]⟩, []⟩ : Recorder ByteWriter) config [[1, 2]]).toOption.map
      (fun s => decide (s.hash = s.inner.inner.delivered)) = some false := by decide +kernel
  cases hrun : writeSigned (⟨⟨[]⟩, []⟩ : Recorder ByteWriter) config [[1, 2]] with
  | error e =>
      rw [hrun] at hdiffers
      cases hdiffers
  | ok s =>
  rw [hrun] at hdiffers
  obtain ⟨w, hfinal⟩ := exists_finalize withinBuffer_byteWriter
    (fun {buf s} hne => by
      obtain ⟨b, bs, rfl⟩ := List.exists_cons_of_ne_nil hne
      exact ⟨1, _, rfl, Nat.one_pos⟩) hrun
  exact ⟨s, w, rfl, hfinal, fun hcovers =>
    of_decide_eq_false (Option.some.inj hdiffers) hcovers.signed⟩

end Mla.LabelSignature
