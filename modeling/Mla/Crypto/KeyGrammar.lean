import Mla.Crypto.KeyRoundTrip

/-!
# The format of key files

`Documents` is the format of key files as it is documented, line by line. What the parsers read
is more: a view is a file taken apart as they read it, and it is `Exact` where what they do not
look at is as documented. A file has one view at most.
-/

namespace Mla

open Io

/-! ## The documented format -/

/-- `TLVKeyOpt`: a type, and a vector of bytes. -/
def encodeTlvKeyOpt (keyOptType : ℕ) (value : Bytes) : Bytes :=
  leBytes 4 keyOptType ++ (leBytes 8 value.length ++ value)

inductive TlvKeyOpts : Bytes → Prop
  | nil : TlvKeyOpts []
  | cons {keyOptType : ℕ} {value rest : Bytes} : keyOptType < 2 ^ 32 → value.length < u64Size →
      TlvKeyOpts rest → TlvKeyOpts (encodeTlvKeyOpt keyOptType value ++ rest)

/-- `KeyOpts`: there are none, or they are a sequence of typed values. -/
def IsKeyOpts (bytes : Bytes) : Prop :=
  ∃ options : Option Bytes, bytes = encodeOptions options ∧
    ∀ payload ∈ options, payload.length < u64Size ∧ TlvKeyOpts payload

/-- What stands on a line with a key: a header, and the base64 of a method, of options and of two
keys of these sizes. -/
structure KeyLineFormat where
  header : Bytes
  methodId0 : Bytes
  eccSize : ℕ
  pqSize : ℕ

structure KeyFileFormat where
  header : Bytes
  second : KeyLineFormat
  third : KeyLineFormat
  footer : Bytes

def privKeyFileFormat : KeyFileFormat where
  header := privKeyFileHeader
  second := ⟨mlaPrivDecKeyHeader, decMethodId0Priv, eccPrivkeySize, mlkemDzSize⟩
  third := ⟨mlaPrivSigKeyHeader, sigMethodId0Priv, ed25519PrivkeySize, mldsaXiSize⟩
  footer := privKeyFileFooter

def pubKeyFileFormat : KeyFileFormat where
  header := pubKeyFileHeader
  second := ⟨mlaPubEncKeyHeader, encMethodId0Pub, eccPubkeySize, mlkemPubkeySize⟩
  third := ⟨mlaPubSigverifKeyHeader, sigverifMethodId0Pub, eccPubkeySize, mldsaPubkeySize⟩
  footer := pubKeyFileFooter

def KeyLineFormat.Documents (f : KeyLineFormat) (line : Bytes) : Prop :=
  ∃ (opts : Bytes) (ecc : Vector UInt8 f.eccSize) (pq : Vector UInt8 f.pqSize), IsKeyOpts opts ∧
    line = f.header ++ base64EncodeLoop (f.methodId0 ++ (opts ++ (ecc.toList ++ pq.toList)))

structure KeyFileFormat.DocumentsParts (f : KeyFileFormat) (parts : FiveParts) : Prop where
  first : parts.first = f.header
  second : f.second.Documents parts.second
  third : f.third.Documents parts.third
  fourth : ∃ opts, IsKeyOpts opts ∧ parts.fourth = base64EncodeLoop opts
  fifth : parts.fifth = f.footer

/-- The bytes are a key file of the format, with any separators. -/
def KeyFileFormat.Documents (f : KeyFileFormat) (s : Bytes) : Prop :=
  ∃ parts seps, s = parts.join seps ∧ f.DocumentsParts parts

/-! ## What is read -/

/-- A line with a key, taken apart as it is read. -/
structure KeyLineView (f : KeyLineFormat) where
  text : Bytes
  opts : Bytes
  ecc : Vector UInt8 f.eccSize
  pq : Vector UInt8 f.pqSize
  tail : Bytes

namespace KeyLineView

variable {f : KeyLineFormat} {v w : KeyLineView f} {line : Bytes}

def data (v : KeyLineView f) : Bytes :=
  f.methodId0 ++ (v.opts ++ (v.ecc.toList ++ (v.pq.toList ++ v.tail)))

structure Of (line : Bytes) (v : KeyLineView f) : Prop where
  line : line = f.header ++ v.text
  decode : base64Decode v.text = .ok v.data
  opts : Skipped v.opts

/-- What is not looked at is as documented: the spare bits of the text, what the options hold, and
what stands behind the keys. -/
structure Exact (v : KeyLineView f) : Prop where
  spareBits : spareBits (stripPadding v.text) = 0
  opts : IsKeyOpts v.opts
  tail : v.tail = []

end KeyLineView

/-- No options are the front of others. -/
theorem Skipped.unique {a b x y : Bytes} (ha : Skipped a) (hb : Skipped b)
    (h : a ++ x = b ++ y) : a = b ∧ x = y := by
  obtain ⟨options, rfl, hlen⟩ := ha
  obtain ⟨options', rfl, hlen'⟩ := hb
  cases options with
  | none =>
      cases options' with
      | none => exact ⟨rfl, (List.cons.inj h).2⟩
      | some payload' => exact absurd (List.cons.inj h).1 (by decide)
  | some payload =>
      cases options' with
      | none => exact absurd (List.cons.inj h).1 (by decide)
      | some payload' =>
          have hbody : leBytes 8 payload.length ++ payload ++ x =
              leBytes 8 payload'.length ++ payload' ++ y := (List.cons.inj h).2
          rw [List.append_assoc, List.append_assoc] at hbody
          obtain ⟨hlength, hrest⟩ := List.append_inj hbody (by rw [length_leBytes, length_leBytes])
          have heq := leBytes_inj (hlen payload rfl) (hlen' payload' rfl) hlength
          obtain ⟨rfl, rfl⟩ := List.append_inj hrest heq
          exact ⟨rfl, rfl⟩

theorem IsKeyOpts.skipped {bytes : Bytes} (h : IsKeyOpts bytes) : Skipped bytes := by
  obtain ⟨options, rfl, hpayload⟩ := h
  exact ⟨options, rfl, fun payload hmem => (hpayload payload hmem).1⟩

namespace KeyLineView

variable {f : KeyLineFormat} {v w : KeyLineView f} {line : Bytes}

/-- A line is taken apart in one way. -/
theorem Of.unique (hv : v.Of line) (hw : w.Of line) : v = w := by
  obtain ⟨text, opts, ecc, pq, tail⟩ := v
  obtain ⟨text', opts', ecc', pq', tail'⟩ := w
  obtain rfl : text = text' := List.append_cancel_left (hv.line.symm.trans hw.line)
  have hdata := Except.ok.inj (hv.decode.symm.trans hw.decode)
  obtain ⟨rfl, hkeys⟩ := hv.opts.unique hw.opts (List.append_cancel_left hdata)
  obtain ⟨hecc, hrest⟩ := List.append_inj hkeys (by simp)
  obtain ⟨hpq, rfl⟩ := List.append_inj hrest (by simp)
  obtain rfl := Vector.toList_inj.mp hecc
  obtain rfl := Vector.toList_inj.mp hpq
  rfl

/-- The view of a documented line. -/
def ofKeys (opts : Bytes) (ecc : Vector UInt8 f.eccSize) (pq : Vector UInt8 f.pqSize) :
    KeyLineView f where
  text := base64EncodeLoop (f.methodId0 ++ (opts ++ (ecc.toList ++ pq.toList)))
  opts := opts
  ecc := ecc
  pq := pq
  tail := []

theorem data_ofKeys (opts : Bytes) (ecc : Vector UInt8 f.eccSize) (pq : Vector UInt8 f.pqSize) :
    (ofKeys opts ecc pq).data = f.methodId0 ++ (opts ++ (ecc.toList ++ pq.toList)) := by
  rw [data, ofKeys, List.append_nil]

/-- A line is as documented where its view is exact. -/
theorem Of.exact_iff (hv : v.Of line) (hlen : line.length < i64Size) :
    v.Exact ↔ f.Documents line := by
  have htext : v.text.length ≤ line.length := by
    rw [hv.line, List.length_append]
    exact Nat.le_add_left _ _
  have hfour : 4 < i64Size := by decide
  have hword := two_mul_i64Size
  constructor
  · rintro ⟨hspare, hopts, htail⟩
    have hencode := (base64Encode_decode hv.decode (by omega)).mpr hspare
    refine ⟨v.opts, v.ecc, v.pq, hopts, ?_⟩
    rw [hv.line, (base64Encode_eq_ok.mp hencode).1, data, htail, List.append_nil]
  · rintro ⟨opts, ecc, pq, hopts, hline⟩
    have hlength := congrArg List.length hline
    rw [List.length_append, length_base64EncodeLoop] at hlength
    have hencode : base64Encode (ofKeys opts ecc pq).data = .ok (ofKeys opts ecc pq).text := by
      rw [data_ofKeys, ofKeys, base64Encode_eq_ok, length_base64EncodeLoop]
      exact ⟨rfl, by omega, by omega⟩
    have hdecode := base64Decode_encode hencode
    obtain rfl := hv.unique ⟨hline, hdecode, hopts.skipped⟩
    exact ⟨(base64Encode_decode hdecode (by omega)).mp hencode, hopts, rfl⟩

/-- The keys that are read from a line are those of its view. -/
theorem keyLine_iff {α : Type} {make : Vector UInt8 f.eccSize → Vector UInt8 f.pqSize → Option α}
    {tail : Bytes} {key : α} :
    KeyLine f.header f.methodId0 make tail line key ↔
      ∃ v : KeyLineView f, v.Of line ∧ v.tail = tail ∧ make v.ecc v.pq = some key := by
  constructor
  · rintro ⟨text, _, hline, hdecode, opts, _, rfl, hopts, ecc, pq, rfl, hkey⟩
    exact ⟨⟨text, opts, ecc, pq, tail⟩, ⟨hline, hdecode, hopts⟩, rfl, hkey⟩
  · rintro ⟨v, hv, rfl, hkey⟩
    exact ⟨v.text, v.data, hv.line, hv.decode, v.opts, _, rfl, hv.opts, v.ecc, v.pq, rfl, hkey⟩

end KeyLineView

/-! ## Files -/

/-- A file taken apart as it is read. -/
structure KeyFileView (f : KeyFileFormat) where
  parts : FiveParts
  seps : Fin 5 → Sep
  second : KeyLineView f.second
  third : KeyLineView f.third

namespace KeyFileView

variable {f : KeyFileFormat} {v : KeyFileView f} {s : Bytes}

structure Of (s : Bytes) (v : KeyFileView f) : Prop where
  join : s = v.parts.join v.seps
  plain : v.parts.Plain
  first : v.parts.first = f.header
  second : v.second.Of v.parts.second
  third : v.third.Of v.parts.third
  fifth : v.parts.fifth = f.footer

/-- What is not looked at is as documented; nothing looks at the fourth line. -/
structure Exact (v : KeyFileView f) : Prop where
  second : v.second.Exact
  third : v.third.Exact
  fourth : ∃ opts, IsKeyOpts opts ∧ v.parts.fourth = base64EncodeLoop opts

end KeyFileView

/-- No separator starts in the headers of the format. -/
structure KeyFileFormat.Plain (f : KeyFileFormat) : Prop where
  header : IsPart f.header
  second : IsPart f.second.header
  third : IsPart f.third.header
  footer : IsPart f.footer

theorem privKeyFileFormat_plain : privKeyFileFormat.Plain where
  header := isPart_privKeyFile.1
  second := isPart_privKeyFile.2.2.1
  third := isPart_privKeyFile.2.2.2
  footer := isPart_privKeyFile.2.1

theorem pubKeyFileFormat_plain : pubKeyFileFormat.Plain where
  header := isPart_pubKeyFile.1
  second := isPart_pubKeyFile.2.2.1
  third := isPart_pubKeyFile.2.2.2
  footer := isPart_pubKeyFile.2.1

section Files

variable {f : KeyFileFormat} {s : Bytes}

theorem KeyLineFormat.Documents.isPart {l : KeyLineFormat} {line : Bytes} (h : l.Documents line)
    (hheader : IsPart l.header) : IsPart line := by
  obtain ⟨opts, ecc, pq, -, rfl⟩ := h
  exact isPart_line hheader _

theorem KeyFileFormat.DocumentsParts.plain {parts : FiveParts} (h : f.DocumentsParts parts)
    (hf : f.Plain) : parts.Plain := by
  obtain ⟨opts, hopts, hfourth⟩ := h.fourth
  refine ⟨h.first ▸ hf.header, h.second.isPart hf.second, h.third.isPart hf.third, ?_,
    h.fifth ▸ hf.footer⟩
  rw [hfourth]
  refine ⟨fun hnil => ?_, base64EncodeLoop_plain opts⟩
  obtain ⟨options, rfl, -⟩ := hopts
  have hlen := congrArg List.length hnil
  rw [length_base64EncodeLoop, List.length_nil] at hlen
  cases options with
  | none => exact absurd hlen (by decide)
  | some payload =>
      simp only [encodeOptions, List.length_cons] at hlen
      omega

/-- The parts are no longer than the file. -/
theorem FiveParts.length_le_join (parts : FiveParts) (seps : Fin 5 → Sep) :
    parts.second.length ≤ (parts.join seps).length ∧
      parts.third.length ≤ (parts.join seps).length := by
  simp only [FiveParts.join, List.length_append]
  omega

/-- A file is as documented where its view is exact. -/
theorem KeyFileView.Of.exact_iff {v : KeyFileView f} (hv : v.Of s) (hf : f.Plain)
    (hlen : s.length < i64Size) : v.Exact ↔ f.Documents s := by
  obtain ⟨hsecond, hthird⟩ := v.parts.length_le_join v.seps
  rw [← hv.join] at hsecond hthird
  have hsecondIff := hv.second.exact_iff (hsecond.trans_lt hlen)
  have hthirdIff := hv.third.exact_iff (hthird.trans_lt hlen)
  constructor
  · intro h
    exact ⟨v.parts, v.seps, hv.join, hv.first, hsecondIff.mp h.second, hthirdIff.mp h.third,
      h.fourth, hv.fifth⟩
  · rintro ⟨parts, seps, hjoin, hparts⟩
    have hsplit := splitInFiveParts_join (hparts.plain hf) seps
    rw [← hjoin, hv.join, splitInFiveParts_join hv.plain v.seps] at hsplit
    obtain rfl := Except.ok.inj hsplit
    exact ⟨hsecondIff.mpr hparts.second, hthirdIff.mpr hparts.third, hparts.fourth⟩

/-- The parser of a line succeeds on the lines that have a view with `P`. -/
def Views {α : Type} {l : KeyLineFormat} (deserialize : Bytes → Except Error α)
    (P : KeyLineView l → Prop) : Prop :=
  ∀ line, (∃ key, deserialize line = .ok key) ↔ ∃ v : KeyLineView l, v.Of line ∧ P v

variable {α β γ σ : Type} [Read Error σ] {At : σ → ℕ → ℕ → Prop} {src : σ} {i : ℕ}
  {second : Bytes → Except Error α} {third : Bytes → Except Error β} {make : α → β → γ}
  {P : KeyLineView f.second → Prop} {Q : KeyLineView f.third → Prop}

/-- A file is read where it has a view. -/
theorem deserializeKeyFile_iff_view (hsecond : Views second P) (hthird : Views third Q)
    (h : Trickles s At) (hlen : s.length < i64Size) (hsrc : At src 0 i) :
    (∃ fuel key, deserializeKeyFile f.header f.footer second third make fuel src = .ok key) ↔
      ∃ v : KeyFileView f, v.Of s ∧ P v.second ∧ Q v.third := by
  constructor
  · rintro ⟨fuel, key, hrun⟩
    obtain ⟨parts, seps, a, b, hjoin, hparts, -⟩ := exists_of_deserializeKeyFile h hsrc hrun
    obtain ⟨v, hv, hP⟩ := (hsecond parts.second).mp ⟨a, hparts.second⟩
    obtain ⟨w, hw, hQ⟩ := (hthird parts.third).mp ⟨b, hparts.third⟩
    exact ⟨⟨parts, seps, v, w⟩, ⟨hjoin, hparts.plain, hparts.first, hv, hw, hparts.fifth⟩, hP, hQ⟩
  · rintro ⟨v, hv, hP, hQ⟩
    obtain ⟨a, ha⟩ := (hsecond v.parts.second).mpr ⟨v.second, hv.second, hP⟩
    obtain ⟨b, hb⟩ := (hthird v.parts.third).mpr ⟨v.third, hv.third, hQ⟩
    rw [hv.join] at h hlen
    exact ⟨_, make a b, deserializeKeyFile_eq h hlen hsrc
      ⟨hv.plain, hv.first, ha, hb, hv.fifth⟩ (Nat.lt_succ_self _)⟩

theorem deserializeKeyFile_documents_iff (hf : f.Plain) (hsecond : Views second P)
    (hthird : Views third Q) (h : Trickles s At) (hlen : s.length < i64Size) (hsrc : At src 0 i) :
    ((∃ fuel key, deserializeKeyFile f.header f.footer second third make fuel src = .ok key) →
      f.Documents s) ↔ ∀ v : KeyFileView f, v.Of s → P v.second → Q v.third → v.Exact := by
  rw [deserializeKeyFile_iff_view hsecond hthird h hlen hsrc]
  constructor
  · exact fun hdoc v hv hP hQ => (hv.exact_iff hf hlen).mpr (hdoc ⟨v, hv, hP, hQ⟩)
  · rintro hexact ⟨v, hv, hP, hQ⟩
    exact (hv.exact_iff hf hlen).mp (hexact v hv hP hQ)

end Files

/-! ## Keys -/

section Keys

variable [Patience] [Kem] [SignatureSchemes] [KeyEncodings]

omit [Patience] [Kem] [SignatureSchemes] [KeyEncodings] in
theorem views_of_keyLine {α : Type} {l : KeyLineFormat} {deserialize : Bytes → Except Error α}
    {make : Vector UInt8 l.eccSize → Vector UInt8 l.pqSize → Option α} {T : Bytes → Prop}
    (h : ∀ {line key}, deserialize line = .ok key ↔
      ∃ tail, T tail ∧ KeyLine l.header l.methodId0 make tail line key) :
    Views deserialize fun v : KeyLineView l => T v.tail ∧ ∃ key, make v.ecc v.pq = some key := by
  intro line
  constructor
  · rintro ⟨key, hkey⟩
    obtain ⟨tail, htail, hline⟩ := h.mp hkey
    obtain ⟨v, hv, rfl, hmake⟩ := KeyLineView.keyLine_iff.mp hline
    exact ⟨v, hv, htail, key, hmake⟩
  · rintro ⟨v, hv, htail, key, hmake⟩
    exact ⟨key, h.mpr ⟨v.tail, htail, KeyLineView.keyLine_iff.mpr ⟨v, hv, rfl, hmake⟩⟩⟩

/-- The parsers of key files accept only what is documented, if and only if what they do not look
at is as documented in the file. -/
theorem keyFiles_documented_iff {σ : Type} [Read Error σ] {s : Bytes} {At : σ → ℕ → ℕ → Prop}
    {src : σ} {i : ℕ} (h : Trickles s At) (hlen : s.length < i64Size) (hsrc : At src 0 i) :
    (((∃ fuel key, MLAPrivateKey.deserializePrivateKey fuel src = .ok key) →
        privKeyFileFormat.Documents s) ↔
      ∀ v : KeyFileView privKeyFileFormat, v.Of s → v.Exact) ∧
    (((∃ fuel key, MLAPublicKey.deserializePublicKey fuel src = .ok key) →
        pubKeyFileFormat.Documents s) ↔
      ∀ v : KeyFileView pubKeyFileFormat, v.Of s → v.second.tail = [] → v.third.tail = [] →
        (∃ key, KeyEncodings.verifyingKey v.third.ecc = some key) → v.Exact) := by
  constructor
  · refine (deserializeKeyFile_documents_iff privKeyFileFormat_plain
      (views_of_keyLine MLADecryptionPrivateKey.deserialize_eq_ok)
      (views_of_keyLine MLASigningPrivateKey.deserialize_eq_ok) h hlen hsrc).trans ?_
    constructor
    · exact fun hexact v hv => hexact v hv ⟨trivial, _, rfl⟩ ⟨trivial, _, rfl⟩
    · exact fun hexact v hv _ _ => hexact v hv
  · refine (deserializeKeyFile_documents_iff pubKeyFileFormat_plain
      (views_of_keyLine MLAEncryptionPublicKey.deserialize_eq_ok)
      (views_of_keyLine MLASignatureVerificationPublicKey.deserialize_eq_ok) h hlen hsrc).trans ?_
    constructor
    · rintro hexact v hv hsecond hthird ⟨key, hkey⟩
      exact hexact v hv ⟨hsecond, _, rfl⟩
        ⟨hthird, _, Option.map_eq_some_iff.mpr ⟨key, hkey, rfl⟩⟩
    · rintro hexact v hv ⟨hsecond, -⟩ ⟨hthird, key, hkey⟩
      obtain ⟨k, hk, -⟩ := Option.map_eq_some_iff.mp hkey
      exact hexact v hv hsecond hthird ⟨k, hk⟩

end Keys

namespace ByteKeys

/-- The lines of the private key, but with `x` in place of the options. -/
def laxLines : FiveParts :=
  { privateKey.lines with fourth := [120] }

def laxFile : Bytes := laxLines.join fun _ => .crlf

def laxSource : Pieces Error := ⟨laxFile, 0, []⟩

theorem laxSource_at : Pieces.At laxFile laxSource 0 0 := ⟨rfl, rfl, Nat.zero_le _, rfl⟩

theorem laxLines_keyParts : KeyParts privKeyFileHeader privKeyFileFooter
    (MLADecryptionPrivateKey.deserializeDecryptionPrivateKey · =
      .ok privateKey.decryptionPrivateKey)
    (MLASigningPrivateKey.deserializeSigningPrivateKey · = .ok privateKey.signingPrivateKey)
    laxLines where
  plain := ⟨privKeyFileFormat_plain.header, isPart_line privKeyFileFormat_plain.second _,
    isPart_line privKeyFileFormat_plain.third _, by decide,
    privKeyFileFormat_plain.footer⟩
  first := rfl
  second := privateKey.decryptionPrivateKey.deserialize_line lossless
  third := privateKey.signingPrivateKey.deserialize_line lossless
  fifth := rfl

theorem length_laxFile : laxFile.length < i64Size := by decide +kernel

theorem deserialize_laxSource :
    ∃ fuel key, MLAPrivateKey.deserializePrivateKey fuel laxSource = .ok key :=
  ⟨_, _, deserializeKeyFile_eq (Pieces.trickles _) length_laxFile laxSource_at laxLines_keyParts
    (Nat.lt_succ_self _)⟩

theorem laxFile_undocumented : ¬ privKeyFileFormat.Documents laxFile := by
  rintro ⟨parts, seps, hjoin, hparts⟩
  have hsplit := splitInFiveParts_join (hparts.plain privKeyFileFormat_plain) seps
  rw [← hjoin, laxFile, splitInFiveParts_join laxLines_keyParts.plain] at hsplit
  obtain rfl := Except.ok.inj hsplit
  obtain ⟨opts, -, hfourth⟩ := hparts.fourth
  have hlen := congrArg List.length hfourth
  rw [length_base64EncodeLoop] at hlen
  have hone : laxLines.fourth.length = 1 := rfl
  omega

theorem laxFile_accepted :
    (∃ fuel key, MLAPrivateKey.deserializePrivateKey fuel laxSource = .ok key) ∧
      ¬ privKeyFileFormat.Documents laxFile :=
  ⟨deserialize_laxSource, laxFile_undocumented⟩

/-- The view of that file is not exact. -/
theorem keyFiles_documented_iff_lax :
    laxFile.length < i64Size ∧ Pieces.At laxFile laxSource 0 0 ∧
      ¬ ∀ v : KeyFileView privKeyFileFormat, v.Of laxFile → v.Exact :=
  ⟨length_laxFile, laxSource_at, fun hexact => laxFile_undocumented
    ((keyFiles_documented_iff (Pieces.trickles laxFile) length_laxFile laxSource_at).1.mpr hexact
      deserialize_laxSource)⟩

end ByteKeys

end Mla
