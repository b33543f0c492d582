import Mla.Crypto.KeyLines

/-!
# Key files are read back

`lines` are the five parts of the file of a key. The file is written with a line break behind
each of them, and it is read with any separators, and however it comes.
-/

namespace Mla

open Io

/-! ## The text of base64 -/

/-- No separator starts in a base64 text. -/
theorem base64EncodeGroup_plain {group : Bytes} {c : UInt8} (hc : c ∈ base64EncodeGroup group) :
    c ≠ carriageReturn ∧ c ≠ underscore := by
  have hall {i : ℕ} (hi : i < 64) : base64Char i ≠ carriageReturn ∧ base64Char i ≠ underscore :=
    ⟨base64Char_ne rfl hi, base64Char_ne rfl hi⟩
  obtain ⟨j, -, rfl⟩ := List.mem_map.mp hc
  split
  · exact hall (Nat.mod_lt _ (Nat.succ_pos 63))
  · decide

theorem base64EncodeLoop_plain (data : Bytes) :
    ∀ c ∈ base64EncodeLoop data, c ≠ carriageReturn ∧ c ≠ underscore := by
  intro c hc
  induction data using base64EncodeLoop.induct with
  | case1 => exact absurd hc List.not_mem_nil
  | case2 a => exact base64EncodeGroup_plain hc
  | case3 a b => exact base64EncodeGroup_plain hc
  | case4 a b d data ih =>
      rw [base64EncodeLoop] at hc
      rcases List.mem_append.mp hc with hc | hc
      · exact base64EncodeGroup_plain hc
      · exact ih hc

theorem base64Encode_eq {data : Bytes} (h : data.length < 2 ^ 32) :
    base64Encode data = .ok (base64EncodeLoop data) := by
  rw [base64Encode_eq_ok, length_base64EncodeLoop, u64Size]
  exact ⟨rfl, by omega, by omega⟩

/-! ## Lines -/

/-- The data of a line with a key. -/
def keyLineData {n m : ℕ} (methodId0 : Bytes) (ecc : Vector UInt8 n) (pq : Vector UInt8 m) : Bytes :=
  methodId0 ++ emptyOptsSerialization ++ ecc.toList ++ pq.toList

section Lines

variable {n m : ℕ} {header methodId0 : Bytes} {ecc : Vector UInt8 n} {pq : Vector UInt8 m}

theorem length_keyLineData :
    (keyLineData methodId0 ecc pq).length = methodId0.length + 1 + n + m := by
  simp only [keyLineData, emptyOptsSerialization, List.length_append, Vector.length_toList,
    List.length_singleton]

theorem base64Encode_keyLineData (ecc : Vector UInt8 n) (pq : Vector UInt8 m)
    (hlen : methodId0.length + 1 + n + m < 2 ^ 32) :
    base64Encode (keyLineData methodId0 ecc pq) =
      .ok (base64EncodeLoop (keyLineData methodId0 ecc pq)) :=
  base64Encode_eq (length_keyLineData.trans_lt hlen)

theorem IsPart.append {start rest : Bytes} (h : IsPart start)
    (hrest : ∀ b ∈ rest, b ≠ carriageReturn ∧ b ≠ underscore) : IsPart (start ++ rest) where
  ne_nil hnil := h.ne_nil (List.append_eq_nil_iff.mp hnil).1
  plain b hb := (List.mem_append.mp hb).elim (h.plain b) (hrest b)

/-- The line is read back as the key. -/
theorem keyLine_data {α : Type} {make : Vector UInt8 n → Vector UInt8 m → Option α} {key : α}
    (hlen : methodId0.length + 1 + n + m < 2 ^ 32) (hkey : make ecc pq = some key) :
    KeyLine header methodId0 make [] (header ++ base64EncodeLoop (keyLineData methodId0 ecc pq))
      key := by
  have hencode := base64Encode_keyLineData ecc pq hlen
  refine ⟨_, _, rfl, base64Decode_encode hencode, emptyOptsSerialization, ecc.toList ++ pq.toList,
    ?_, ⟨none, rfl, fun _ h => absurd h (Option.not_mem_none _)⟩, ecc, pq, ?_, hkey⟩
  · rw [keyLineData, List.append_assoc, List.append_assoc]
  · rw [List.append_nil]

/-- A line with a header and a base64 text is one part of a file. -/
theorem isPart_line (h : IsPart header) (data : Bytes) :
    IsPart (header ++ base64EncodeLoop data) :=
  h.append (base64EncodeLoop_plain data)

theorem length_line :
    (header ++ base64EncodeLoop (keyLineData methodId0 ecc pq)).length =
      header.length + 4 * ((methodId0.length + 1 + n + m + 2) / 3) := by
  rw [List.length_append, length_base64EncodeLoop, length_keyLineData]

variable {ω : Type} [Patience] [Write Error ω]

theorem emits_keyLine (hlen : methodId0.length + 1 + n + m < 2 ^ 32) :
    Emits (serializeKeyLine header (keyLineData methodId0 ecc pq) : EStateM Error ω Unit)
      (header ++ (base64EncodeLoop (keyLineData methodId0 ecc pq) ++ Sep.crlf.bytes)) () := by
  rw [serializeKeyLine, base64Encode_keyLineData ecc pq hlen]
  exact (Emits.put header).seq ((Emits.pure _).bind ((Emits.put _).seq (Emits.put _)))

theorem emits_keyOpts : Emits (KeyOpts.serializeKeyOpts : EStateM Error ω Unit)
    (base64EncodeLoop emptyOptsSerialization ++ Sep.crlf.bytes) () := by
  rw [KeyOpts.serializeKeyOpts, base64Encode_eq (by decide)]
  exact (Emits.pure _).bind ((Emits.put _).seq (Emits.put _))

end Lines

/-! ## Files -/

section Files

variable {α β γ : Type} {header footer second third : Bytes}

/-- The lines of a file with two keys. -/
def keyFileLines (header footer second third : Bytes) : FiveParts where
  first := header
  second := second
  third := third
  fourth := base64EncodeLoop emptyOptsSerialization
  fifth := footer

theorem emits_keyFile {ω : Type} [Patience] [Write Error ω] {serSecond serThird : EStateM Error ω Unit}
    (hsecond : Emits serSecond (second ++ Sep.crlf.bytes) ())
    (hthird : Emits serThird (third ++ Sep.crlf.bytes) ()) :
    Emits (serializeKeyFile header footer serSecond serThird)
      ((keyFileLines header footer second third).join fun _ => .crlf) () := by
  refine ((Emits.put header).seq ((Emits.put _).seq (hsecond.seq (hthird.seq (emits_keyOpts.seq
    ((Emits.put footer).seq (Emits.put _))))))).cast ?_ rfl
  simp only [FiveParts.join, keyFileLines, Sep.bytes, List.append_assoc, List.append_nil]

/-- However the bytes of a file come, and whatever its separators are, it is read as `key`. -/
def ReadAs (deserialize : ∀ {σ : Type} [Read Error σ], ℕ → σ → Except Error γ) (lines : FiveParts)
    (key : γ) : Prop :=
  ∀ {σ : Type} [Read Error σ] (seps : Fin 5 → Sep) (At : σ → ℕ → ℕ → Prop),
    Trickles (lines.join seps) At → ∀ (src : σ) (interruptions : ℕ), At src 0 interruptions →
      ∀ fuel, (lines.join seps).length + interruptions < fuel → deserialize fuel src = .ok key

theorem length_sep_bytes (sep : Sep) : sep.bytes.length = 2 := by
  cases sep <;> rfl

theorem readAs_keyFile {deSecond : Bytes → Except Error α} {deThird : Bytes → Except Error β}
    {make : α → β → γ} {a : α} {b : β} (hheader : IsPart header) (hfooter : IsPart footer)
    (hsecond : IsPart second) (hthird : IsPart third) (hdeSecond : deSecond second = .ok a)
    (hdeThird : deThird third = .ok b)
    (hlen : header.length + second.length + third.length + footer.length < 2 ^ 32) :
    ReadAs (deserializeKeyFile header footer deSecond deThird make)
      (keyFileLines header footer second third) (make a b) := by
  intro σ _ seps At htrickles src interruptions hsrc fuel hfuel
  have hopts : IsPart (base64EncodeLoop emptyOptsSerialization) :=
    ⟨by decide, base64EncodeLoop_plain _⟩
  have hplain : (keyFileLines header footer second third).Plain :=
    ⟨hheader, hsecond, hthird, hopts, hfooter⟩
  refine deserializeKeyFile_eq htrickles ?_ hsrc ⟨hplain, rfl, hdeSecond, hdeThird, rfl⟩ hfuel
  simp only [FiveParts.join, keyFileLines, List.length_append, length_sep_bytes, List.length_nil,
    length_base64EncodeLoop, emptyOptsSerialization, List.length_singleton, i64Size]
  omega

end Files

/-! ## Headers and sizes -/

/-- No separator starts in the headers of a private key file. -/
theorem isPart_privKeyFile :
    IsPart privKeyFileHeader ∧ IsPart privKeyFileFooter ∧ IsPart mlaPrivDecKeyHeader ∧
      IsPart mlaPrivSigKeyHeader := by
  decide

/-- No separator starts in the headers of a public key file. -/
theorem isPart_pubKeyFile :
    IsPart pubKeyFileHeader ∧ IsPart pubKeyFileFooter ∧ IsPart mlaPubEncKeyHeader ∧
      IsPart mlaPubSigverifKeyHeader := by
  decide

/-- The keys of a private key file are short enough to be encoded. -/
theorem length_privKeyLines_lt :
    decMethodId0Priv.length + 1 + eccPrivkeySize + mlkemDzSize < 2 ^ 32 ∧
      sigMethodId0Priv.length + 1 + ed25519PrivkeySize + mldsaXiSize < 2 ^ 32 := by
  decide

/-- The keys of a public key file are short enough to be encoded. -/
theorem length_pubKeyLines_lt :
    encMethodId0Pub.length + 1 + eccPubkeySize + mlkemPubkeySize < 2 ^ 32 ∧
      sigverifMethodId0Pub.length + 1 + eccPubkeySize + mldsaPubkeySize < 2 ^ 32 := by
  decide

/-! ## Keys -/

section Keys

variable [Kem] [SignatureSchemes] [KeyEncodings]

def MLADecryptionPrivateKey.line (key : MLADecryptionPrivateKey) : Bytes :=
  mlaPrivDecKeyHeader ++ base64EncodeLoop (keyLineData decMethodId0Priv
    (KeyEncodings.staticSecretBytes key.privateKeyEcc) (toDZ64 key.privateKeySeedMl))

def MLASigningPrivateKey.line (key : MLASigningPrivateKey) : Bytes :=
  mlaPrivSigKeyHeader ++ base64EncodeLoop (keyLineData sigMethodId0Priv
    (KeyEncodings.signingKeyBytes key.privateKeyEd25519)
    (KeyEncodings.seedXi key.privateKeySeedMldsa))

def MLAEncryptionPublicKey.line (key : MLAEncryptionPublicKey) : Bytes :=
  mlaPubEncKeyHeader ++ base64EncodeLoop (keyLineData encMethodId0Pub
    (KeyEncodings.publicKeyBytes key.publicKeyEcc)
    (KeyEncodings.encapsulationKeyBytes key.publicKeyMl))

def MLASignatureVerificationPublicKey.line (key : MLASignatureVerificationPublicKey) : Bytes :=
  mlaPubSigverifKeyHeader ++ base64EncodeLoop (keyLineData sigverifMethodId0Pub
    (KeyEncodings.verifyingKeyBytes key.publicKeyEd25519)
    (KeyEncodings.mldsaKeyBytes key.publicKeyMldsa87))

def MLAPrivateKey.lines (key : MLAPrivateKey) : FiveParts :=
  keyFileLines privKeyFileHeader privKeyFileFooter key.decryptionPrivateKey.line
    key.signingPrivateKey.line

def MLAPublicKey.lines (key : MLAPublicKey) : FiveParts :=
  keyFileLines pubKeyFileHeader pubKeyFileFooter key.encryptionPublicKey.line
    key.signatureVerificationPublicKey.line

section Write

variable {ω : Type} [Patience] [Write Error ω]

theorem MLAPrivateKey.emits_lines (key : MLAPrivateKey) :
    Emits (key.serializePrivateKey : EStateM Error ω Unit) (key.lines.join fun _ => .crlf) () := by
  refine emits_keyFile ((emits_keyLine ?_).cast ?_ rfl) ((emits_keyLine ?_).cast ?_ rfl)
  · exact length_privKeyLines_lt.1
  · exact (List.append_assoc _ _ _).symm
  · exact length_privKeyLines_lt.2
  · exact (List.append_assoc _ _ _).symm

theorem MLAPublicKey.emits_lines (key : MLAPublicKey) :
    Emits (key.serializePublicKey : EStateM Error ω Unit) (key.lines.join fun _ => .crlf) () := by
  refine emits_keyFile ((emits_keyLine ?_).cast ?_ rfl) ((emits_keyLine ?_).cast ?_ rfl)
  · exact length_pubKeyLines_lt.1
  · exact (List.append_assoc _ _ _).symm
  · exact length_pubKeyLines_lt.2
  · exact (List.append_assoc _ _ _).symm

end Write

theorem toList_toDZ64 (seed : Kem.MlkemSeed) :
    (toDZ64 seed).toList =
      (KeyEncodings.seedD seed).toList ++ (KeyEncodings.seedZ seed).toList :=
  Vector.toList_append

theorem fromDZ64_toDZ64 (h : KeyEncodings.Lossless) (seed : Kem.MlkemSeed) :
    fromDZ64 (toDZ64 seed) = seed := by
  have hd : (toDZ64 seed).take 32 = KeyEncodings.seedD seed := by
    apply Vector.toList_inj.mp
    rw [Vector.toList_take, toList_toDZ64, List.take_left' (Vector.length_toList)]
    all_goals rfl
  have hz : (toDZ64 seed).drop 32 = KeyEncodings.seedZ seed := by
    apply Vector.toList_inj.mp
    rw [Vector.toList_drop, toList_toDZ64, List.drop_left' (Vector.length_toList)]
    all_goals rfl
  rw [fromDZ64]
  exact (congrArg₂ KeyEncodings.mlkemSeed hd hz).trans (h.mlkemSeed seed)

section Read

variable [Patience]

theorem MLADecryptionPrivateKey.deserialize_line (h : KeyEncodings.Lossless)
    (key : MLADecryptionPrivateKey) : deserializeDecryptionPrivateKey key.line = .ok key := by
  refine MLADecryptionPrivateKey.deserialize_eq_ok.mpr ⟨[], trivial, keyLine_data length_privKeyLines_lt.1 ?_⟩
  rw [h.staticSecret, fromDZ64_toDZ64 h]

theorem MLASigningPrivateKey.deserialize_line (h : KeyEncodings.Lossless)
    (key : MLASigningPrivateKey) : deserializeSigningPrivateKey key.line = .ok key := by
  refine MLASigningPrivateKey.deserialize_eq_ok.mpr ⟨[], trivial, keyLine_data length_privKeyLines_lt.2 ?_⟩
  rw [h.signingKey, h.mldsaSeed]

theorem MLAEncryptionPublicKey.deserialize_line (h : KeyEncodings.Lossless)
    (key : MLAEncryptionPublicKey) : deserializeEncryptionPublicKey key.line = .ok key := by
  refine MLAEncryptionPublicKey.deserialize_eq_ok.mpr ⟨[], rfl, keyLine_data length_pubKeyLines_lt.1 ?_⟩
  rw [h.publicKey, h.encapsulationKey]

theorem MLASignatureVerificationPublicKey.deserialize_line (h : KeyEncodings.Lossless)
    (key : MLASignatureVerificationPublicKey) :
    deserializeSignatureVerificationPublicKey key.line = .ok key := by
  refine MLASignatureVerificationPublicKey.deserialize_eq_ok.mpr
    ⟨[], rfl, keyLine_data length_pubKeyLines_lt.2 ?_⟩
  rw [h.verifyingKey, h.mldsaKey, Option.map_some]

theorem MLAPrivateKey.readAs_lines (h : KeyEncodings.Lossless) (key : MLAPrivateKey) :
    ReadAs MLAPrivateKey.deserializePrivateKey key.lines key := by
  obtain ⟨hheader, hfooter, hsecond, hthird⟩ := isPart_privKeyFile
  refine readAs_keyFile hheader hfooter (isPart_line hsecond _) (isPart_line hthird _)
    (key.decryptionPrivateKey.deserialize_line h) (key.signingPrivateKey.deserialize_line h) ?_
  refine (congrArg₂ (fun m n => _ + m + n + _ < 2 ^ 32) length_line length_line).mpr ?_
  decide

theorem MLAPublicKey.readAs_lines (h : KeyEncodings.Lossless) (key : MLAPublicKey) :
    ReadAs MLAPublicKey.deserializePublicKey key.lines key := by
  obtain ⟨hheader, hfooter, hsecond, hthird⟩ := isPart_pubKeyFile
  refine readAs_keyFile hheader hfooter (isPart_line hsecond _) (isPart_line hthird _)
    (key.encryptionPublicKey.deserialize_line h)
    (key.signatureVerificationPublicKey.deserialize_line h) ?_
  refine (congrArg₂ (fun m n => _ + m + n + _ < 2 ^ 32) length_line length_line).mpr ?_
  decide

end Read

/-- What is written for a key is its lines with line breaks, and it is read back as the key from
its lines with any separators. -/
theorem keyFiles_readBack (h : KeyEncodings.Lossless) :
    (∀ key : MLAPrivateKey,
      (∀ {ω : Type} [Patience] [Write Error ω],
        Emits (key.serializePrivateKey : EStateM Error ω Unit)
          (key.lines.join fun _ => .crlf) ()) ∧
      ∀ [Patience], ReadAs MLAPrivateKey.deserializePrivateKey key.lines key) ∧
    (∀ key : MLAPublicKey,
      (∀ {ω : Type} [Patience] [Write Error ω],
        Emits (key.serializePublicKey : EStateM Error ω Unit)
          (key.lines.join fun _ => .crlf) ()) ∧
      ∀ [Patience], ReadAs MLAPublicKey.deserializePublicKey key.lines key) :=
  ⟨fun key => ⟨key.emits_lines, key.readAs_lines h⟩,
    fun key => ⟨key.emits_lines, key.readAs_lines h⟩⟩

end Keys

/-! ## Keys that are their bytes -/

namespace ByteKeys

scoped instance patience : Patience where
  retries := 0

scoped instance kem : Kem where
  Rng := Unit
  EccPrivateKey := Vector UInt8 eccPrivkeySize
  EccPublicKey := Vector UInt8 eccPubkeySize
  DhkemCiphertext := Vector UInt8 dhkemCiphertextSize
  MlkemSeed := Vector UInt8 32 × Vector UInt8 32
  MlkemEncapsulationKey := Vector UInt8 mlkemPubkeySize
  eccPublic key := key
  toPubkey _ := Vector.replicate _ 0
  gen rng := (Vector.replicate _ 0, rng)
  dhkemEncapFromRng _ rng := (none, rng)
  dhkemDecap _ _ := none
  mlkemEncapsulate _ rng := (none, rng)
  mlkemDecapsulate _ _ := none
  toBytes ct := ct
  fromBytes _ := none

scoped instance signatureSchemes : SignatureSchemes where
  Rng := Unit
  Ed25519SigningKey := Vector UInt8 ed25519PrivkeySize
  Ed25519VerifyingKey := Vector UInt8 eccPubkeySize
  MLDSASeed := Vector UInt8 mldsaXiSize
  MlDsa87VerifyingKey := Vector UInt8 mldsaPubkeySize
  MlDsa87Signature := Vector UInt8 mlDsa87SignatureSize
  ed25519Public key := key
  toSigningVerificationKey _ := Vector.replicate _ 0
  sign _ _ := Vector.replicate _ 0
  verify _ _ _ := false
  signRandomized _ _ _ rng := (none, rng)
  verifyWithContext _ _ _ _ := false
  encode signature := signature
  decode signature := some signature

scoped instance keyEncodings : KeyEncodings where
  staticSecret bytes := bytes
  staticSecretBytes key := key
  mlkemSeed d z := (d, z)
  seedD seed := seed.1
  seedZ seed := seed.2
  signingKey bytes := bytes
  signingKeyBytes key := key
  mldsaSeed bytes := bytes
  seedXi seed := seed
  publicKey bytes := bytes
  publicKeyBytes key := key
  encapsulationKey bytes := bytes
  encapsulationKeyBytes key := key
  verifyingKey bytes := some bytes
  verifyingKeyBytes key := key
  mldsaKey bytes := bytes
  mldsaKeyBytes key := key

theorem lossless : KeyEncodings.Lossless where
  staticSecret _ := rfl
  mlkemSeed _ := rfl
  signingKey _ := rfl
  mldsaSeed _ := rfl
  publicKey _ := rfl
  encapsulationKey _ := rfl
  verifyingKey _ := rfl
  mldsaKey _ := rfl

def privateKey : MLAPrivateKey where
  decryptionPrivateKey := ⟨Vector.replicate _ 1, (Vector.replicate _ 2, Vector.replicate _ 3)⟩
  signingPrivateKey := ⟨Vector.replicate _ 4, Vector.replicate _ 5⟩

/-- A reader of the private key whose first read is interrupted. -/
def interrupted : Pieces Error :=
  ⟨privateKey.lines.join fun _ => .underscores, 0, [.interrupted, .upTo 99]⟩

theorem interrupted_at :
    Pieces.At (privateKey.lines.join fun _ => .underscores) interrupted 0 1 :=
  ⟨rfl, rfl, Nat.zero_le _, rfl⟩

theorem keyFiles_readBack_interrupted :
    KeyEncodings.Lossless ∧
      MLAPrivateKey.deserializePrivateKey ((privateKey.lines.join fun _ => .underscores).length + 2)
        interrupted = .ok privateKey := by
  refine ⟨lossless, ?_⟩
  exact ((keyFiles_readBack lossless).1 privateKey).2 (fun _ => .underscores) _
    (Pieces.trickles _) interrupted 1 interrupted_at _ (by omega)

end ByteKeys

end Mla
