import Mla.Crypto.Hybrid

/-!
# The search for the entry of a recipient

`hybridKemDecapsulate` is the search as it is specified: every entry is tried, and one with which
a step fails is passed over. `decapsulate` makes the same search as long as both schemes
decapsulate the entries that it comes by.
-/

namespace Mla

open Io

namespace MLADecryptionPrivateKey

variable [AesGcm] [Hkdf] [Kem] {key : MLADecryptionPrivateKey}
  {entry : HybridRecipientEncapsulatedKey} {entries : List HybridRecipientEncapsulatedKey}

/-- `PerRecipientKEM.Decapsulate`. -/
def perRecipientDecapsulate (key : MLADecryptionPrivateKey)
    (entry : HybridRecipientEncapsulatedKey) : Option HybridKemSharedSecret := do
  let ssEcc ← Kem.dhkemDecap entry.ctEcc key.privateKeyEcc
  let ssMl ← Kem.mlkemDecapsulate key.privateKeySeedMl entry.ctMl
  let opened := (recipientCipher ssEcc ssMl entry.ctEcc entry.ctMl).decryptArray entry.wrappedSs
  if opened.2 = entry.tag.toList then some opened.1 else none

/-- `HybridKEM.Decapsulate`. -/
def hybridKemDecapsulate (key : MLADecryptionPrivateKey)
    (entries : List HybridRecipientEncapsulatedKey) : Except ConfigError HybridKemSharedSecret :=
  orError (entries.findSome? key.perRecipientDecapsulate) .privateKeyNotFound

/-- Both schemes decapsulate the entry, whether it opens or not. -/
def Decapsulates (key : MLADecryptionPrivateKey) (entry : HybridRecipientEncapsulatedKey) : Prop :=
  (Kem.dhkemDecap entry.ctEcc key.privateKeyEcc).isSome ∧
    (Kem.mlkemDecapsulate key.privateKeySeedMl entry.ctMl).isSome

/-- No entry before the first that opens is one that a scheme does not decapsulate. -/
def DecapsulatesUpToOpened (key : MLADecryptionPrivateKey)
    (entries : List HybridRecipientEncapsulatedKey) : Prop :=
  ∀ before entry after, entries = before ++ entry :: after →
    (∀ passed ∈ before, key.perRecipientDecapsulate passed = none) → key.Decapsulates entry

theorem decapsulateOne_of_decapsulates (h : key.Decapsulates entry) :
    key.decapsulateOne entry = .ok (key.perRecipientDecapsulate entry) := by
  obtain ⟨hecc, hml⟩ := h
  obtain ⟨ssEcc, hecc⟩ := Option.isSome_iff_exists.mp hecc
  obtain ⟨ssMl, hml⟩ := Option.isSome_iff_exists.mp hml
  rw [decapsulateOne_eq hecc hml, perRecipientDecapsulate, hecc, hml]
  dsimp only [bind, Option.bind]
  split
  · rfl
  · rfl

/-- A step that fails ends the loop, where it should only end with the entry. -/
theorem decapsulateOne_of_not_decapsulates (h : ¬ key.Decapsulates entry) :
    key.perRecipientDecapsulate entry = none ∧
      ∃ e, key.decapsulateOne entry = .error e ∧ e ≠ .privateKeyNotFound := by
  rw [perRecipientDecapsulate, decapsulateOne]
  cases hecc : Kem.dhkemDecap entry.ctEcc key.privateKeyEcc with
  | none => exact ⟨rfl, .dhkemComputationError, rfl, by simp⟩
  | some ssEcc =>
      cases hml : Kem.mlkemDecapsulate key.privateKeySeedMl entry.ctMl with
      | none => exact ⟨rfl, .mlkemComputationError, rfl, by simp⟩
      | some ssMl =>
          refine absurd ⟨?_, ?_⟩ h
          · rw [hecc, Option.isSome_some]
          · rw [hml, Option.isSome_some]

theorem hybridKemDecapsulate_cons :
    key.hybridKemDecapsulate (entry :: entries) =
      match key.perRecipientDecapsulate entry with
      | some ss => .ok ss
      | none => key.hybridKemDecapsulate entries := by
  rw [hybridKemDecapsulate, List.findSome?_cons]
  cases key.perRecipientDecapsulate entry with
  | some ss => rfl
  | none => rfl

theorem hybridKemDecapsulate_ne {e : ConfigError} (he : e ≠ .privateKeyNotFound) :
    key.hybridKemDecapsulate entries ≠ .error e := by
  rw [hybridKemDecapsulate]
  cases entries.findSome? key.perRecipientDecapsulate with
  | some ss =>
      intro h
      cases h
  | none => exact fun h => he (Except.error.inj h).symm

theorem DecapsulatesUpToOpened.head (h : key.DecapsulatesUpToOpened (entry :: entries)) :
    key.Decapsulates entry :=
  h [] entry entries rfl fun _ hpassed => absurd hpassed List.not_mem_nil

/-- What comes behind an entry that does not open matters too. -/
theorem decapsulatesUpToOpened_cons (hnone : key.perRecipientDecapsulate entry = none) :
    key.DecapsulatesUpToOpened (entry :: entries) ↔
      key.Decapsulates entry ∧ key.DecapsulatesUpToOpened entries := by
  constructor
  · intro h
    refine ⟨h.head, fun before entry' after hsplit hbefore => ?_⟩
    refine h (entry :: before) entry' after (by rw [hsplit, List.cons_append]) ?_
    intro passed hpassed
    rcases List.mem_cons.mp hpassed with rfl | hpassed
    · exact hnone
    · exact hbefore passed hpassed
  · rintro ⟨hentry, hrest⟩ before entry' after hsplit hbefore
    cases before with
    | nil =>
        obtain ⟨rfl, -⟩ := List.cons.inj hsplit
        exact hentry
    | cons passed before =>
        obtain ⟨rfl, htail⟩ := List.cons.inj hsplit
        exact hrest before entry' after htail fun p hp => hbefore p (List.mem_cons_of_mem _ hp)

theorem decapsulatesUpToOpened_of_opened {ss : HybridKemSharedSecret}
    (hsome : key.perRecipientDecapsulate entry = some ss) (hentry : key.Decapsulates entry) :
    key.DecapsulatesUpToOpened (entry :: entries) := by
  intro before entry' after hsplit hbefore
  cases before with
  | nil =>
      obtain ⟨rfl, -⟩ := List.cons.inj hsplit
      exact hentry
  | cons passed before =>
      obtain ⟨rfl, -⟩ := List.cons.inj hsplit
      have hnone := hbefore entry List.mem_cons_self
      rw [hsome] at hnone
      cases hnone

theorem decapsulateFrom_iff :
    key.decapsulateFrom entries = key.hybridKemDecapsulate entries ↔
      key.DecapsulatesUpToOpened entries := by
  induction entries with
  | nil =>
      refine iff_of_true rfl fun before entry after hsplit _ => ?_
      exact absurd hsplit (by simp)
  | cons entry entries ih =>
      by_cases hentry : key.Decapsulates entry
      · rw [decapsulateFrom, decapsulateOne_of_decapsulates hentry, hybridKemDecapsulate_cons]
        cases hopened : key.perRecipientDecapsulate entry with
        | some ss =>
            exact iff_of_true rfl (decapsulatesUpToOpened_of_opened hopened hentry)
        | none =>
            rw [decapsulatesUpToOpened_cons hopened, ← ih]
            exact ⟨fun h => ⟨hentry, h⟩, fun h => h.2⟩
      · obtain ⟨-, e, hfails, he⟩ := decapsulateOne_of_not_decapsulates hentry
        refine iff_of_false (fun h => ?_) fun h => hentry h.head
        rw [decapsulateFrom, hfails] at h
        exact hybridKemDecapsulate_ne he h.symm

/-- The search is that of the specification, if and only if both schemes decapsulate every entry
before the first that opens. -/
theorem decapsulate_eq_iff (key : MLADecryptionPrivateKey)
    (encapsulatedKey : HybridMultiRecipientEncapsulatedKey) :
    key.decapsulate encapsulatedKey = key.hybridKemDecapsulate encapsulatedKey.recipients ↔
      key.DecapsulatesUpToOpened encapsulatedKey.recipients :=
  decapsulateFrom_iff

end MLADecryptionPrivateKey

/-! ## A point of small order -/

namespace ZeroPoint

/-- The keystream is zero, and so is every tag. -/
scoped instance cipher : AesGcm where
  keystream _ _ _ := 0
  encryptTag _ _ _ _ := Vector.replicate _ 0
  decryptTag _ _ _ _ := List.replicate tagLength 0

scoped instance hkdf : Hkdf where
  extract salt ikm := salt.getD [] ++ ikm
  expand _ _ n := Vector.replicate n 0

/-- The secret shared through the point zero is zero, which is refused. -/
scoped instance kem : Kem where
  Rng := Unit
  EccPrivateKey := UInt8
  EccPublicKey := UInt8
  DhkemCiphertext := Vector UInt8 dhkemCiphertextSize
  MlkemSeed := UInt8
  MlkemEncapsulationKey := UInt8
  eccPublic k := k
  toPubkey k := k
  gen rng := (Vector.replicate hybridKemSharedSecretSize 7, rng)
  dhkemEncapFromRng k rng := (some ([k], Vector.replicate dhkemCiphertextSize 1), rng)
  dhkemDecap ct k := if ct = Vector.replicate dhkemCiphertextSize 0 then none else some [k]
  mlkemEncapsulate k rng := (some (Vector.replicate mlkemCiphertextSize 0, [k]), rng)
  mlkemDecapsulate k _ := some [k]
  toBytes ct := ct
  fromBytes bs := if h : bs.length = dhkemCiphertextSize then some (arrayOf bs h) else none

def privateKey : MLADecryptionPrivateKey :=
  ⟨(show Kem.EccPrivateKey from (1 : UInt8)), (show Kem.MlkemSeed from (1 : UInt8))⟩

/-- An entry whose point is `b` everywhere. -/
def entryAt (b : UInt8) : HybridRecipientEncapsulatedKey where
  ctMl := Vector.replicate _ 0
  ctEcc := (show Kem.DhkemCiphertext from Vector.replicate dhkemCiphertextSize b)
  wrappedSs := Vector.replicate _ 7
  tag := Vector.replicate _ 0

/-- The second entry would open. -/
theorem badEntry_stops :
    privateKey.decapsulate ⟨[entryAt 0, entryAt 1]⟩ = .error .dhkemComputationError ∧
      privateKey.hybridKemDecapsulate [entryAt 0, entryAt 1] = .ok (Vector.replicate _ 7) :=
  ⟨rfl, rfl⟩

end ZeroPoint

end Mla
