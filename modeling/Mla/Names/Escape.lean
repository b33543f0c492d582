import Mla.Io.Word

/-!
# Escaping bytes

A byte that is not to be preserved is written as `%` and its two hexadecimal digits. The
inverse refuses an escape that is cut, is not in lower case or stands for a preserved byte;
a byte that is neither preserved nor `%` is not refused but passed over.
-/

namespace Mla

open Io

/-- `b'%'`. -/
def percent : UInt8 := 37

def nibbleToHexChar (nibble : UInt8) : UInt8 :=
  if nibble ≤ 9 then 48 + nibble else 97 + (nibble - 10)

def hexCharToNibble (hexChar : UInt8) : Option UInt8 :=
  if 48 ≤ hexChar ∧ hexChar ≤ 57 then some (hexChar - 48)
  else if 97 ≤ hexChar ∧ hexChar ≤ 102 then some (hexChar - 97 + 10)
  else none

def lowNibble (byte : UInt8) : UInt8 := byte &&& 0x0F
def highNibble (byte : UInt8) : UInt8 := (byte &&& 0xF0) >>> 4

/-- The byte of two nibbles. -/
def ofNibbles (high low : UInt8) : UInt8 := (high <<< 4) ||| low

def mlaPercentEscape (bytes bytesToPreserve : Bytes) : Bytes :=
  bytes.flatMap fun byte =>
    if byte ∈ bytesToPreserve then [byte]
    else [percent, nibbleToHexChar (highNibble byte), nibbleToHexChar (lowNibble byte)]

def mlaPercentUnescape (input bytesToAllow : Bytes) : Option Bytes :=
  match input with
  | [] => some []
  | b :: bytes =>
      if b ∈ bytesToAllow then (b :: ·) <$> mlaPercentUnescape bytes bytesToAllow
      else if b = percent then
        match bytes with
        | high :: low :: bytes =>
            match hexCharToNibble high, hexCharToNibble low with
            | some highNibble, some lowNibble =>
                let decodedByte := ofNibbles highNibble lowNibble
                if decodedByte ∈ bytesToAllow then none
                else (decodedByte :: ·) <$> mlaPercentUnescape bytes bytesToAllow
            | _, _ => none
        | _ => none
      else mlaPercentUnescape bytes bytesToAllow

/-! ## Hexadecimal digits -/

/-- The nibbles of a byte are told from their digits, which are ASCII, and make it up again. -/
theorem nibbles_of_byte (b : UInt8) :
    hexCharToNibble (nibbleToHexChar (highNibble b)) = some (highNibble b) ∧
      hexCharToNibble (nibbleToHexChar (lowNibble b)) = some (lowNibble b) ∧
      ofNibbles (highNibble b) (lowNibble b) = b ∧
      nibbleToHexChar (highNibble b) < 128 ∧ nibbleToHexChar (lowNibble b) < 128 :=
  forall_byte
    (P := fun b => hexCharToNibble (nibbleToHexChar (highNibble b)) = some (highNibble b) ∧
      hexCharToNibble (nibbleToHexChar (lowNibble b)) = some (lowNibble b) ∧
      ofNibbles (highNibble b) (lowNibble b) = b ∧
      nibbleToHexChar (highNibble b) < 128 ∧ nibbleToHexChar (lowNibble b) < 128)
    (by decide +kernel) b

theorem hexCharToNibble_high (b : UInt8) :
    hexCharToNibble (nibbleToHexChar (highNibble b)) = some (highNibble b) :=
  (nibbles_of_byte b).1

theorem hexCharToNibble_low (b : UInt8) :
    hexCharToNibble (nibbleToHexChar (lowNibble b)) = some (lowNibble b) :=
  (nibbles_of_byte b).2.1

theorem ofNibbles_high_low (b : UInt8) : ofNibbles (highNibble b) (lowNibble b) = b :=
  (nibbles_of_byte b).2.2.1

/-- A digit is told from its value, which is a nibble. -/
theorem nibbleToHexChar_of_some {c n : UInt8} (h : hexCharToNibble c = some n) :
    nibbleToHexChar n = c ∧ n.toNat < 16 := by
  have hall : ∀ c, (hexCharToNibble c).all (fun n => nibbleToHexChar n = c ∧ n.toNat < 16) = true :=
    forall_byte (by decide +kernel)
  have hc := hall c
  rwa [h, Option.all_some, decide_eq_true_iff] at hc

theorem nibbles_ofNibbles {high low : UInt8} (hhigh : high.toNat < 16) (hlow : low.toNat < 16) :
    highNibble (ofNibbles high low) = high ∧ lowNibble (ofNibbles high low) = low := by
  have hall : ∀ h l : Fin 16, highNibble (ofNibbles (UInt8.ofNat h) (UInt8.ofNat l)) = UInt8.ofNat h ∧
      lowNibble (ofNibbles (UInt8.ofNat h) (UInt8.ofNat l)) = UInt8.ofNat l := by
    decide +kernel
  simpa using hall ⟨high.toNat, hhigh⟩ ⟨low.toNat, hlow⟩

/-! ## The pieces of an escaped string -/

/-- What the scan meets: a byte it keeps, an escape, or a byte it passes over. -/
inductive EscapePiece where
  | kept (byte : UInt8)
  | escaped (byte : UInt8)
  | stray (byte : UInt8)

namespace EscapePiece

def bytes : EscapePiece → Bytes
  | kept b => [b]
  | escaped b => [percent, nibbleToHexChar (highNibble b), nibbleToHexChar (lowNibble b)]
  | stray b => [b]

def decoded : EscapePiece → Option UInt8
  | kept b => some b
  | escaped b => some b
  | stray _ => none

/-- The piece may stand in a string read with these bytes allowed. -/
def Fits (allowed : Bytes) : EscapePiece → Prop
  | kept b => b ∈ allowed
  | escaped b => b ∉ allowed
  | stray b => b ∉ allowed ∧ b ≠ percent

end EscapePiece

/-- An escape the scan reads is the one the escaping writes. -/
theorem EscapePiece.bytes_escaped_ofNibbles {high low n m : UInt8} (hn : hexCharToNibble high = some n)
    (hm : hexCharToNibble low = some m) :
    (escaped (ofNibbles n m)).bytes = [percent, high, low] := by
  obtain ⟨hhigh, hn⟩ := nibbleToHexChar_of_some hn
  obtain ⟨hlow, hm⟩ := nibbleToHexChar_of_some hm
  obtain ⟨hhighNibble, hlowNibble⟩ := nibbles_ofNibbles hn hm
  rw [EscapePiece.bytes, hhighNibble, hlowNibble, hhigh, hlow]

variable {allowed : Bytes}

theorem mlaPercentUnescape_cons (b : UInt8) (bytes : Bytes) :
    mlaPercentUnescape (b :: bytes) allowed =
      if b ∈ allowed then (b :: ·) <$> mlaPercentUnescape bytes allowed
      else if b = percent then
        match bytes with
        | high :: low :: bytes =>
            match hexCharToNibble high, hexCharToNibble low with
            | some highNibble, some lowNibble =>
                if ofNibbles highNibble lowNibble ∈ allowed then none
                else (ofNibbles highNibble lowNibble :: ·) <$> mlaPercentUnescape bytes allowed
            | _, _ => none
        | _ => none
      else mlaPercentUnescape bytes allowed :=
  mlaPercentUnescape.eq_def (b :: bytes) allowed

theorem mlaPercentUnescape_kept {b : UInt8} (s : Bytes) (hb : b ∈ allowed) :
    mlaPercentUnescape (b :: s) allowed = (b :: ·) <$> mlaPercentUnescape s allowed := by
  rw [mlaPercentUnescape_cons, if_pos hb]

theorem mlaPercentUnescape_stray {b : UInt8} (s : Bytes) (hb : b ∉ allowed) (hne : b ≠ percent) :
    mlaPercentUnescape (b :: s) allowed = mlaPercentUnescape s allowed := by
  rw [mlaPercentUnescape_cons, if_neg hb, if_neg hne]

theorem mlaPercentUnescape_escaped (hp : percent ∉ allowed) {b : UInt8} (s : Bytes)
    (hb : b ∉ allowed) :
    mlaPercentUnescape
        (percent :: nibbleToHexChar (highNibble b) :: nibbleToHexChar (lowNibble b) :: s) allowed =
      (b :: ·) <$> mlaPercentUnescape s allowed := by
  rw [mlaPercentUnescape_cons, if_neg hp, if_pos rfl]
  dsimp only
  rw [hexCharToNibble_high, hexCharToNibble_low]
  dsimp only
  rw [ofNibbles_high_low, if_neg hb]

theorem mlaPercentUnescape_pieces (hp : percent ∉ allowed) (l : List EscapePiece)
    (hl : ∀ p ∈ l, p.Fits allowed) :
    mlaPercentUnescape (l.flatMap EscapePiece.bytes) allowed =
      some (l.filterMap EscapePiece.decoded) := by
  induction l with
  | nil => rw [List.flatMap_nil, mlaPercentUnescape, List.filterMap_nil]
  | cons p l ih =>
      have ih := ih fun q hq => hl q (List.mem_cons_of_mem _ hq)
      have hfits := hl p List.mem_cons_self
      rw [List.flatMap_cons]
      cases p with
      | kept b =>
          change mlaPercentUnescape (b :: l.flatMap EscapePiece.bytes) allowed = _
          rw [mlaPercentUnescape_kept _ hfits, ih]
          rfl
      | escaped b =>
          change mlaPercentUnescape (percent :: nibbleToHexChar (highNibble b) ::
            nibbleToHexChar (lowNibble b) :: l.flatMap EscapePiece.bytes) allowed = _
          rw [mlaPercentUnescape_escaped hp _ hfits, ih]
          rfl
      | stray b =>
          obtain ⟨hb, hne⟩ := hfits
          change mlaPercentUnescape (b :: l.flatMap EscapePiece.bytes) allowed = _
          rw [mlaPercentUnescape_stray _ hb hne, ih]
          rfl

/-- What the scan accepts is made of pieces, and its result is what they stand for. -/
theorem pieces_of_mlaPercentUnescape {s b : Bytes} (h : mlaPercentUnescape s allowed = some b) :
    ∃ l : List EscapePiece, (∀ p ∈ l, p.Fits allowed) ∧ l.flatMap EscapePiece.bytes = s ∧
      l.filterMap EscapePiece.decoded = b := by
  induction s using mlaPercentUnescape.induct allowed generalizing b with
  | case1 =>
      rw [mlaPercentUnescape, Option.some.injEq] at h
      exact ⟨[], by simp, rfl, h⟩
  | case2 c s hc ih =>
      rw [mlaPercentUnescape_kept _ hc, Option.map_eq_map, Option.map_eq_some_iff] at h
      obtain ⟨d, hd, rfl⟩ := h
      obtain ⟨l, hfits, hbytes, hdecoded⟩ := ih hd
      refine ⟨.kept c :: l, ?_, ?_, ?_⟩
      · exact List.forall_mem_cons.mpr ⟨hc, hfits⟩
      · rw [List.flatMap_cons, hbytes]
        rfl
      · rw [List.filterMap_cons, hdecoded]
        rfl
  | case3 high low s n m hm hn decodedByte hmem =>
      rename_i hp
      rw [mlaPercentUnescape_cons] at h
      simp only [hp, ↓reduceIte, hn, hm, show ofNibbles n m ∈ allowed from hmem] at h
      cases h
  | case4 high low s n m hm hn decodedByte hmem hp =>
      rename_i ih
      rw [mlaPercentUnescape_cons] at h
      simp only [hp, ↓reduceIte, hn, hm, show ofNibbles n m ∉ allowed from hmem] at h
      obtain ⟨d, hd, rfl⟩ := Option.map_eq_some_iff.mp h
      obtain ⟨l, hfits, hbytes, hdecoded⟩ := ih hd
      refine ⟨.escaped (ofNibbles n m) :: l, ?_, ?_, ?_⟩
      · exact List.forall_mem_cons.mpr ⟨hmem, hfits⟩
      · rw [List.flatMap_cons, EscapePiece.bytes_escaped_ofNibbles hn hm, hbytes]
        rfl
      · rw [List.filterMap_cons, hdecoded]
        rfl
  | case5 high low s hnone hp =>
      rw [mlaPercentUnescape_cons] at h
      simp only [hp, ↓reduceIte] at h
      cases h
  | case6 s hshort hp =>
      rw [mlaPercentUnescape_cons] at h
      simp only [hp, ↓reduceIte] at h
      cases h
  | case7 c s hc hne ih =>
      rw [mlaPercentUnescape_stray _ hc hne] at h
      obtain ⟨l, hfits, hbytes, hdecoded⟩ := ih h
      refine ⟨.stray c :: l, ?_, ?_, ?_⟩
      · exact List.forall_mem_cons.mpr ⟨⟨hc, hne⟩, hfits⟩
      · rw [List.flatMap_cons, hbytes]
        rfl
      · rw [List.filterMap_cons_none rfl, hdecoded]

/-! ## Escaping and its inverse -/

/-- With ASCII bytes preserved, what is written is ASCII. -/
theorem lt_of_mem_mlaPercentEscape (hallowed : ∀ b ∈ allowed, b < 128) (bytes : Bytes) :
    ∀ c ∈ mlaPercentEscape bytes allowed, c < 128 := by
  intro c hc
  obtain ⟨b, _, hc⟩ := List.mem_flatMap.mp hc
  split at hc
  · rw [List.mem_singleton.mp hc]
    exact hallowed b ‹_›
  · simp only [List.mem_cons, List.not_mem_nil, or_false] at hc
    obtain rfl | rfl | rfl := hc
    · decide
    · exact (nibbles_of_byte b).2.2.2.1
    · exact (nibbles_of_byte b).2.2.2.2

/-- The piece a byte is written as. -/
def EscapePiece.ofByte (preserved : Bytes) (byte : UInt8) : EscapePiece :=
  if byte ∈ preserved then .kept byte else .escaped byte

theorem EscapePiece.fits_ofByte (b : UInt8) : (ofByte allowed b).Fits allowed := by
  unfold ofByte
  split <;> assumption

theorem EscapePiece.decoded_ofByte (b : UInt8) : (ofByte allowed b).decoded = some b := by
  unfold ofByte
  split <;> rfl

theorem mlaPercentEscape_eq (b : Bytes) :
    mlaPercentEscape b allowed = (b.map (EscapePiece.ofByte allowed)).flatMap EscapePiece.bytes := by
  rw [mlaPercentEscape, List.flatMap_map]
  congr 1
  funext c
  unfold EscapePiece.ofByte
  split <;> rfl

theorem mlaPercentUnescape_escape (hp : percent ∉ allowed) (b : Bytes) :
    mlaPercentUnescape (mlaPercentEscape b allowed) allowed = some b := by
  have hfits : ∀ p ∈ b.map (EscapePiece.ofByte allowed), p.Fits allowed := by
    intro p hmem
    obtain ⟨c, _, rfl⟩ := List.mem_map.mp hmem
    exact EscapePiece.fits_ofByte c
  have hdecoded : EscapePiece.decoded ∘ EscapePiece.ofByte allowed = some :=
    funext EscapePiece.decoded_ofByte
  rw [mlaPercentEscape_eq, mlaPercentUnescape_pieces hp _ hfits, List.filterMap_map, hdecoded,
    List.filterMap_some]

theorem mlaPercentEscape_injective (hp : percent ∉ allowed) :
    Function.Injective fun b => mlaPercentEscape b allowed := by
  intro b d h
  have hb := mlaPercentUnescape_escape hp b
  dsimp only at h
  rw [h, mlaPercentUnescape_escape hp, Option.some.injEq] at hb
  exact hb.symm

/-- Pieces write what their bytes escape to, and one byte more for each that is passed over. -/
theorem EscapePiece.length_flatMap_bytes (l : List EscapePiece) (hl : ∀ p ∈ l, p.Fits allowed) :
    (l.flatMap bytes).length =
      (mlaPercentEscape (l.filterMap decoded) allowed).length +
        l.countP (fun p => p.decoded.isNone) := by
  induction l with
  | nil => rfl
  | cons p l ih =>
      have ih := ih fun q hq => hl q (List.mem_cons_of_mem _ hq)
      have hfits := hl p List.mem_cons_self
      cases p <;>
        simp_all [bytes, decoded, Fits, mlaPercentEscape, List.flatMap_cons, List.filterMap_cons] <;>
        omega

theorem EscapePiece.flatMap_bytes_eq (l : List EscapePiece) (hl : ∀ p ∈ l, p.Fits allowed)
    (hdecoded : ∀ p ∈ l, p.decoded.isSome) :
    l.flatMap bytes = mlaPercentEscape (l.filterMap decoded) allowed := by
  induction l with
  | nil => rfl
  | cons p l ih =>
      have ih := ih (fun q hq => hl q (List.mem_cons_of_mem _ hq))
        fun q hq => hdecoded q (List.mem_cons_of_mem _ hq)
      have hfits := hl p List.mem_cons_self
      have hsome := hdecoded p List.mem_cons_self
      cases p with
      | kept b =>
          change b ∈ allowed at hfits
          simp [bytes, decoded, mlaPercentEscape, hfits, ih]
      | escaped b =>
          change b ∉ allowed at hfits
          simp [bytes, decoded, mlaPercentEscape, hfits, ih]
      | stray b => cases hsome

/-- The scan passes over a byte of the string: it is made of preserved bytes, of escapes of
other bytes and of bytes that are neither, at least one. -/
def PassesOver (allowed s : Bytes) : Prop :=
  ∃ l : List EscapePiece, (∀ p ∈ l, p.Fits allowed) ∧ l.flatMap EscapePiece.bytes = s ∧
    ∃ b, .stray b ∈ l

theorem not_passesOver_escape (hp : percent ∉ allowed) (b : Bytes) :
    ¬ PassesOver allowed (mlaPercentEscape b allowed) := by
  rintro ⟨l, hfits, hbytes, c, hc⟩
  have hdecoded : some (l.filterMap EscapePiece.decoded) = some b := by
    rw [← mlaPercentUnescape_pieces hp l hfits, hbytes, mlaPercentUnescape_escape hp]
  have hlength := EscapePiece.length_flatMap_bytes l hfits
  have hcount : 0 < l.countP fun p => p.decoded.isNone :=
    List.countP_pos_iff.mpr ⟨_, hc, rfl⟩
  rw [hbytes, Option.some.inj hdecoded] at hlength
  omega

/-- Unescaping inverts escaping on the strings in which it passes over no byte. -/
theorem mlaPercentUnescape_iff_escape (hp : percent ∉ allowed) :
    (Function.Injective fun b => mlaPercentEscape b allowed) ∧
      ∀ s, (∀ b, mlaPercentUnescape s allowed = some b ↔ s = mlaPercentEscape b allowed) ↔
        ¬ PassesOver allowed s := by
  refine ⟨mlaPercentEscape_injective hp, fun s => ⟨?_, ?_⟩⟩
  · rintro hs ⟨l, hfits, rfl, hstray⟩
    have h := (hs _).mp (mlaPercentUnescape_pieces hp l hfits)
    exact not_passesOver_escape hp (l.filterMap EscapePiece.decoded) (h ▸ ⟨l, hfits, rfl, hstray⟩)
  · intro hs b
    constructor
    · intro h
      obtain ⟨l, hfits, rfl, rfl⟩ := pieces_of_mlaPercentUnescape h
      refine EscapePiece.flatMap_bytes_eq l hfits fun p hmem => ?_
      cases p with
      | kept c => rfl
      | escaped c => rfl
      | stray c => exact (hs ⟨l, hfits, rfl, c, hmem⟩).elim
    · rintro rfl
      exact mlaPercentUnescape_escape hp b

theorem mlaPercentUnescape_iff_escape_dot :
    percent ∉ ([46] : Bytes) ∧ mlaPercentUnescape [37, 50, 102, 46] [46] = some [47, 46] ∧
      ∀ s, (∀ b, mlaPercentUnescape s [46] = some b ↔ s = mlaPercentEscape b [46]) ↔
        ¬ PassesOver [46] s :=
  ⟨by decide, by decide, (mlaPercentUnescape_iff_escape (by decide)).2⟩

/-- A byte that is neither allowed nor `%` is dropped, not refused. -/
theorem mlaPercentUnescape_stray_not_escape :
    ¬ ∀ allowed : Bytes, percent ∉ allowed → ∀ s b,
      mlaPercentUnescape s allowed = some b ↔ s = mlaPercentEscape b allowed := by
  intro h
  have hs : mlaPercentUnescape [33] [] = some [] := rfl
  exact absurd ((h [] (by decide) [33] []).mp hs) (by decide)

end Mla
