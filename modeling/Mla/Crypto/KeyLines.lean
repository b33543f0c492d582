import Mla.Crypto.KeyFile
import Mla.Io.Trickle
import Mathlib.Data.Fin.VecNotation

/-!
# What the parsers of a key file accept

The file is read to its end, however it comes, and it is split exactly where it is made of
five parts and separators. The parsers of the keys are told by the bytes that they take.
-/

namespace Mla

open Io

/-! ## Reading to the end -/

section ReadToEnd

variable {σ : Type} [Read Error σ] {D : Bytes} {At : σ → ℕ → ℕ → Prop}

/-- The next capacity is larger than what was read. -/
theorem capacity_eq {minCapacity : ℕ} (buf : Bytes) (hpos : 0 < minCapacity)
    (hle : buf.length ≤ minCapacity) (hlen : buf.length < i64Size) :
    ∃ capacity, (if buf.length = minCapacity then checkedMul minCapacity 2 else some minCapacity) =
      some capacity ∧ buf.length < capacity := by
  have hword := two_mul_i64Size
  split
  · rename_i heq
    exact ⟨2 * minCapacity, checkedMul_of_lt (by omega), by omega⟩
  · exact ⟨minCapacity, rfl, by omega⟩

/-- With enough reads all of `D` is returned. -/
theorem zeroizeableReadToEndLoop_eq (h : Trickles D At) (hD : D.length < i64Size) :
    ∀ {fuel minCapacity : ℕ} {s : σ} {p i : ℕ}, At s p i → 0 < minCapacity → p ≤ minCapacity →
      D.length - p + i < fuel →
      ∃ s', zeroizeableReadToEndLoop fuel minCapacity (D.take p) s = .ok D s' := by
  intro fuel
  induction fuel with
  | zero => exact fun _ _ _ hfuel => absurd hfuel (Nat.not_lt_zero _)
  | succ fuel ih =>
      intro minCapacity s p i hs hpos hp hfuel
      have hpD := h.le hs
      have hword := i64Size_lt_u64Size
      have hlen : (D.take p).length = p := List.length_take_of_le hpD
      obtain ⟨capacity, hcapacity, hlt⟩ := capacity_eq (D.take p) hpos (by omega) (by omega)
      rw [zeroizeableReadToEndLoop]
      dsimp only
      rw [hcapacity]
      dsimp only
      rw [hlen] at hlt ⊢
      rcases h.read (n := capacity - p) hs (by omega) with
        ⟨e, s', j, hread, hint, hj, hs'⟩ | ⟨k, s', hread, hk, hpk, hend, hs'⟩
      · rw [hread]
        dsimp only
        rw [if_pos hint]
        exact ih hs' (by omega) (by omega) (by omega)
      · rw [hread]
        dsimp only
        have hbytes : (slice D p k).length = k := length_slice_of_le hpk
        by_cases hk0 : k = 0
        · subst hk0
          rw [slice_zero_length, List.isEmpty_nil, if_pos rfl, hend rfl, List.take_length]
          exact ⟨s', rfl⟩
        · rw [isEmpty_slice (by omega) hpk, if_neg Bool.false_ne_true, hbytes,
            checkedAdd_of_lt (by omega), take_append_slice]
          exact ih hs' (by omega) (by omega) (by omega)

/-- Whatever is returned is all of `D`. -/
theorem eq_of_zeroizeableReadToEndLoop (h : Trickles D At) :
    ∀ {fuel minCapacity : ℕ} {s s' : σ} {p i : ℕ} {content : Bytes}, At s p i →
      0 < minCapacity → p ≤ minCapacity →
      zeroizeableReadToEndLoop fuel minCapacity (D.take p) s = .ok content s' → content = D := by
  intro fuel
  induction fuel with
  | zero =>
      intro minCapacity s s' p i content _ _ _ hrun
      cases hrun
  | succ fuel ih =>
      intro minCapacity s s' p i content hs hpos hp hrun
      have hpD := h.le hs
      have hlen : (D.take p).length = p := List.length_take_of_le hpD
      rw [zeroizeableReadToEndLoop] at hrun
      dsimp only at hrun
      split at hrun
      · cases hrun
      · rename_i capacity hcapacity
        have hlt : p < capacity ∧ 0 < capacity := by
          rw [hlen] at hcapacity
          split at hcapacity
          · have hmul := checkedMul_eq hcapacity
            omega
          · obtain rfl := Option.some.inj hcapacity
            omega
        rw [hlen] at hrun
        rcases h.read (n := capacity - p) hs (by omega) with
          ⟨e, t, j, hread, hint, -, ht⟩ | ⟨k, t, hread, hk, hpk, hend, ht⟩
        · rw [hread] at hrun
          dsimp only at hrun
          rw [if_pos hint] at hrun
          exact ih ht hlt.2 hlt.1.le hrun
        · rw [hread] at hrun
          dsimp only at hrun
          by_cases hk0 : k = 0
          · subst hk0
            rw [slice_zero_length, List.isEmpty_nil, if_pos rfl, hend rfl, List.take_length] at hrun
            exact (EStateM.Result.ok.inj hrun).1.symm
          · rw [isEmpty_slice (by omega) hpk, if_neg Bool.false_ne_true] at hrun
            split at hrun
            · cases hrun
            · rw [take_append_slice] at hrun
              exact ih ht hlt.2 (by omega) hrun

end ReadToEnd

/-! ## Separators -/

/-- What stands behind a part. -/
inductive Sep
  | crlf
  | underscores
  deriving DecidableEq, Repr

def Sep.bytes : Sep → Bytes
  | crlf => [carriageReturn, lineFeed]
  | underscores => [underscore, underscore]

/-- A part is not empty, and no separator starts in it. -/
structure IsPart (part : Bytes) : Prop where
  ne_nil : part ≠ []
  plain : ∀ b ∈ part, b ≠ carriageReturn ∧ b ≠ underscore

def isPart (part : Bytes) : Bool :=
  !part.isEmpty && part.all fun b => b != carriageReturn && b != underscore

theorem isPart_iff (part : Bytes) : isPart part = true ↔ IsPart part := by
  have hall : (part.all fun b => b != carriageReturn && b != underscore) = true ↔
      ∀ b ∈ part, b ≠ carriageReturn ∧ b ≠ underscore := by
    simp
  rw [isPart, Bool.and_eq_true, hall]
  constructor
  · rintro ⟨hne, hplain⟩
    exact ⟨by simpa using hne, hplain⟩
  · rintro ⟨hne, hplain⟩
    exact ⟨by simpa using hne, hplain⟩

instance (part : Bytes) : Decidable (IsPart part) :=
  decidable_of_iff (isPart part = true) (isPart_iff part)

/-- The first byte that is not one of a part. -/
theorem findIdx?_eq_some_iff (content : Bytes) {i : ℕ} :
    (content.findIdx? fun b => decide (b = carriageReturn ∨ b = underscore)) = some i ↔
      ∃ a rest, content.drop i = a :: rest ∧ (a = carriageReturn ∨ a = underscore) ∧
        ∀ b ∈ content.take i, b ≠ carriageReturn ∧ b ≠ underscore := by
  rw [List.findIdx?_eq_some_iff_getElem]
  constructor
  · rintro ⟨hi, hat, hbefore⟩
    refine ⟨content[i], content.drop (i + 1), List.drop_eq_getElem_cons hi, of_decide_eq_true hat, ?_⟩
    intro b hb
    obtain ⟨j, hj, rfl⟩ := List.getElem_of_mem hb
    rw [List.length_take] at hj
    have hplain := hbefore j (by omega)
    rw [List.getElem_take]
    exact not_or.mp fun h => hplain (decide_eq_true h)
  · rintro ⟨a, rest, hdrop, hat, hplain⟩
    have hi : i < content.length := by
      have hlen := congrArg List.length hdrop
      rw [List.length_drop, List.length_cons] at hlen
      omega
    rw [List.drop_eq_getElem_cons hi] at hdrop
    obtain ⟨rfl, -⟩ := List.cons.inj hdrop
    refine ⟨hi, decide_eq_true hat, fun j hj hsep => ?_⟩
    have hmem : content[j] ∈ content.take i :=
      List.mem_take_iff_getElem.mpr ⟨j, by omega, rfl⟩
    exact not_or.mpr (hplain _ hmem) (of_decide_eq_true hsep)

/-- The two bytes of a separator. -/
theorem eq_sep_bytes {a b : UInt8} (hat : a = carriageReturn ∨ a = underscore)
    (hsep : ¬((a ≠ carriageReturn ∧ a ≠ underscore) ∨ (a = carriageReturn ∧ b ≠ lineFeed) ∨
      (a = underscore ∧ b ≠ underscore))) : ∃ sep : Sep, sep.bytes = [a, b] := by
  rcases hat with rfl | rfl
  · obtain rfl : b = lineFeed := by_contra fun hb => hsep (Or.inr (Or.inl ⟨rfl, hb⟩))
    exact ⟨.crlf, rfl⟩
  · obtain rfl : b = underscore := by_contra fun hb => hsep (Or.inr (Or.inr ⟨rfl, hb⟩))
    exact ⟨.underscores, rfl⟩

/-- A part is split off in front of a separator. -/
theorem splitSeparator_append {part rest : Bytes} (hpart : IsPart part) (sep : Sep) :
    splitSeparator (part ++ (sep.bytes ++ rest)) = .ok (part, rest) := by
  have hne : part.length ≠ 0 := fun h => hpart.ne_nil (List.eq_nil_of_length_eq_zero h)
  cases sep with
  | crlf =>
      have hfind := (findIdx?_eq_some_iff (part ++ (Sep.crlf.bytes ++ rest))).mpr
        ⟨carriageReturn, lineFeed :: rest, List.drop_left, Or.inl rfl,
          List.take_left ▸ hpart.plain⟩
      rw [splitSeparator, hfind, Option.getD_some, if_neg hne, List.drop_left, List.take_left]
      rfl
  | underscores =>
      have hfind := (findIdx?_eq_some_iff (part ++ (Sep.underscores.bytes ++ rest))).mpr
        ⟨underscore, underscore :: rest, List.drop_left, Or.inr rfl,
          List.take_left ▸ hpart.plain⟩
      rw [splitSeparator, hfind, Option.getD_some, if_neg hne, List.drop_left, List.take_left]
      rfl

/-- A part is split off where a separator stands behind it. -/
theorem splitSeparator_eq_ok {content part rest : Bytes} :
    splitSeparator content = .ok (part, rest) ↔
      IsPart part ∧ ∃ sep : Sep, content = part ++ (sep.bytes ++ rest) := by
  refine ⟨fun h => ?_, ?_⟩
  · rw [splitSeparator] at h
    cases hfind : content.findIdx? fun b => decide (b = carriageReturn ∨ b = underscore) with
    | none =>
        rw [hfind, Option.getD_none, if_pos rfl] at h
        cases h
    | some i =>
        obtain ⟨a, tail, hdrop, hat, hplain⟩ := (findIdx?_eq_some_iff content).mp hfind
        rw [hfind, Option.getD_some] at h
        by_cases hi : i = 0
        · rw [if_pos hi] at h
          cases h
        · rw [if_neg hi, hdrop] at h
          cases tail with
          | nil => cases h
          | cons b tail =>
              dsimp only at h
              split at h
              · cases h
              · rename_i hsep
                obtain ⟨sep, hbytes⟩ := eq_sep_bytes hat hsep
                obtain ⟨rfl, rfl⟩ := Prod.mk.inj (Except.ok.inj h)
                refine ⟨⟨?_, hplain⟩, sep, ?_⟩
                · intro hnil
                  rcases List.take_eq_nil_iff.mp hnil with h0 | h0
                  · exact hi h0
                  · rw [h0, List.drop_nil] at hdrop
                    cases hdrop
                · rw [hbytes, List.cons_append, List.cons_append, List.nil_append, ← hdrop,
                    List.take_append_drop]
  · rintro ⟨hpart, sep, rfl⟩
    exact splitSeparator_append hpart sep

/-! ## Five parts -/

namespace FiveParts

/-- The parts, with a separator behind each of them. -/
def join (parts : FiveParts) (seps : Fin 5 → Sep) : Bytes :=
  parts.first ++ ((seps 0).bytes ++ (parts.second ++ ((seps 1).bytes ++ (parts.third ++
    ((seps 2).bytes ++ (parts.fourth ++ ((seps 3).bytes ++ (parts.fifth ++
      ((seps 4).bytes ++ [])))))))))

/-- None of the parts is empty or has a separator in it. -/
structure Plain (parts : FiveParts) : Prop where
  first : IsPart parts.first
  second : IsPart parts.second
  third : IsPart parts.third
  fourth : IsPart parts.fourth
  fifth : IsPart parts.fifth

end FiveParts

theorem splitInFiveParts_join {parts : FiveParts} (h : parts.Plain) (seps : Fin 5 → Sep) :
    splitInFiveParts (parts.join seps) = .ok parts := by
  rw [splitInFiveParts]
  refine Except.bind_eq_ok.mpr ⟨_, splitSeparator_append h.first (seps 0), ?_⟩
  refine Except.bind_eq_ok.mpr ⟨_, splitSeparator_append h.second (seps 1), ?_⟩
  refine Except.bind_eq_ok.mpr ⟨_, splitSeparator_append h.third (seps 2), ?_⟩
  refine Except.bind_eq_ok.mpr ⟨_, splitSeparator_append h.fourth (seps 3), ?_⟩
  exact Except.bind_eq_ok.mpr ⟨_, splitSeparator_append h.fifth (seps 4), if_pos rfl⟩

/-- A file is split where it is made of five parts. -/
theorem splitInFiveParts_eq_ok {content : Bytes} {parts : FiveParts} :
    splitInFiveParts content = .ok parts ↔ parts.Plain ∧ ∃ seps, content = parts.join seps := by
  refine ⟨fun h => ?_, ?_⟩
  · rw [splitInFiveParts] at h
    obtain ⟨⟨first, rest₁⟩, h₁, hmore₁⟩ := Except.bind_eq_ok.mp h
    obtain ⟨⟨second, rest₂⟩, h₂, hmore₂⟩ := Except.bind_eq_ok.mp hmore₁
    obtain ⟨⟨third, rest₃⟩, h₃, hmore₃⟩ := Except.bind_eq_ok.mp hmore₂
    obtain ⟨⟨fourth, rest₄⟩, h₄, hmore₄⟩ := Except.bind_eq_ok.mp hmore₃
    obtain ⟨⟨fifth, rest₅⟩, h₅, hend⟩ := Except.bind_eq_ok.mp hmore₄
    dsimp only at hend
    obtain ⟨hfirst, sep₁, rfl⟩ := splitSeparator_eq_ok.mp h₁
    obtain ⟨hsecond, sep₂, rfl⟩ := splitSeparator_eq_ok.mp h₂
    obtain ⟨hthird, sep₃, rfl⟩ := splitSeparator_eq_ok.mp h₃
    obtain ⟨hfourth, sep₄, rfl⟩ := splitSeparator_eq_ok.mp h₄
    obtain ⟨hfifth, sep₅, rfl⟩ := splitSeparator_eq_ok.mp h₅
    split at hend
    · rename_i hrest
      subst hrest
      obtain rfl := Except.ok.inj hend
      exact ⟨⟨hfirst, hsecond, hthird, hfourth, hfifth⟩, ![sep₁, sep₂, sep₃, sep₄, sep₅], rfl⟩
    · cases hend
  · rintro ⟨hplain, seps, rfl⟩
    exact splitInFiveParts_join hplain seps

/-! ## Key lines -/

/-- Options that can be skipped: they are as long as they say. -/
def Skipped (bytes : Bytes) : Prop :=
  ∃ options : Option Bytes, bytes = encodeOptions options ∧
    ∀ payload ∈ options, payload.length < u64Size

theorem toArray_eq_some {n : ℕ} {bytes : Bytes} {array : Vector UInt8 n} :
    toArray n bytes = some array ↔ bytes = array.toList := by
  rw [toArray]
  constructor
  · intro h
    split at h
    · obtain rfl := Option.some.inj h
      rfl
    · cases h
  · rintro rfl
    have hlen : array.toList.length = n := by simp
    rw [dif_pos hlen]
    exact congrArg some (Vector.toList_inj.mp (toList_arrayOf array.toList hlen))

theorem stripPrefix_eq_some {start line rest : Bytes} :
    stripPrefix start line = some rest ↔ line = start ++ rest := by
  rw [stripPrefix]
  constructor
  · intro h
    split at h
    · rename_i hpre
      obtain ⟨tail, rfl⟩ := hpre
      obtain rfl := Option.some.inj h
      rw [List.drop_left]
    · cases h
  · rintro rfl
    rw [if_pos (List.prefix_append start rest), List.drop_left]

section Consumes

variable [Patience]

theorem consumes_readField (n : ℕ) :
    Consumes (readField n : EStateM Error (Cursor Error) Bytes)
      fun bs a => bs.length = n ∧ a = bs :=
  (consumes_readExact n).mapError _

theorem consumes_skipChunks (n : ℕ) :
    Consumes (KeyOpts.skipChunks n : EStateM Error (Cursor Error) Unit)
      fun bs _ => bs.length = n * KeyOpts.bufferSize := by
  induction n with
  | zero =>
      refine (Consumes.pure ()).congr fun bs a => ?_
      rw [Nat.zero_mul, List.length_eq_zero_iff, and_iff_left rfl]
  | succ n ih =>
      refine ((consumes_readField KeyOpts.bufferSize).bind fun _ => ih).congr fun bs a => ?_
      constructor
      · rintro ⟨chunk, _, rest, rfl, ⟨hchunk, rfl⟩, hrest⟩
        rw [List.length_append, hchunk, hrest, Nat.succ_mul, Nat.add_comm]
      · intro hlen
        rw [Nat.succ_mul] at hlen
        refine ⟨bs.take KeyOpts.bufferSize, _, bs.drop KeyOpts.bufferSize,
          (List.take_append_drop _ bs).symm, ⟨?_, rfl⟩, ?_⟩
        · rw [List.length_take, hlen]
          exact Nat.min_eq_left (Nat.le_add_left _ _)
        · rw [List.length_drop, hlen, Nat.add_sub_cancel]

theorem consumes_u8 :
    Consumes (deserializeU8 : EStateM Error (Cursor Error) UInt8) fun bs b => bs = [b] := by
  refine ((consumes_readField 1).map fun bs => bs.headD 0).congr fun bs b => ?_
  constructor
  · rintro ⟨_, ⟨hlen, rfl⟩, rfl⟩
    obtain ⟨c, rfl⟩ := List.length_eq_one_iff.mp hlen
    rfl
  · rintro rfl
    exact ⟨[b], ⟨rfl, rfl⟩, rfl⟩

theorem consumes_keyOptsLen :
    Consumes (fromLeBytes <$> readExactly 8 : EStateM Error (Cursor Error) ℕ)
      fun bs n => bs = leBytes 8 n ∧ n < u64Size := by
  refine (((consumes_readExact 8).mapError Error.ioError).map fromLeBytes).congr fun bs n => ?_
  constructor
  · rintro ⟨a, ⟨hlen, rfl⟩, rfl⟩
    refine ⟨?_, ?_⟩
    · rw [← hlen, leBytes_fromLeBytes]
    · have hlt := fromLeBytes_lt a
      rw [hlen] at hlt
      exact hlt
  · rintro ⟨rfl, hn⟩
    exact ⟨leBytes 8 n, ⟨length_leBytes 8 n, rfl⟩, (fromLeBytes_leBytes_of_lt hn).symm⟩

/-- What is read chunk by chunk is as long as it says. -/
theorem consumes_chunks :
    Consumes (do
      let keyOptsLen ← fromLeBytes <$> readExactly 8
      KeyOpts.skipChunks (keyOptsLen / KeyOpts.bufferSize)
      let _ ← readField (keyOptsLen % KeyOpts.bufferSize)
      pure () : EStateM Error (Cursor Error) Unit)
      fun bs _ => ∃ payload, bs = leBytes 8 payload.length ++ payload ∧
        payload.length < u64Size := by
  refine (consumes_keyOptsLen.bind fun n => (consumes_skipChunks _).bind fun _ =>
    (consumes_readField _).bind fun _ => Consumes.pure ()).congr fun bs a => ?_
  constructor
  · rintro ⟨_, n, _, rfl, ⟨rfl, hn⟩, chunks, _, _, rfl, hchunks, _, remainder, _, rfl,
      ⟨hremainder, rfl⟩, rfl, -⟩
    have hlen : (chunks ++ remainder).length = n := by
      rw [List.length_append, hchunks, hremainder, Nat.mul_comm, Nat.div_add_mod]
    rw [List.append_nil]
    exact ⟨chunks ++ remainder, by rw [hlen], by rwa [hlen]⟩
  · rintro ⟨payload, rfl, hlen⟩
    have hmod := Nat.mod_add_div payload.length KeyOpts.bufferSize
    rw [Nat.mul_comm] at hmod
    have hcut := (List.take_append_drop (payload.length / KeyOpts.bufferSize * KeyOpts.bufferSize)
      payload).symm
    refine ⟨_, payload.length, _, rfl, ⟨rfl, hlen⟩, payload.take _, (), payload.drop _, hcut, ?_,
      _, _, [], (List.append_nil _).symm, ⟨?_, rfl⟩, rfl, rfl⟩
    · rw [List.length_take]
      omega
    · rw [List.length_drop]
      omega

/-- What is skipped are options. -/
theorem consumes_keyOpts :
    Consumes (KeyOpts.deserialize : EStateM Error (Cursor Error) Unit) fun bs _ => Skipped bs := by
  refine (consumes_u8.bind (Q := fun b bs _ => (b = 0 ∧ bs = []) ∨ (b = 1 ∧
    ∃ payload, bs = leBytes 8 payload.length ++ payload ∧ payload.length < u64Size))
      fun b => ?_).congr fun bs _ => ?_
  · split
    · rename_i hb
      subst hb
      refine (Consumes.pure ()).congr fun bs a => ?_
      constructor
      · rintro ⟨rfl, -⟩
        exact Or.inl ⟨rfl, rfl⟩
      · rintro (⟨-, rfl⟩ | ⟨h, -⟩)
        · exact ⟨rfl, rfl⟩
        · exact absurd h (by decide)
    · split
      · rename_i hb₀ hb
        subst hb
        refine consumes_chunks.congr fun bs a => ?_
        constructor
        · exact fun h => Or.inr ⟨rfl, h⟩
        · rintro (⟨h, -⟩ | ⟨-, h⟩)
          · exact absurd h (by decide)
          · exact h
      · rename_i hb₀ hb₁
        refine (Consumes.throw _).congr fun bs a => ?_
        rw [false_iff]
        rintro (⟨h, -⟩ | ⟨h, -⟩)
        · exact hb₀ h
        · exact hb₁ h
  · constructor
    · rintro ⟨_, b, rest, rfl, rfl, ⟨rfl, rfl⟩ | ⟨rfl, payload, rfl, hlen⟩⟩
      · exact ⟨none, rfl, fun _ h => absurd h (Option.not_mem_none _)⟩
      · refine ⟨some payload, rfl, fun _ h => ?_⟩
        obtain rfl := Option.mem_some.mp h
        exact hlen
    · rintro ⟨options, rfl, hlen⟩
      cases options with
      | none => exact ⟨[0], 0, [], rfl, rfl, Or.inl ⟨rfl, rfl⟩⟩
      | some payload =>
          exact ⟨[1], 1, _, rfl, rfl, Or.inr ⟨rfl, payload, rfl, hlen payload rfl⟩⟩

theorem consumes_readArray (n : ℕ) : Consumes (readArray n) fun bs a => bs = a.toList := by
  refine ((consumes_readField n).bind fun bytes => Consumes.okOr _ _).congr fun bs a => ?_
  constructor
  · rintro ⟨_, bytes, _, rfl, ⟨hlen, rfl⟩, rfl, harray⟩
    rw [List.append_nil]
    exact toArray_eq_some.mp harray
  · rintro rfl
    exact ⟨a.toList, _, [], (List.append_nil _).symm, ⟨by simp, rfl⟩, rfl, toArray_eq_some.mpr rfl⟩

omit [Patience] in
theorem finishes_readRest (n : ℕ) : Finishes (readRest n) fun rest a => rest = a.toList where
  ok_iff {D p a} _ := by
    rw [← toArray_eq_some, readRest]
    dsimp only
    cases toArray n (D.drop p) with
    | none => exact iff_of_false (fun ⟨c, h⟩ => by cases h) (by simp)
    | some b =>
        constructor
        · rintro ⟨c, h⟩
          rw [(EStateM.Result.ok.inj h).1]
        · intro h
          obtain rfl := Option.some.inj h
          exact ⟨_, rfl⟩

/-- The data of a key line: a method, options that can be skipped, and the keys. -/
def KeyData {α : Type} (methodId0 : Bytes) (Q : Bytes → α → Prop) (data : Bytes) (key : α) : Prop :=
  ∃ opts rest, data = methodId0 ++ (opts ++ rest) ∧ Skipped opts ∧ Q rest key

theorem finishes_keyData {α : Type} {methodId0 : Bytes} {keys : EStateM Error (Cursor Error) α}
    {Q : Bytes → α → Prop} (hkeys : Finishes keys Q) :
    Finishes (do
      let methodId ← readField methodId0.length
      if methodId = methodId0 then do
        KeyOpts.deserialize
        keys
      else throw .deserializationError) (KeyData methodId0 Q) := by
  have hrest : ∀ methodId, Finishes (if methodId = methodId0 then do
      KeyOpts.deserialize
      keys
    else throw .deserializationError) fun rest key => methodId = methodId0 ∧
      ∃ opts rest', rest = opts ++ rest' ∧ Skipped opts ∧ Q rest' key := by
    intro methodId
    split
    · rename_i heq
      refine (Finishes.bind consumes_keyOpts fun _ => hkeys).congr fun rest key => ?_
      constructor
      · rintro ⟨opts, _, rest', rfl, hopts, hq⟩
        exact ⟨heq, opts, rest', rfl, hopts, hq⟩
      · rintro ⟨-, opts, rest', rfl, hopts, hq⟩
        exact ⟨opts, (), rest', rfl, hopts, hq⟩
    · rename_i hne
      refine (Consumes.throw _).finishes.congr fun rest key => iff_of_false ?_ ?_
      · rintro ⟨_, _, _, h⟩
        exact h
      · rintro ⟨heq, -⟩
        exact hne heq
  refine (Finishes.bind (consumes_readField _) hrest).congr fun data key => ?_
  constructor
  · rintro ⟨_, methodId, _, rfl, ⟨-, rfl⟩, rfl, opts, rest', rfl, hopts, hq⟩
    exact ⟨opts, rest', rfl, hopts, hq⟩
  · rintro ⟨opts, rest, rfl, hopts, hq⟩
    exact ⟨methodId0, methodId0, opts ++ rest, rfl, ⟨rfl, rfl⟩, rfl, opts, rest, rfl, hopts, hq⟩

/-- Which lines are accepted. -/
theorem deserializeKeyLine_eq_ok {α : Type} {header methodId0 line : Bytes}
    {keys : EStateM Error (Cursor Error) α} {Q : Bytes → α → Prop} {key : α}
    (hkeys : Finishes keys Q) :
    deserializeKeyLine header methodId0 keys line = .ok key ↔
      ∃ text data, line = header ++ text ∧ base64Decode text = .ok data ∧
        KeyData methodId0 Q data key := by
  have hdata : ∀ data, KeyData methodId0 Q data key ↔ _ :=
    fun data => ((finishes_keyData hkeys).ok_iff (Nat.zero_le data.length)).symm
  rw [deserializeKeyLine]
  constructor
  · intro h
    obtain ⟨text, htext, hmore⟩ := Except.bind_eq_ok.mp h
    obtain ⟨data, hdecode, hmore'⟩ := Except.bind_eq_ok.mp hmore
    obtain ⟨⟨a, c⟩, hrun, hend⟩ := Except.bind_eq_ok.mp hmore'
    obtain rfl := Except.ok.inj hend
    exact ⟨text, data, stripPrefix_eq_some.mp (orError_eq_ok.mp htext), Except.mapError_eq_ok.mp hdecode,
      (hdata data).mpr ⟨c, runOn_eq_ok.mp hrun⟩⟩
  · rintro ⟨text, data, hline, hdecode, hkey⟩
    obtain ⟨c, hrun⟩ := (hdata data).mp hkey
    refine Except.bind_eq_ok.mpr ⟨text, orError_eq_ok.mpr (stripPrefix_eq_some.mpr hline), ?_⟩
    refine Except.bind_eq_ok.mpr ⟨data, Except.mapError_eq_ok.mpr hdecode, ?_⟩
    exact Except.bind_eq_ok.mpr ⟨(key, c), runOn_eq_ok.mpr hrun, rfl⟩

end Consumes

/-! ## Keys -/

/-- Two arrays and what stands behind them, and what is made of them. -/
def KeyFields {α : Type} {n m : ℕ} (make : Vector UInt8 n → Vector UInt8 m → Option α)
    (tail rest : Bytes) (key : α) : Prop :=
  ∃ ecc pq, rest = ecc.toList ++ (pq.toList ++ tail) ∧ make ecc pq = some key

/-- A line with a key, and with `tail` behind the key. -/
def KeyLine {α : Type} {n m : ℕ} (header methodId0 : Bytes)
    (make : Vector UInt8 n → Vector UInt8 m → Option α) (tail line : Bytes) (key : α) : Prop :=
  ∃ text data, line = header ++ text ∧ base64Decode text = .ok data ∧
    KeyData methodId0 (KeyFields make tail) data key

section Lines

variable [Patience] {α : Type} {n m : ℕ} {line : Bytes}

/-- Behind two arrays there may be more. -/
theorem finishes_arrays (f : Vector UInt8 n → Vector UInt8 m → α) :
    Finishes (do
      let a ← readArray n
      let b ← readArray m
      pure (f a b)) fun rest key =>
        ∃ tail, True ∧ KeyFields (fun a b => some (f a b)) tail rest key := by
  refine ((consumes_readArray n).bind fun a => (consumes_readArray m).bind fun b =>
    Consumes.pure (f a b)).finishes.congr fun rest key => ?_
  constructor
  · rintro ⟨_, tail, rfl, _, a, _, rfl, rfl, _, b, _, rfl, rfl, rfl, rfl⟩
    exact ⟨tail, trivial, a, b, by simp, rfl⟩
  · rintro ⟨tail, -, a, b, rfl, hkey⟩
    obtain rfl := Option.some.inj hkey
    exact ⟨a.toList ++ b.toList, tail, by simp, a.toList, a, b.toList, rfl, rfl, b.toList, b, [],
      by simp, rfl, rfl, rfl⟩

/-- Where the second array is all that is left, there is nothing behind it. -/
theorem finishes_arrayAndRest {β : Type} (f : Vector UInt8 n → Option β)
    (g : β → Vector UInt8 m → α) (e : Error) :
    Finishes (do
      let a ← readArray n
      let k ← okOr (f a) e
      let b ← readRest m
      pure (g k b)) fun rest key =>
        ∃ tail, tail = [] ∧ KeyFields (fun a b => (f a).map fun k => g k b) tail rest key := by
  refine (Finishes.bind (consumes_readArray n) fun a => Finishes.bind (Consumes.okOr (f a) e)
    fun k => (finishes_readRest m).map (g k)).congr fun rest key => ?_
  constructor
  · rintro ⟨_, a, _, rfl, rfl, _, k, _, rfl, ⟨rfl, hk⟩, b, rfl, rfl⟩
    exact ⟨[], rfl, a, b, by simp, Option.map_eq_some_iff.mpr ⟨k, hk, rfl⟩⟩
  · rintro ⟨_, rfl, a, b, rfl, hkey⟩
    obtain ⟨k, hk, rfl⟩ := Option.map_eq_some_iff.mp hkey
    exact ⟨a.toList, a, b.toList, by simp, rfl, [], k, b.toList, rfl, ⟨rfl, hk⟩, b, rfl, rfl⟩

theorem deserializeKeyLine_iff {header methodId0 : Bytes} {keys : EStateM Error (Cursor Error) α}
    {make : Vector UInt8 n → Vector UInt8 m → Option α} {P : Bytes → Prop} {key : α}
    (hkeys : Finishes keys fun rest key => ∃ tail, P tail ∧ KeyFields make tail rest key) :
    deserializeKeyLine header methodId0 keys line = .ok key ↔
      ∃ tail, P tail ∧ KeyLine header methodId0 make tail line key := by
  rw [deserializeKeyLine_eq_ok hkeys]
  constructor
  · rintro ⟨text, data, hline, hdecode, opts, rest, hdata, hopts, tail, htail, hfields⟩
    exact ⟨tail, htail, text, data, hline, hdecode, opts, rest, hdata, hopts, hfields⟩
  · rintro ⟨tail, htail, text, data, hline, hdecode, opts, rest, hdata, hopts, hfields⟩
    exact ⟨text, data, hline, hdecode, opts, rest, hdata, hopts, tail, htail, hfields⟩

variable [Kem] [SignatureSchemes] [KeyEncodings]

theorem MLADecryptionPrivateKey.deserialize_eq_ok {key : MLADecryptionPrivateKey} :
    deserializeDecryptionPrivateKey line = .ok key ↔
      ∃ tail, True ∧ KeyLine mlaPrivDecKeyHeader decMethodId0Priv
        (fun (ecc : Vector UInt8 eccPrivkeySize) dz =>
          some ⟨KeyEncodings.staticSecret ecc, fromDZ64 dz⟩) tail line key :=
  deserializeKeyLine_iff (finishes_arrays _)

theorem MLASigningPrivateKey.deserialize_eq_ok {key : MLASigningPrivateKey} :
    deserializeSigningPrivateKey line = .ok key ↔
      ∃ tail, True ∧ KeyLine mlaPrivSigKeyHeader sigMethodId0Priv
        (fun (ecc : Vector UInt8 ed25519PrivkeySize) (xi : Vector UInt8 mldsaXiSize) =>
          some ⟨KeyEncodings.signingKey ecc, KeyEncodings.mldsaSeed xi⟩) tail line key :=
  deserializeKeyLine_iff (finishes_arrays _)

theorem MLAEncryptionPublicKey.deserialize_eq_ok {key : MLAEncryptionPublicKey} :
    deserializeEncryptionPublicKey line = .ok key ↔
      ∃ tail, tail = [] ∧ KeyLine mlaPubEncKeyHeader encMethodId0Pub
        (fun (ecc : Vector UInt8 eccPubkeySize) (ml : Vector UInt8 mlkemPubkeySize) =>
          some ⟨KeyEncodings.publicKey ecc, KeyEncodings.encapsulationKey ml⟩) tail line key :=
  deserializeKeyLine_iff (finishes_arrayAndRest some _ .deserializationError)

theorem MLASignatureVerificationPublicKey.deserialize_eq_ok
    {key : MLASignatureVerificationPublicKey} :
    deserializeSignatureVerificationPublicKey line = .ok key ↔
      ∃ tail, tail = [] ∧ KeyLine mlaPubSigverifKeyHeader sigverifMethodId0Pub
        (fun (ecc : Vector UInt8 eccPubkeySize) (ml : Vector UInt8 mldsaPubkeySize) =>
          (KeyEncodings.verifyingKey ecc).map fun k => ⟨k, KeyEncodings.mldsaKey ml⟩)
        tail line key :=
  deserializeKeyLine_iff (finishes_arrayAndRest _ _ .deserializationError)

end Lines

/-! ## Files -/

section Files

variable {α β γ σ : Type} [Read Error σ] {D : Bytes} {At : σ → ℕ → ℕ → Prop} {header footer : Bytes}
  {second : Bytes → Except Error α} {third : Bytes → Except Error β} {make : α → β → γ}

/-- The five parts of a file with two keys. -/
structure KeyParts (header footer : Bytes) (second : Bytes → Prop) (third : Bytes → Prop)
    (parts : FiveParts) : Prop where
  plain : parts.Plain
  first : parts.first = header
  second : second parts.second
  third : third parts.third
  fifth : parts.fifth = footer

/-- Such a file is read, once all of it has come. -/
theorem deserializeKeyFile_eq {parts : FiveParts} {seps : Fin 5 → Sep} {a : α} {b : β}
    (h : Trickles (parts.join seps) At) (hlen : (parts.join seps).length < i64Size) {src : σ} {i : ℕ}
    (hsrc : At src 0 i)
    (hparts : KeyParts header footer (second · = .ok a) (third · = .ok b) parts) {fuel : ℕ}
    (hfuel : (parts.join seps).length + i < fuel) :
    deserializeKeyFile header footer second third make fuel src = .ok (make a b) := by
  obtain ⟨s', hread⟩ := zeroizeableReadToEndLoop_eq h hlen hsrc (show 0 < 4096 by decide)
    (Nat.zero_le _) (show _ < fuel by omega)
  rw [List.take_zero] at hread
  rw [deserializeKeyFile]
  refine Except.bind_eq_ok.mpr ⟨(_, s'), runOn_eq_ok.mpr hread, ?_⟩
  refine Except.bind_eq_ok.mpr ⟨parts, splitInFiveParts_join hparts.plain seps, ?_⟩
  rw [if_neg (not_not.mpr hparts.first), if_neg (not_not.mpr hparts.fifth)]
  refine Except.bind_eq_ok.mpr ⟨a, hparts.second, ?_⟩
  exact Except.bind_eq_ok.mpr ⟨b, hparts.third, rfl⟩

/-- A file that is read is such a file. -/
theorem exists_of_deserializeKeyFile (h : Trickles D At) {src : σ} {i : ℕ} (hsrc : At src 0 i)
    {fuel : ℕ} {key : γ}
    (hrun : deserializeKeyFile header footer second third make fuel src = .ok key) :
    ∃ parts seps a b, D = parts.join seps ∧
      KeyParts header footer (second · = .ok a) (third · = .ok b) parts ∧ key = make a b := by
  rw [deserializeKeyFile] at hrun
  obtain ⟨⟨content, s'⟩, hread, hsplit⟩ := Except.bind_eq_ok.mp hrun
  obtain ⟨parts, hparts, hkeys⟩ := Except.bind_eq_ok.mp hsplit
  obtain ⟨hplain, seps, rfl⟩ := splitInFiveParts_eq_ok.mp hparts
  have hcontent := eq_of_zeroizeableReadToEndLoop h hsrc (by decide) (Nat.zero_le _)
    (runOn_eq_ok.mp hread)
  split at hkeys
  · cases hkeys
  · rename_i hfirst
    split at hkeys
    · cases hkeys
    · rename_i hfifth
      obtain ⟨a, hsecond, hmore⟩ := Except.bind_eq_ok.mp hkeys
      obtain ⟨b, hthird, hend⟩ := Except.bind_eq_ok.mp hmore
      exact ⟨parts, seps, a, b, hcontent.symm,
        ⟨hplain, not_not.mp hfirst, hsecond, hthird, not_not.mp hfifth⟩,
        (Except.ok.inj hend).symm⟩

end Files

end Mla
