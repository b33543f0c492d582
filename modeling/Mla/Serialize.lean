import Mla.Error
import Mla.Io.Rules
import Mla.Io.Sink

/-!
# Serialization

The numbers, arrays and lists of the format as they are written and read, one field
after the other, on any writer and reader.

`Emits x bs a` says what a writing operation is for: when it succeeds it has written `bs`
and returns `a`, and it does succeed on a writer that takes that much. `Decodes x bs a` is
its counterpart for a reading operation: it returns `a` where `bs` comes next, and fails
where what is left is only a part of `bs`. Both go through `>>=`, so the encoding of a
record is read off its fields.
-/

namespace Mla

open Io

/-! ## Writing -/

section Write

variable {ω α β : Type} [Patience] [Write Error ω]

/-- `write_all` with `?` where archive errors are returned. -/
def put (bytes : Bytes) : EStateM Error ω Unit :=
  liftIo (writeAll bytes)

/-- The sum of the lengths of two serializations. -/
def addLength (x y : EStateM Error ω ℕ) : EStateM Error ω ℕ := do
  let n ← x
  let m ← y
  okOr (checkedAdd n m) .serializationError

def serializeU8 (b : UInt8) : EStateM Error ω ℕ := do
  put [b]
  pure 1

def serializeU16 (v : ℕ) : EStateM Error ω ℕ := do
  put (leBytes 2 v)
  pure 2

def serializeU32 (v : ℕ) : EStateM Error ω ℕ := do
  put (leBytes 4 v)
  pure 4

def serializeU64 (v : ℕ) : EStateM Error ω ℕ := do
  put (leBytes 8 v)
  pure 8

def serializePair (f : α → EStateM Error ω ℕ) (g : β → EStateM Error ω ℕ) (v : α × β) :
    EStateM Error ω ℕ :=
  addLength (f v.1) (g v.2)

/-- The elements of a slice, after `len` bytes. -/
def serializeSliceFrom (f : α → EStateM Error ω ℕ) : ℕ → List α → EStateM Error ω ℕ
  | len, [] => pure len
  | len, v :: vs => do
      let n ← f v
      let len ← okOr (checkedAdd len n) .serializationError
      serializeSliceFrom f len vs

def serializeSlice (f : α → EStateM Error ω ℕ) (vs : List α) : EStateM Error ω ℕ :=
  serializeSliceFrom f 0 vs

def serializeVec (f : α → EStateM Error ω ℕ) (vs : List α) : EStateM Error ω ℕ :=
  addLength (serializeU64 vs.length) (serializeSlice f vs)

end Write

/-! ## Reading -/

section Read

variable {σ α β : Type} [Patience] [Read Error σ]

/-- `read_exact` with `?` where archive errors are returned. -/
def readExactly (n : ℕ) : EStateM Error σ Bytes :=
  liftIo (readExact n)

/-- `read_exact`, of which no error is passed on. -/
def readField (n : ℕ) : EStateM Error σ Bytes :=
  mapError (fun _ => .deserializationError) (readExact n)

def deserializeU8 : EStateM Error σ UInt8 := do
  let bs ← readField 1
  pure (bs.headD 0)

def deserializeU16 : EStateM Error σ ℕ := fromLeBytes <$> readField 2

def deserializeU32 : EStateM Error σ ℕ := fromLeBytes <$> readField 4

def deserializeU64 : EStateM Error σ ℕ := fromLeBytes <$> readField 8

/-- `n` values one after the other. -/
def deserializeTimes (d : EStateM Error σ α) : ℕ → EStateM Error σ (List α)
  | 0 => pure []
  | n + 1 => do
      let v ← d
      let vs ← deserializeTimes d n
      pure (v :: vs)

/-- An array of bytes is read byte by byte. -/
def deserializeArray (n : ℕ) : EStateM Error σ Bytes :=
  deserializeTimes deserializeU8 n

def deserializeVec (d : EStateM Error σ α) : EStateM Error σ (List α) := do
  let n ← deserializeU64
  deserializeTimes d n

def deserializePair (d : EStateM Error σ α) (d' : EStateM Error σ β) :
    EStateM Error σ (α × β) := do
  let a ← d
  let b ← d'
  pure (a, b)

end Read

/-! ## Options -/

def emptyOptsSerialization : Bytes := [0]
def emptyTailOptsSerialization : Bytes := [0, 1, 0, 0, 0, 0, 0, 0, 0]

@[simp] theorem length_emptyTailOptsSerialization :
    emptyTailOptsSerialization.length = 9 := rfl

/-- The bytes of options, which may be there or not. -/
def encodeOptions : Option Bytes → Bytes
  | none => emptyOptsSerialization
  | some bytes => 1 :: (leBytes 8 bytes.length ++ bytes)

namespace Opts

/-- `Opts::dump`: there is no option yet. -/
def dump {ω : Type} [Patience] [Write Error ω] : EStateM Error ω ℕ := do
  put emptyOptsSerialization
  pure 1

/-- `Opts::from_reader`: options are skipped. -/
def fromReader {σ : Type} [Patience] [Read Error σ] : EStateM Error σ Unit := do
  let discriminant ← deserializeU8
  if discriminant = 0 then
    pure ()
  else if discriminant = 1 then do
    let n ← readExactly 8
    fun s =>
      match takeReadToEnd (fromLeBytes n) s with
      | (_, .ok _ s') => .ok () s'
      | (_, .error e s') => .error (.ioError e) s'
  else
    throw .deserializationError

end Opts

/-! ## What writing emits -/

section Emits

variable {ω ε α β : Type} [Write Error ω]

/-- The operation writes `bs` and returns `a`, or fails; it does not fail as long as the
writer does not. -/
structure Emits (x : EStateM ε ω α) (bs : Bytes) (a : α) : Prop where
  ok : ∀ {Got : ω → Bytes → Prop}, Appends Got → ∀ {s acc a' s'}, Got s acc →
    x s = .ok a' s' → a' = a ∧ Got s' (acc ++ bs)
  accept : ∀ {Got : ω → Bytes → Prop}, Appends Got → ∀ {n s acc}, Accepts n Got → Got s acc →
    acc.length + bs.length ≤ n → bs.length < u64Size → ∃ s', x s = .ok a s'

namespace Emits

variable {x y : EStateM Error ω ℕ} {bs cs : Bytes} {a : α} {b : β}

theorem pure (a : α) : Emits (Pure.pure a : EStateM ε ω α) [] a where
  ok _ _ _ _ _ hs h := by
    obtain ⟨rfl, rfl⟩ := EStateM.Result.ok.inj h
    exact ⟨rfl, by rwa [List.append_nil]⟩
  accept _ _ s _ _ _ _ _ := ⟨s, rfl⟩

theorem bind {x : EStateM ε ω α} {f : α → EStateM ε ω β} (hx : Emits x bs a)
    (hf : Emits (f a) cs b) : Emits (x >>= f) (bs ++ cs) b where
  ok happ s acc b' s' hs h := by
    obtain ⟨a', s₁, hrun, hrest⟩ := bind_eq_ok.mp h
    obtain ⟨rfl, hs₁⟩ := hx.ok happ hs hrun
    obtain ⟨rfl, hs'⟩ := hf.ok happ hs₁ hrest
    exact ⟨rfl, by rwa [← List.append_assoc]⟩
  accept happ n s acc haccepts hs hn hlen := by
    rw [List.length_append] at hn hlen
    obtain ⟨s₁, hrun⟩ := hx.accept happ haccepts hs (by omega) (by omega)
    obtain ⟨-, hs₁⟩ := hx.ok happ hs hrun
    obtain ⟨s', hrest⟩ := hf.accept happ haccepts hs₁
      (by rw [List.length_append]; omega) (by omega)
    exact ⟨s', by rw [bind_apply, hrun]; exact hrest⟩

theorem mapError {ε' : Type} {x : EStateM ε ω α} (hx : Emits x bs a) (f : ε → ε') :
    Emits (Io.mapError f x) bs a where
  ok happ s acc a' s' hs h := by
    rw [Io.mapError] at h
    cases hrun : x s with
    | ok a₁ s₁ =>
        rw [hrun] at h
        obtain ⟨rfl, rfl⟩ := EStateM.Result.ok.inj h
        exact hx.ok happ hs hrun
    | error e s₁ =>
        rw [hrun] at h
        cases h
  accept happ n s acc haccepts hs hn hlen := by
    obtain ⟨s', hrun⟩ := hx.accept happ haccepts hs hn hlen
    exact ⟨s', by rw [Io.mapError, hrun]⟩

theorem writeAll [Patience] (bytes : Bytes) :
    Emits (Io.writeAll bytes : Op Error ω Unit) bytes () where
  ok happ _ _ _ _ hs h := ⟨rfl, happ.writeAll_ok hs h⟩
  accept happ _ _ _ haccepts hs hn _ := by
    obtain ⟨s', hrun, -⟩ := happ.writeAll_eq haccepts hs hn
    exact ⟨s', hrun⟩

theorem put [Patience] (bytes : Bytes) :
    Emits (Mla.put bytes : EStateM Error ω Unit) bytes () :=
  (writeAll bytes).mapError _

/-- Operations with no result to pass on. -/
theorem seq {x : EStateM ε ω Unit} {y : EStateM ε ω β} (hx : Emits x bs ())
    (hy : Emits y cs b) : Emits (x >>= fun _ => y) (bs ++ cs) b :=
  hx.bind hy

theorem cast {x : EStateM ε ω α} (hx : Emits x bs a) {a' : α} (hbs : bs = cs) (ha : a = a') :
    Emits x cs a' :=
  hbs ▸ ha ▸ hx

/-- The value returned is the length of what was written. -/
theorem putCounted [Patience] (bytes : Bytes) {n : ℕ} (hn : bytes.length = n) :
    Emits (do Mla.put bytes; Pure.pure n : EStateM Error ω ℕ) bytes bytes.length :=
  (Emits.seq (put bytes) (pure n)).cast (List.append_nil _) hn.symm

theorem addLength (hx : Emits x bs bs.length) (hy : Emits y cs cs.length) :
    Emits (Mla.addLength x y) (bs ++ cs) (bs ++ cs).length where
  ok happ s acc a s' hs h := by
    obtain ⟨n, s₁, hxrun, hrest⟩ := bind_eq_ok.mp h
    obtain ⟨m, s₂, hyrun, hsum⟩ := bind_eq_ok.mp hrest
    obtain ⟨rfl, hs₁⟩ := hx.ok happ hs hxrun
    obtain ⟨rfl, hs₂⟩ := hy.ok happ hs₁ hyrun
    unfold checkedAdd at hsum
    split at hsum
    · obtain ⟨rfl, rfl⟩ := EStateM.Result.ok.inj hsum
      exact ⟨List.length_append.symm, by rwa [← List.append_assoc]⟩
    · cases hsum
  accept happ n s acc haccepts hs hn hlen := by
    rw [List.length_append] at hn hlen
    obtain ⟨s₁, hxrun⟩ := hx.accept happ haccepts hs (by omega) (by omega)
    obtain ⟨-, hs₁⟩ := hx.ok happ hs hxrun
    obtain ⟨s₂, hyrun⟩ := hy.accept happ haccepts hs₁
      (by rw [List.length_append]; omega) (by omega)
    refine ⟨s₂, ?_⟩
    rw [Mla.addLength, bind_apply, hxrun]
    simp only [bind_apply, hyrun, checkedAdd_of_lt hlen, okOr_some, pure_apply,
      List.length_append]

end Emits

section Encodings

variable [Patience]

theorem emits_u8 (b : UInt8) : Emits (serializeU8 b : EStateM Error ω ℕ) [b] 1 :=
  Emits.putCounted [b] rfl

theorem emits_u16 (v : ℕ) : Emits (serializeU16 v : EStateM Error ω ℕ) (leBytes 2 v) 2 :=
  (Emits.putCounted (leBytes 2 v) (length_leBytes 2 v)).cast rfl (length_leBytes 2 v)

theorem emits_u32 (v : ℕ) : Emits (serializeU32 v : EStateM Error ω ℕ) (leBytes 4 v) 4 :=
  (Emits.putCounted (leBytes 4 v) (length_leBytes 4 v)).cast rfl (length_leBytes 4 v)

theorem emits_u64 (v : ℕ) : Emits (serializeU64 v : EStateM Error ω ℕ) (leBytes 8 v) 8 :=
  (Emits.putCounted (leBytes 8 v) (length_leBytes 8 v)).cast rfl (length_leBytes 8 v)

theorem emits_opts :
    Emits (Opts.dump : EStateM Error ω ℕ) emptyOptsSerialization 1 :=
  Emits.putCounted emptyOptsSerialization rfl

omit [Patience] in
/-- Each value is written as `enc` says. -/
theorem serializeSliceFrom_ok {f : α → EStateM Error ω ℕ} {enc : α → Bytes} {vs : List α}
    (hf : ∀ v ∈ vs, Emits (f v) (enc v) (enc v).length) {Got : ω → Bytes → Prop}
    (happ : Appends Got) {s s' : ω} {acc : Bytes} {len n : ℕ} (hs : Got s acc)
    (h : serializeSliceFrom f len vs s = .ok n s') :
    n = len + (vs.flatMap enc).length ∧ Got s' (acc ++ vs.flatMap enc) := by
  induction vs generalizing s acc len with
  | nil =>
      obtain ⟨rfl, rfl⟩ := EStateM.Result.ok.inj h
      exact ⟨rfl, by rwa [List.flatMap_nil, List.append_nil]⟩
  | cons v vs ih =>
      obtain ⟨m, s₁, hrun, hrest⟩ := bind_eq_ok.mp h
      obtain ⟨len', s₂, hsum, hrest⟩ := bind_eq_ok.mp hrest
      obtain ⟨rfl, hs₁⟩ := (hf v List.mem_cons_self).ok happ hs hrun
      unfold checkedAdd at hsum
      split at hsum
      · obtain ⟨rfl, rfl⟩ := EStateM.Result.ok.inj hsum
        obtain ⟨rfl, hs'⟩ := ih (fun w hw => hf w (List.mem_cons_of_mem _ hw)) hs₁ hrest
        rw [List.flatMap_cons, List.length_append, ← List.append_assoc]
        exact ⟨by omega, hs'⟩
      · cases hsum

omit [Patience] in
theorem serializeSliceFrom_accept {f : α → EStateM Error ω ℕ} {enc : α → Bytes} {vs : List α}
    (hf : ∀ v ∈ vs, Emits (f v) (enc v) (enc v).length) {Got : ω → Bytes → Prop}
    (happ : Appends Got) {n : ℕ} (haccepts : Accepts n Got) {s : ω} {acc : Bytes} (len : ℕ)
    (hs : Got s acc) (hn : acc.length + (vs.flatMap enc).length ≤ n)
    (hlen : len + (vs.flatMap enc).length < u64Size) :
    ∃ m s', serializeSliceFrom f len vs s = .ok m s' := by
  induction vs generalizing s acc len with
  | nil => exact ⟨len, s, rfl⟩
  | cons v vs ih =>
      rw [List.flatMap_cons, List.length_append] at hn hlen
      have hv := hf v List.mem_cons_self
      obtain ⟨s₁, hrun⟩ := hv.accept happ haccepts hs (by omega) (by omega)
      obtain ⟨-, hs₁⟩ := hv.ok happ hs hrun
      obtain ⟨m, s', hrest⟩ := ih (fun w hw => hf w (List.mem_cons_of_mem _ hw)) _ hs₁
        (by rw [List.length_append]; omega)
        (show len + (enc v).length + (vs.flatMap enc).length < u64Size by omega)
      refine ⟨m, s', ?_⟩
      rw [serializeSliceFrom, bind_apply, hrun]
      have hsum : checkedAdd len (enc v).length = some (len + (enc v).length) :=
        checkedAdd_of_lt (by omega)
      simp only [hsum, okOr_some, bind_apply, pure_apply, hrest]

omit [Patience] in
theorem emits_slice {f : α → EStateM Error ω ℕ} {enc : α → Bytes} {vs : List α}
    (hf : ∀ v ∈ vs, Emits (f v) (enc v) (enc v).length) :
    Emits (serializeSlice f vs) (vs.flatMap enc) (vs.flatMap enc).length where
  ok happ s acc n s' hs h := by
    obtain ⟨hn, hs'⟩ := serializeSliceFrom_ok hf happ hs h
    exact ⟨by rw [hn, Nat.zero_add], hs'⟩
  accept happ n s acc haccepts hs hn hlen := by
    obtain ⟨m, s', hrun⟩ := serializeSliceFrom_accept hf happ haccepts 0 hs hn
      (by rwa [Nat.zero_add])
    obtain ⟨rfl, -⟩ := serializeSliceFrom_ok hf happ hs hrun
    exact ⟨s', by rw [serializeSlice, hrun, Nat.zero_add]⟩

/-- An array or a slice of bytes is written byte by byte. -/
theorem emits_bytes (bs : Bytes) :
    Emits (serializeSlice serializeU8 bs : EStateM Error ω ℕ) bs bs.length := by
  have hone : ∀ b ∈ bs, Emits (serializeU8 b : EStateM Error ω ℕ) [b] [b].length :=
    fun b _ => emits_u8 b
  have h := emits_slice hone
  have hflat : bs.flatMap (fun b => [b]) = bs := by
    rw [List.flatMap_singleton']
  rwa [hflat] at h

/-- The encoding of a vector: its length, then its elements. -/
def encodeVec (enc : α → Bytes) (vs : List α) : Bytes :=
  leBytes 8 vs.length ++ vs.flatMap enc

theorem emits_vec {f : α → EStateM Error ω ℕ} {enc : α → Bytes} {vs : List α}
    (hf : ∀ v ∈ vs, Emits (f v) (enc v) (enc v).length) :
    Emits (serializeVec f vs) (encodeVec enc vs) (encodeVec enc vs).length :=
  Emits.addLength ((emits_u64 _).cast rfl (length_leBytes 8 _).symm) (emits_slice hf)

end Encodings

end Emits

/-! ## What reading decodes -/

section Decodes

variable {σ ε α β : Type} [Read Error σ]

/-- The operation returns `a` where the reader is followed by `bs`, and fails where it is
followed by only a part of `bs`. -/
structure Decodes (x : EStateM ε σ α) (bs : Bytes) (a : α) : Prop where
  ok : ∀ {closed D} {At : σ → ℕ → Prop}, Delivers closed D At → ∀ {s p}, At s p →
    bs <+: D.drop p → ∃ s', x s = .ok a s' ∧ At s' (p + bs.length)
  cut : ∀ {closed D} {At : σ → ℕ → Prop}, Delivers closed D At → Ends D At → ∀ {s p}, At s p →
    D.drop p <+: bs → D.drop p ≠ bs → ∃ e s', x s = .error e s'

namespace Decodes

variable {x : EStateM ε σ α} {bs cs : Bytes} {a : α} {b : β}

theorem pure (a : α) : Decodes (Pure.pure a : EStateM ε σ α) [] a where
  ok {_ _ _} _ {s _} hs _ := ⟨s, rfl, hs⟩
  cut {_ _ _} _ _ {_ _} _ hpre hne := absurd (List.prefix_nil.mp hpre) hne

theorem bind {f : α → EStateM ε σ β} (hx : Decodes x bs a) (hf : Decodes (f a) cs b) :
    Decodes (x >>= f) (bs ++ cs) b where
  ok {closed D At} hdelivers {s p} hs hpre := by
    obtain ⟨s₁, hrun, hs₁⟩ := hx.ok hdelivers hs ((List.prefix_append bs cs).trans hpre)
    have hrest : cs <+: D.drop (p + bs.length) := by
      obtain ⟨rest, hrest⟩ := hpre
      refine ⟨rest, ?_⟩
      rw [← List.drop_drop, ← hrest, List.append_assoc, List.drop_left]
    obtain ⟨s', hrun', hs'⟩ := hf.ok hdelivers hs₁ hrest
    refine ⟨s', ?_, ?_⟩
    · rw [bind_apply, hrun]
      exact hrun'
    · rwa [List.length_append, ← Nat.add_assoc]
  cut {closed D At} hdelivers hends {s p} hs hpre hne := by
    rcases Nat.lt_or_ge (D.drop p).length bs.length with hlt | hge
    · have hcut := List.prefix_of_prefix_length_le hpre (List.prefix_append bs cs) hlt.le
      obtain ⟨e, s', hrun⟩ := hx.cut hdelivers hends hs hcut fun h => by
        rw [h] at hlt
        exact Nat.lt_irrefl _ hlt
      exact ⟨e, s', by rw [bind_apply, hrun]⟩
    · have hbs := List.prefix_of_prefix_length_le (List.prefix_append bs cs) hpre hge
      obtain ⟨s₁, hrun, hs₁⟩ := hx.ok hdelivers hs hbs
      obtain ⟨rest, hrest⟩ := hbs
      have hdrop : D.drop (p + bs.length) = rest := by
        rw [← List.drop_drop, ← hrest, List.drop_left]
      rw [← hrest] at hpre hne
      obtain ⟨e, s', hrun'⟩ := hf.cut hdelivers hends hs₁
        (by rw [hdrop]; exact (List.prefix_append_right_inj bs).mp hpre)
        (by rw [hdrop]; exact fun h => hne (by rw [h]))
      refine ⟨e, s', ?_⟩
      rw [bind_apply, hrun]
      exact hrun'

theorem cast (hx : Decodes x bs a) {a' : α} (hbs : bs = cs) (ha : a = a') : Decodes x cs a' :=
  hbs ▸ ha ▸ hx

/-- What is made of a value does not matter to the reader. -/
theorem map (hx : Decodes x bs a) (f : α → β) : Decodes (f <$> x) bs (f a) :=
  (hx.bind (f := fun a => Pure.pure (f a)) (pure (f a))).cast (List.append_nil _) rfl

theorem bindPure {f : α → β} (hx : Decodes x bs a) :
    Decodes (x >>= fun v => Pure.pure (f v)) bs (f a) :=
  hx.map f

theorem mapError {ε' : Type} (hx : Decodes x bs a) (f : ε → ε') :
    Decodes (Io.mapError f x) bs a where
  ok {_ _ _} hdelivers {_ _} hs hpre := by
    obtain ⟨s', hrun, hs'⟩ := hx.ok hdelivers hs hpre
    exact ⟨s', by rw [Io.mapError, hrun], hs'⟩
  cut {_ _ _} hdelivers hends {_ _} hs hpre hne := by
    obtain ⟨e, s', hrun⟩ := hx.cut hdelivers hends hs hpre hne
    exact ⟨f e, s', by rw [Io.mapError, hrun]⟩

end Decodes

section Encodings

variable [Patience]

theorem decodes_readExact {bs : Bytes} {n : ℕ} (hn : bs.length = n) :
    Decodes (readExact n : Op Error σ Bytes) bs bs where
  ok {closed D At} hdelivers {s p} hs hpre := by
    subst hn
    have hle := hpre.length_le
    rw [List.length_drop] at hle
    obtain ⟨s', hrun, hs'⟩ := hdelivers.readExact_eq hs
      (show p + bs.length ≤ D.length by have := hdelivers.le hs; omega)
    have hslice : slice D p bs.length = bs := by
      obtain ⟨rest, hrest⟩ := hpre
      rw [slice, ← hrest, List.take_left]
    rw [hslice] at hrun
    exact ⟨s', hrun, hs'⟩
  cut {closed D At} hdelivers hends {s p} hs hpre hne := by
    subst hn
    have hle := hpre.length_le
    have hlen : (D.drop p).length ≠ bs.length := fun h => hne (hpre.eq_of_length h)
    rw [List.length_drop] at hle hlen
    exact hdelivers.readExact_error hends hs (by omega)

theorem decodes_readExactly {bs : Bytes} {n : ℕ} (hn : bs.length = n) :
    Decodes (readExactly n : EStateM Error σ Bytes) bs bs :=
  (decodes_readExact hn).mapError Error.ioError

theorem decodes_readField {bs : Bytes} {n : ℕ} (hn : bs.length = n) :
    Decodes (readField n : EStateM Error σ Bytes) bs bs :=
  (decodes_readExact hn).mapError fun _ => Error.deserializationError

theorem decodes_u8 (b : UInt8) : Decodes (deserializeU8 : EStateM Error σ UInt8) [b] b :=
  (decodes_readField (List.length_singleton (a := b))).map fun bs => bs.headD 0

theorem decodes_u16 {v : ℕ} (hv : v < 256 ^ 2) :
    Decodes (deserializeU16 : EStateM Error σ ℕ) (leBytes 2 v) v :=
  ((decodes_readField (length_leBytes 2 v)).map fromLeBytes).cast rfl (fromLeBytes_leBytes_of_lt hv)

theorem decodes_u32 {v : ℕ} (hv : v < 256 ^ 4) :
    Decodes (deserializeU32 : EStateM Error σ ℕ) (leBytes 4 v) v :=
  ((decodes_readField (length_leBytes 4 v)).map fromLeBytes).cast rfl (fromLeBytes_leBytes_of_lt hv)

theorem decodes_u64 {v : ℕ} (hv : v < u64Size) :
    Decodes (deserializeU64 : EStateM Error σ ℕ) (leBytes 8 v) v :=
  ((decodes_readField (length_leBytes 8 v)).map fromLeBytes).cast rfl
    (fromLeBytes_leBytes_of_lt (by rwa [u64Size] at hv))

omit [Patience] in
theorem decodes_times {d : EStateM Error σ α} {enc : α → Bytes} {vs : List α}
    (hd : ∀ v ∈ vs, Decodes d (enc v) v) :
    Decodes (deserializeTimes d vs.length) (vs.flatMap enc) vs := by
  induction vs with
  | nil => exact Decodes.pure []
  | cons v vs ih =>
      have hrest := ih fun w hw => hd w (List.mem_cons_of_mem _ hw)
      rw [List.flatMap_cons]
      exact (hd v List.mem_cons_self).bind (hrest.map (v :: ·))

theorem decodes_array {bs : Bytes} {n : ℕ} (hn : bs.length = n) :
    Decodes (deserializeArray n : EStateM Error σ Bytes) bs bs := by
  subst hn
  have hone : ∀ b ∈ bs, Decodes (deserializeU8 : EStateM Error σ UInt8) [b] b :=
    fun b _ => decodes_u8 b
  have h := decodes_times hone
  have hflat : bs.flatMap (fun b => [b]) = bs := List.flatMap_singleton' bs
  rwa [hflat] at h

theorem decodes_vec {d : EStateM Error σ α} {enc : α → Bytes} {vs : List α}
    (hlen : vs.length < u64Size) (hd : ∀ v ∈ vs, Decodes d (enc v) v) :
    Decodes (deserializeVec d) (encodeVec enc vs) vs :=
  (decodes_u64 hlen).bind (decodes_times hd)

omit [Patience] in
theorem decodes_pair {d : EStateM Error σ α} {d' : EStateM Error σ β} {bs cs : Bytes} {a : α}
    {b : β} (hd : Decodes d bs a) (hd' : Decodes d' cs b) :
    Decodes (deserializePair d d') (bs ++ cs) (a, b) :=
  hd.bind (hd'.map (a, ·))

theorem decodes_opts : Decodes (Opts.fromReader : EStateM Error σ Unit)
    emptyOptsSerialization () :=
  (decodes_u8 0).bind (Decodes.pure ())

end Encodings

end Decodes

/-! ## From a writer to a reader -/

section Transfer

variable {ω σ α : Type} [Write Error ω] [Read Error σ]

/-- The reader is followed by what the writer has been given since it was in state `s`. -/
def Passes (s s' : ω) (t : σ) : Prop :=
  ∃ (Got : ω → Bytes → Prop) (acc : Bytes) (closed : Prop) (D : Bytes) (At : σ → ℕ → Prop) (p : ℕ),
    Appends Got ∧ Got s acc ∧ Delivers closed D At ∧ At t p ∧
      ∀ bs, Got s' (acc ++ bs) → bs <+: D.drop p

/-- What is written can be read again. -/
def Transfers (ser : α → EStateM Error ω ℕ) (de : EStateM Error σ α) (a : α) : Prop :=
  ∀ s n s' t, Passes s s' t → ser a s = .ok n s' → ∃ t', de t = .ok a t'

variable {ser : α → EStateM Error ω ℕ} {de : EStateM Error σ α} {a a' : α} {bs : Bytes} {m : ℕ}

theorem Emits.transfers (hemits : Emits (ser a) bs m) (hdecodes : Decodes de bs a) :
    Transfers ser de a := by
  rintro s n s' t ⟨Got, acc, closed, D, At, p, happ, hs, hdelivers, ht, hpasses⟩ hrun
  obtain ⟨-, hs'⟩ := hemits.ok happ hs hrun
  obtain ⟨t', hread, -⟩ := hdecodes.ok hdelivers ht (hpasses bs hs')
  exact ⟨t', hread⟩

end Transfer

end Mla
