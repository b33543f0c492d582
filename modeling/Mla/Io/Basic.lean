import Mathlib.Data.List.Basic

/-!
# Byte streams with errors

`Read`, `Seek` and `Write` are the three stream interfaces of the standard
library, as operations on a state `σ` that survives an error: an operation is an
`EStateM`, whose error outcome carries the state reached so far. A call
`read n` is a read into a buffer of `n` bytes, and returns the bytes put at the
front of that buffer.

The loops built on single calls (`readExact`, `takeReadToEnd`, `writeAll`) retry
a call that was interrupted. `Patience` bounds the number of retries, so that
the loops are total: a run of the unbounded loop that ends is the run of the
bounded loop for every large enough bound.
-/

namespace Io

abbrev Bytes := List UInt8

/-- The kinds of I/O errors that the loops below produce or tell apart. -/
inductive ErrorKind
  | interrupted
  | invalidInput
  | unexpectedEof
  | writeZero
  /-- Of no call of the source: a loop below ran out of its retries. -/
  | exhausted
  deriving DecidableEq, Repr

/-- An I/O error is of a bare kind, or wraps an error of the program. -/
inductive IoError (ε : Type)
  | kind (k : ErrorKind)
  | other (e : ε)

def IoError.isInterrupted {ε : Type} : IoError ε → Bool
  | .kind .interrupted => true
  | _ => false

inductive SeekFrom
  | start (pos : Nat)
  | current (offset : Int)
  | fromEnd (offset : Int)
  deriving DecidableEq, Repr

/-- An operation on a stream of state `σ`. -/
abbrev Op (ε σ α : Type) := EStateM (IoError ε) σ α

class Read (ε : outParam Type) (σ : Type) where
  read : Nat → Op ε σ Bytes

class Seek (ε : outParam Type) (σ : Type) where
  seek : SeekFrom → Op ε σ Nat

class Write (ε : outParam Type) (ω : Type) where
  write : Bytes → Op ε ω Nat

/-- How many interrupted calls a loop sits out before it gives up. -/
class Patience where
  retries : Nat

/-! ## Running operations -/

@[simp] theorem bind_apply {ε σ α β : Type} (x : EStateM ε σ α) (f : α → EStateM ε σ β)
    (s : σ) :
    (x >>= f) s =
      match x s with
      | .ok a s' => f a s'
      | .error e s' => .error e s' := (rfl)

@[simp] theorem pure_apply {ε σ α : Type} (a : α) (s : σ) :
    (pure a : EStateM ε σ α) s = .ok a s := (rfl)

@[simp] theorem throw_apply {ε σ α : Type} (e : ε) (s : σ) :
    (throw e : EStateM ε σ α) s = .error e s := (rfl)

@[simp] theorem get_apply {ε σ : Type} (s : σ) :
    (get : EStateM ε σ σ) s = .ok s s := (rfl)

@[simp] theorem set_apply {ε σ : Type} (s s' : σ) :
    (set s' : EStateM ε σ PUnit) s = .ok PUnit.unit s' := (rfl)

@[simp] theorem modify_apply {ε σ : Type} (f : σ → σ) (s : σ) :
    (modify f : EStateM ε σ PUnit) s = .ok PUnit.unit (f s) := (rfl)

theorem get_bind {ε σ α : Type} (f : σ → EStateM ε σ α) (s : σ) :
    ((get : EStateM ε σ σ) >>= f) s = f s s := (rfl)

/-- A sequence of two operations succeeds exactly when both do. -/
theorem bind_eq_ok {ε σ α β : Type} {x : EStateM ε σ α} {f : α → EStateM ε σ β}
    {s s'' : σ} {b : β} :
    (x >>= f) s = .ok b s'' ↔ ∃ a s', x s = .ok a s' ∧ f a s' = .ok b s'' := by
  rw [bind_apply]
  cases x s with
  | ok a s' => simp
  | error e s' => simp

/-- A sequence of two operations fails when one of them does. -/
theorem bind_eq_error {ε σ α β : Type} {x : EStateM ε σ α} {f : α → EStateM ε σ β}
    {s s'' : σ} {e : ε} :
    (x >>= f) s = .error e s'' ↔
      x s = .error e s'' ∨ ∃ a s', x s = .ok a s' ∧ f a s' = .error e s'' := by
  rw [bind_apply]
  cases x s with
  | ok a s' => simp
  | error e s' => simp

/-- The state that an operation ends in. -/
def stateOf {ε ρ α : Type} : EStateM.Result ε ρ α → ρ
  | .ok _ s => s
  | .error _ s => s

@[simp] theorem stateOf_ok {ε ρ α : Type} (a : α) (s : ρ) :
    stateOf (.ok a s : EStateM.Result ε ρ α) = s := (rfl)

@[simp] theorem stateOf_error {ε ρ α : Type} (e : ε) (s : ρ) :
    stateOf (.error e s : EStateM.Result ε ρ α) = s := (rfl)

/-- Rewrite the error of an operation. -/
def mapError {ε ε' σ α : Type} (f : ε → ε') (x : EStateM ε σ α) : EStateM ε' σ α :=
  fun s =>
    match x s with
    | .ok a s' => .ok a s'
    | .error e s' => .error (f e) s'

/-- Run an operation on a component of the state. -/
def zoom {ε σ τ α : Type} (get : σ → τ) (set : τ → σ → σ) (x : EStateM ε τ α) :
    EStateM ε σ α :=
  fun s =>
    match x (get s) with
    | .ok a t => .ok a (set t s)
    | .error e t => .error e (set t s)

theorem zoom_eq_ok {ε σ τ α : Type} {get : σ → τ} {set : τ → σ → σ} {x : EStateM ε τ α} {s s' : σ}
    {a : α} : zoom get set x s = .ok a s' ↔ ∃ t, x (get s) = .ok a t ∧ s' = set t s := by
  unfold zoom
  cases x (get s) with
  | ok b t => simp [and_assoc, eq_comm]
  | error e t => simp

theorem zoom_eq_error {ε σ τ α : Type} {get : σ → τ} {set : τ → σ → σ} {x : EStateM ε τ α}
    {s s' : σ} {e : ε} :
    zoom get set x s = .error e s' ↔ ∃ t, x (get s) = .error e t ∧ s' = set t s := by
  unfold zoom
  cases x (get s) with
  | ok b t => simp
  | error e' t => simp [and_assoc, eq_comm]

@[simp] theorem stateOf_zoom {ε σ τ α : Type} (get : σ → τ) (set : τ → σ → σ) (x : EStateM ε τ α)
    (s : σ) : stateOf (zoom get set x s) = set (stateOf (x (get s))) s := by
  unfold zoom
  cases x (get s) <;> rfl

/-- Run an operation on a stream that is given up when it fails. -/
def runOn {ε σ α : Type} (x : EStateM ε σ α) (s : σ) : Except ε (α × σ) :=
  match x s with
  | .ok a s' => .ok (a, s')
  | .error e _ => .error e

theorem runOn_eq_ok {ε σ α : Type} {x : EStateM ε σ α} {s s' : σ} {a : α} :
    runOn x s = .ok (a, s') ↔ x s = .ok a s' := by
  unfold runOn
  cases x s with
  | ok b t => simp
  | error e t => simp

/-- In `Except`, too, a sequence of two operations succeeds exactly when both do. -/
theorem Except.bind_eq_ok {ε α β : Type} {x : Except ε α} {f : α → Except ε β} {b : β} :
    (x >>= f) = .ok b ↔ ∃ a, x = .ok a ∧ f a = .ok b := by
  cases x with
  | ok a => simp [bind, Except.bind]
  | error e => simp [bind, Except.bind]

theorem Except.mapError_eq_ok {ε ε' α : Type} {f : ε → ε'} {x : Except ε α} {a : α} :
    x.mapError f = .ok a ↔ x = .ok a := by
  cases x with
  | ok b => exact ⟨fun h => congrArg Except.ok (Except.ok.inj h), fun h => by rw [h]; rfl⟩
  | error e => exact iff_of_false (fun h => by cases h) (fun h => by cases h)

/-- Raise `e` when the value is absent. -/
def okOr {ε σ α : Type} (o : Option α) (e : ε) : EStateM ε σ α :=
  match o with
  | some a => pure a
  | none => throw e

@[simp] theorem okOr_some {ε σ α : Type} (a : α) (e : ε) :
    (okOr (some a) e : EStateM ε σ α) = pure a := (rfl)

@[simp] theorem okOr_none {ε σ α : Type} (e : ε) :
    (okOr none e : EStateM ε σ α) = throw e := (rfl)

theorem okOr_eq_ok {ε σ α : Type} {o : Option α} {e : ε} {s s' : σ} {a : α} :
    (okOr o e : EStateM ε σ α) s = .ok a s' ↔ o = some a ∧ s' = s := by
  cases o with
  | none => simp
  | some b => simp [eq_comm]

theorem okOr_bind_eq_ok {ε σ α β : Type} {o : Option α} {e : ε} {f : α → EStateM ε σ β} {s s' : σ}
    {b : β} : (okOr o e >>= f) s = .ok b s' ↔ ∃ a, o = some a ∧ f a s = .ok b s' := by
  cases o with
  | none => simp
  | some a => simp

theorem okOr_eq_error {ε σ α : Type} {o : Option α} {e e' : ε} {s s' : σ} :
    (okOr o e : EStateM ε σ α) s = .error e' s' ↔ o = none ∧ e' = e ∧ s' = s := by
  cases o with
  | none => simp [eq_comm]
  | some b => simp

/-- The value, or `e` when it is absent. -/
def orError {ε α : Type} (o : Option α) (e : ε) : Except ε α :=
  match o with
  | some a => .ok a
  | none => .error e

theorem orError_eq_ok {ε α : Type} {o : Option α} {e : ε} {a : α} :
    orError o e = .ok a ↔ o = some a := by
  cases o <;> simp [orError]

/-! ## Loops -/

section Loops

variable {ε σ ω : Type} [Patience]

/-- `read_exact` on `n` bytes, with `fuel` calls left. A call that returns
nothing is the end of the stream. -/
def readExactLoop [Read ε σ] : Nat → Nat → Op ε σ Bytes
  | _, 0 => pure []
  | 0, _ + 1 => throw (.kind .exhausted)
  | fuel + 1, n + 1 => fun s =>
      match Read.read (n + 1) s with
      | .ok bs s' =>
          if bs.isEmpty then .error (.kind .unexpectedEof) s'
          else
            match readExactLoop fuel (n + 1 - bs.length) s' with
            | .ok rest s'' => .ok (bs ++ rest) s''
            | .error e s'' => .error e s''
      | .error e s' =>
          if e.isInterrupted then readExactLoop fuel (n + 1) s' else .error e s'

omit [Patience] in
theorem readExactLoop_zero [Read ε σ] (fuel : Nat) (s : σ) :
    (readExactLoop fuel 0 : Op ε σ Bytes) s = .ok [] s := by
  cases fuel <;> rfl

omit [Patience] in
theorem readExactLoop_succ [Read ε σ] (fuel n : Nat) (s : σ) :
    (readExactLoop (fuel + 1) (n + 1) : Op ε σ Bytes) s =
      match Read.read (n + 1) s with
      | .ok bs s' =>
          if bs.isEmpty then .error (.kind .unexpectedEof) s'
          else
            match readExactLoop fuel (n + 1 - bs.length) s' with
            | .ok rest s'' => .ok (bs ++ rest) s''
            | .error e s'' => .error e s''
      | .error e s' =>
          if e.isInterrupted then readExactLoop fuel (n + 1) s' else .error e s' := rfl

/-- `Read::read_exact` into a buffer of `n` bytes. -/
def readExact [Read ε σ] (n : Nat) : Op ε σ Bytes :=
  readExactLoop (n + Patience.retries) n

/-- `Read::take(limit).read_to_end(vec)`, with `fuel` calls left. The bytes
appended to the vector are returned next to the outcome, since they stay there
when a call fails. -/
def takeReadToEndLoop [Read ε σ] : Nat → Nat → σ → Bytes × EStateM.Result (IoError ε) σ Unit
  | _, 0, s => ([], .ok () s)
  | 0, _ + 1, s => ([], .error (.kind .exhausted) s)
  | fuel + 1, limit + 1, s =>
      match Read.read (limit + 1) s with
      | .ok bs s' =>
          if bs.isEmpty then ([], .ok () s')
          else
            let rest := takeReadToEndLoop fuel (limit + 1 - bs.length) s'
            (bs ++ rest.1, rest.2)
      | .error e s' =>
          if e.isInterrupted then takeReadToEndLoop fuel (limit + 1) s' else ([], .error e s')

omit [Patience] in
theorem takeReadToEndLoop_zero [Read ε σ] (fuel : Nat) (s : σ) :
    (takeReadToEndLoop fuel 0 s : Bytes × EStateM.Result (IoError ε) σ Unit) = ([], .ok () s) := by
  cases fuel <;> rfl

omit [Patience] in
theorem takeReadToEndLoop_succ [Read ε σ] (fuel limit : Nat) (s : σ) :
    (takeReadToEndLoop (fuel + 1) (limit + 1) s : Bytes × EStateM.Result (IoError ε) σ Unit) =
      match Read.read (limit + 1) s with
      | .ok bs s' =>
          if bs.isEmpty then ([], .ok () s')
          else
            let rest := takeReadToEndLoop fuel (limit + 1 - bs.length) s'
            (bs ++ rest.1, rest.2)
      | .error e s' =>
          if e.isInterrupted then takeReadToEndLoop fuel (limit + 1) s' else ([], .error e s') := rfl

/-- `Read::take(limit).read_to_end(vec)`. -/
def takeReadToEnd [Read ε σ] (limit : Nat) (s : σ) : Bytes × EStateM.Result (IoError ε) σ Unit :=
  takeReadToEndLoop (limit + Patience.retries) limit s

/-- `write_all` on `buf`, with `fuel` calls left. -/
def writeAllLoop [Write ε ω] : Nat → Bytes → Op ε ω Unit
  | _, [] => pure ()
  | 0, _ :: _ => throw (.kind .exhausted)
  | fuel + 1, b :: bs => fun s =>
      match Write.write (b :: bs) s with
      | .ok k s' =>
          if k = 0 then .error (.kind .writeZero) s'
          else writeAllLoop fuel ((b :: bs).drop k) s'
      | .error e s' =>
          if e.isInterrupted then writeAllLoop fuel (b :: bs) s' else .error e s'

omit [Patience] in
theorem writeAllLoop_cons [Write ε ω] (fuel : Nat) (b : UInt8) (bs : Bytes) (s : ω) :
    (writeAllLoop (fuel + 1) (b :: bs) : Op ε ω Unit) s =
      match Write.write (b :: bs) s with
      | .ok k s' =>
          if k = 0 then .error (.kind .writeZero) s'
          else writeAllLoop fuel ((b :: bs).drop k) s'
      | .error e s' =>
          if e.isInterrupted then writeAllLoop fuel (b :: bs) s' else .error e s' := rfl

/-- `Write::write_all`. -/
def writeAll [Write ε ω] (buf : Bytes) : Op ε ω Unit :=
  writeAllLoop (buf.length + Patience.retries) buf

end Loops

end Io
