import Mla.Entries.Block

/-!
# Blocks at a place of a byte string

What an operation that only reads does on a source that serves the bytes of `S` depends on
these bytes and on its position: it does the same on any other such source. So the block that
stands at a place of `S` can be told from the in-memory reader.
-/

namespace Mla

open Io

section Agrees

variable {ε σ τ α β : Type} {At : σ → ℕ → Prop} {At' : τ → ℕ → Prop}

/-- Two runs end alike, at the same position. -/
def SameEnd (At : σ → ℕ → Prop) (At' : τ → ℕ → Prop) :
    EStateM.Result ε σ α → EStateM.Result ε τ α → Prop
  | .ok a s, .ok b t => a = b ∧ ∃ p, At s p ∧ At' t p
  | .error e s, .error e' t => e = e' ∧ ∃ p, At s p ∧ At' t p
  | _, _ => False

/-- From the same position the two operations do the same. -/
structure Agrees (At : σ → ℕ → Prop) (At' : τ → ℕ → Prop) (x : EStateM ε σ α)
    (y : EStateM ε τ α) : Prop where
  same : ∀ {s t p}, At s p → At' t p → SameEnd At At' (x s) (y t)

namespace Agrees

theorem pure (a : α) : Agrees At At' (Pure.pure a : EStateM ε σ α) (Pure.pure a) where
  same {_ _ p} hs ht := ⟨rfl, p, hs, ht⟩

theorem throw (e : ε) :
    Agrees At At' (MonadExcept.throw e : EStateM ε σ α) (MonadExcept.throw e) where
  same {_ _ p} hs ht := ⟨rfl, p, hs, ht⟩

theorem bind {x : EStateM ε σ α} {y : EStateM ε τ α} {f : α → EStateM ε σ β}
    {g : α → EStateM ε τ β} (hx : Agrees At At' x y) (hf : ∀ a, Agrees At At' (f a) (g a)) :
    Agrees At At' (x >>= f) (y >>= g) := by
  constructor
  intro s t p hs ht
  have hstep := hx.same hs ht
  rw [bind_apply, bind_apply]
  cases hxs : x s with
  | ok a s' =>
      rw [hxs] at hstep
      cases hyt : y t with
      | ok b t' =>
          rw [hyt] at hstep
          obtain ⟨rfl, q, hs', ht'⟩ := hstep
          exact (hf a).same hs' ht'
      | error e t' =>
          rw [hyt] at hstep
          exact hstep.elim
  | error e s' =>
      rw [hxs] at hstep
      cases hyt : y t with
      | ok b t' =>
          rw [hyt] at hstep
          exact hstep.elim
      | error e' t' =>
          rw [hyt] at hstep
          exact hstep

theorem map {x : EStateM ε σ α} {y : EStateM ε τ α} (f : α → β) (hx : Agrees At At' x y) :
    Agrees At At' (f <$> x) (f <$> y) :=
  hx.bind fun a => pure (f a)

theorem mapError {ε' : Type} {x : EStateM ε σ α} {y : EStateM ε τ α} (f : ε → ε')
    (hx : Agrees At At' x y) : Agrees At At' (Io.mapError f x) (Io.mapError f y) := by
  constructor
  intro s t p hs ht
  have hstep := hx.same hs ht
  unfold Io.mapError
  cases hxs : x s <;> cases hyt : y t <;> rw [hxs, hyt] at hstep
  · exact hstep
  · exact hstep.elim
  · exact hstep.elim
  · exact ⟨congrArg f hstep.1, hstep.2⟩

end Agrees

end Agrees

section Served

variable {σ τ : Type} [Patience] [Read Error σ] [Seek Error σ] [Read Error τ] [Seek Error τ]
  {S : Bytes} {At : σ → ℕ → Prop} {At' : τ → ℕ → Prop}

section Fields

variable (h : Serves S At) (h' : Serves S At')
include h h'

theorem agrees_readExact (n : ℕ) :
    Agrees At At' (readExact n : Op Error σ Bytes) (readExact n : Op Error τ Bytes) := by
  constructor
  intro s t p hs ht
  obtain ⟨s', hread, hs'⟩ := h.readExact_eq hs n
  obtain ⟨t', hread', ht'⟩ := h'.readExact_eq ht n
  rw [hread, hread']
  split
  · exact ⟨rfl, _, hs', ht'⟩
  · exact ⟨rfl, _, hs', ht'⟩

theorem agrees_readField (n : ℕ) :
    Agrees At At' (readField n : EStateM Error σ Bytes) (readField n : EStateM Error τ Bytes) :=
  (agrees_readExact h h' n).mapError _

theorem agrees_readExactly (n : ℕ) :
    Agrees At At' (readExactly n : EStateM Error σ Bytes) (readExactly n : EStateM Error τ Bytes) :=
  (agrees_readExact h h' n).mapError _

theorem agrees_u8 : Agrees At At' (deserializeU8 : EStateM Error σ UInt8) deserializeU8 :=
  (agrees_readField h h' 1).bind fun _ => .pure _

theorem agrees_u64 : Agrees At At' (deserializeU64 : EStateM Error σ ℕ) deserializeU64 :=
  (agrees_readField h h' 8).map _

theorem agrees_opts : Agrees At At' (Opts.fromReader : EStateM Error σ Unit) Opts.fromReader := by
  refine (agrees_u8 h h').bind fun b => ?_
  split
  · exact .pure _
  · split
    · refine (agrees_readExactly h h' 8).bind fun n => ⟨?_⟩
      intro s t p hs ht
      obtain ⟨s', htake, hs'⟩ := h.takeReadToEnd_eq hs (fromLeBytes n)
      obtain ⟨t', htake', ht'⟩ := h'.takeReadToEnd_eq ht (fromLeBytes n)
      rw [htake, htake']
      exact ⟨rfl, _, hs', ht'⟩
    · exact .throw _

theorem agrees_entryName :
    Agrees At At' (deserializeEntryName : EStateM Error σ EntryName) deserializeEntryName := by
  refine (agrees_u64 h h').bind fun n => Agrees.bind ⟨?_⟩ fun name => ?_
  · intro s t p hs ht
    obtain ⟨s', htake, hs'⟩ := h.takeReadToEnd_eq hs n
    obtain ⟨t', htake', ht'⟩ := h'.takeReadToEnd_eq ht n
    rw [readToEndField, readToEndField, htake, htake']
    exact ⟨rfl, _, hs', ht'⟩
  · split
    · exact .pure _
    · exact .throw _

theorem agrees_readHash :
    Agrees At At' (ArchiveEntryBlock.readHash : EStateM Error σ Sha256Hash)
      ArchiveEntryBlock.readHash := by
  refine (agrees_readExactly h h' 32).bind fun bs => ?_
  split
  · exact .pure _
  · exact .throw _

theorem agrees_block :
    Agrees At At' (ArchiveEntryBlock.fromReader : EStateM Error σ ArchiveEntryBlock)
      ArchiveEntryBlock.fromReader := by
  refine ((agrees_readField h h' 4).map _).bind fun _ => Agrees.bind ?_ fun blockType => ?_
  · refine (agrees_u8 h h').bind fun b => ?_
    repeat' split
    all_goals first | exact .pure _ | exact .throw _
  · cases blockType with
    | entryStart =>
        exact (agrees_u64 h h').bind fun _ => (agrees_entryName h h').bind fun _ =>
          (agrees_opts h h').bind fun _ => .pure _
    | entryContent =>
        exact (agrees_u64 h h').bind fun _ => (agrees_opts h h').bind fun _ =>
          (agrees_u64 h h').bind fun _ => .pure _
    | endOfEntry =>
        exact (agrees_u64 h h').bind fun _ => (agrees_opts h h').bind fun _ =>
          (agrees_readHash h h').bind fun _ => .pure _
    | endOfArchiveData => exact .pure _

end Fields

/-- The block that stands at position `p` of `S`, when one does. -/
def blockAt (S : Bytes) (p : ℕ) : Option ArchiveEntryBlock :=
  match ArchiveEntryBlock.fromReader (⟨S, p⟩ : Cursor Error) with
  | .ok block _ => some block
  | .error _ _ => none

/-- Where a source serves `S`, it is this block that is parsed. -/
theorem Serves.fromReader_eq (h : Serves S At) {s : σ} {p : ℕ} (hs : At s p) :
    ∃ s' q, At s' q ∧
      match blockAt S p with
      | some block => ArchiveEntryBlock.fromReader s = .ok block s'
      | none => ∃ e, ArchiveEntryBlock.fromReader s = .error e s' := by
  have hagrees := (agrees_block h (Cursor.serves S)).same hs (t := ⟨S, p⟩) ⟨rfl, rfl⟩
  rw [blockAt]
  cases hrun : (ArchiveEntryBlock.fromReader s : EStateM.Result Error σ ArchiveEntryBlock) with
  | ok block s' =>
      rw [hrun] at hagrees
      cases hcursor : (ArchiveEntryBlock.fromReader (⟨S, p⟩ : Cursor Error) :
          EStateM.Result Error (Cursor Error) ArchiveEntryBlock) with
      | ok block' c =>
          rw [hcursor] at hagrees
          obtain ⟨rfl, q, hs', -⟩ := hagrees
          exact ⟨s', q, hs', rfl⟩
      | error e c =>
          rw [hcursor] at hagrees
          exact hagrees.elim
  | error e s' =>
      rw [hrun] at hagrees
      cases hcursor : (ArchiveEntryBlock.fromReader (⟨S, p⟩ : Cursor Error) :
          EStateM.Result Error (Cursor Error) ArchiveEntryBlock) with
      | ok block' c =>
          rw [hcursor] at hagrees
          exact hagrees.elim
      | error e' c =>
          rw [hcursor] at hagrees
          obtain ⟨-, q, hs', -⟩ := hagrees
          exact ⟨s', q, hs', e, rfl⟩

end Served

end Mla
