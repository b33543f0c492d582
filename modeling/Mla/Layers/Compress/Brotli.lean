import Mla.Error
import Mla.Io.Rules

/-!
# Compressed blocks

A compressor is given the buffers of a block one after the other and ends the block. It may
emit its output whenever it likes, so that a compressed block depends on the buffers.
-/

namespace Mla

open Io

/-- The compressor of `brotli`: what it emits for a buffer that it is given, and what it
emits at the end. How it cuts its output may depend on the buffers. -/
class Brotli where
  Encoder : Type
  encoder : ℕ → Encoder
  encode : Encoder → Bytes → Bytes × Encoder
  close : Encoder → Bytes

/-- `brotli::Decompressor`: reads hand out what the source below decompresses to. -/
class BrotliDecompressor where
  Decoder : Type
  decoder : ℕ → Decoder
  decode {σ : Type} [Read Error σ] : ℕ → Op Error (Decoder × σ) Bytes

instance BrotliDecompressor.instRead {σ : Type} [BrotliDecompressor] [Read Error σ] :
    Read Error (BrotliDecompressor.Decoder × σ) where
  read := decode

def uncompressedDataSize : ℕ := 4 * 1024 * 1024

/-- The number of values of a `u32`. -/
def u32Size : ℕ := 4294967296

theorem uncompressedDataSize_pos : 0 < uncompressedDataSize := by decide

theorem uncompressedDataSize_lt_u32Size : uncompressedDataSize < u32Size := by decide

theorem uncompressedDataSize_eq : uncompressedDataSize = 4194304 := rfl
theorem u32Size_eq : u32Size = 4294967296 := rfl

/-! ## Compressed blocks -/

namespace Brotli

variable [Brotli] {level cap : ℕ} {bufs : List Bytes}

/-- What a compressor has emitted for some buffers, and the state that it is in then. -/
def feed : Encoder → List Bytes → Bytes × Encoder
  | encoder, [] => ([], encoder)
  | encoder, buf :: bufs =>
      ((encode encoder buf).1 ++ (feed (encode encoder buf).2 bufs).1,
        (feed (encode encoder buf).2 bufs).2)

/-- The block that some buffers are compressed to, on its own. -/
def compressBlock (level : ℕ) (bufs : List Bytes) : Bytes :=
  (feed (encoder level) bufs).1 ++ close (feed (encoder level) bufs).2

/-- A block of 4 MiB at most is compressed to `cap` bytes at most, a 32-bit number. -/
structure Bounded (cap : ℕ) : Prop where
  lt : cap < u32Size
  le : ∀ (level : ℕ) {bufs : List Bytes}, bufs.flatten.length ≤ uncompressedDataSize →
    (compressBlock level bufs).length ≤ cap

/-- A decompressor on a compressed block, wherever this is read from, delivers its data. It
leaves the source somewhere in the block. -/
def Inverts [BrotliDecompressor] : Prop :=
  ∀ {σ : Type} [Read Error σ] {At : σ → ℕ → Prop} (level : ℕ) {bufs : List Bytes},
    bufs.flatten.length ≤ uncompressedDataSize → Delivers True (compressBlock level bufs) At →
    ∀ size : ℕ, ∃ At' : BrotliDecompressor.Decoder × σ → ℕ → Prop,
      Delivers True bufs.flatten At' ∧
      (∀ {s}, At s 0 → At' (BrotliDecompressor.decoder size, s) 0) ∧
      ∀ {d s p}, At' (d, s) p → ∃ q, At s q

theorem feed_append (encoder : Encoder) (bufs : List Bytes) (buf : Bytes) :
    feed encoder (bufs ++ [buf]) =
      ((feed encoder bufs).1 ++ (encode (feed encoder bufs).2 buf).1,
        (encode (feed encoder bufs).2 buf).2) := by
  induction bufs generalizing encoder with
  | nil => simp [feed]
  | cons b bufs ih => simp [feed, ih]

theorem length_feed_le (h : Bounded cap) (level : ℕ)
    (hlen : bufs.flatten.length ≤ uncompressedDataSize) :
    (feed (encoder level) bufs).1.length ≤ cap := by
  have hblock := h.le level hlen
  rw [compressBlock, List.length_append] at hblock
  omega

theorem length_flatMap_compressBlock_le (h : Bounded cap) (level : ℕ) {blocks : List (List Bytes)}
    (hblocks : ∀ b ∈ blocks, b.flatten.length ≤ uncompressedDataSize) :
    (blocks.flatMap (compressBlock level)).length ≤ cap * blocks.length := by
  induction blocks with
  | nil => simp
  | cons b blocks ih =>
      have hb := h.le level (hblocks b List.mem_cons_self)
      have hrest := ih fun c hc => hblocks c (List.mem_cons_of_mem _ hc)
      rw [List.flatMap_cons, List.length_append, List.length_cons, Nat.mul_succ]
      omega

end Brotli

/-! ## The blocks of a byte string -/

/-- Pieces of `n` bytes each, the last one what is left. -/
def piecesOf (n : ℕ) (P : Bytes) : List Bytes :=
  (List.range ((P.length + (n - 1)) / n)).map fun i => slice P (n * i) n

section Pieces

variable {n : ℕ} {P Q : Bytes}

theorem length_piecesOf : (piecesOf n P).length = (P.length + (n - 1)) / n := by
  rw [piecesOf, List.length_map, List.length_range]

theorem piecesOf_nil (hn : 0 < n) : piecesOf n [] = [] := by
  have hcount : (([] : Bytes).length + (n - 1)) / n = 0 := by
    rw [List.length_nil, Nat.div_eq_of_lt (by omega)]
  rw [piecesOf, hcount, List.range_zero, List.map_nil]

theorem piecesOf_short (hne : P ≠ []) (hle : P.length ≤ n) : piecesOf n P = [P] := by
  have hpos := List.length_pos_iff.mpr hne
  have hcount : (P.length + (n - 1)) / n = 1 :=
    Nat.div_eq_of_lt_le (by omega) (by omega)
  rw [piecesOf, hcount, List.range_one, List.map_singleton, Nat.mul_zero, slice, List.drop_zero,
    List.take_of_length_le hle]

theorem piecesOf_append (hn : 0 < n) (P : Bytes) (hQ : Q.length = n) :
    piecesOf n (Q ++ P) = Q :: piecesOf n P := by
  have hcount : ((Q ++ P).length + (n - 1)) / n = (P.length + (n - 1)) / n + 1 := by
    rw [List.length_append, hQ, Nat.add_assoc, Nat.add_comm n, Nat.add_div_right _ hn]
  have hfirst : slice (Q ++ P) 0 n = Q := by
    rw [slice, List.drop_zero, ← hQ, List.take_left]
  have hrest : ∀ i, slice (Q ++ P) (n * (i + 1)) n = slice P (n * i) n := by
    intro i
    rw [slice, slice, Nat.mul_succ, Nat.add_comm, ← List.drop_drop, ← hQ, List.drop_left]
  rw [piecesOf, hcount, List.range_succ_eq_map, List.map_cons, Nat.mul_zero, List.map_map, hfirst,
    piecesOf]
  exact congrArg (Q :: ·) (List.map_congr_left fun i _ => hrest i)

/-- The pieces put together are the bytes. -/
theorem flatten_piecesOf (hn : 0 < n) (P : Bytes) : (piecesOf n P).flatten = P := by
  induction hlen : P.length using Nat.strong_induction_on generalizing P with
  | _ m ih =>
      by_cases hne : P = []
      · rw [hne, piecesOf_nil hn, List.flatten_nil]
      by_cases hle : P.length ≤ n
      · rw [piecesOf_short hne hle, List.flatten_singleton]
      · have hfirst : (P.take n).length = n := by
          rw [List.length_take]
          omega
        have hrest := ih (P.drop n).length (by rw [List.length_drop]; omega) (P.drop n) rfl
        have happend := piecesOf_append hn (P.drop n) hfirst
        rw [List.take_append_drop] at happend
        rw [happend, List.flatten_cons, hrest, List.take_append_drop]

/-- Full pieces, and one that is neither empty nor too long, are those of their bytes. -/
theorem piecesOf_flatten (hn : 0 < n) {closed : List Bytes} (hclosed : ∀ b ∈ closed, b.length = n)
    (hne : P ≠ []) (hle : P.length ≤ n) : piecesOf n (closed ++ [P]).flatten = closed ++ [P] := by
  induction closed with
  | nil => rw [List.nil_append, List.flatten_singleton, piecesOf_short hne hle]
  | cons b closed ih =>
      have ih := ih fun c hc => hclosed c (List.mem_cons_of_mem _ hc)
      rw [List.cons_append, List.flatten_cons, piecesOf_append hn _ (hclosed b List.mem_cons_self), ih]

end Pieces

/-! ## Storing -/

namespace StoredBrotli

/-- A meta-block of `brotli` that stores at most 64 KiB as they are. -/
def storeBlock (data : Bytes) : Bytes := leBytes 3 (8 * (data.length - 1) + 524288) ++ data

/-- A `brotli` stream that stores its data: an empty meta-block behind the window size, the
blocks, and an empty last one. -/
def store (data : Bytes) : Bytes := 12 :: ((piecesOf 65536 data).flatMap storeBlock ++ [3])

theorem length_store (data : Bytes) :
    (store data).length = data.length + 3 * ((data.length + 65535) / 65536) + 2 := by
  have hblocks : ∀ l : List Bytes,
      (l.flatMap storeBlock).length = l.flatten.length + 3 * l.length := by
    intro l
    induction l with
    | nil => rfl
    | cons b l ih =>
        rw [List.flatMap_cons, List.length_append, ih, storeBlock, List.length_append,
          length_leBytes, List.flatten_cons, List.length_append, List.length_cons]
        omega
  rw [store, List.length_cons, List.length_append, hblocks, flatten_piecesOf (Nat.succ_pos _),
    length_piecesOf, List.length_singleton]

/-- A compressor that only collects its data and stores them at the end. -/
scoped instance instBrotli : Brotli where
  Encoder := Bytes
  encoder _ := []
  encode collected buf := ([], collected ++ buf)
  close := store

scoped instance patience : Patience where
  retries := 0

theorem feed_eq (collected : Bytes) (bufs : List Bytes) :
    Brotli.feed (collected : Brotli.Encoder) bufs = ([], (collected ++ bufs.flatten : Bytes)) := by
  induction bufs generalizing collected with
  | nil => rw [Brotli.feed, List.flatten_nil, List.append_nil]
  | cons buf bufs ih =>
      have hencode : Brotli.encode (collected : Brotli.Encoder) buf = ([], collected ++ buf) := rfl
      rw [Brotli.feed, hencode, ih, List.flatten_cons, List.append_assoc]
      rfl

theorem compressBlock_eq (level : ℕ) (bufs : List Bytes) :
    Brotli.compressBlock level bufs = store bufs.flatten := by
  have hencoder : Brotli.encoder level = ([] : Bytes) := rfl
  rw [Brotli.compressBlock, hencoder, feed_eq]
  rfl

theorem bounded : Brotli.Bounded 4194498 where
  lt := by decide
  le level bufs hle := by
    rw [uncompressedDataSize_eq] at hle
    rw [compressBlock_eq, length_store]
    omega

/-- The data of the blocks that are stored, up to an empty one. -/
def unstore : ℕ → Bytes → Bytes
  | fuel + 1, a :: b :: c :: rest =>
      let size := (fromLeBytes [a, b, c] - 524288) / 8 + 1
      rest.take size ++ unstore fuel (rest.drop size)
  | _, _ => []

theorem unstore_storeBlock {data rest : Bytes} (hne : data ≠ []) (hle : data.length ≤ 65536)
    (fuel : ℕ) : unstore (fuel + 1) (storeBlock data ++ rest) = data ++ unstore fuel rest := by
  have hpos := List.length_pos_iff.mpr hne
  obtain ⟨a, b, c, hword⟩ := List.length_eq_three.mp
    (length_leBytes 3 (8 * (data.length - 1) + 524288))
  have hvalue : fromLeBytes [a, b, c] = 8 * (data.length - 1) + 524288 := by
    rw [← hword, fromLeBytes_leBytes_of_lt]
    omega
  have hsize : (fromLeBytes [a, b, c] - 524288) / 8 + 1 = data.length := by
    rw [hvalue]
    omega
  rw [storeBlock, hword]
  change unstore (fuel + 1) (a :: b :: c :: (data ++ rest)) = _
  rw [unstore, hsize, List.take_left, List.drop_left]

theorem unstore_blocks {blocks : List Bytes}
    (hblocks : ∀ b ∈ blocks, b ≠ [] ∧ b.length ≤ 65536) {fuel : ℕ} (hfuel : blocks.length ≤ fuel) :
    unstore fuel (blocks.flatMap storeBlock ++ [3]) = blocks.flatten := by
  induction blocks generalizing fuel with
  | nil =>
      cases fuel with
      | zero => rfl
      | succ fuel => rfl
  | cons b blocks ih =>
      obtain ⟨fuel, rfl⟩ : ∃ f, fuel = f + 1 := ⟨fuel - 1, by rw [List.length_cons] at hfuel; omega⟩
      obtain ⟨hne, hle⟩ := hblocks b List.mem_cons_self
      have ih := ih (fun c hc => hblocks c (List.mem_cons_of_mem _ hc))
        (show blocks.length ≤ fuel by rw [List.length_cons] at hfuel; omega)
      rw [List.flatMap_cons, List.append_assoc, unstore_storeBlock hne hle, ih, List.flatten_cons]

theorem unstore_store (data : Bytes) : unstore (store data).length ((store data).drop 1) = data := by
  have hblocks : ∀ b ∈ piecesOf 65536 data, b ≠ [] ∧ b.length ≤ 65536 := by
    intro b hb
    obtain ⟨i, hi, rfl⟩ := List.mem_map.mp hb
    have hlt := List.mem_range.mp hi
    refine ⟨fun h => ?_, ?_⟩
    · have hlen := congrArg List.length h
      rw [length_slice, List.length_nil] at hlen
      omega
    · rw [length_slice]
      exact Nat.min_le_left _ _
  have hfuel : (piecesOf 65536 data).length ≤ (store data).length := by
    rw [length_piecesOf, length_store]
    omega
  exact (unstore_blocks hblocks hfuel).trans (flatten_piecesOf (Nat.succ_pos _) data)

/-- A decompressor that reads its whole source at the first call, then hands out the data. -/
def decode {σ : Type} [Read Error σ] (n : ℕ) : Op Error (Option Bytes × σ) Bytes
  | (some data, source) => .ok (data.take n) (some (data.drop n), source)
  | (none, source) =>
      match takeReadToEnd 4194498 source with
      | (bytes, .ok _ source) =>
          let data := unstore bytes.length (bytes.drop 1)
          .ok (data.take n) (some (data.drop n), source)
      | (_, .error e source) => .error e (none, source)

scoped instance instBrotliDecompressor : BrotliDecompressor where
  Decoder := Option Bytes
  decoder _ := none
  decode := decode

/-- The decompressor has `p` bytes of the data behind it. -/
def Handed {σ : Type} (At : σ → ℕ → Prop) (data : Bytes) (s : Option Bytes × σ) (p : ℕ) : Prop :=
  (∃ q, At s.2 q) ∧ p ≤ data.length ∧
    (s.1 = some (data.drop p) ∨ s.1 = none ∧ p = 0 ∧ At s.2 0)

theorem Handed.decode_eq {σ : Type} [Read Error σ] {At : σ → ℕ → Prop} {data : Bytes}
    (hdelivers : Delivers True (store data) At) (hle : data.length ≤ uncompressedDataSize)
    {s : Option Bytes × σ} {p : ℕ} (hs : Handed At data s p) (n : ℕ) :
    ∃ s', decode n s = .ok (slice data p n) s' ∧
      Handed At data s' (p + min n (data.length - p)) := by
  obtain ⟨s, source⟩ := s
  obtain ⟨⟨q, hq⟩, hp, hstate⟩ := hs
  have hrest : (data.drop p).drop n = data.drop (p + min n (data.length - p)) := by
    rw [List.drop_drop]
    rcases Nat.le_total n (data.length - p) with h | h
    · rw [min_eq_left h]
    · rw [min_eq_right h, List.drop_eq_nil_of_le (by omega), List.drop_eq_nil_of_le (by omega)]
  rcases hstate with hstate | ⟨hstate, rfl, hat⟩
  · obtain rfl : s = some (data.drop p) := hstate
    exact ⟨_, rfl, ⟨q, hq⟩, by omega, Or.inl (congrArg some hrest)⟩
  · obtain rfl : s = none := hstate
    obtain ⟨source', hread, hat'⟩ := hdelivers.takeReadToEnd_eq 4194498 hat (Or.inl trivial)
    have hall : slice (store data) 0 4194498 = store data := by
      rw [uncompressedDataSize_eq] at hle
      rw [slice, List.drop_zero, List.take_of_length_le (by rw [length_store]; omega)]
    rw [hall] at hread
    refine ⟨(some (data.drop n), source'), ?_, ⟨_, hat'⟩, by omega, Or.inl ?_⟩
    · rw [decode, hread]
      dsimp only
      rw [unstore_store, slice, List.drop_zero]
    · rw [List.drop_zero] at hrest
      exact congrArg some hrest

theorem length_decode_le {σ : Type} [Read Error σ] {n : ℕ} {s s' : Option Bytes × σ} {bs : Bytes}
    (hrun : decode n s = .ok bs s') : bs.length ≤ n := by
  obtain ⟨s, source⟩ := s
  cases s with
  | some data =>
      obtain ⟨rfl, -⟩ := EStateM.Result.ok.inj hrun
      exact List.length_take_le _ _
  | none =>
      rw [decode] at hrun
      split at hrun
      · obtain ⟨rfl, -⟩ := EStateM.Result.ok.inj hrun
        exact List.length_take_le _ _
      · cases hrun

theorem inverts : Brotli.Inverts := by
  intro σ _ At level bufs hle hdelivers size
  rw [compressBlock_eq] at hdelivers
  refine ⟨Handed At bufs.flatten, ?_, fun {s} hs => ⟨⟨0, hs⟩, Nat.zero_le _, Or.inr ⟨rfl, rfl, hs⟩⟩,
    fun hs => hs.1⟩
  exact
    { le := fun hs => hs.2.1
      progress := by
        intro s p n hs hp hn
        obtain ⟨s', hrun, hs'⟩ := hs.decode_eq hdelivers hle n
        refine ⟨min n (bufs.flatten.length - p), s', ?_, by omega, by omega, by omega, hs'⟩
        rw [← slice_eq_slice_min]
        exact hrun
      stop := by
        intro s p n _ hs hstop
        obtain ⟨s', hrun, hs'⟩ := hs.decode_eq hdelivers hle n
        have hzero : min n (bufs.flatten.length - p) = 0 := by omega
        rw [hzero, Nat.add_zero] at hs'
        rw [slice_eq_slice_min, hzero, slice_zero_length] at hrun
        exact ⟨s', hrun, hs'⟩ }

end StoredBrotli

end Mla
