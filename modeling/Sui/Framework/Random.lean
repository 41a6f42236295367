import Sui.MoveArith
import Sui.ModBias
import Sui.FisherYates

/-!
# On-chain randomness: the random generator (`sui::random`)

A `RandomGenerator` stretches a 32-byte seed into a stream of bytes: its
`n`-th block is `hmac_sha3_256(seed, bcs(n))`, `n` counting from one in a
`u16`. Bytes reach the caller in two ways: `generate_bytes` appends whole
blocks straight to its result, and the rest of its bytes, like every
integer, are popped one at a time from the back of a buffer that is topped
up with a whole block when it holds too few. An integer of `k` bytes is read
big-endian from the bytes popped; `generate_uN_in_range` reads more bytes
than the type has (9, 10, 12, 16 and 24 for `u8` to `u128`) and reduces them
modulo the size of the range; `shuffle` is the Fisher–Yates shuffle on top of
`generate_u16_in_range`.

The model keeps the blocks a function of the counter (`Blocks`), so the seed
and the HMAC are parameters; bytes are `UInt8`, counters and integers `ℕ` with
the width checks of `MoveArith`, whose `Abort` the calls raise.

* **`Fresh`** — the invariant of a generator: its buffer holds stream bytes at
  some positions, and those with the bytes consumed so far are the first
  `32 * counter` bytes of the stream, each once.
* **`Call.run_spec`** — each call keeps `Fresh` and a buffer of at most 31
  bytes, and its result is a function of the stream bytes it consumed
  (`Consumes`): `generate_bytes` returns exactly them, an integer is read
  big-endian from them, `shuffle` swaps with picks read from them.
* **`runCalls_spec`** — so over any run from `new_generator`, no stream byte
  is consumed twice.
* **`uintInRange_eq_error_iff`** — a range call aborts exactly when `min >
  max`, or when it needs a block and the counter is already `u16::MAX`, as it
  is after fifty-one calls of `generate_bytes(41120)`.
* **`RangeType.pow_numOfBytes`** — each range type reads 64 bits more than it
  has, so on uniform bytes its reduction is within `2⁻⁶⁴` of uniform
  (`ModBias.rangeBias_le`).
-/

namespace Sui

namespace Random

open MoveArith

/-- The abort codes of `sui::random` that the generator raises. -/
inductive Code
  | eInvalidRange
  | eInvalidLength
  deriving DecidableEq, Repr

/-- `RAND_OUTPUT_LEN`: the bytes of one block. -/
def randOutputLen : ℕ := 32

/-- `U16_MAX`. -/
def u16Max : ℕ := 0xFFFF

/-- The blocks a generator derives from its seed: `block n` is `hmac_sha3_256(seed, bcs(n))`,
of 32 bytes. -/
structure Blocks where
  block : ℕ → List UInt8
  length_block : ∀ n, (block n).length = randOutputLen

/-- `RandomGenerator`, its seed folded into the `Blocks` it derives. -/
structure RandomGenerator where
  counter : ℕ
  buffer : List UInt8

variable {β : Type} (S : Blocks)

/-- `new_generator`: nothing derived yet. -/
def newGenerator : RandomGenerator := ⟨0, []⟩

/-- `derive_next_block`: the `u16` counter is incremented first, so the 65536th block aborts. -/
def deriveNextBlock (g : RandomGenerator) : Except (Abort Code) (List UInt8 × RandomGenerator) := do
  let counter ← add 16 g.counter 1
  return (S.block counter, { g with counter := counter })

/-- `vector::pop_back`. -/
def popBack {α : Type} (v : List α) : Except (Abort Code) (α × List α) :=
  match v.getLast? with
  | some b => .ok (b, v.dropLast)
  | none => .error .indexOutOfBounds

/-- The top-up both readers make before popping `n` bytes: a whole block is appended when the
buffer holds fewer. -/
def fillBuffer (g : RandomGenerator) (n : ℕ) : Except (Abort Code) (RandomGenerator) :=
  if g.buffer.length < n then do
    let (nextBlock, g) ← deriveNextBlock S g
    return { g with buffer := g.buffer ++ nextBlock }
  else .ok g

/-- The first loop of `generate_bytes`: `k` whole blocks appended to the result. -/
def appendBlocks : ℕ → List UInt8 → RandomGenerator →
    Except (Abort Code) (List UInt8 × RandomGenerator)
  | 0, result, g => .ok (result, g)
  | k + 1, result, g => do
    let (block, g) ← deriveNextBlock S g
    appendBlocks k (result ++ block) g

/-- The second loop of `generate_bytes`: `k` bytes popped from the buffer onto the result. -/
def popBytes : ℕ → List UInt8 → RandomGenerator → Except (Abort Code) (List UInt8 × RandomGenerator)
  | 0, result, g => .ok (result, g)
  | k + 1, result, g => do
    let (b, buffer) ← popBack g.buffer
    popBytes k (result ++ [b]) { g with buffer := buffer }

/-- `generate_bytes`. -/
def generateBytes (g : RandomGenerator) (numOfBytes : ℕ) :
    Except (Abort Code) (List UInt8 × RandomGenerator) := do
  let (result, g) ← appendBlocks S (numOfBytes / randOutputLen) [] g
  let remaining ← sub numOfBytes result.length
  let g ← fillBuffer S g remaining
  popBytes remaining result g

/-- The loop of `uint_from_bytes!`: `k` bytes popped, each shifted in below the ones before, in
a `u256`. -/
def popUint : ℕ → ℕ → RandomGenerator → Except (Abort Code) (ℕ × RandomGenerator)
  | 0, result, g => .ok (result, g)
  | k + 1, result, g => do
    let (b, buffer) ← popBack g.buffer
    let shifted ← shl 256 result 8
    let result ← add 256 shifted b.toNat
    popUint k result { g with buffer := buffer }

/-- `uint_from_bytes!`, returning a value of `w` bits. -/
def uintFromBytes (w : ℕ) (g : RandomGenerator) (numOfBytes : ℕ) :
    Except (Abort Code) (ℕ × RandomGenerator) := do
  let g ← fillBuffer S g numOfBytes
  let (result, g) ← popUint numOfBytes 0 g
  let result ← cast w result
  return (result, g)

/-- `generate_u256`. -/
def generateU256 (g : RandomGenerator) := uintFromBytes S 256 g 32

/-- `generate_u128`. -/
def generateU128 (g : RandomGenerator) := uintFromBytes S 128 g 16

/-- `generate_u64`. -/
def generateU64 (g : RandomGenerator) := uintFromBytes S 64 g 8

/-- `generate_u32`. -/
def generateU32 (g : RandomGenerator) := uintFromBytes S 32 g 4

/-- `generate_u16`. -/
def generateU16 (g : RandomGenerator) := uintFromBytes S 16 g 2

/-- `generate_u8`. -/
def generateU8 (g : RandomGenerator) := uintFromBytes S 8 g 1

/-- `generate_bool`: the low bit of a byte read as a `u64`. -/
def generateBool (g : RandomGenerator) : Except (Abort Code) (Bool × RandomGenerator) := do
  let (result, g) ← uintFromBytes S 64 g 1
  return (result &&& 1 == 1, g)

/-- `uint_in_range!` at a type of `w` bits: a number of `numOfBytes` bytes, read as a `u256`,
reduced modulo the size of the range. -/
def uintInRange (w : ℕ) (g : RandomGenerator) (min max numOfBytes : ℕ) :
    Except (Abort Code) (ℕ × RandomGenerator) := do
  assert (min ≤ max) Code.eInvalidRange
  if min = max then return (min, g)
  let diff ← sub max min
  let diff ← cast 256 diff
  let rangeSize ← add 256 diff 1
  let (rand, g) ← uintFromBytes S 256 g numOfBytes
  let offset ← mod rand rangeSize
  let offset ← cast w offset
  let value ← add w min offset
  return (value, g)

/-- `generate_u128_in_range`. -/
def generateU128InRange (g : RandomGenerator) (min max : ℕ) :=
  uintInRange S 128 g min max 24

/-- `generate_u64_in_range`. -/
def generateU64InRange (g : RandomGenerator) (min max : ℕ) :=
  uintInRange S 64 g min max 16

/-- `generate_u32_in_range`. -/
def generateU32InRange (g : RandomGenerator) (min max : ℕ) :=
  uintInRange S 32 g min max 12

/-- `generate_u16_in_range`. -/
def generateU16InRange (g : RandomGenerator) (min max : ℕ) :=
  uintInRange S 16 g min max 10

/-- `generate_u8_in_range`. -/
def generateU8InRange (g : RandomGenerator) (min max : ℕ) :=
  uintInRange S 8 g min max 9

/-- `vector::swap`. -/
def vectorSwap (v : List β) (i j : ℕ) : Except (Abort Code) (List β) := do
  let a ← getAt v i
  let b ← getAt v j
  return (v.set i b).set j a

/-- The loop of `shuffle`: `k` more positions from `i`, each swapped with a position picked
between it and `end_`. -/
def shuffleLoop (end_ : ℕ) : ℕ → ℕ → List β → RandomGenerator →
    Except (Abort Code) (List β × RandomGenerator)
  | 0, _, v, g => .ok (v, g)
  | k + 1, i, v, g => do
    let (j, g) ← generateU16InRange S g i end_
    let v ← vectorSwap v i j
    shuffleLoop end_ k (i + 1) v g

/-- `shuffle`. -/
def shuffle (g : RandomGenerator) (v : List β) :
    Except (Abort Code) (List β × RandomGenerator) := do
  let n := v.length
  if n = 0 then return (v, g)
  assert (n ≤ u16Max) Code.eInvalidLength
  let n ← cast 16 n
  let end_ ← sub n 1
  shuffleLoop S end_ end_ 0 v g

/-! ### Calls on a generator -/

/-- The unsigned integer types `generate_uN` exists for. -/
inductive UintType
  | u8
  | u16
  | u32
  | u64
  | u128
  | u256
  deriving DecidableEq, Repr

/-- The types `generate_uN_in_range` exists for. -/
inductive RangeType
  | u8
  | u16
  | u32
  | u64
  | u128
  deriving DecidableEq, Repr

/-- `generate_u8` to `generate_u256`. -/
def UintType.generate : UintType → RandomGenerator → Except (Abort Code) (ℕ × RandomGenerator)
  | .u8 => generateU8 S
  | .u16 => generateU16 S
  | .u32 => generateU32 S
  | .u64 => generateU64 S
  | .u128 => generateU128 S
  | .u256 => generateU256 S

/-- `generate_u8_in_range` to `generate_u128_in_range`. -/
def RangeType.generateInRange :
    RangeType → RandomGenerator → ℕ → ℕ → Except (Abort Code) (ℕ × RandomGenerator)
  | .u8 => generateU8InRange S
  | .u16 => generateU16InRange S
  | .u32 => generateU32InRange S
  | .u64 => generateU64InRange S
  | .u128 => generateU128InRange S

/-- The calls a program makes on a generator. -/
inductive Call (β : Type)
  | generateBytes (numOfBytes : ℕ)
  | generateUint (t : UintType)
  | generateBool
  | generateInRange (t : RangeType) (min max : ℕ)
  | shuffle (v : List β)

/-- What a call returns; `shuffle` returns the vector it shuffled in place. -/
inductive Output (β : Type)
  | bytes (b : List UInt8)
  | uint (n : ℕ)
  | bool (b : Bool)
  | vector (v : List β)

/-- One call on the generator. -/
def Call.run : Call β → RandomGenerator → Except (Abort Code) (Output β × RandomGenerator)
  | .generateBytes numOfBytes, g => do
    let (b, g) ← Random.generateBytes S g numOfBytes
    return (.bytes b, g)
  | .generateUint t, g => do
    let (n, g) ← t.generate S g
    return (.uint n, g)
  | .generateBool, g => do
    let (b, g) ← Random.generateBool S g
    return (.bool b, g)
  | .generateInRange t min max, g => do
    let (n, g) ← t.generateInRange S g min max
    return (.uint n, g)
  | .shuffle v, g => do
    let (v, g) ← Random.shuffle S g v
    return (.vector v, g)

/-- Calls made one after the other on one generator, up to the first abort. -/
def runCalls :
    List (Call β) → RandomGenerator → Except (Abort Code) (List (Output β) × RandomGenerator)
  | [], g => .ok ([], g)
  | call :: calls, g => do
    let (out, g) ← call.run S g
    let (outs, g) ← runCalls calls g
    return (out :: outs, g)

/-! ### The stream and what a generator has used of it -/

/-- Byte `p` of the stream `block 1 ++ block 2 ++ ⋯` the generator reads. -/
def streamAt (p : ℕ) : UInt8 :=
  (S.block (p / randOutputLen + 1)).get
    ⟨p % randOutputLen, by rw [S.length_block]; exact Nat.mod_lt _ (by decide)⟩

/-- Block `n + 1` is the stream from byte `32 * n` on. -/
theorem block_eq_map_streamAt (n : ℕ) :
    S.block (n + 1) = (List.range' (randOutputLen * n) randOutputLen).map (streamAt S) := by
  apply List.ext_getElem (by rw [S.length_block, List.length_map, List.length_range'])
  intro t ht _
  rw [S.length_block] at ht
  have hdiv : (randOutputLen * n + t) / randOutputLen = n := by
    rw [Nat.mul_add_div (by decide), Nat.div_eq_of_lt ht, Nat.add_zero]
  have hmod : (randOutputLen * n + t) % randOutputLen = t := by
    rw [Nat.mul_add_mod, Nat.mod_eq_of_lt ht]
  simp only [List.getElem_map, List.getElem_range', Nat.one_mul, streamAt, List.get_eq_getElem,
    hdiv, hmod]

/-- The generator's buffer holds the stream bytes at `positions`, and these with the positions
`consumed` so far are the first `32 * counter` bytes of the stream, each once. -/
structure Fresh (g : RandomGenerator) (consumed positions : List ℕ) : Prop where
  buffer_eq : g.buffer = positions.map (streamAt S)
  perm : (consumed ++ positions).Perm (List.range (randOutputLen * g.counter))

theorem fresh_newGenerator : Fresh S newGenerator [] [] :=
  ⟨rfl, by simp [newGenerator]⟩

theorem range_add_blocks (n k : ℕ) :
    List.range (randOutputLen * (n + k)) =
      List.range (randOutputLen * n) ++ List.range' (randOutputLen * n) (randOutputLen * k) := by
  rw [Nat.mul_add, List.range_add, List.range'_eq_map_range]

theorem range'_blocks_succ (n k : ℕ) :
    List.range' (randOutputLen * n) randOutputLen ++
        List.range' (randOutputLen * (n + 1)) (randOutputLen * k) =
      List.range' (randOutputLen * n) (randOutputLen * (k + 1)) := by
  rw [Nat.mul_add_one, List.range'_append_1, Nat.mul_add_one, Nat.add_comm randOutputLen]

/-- The number the stream bytes at positions `Q` spell, read big-endian. -/
def readUint (Q : List ℕ) : ℕ := ModBias.bigEndian 256 (Q.map fun p => (streamAt S p).toNat)

/-- The picks of `shuffle` from the stream bytes at `Q`: ten bytes each, the `t`-th reduced into
the range from position `i + t` to `end_`. -/
def shufflePicks (end_ : ℕ) : ℕ → ℕ → List ℕ → List ℕ
  | 0, _, _ => []
  | k + 1, i, Q =>
    (i + readUint S (Q.take 10) % (end_ - i + 1)) :: shufflePicks end_ k (i + 1) (Q.drop 10)

/-- Each pick lies between its position and `end_`: the picks are valid Fisher–Yates choices. -/
theorem choices_shufflePicks (end_ : ℕ) :
    ∀ (k i : ℕ) (Q : List ℕ), i + k = end_ →
      FisherYates.Choices (end_ + 1) i (shufflePicks S end_ k i Q)
  | 0, i, _, hik => by
    show i + 1 = end_ + 1
    omega
  | k + 1, i, Q, hik => by
    have hpick : readUint S (Q.take 10) % (end_ - i + 1) < end_ - i + 1 :=
      Nat.mod_lt _ (Nat.succ_pos _)
    exact ⟨Nat.le_add_right _ _, by omega, choices_shufflePicks end_ k (i + 1) (Q.drop 10) (by omega)⟩

variable {S}

/-- A block derived into the buffer. -/
theorem Fresh.derive {g : RandomGenerator} {consumed positions : List ℕ}
    (h : Fresh S g consumed positions) :
    Fresh S ⟨g.counter + 1, g.buffer ++ S.block (g.counter + 1)⟩ consumed
      (positions ++ List.range' (randOutputLen * g.counter) randOutputLen) := by
  refine ⟨by rw [h.buffer_eq, block_eq_map_streamAt, List.map_append], ?_⟩
  rw [range_add_blocks, Nat.mul_one, ← List.append_assoc]
  exact h.perm.append_right _

/-- `k` blocks derived straight into the caller's result. -/
theorem Fresh.deriveBlocks {g : RandomGenerator} {consumed positions : List ℕ}
    (h : Fresh S g consumed positions) (k : ℕ) :
    Fresh S ⟨g.counter + k, g.buffer⟩
      (consumed ++ List.range' (randOutputLen * g.counter) (randOutputLen * k)) positions := by
  refine ⟨h.buffer_eq, ?_⟩
  rw [range_add_blocks, List.append_assoc]
  have hswap : (consumed ++
      (List.range' (randOutputLen * g.counter) (randOutputLen * k) ++ positions)).Perm
      (consumed ++ positions ++ List.range' (randOutputLen * g.counter) (randOutputLen * k)) := by
    rw [List.append_assoc]
    exact List.perm_append_comm.append_left consumed
  exact hswap.trans (h.perm.append_right _)

/-- The last `k` positions popped from the back of the buffer, last first. -/
theorem Fresh.pop {g : RandomGenerator} {consumed kept popped : List ℕ}
    (h : Fresh S g consumed (kept ++ popped)) :
    Fresh S ⟨g.counter, kept.map (streamAt S)⟩ (consumed ++ popped.reverse) kept := by
  refine ⟨rfl, ?_⟩
  have hperm := h.perm
  refine List.Perm.trans ?_ hperm
  rw [List.append_assoc]
  exact List.Perm.append_left consumed
    ((List.reverse_perm popped).append_right kept |>.trans List.perm_append_comm)

/-! ### Deriving, filling and popping -/

section Steps

variable (S) {g : RandomGenerator}

theorem deriveNextBlock_eq_ok (h : g.counter + 1 < 2 ^ 16) :
    deriveNextBlock S g = .ok (S.block (g.counter + 1), ⟨g.counter + 1, g.buffer⟩) := by
  rw [deriveNextBlock, add_eq_ok h]
  rfl

theorem deriveNextBlock_eq_error (h : 2 ^ 16 ≤ g.counter + 1) :
    deriveNextBlock S g = .error .arithmeticError := by
  rw [deriveNextBlock, add_eq_error h]
  rfl

theorem fillBuffer_of_le {n : ℕ} (h : n ≤ g.buffer.length) : fillBuffer S g n = .ok g :=
  if_neg (Nat.not_lt.mpr h)

theorem fillBuffer_of_lt {n : ℕ} (h : g.buffer.length < n) (hc : g.counter + 1 < 2 ^ 16) :
    fillBuffer S g n = .ok ⟨g.counter + 1, g.buffer ++ S.block (g.counter + 1)⟩ := by
  rw [fillBuffer, if_pos h, deriveNextBlock_eq_ok S hc]
  rfl

theorem fillBuffer_eq_error {n : ℕ} (h : g.buffer.length < n) (hc : 2 ^ 16 ≤ g.counter + 1) :
    fillBuffer S g n = .error .arithmeticError := by
  rw [fillBuffer, if_pos h, deriveNextBlock_eq_error S hc]
  rfl

theorem popBack_concat {α : Type} (B : List α) (b : α) : popBack (B ++ [b]) = .ok (b, B) := by
  rw [popBack, List.getLast?_concat, List.dropLast_concat]

/-- Popping the last `D.length` bytes pushes them onto the result, last first. -/
theorem popBytes_append (c : ℕ) (B : List UInt8) :
    ∀ (D result : List UInt8),
      popBytes D.length result ⟨c, B ++ D⟩ = .ok (result ++ D.reverse, ⟨c, B⟩) := by
  intro D
  induction D using List.reverseRecOn with
  | nil => intro result; simp [popBytes]
  | append_singleton D b ih =>
    intro result
    rw [List.length_append, List.length_singleton, popBytes, ← List.append_assoc, popBack_concat,
      ok_bind]
    simp only
    rw [ih, List.reverse_append, List.reverse_singleton, List.singleton_append, List.append_assoc,
      List.singleton_append]

/-- Popping the last `D.length` bytes shifts them into the number read so far, last first. -/
theorem popUint_append (c : ℕ) (B : List UInt8) :
    ∀ (D : List UInt8) (acc : ℕ), (acc + 1) * 256 ^ D.length ≤ 2 ^ 256 →
      popUint D.length acc ⟨c, B ++ D⟩ =
        .ok ((D.reverse.map UInt8.toNat).foldl (fun a d => a * 256 + d) acc, ⟨c, B⟩) := by
  intro D
  induction D using List.reverseRecOn with
  | nil => intro acc _; simp [popUint]
  | append_singleton D b ih =>
    intro acc hacc
    rw [List.length_append, List.length_singleton, pow_succ] at hacc
    have hb : b.toNat < 256 := b.toNat_lt_size
    have hpow : 1 ≤ 256 ^ D.length := Nat.one_le_pow _ _ (by decide)
    have h256 : (2 : ℕ) ^ 8 = 256 := by norm_num
    -- the number read so far, shifted and with `b` added, still fits in a `u256`
    have hfit : (acc + 1) * 256 ≤ 2 ^ 256 :=
      le_trans (Nat.mul_le_mul_left _ (by omega)) hacc
    have hdigit : acc * 256 + b.toNat < (acc + 1) * 256 := by
      rw [Nat.succ_mul]
      exact Nat.add_lt_add_left hb _
    have hadd : acc * 2 ^ 8 + b.toNat < 2 ^ 256 :=
      calc acc * 2 ^ 8 + b.toNat = acc * 256 + b.toNat := by rw [h256]
        _ < (acc + 1) * 256 := hdigit
        _ ≤ 2 ^ 256 := hfit
    have hshift : acc * 2 ^ 8 < 2 ^ 256 := Nat.lt_of_le_of_lt (Nat.le_add_right _ _) hadd
    have hacc' : (acc * 2 ^ 8 + b.toNat + 1) * 256 ^ D.length ≤ 2 ^ 256 :=
      calc (acc * 2 ^ 8 + b.toNat + 1) * 256 ^ D.length
          = (acc * 256 + b.toNat + 1) * 256 ^ D.length := by rw [h256]
        _ ≤ (acc + 1) * 256 * 256 ^ D.length := Nat.mul_le_mul_right _ hdigit
        _ = (acc + 1) * (256 ^ D.length * 256) := by ring
        _ ≤ 2 ^ 256 := hacc
    rw [List.length_append, List.length_singleton, popUint, ← List.append_assoc, popBack_concat,
      ok_bind]
    simp only
    rw [shl_eq_ok (by decide) hshift, ok_bind, add_eq_ok hadd, ok_bind,
      ih _ hacc', List.reverse_append,
      List.reverse_singleton, List.singleton_append, List.map_cons, List.foldl_cons]
    rfl

end Steps

/-! ### What each call consumes -/

section Specs

variable {g g' : RandomGenerator} {consumed P : List ℕ}

/-- `k` blocks appended to a result, or the abort of the first block past `u16::MAX`. -/
theorem appendBlocks_eq : ∀ (k : ℕ) (result : List UInt8) (g : RandomGenerator),
    appendBlocks S k result g =
      if k = 0 ∨ g.counter + k < 2 ^ 16 then
        .ok (result ++ (List.range' (randOutputLen * g.counter) (randOutputLen * k)).map
          (streamAt S), ⟨g.counter + k, g.buffer⟩)
      else .error .arithmeticError
  | 0, result, ⟨c, buffer⟩ => by simp [appendBlocks]
  | k + 1, result, ⟨c, buffer⟩ => by
    dsimp only
    by_cases hc : c + 1 < 2 ^ 16
    · rw [appendBlocks, deriveNextBlock_eq_ok S hc, ok_bind]
      dsimp only
      rw [appendBlocks_eq k, block_eq_map_streamAt, List.append_assoc, ← List.map_append,
        range'_blocks_succ]
      dsimp only
      have hcount : c + 1 + k = c + (k + 1) := by omega
      have hcond : (k = 0 ∨ c + (k + 1) < 2 ^ 16) ↔ (k + 1 = 0 ∨ c + (k + 1) < 2 ^ 16) := by omega
      rw [hcount]
      exact if_congr hcond rfl rfl
    · rw [appendBlocks, deriveNextBlock_eq_error S (show 2 ^ 16 ≤ c + 1 by omega), error_bind,
        if_neg (by omega)]

/-- Topping the buffer up for `k ≤ 32` bytes leaves `k` bytes to pop and at most 31 after. -/
theorem Fresh.fillBuffer {k : ℕ} (h : Fresh S g consumed P) (hP : P.length ≤ 31) (hk : k ≤ 32)
    (hok : fillBuffer S g k = .ok g') :
    ∃ kept popped, Fresh S g' consumed (kept ++ popped) ∧ popped.length = k ∧
      kept.length ≤ 31 := by
  have hlen : g.buffer.length = P.length := by rw [h.buffer_eq, List.length_map]
  -- the buffer holds at least `k` and fewer than `k + 32` bytes after the top-up
  obtain ⟨P', hfresh, hk', hlt⟩ :
      ∃ P', Fresh S g' consumed P' ∧ k ≤ P'.length ∧ P'.length < k + 32 := by
    by_cases hfill : g.buffer.length < k
    · by_cases hc : g.counter + 1 < 2 ^ 16
      · rw [fillBuffer_of_lt S hfill hc] at hok
        cases hok
        refine ⟨_, h.derive, ?_, ?_⟩ <;>
          simp only [List.length_append, List.length_range', randOutputLen] <;> omega
      · rw [fillBuffer_eq_error S hfill (by omega)] at hok
        cases hok
    · rw [fillBuffer_of_le S (by omega)] at hok
      cases hok
      exact ⟨P, h, by omega, by omega⟩
  refine ⟨P'.take (P'.length - k), P'.drop (P'.length - k), by rwa [List.take_append_drop], ?_, ?_⟩
  · rw [List.length_drop]
    omega
  · rw [List.length_take]
    omega

/-- Popping the positions `popped` from the back of a fresh buffer onto a result. -/
theorem popBytes_of_fresh {kept popped : List ℕ} (h : Fresh S g consumed (kept ++ popped))
    (result : List UInt8) :
    popBytes popped.length result g =
      .ok (result ++ popped.reverse.map (streamAt S), ⟨g.counter, kept.map (streamAt S)⟩) := by
  obtain ⟨c, buffer⟩ := g
  have hbuffer : buffer = kept.map (streamAt S) ++ popped.map (streamAt S) := by
    rw [← List.map_append]
    exact h.buffer_eq
  have hlen : popped.length = (popped.map (streamAt S)).length := (List.length_map _).symm
  rw [hbuffer, hlen, popBytes_append, List.map_reverse]

/-- Reading the positions `popped` from the back of a fresh buffer as a number. -/
theorem popUint_of_fresh {kept popped : List ℕ} (h : Fresh S g consumed (kept ++ popped))
    (hk : popped.length ≤ 32) :
    popUint popped.length 0 g = .ok (readUint S popped.reverse, ⟨g.counter, kept.map (streamAt S)⟩) := by
  obtain ⟨c, buffer⟩ := g
  have hbuffer : buffer = kept.map (streamAt S) ++ popped.map (streamAt S) := by
    rw [← List.map_append]
    exact h.buffer_eq
  have hlen : popped.length = (popped.map (streamAt S)).length := (List.length_map _).symm
  have hfit : (0 + 1) * 256 ^ (popped.map (streamAt S)).length ≤ 2 ^ 256 :=
    calc (0 + 1) * 256 ^ (popped.map (streamAt S)).length
        = 256 ^ popped.length := by rw [Nat.zero_add, Nat.one_mul, List.length_map]
      _ ≤ 256 ^ 32 := Nat.pow_le_pow_right (by decide) hk
      _ = 2 ^ 256 := by norm_num
  rw [hbuffer, hlen, popUint_append _ _ _ _ hfit, ← List.map_reverse, List.map_map]
  rfl

/-- `generate_bytes` returns exactly its `n` bytes, fresh from the stream: the whole blocks it
derives, then the bytes it pops from the buffer. -/
theorem generateBytes_spec {n : ℕ} {out : List UInt8} (h : Fresh S g consumed P)
    (hP : P.length ≤ 31) (hok : generateBytes S g n = .ok (out, g')) :
    ∃ Q P', Q.length = n ∧ out = Q.map (streamAt S) ∧ Fresh S g' (consumed ++ Q) P' ∧
      P'.length ≤ 31 := by
  rw [generateBytes, bind_eq_ok] at hok
  obtain ⟨⟨result, g₁⟩, hblocks, hrest⟩ := hok
  rw [appendBlocks_eq] at hblocks
  split_ifs at hblocks
  cases hblocks
  -- the whole blocks went to the result; the rest, fewer than 32, come from the buffer
  set R := List.range' (randOutputLen * g.counter) (randOutputLen * (n / randOutputLen))
  have hR : R.length = randOutputLen * (n / randOutputLen) := List.length_range'
  simp only [List.nil_append, bind_eq_ok] at hrest
  obtain ⟨remaining, hsub, g₂, hfill, hpop⟩ := hrest
  obtain ⟨rfl, -⟩ := eq_of_sub_eq_ok hsub
  have hrem : n - (R.map (streamAt S)).length < randOutputLen := by
    rw [List.length_map, hR, randOutputLen]
    omega
  obtain ⟨kept, popped, hfresh, hpopped, hkept⟩ :=
    (h.deriveBlocks (n / randOutputLen)).fillBuffer hP (by simp only [randOutputLen] at hrem ⊢; omega) hfill
  rw [← hpopped, popBytes_of_fresh hfresh] at hpop
  cases hpop
  refine ⟨R ++ popped.reverse, kept, ?_, by rw [List.map_append], ?_, hkept⟩
  · rw [List.length_append, List.length_reverse, hpopped, List.length_map, hR]
    have := Nat.mul_div_le n randOutputLen
    omega
  · rw [← List.append_assoc]
    exact hfresh.pop

/-- Popping `k ≤ 32` bytes from a buffer that holds them reads a number below `256 ^ k`. -/
theorem popUint_isOk {k : ℕ} (hk : k ≤ 32) (hb : k ≤ g.buffer.length) :
    ∃ n g', popUint k 0 g = .ok (n, g') ∧ n < 256 ^ k := by
  obtain ⟨c, buffer⟩ := g
  set D := buffer.drop (buffer.length - k)
  have hD : D.length = k := by
    simp only [D, List.length_drop]
    dsimp only at hb
    omega
  have hfit : (0 + 1) * 256 ^ D.length ≤ 2 ^ 256 :=
    calc (0 + 1) * 256 ^ D.length = 256 ^ k := by rw [Nat.zero_add, Nat.one_mul, hD]
      _ ≤ 256 ^ 32 := Nat.pow_le_pow_right (by decide) hk
      _ = 2 ^ 256 := by norm_num
  have hsplit : buffer = buffer.take (buffer.length - k) ++ D := (List.take_append_drop _ _).symm
  refine ⟨_, _, by rw [hsplit, ← hD, popUint_append _ _ _ _ hfit], ?_⟩
  have hlen : k = (D.reverse.map UInt8.toNat).length := by
    rw [List.length_map, List.length_reverse, hD]
  rw [hlen]
  exact ModBias.bigEndian_lt (by decide) fun d hd => by
    obtain ⟨b, -, rfl⟩ := List.mem_map.mp hd
    exact b.toNat_lt_size

/-- `uint_from_bytes!` reads its `k` bytes fresh from the stream, the last one popped lowest. -/
theorem uintFromBytes_spec {w k n : ℕ} (h : Fresh S g consumed P) (hP : P.length ≤ 31)
    (hk : k ≤ 32) (hok : uintFromBytes S w g k = .ok (n, g')) :
    ∃ Q P', Q.length = k ∧ n = readUint S Q ∧ Fresh S g' (consumed ++ Q) P' ∧
      P'.length ≤ 31 := by
  rw [uintFromBytes, bind_eq_ok] at hok
  obtain ⟨g₁, hfill, hrest⟩ := hok
  obtain ⟨kept, popped, hfresh, hpopped, hkept⟩ := h.fillBuffer hP hk hfill
  rw [← hpopped, popUint_of_fresh hfresh (by omega), ok_bind] at hrest
  simp only [bind_eq_ok] at hrest
  obtain ⟨result, hcast, hret⟩ := hrest
  obtain ⟨rfl, -⟩ := eq_of_cast_eq_ok hcast
  cases hret
  exact ⟨popped.reverse, kept, by rw [List.length_reverse, hpopped], rfl, hfresh.pop, hkept⟩

/-- `uint_from_bytes!` aborts when it needs a block past `u16::MAX`. -/
theorem uintFromBytes_eq_error {w k : ℕ} (hb : g.buffer.length < k) (hc : 2 ^ 16 ≤ g.counter + 1) :
    uintFromBytes S w g k = .error .arithmeticError := by
  rw [uintFromBytes, fillBuffer_eq_error S hb hc, error_bind]

/-- Otherwise `uint_from_bytes!` returns, when `k` bytes fit its type. -/
theorem uintFromBytes_isOk {w k : ℕ} (hk : k ≤ 32) (hw : 256 ^ k ≤ 2 ^ w)
    (hc : k ≤ g.buffer.length ∨ g.counter + 1 < 2 ^ 16) : ∃ r, uintFromBytes S w g k = .ok r := by
  -- after the top-up the buffer holds the `k` bytes to pop
  obtain ⟨g₁, hfill, hlen⟩ : ∃ g₁, fillBuffer S g k = .ok g₁ ∧ k ≤ g₁.buffer.length := by
    by_cases hfill : g.buffer.length < k
    · have hc' : g.counter + 1 < 2 ^ 16 := hc.resolve_left (Nat.not_le.mpr hfill)
      refine ⟨_, fillBuffer_of_lt S hfill hc', ?_⟩
      dsimp only
      rw [List.length_append, S.length_block, randOutputLen]
      omega
    · exact ⟨g, fillBuffer_of_le S (Nat.le_of_not_lt hfill), Nat.le_of_not_lt hfill⟩
  obtain ⟨n, g₂, hpop, hn⟩ := popUint_isOk hk hlen
  refine ⟨(n, g₂), ?_⟩
  rw [uintFromBytes, hfill, ok_bind, hpop, ok_bind]
  dsimp only
  rw [cast_eq_ok (Nat.lt_of_lt_of_le hn hw), ok_bind]
  rfl

/-- With `min < max`, `uint_in_range!` is `min` plus the number it reads modulo the range size:
none of its casts, its subtraction or its additions aborts. -/
theorem uintInRange_of_lt {w k min max : ℕ} (hw : w < 256) (hmax : max < 2 ^ w)
    (hlt : min < max) :
    uintInRange S w g min max k = do
      let (rand, g) ← uintFromBytes S 256 g k
      return (min + rand % (max - min + 1), g) := by
  have hsize : max - min + 1 ≤ 2 ^ w := by omega
  have hpow : 2 ^ w < 2 ^ 256 := Nat.pow_lt_pow_right (by decide) hw
  rw [uintInRange, assert_eq_ok (Nat.le_of_lt hlt), ok_bind, if_neg (Nat.ne_of_lt hlt),
    sub_eq_ok (Nat.le_of_lt hlt), ok_bind,
    cast_eq_ok (Nat.lt_of_lt_of_le (Nat.lt_succ_self _) (Nat.le_of_lt (Nat.lt_of_le_of_lt hsize hpow))),
    ok_bind, add_eq_ok (Nat.lt_of_le_of_lt hsize hpow), ok_bind]
  congr 1
  funext ⟨rand, g₁⟩
  -- the offset is at most `max - min`, so it fits the type and `min` plus it is at most `max`
  have hoff : rand % (max - min + 1) ≤ max - min := Nat.le_of_lt_succ (Nat.mod_lt _ (Nat.succ_pos _))
  dsimp only
  rw [mod_eq_ok (show 0 < max - min + 1 by omega), ok_bind, cast_eq_ok (by omega), ok_bind,
    add_eq_ok (by omega), ok_bind]

/-- A range call aborts exactly when `min > max`, or when it needs a block and the counter is
already `u16::MAX`. -/
theorem uintInRange_eq_error_iff {w k min max : ℕ} {e : Abort Code} (hw : w < 256) (hk : k ≤ 32)
    (hmax : max < 2 ^ w) :
    uintInRange S w g min max k = .error e ↔
      (max < min ∧ e = .abort .eInvalidRange) ∨
        (min < max ∧ g.buffer.length < k ∧ 2 ^ 16 ≤ g.counter + 1 ∧ e = .arithmeticError) := by
  have hk' : 256 ^ k ≤ 2 ^ 256 :=
    calc 256 ^ k ≤ 256 ^ 32 := Nat.pow_le_pow_right (by decide) hk
      _ = 2 ^ 256 := by norm_num
  rcases Nat.lt_trichotomy max min with hgt | heq | hlt
  · -- the assertion fails
    have hassert : assert (min ≤ max) Code.eInvalidRange = .error (.abort .eInvalidRange) :=
      if_neg (Nat.not_le.mpr hgt)
    rw [uintInRange, hassert, error_bind]
    constructor
    · intro h
      cases h
      exact .inl ⟨hgt, rfl⟩
    · rintro (⟨-, rfl⟩ | ⟨hlt, -⟩)
      · rfl
      · omega
  · subst heq
    rw [uintInRange, assert_eq_ok (Nat.le_refl max), ok_bind, if_pos rfl]
    constructor
    · intro h
      cases h
    · rintro (⟨h, -⟩ | ⟨h, -⟩) <;> omega
  · rw [uintInRange_of_lt hw hmax hlt]
    by_cases hblock : g.buffer.length < k ∧ 2 ^ 16 ≤ g.counter + 1
    · rw [uintFromBytes_eq_error hblock.1 hblock.2, error_bind]
      constructor
      · intro h
        cases h
        exact .inr ⟨hlt, hblock.1, hblock.2, rfl⟩
      · rintro (⟨h, -⟩ | ⟨-, -, -, rfl⟩)
        · omega
        · rfl
    · obtain ⟨r, hr⟩ := uintFromBytes_isOk (g := g) hk hk' (by omega)
      rw [hr, ok_bind]
      constructor
      · intro h
        cases h
      · rintro (⟨h, -⟩ | ⟨-, hb, hc, -⟩)
        · omega
        · exact absurd ⟨hb, hc⟩ hblock

/-- A range call that returns met `min = max` and read nothing, or read a number and reduced it
into the range. -/
theorem uintInRange_of_eq_ok {w k min max n : ℕ} (hok : uintInRange S w g min max k = .ok (n, g')) :
    (min = max ∧ n = min ∧ g' = g) ∨
      (min < max ∧ ∃ rand, uintFromBytes S 256 g k = .ok (rand, g') ∧
        n = min + rand % (max - min + 1)) := by
  rw [uintInRange, bind_eq_ok] at hok
  obtain ⟨u, hassert, hrest⟩ := hok
  have hle : min ≤ max := of_assert_eq_ok hassert
  by_cases heq : min = max
  · rw [if_pos heq] at hrest
    cases hrest
    exact .inl ⟨heq, rfl, rfl⟩
  · rw [if_neg heq] at hrest
    simp only [bind_eq_ok] at hrest
    obtain ⟨diff, hsub, diff', hcast, size, hadd, ⟨rand, g₁⟩, hbytes, hrest⟩ := hrest
    obtain ⟨rfl, -⟩ := eq_of_sub_eq_ok hsub
    obtain ⟨rfl, -⟩ := eq_of_cast_eq_ok hcast
    obtain ⟨rfl, -⟩ := eq_of_add_eq_ok hadd
    simp only at hrest
    obtain ⟨offset, hmod, offset', hcast', value, hadd', hret⟩ := hrest
    rw [mod_eq_ok (show 0 < max - min + 1 by omega)] at hmod
    cases hmod
    obtain ⟨rfl, -⟩ := eq_of_cast_eq_ok hcast'
    obtain ⟨rfl, -⟩ := eq_of_add_eq_ok hadd'
    cases hret
    exact .inr ⟨Nat.lt_of_le_of_ne hle heq, rand, hbytes, rfl⟩

/-- What a range call returns lies in the range. -/
theorem uintInRange_mem {w k min max n : ℕ} (hok : uintInRange S w g min max k = .ok (n, g')) :
    min ≤ n ∧ n ≤ max := by
  rcases uintInRange_of_eq_ok hok with ⟨heq, rfl, -⟩ | ⟨hlt, rand, -, rfl⟩
  · exact ⟨Nat.le_refl _, Nat.le_of_eq heq⟩
  · have hoff : rand % (max - min + 1) < max - min + 1 := Nat.mod_lt _ (Nat.succ_pos _)
    omega

/-- A range call returns `min`, reading nothing, when `min = max`, and otherwise `min` plus the
number its `k` fresh bytes spell modulo the size of the range. -/
theorem uintInRange_spec {w k min max n : ℕ} (h : Fresh S g consumed P) (hP : P.length ≤ 31)
    (hk : k ≤ 32) (hok : uintInRange S w g min max k = .ok (n, g')) :
    ∃ Q P', ((min = max ∧ Q = [] ∧ n = min) ∨
        (min < max ∧ Q.length = k ∧ n = min + readUint S Q % (max - min + 1))) ∧
      Fresh S g' (consumed ++ Q) P' ∧ P'.length ≤ 31 := by
  rcases uintInRange_of_eq_ok hok with ⟨heq, rfl, rfl⟩ | ⟨hlt, rand, hbytes, rfl⟩
  · exact ⟨[], P, .inl ⟨heq, rfl, rfl⟩, by rwa [List.append_nil], hP⟩
  · obtain ⟨Q, P', hQ, rfl, hfresh, hP'⟩ := uintFromBytes_spec h hP hk hbytes
    exact ⟨Q, P', .inr ⟨hlt, hQ, rfl⟩, hfresh, hP'⟩

/-- `vector::swap` that returns is the swap of the two entries. -/
theorem vectorSwap_of_eq_ok {v v' : List β} {i j : ℕ} (h : vectorSwap v i j = .ok v') :
    v' = v.swap i j := by
  rw [vectorSwap, bind_eq_ok] at h
  obtain ⟨a, ha, h⟩ := h
  rw [bind_eq_ok] at h
  obtain ⟨b, hb, h⟩ := h
  obtain ⟨hi, rfl⟩ := eq_of_getAt_eq_ok ha
  obtain ⟨hj, rfl⟩ := eq_of_getAt_eq_ok hb
  cases h
  exact (List.swap_eq_of_lt hi hj).symm

/-- The loop of `shuffle` from position `i` to `end_` swaps each position with a pick read from
ten fresh stream bytes. -/
theorem shuffleLoop_spec {end_ : ℕ} :
    ∀ (k i : ℕ) (v v' : List β) (g g' : RandomGenerator) (consumed P : List ℕ),
      i + k = end_ → Fresh S g consumed P → P.length ≤ 31 →
      shuffleLoop S end_ k i v g = .ok (v', g') →
      ∃ Q P', Q.length = 10 * k ∧ v' = FisherYates.shuffleFrom i (shufflePicks S end_ k i Q) v ∧
        Fresh S g' (consumed ++ Q) P' ∧ P'.length ≤ 31
  | 0, i, v, v', g, g', consumed, P, _, h, hP, hok => by
    cases hok
    exact ⟨[], P, rfl, rfl, by rwa [List.append_nil], hP⟩
  | k + 1, i, v, v', g, g', consumed, P, hik, h, hP, hok => by
    rw [shuffleLoop, bind_eq_ok] at hok
    obtain ⟨⟨j, g₁⟩, hpick, hok⟩ := hok
    rw [bind_eq_ok] at hok
    obtain ⟨v₁, hswap, hrest⟩ := hok
    -- position `i` is below `end_`, so the pick reads its ten bytes
    obtain ⟨Q₁, P₁, hQ₁, hfresh₁, hP₁⟩ := uintInRange_spec h hP (by decide) hpick
    obtain ⟨Q₁len, rfl⟩ : Q₁.length = 10 ∧ j = i + readUint S Q₁ % (end_ - i + 1) := by
      rcases hQ₁ with ⟨heq, -, -⟩ | ⟨-, hlen, rfl⟩
      · omega
      · exact ⟨hlen, rfl⟩
    obtain ⟨Q₂, P₂, hQ₂, rfl, hfresh₂, hP₂⟩ :=
      shuffleLoop_spec k (i + 1) v₁ v' g₁ g' (consumed ++ Q₁) P₁ (by omega) hfresh₁ hP₁ hrest
    refine ⟨Q₁ ++ Q₂, P₂, by rw [List.length_append, Q₁len, hQ₂]; ring, ?_, ?_, hP₂⟩
    · rw [shufflePicks, List.take_left' Q₁len, List.drop_left' Q₁len, FisherYates.shuffleFrom,
        vectorSwap_of_eq_ok hswap]
    · rw [← List.append_assoc]
      exact hfresh₂

/-- `shuffle` swaps each position but the last with a pick read from ten fresh stream bytes. -/
theorem shuffle_spec {v v' : List β} (h : Fresh S g consumed P) (hP : P.length ≤ 31)
    (hok : shuffle S g v = .ok (v', g')) :
    ∃ Q P', Q.length = 10 * (v.length - 1) ∧
      v' = FisherYates.shuffleFrom 0 (shufflePicks S (v.length - 1) (v.length - 1) 0 Q) v ∧
      Fresh S g' (consumed ++ Q) P' ∧ P'.length ≤ 31 := by
  rw [shuffle] at hok
  by_cases hnil : v.length = 0
  · rw [if_pos hnil] at hok
    cases hok
    refine ⟨[], P, by simp [hnil], ?_, by rwa [List.append_nil], hP⟩
    rw [hnil]
    rfl
  · rw [if_neg hnil] at hok
    simp only [bind_eq_ok] at hok
    obtain ⟨u, -, n, hcast, end_, hsub, hloop⟩ := hok
    obtain ⟨rfl, -⟩ := eq_of_cast_eq_ok hcast
    obtain ⟨rfl, -⟩ := eq_of_sub_eq_ok hsub
    exact shuffleLoop_spec _ 0 v v' g g' consumed P (Nat.zero_add _) h hP hloop

theorem shuffleLoop_perm {end_ : ℕ} :
    ∀ (k i : ℕ) (v v' : List β) (g g' : RandomGenerator),
      shuffleLoop S end_ k i v g = .ok (v', g') → v'.Perm v
  | 0, _, v, v', g, g', hok => by
    cases hok
    exact List.Perm.refl v
  | k + 1, i, v, v', g, g', hok => by
    rw [shuffleLoop, bind_eq_ok] at hok
    obtain ⟨⟨j, g₁⟩, -, hok⟩ := hok
    rw [bind_eq_ok] at hok
    obtain ⟨v₁, hswap, hrest⟩ := hok
    rw [vectorSwap_of_eq_ok hswap] at hrest
    exact (shuffleLoop_perm k (i + 1) _ v' g₁ g' hrest).trans (List.swap_perm v i j)

/-- A `shuffle` that returns permutes the vector, from any generator. -/
theorem shuffle_perm {v v' : List β} (hok : shuffle S g v = .ok (v', g')) : v'.Perm v := by
  rw [shuffle] at hok
  by_cases hnil : v.length = 0
  · rw [if_pos hnil] at hok
    cases hok
    exact List.Perm.refl v
  · rw [if_neg hnil] at hok
    simp only [bind_eq_ok] at hok
    obtain ⟨u, -, n, -, end_, -, hloop⟩ := hok
    exact shuffleLoop_perm _ 0 v v' g g' hloop

end Specs

/-! ### What a run consumes -/

variable (S)

/-- The width in bits of each type `generate_uN` serves. -/
def UintType.bits : UintType → ℕ
  | .u8 => 8
  | .u16 => 16
  | .u32 => 32
  | .u64 => 64
  | .u128 => 128
  | .u256 => 256

/-- The bytes `generate_uN` reads: as many as the type has. -/
def UintType.numOfBytes : UintType → ℕ
  | .u8 => 1
  | .u16 => 2
  | .u32 => 4
  | .u64 => 8
  | .u128 => 16
  | .u256 => 32

theorem UintType.generate_eq (t : UintType) (g : RandomGenerator) :
    t.generate S g = uintFromBytes S t.bits g t.numOfBytes := by
  cases t <;> rfl

theorem UintType.numOfBytes_le (t : UintType) : t.numOfBytes ≤ 32 := by
  cases t <;> decide

/-- The width in bits of each type `generate_uN_in_range` serves. -/
def RangeType.bits : RangeType → ℕ
  | .u8 => 8
  | .u16 => 16
  | .u32 => 32
  | .u64 => 64
  | .u128 => 128

/-- The bytes `generate_uN_in_range` reads: eight more than the type has. -/
def RangeType.numOfBytes : RangeType → ℕ
  | .u8 => 9
  | .u16 => 10
  | .u32 => 12
  | .u64 => 16
  | .u128 => 24

theorem RangeType.generateInRange_eq (t : RangeType) (g : RandomGenerator) (min max : ℕ) :
    t.generateInRange S g min max = uintInRange S t.bits g min max t.numOfBytes := by
  cases t <;> rfl

theorem RangeType.numOfBytes_le (t : RangeType) : t.numOfBytes ≤ 32 := by
  cases t <;> decide

theorem RangeType.bits_lt (t : RangeType) : t.bits < 256 := by
  cases t <;> decide

/-- Each range type reads 64 bits more than it has. -/
theorem RangeType.pow_numOfBytes (t : RangeType) : 256 ^ t.numOfBytes = 2 ^ (t.bits + 64) := by
  cases t <;> norm_num [RangeType.numOfBytes, RangeType.bits]

/-- What a call returned, as a function of the stream positions `Q` it consumed, in the order
it consumed them. -/
def Consumes : Call β → List ℕ → Output β → Prop
  | .generateBytes numOfBytes, Q, out => Q.length = numOfBytes ∧ out = .bytes (Q.map (streamAt S))
  | .generateUint t, Q, out => Q.length = t.numOfBytes ∧ out = .uint (readUint S Q)
  | .generateBool, Q, out => Q.length = 1 ∧ out = .bool (readUint S Q &&& 1 == 1)
  | .generateInRange t min max, Q, out =>
    (min = max ∧ Q = [] ∧ out = .uint min) ∨
      (min < max ∧ Q.length = t.numOfBytes ∧ out = .uint (min + readUint S Q % (max - min + 1)))
  | .shuffle v, Q, out => Q.length = 10 * (v.length - 1) ∧
    out = .vector (FisherYates.shuffleFrom 0 (shufflePicks S (v.length - 1) (v.length - 1) 0 Q) v)

variable {S} {g g' : RandomGenerator} {consumed P : List ℕ}

/-- Each call consumes fresh stream bytes, keeps the buffer at most 31 bytes long, and returns a
function of the bytes it consumed. -/
theorem Call.run_spec {call : Call β} {out : Output β} (h : Fresh S g consumed P)
    (hP : P.length ≤ 31) (hok : call.run S g = .ok (out, g')) :
    ∃ Q P', Consumes S call Q out ∧ Fresh S g' (consumed ++ Q) P' ∧ P'.length ≤ 31 := by
  cases call with
  | generateBytes numOfBytes =>
    rw [Call.run, bind_eq_ok] at hok
    obtain ⟨⟨b, g₁⟩, hbytes, hret⟩ := hok
    cases hret
    obtain ⟨Q, P', hQ, rfl, hfresh, hP'⟩ := generateBytes_spec h hP hbytes
    exact ⟨Q, P', ⟨hQ, rfl⟩, hfresh, hP'⟩
  | generateUint t =>
    rw [Call.run, bind_eq_ok] at hok
    obtain ⟨⟨n, g₁⟩, hn, hret⟩ := hok
    cases hret
    rw [UintType.generate_eq] at hn
    obtain ⟨Q, P', hQ, rfl, hfresh, hP'⟩ := uintFromBytes_spec h hP t.numOfBytes_le hn
    exact ⟨Q, P', ⟨hQ, rfl⟩, hfresh, hP'⟩
  | generateBool =>
    rw [Call.run, bind_eq_ok] at hok
    obtain ⟨⟨b, g₁⟩, hbool, hret⟩ := hok
    cases hret
    rw [Random.generateBool, bind_eq_ok] at hbool
    obtain ⟨⟨result, g₂⟩, hbytes, hret⟩ := hbool
    cases hret
    obtain ⟨Q, P', hQ, rfl, hfresh, hP'⟩ := uintFromBytes_spec h hP (by decide) hbytes
    exact ⟨Q, P', ⟨hQ, rfl⟩, hfresh, hP'⟩
  | generateInRange t min max =>
    rw [Call.run, bind_eq_ok] at hok
    obtain ⟨⟨n, g₁⟩, hn, hret⟩ := hok
    cases hret
    rw [RangeType.generateInRange_eq] at hn
    obtain ⟨Q, P', hQ, hfresh, hP'⟩ := uintInRange_spec h hP t.numOfBytes_le hn
    refine ⟨Q, P', ?_, hfresh, hP'⟩
    rcases hQ with ⟨heq, hnil, rfl⟩ | ⟨hlt, hlen, rfl⟩
    · exact .inl ⟨heq, hnil, rfl⟩
    · exact .inr ⟨hlt, hlen, rfl⟩
  | shuffle v =>
    rw [Call.run, bind_eq_ok] at hok
    obtain ⟨⟨v', g₁⟩, hv, hret⟩ := hok
    cases hret
    obtain ⟨Q, P', hQ, rfl, hfresh, hP'⟩ := shuffle_spec h hP hv
    exact ⟨Q, P', ⟨hQ, rfl⟩, hfresh, hP'⟩

/-- Over a run of calls, each consumes its own fresh stream bytes: no byte is consumed twice. -/
theorem runCalls_spec :
    ∀ (calls : List (Call β)) (g g' : RandomGenerator) (consumed P : List ℕ)
      (outs : List (Output β)),
      Fresh S g consumed P → P.length ≤ 31 → runCalls S calls g = .ok (outs, g') →
      ∃ Qs P', List.Forall₂ (fun (co : Call β × Output β) Q => Consumes S co.1 Q co.2)
          (calls.zip outs) Qs ∧
        outs.length = calls.length ∧ Fresh S g' (consumed ++ Qs.flatten) P' ∧ P'.length ≤ 31
  | [], g, g', consumed, P, outs, h, hP, hok => by
    cases hok
    exact ⟨[], P, .nil, rfl, by rwa [List.flatten_nil, List.append_nil], hP⟩
  | call :: calls, g, g', consumed, P, outs, h, hP, hok => by
    rw [runCalls, bind_eq_ok] at hok
    obtain ⟨⟨out, g₁⟩, hcall, hok⟩ := hok
    rw [bind_eq_ok] at hok
    obtain ⟨⟨outs', g₂⟩, hrest, hret⟩ := hok
    cases hret
    obtain ⟨Q, P₁, hQ, hfresh₁, hP₁⟩ := Call.run_spec h hP hcall
    obtain ⟨Qs, P₂, hQs, hlen, hfresh₂, hP₂⟩ :=
      runCalls_spec calls g₁ g' (consumed ++ Q) P₁ outs' hfresh₁ hP₁ hrest
    refine ⟨Q :: Qs, P₂, .cons hQ hQs, by rw [List.length_cons, hlen, List.length_cons], ?_, hP₂⟩
    rw [List.flatten_cons, ← List.append_assoc]
    exact hfresh₂

/-- `generate_bytes` of whole blocks on an empty buffer derives them and leaves the buffer
empty. -/
theorem generateBytes_whole_blocks {c q : ℕ} (hc : c + q < 2 ^ 16) :
    generateBytes S ⟨c, []⟩ (randOutputLen * q) =
      .ok ((List.range' (randOutputLen * c) (randOutputLen * q)).map (streamAt S), ⟨c + q, []⟩) := by
  rw [generateBytes, Nat.mul_div_cancel_left q (by decide), appendBlocks_eq, if_pos (.inr hc),
    ok_bind]
  dsimp only
  rw [List.nil_append, List.length_map, List.length_range', sub_eq_ok (Nat.le_refl _), ok_bind,
    Nat.sub_self, fillBuffer_of_le S (Nat.zero_le _)]
  rfl

theorem runCalls_replicate_whole_blocks (q : ℕ) :
    ∀ (m c : ℕ), c + m * q < 2 ^ 16 →
      ∃ outs, runCalls S (List.replicate m (Call.generateBytes (randOutputLen * q) : Call β))
        ⟨c, []⟩ = .ok (outs, ⟨c + m * q, []⟩)
  | 0, c, _ => ⟨[], by rw [Nat.zero_mul, Nat.add_zero]; rfl⟩
  | m + 1, c, hc => by
    have hq : c + q < 2 ^ 16 := by
      rw [Nat.succ_mul] at hc
      omega
    obtain ⟨outs, houts⟩ := runCalls_replicate_whole_blocks q m (c + q) (by rw [Nat.succ_mul] at hc; omega)
    refine ⟨.bytes ((List.range' (randOutputLen * c) (randOutputLen * q)).map (streamAt S)) :: outs,
      ?_⟩
    rw [List.replicate_succ, runCalls, Call.run, generateBytes_whole_blocks hq, ok_bind]
    dsimp only
    rw [pure_bind]
    dsimp only
    have hcount : c + q + m * q = c + (m + 1) * q := by rw [Nat.succ_mul]; omega
    rw [houts, ok_bind, hcount]
    rfl

/-! ### The generator never reuses the stream -/

section Claims

variable (S)

/-- Over every run of calls from `new_generator` the buffer holds at most 31 bytes, each call
returns a function of the stream bytes it consumed, and those bytes with the buffer's are the
first `32 * counter` bytes of the stream, each once. A range call aborts exactly when `min > max`
or when it needs a block past `u16::MAX`, and otherwise returns a value in the range; `shuffle`
permutes the vector with valid Fisher–Yates picks; and on uniform bytes a range call of every
width is within `2⁻⁶⁴` of uniform. -/
theorem randomGenerator_never_reuses_stream :
    (∀ (calls : List (Call β)) (outs : List (Output β)) (g : RandomGenerator),
      runCalls S calls newGenerator = .ok (outs, g) →
        g.buffer.length ≤ 31 ∧ outs.length = calls.length ∧
          ∃ (Qs : List (List ℕ)) (P : List ℕ),
            List.Forall₂ (fun (co : Call β × Output β) Q => Consumes S co.1 Q co.2)
              (calls.zip outs) Qs ∧
            g.buffer = P.map (streamAt S) ∧
            (Qs.flatten ++ P).Perm (List.range (randOutputLen * g.counter))) ∧
    (∀ (t : RangeType) (g : RandomGenerator) (min max : ℕ) (e : Abort Code), max < 2 ^ t.bits →
      (t.generateInRange S g min max = .error e ↔
        (max < min ∧ e = .abort .eInvalidRange) ∨
          (min < max ∧ g.buffer.length < t.numOfBytes ∧ 2 ^ 16 ≤ g.counter + 1 ∧
            e = .arithmeticError))) ∧
    (∀ (t : RangeType) (g g' : RandomGenerator) (min max n : ℕ),
      t.generateInRange S g min max = .ok (n, g') → min ≤ n ∧ n ≤ max) ∧
    (∀ (g g' : RandomGenerator) (v v' : List β), shuffle S g v = .ok (v', g') → v'.Perm v) ∧
    (∀ (n : ℕ) (Q : List ℕ), FisherYates.Choices (n + 1) 0 (shufflePicks S n n 0 Q)) ∧
    (∀ (v w : List β), v ≠ [] → v.Nodup → w.Perm v →
      ∃! js, FisherYates.Choices v.length 0 js ∧ FisherYates.shuffleFrom 0 js v = w) ∧
    (∀ (t : RangeType) (min max : ℕ), max < 2 ^ t.bits →
      ModBias.rangeBias 256 t.numOfBytes min (max - min + 1) ≤ 1 / 2 ^ 64) := by
  refine ⟨?_, ?_, ?_, ?_, ?_, ?_, ?_⟩
  · intro calls outs g hrun
    obtain ⟨Qs, P, hQs, hlen, hfresh, hP⟩ :=
      runCalls_spec calls newGenerator g [] [] outs (fresh_newGenerator S) (Nat.zero_le _) hrun
    have hbuffer : g.buffer.length = P.length := by rw [hfresh.buffer_eq, List.length_map]
    refine ⟨by omega, hlen, Qs, P, hQs, hfresh.buffer_eq, ?_⟩
    simpa only [List.nil_append] using hfresh.perm
  · intro t g min max e hmax
    rw [RangeType.generateInRange_eq]
    exact uintInRange_eq_error_iff t.bits_lt t.numOfBytes_le hmax
  · intro t g g' min max n hok
    rw [RangeType.generateInRange_eq] at hok
    exact uintInRange_mem hok
  · intro g g' v v' hok
    exact shuffle_perm hok
  · intro n Q
    exact choices_shufflePicks S n n 0 Q (Nat.zero_add n)
  · intro v w hne hnodup hw
    have hpos : 0 < v.length := List.length_pos_iff.mpr hne
    exact FisherYates.existsUnique_shuffleFrom (v.length - 1) 0 v w (by omega) rfl hnodup hw rfl
  · intro t min max hmax
    exact ModBias.rangeBias_le (Nat.succ_pos _) (by omega) t.pow_numOfBytes

/-- The blocks of a seed whose every block is zero. -/
def zeroBlocks : Blocks := ⟨fun _ => List.replicate 32 0, fun _ => List.length_replicate⟩

/-- On the zero seed, a `u8` range with its bounds swapped aborts, a `u64`
range of a thousand values is biased by at most `2 ^ -64`, and the reversal
of three distinct values is reached by exactly one sequence of Fisher-Yates
choices. -/
theorem randomGenerator_never_reuses_stream_zero :
    RangeType.u8.generateInRange zeroBlocks newGenerator 10 5 = .error (.abort .eInvalidRange) ∧
      ModBias.rangeBias 256 RangeType.u64.numOfBytes 0 (999 - 0 + 1) ≤ 1 / 2 ^ 64 ∧
      ∃! js, FisherYates.Choices 3 0 js ∧ FisherYates.shuffleFrom 0 js [1, 2, 3] = [3, 2, 1] := by
  obtain ⟨-, herror, -, -, -, hunique, hbias⟩ :=
    randomGenerator_never_reuses_stream (β := ℕ) zeroBlocks
  refine ⟨(herror .u8 newGenerator 10 5 _ (by decide)).mpr (.inl ⟨by decide, rfl⟩),
    hbias .u64 0 999 (by decide), ?_⟩
  exact hunique [1, 2, 3] [3, 2, 1] (by decide) (by decide) (by decide)

/-- Fifty-one calls of `generate_bytes(41120)` derive 65535 blocks; a `u8` range call with
`min < max` then needs one more and aborts on the `u16` counter. -/
theorem generateU8InRange_aborts_past_u16_max :
    ∃ (outs : List (Output ℕ)) (g : RandomGenerator),
      runCalls zeroBlocks (List.replicate 51 (Call.generateBytes 41120)) newGenerator =
          .ok (outs, g) ∧
        RangeType.u8.generateInRange zeroBlocks g 0 1 = .error .arithmeticError := by
  have hbytes : (41120 : ℕ) = randOutputLen * 1285 := rfl
  obtain ⟨outs, houts⟩ :=
    @runCalls_replicate_whole_blocks ℕ zeroBlocks 1285 51 0 (by norm_num)
  refine ⟨outs, ⟨0 + 51 * 1285, []⟩, by rw [hbytes]; exact houts, ?_⟩
  rw [RangeType.generateInRange_eq]
  exact (uintInRange_eq_error_iff (RangeType.bits_lt .u8) (RangeType.numOfBytes_le .u8)
    (by decide)).mpr (.inr ⟨by decide, by decide, by norm_num, rfl⟩)

end Claims

end Random

end Sui
