import Mathlib.Tactic.NormNum
import Sui.ByteCodec
import Sui.MoveArith

/-!
# Reading BCS bytes back (`sui::bcs`)

`sui::bcs` reads values out of the bytes `bcs::to_bytes` writes. A `BCS`
holds the bytes still to read, reversed, so that the next byte is popped off
the back of the vector; each `peel_*` function pops the bytes of one value,
and `into_remainder_bytes` returns what is left. The writer is the native
serializer of the BCS format: a boolean as one byte 0 or 1, an integer of `w`
bits as its `w / 8` little-endian bytes, an address as its 32 bytes, and a
vector as its length in LEB128 followed by its elements. Its length is written
as a 32-bit LEB128 (`output_u32_as_uleb128`), and a vector of more than
`2 ^ 31 - 1` elements is refused.

A peel function is modelled as a function from the buffer to the value read
and the buffer left, or the abort; the loops of the source are structural
recursions on the number of rounds they may still run.

* **`RoundTrip`** — peeling what the writer wrote for a value, followed by any
  bytes, returns the value and leaves those bytes; it holds for every scalar
  type (`roundTrip_peelBool`, `roundTrip_peelU8`, `roundTrip_peelNum`,
  `roundTrip_peelAddress`), and it is kept by `peel_vec!`
  (`roundTrip_peelVec`), so it holds for vectors of any of them, nested.
* **`peelVecLength_uleb`** — the length loop reads back the LEB128 of every
  length below `2 ^ 32`, which the writer puts in at most five bytes.

**Proof shape.** A round trip is an induction over the bytes of the value with
the value read so far as the invariant: a fixed-width integer one byte at a
time (`peelNumLoop_leBytes`), a LEB128 length one group at a time
(`peelVecLengthLoop_uleb`), a vector one element at a time
(`tabulateLoop_flatMap`). The buffer is always `new` of the bytes left
(`popBack_new_cons`), so each step is one pop from the front of a list.
-/

namespace Sui

namespace Bcs

open MoveArith ByteCodec

/-- The aborts of `sui::bcs`, and that of `address::from_bytes`. -/
inductive Code
  /-- `EOutOfRange` -/
  | eOutOfRange
  /-- `ENotBool` -/
  | eNotBool
  /-- `ELenOutOfRange` -/
  | eLenOutOfRange
  /-- `address::from_bytes` of a vector that is not 32 bytes long -/
  | eAddressParseError
  deriving DecidableEq, Repr

/-- `sui::bcs::BCS`: the bytes still to read, in reverse order. -/
structure BCS where
  /-- the unread bytes, the next one last -/
  bytes : List UInt8
  deriving DecidableEq, Repr

/-- `bcs::new`: the bytes reversed. -/
def new (bytes : List UInt8) : BCS := ⟨bytes.reverse⟩

/-- `bcs::into_remainder_bytes`. -/
def intoRemainderBytes (bcs : BCS) : List UInt8 := bcs.bytes.reverse

/-- A reader of one value: the value and the buffer left, or the abort. -/
abbrev Peel (α : Type) := BCS → Except (Abort Code) (α × BCS)

/-- `bcs.bytes.pop_back()`; popping an empty vector aborts. -/
def popBack : Peel UInt8 := fun bcs =>
  match bcs.bytes.getLast? with
  | some byte => .ok (byte, ⟨bcs.bytes.dropLast⟩)
  | none => .error .indexOutOfBounds

/-- `peel_u8`. -/
def peelU8 : Peel ℕ := fun bcs => do
  assert (1 ≤ bcs.bytes.length) Code.eOutOfRange
  let (byte, bcs) ← popBack bcs
  pure (byte.toNat, bcs)

/-- `peel_bool`. -/
def peelBool : Peel Bool := fun bcs => do
  let (value, bcs) ← peelU8 bcs
  if value = 0 then pure (false, bcs)
  else if value = 1 then pure (true, bcs)
  else .error (.abort .eNotBool)

/-- The loop of `peel_num!` into a type of `w` bits, at `i = 8 * k` with
`rounds` rounds left: pop a byte and add it in shifted by `i`. The counter's
own type (`u8`, or `u16` for `u256`) holds every `i` up to `bits`. -/
def peelNumLoop (w : ℕ) : ℕ → ℕ → ℕ → Peel ℕ
  | 0, _, value => fun bcs => pure (value, bcs)
  | rounds + 1, k, value => fun bcs => do
    let (byte, bcs) ← popBack bcs
    let shift ← cast 8 (8 * k)
    let shifted ← shl w byte.toNat shift
    let value ← add w value shifted
    peelNumLoop w rounds (k + 1) value bcs

/-- `peel_num!($len, $bits)` into a type of `w` bits: `while (i < bits)` runs
for `i = 0, 8, …, bits - 8`. -/
def peelNum (len bits w : ℕ) : Peel ℕ := fun bcs => do
  assert (len ≤ bcs.bytes.length) Code.eOutOfRange
  peelNumLoop w (bits / 8) 0 0 bcs

/-- `peel_u16`. -/
def peelU16 : Peel ℕ := peelNum 2 16 16

/-- `peel_u32`. -/
def peelU32 : Peel ℕ := peelNum 4 32 32

/-- `peel_u64`. -/
def peelU64 : Peel ℕ := peelNum 8 64 64

/-- `peel_u128`. -/
def peelU128 : Peel ℕ := peelNum 16 128 128

/-- `peel_u256`. -/
def peelU256 : Peel ℕ := peelNum 32 256 256

/-- An `address`: 32 bytes. -/
structure Address where
  /-- the bytes of the address -/
  bytes : List UInt8
  /-- an address is 32 bytes long -/
  length_eq : bytes.length = 32
  deriving DecidableEq

/-- `address::from_bytes`. -/
def Address.fromBytes (bytes : List UInt8) : Except (Abort Code) Address :=
  if h : bytes.length = 32 then .ok ⟨bytes, h⟩ else .error (.abort .eAddressParseError)

/-- The loop of `vector::tabulate!(n, f)` with `rounds` calls left: push what
`f` returns. -/
def tabulateLoop {α : Type} (f : Peel α) : ℕ → List α → Peel (List α)
  | 0, acc => fun bcs => pure (acc, bcs)
  | rounds + 1, acc => fun bcs => do
    let (a, bcs) ← f bcs
    tabulateLoop f rounds (acc ++ [a]) bcs

/-- `vector::tabulate!(n, f)`. -/
def tabulate {α : Type} (n : ℕ) (f : Peel α) : Peel (List α) := tabulateLoop f n []

/-- `peel_address`. -/
def peelAddress : Peel Address := fun bcs => do
  assert (32 ≤ bcs.bytes.length) Code.eOutOfRange
  let (bytes, bcs) ← tabulate 32 popBack bcs
  let address ← Address.fromBytes bytes
  pure (address, bcs)

/-- The loop of `peel_vec_length` with `total` and `shift` read so far and
`rounds` rounds left before `assert!(len <= 4)` fails, that is `5 - len`. -/
def peelVecLengthLoop : ℕ → ℕ → ℕ → Peel ℕ
  | 0, _, _ => fun _ => .error (.abort .eLenOutOfRange)
  | rounds + 1, total, shift => fun bcs => do
    let (byte, bcs) ← popBack bcs
    let group ← shl 64 (byte.toNat &&& 0x7f) shift
    let total := total ||| group
    -- a clear high bit ends the length
    if byte.toNat &&& 0x80 = 0 then pure (total, bcs)
    else peelVecLengthLoop rounds total (shift + 7) bcs

/-- `peel_vec_length`. -/
def peelVecLength : Peel ℕ := peelVecLengthLoop 5 0 0

/-- `peel_vec!`: the length, then that many values. -/
def peelVec {α : Type} (peel : Peel α) : Peel (List α) := fun bcs => do
  let (len, bcs) ← peelVecLength bcs
  tabulate len peel bcs

/-- `peel_vec_address`. -/
def peelVecAddress : Peel (List Address) := peelVec peelAddress

/-- `peel_vec_bool`. -/
def peelVecBool : Peel (List Bool) := peelVec peelBool

/-- `peel_vec_u8`. -/
def peelVecU8 : Peel (List ℕ) := peelVec peelU8

/-- `peel_vec_vec_u8`. -/
def peelVecVecU8 : Peel (List (List ℕ)) := peelVec peelVecU8

/-- `peel_vec_u16`. -/
def peelVecU16 : Peel (List ℕ) := peelVec peelU16

/-- `peel_vec_u32`. -/
def peelVecU32 : Peel (List ℕ) := peelVec peelU32

/-- `peel_vec_u64`. -/
def peelVecU64 : Peel (List ℕ) := peelVec peelU64

/-- `peel_vec_u128`. -/
def peelVecU128 : Peel (List ℕ) := peelVec peelU128

/-- `peel_vec_u256`. -/
def peelVecU256 : Peel (List ℕ) := peelVec peelU256

/-! ## The writer -/

namespace ToBytes

/-- A boolean: one byte, 0 or 1. -/
def bool (b : Bool) : List UInt8 := [if b then 1 else 0]

/-- An integer of `8 * n` bits: its `n` little-endian bytes. -/
def num (n v : ℕ) : List UInt8 := leBytes n v

/-- An address: its 32 bytes. -/
def address (a : Address) : List UInt8 := a.bytes

/-- `output_u32_as_uleb128`: a length in LEB128, at most five bytes. -/
def outputU32AsUleb128 (len : ℕ) : List UInt8 := uleb 4 len

/-- A vector: its length, then its elements. -/
def vector {α : Type} (ser : α → List UInt8) (vs : List α) : List UInt8 :=
  outputU32AsUleb128 vs.length ++ vs.flatMap ser

end ToBytes

/-- The values the writer accepts in a vector of vectors: at most
`2 ^ 31 - 1` elements at every level. -/
def VecValid {α : Type} (valid : α → Prop) (vs : List α) : Prop :=
  vs.length < 2 ^ 31 ∧ ∀ v ∈ vs, valid v

/-- Peeling what the writer wrote for a valid value, followed by any bytes,
returns the value and leaves exactly those bytes. -/
def RoundTrip {α : Type} (ser : α → List UInt8) (peel : Peel α) (valid : α → Prop) : Prop :=
  ∀ v, valid v → ∀ rest, peel (new (ser v ++ rest)) = .ok (v, new rest)

/-! ## The buffer -/

@[simp] theorem intoRemainderBytes_new (bytes : List UInt8) :
    intoRemainderBytes (new bytes) = bytes :=
  List.reverse_reverse bytes

@[simp] theorem length_new (bytes : List UInt8) : (new bytes).bytes.length = bytes.length :=
  List.length_reverse

/-- The next byte of a buffer is the first of the bytes it was made from. -/
theorem popBack_new_cons (byte : UInt8) (rest : List UInt8) :
    popBack (new (byte :: rest)) = .ok (byte, new rest) := by
  simp [popBack, new]

theorem peelU8_new_cons (byte : UInt8) (rest : List UInt8) :
    peelU8 (new (byte :: rest)) = .ok (byte.toNat, new rest) := by
  have hlen : 1 ≤ (new (byte :: rest)).bytes.length := by simp
  simp only [peelU8, assert_eq_ok hlen, ok_bind, popBack_new_cons]
  rfl

/-! ## Scalars -/

theorem roundTrip_peelU8 : RoundTrip (ToBytes.num 1) peelU8 (· < 2 ^ 8) := by
  intro v hv rest
  have h256 : v % 256 = v := Nat.mod_eq_of_lt hv
  rw [show ToBytes.num 1 v ++ rest = UInt8.ofNat (v % 256) :: rest from rfl, peelU8_new_cons,
    h256, UInt8.toNat_ofNat', Nat.mod_eq_of_lt hv]

theorem roundTrip_peelBool : RoundTrip ToBytes.bool peelBool fun _ => True := by
  intro b _ rest
  cases b <;> simp [ToBytes.bool, peelBool, peelU8_new_cons, ok_bind, pure, Except.pure]

/-- The loop of `peel_num!` reads the little-endian bytes of `v` from the
`k`-th on, with the value of the first `k` already read. -/
theorem peelNumLoop_leBytes {w v : ℕ} (hv : v < 2 ^ w) (rest : List UInt8) :
    ∀ (rounds k : ℕ), 8 * (k + rounds) ≤ w → k + rounds ≤ 32 →
      peelNumLoop w rounds k (v % 256 ^ k) (new (leBytes rounds (v / 256 ^ k) ++ rest)) =
        .ok (v % 256 ^ (k + rounds), new rest)
  | 0, k, _, _ => rfl
  | rounds + 1, k, hw, hk => by
    rw [leBytes_succ, List.cons_append, peelNumLoop]
    dsimp only
    rw [popBack_new_cons, ok_bind, Nat.div_div_eq_div_mul, ← pow_succ]
    -- the byte popped is the `k`-th digit, and fits above the digits read
    set d := v / 256 ^ k % 256 with hd
    have hpow : (2 : ℕ) ^ (8 * k) = 256 ^ k := by rw [pow_mul]; norm_num
    have hdlt : d < 256 := Nat.mod_lt _ (by norm_num)
    have hfit : d * 2 ^ (8 * k) < 2 ^ w := by
      calc d * 2 ^ (8 * k) < 256 * 2 ^ (8 * k) := by
            apply Nat.mul_lt_mul_of_pos_right hdlt (Nat.two_pow_pos _)
        _ = 2 ^ (8 * (k + 1)) := by rw [Nat.mul_add, pow_add, Nat.mul_comm]; norm_num
        _ ≤ 2 ^ w := Nat.pow_le_pow_right (by norm_num) (by omega)
    have hnext : v % 256 ^ k + d * 2 ^ (8 * k) = v % 256 ^ (k + 1) := by
      rw [Nat.mod_pow_succ, hpow, Nat.mul_comm]
    have hsum : v % 256 ^ (k + 1) < 2 ^ w := lt_of_le_of_lt (Nat.mod_le _ _) hv
    have hcast : (cast 8 (8 * k) : Except (Abort Code) ℕ) = .ok (8 * k) :=
      cast_eq_ok (by norm_num; omega)
    have hshl : (shl w (UInt8.ofNat d).toNat (8 * k) : Except (Abort Code) ℕ) =
        .ok (d * 2 ^ (8 * k)) := by
      rw [UInt8.toNat_ofNat', Nat.mod_eq_of_lt (by norm_num; omega)]
      exact shl_eq_ok (by omega) hfit
    have hadd : (add w (v % 256 ^ k) (d * 2 ^ (8 * k)) : Except (Abort Code) ℕ) =
        .ok (v % 256 ^ (k + 1)) := by
      rw [add_eq_ok (hnext ▸ hsum), hnext]
    simp only [hcast, hshl, hadd, ok_bind]
    rw [peelNumLoop_leBytes hv rest rounds (k + 1) (by omega) (by omega), Nat.add_assoc,
      Nat.add_comm 1 rounds]

/-- `peel_num!` into `8 * n` bits reads back the `n` little-endian bytes of
every value of that width. -/
theorem roundTrip_peelNum (n : ℕ) (hn : n ≤ 32) :
    RoundTrip (ToBytes.num n) (peelNum n (8 * n) (8 * n)) (· < 2 ^ (8 * n)) := by
  intro v hv rest
  have hlen : n ≤ (new (ToBytes.num n v ++ rest)).bytes.length := by
    simp [ToBytes.num, length_leBytes]
  have hloop := peelNumLoop_leBytes hv rest n 0 (by omega) (by omega)
  have hall : v % 256 ^ n = v := by
    apply Nat.mod_eq_of_lt
    rwa [pow_mul] at hv
  rw [pow_zero, Nat.mod_one, Nat.div_one, Nat.zero_add, hall] at hloop
  simp only [peelNum, assert_eq_ok hlen, ok_bind, Nat.mul_div_cancel_left n (by norm_num : 0 < 8)]
  exact hloop

/-! ## Repeated values -/

/-- A popped byte is read back. -/
theorem roundTrip_popBack : RoundTrip (fun byte => [byte]) popBack fun _ => True := by
  intro byte _ rest
  exact popBack_new_cons byte rest

/-- The loop of `tabulate!` reads back the values written one after the other. -/
theorem tabulateLoop_flatMap {α : Type} {ser : α → List UInt8} {peel : Peel α} {valid : α → Prop}
    (h : RoundTrip ser peel valid) :
    ∀ (vs : List α), (∀ v ∈ vs, valid v) → ∀ (acc : List α) (rest : List UInt8),
      tabulateLoop peel vs.length acc (new (vs.flatMap ser ++ rest)) = .ok (acc ++ vs, new rest)
  | [], _, acc, rest => by simp [tabulateLoop, pure, Except.pure]
  | v :: vs, hvs, acc, rest => by
    rw [List.length_cons, List.flatMap_cons, List.append_assoc, tabulateLoop]
    dsimp only
    rw [h v (hvs v List.mem_cons_self), ok_bind]
    rw [tabulateLoop_flatMap h vs (fun v' hv' => hvs v' (List.mem_cons_of_mem v hv'))]
    simp

theorem roundTrip_peelAddress : RoundTrip ToBytes.address peelAddress fun _ => True := by
  rintro ⟨bytes, hbytes⟩ _ rest
  have hlen : 32 ≤ (new (bytes ++ rest)).bytes.length := by simp [hbytes]
  -- the 32 pops read the address's bytes in order
  have htab : tabulate 32 popBack (new (bytes ++ rest)) = .ok (bytes, new rest) := by
    have hloop := tabulateLoop_flatMap roundTrip_popBack bytes (fun _ _ => trivial) [] rest
    rw [List.flatMap_singleton', List.nil_append, hbytes] at hloop
    exact hloop
  show peelAddress (new (bytes ++ rest)) = _
  simp only [peelAddress, assert_eq_ok hlen, ok_bind, htab, Address.fromBytes, dif_pos hbytes]
  rfl

/-! ## Vectors -/

section Length

variable {v k : ℕ}

theorem two_pow_seven_mul (k : ℕ) : (2 : ℕ) ^ (7 * k) = 128 ^ k := by
  rw [pow_mul]
  norm_num

/-- A group shifted by `7 * k` with `k ≤ 8` fits in 64 bits. -/
theorem mul_two_pow_seven_mul_lt {g : ℕ} (hg : g < 128) (hk : k ≤ 8) : g * 2 ^ (7 * k) < 2 ^ 64 :=
  calc g * 2 ^ (7 * k) < 128 * 2 ^ (7 * k) := Nat.mul_lt_mul_of_pos_right hg (Nat.two_pow_pos _)
    _ = 2 ^ (7 * (k + 1)) := by rw [Nat.mul_add, pow_add, Nat.mul_comm]; norm_num
    _ ≤ 2 ^ 64 := Nat.pow_le_pow_right (by norm_num) (by omega)

/-- The last group of a length: its high bit is clear and the loop returns. -/
theorem peelVecLengthLoop_last (rounds : ℕ) (rest : List UInt8) (hk : k ≤ 8)
    (hu : v / 128 ^ k < 128) :
    peelVecLengthLoop (rounds + 1) (v % 128 ^ k) (7 * k) (new (UInt8.ofNat (v / 128 ^ k) :: rest)) =
      .ok (v, new rest) := by
  rw [peelVecLengthLoop]
  dsimp only
  rw [popBack_new_cons, ok_bind]
  set u := v / 128 ^ k with hu_def
  have hbyte : (UInt8.ofNat u).toNat = u := by
    rw [UInt8.toNat_ofNat', Nat.mod_eq_of_lt (by norm_num; omega)]
  have hshl : (shl 64 (u &&& 0x7f) (7 * k) : Except (Abort Code) ℕ) = .ok (u * 2 ^ (7 * k)) := by
    rw [and_127, Nat.mod_eq_of_lt hu]
    exact shl_eq_ok (by omega) (mul_two_pow_seven_mul_lt hu hk)
  -- the group completes the value: `v = v % 128 ^ k + 128 ^ k * (v / 128 ^ k)`
  have htotal : v % 128 ^ k ||| u * 2 ^ (7 * k) = v := by
    have hlow : v % 128 ^ k < 2 ^ (7 * k) := two_pow_seven_mul k ▸ Nat.mod_lt _ (by positivity)
    rw [or_mul_two_pow hlow, two_pow_seven_mul, Nat.mul_comm]
    exact Nat.mod_add_div v (128 ^ k)
  have hclear : u &&& 0x80 = 0 := (and_128_eq_zero_iff (by omega)).mpr hu
  simp only [hbyte, hshl, ok_bind, htotal, hclear, if_true]
  rfl

/-- A group with its high bit set: the loop adds it and goes on. -/
theorem peelVecLengthLoop_cont (rounds : ℕ) (bytes : List UInt8) (hk : k ≤ 8) :
    peelVecLengthLoop (rounds + 1) (v % 128 ^ k) (7 * k)
        (new (UInt8.ofNat (v / 128 ^ k % 128 + 128) :: bytes)) =
      peelVecLengthLoop rounds (v % 128 ^ (k + 1)) (7 * (k + 1)) (new bytes) := by
  rw [peelVecLengthLoop]
  dsimp only
  rw [popBack_new_cons, ok_bind]
  set g := v / 128 ^ k % 128 with hg_def
  have hg : g < 128 := Nat.mod_lt _ (by norm_num)
  have hbyte : (UInt8.ofNat (g + 128)).toNat = g + 128 := by
    rw [UInt8.toNat_ofNat', Nat.mod_eq_of_lt (by norm_num; omega)]
  have hshl : (shl 64 ((g + 128) &&& 0x7f) (7 * k) : Except (Abort Code) ℕ) =
      .ok (g * 2 ^ (7 * k)) := by
    rw [and_127, Nat.add_mod_right, Nat.mod_eq_of_lt hg]
    exact shl_eq_ok (by omega) (mul_two_pow_seven_mul_lt hg hk)
  -- one more digit in base 128: `Nat.mod_pow_succ`
  have htotal : v % 128 ^ k ||| g * 2 ^ (7 * k) = v % 128 ^ (k + 1) := by
    have hlow : v % 128 ^ k < 2 ^ (7 * k) := two_pow_seven_mul k ▸ Nat.mod_lt _ (by positivity)
    rw [or_mul_two_pow hlow, two_pow_seven_mul, Nat.mul_comm, Nat.mod_pow_succ]
  have hset : (g + 128) &&& 0x80 ≠ 0 := fun h =>
    absurd ((and_128_eq_zero_iff (by omega)).mp h) (by omega)
  simp only [hbyte, hshl, ok_bind, htotal, hset, if_false]
  rfl

/-- The loop of `peel_vec_length` reads back the LEB128 groups of `v` from the
`k`-th on, with the value of the first `k` already read. -/
theorem peelVecLengthLoop_uleb (rest : List UInt8) :
    ∀ (m k : ℕ), k + m ≤ 4 → v < 128 ^ (k + m + 1) →
      peelVecLengthLoop (m + 1) (v % 128 ^ k) (7 * k) (new (uleb m (v / 128 ^ k) ++ rest)) =
        .ok (v, new rest)
  | 0, k, hk, hv => by
    have hu : v / 128 ^ k < 128 := by
      rw [Nat.div_lt_iff_lt_mul (by positivity), ← pow_succ']
      simpa using hv
    exact peelVecLengthLoop_last 0 rest (by omega) hu
  | m + 1, k, hk, hv => by
    by_cases hu : v / 128 ^ k < 128
    · rw [uleb_of_lt hu, List.singleton_append]
      exact peelVecLengthLoop_last (m + 1) rest (by omega) hu
    · rw [uleb_of_le (Nat.le_of_not_lt hu), List.cons_append, peelVecLengthLoop_cont _ _ (by omega),
        Nat.div_div_eq_div_mul, ← pow_succ]
      exact peelVecLengthLoop_uleb rest m (k + 1) (by omega) (by rwa [show k + 1 + m = k + (m + 1) by omega])

/-- `peel_vec_length` reads back every length the writer writes. -/
theorem peelVecLength_uleb {len : ℕ} (hlen : len < 2 ^ 32) (rest : List UInt8) :
    peelVecLength (new (ToBytes.outputU32AsUleb128 len ++ rest)) = .ok (len, new rest) := by
  have h := peelVecLengthLoop_uleb (v := len) rest 4 0 (by norm_num) (by norm_num; omega)
  rw [pow_zero, Nat.mod_one, Nat.div_one, Nat.mul_zero] at h
  exact h

end Length

/-- `peel_vec!` reads back a vector of values its element reader reads back. -/
theorem roundTrip_peelVec {α : Type} {ser : α → List UInt8} {peel : Peel α} {valid : α → Prop}
    (h : RoundTrip ser peel valid) : RoundTrip (ToBytes.vector ser) (peelVec peel) (VecValid valid) := by
  rintro vs ⟨hlen, hvs⟩ rest
  rw [ToBytes.vector, List.append_assoc]
  simp only [peelVec, peelVecLength_uleb (by omega : vs.length < 2 ^ 32), ok_bind]
  have hloop := tabulateLoop_flatMap h vs hvs [] rest
  rw [List.nil_append] at hloop
  exact hloop

example : peelVecU16 (new [2, 1, 0, 0, 1, 9]) = .ok ([1, 256], new [9]) := by decide

/-! ## Every type the peel functions read -/

/-- **BCS reads back what it writes**: for booleans, integers of every width,
addresses and vectors of them, nested, with at most `2 ^ 31 - 1` elements at
every level, peeling the bytes of a value followed by any bytes returns the
value and leaves exactly those bytes, which `into_remainder_bytes` returns; a
vector length is written in at most five bytes and read back without
overflow. -/
theorem bcs_peel_reads_back :
    RoundTrip ToBytes.bool peelBool (fun _ => True) ∧
    RoundTrip (ToBytes.num 1) peelU8 (· < 2 ^ 8) ∧
    RoundTrip (ToBytes.num 2) peelU16 (· < 2 ^ 16) ∧
    RoundTrip (ToBytes.num 4) peelU32 (· < 2 ^ 32) ∧
    RoundTrip (ToBytes.num 8) peelU64 (· < 2 ^ 64) ∧
    RoundTrip (ToBytes.num 16) peelU128 (· < 2 ^ 128) ∧
    RoundTrip (ToBytes.num 32) peelU256 (· < 2 ^ 256) ∧
    RoundTrip ToBytes.address peelAddress (fun _ => True) ∧
    RoundTrip (ToBytes.vector ToBytes.address) peelVecAddress (VecValid fun _ => True) ∧
    RoundTrip (ToBytes.vector ToBytes.bool) peelVecBool (VecValid fun _ => True) ∧
    RoundTrip (ToBytes.vector (ToBytes.num 1)) peelVecU8 (VecValid (· < 2 ^ 8)) ∧
    RoundTrip (ToBytes.vector (ToBytes.vector (ToBytes.num 1))) peelVecVecU8
      (VecValid (VecValid (· < 2 ^ 8))) ∧
    RoundTrip (ToBytes.vector (ToBytes.num 2)) peelVecU16 (VecValid (· < 2 ^ 16)) ∧
    RoundTrip (ToBytes.vector (ToBytes.num 4)) peelVecU32 (VecValid (· < 2 ^ 32)) ∧
    RoundTrip (ToBytes.vector (ToBytes.num 8)) peelVecU64 (VecValid (· < 2 ^ 64)) ∧
    RoundTrip (ToBytes.vector (ToBytes.num 16)) peelVecU128 (VecValid (· < 2 ^ 128)) ∧
    RoundTrip (ToBytes.vector (ToBytes.num 32)) peelVecU256 (VecValid (· < 2 ^ 256)) ∧
    (∀ bytes, intoRemainderBytes (new bytes) = bytes) ∧
    ∀ len < 2 ^ 31, (ToBytes.outputU32AsUleb128 len).length ≤ 5 ∧
      ∀ rest, peelVecLength (new (ToBytes.outputU32AsUleb128 len ++ rest)) = .ok (len, new rest) := by
  -- each width is `peel_num!` at `8 * n` bits
  have hu16 : RoundTrip (ToBytes.num 2) peelU16 (· < 2 ^ 16) := roundTrip_peelNum 2 (by norm_num)
  have hu32 : RoundTrip (ToBytes.num 4) peelU32 (· < 2 ^ 32) := roundTrip_peelNum 4 (by norm_num)
  have hu64 : RoundTrip (ToBytes.num 8) peelU64 (· < 2 ^ 64) := roundTrip_peelNum 8 (by norm_num)
  have hu128 : RoundTrip (ToBytes.num 16) peelU128 (· < 2 ^ 128) :=
    roundTrip_peelNum 16 (by norm_num)
  have hu256 : RoundTrip (ToBytes.num 32) peelU256 (· < 2 ^ 256) :=
    roundTrip_peelNum 32 (by norm_num)
  have hvecU8 := roundTrip_peelVec roundTrip_peelU8
  refine ⟨roundTrip_peelBool, roundTrip_peelU8, hu16, hu32, hu64, hu128, hu256,
    roundTrip_peelAddress, roundTrip_peelVec roundTrip_peelAddress,
    roundTrip_peelVec roundTrip_peelBool, hvecU8, roundTrip_peelVec hvecU8,
    roundTrip_peelVec hu16, roundTrip_peelVec hu32, roundTrip_peelVec hu64,
    roundTrip_peelVec hu128, roundTrip_peelVec hu256, intoRemainderBytes_new,
    fun len hlen => ⟨length_uleb_le 4 len, peelVecLength_uleb (by omega)⟩⟩

/-- A `u64` of five bytes followed by a byte, and a vector of three `u16`s,
read back from their encodings; a length of 300 takes two ULEB128 bytes. -/
theorem bcs_peel_reads_back_u64 :
    peelU64 (new (ToBytes.num 8 (2 ^ 40 + 7) ++ [9])) = .ok (2 ^ 40 + 7, new [9]) ∧
      peelVecU16 (new (ToBytes.vector (ToBytes.num 2) [1, 300, 65535])) =
        .ok ([1, 300, 65535], new []) ∧
      (ToBytes.outputU32AsUleb128 300).length ≤ 5 := by
  obtain ⟨-, -, -, -, hu64, -, -, -, -, -, -, -, hu16, -, -, -, -, -, hlen⟩ := bcs_peel_reads_back
  refine ⟨hu64 _ (by decide) [9], ?_, (hlen 300 (by decide)).1⟩
  have h := hu16 [1, 300, 65535] ⟨by decide, by decide⟩ []
  rwa [List.append_nil] at h

end Bcs

end Sui
