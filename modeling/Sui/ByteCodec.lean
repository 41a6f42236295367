import Mathlib.Data.Nat.Bitwise
import Mathlib.Algebra.Order.Group.Nat
import Mathlib.Tactic.NormNum

/-!
# Little-endian and LEB128 byte encodings

Two ways to write a natural number as bytes. At a fixed width, the `n`
base-256 digits of `v`, least significant first (`leBytes`). At a variable
width, LEB128: seven bits per byte, least significant group first, the high
bit of a byte set when another byte follows (`uleb`, writing at most `n + 1`
bytes).

A reader rebuilds the number digit by digit, so what the proofs use is how
the encodings lay out the digits: a fixed-width encoding is the low digit
followed by the encoding of the rest (`leBytes_succ`, `length_leBytes`), and
every list of bytes is the encoding of the number it spells (`ofLeBytes`,
`leBytes_ofLeBytes`, `ofLeBytes_lt`); a
LEB128 encoding is one byte per group and stops at the first group below 128
(`uleb_of_lt`, `uleb_of_le`), within its bound (`length_uleb_le`); one more
digit extends the value read so far (Mathlib's `Nat.mod_pow_succ`); a group
shifted above the bits read so far is or-ed in as an addition
(`or_mul_two_pow`); and a byte's low seven bits and its high bit are its group
and its continuation flag (`and_127`, `and_128_eq_zero_iff`).
-/

namespace ByteCodec

/-- The `n` little-endian base-256 digits of `v`. -/
def leBytes : ℕ → ℕ → List UInt8
  | 0, _ => []
  | n + 1, v => UInt8.ofNat (v % 256) :: leBytes n (v / 256)

theorem leBytes_succ (n v : ℕ) :
    leBytes (n + 1) v = UInt8.ofNat (v % 256) :: leBytes n (v / 256) := rfl

theorem length_leBytes : ∀ (n v : ℕ), (leBytes n v).length = n
  | 0, _ => rfl
  | n + 1, v => by rw [leBytes_succ, List.length_cons, length_leBytes n]

/-- The number whose little-endian base-256 digits are `bytes`. -/
def ofLeBytes : List UInt8 → ℕ
  | [] => 0
  | b :: bs => b.toNat + 256 * ofLeBytes bs

theorem ofLeBytes_lt : ∀ bytes : List UInt8, ofLeBytes bytes < 2 ^ (8 * bytes.length)
  | [] => Nat.one_pos
  | b :: bs => by
    have hb : b.toNat < 256 := b.toNat_lt
    have hrest : 256 * (ofLeBytes bs + 1) ≤ 256 * 2 ^ (8 * bs.length) :=
      Nat.mul_le_mul_left 256 (ofLeBytes_lt bs)
    rw [ofLeBytes, List.length_cons, Nat.mul_succ, pow_add, Nat.mul_comm (2 ^ _)]
    norm_num
    omega

/-- Reading `bytes` as a number and writing it back at their width gives them back. -/
theorem leBytes_ofLeBytes : ∀ bytes : List UInt8, leBytes bytes.length (ofLeBytes bytes) = bytes
  | [] => rfl
  | b :: bs => by
    have hb : b.toNat < 256 := b.toNat_lt
    rw [List.length_cons, leBytes_succ, ofLeBytes, Nat.add_mul_mod_self_left, Nat.mod_eq_of_lt hb,
      Nat.add_mul_div_left _ _ (by norm_num), Nat.div_eq_of_lt hb, Nat.zero_add, UInt8.ofNat_toNat,
      leBytes_ofLeBytes bs]

/-- LEB128 in at most `n + 1` bytes: seven bits per byte, the high bit set on
every byte but the last. -/
def uleb : ℕ → ℕ → List UInt8
  | 0, v => [UInt8.ofNat v]
  | n + 1, v => if v < 128 then [UInt8.ofNat v] else UInt8.ofNat (v % 128 + 128) :: uleb n (v / 128)

theorem uleb_of_lt {n v : ℕ} (h : v < 128) : uleb n v = [UInt8.ofNat v] := by
  cases n with
  | zero => rfl
  | succ n => exact if_pos h

theorem uleb_of_le {n v : ℕ} (h : 128 ≤ v) :
    uleb (n + 1) v = UInt8.ofNat (v % 128 + 128) :: uleb n (v / 128) :=
  if_neg (Nat.not_lt.mpr h)

theorem length_uleb_le : ∀ (n v : ℕ), (uleb n v).length ≤ n + 1
  | 0, _ => le_refl 1
  | n + 1, v => by
    by_cases h : v < 128
    · rw [uleb_of_lt h, List.length_singleton]
      omega
    · rw [uleb_of_le (Nat.le_of_not_lt h), List.length_cons]
      have := length_uleb_le n (v / 128)
      omega

/-- A group shifted above the bits read so far is or-ed in as an addition. -/
theorem or_mul_two_pow {a s : ℕ} (ha : a < 2 ^ s) (c : ℕ) : a ||| c * 2 ^ s = a + c * 2 ^ s := by
  rw [Nat.lor_comm, Nat.mul_comm, ← Nat.two_pow_add_eq_or_of_lt ha]
  omega

/-- The low seven bits of a byte are its group. -/
theorem and_127 (x : ℕ) : x &&& 127 = x % 128 :=
  Nat.and_two_pow_sub_one_eq_mod x 7

/-- The high bit of a byte is clear exactly below 128. -/
theorem and_128_eq_zero_iff {x : ℕ} (hx : x < 256) : x &&& 128 = 0 ↔ x < 128 := by
  have hall : ∀ i : Fin 256, (i.val &&& 128 = 0 ↔ i.val < 128) := by decide +kernel
  exact hall ⟨x, hx⟩

end ByteCodec
