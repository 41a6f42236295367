import Mathlib.Data.Nat.Sqrt
import Mathlib.Tactic.Ring
import Sui.MoveArith

/-!
# Powers and square roots of the standard library (`std::macros`)

`num_pow` raises a base to a `u8` exponent by square-and-multiply: an even
exponent squares the base and halves, an odd one multiplies the base into the
result and decrements. `num_sqrt` is the digit-by-digit square root: `bit`
starts at `2 ^ bitsize`, a power of four above every input, and each round
either subtracts `res + bit` from the remainder or not, halves `res` and
divides `bit` by four. Each `uN::pow` and `uN::sqrt` is the macro at its
types.

* **`numPowLoop_eq`** — from a result and base of the type, the loop returns
  `res * base ^ e` when it fits and aborts otherwise: the squarings never
  exceed the final power.
* **`numSqrtLoop_eq`** — with `y² * 4^(m+1) ≤ x < (y+1)² * 4^(m+1)`, the loop
  from `bit = 4^m`, `res = y * 4^(m+1)` and the remainder `x - y² * 4^(m+1)`
  returns `Nat.sqrt x`.

**Proof shape.** Both loops are proved by one step lemma (`numPowLoop_even`,
`numPowLoop_odd`, `numSqrtLoop_digit`) and an induction on the recursion; the
instances at the library's widths are the general statements at literals.
-/

namespace Sui

namespace MoveStd

open MoveArith

variable {C : Type}

/-! ### `num_pow` -/

/-- The loop of `num_pow` from `base`, `exponent` and `res`, in a type of `w` bits. -/
def numPowLoop (w base exponent res : ℕ) : Except (Abort C) ℕ :=
  if exponent ≥ 1 then
    if exponent % 2 = 0 then do
      let base ← mul w base base
      numPowLoop w base (exponent / 2) res
    else do
      let res ← mul w res base
      numPowLoop w base (exponent - 1) res
  else pure res
termination_by exponent

/-- `num_pow`. -/
def numPow (w base exponent : ℕ) : Except (Abort C) ℕ := numPowLoop w base exponent 1

/-- `std::u8::pow`. -/
def U8.pow (base exponent : ℕ) : Except (Abort C) ℕ := numPow 8 base exponent

/-- `std::u16::pow`. -/
def U16.pow (base exponent : ℕ) : Except (Abort C) ℕ := numPow 16 base exponent

/-- `std::u32::pow`. -/
def U32.pow (base exponent : ℕ) : Except (Abort C) ℕ := numPow 32 base exponent

/-- `std::u64::pow`. -/
def U64.pow (base exponent : ℕ) : Except (Abort C) ℕ := numPow 64 base exponent

/-- `std::u128::pow`. -/
def U128.pow (base exponent : ℕ) : Except (Abort C) ℕ := numPow 128 base exponent

/-- `std::u256::pow`. -/
def U256.pow (base exponent : ℕ) : Except (Abort C) ℕ := numPow 256 base exponent

/-! ### `num_sqrt` -/

/-- The loop of `num_sqrt` in the wide type of `w` bits. The shifts by one and two of a type of
sixteen bits or more never abort, so they are divisions here. -/
def numSqrtLoop (w bit res x : ℕ) : Except (Abort C) ℕ :=
  if bit ≠ 0 then do
    -- `res + bit`, which the source computes again for the subtraction
    let sum ← add w res bit
    if x ≥ sum then do
      let x ← sub x sum
      let res ← add w (res / 2) bit
      numSqrtLoop w (bit / 4) res x
    else
      numSqrtLoop w (bit / 4) (res / 2) x
  else pure res
termination_by bit
decreasing_by all_goals omega

/-- `num_sqrt` with `T` of `t` bits and `U` of `u` bits. -/
def numSqrt (t u bitsize x : ℕ) : Except (Abort C) ℕ := do
  let bit ← shl u 1 bitsize
  let x ← cast u x
  let res ← numSqrtLoop u bit 0 x
  cast t res

/-- `std::u8::sqrt`. -/
def U8.sqrt (x : ℕ) : Except (Abort C) ℕ := numSqrt 8 16 8 x

/-- `std::u16::sqrt`. -/
def U16.sqrt (x : ℕ) : Except (Abort C) ℕ := numSqrt 16 32 16 x

/-- `std::u32::sqrt`. -/
def U32.sqrt (x : ℕ) : Except (Abort C) ℕ := numSqrt 32 64 32 x

/-- `std::u64::sqrt`. -/
def U64.sqrt (x : ℕ) : Except (Abort C) ℕ := numSqrt 64 128 64 x

/-- `std::u128::sqrt`. -/
def U128.sqrt (x : ℕ) : Except (Abort C) ℕ := numSqrt 128 256 128 x

/-! ### Square-and-multiply is exact -/

section Pow

variable {w : ℕ}

theorem numPowLoop_zero (base res : ℕ) :
    (numPowLoop w base 0 res : Except (Abort C) ℕ) = .ok res := by
  rw [numPowLoop, if_neg (by omega)]
  rfl

theorem numPowLoop_even {base exponent res : ℕ} (hpos : 1 ≤ exponent) (heven : exponent % 2 = 0) :
    (numPowLoop w base exponent res : Except (Abort C) ℕ) =
      (do let base ← mul w base base; numPowLoop w base (exponent / 2) res) := by
  rw [numPowLoop, if_pos hpos, if_pos heven]

theorem numPowLoop_odd {base exponent res : ℕ} (hpos : 1 ≤ exponent) (hodd : exponent % 2 ≠ 0) :
    (numPowLoop w base exponent res : Except (Abort C) ℕ) =
      (do let res ← mul w res base; numPowLoop w base (exponent - 1) res) := by
  rw [numPowLoop, if_pos hpos, if_neg hodd]

theorem mul_eq_error {a b : ℕ} (h : 2 ^ w ≤ a * b) :
    (mul w a b : Except (Abort C) ℕ) = .error .arithmeticError :=
  if_neg (Nat.not_lt.mpr h)

/-- From a result and a base of the type, with a zero result only after a zero base, the loop
returns `res * base ^ exponent` when it fits in the type and aborts otherwise. The induction is on
the exponent, which each round halves or decrements. -/
theorem numPowLoop_eq :
    ∀ (exponent base res : ℕ), base < 2 ^ w → res < 2 ^ w → (0 < res ∨ base = 0) →
      (numPowLoop w base exponent res : Except (Abort C) ℕ) =
        if res * base ^ exponent < 2 ^ w then .ok (res * base ^ exponent)
        else .error .arithmeticError := by
  intro exponent
  induction exponent using Nat.strong_induction_on with
  | _ exponent ih =>
    intro base res hbase hres hzero
    rcases Nat.eq_zero_or_pos exponent with rfl | hpos
    · rw [numPowLoop_zero, pow_zero, Nat.mul_one, if_pos hres]
    by_cases heven : exponent % 2 = 0
    · -- the base is squared: its square is at most the final power when the result is positive
      have hexp : base ^ exponent = (base * base) ^ (exponent / 2) := by
        rw [← pow_two, ← pow_mul, Nat.mul_div_cancel' (Nat.dvd_of_mod_eq_zero heven)]
      rw [numPowLoop_even hpos heven]
      by_cases hsq : base * base < 2 ^ w
      · rw [mul_eq_ok hsq, ok_bind, ih (exponent / 2) (by omega) _ _ hsq hres
          (hzero.imp_right fun h => by rw [h, Nat.zero_mul]), hexp]
      · rw [mul_eq_error (Nat.le_of_not_lt hsq), error_bind]
        have hres' : 0 < res := hzero.resolve_right fun h => hsq (by rw [h, Nat.zero_mul]; exact Nat.two_pow_pos w)
        have hsq_le : base * base ≤ res * base ^ exponent := by
          calc base * base = (base * base) ^ 1 := (pow_one _).symm
            _ ≤ (base * base) ^ (exponent / 2) :=
              Nat.pow_le_pow_right (Nat.pos_of_ne_zero fun h => hsq (by rw [h]; exact Nat.two_pow_pos w))
                (by omega)
            _ = base ^ exponent := hexp.symm
            _ ≤ res * base ^ exponent := Nat.le_mul_of_pos_left _ hres'
        rw [if_neg (by omega)]
    · -- the base is multiplied into the result, which stays below the final power
      have hexp : res * base ^ exponent = res * base * base ^ (exponent - 1) := by
        rw [Nat.mul_assoc, ← pow_succ', Nat.sub_add_cancel hpos]
      rw [numPowLoop_odd hpos heven]
      by_cases hmul : res * base < 2 ^ w
      · have hzero' : 0 < res * base ∨ base = 0 := by
          rcases Nat.eq_zero_or_pos base with h | h
          · exact .inr h
          · exact .inl (Nat.mul_pos (hzero.resolve_right (by omega)) h)
        rw [mul_eq_ok hmul, ok_bind, ih (exponent - 1) (by omega) _ _ hbase hmul hzero', ← hexp]
      · rw [mul_eq_error (Nat.le_of_not_lt hmul), error_bind]
        have hbase' : 0 < base := Nat.pos_of_ne_zero fun h => hmul (by rw [h, Nat.mul_zero]; exact Nat.two_pow_pos w)
        have hle : res * base ≤ res * base ^ exponent := by
          rw [hexp]
          exact Nat.le_mul_of_pos_right _ (Nat.pow_pos hbase')
        rw [if_neg (by omega)]

/-- `num_pow` returns the power when it fits in the type and aborts otherwise. -/
theorem numPow_eq (hw : w ≠ 0) {base : ℕ} (hbase : base < 2 ^ w) (exponent : ℕ) :
    (numPow w base exponent : Except (Abort C) ℕ) =
      if base ^ exponent < 2 ^ w then .ok (base ^ exponent) else .error .arithmeticError := by
  rw [numPow, numPowLoop_eq exponent base 1 hbase (Nat.one_lt_two_pow hw) (.inl Nat.one_pos),
    Nat.one_mul]

end Pow

/-! ### The digit-by-digit square root is exact -/

section Sqrt

variable {w : ℕ}

theorem numSqrtLoop_zero (res x : ℕ) : (numSqrtLoop w 0 res x : Except (Abort C) ℕ) = .ok res := by
  rw [numSqrtLoop, if_neg (not_not.mpr rfl)]
  rfl

theorem four_pow_succ_eq (y m : ℕ) : y * 4 ^ (m + 1) = 2 * (2 * y * 4 ^ m) := by
  ring

/-- One round from `bit = 4^m`, where `res` is the partial root `y` scaled by `4^(m+1)` and `x`
is less its square: the next digit is one exactly when `(2y + 1)² * 4^m ≤ x`, and the round
leaves the partial root `y'` that digit makes, scaled by `4^m`. No sum reaches the wide type's
bound, which is twice a bound of `x` and `bit`. -/
theorem numSqrtLoop_digit {x B m y : ℕ} (hx : x < B) (hm : 4 ^ m ≤ B) (hw : 2 * B ≤ 2 ^ w)
    (hlo : y ^ 2 * 4 ^ (m + 1) ≤ x) (hhi : x < (y + 1) ^ 2 * 4 ^ (m + 1)) :
    ∃ y', y' ^ 2 * 4 ^ m ≤ x ∧ x < (y' + 1) ^ 2 * 4 ^ m ∧
      (numSqrtLoop w (4 ^ m) (y * 4 ^ (m + 1)) (x - y ^ 2 * 4 ^ (m + 1)) : Except (Abort C) ℕ) =
        numSqrtLoop w (4 ^ m / 4) (y' * 4 ^ m) (x - y' ^ 2 * 4 ^ m) := by
  -- the square of the candidate digit, split as the source's remainder test sees it
  have hsplit : (2 * y + 1) ^ 2 * 4 ^ m = y ^ 2 * 4 ^ (m + 1) + (y * 4 ^ (m + 1) + 4 ^ m) := by
    ring
  have hzero : (2 * y) ^ 2 * 4 ^ m = y ^ 2 * 4 ^ (m + 1) := by ring
  have hnext : (y + 1) ^ 2 * 4 ^ (m + 1) = (2 * y + 1 + 1) ^ 2 * 4 ^ m := by ring
  have hres : y * 4 ^ (m + 1) ≤ x := by
    rcases Nat.eq_zero_or_pos y with rfl | hy
    · rw [Nat.zero_mul]
      exact Nat.zero_le x
    · calc y * 4 ^ (m + 1) ≤ y ^ 2 * 4 ^ (m + 1) :=
            Nat.mul_le_mul_right _ (by rw [pow_two]; exact Nat.le_mul_of_pos_left y hy)
        _ ≤ x := hlo
  have hsum : y * 4 ^ (m + 1) + 4 ^ m < 2 ^ w := by omega
  have hhalf : y * 4 ^ (m + 1) / 2 = 2 * y * 4 ^ m := by
    rw [four_pow_succ_eq, Nat.mul_div_cancel_left _ (by decide)]
  have hpos : 4 ^ m ≠ 0 := Nat.pos_iff_ne_zero.mp (Nat.pow_pos (by decide))
  rw [numSqrtLoop, if_pos hpos, add_eq_ok hsum, ok_bind]
  by_cases hdigit : (2 * y + 1) ^ 2 * 4 ^ m ≤ x
  · refine ⟨2 * y + 1, hdigit, by rw [← hnext]; exact hhi, ?_⟩
    have hge : x - y ^ 2 * 4 ^ (m + 1) ≥ y * 4 ^ (m + 1) + 4 ^ m := by omega
    have hrem : x - y ^ 2 * 4 ^ (m + 1) - (y * 4 ^ (m + 1) + 4 ^ m) = x - (2 * y + 1) ^ 2 * 4 ^ m := by
      omega
    have hroot : 2 * y * 4 ^ m + 4 ^ m = (2 * y + 1) * 4 ^ m := by ring
    have hfit : 2 * y * 4 ^ m + 4 ^ m < 2 ^ w := by
      have := four_pow_succ_eq y m
      omega
    rw [if_pos hge, sub_eq_ok hge, ok_bind, hhalf, add_eq_ok hfit, ok_bind, hroot, hrem]
  · refine ⟨2 * y, by rw [hzero]; exact hlo, Nat.lt_of_not_le hdigit, ?_⟩
    rw [if_neg (by omega), hhalf, hzero]

/-- From `bit = 4^m` with the partial root `y` of `x` at `4^(m+1)`, the loop returns the square
root of `x`. The induction is on `m`, one round at a time. -/
theorem numSqrtLoop_eq {x B : ℕ} (hx : x < B) (hw : 2 * B ≤ 2 ^ w) :
    ∀ m y, 4 ^ m ≤ B → y ^ 2 * 4 ^ (m + 1) ≤ x → x < (y + 1) ^ 2 * 4 ^ (m + 1) →
      (numSqrtLoop w (4 ^ m) (y * 4 ^ (m + 1)) (x - y ^ 2 * 4 ^ (m + 1)) : Except (Abort C) ℕ) =
        .ok (Nat.sqrt x)
  | 0, y, hm, hlo, hhi => by
    obtain ⟨y', hlo', hhi', hstep⟩ := numSqrtLoop_digit hx hm hw hlo hhi
    rw [hstep, show 4 ^ 0 / 4 = 0 from rfl, numSqrtLoop_zero, pow_zero, Nat.mul_one]
    rw [pow_zero, Nat.mul_one, pow_two] at hlo'
    rw [pow_zero, Nat.mul_one, pow_two] at hhi'
    rw [Nat.eq_sqrt.mpr ⟨hlo', hhi'⟩]
  | m + 1, y, hm, hlo, hhi => by
    obtain ⟨y', hlo', hhi', hstep⟩ := numSqrtLoop_digit hx hm hw hlo hhi
    have hdiv : 4 ^ (m + 1) / 4 = 4 ^ m := by
      rw [pow_succ, Nat.mul_div_cancel _ (by decide)]
    rw [hstep, hdiv]
    exact numSqrtLoop_eq hx hw m y' (le_trans (Nat.pow_le_pow_right (by decide) (Nat.le_succ m)) hm)
      hlo' hhi'

/-- `num_sqrt` at an even `bitsize` with the wide type twice as wide returns the square root of
every value of the narrow type. -/
theorem numSqrt_eq {half x : ℕ} (hhalf : 0 < half) (hx : x < 2 ^ (2 * half)) :
    (numSqrt (2 * half) (2 * (2 * half)) (2 * half) x : Except (Abort C) ℕ) = .ok (Nat.sqrt x) := by
  have hfour : (2 : ℕ) ^ (2 * half) = 4 ^ half := by rw [pow_mul]; norm_num
  have hwide : 2 * 2 ^ (2 * half) ≤ 2 ^ (2 * (2 * half)) := by
    rw [← pow_succ']
    exact Nat.pow_le_pow_right (by decide) (by omega)
  have hbit : 1 * 2 ^ (2 * half) % 2 ^ (2 * (2 * half)) = 4 ^ half := by
    rw [Nat.one_mul, Nat.mod_eq_of_lt (by omega), hfour]
  have hloop := numSqrtLoop_eq (C := C) (w := 2 * (2 * half)) hx hwide half 0 (by rw [hfour])
    (by rw [pow_two, Nat.zero_mul, Nat.zero_mul]; exact Nat.zero_le x)
    (by
      rw [Nat.zero_add, one_pow, Nat.one_mul]
      exact lt_of_lt_of_le (hfour ▸ hx) (Nat.pow_le_pow_right (by decide) (Nat.le_succ half)))
  rw [Nat.zero_mul, pow_two, Nat.zero_mul, Nat.zero_mul, Nat.sub_zero] at hloop
  have hsqrt : Nat.sqrt x < 2 ^ (2 * half) := lt_of_le_of_lt (Nat.sqrt_le_self x) hx
  rw [numSqrt, shl, if_pos (by omega), ok_bind, hbit, cast_eq_ok (by omega), ok_bind, hloop, ok_bind,
    cast_eq_ok hsqrt]

end Sqrt


/-! ### The library's instances -/

section Instances

/-- Every `uN::pow` returns the power when it fits in `uN` and aborts with an arithmetic error
otherwise. -/
theorem uintPow_exact_or_overflow :
    (∀ base < 2 ^ 8, ∀ e, (U8.pow base e : Except (Abort C) ℕ) =
      if base ^ e < 2 ^ 8 then .ok (base ^ e) else .error .arithmeticError) ∧
    (∀ base < 2 ^ 16, ∀ e, (U16.pow base e : Except (Abort C) ℕ) =
      if base ^ e < 2 ^ 16 then .ok (base ^ e) else .error .arithmeticError) ∧
    (∀ base < 2 ^ 32, ∀ e, (U32.pow base e : Except (Abort C) ℕ) =
      if base ^ e < 2 ^ 32 then .ok (base ^ e) else .error .arithmeticError) ∧
    (∀ base < 2 ^ 64, ∀ e, (U64.pow base e : Except (Abort C) ℕ) =
      if base ^ e < 2 ^ 64 then .ok (base ^ e) else .error .arithmeticError) ∧
    (∀ base < 2 ^ 128, ∀ e, (U128.pow base e : Except (Abort C) ℕ) =
      if base ^ e < 2 ^ 128 then .ok (base ^ e) else .error .arithmeticError) ∧
    (∀ base < 2 ^ 256, ∀ e, (U256.pow base e : Except (Abort C) ℕ) =
      if base ^ e < 2 ^ 256 then .ok (base ^ e) else .error .arithmeticError) :=
  ⟨fun _ hb e => numPow_eq (by decide) hb e, fun _ hb e => numPow_eq (by decide) hb e,
    fun _ hb e => numPow_eq (by decide) hb e, fun _ hb e => numPow_eq (by decide) hb e,
    fun _ hb e => numPow_eq (by decide) hb e, fun _ hb e => numPow_eq (by decide) hb e⟩

/-- `3 ^ 40` fits a `u64`, and `2 ^ 8` overflows a `u8`. -/
theorem uintPow_exact_or_overflow_three :
    (U64.pow 3 40 : Except (Abort Unit) ℕ) = .ok (3 ^ 40) ∧
      (U8.pow 2 8 : Except (Abort Unit) ℕ) = .error .arithmeticError := by
  constructor
  · rw [uintPow_exact_or_overflow.2.2.2.1 3 (by decide) 40, if_pos (by decide)]
  · rw [uintPow_exact_or_overflow.1 2 (by decide) 8, if_neg (by decide)]

/-- Every `uN::sqrt` returns the integer square root of each value of `uN`, without an abort. -/
theorem uintSqrt_exact :
    (∀ x < 2 ^ 8, (U8.sqrt x : Except (Abort C) ℕ) = .ok (Nat.sqrt x)) ∧
    (∀ x < 2 ^ 16, (U16.sqrt x : Except (Abort C) ℕ) = .ok (Nat.sqrt x)) ∧
    (∀ x < 2 ^ 32, (U32.sqrt x : Except (Abort C) ℕ) = .ok (Nat.sqrt x)) ∧
    (∀ x < 2 ^ 64, (U64.sqrt x : Except (Abort C) ℕ) = .ok (Nat.sqrt x)) ∧
    (∀ x < 2 ^ 128, (U128.sqrt x : Except (Abort C) ℕ) = .ok (Nat.sqrt x)) :=
  -- each instance is the narrow width `2 * half` with the wide one twice as wide
  ⟨fun x hx => @numSqrt_eq C 4 x (by decide) hx, fun x hx => @numSqrt_eq C 8 x (by decide) hx,
    fun x hx => @numSqrt_eq C 16 x (by decide) hx, fun x hx => @numSqrt_eq C 32 x (by decide) hx,
    fun x hx => @numSqrt_eq C 64 x (by decide) hx⟩

/-- The roots of the squares `(2 ^ 20) ^ 2` in `u64` and `15 ^ 2` in `u8`. -/
theorem uintSqrt_exact_squares :
    (U64.sqrt ((2 ^ 20) ^ 2) : Except (Abort Unit) ℕ) = .ok (2 ^ 20) ∧
      (U8.sqrt (15 ^ 2) : Except (Abort Unit) ℕ) = .ok 15 := by
  constructor
  · rw [uintSqrt_exact.2.2.2.1 _ (by decide), Nat.sqrt_eq']
  · rw [uintSqrt_exact.1 _ (by decide), Nat.sqrt_eq']

end Instances

end MoveStd

end Sui
