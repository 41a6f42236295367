import Sui.MoveArith

/-!
# Fixed-point numbers of the standard library (`std::uq64_64`, `std::uq32_32`)

A `UQ64_64` is a `u128` read as a number with 64 fractional bits, a `UQ32_32` a
`u64` with 32. Each of their operations is one of the `uq_*` macros of
`std::macros` at the module's types: `T` for the raw value, the next wider type
`U` for the intermediate products and quotients, and the module's own abort
codes.

Values of `T` are `Fin (2 ^ t)`, so that a raw value out of range cannot be
built; values of `U` are naturals, checked by the operations of `MoveArith`.

* **`uqFromQuotient_map_val`** — with `U` twice as wide as `T`,
  `from_quotient` returns `⌊n * 2^F / d⌋` and aborts with its three codes in the
  source's order (`quotientSpec`): the scaling of the numerator by `2^t` and of
  the denominator by `2^(t - F)` lands on `F` fractional bits.
* **`uqIntMul_map_val`**, **`uqIntDiv_map_val`**, **`uqAdd_map_val`**,
  **`uqSub_map_val`** — the other macros are floor arithmetic on raw values,
  aborting past the largest value of `T` (`boundedSpec`).

**Proof shape.** Every macro is one pass through its checks: each operation in
`U` is shown not to overflow, since its operands are below `2^t` and their
products below `2^(2t)`, and the lemmas of `MoveArith` rewrite it to its value.
-/

namespace Sui

namespace MoveStd

open MoveArith

variable {C : Type}

/-- The abort codes of `std::uq64_64` and `std::uq32_32`; each module declares the same five. -/
inductive UqError where
  | eDenominator
  | eQuotientTooSmall
  | eQuotientTooLarge
  | eOverflow
  | eDivisionByZero
  deriving DecidableEq, Repr

/-- `std::uN::max_value!()`, the largest value of the type of `w` bits. -/
def maxValue (w : ℕ) : Fin (2 ^ w) := ⟨2 ^ w - 1, Nat.sub_lt (Nat.two_pow_pos w) Nat.one_pos⟩

/-! ### The `uq_*` macros -/

/-- `uq_from_quotient` at `T` of `t` bits and `U` of `u` bits. -/
def uqFromQuotient (t u : ℕ) (numerator denominator maxT : Fin (2 ^ t)) (tBits fractionalBits : ℕ)
    (abortDenominator abortQuotientTooSmall abortQuotientTooLarge : C) :
    Except (Abort C) (Fin (2 ^ t)) := do
  if denominator.val = 0 then throw (.abort abortDenominator)
  -- the numerator gets `tBits` fractional bits and the denominator `tBits - fractionalBits`,
  -- so that the quotient has `fractionalBits`
  let scaledNumerator ← shl u (← cast u numerator) tBits
  let scaledDenominator ← shl u (← cast u denominator) (← sub tBits fractionalBits)
  let quotient ← div scaledNumerator scaledDenominator
  if quotient = 0 ∧ numerator.val ≠ 0 then throw (.abort abortQuotientTooSmall)
  if quotient > (← cast u maxT) then throw (.abort abortQuotientTooLarge)
  castFin t quotient

/-- `uq_from_int`: the integer widened to `U` and shifted left by the fractional bits. -/
def uqFromInt {t : ℕ} (u : ℕ) (integer : Fin (2 ^ t)) (fractionalBits : ℕ) :
    Except (Abort C) (Fin (2 ^ u)) := do
  shlFin u (← cast u integer) fractionalBits

/-- `uq_add`: the sum is taken in `U` and checked against the largest value of `T`. -/
def uqAdd (t u : ℕ) (a b maxT : Fin (2 ^ t)) (abortOverflow : C) : Except (Abort C) (Fin (2 ^ t)) := do
  let sum ← add u (← cast u a) (← cast u b)
  if sum > (← cast u maxT) then throw (.abort abortOverflow)
  castFin t sum

/-- `uq_sub`. -/
def uqSub {t : ℕ} (a b : Fin (2 ^ t)) (abortOverflow : C) : Except (Abort C) (Fin (2 ^ t)) := do
  if a < b then throw (.abort abortOverflow)
  subFin a b

/-- `uq_to_int`: the fractional bits shifted away and the rest cast to `T`. -/
def uqToInt (t : ℕ) {u : ℕ} (a : Fin (2 ^ u)) (fractionalBits : ℕ) : Except (Abort C) (Fin (2 ^ t)) := do
  castFin t (← shr u a fractionalBits)

/-- `uq_int_mul`. -/
def uqIntMul (t u : ℕ) (val multiplier maxT : Fin (2 ^ t)) (fractionalBits : ℕ) (abortOverflow : C) :
    Except (Abort C) (Fin (2 ^ t)) := do
  -- the full product of two values of `T` is kept in `U`
  let unscaledProduct ← mul u (← cast u val) (← cast u multiplier)
  -- and the multiplier's fractional bits are shifted away
  let product ← shr u unscaledProduct fractionalBits
  if product > (← cast u maxT) then throw (.abort abortOverflow)
  castFin t product

/-- `uq_int_div`. -/
def uqIntDiv (t u : ℕ) (val divisor maxT : Fin (2 ^ t)) (fractionalBits : ℕ)
    (abortDivisionByZero abortOverflow : C) : Except (Abort C) (Fin (2 ^ t)) := do
  if divisor.val = 0 then throw (.abort abortDivisionByZero)
  let scaledValue ← shl u (← cast u val) fractionalBits
  let quotient ← div scaledValue (← cast u divisor)
  if quotient > (← cast u maxT) then throw (.abort abortOverflow)
  castFin t quotient

/-! ### Floor arithmetic on raw values -/

/-- A raw value, or an abort with `abortOverflow` past the largest value of `t` bits. -/
def boundedSpec (t v : ℕ) (abortOverflow : C) : Except (Abort C) ℕ :=
  if 2 ^ t - 1 < v then .error (.abort abortOverflow) else .ok v

/-- The quotient `n / d` on `F` fractional bits, rounded down, with the aborts of
`from_quotient` in their order. -/
def quotientSpec (t F n d : ℕ) (abortDenominator abortQuotientTooSmall abortQuotientTooLarge : C) :
    Except (Abort C) ℕ :=
  if d = 0 then .error (.abort abortDenominator)
  else if n ≠ 0 ∧ n * 2 ^ F / d = 0 then .error (.abort abortQuotientTooSmall)
  else boundedSpec t (n * 2 ^ F / d) abortQuotientTooLarge

/-! ### The macros are floor arithmetic -/

section Raw

variable {t F : ℕ}

@[simp]
theorem maxValue_val (w : ℕ) : (maxValue w : ℕ) = 2 ^ w - 1 := rfl

theorem two_pow_lt_double (ht : 0 < t) : 2 ^ t < 2 ^ (2 * t) :=
  Nat.pow_lt_pow_right (by decide) (by omega)

/-- A value of `t` bits shifted left by at most `t` fits in `2 * t` bits. -/
theorem mul_two_pow_lt_double {x s : ℕ} (hx : x < 2 ^ t) (hs : s ≤ t) : x * 2 ^ s < 2 ^ (2 * t) := by
  rw [Nat.two_mul, Nat.pow_add]
  exact lt_of_lt_of_le (Nat.mul_lt_mul_of_pos_right hx (Nat.two_pow_pos s))
    (Nat.mul_le_mul_left _ (Nat.pow_le_pow_right (by decide) hs))

/-- The last two steps of `from_quotient`, `add`, `int_mul` and `int_div`: the value is
compared in `U` with the largest value of `T`, and cast back to `T`. -/
theorem checkMax_map_val {u : ℕ} (hwide : 2 ^ t < 2 ^ u) (q : ℕ) (code : C) :
    Fin.val <$> (do
      if q > (← cast u (maxValue t)) then throw (.abort code)
      castFin t q : Except (Abort C) (Fin (2 ^ t))) = boundedSpec t q code := by
  rw [cast_eq_ok (lt_trans (maxValue t).isLt hwide), ok_bind, maxValue_val]
  unfold boundedSpec
  by_cases hlarge : 2 ^ t - 1 < q
  · rw [if_pos hlarge, if_pos hlarge, throw_bind]
    rfl
  · have hpos := Nat.two_pow_pos t
    rw [if_neg hlarge, if_neg hlarge, castFin_eq_ok (by omega)]
    rfl

/-- `from_quotient` with `U` twice as wide as `T`: the numerator scaled by `2^t` and the
denominator by `2^(t - F)` fit in `U`, and their quotient is `⌊n * 2^F / d⌋`. -/
theorem uqFromQuotient_map_val (ht : 0 < t) (hF : F ≤ t) (n d : Fin (2 ^ t)) (a b c : C) :
    Fin.val <$> uqFromQuotient t (2 * t) n d (maxValue t) t F a b c = quotientSpec t F n d a b c := by
  have hwide := two_pow_lt_double ht
  unfold uqFromQuotient quotientSpec
  by_cases hd : (d : ℕ) = 0
  · rw [if_pos hd, if_pos hd, throw_bind]
    rfl
  have hrescale : (n : ℕ) * 2 ^ t / (d * 2 ^ (t - F)) = n * 2 ^ F / d := by
    have hsplit : (n : ℕ) * 2 ^ t = n * 2 ^ F * 2 ^ (t - F) := by
      rw [Nat.mul_assoc, ← Nat.pow_add, Nat.add_sub_cancel' hF]
    rw [hsplit]
    exact Nat.mul_div_mul_right _ _ (Nat.two_pow_pos _)
  have hden : 0 < (d : ℕ) * 2 ^ (t - F) := Nat.mul_pos (Nat.pos_of_ne_zero hd) (Nat.two_pow_pos _)
  rw [if_neg hd, if_neg hd, cast_eq_ok (lt_trans n.isLt hwide), ok_bind,
    shl_eq_ok (by omega) (mul_two_pow_lt_double n.isLt le_rfl), ok_bind,
    cast_eq_ok (lt_trans d.isLt hwide), ok_bind, sub_eq_ok hF, ok_bind,
    shl_eq_ok (by omega) (mul_two_pow_lt_double d.isLt (Nat.sub_le t F)), ok_bind,
    div_eq_ok hden, ok_bind, hrescale]
  -- the source tests `quotient == 0` before `numerator != 0`
  by_cases hsmall : (n : ℕ) ≠ 0 ∧ (n : ℕ) * 2 ^ F / d = 0
  · rw [if_pos hsmall.symm, if_pos hsmall, throw_bind]
    rfl
  · rw [if_neg (fun h => hsmall h.symm), if_neg hsmall]
    exact checkMax_map_val hwide _ c

theorem uqAdd_map_val (ht : 0 < t) (a b : Fin (2 ^ t)) (code : C) :
    Fin.val <$> uqAdd t (2 * t) a b (maxValue t) code = boundedSpec t (a + b) code := by
  have hwide := two_pow_lt_double ht
  have hsum : (a : ℕ) + b < 2 ^ (2 * t) := by
    have h : 2 ^ t * 2 ≤ 2 ^ (2 * t) := by
      rw [← Nat.pow_succ]
      exact Nat.pow_le_pow_right (by decide) (by omega)
    omega
  unfold uqAdd
  rw [cast_eq_ok (lt_trans a.isLt hwide), ok_bind, cast_eq_ok (lt_trans b.isLt hwide), ok_bind,
    add_eq_ok hsum, ok_bind]
  exact checkMax_map_val hwide _ code

theorem uqSub_map_val (a b : Fin (2 ^ t)) (code : C) :
    Fin.val <$> uqSub a b code = if (a : ℕ) < b then .error (.abort code) else .ok (a - b) := by
  unfold uqSub
  by_cases hlt : a < b
  · rw [if_pos hlt, if_pos (Fin.lt_def.mp hlt), throw_bind]
    rfl
  · rw [if_neg hlt, if_neg (mt Fin.lt_def.mpr hlt)]
    exact congrArg (Fin.val <$> ·) (subFin_eq_ok (Fin.not_lt.mp hlt))

/-- `int_mul`: the product of two values of `T` fits in `U`, and the shift takes its floor. -/
theorem uqIntMul_map_val (ht : 0 < t) (hF : F ≤ t) (v m : Fin (2 ^ t)) (code : C) :
    Fin.val <$> uqIntMul t (2 * t) v m (maxValue t) F code = boundedSpec t (v * m / 2 ^ F) code := by
  have hwide := two_pow_lt_double ht
  unfold uqIntMul
  rw [cast_eq_ok (lt_trans v.isLt hwide), ok_bind, cast_eq_ok (lt_trans m.isLt hwide), ok_bind,
    mul_eq_ok (mul_lt_two_pow_double v.isLt m.isLt), ok_bind, shr_eq_ok (by omega), ok_bind]
  exact checkMax_map_val hwide _ code

theorem uqIntDiv_map_val (ht : 0 < t) (hF : F ≤ t) (v m : Fin (2 ^ t)) (a b : C) :
    Fin.val <$> uqIntDiv t (2 * t) v m (maxValue t) F a b =
      if (m : ℕ) = 0 then .error (.abort a) else boundedSpec t (v * 2 ^ F / m) b := by
  have hwide := two_pow_lt_double ht
  unfold uqIntDiv
  by_cases hm : (m : ℕ) = 0
  · rw [if_pos hm, if_pos hm, throw_bind]
    rfl
  rw [if_neg hm, if_neg hm, cast_eq_ok (lt_trans v.isLt hwide), ok_bind,
    shl_eq_ok (by omega) (mul_two_pow_lt_double v.isLt hF), ok_bind,
    cast_eq_ok (lt_trans m.isLt hwide), ok_bind, div_eq_ok (Nat.pos_of_ne_zero hm), ok_bind]
  exact checkMax_map_val hwide _ b

/-- `from_int` of an integer of half the width never loses a bit. -/
theorem uqFromInt_map_val {u : ℕ} (hF : F < u) (hfit : t + F ≤ u) (i : Fin (2 ^ t)) :
    (Fin.val <$> uqFromInt u i F : Except (Abort C) ℕ) = .ok (i * 2 ^ F) := by
  have hlt : (i : ℕ) * 2 ^ F < 2 ^ u :=
    lt_of_lt_of_le (Nat.mul_lt_mul_of_pos_right i.isLt (Nat.two_pow_pos F))
      (by rw [← Nat.pow_add]; exact Nat.pow_le_pow_right (by decide) hfit)
  have hi : (i : ℕ) < 2 ^ u := lt_of_le_of_lt (Nat.le_mul_of_pos_right _ (Nat.two_pow_pos F)) hlt
  unfold uqFromInt
  rw [cast_eq_ok hi, ok_bind]
  exact (shlFin_map_val F).trans (shl_eq_ok hF hlt)

/-- `to_int` keeps the integer bits, which always fit in `T`. -/
theorem uqToInt_map_val {u : ℕ} (hF : F < u) (hfit : u ≤ t + F) (a : Fin (2 ^ u)) :
    (Fin.val <$> uqToInt t a F : Except (Abort C) ℕ) = .ok (a / 2 ^ F) := by
  have hlt : (a : ℕ) / 2 ^ F < 2 ^ t := by
    rw [Nat.div_lt_iff_lt_mul (Nat.two_pow_pos F), ← Nat.pow_add]
    exact lt_of_lt_of_le a.isLt (Nat.pow_le_pow_right (by decide) hfit)
  unfold uqToInt
  rw [shr_eq_ok hF, ok_bind, castFin_eq_ok hlt]
  rfl

end Raw


/-! ### `std::uq64_64` -/

/-- `UQ64_64`: a `u128` with 64 fractional bits. -/
structure UQ64_64 where
  raw : Fin (2 ^ 128)
  deriving DecidableEq, Repr

namespace UQ64_64

/-- `TOTAL_BITS`. -/
def totalBits : ℕ := 128

/-- `FRACTIONAL_BITS`. -/
def fractionalBits : ℕ := 64

def fromQuotient (numerator denominator : Fin (2 ^ 128)) : Except (Abort UqError) UQ64_64 :=
  UQ64_64.mk <$> uqFromQuotient 128 256 numerator denominator (maxValue 128) totalBits fractionalBits
    .eDenominator .eQuotientTooSmall .eQuotientTooLarge

def fromInt (integer : Fin (2 ^ 64)) : Except (Abort UqError) UQ64_64 :=
  UQ64_64.mk <$> uqFromInt 128 integer fractionalBits

def add (a b : UQ64_64) : Except (Abort UqError) UQ64_64 :=
  UQ64_64.mk <$> uqAdd 128 256 a.raw b.raw (maxValue 128) .eOverflow

def sub (a b : UQ64_64) : Except (Abort UqError) UQ64_64 :=
  UQ64_64.mk <$> uqSub a.raw b.raw .eOverflow

def intMul (val : Fin (2 ^ 128)) (multiplier : UQ64_64) : Except (Abort UqError) (Fin (2 ^ 128)) :=
  uqIntMul 128 256 val multiplier.raw (maxValue 128) fractionalBits .eOverflow

def intDiv (val : Fin (2 ^ 128)) (divisor : UQ64_64) : Except (Abort UqError) (Fin (2 ^ 128)) :=
  uqIntDiv 128 256 val divisor.raw (maxValue 128) fractionalBits .eDivisionByZero .eOverflow

def mul (a b : UQ64_64) : Except (Abort UqError) UQ64_64 :=
  UQ64_64.mk <$> intMul a.raw b

def div (a b : UQ64_64) : Except (Abort UqError) UQ64_64 :=
  UQ64_64.mk <$> intDiv a.raw b

def toInt (a : UQ64_64) : Except (Abort UqError) (Fin (2 ^ 64)) :=
  uqToInt 64 a.raw fractionalBits

def le (a b : UQ64_64) : Bool := decide (a.raw ≤ b.raw)

def lt (a b : UQ64_64) : Bool := decide (a.raw < b.raw)

def ge (a b : UQ64_64) : Bool := decide (a.raw ≥ b.raw)

def gt (a b : UQ64_64) : Bool := decide (a.raw > b.raw)

def toRaw (a : UQ64_64) : Fin (2 ^ 128) := a.raw

def fromRaw (rawValue : Fin (2 ^ 128)) : UQ64_64 := ⟨rawValue⟩

/-- Reading the raw value back off a result built by the constructor. -/
theorem toRaw_map_mk {ε : Type} (x : Except ε (Fin (2 ^ 128))) :
    (fun q : UQ64_64 => (q.toRaw : ℕ)) <$> (UQ64_64.mk <$> x) = Fin.val <$> x := by
  cases x <;> rfl

/-- `from_int` and `to_int` are exact: a `u64` becomes the value with no fractional bits, and the
integer part of every value fits in a `u64`. -/
theorem toRaw_fromInt (integer : Fin (2 ^ 64)) :
    (fun q : UQ64_64 => (q.toRaw : ℕ)) <$> fromInt integer = .ok (integer * 2 ^ 64) := by
  rw [fromInt, toRaw_map_mk]
  exact uqFromInt_map_val (by decide) (by decide) integer

theorem toInt_eq (a : UQ64_64) : Fin.val <$> toInt a = .ok (a.toRaw / 2 ^ 64) :=
  uqToInt_map_val (by decide) (by decide) a.raw

end UQ64_64

/-! ### `std::uq32_32` -/

/-- `UQ32_32`: a `u64` with 32 fractional bits. -/
structure UQ32_32 where
  raw : Fin (2 ^ 64)
  deriving DecidableEq, Repr

namespace UQ32_32

/-- `TOTAL_BITS`. -/
def totalBits : ℕ := 64

/-- `FRACTIONAL_BITS`. -/
def fractionalBits : ℕ := 32

def fromQuotient (numerator denominator : Fin (2 ^ 64)) : Except (Abort UqError) UQ32_32 :=
  UQ32_32.mk <$> uqFromQuotient 64 128 numerator denominator (maxValue 64) totalBits fractionalBits
    .eDenominator .eQuotientTooSmall .eQuotientTooLarge

def fromInt (integer : Fin (2 ^ 32)) : Except (Abort UqError) UQ32_32 :=
  UQ32_32.mk <$> uqFromInt 64 integer fractionalBits

def add (a b : UQ32_32) : Except (Abort UqError) UQ32_32 :=
  UQ32_32.mk <$> uqAdd 64 128 a.raw b.raw (maxValue 64) .eOverflow

def sub (a b : UQ32_32) : Except (Abort UqError) UQ32_32 :=
  UQ32_32.mk <$> uqSub a.raw b.raw .eOverflow

def intMul (val : Fin (2 ^ 64)) (multiplier : UQ32_32) : Except (Abort UqError) (Fin (2 ^ 64)) :=
  uqIntMul 64 128 val multiplier.raw (maxValue 64) fractionalBits .eOverflow

def intDiv (val : Fin (2 ^ 64)) (divisor : UQ32_32) : Except (Abort UqError) (Fin (2 ^ 64)) :=
  uqIntDiv 64 128 val divisor.raw (maxValue 64) fractionalBits .eDivisionByZero .eOverflow

def mul (a b : UQ32_32) : Except (Abort UqError) UQ32_32 :=
  UQ32_32.mk <$> intMul a.raw b

def div (a b : UQ32_32) : Except (Abort UqError) UQ32_32 :=
  UQ32_32.mk <$> intDiv a.raw b

def toInt (a : UQ32_32) : Except (Abort UqError) (Fin (2 ^ 32)) :=
  uqToInt 32 a.raw fractionalBits

def le (a b : UQ32_32) : Bool := decide (a.raw ≤ b.raw)

def lt (a b : UQ32_32) : Bool := decide (a.raw < b.raw)

def ge (a b : UQ32_32) : Bool := decide (a.raw ≥ b.raw)

def gt (a b : UQ32_32) : Bool := decide (a.raw > b.raw)

def toRaw (a : UQ32_32) : Fin (2 ^ 64) := a.raw

def fromRaw (rawValue : Fin (2 ^ 64)) : UQ32_32 := ⟨rawValue⟩

theorem toRaw_map_mk {ε : Type} (x : Except ε (Fin (2 ^ 64))) :
    (fun q : UQ32_32 => (q.toRaw : ℕ)) <$> (UQ32_32.mk <$> x) = Fin.val <$> x := by
  cases x <;> rfl

theorem toRaw_fromInt (integer : Fin (2 ^ 32)) :
    (fun q : UQ32_32 => (q.toRaw : ℕ)) <$> fromInt integer = .ok (integer * 2 ^ 32) := by
  rw [fromInt, toRaw_map_mk]
  exact uqFromInt_map_val (by decide) (by decide) integer

theorem toInt_eq (a : UQ32_32) : Fin.val <$> toInt a = .ok (a.toRaw / 2 ^ 32) :=
  uqToInt_map_val (by decide) (by decide) a.raw

end UQ32_32


/-! ### Both modules -/

/-- Every arithmetic operation of `UQ64_64` and `UQ32_32` is floor arithmetic on raw values, and
aborts exactly with the module's code for the first check that fails. -/
theorem uq_raw_floor_arithmetic :
    (∀ n d : Fin (2 ^ 128), (fun q : UQ64_64 => (q.toRaw : ℕ)) <$> UQ64_64.fromQuotient n d =
      quotientSpec 128 64 n d .eDenominator .eQuotientTooSmall .eQuotientTooLarge) ∧
    (∀ (v : Fin (2 ^ 128)) (m : UQ64_64), Fin.val <$> UQ64_64.intMul v m =
      boundedSpec 128 ((v : ℕ) * m.toRaw / 2 ^ 64) .eOverflow) ∧
    (∀ (v : Fin (2 ^ 128)) (m : UQ64_64), Fin.val <$> UQ64_64.intDiv v m =
      if (m.toRaw : ℕ) = 0 then .error (.abort .eDivisionByZero)
      else boundedSpec 128 ((v : ℕ) * 2 ^ 64 / m.toRaw) .eOverflow) ∧
    (∀ a b : UQ64_64, (fun q : UQ64_64 => (q.toRaw : ℕ)) <$> UQ64_64.mul a b =
      boundedSpec 128 ((a.toRaw : ℕ) * b.toRaw / 2 ^ 64) .eOverflow) ∧
    (∀ a b : UQ64_64, (fun q : UQ64_64 => (q.toRaw : ℕ)) <$> UQ64_64.div a b =
      if (b.toRaw : ℕ) = 0 then .error (.abort .eDivisionByZero)
      else boundedSpec 128 ((a.toRaw : ℕ) * 2 ^ 64 / b.toRaw) .eOverflow) ∧
    (∀ a b : UQ64_64, (fun q : UQ64_64 => (q.toRaw : ℕ)) <$> UQ64_64.add a b =
      boundedSpec 128 ((a.toRaw : ℕ) + b.toRaw) .eOverflow) ∧
    (∀ a b : UQ64_64, (fun q : UQ64_64 => (q.toRaw : ℕ)) <$> UQ64_64.sub a b =
      if (a.toRaw : ℕ) < b.toRaw then .error (.abort .eOverflow) else .ok ((a.toRaw : ℕ) - b.toRaw)) ∧
    (∀ n d : Fin (2 ^ 64), (fun q : UQ32_32 => (q.toRaw : ℕ)) <$> UQ32_32.fromQuotient n d =
      quotientSpec 64 32 n d .eDenominator .eQuotientTooSmall .eQuotientTooLarge) ∧
    (∀ (v : Fin (2 ^ 64)) (m : UQ32_32), Fin.val <$> UQ32_32.intMul v m =
      boundedSpec 64 ((v : ℕ) * m.toRaw / 2 ^ 32) .eOverflow) ∧
    (∀ (v : Fin (2 ^ 64)) (m : UQ32_32), Fin.val <$> UQ32_32.intDiv v m =
      if (m.toRaw : ℕ) = 0 then .error (.abort .eDivisionByZero)
      else boundedSpec 64 ((v : ℕ) * 2 ^ 32 / m.toRaw) .eOverflow) ∧
    (∀ a b : UQ32_32, (fun q : UQ32_32 => (q.toRaw : ℕ)) <$> UQ32_32.mul a b =
      boundedSpec 64 ((a.toRaw : ℕ) * b.toRaw / 2 ^ 32) .eOverflow) ∧
    (∀ a b : UQ32_32, (fun q : UQ32_32 => (q.toRaw : ℕ)) <$> UQ32_32.div a b =
      if (b.toRaw : ℕ) = 0 then .error (.abort .eDivisionByZero)
      else boundedSpec 64 ((a.toRaw : ℕ) * 2 ^ 32 / b.toRaw) .eOverflow) ∧
    (∀ a b : UQ32_32, (fun q : UQ32_32 => (q.toRaw : ℕ)) <$> UQ32_32.add a b =
      boundedSpec 64 ((a.toRaw : ℕ) + b.toRaw) .eOverflow) ∧
    (∀ a b : UQ32_32, (fun q : UQ32_32 => (q.toRaw : ℕ)) <$> UQ32_32.sub a b =
      if (a.toRaw : ℕ) < b.toRaw then .error (.abort .eOverflow) else .ok ((a.toRaw : ℕ) - b.toRaw)) := by
  -- each operation is its macro at `t = 128, F = 64` or `t = 64, F = 32`; the wrappers only
  -- put the raw value back in the structure
  refine ⟨fun n d => ?_, fun v m => ?_, fun v m => ?_, fun a b => ?_, fun a b => ?_, fun a b => ?_,
    fun a b => ?_, fun n d => ?_, fun v m => ?_, fun v m => ?_, fun a b => ?_, fun a b => ?_,
    fun a b => ?_, fun a b => ?_⟩
  · rw [UQ64_64.fromQuotient, UQ64_64.toRaw_map_mk]
    exact uqFromQuotient_map_val (by decide) (by decide) n d _ _ _
  · exact uqIntMul_map_val (by decide) (by decide) v m.raw _
  · exact uqIntDiv_map_val (by decide) (by decide) v m.raw _ _
  · rw [UQ64_64.mul, UQ64_64.toRaw_map_mk]
    exact uqIntMul_map_val (by decide) (by decide) a.raw b.raw _
  · rw [UQ64_64.div, UQ64_64.toRaw_map_mk]
    exact uqIntDiv_map_val (by decide) (by decide) a.raw b.raw _ _
  · rw [UQ64_64.add, UQ64_64.toRaw_map_mk]
    exact uqAdd_map_val (by decide) a.raw b.raw _
  · rw [UQ64_64.sub, UQ64_64.toRaw_map_mk]
    exact uqSub_map_val a.raw b.raw _
  · rw [UQ32_32.fromQuotient, UQ32_32.toRaw_map_mk]
    exact uqFromQuotient_map_val (by decide) (by decide) n d _ _ _
  · exact uqIntMul_map_val (by decide) (by decide) v m.raw _
  · exact uqIntDiv_map_val (by decide) (by decide) v m.raw _ _
  · rw [UQ32_32.mul, UQ32_32.toRaw_map_mk]
    exact uqIntMul_map_val (by decide) (by decide) a.raw b.raw _
  · rw [UQ32_32.div, UQ32_32.toRaw_map_mk]
    exact uqIntDiv_map_val (by decide) (by decide) a.raw b.raw _ _
  · rw [UQ32_32.add, UQ32_32.toRaw_map_mk]
    exact uqAdd_map_val (by decide) a.raw b.raw _
  · rw [UQ32_32.sub, UQ32_32.toRaw_map_mk]
    exact uqSub_map_val a.raw b.raw _

/-- One third in `UQ64_64` is the floor of `2 ^ 64 / 3` on the raw scale, and
a zero denominator aborts. -/
theorem uq_raw_floor_arithmetic_third :
    (fun q : UQ64_64 => (q.toRaw : ℕ)) <$> UQ64_64.fromQuotient 1 3 = .ok (2 ^ 64 / 3) ∧
      (fun q : UQ64_64 => (q.toRaw : ℕ)) <$> UQ64_64.fromQuotient 1 0 =
        .error (.abort .eDenominator) := by
  have h₀ : ((0 : Fin (2 ^ 128)) : ℕ) = 0 := rfl
  have h₁ : ((1 : Fin (2 ^ 128)) : ℕ) = 1 := rfl
  have h₃ : ((3 : Fin (2 ^ 128)) : ℕ) = 3 := rfl
  rw [uq_raw_floor_arithmetic.1, uq_raw_floor_arithmetic.1, quotientSpec, quotientSpec,
    boundedSpec, h₀, h₁, h₃, Nat.one_mul, if_pos rfl]
  refine ⟨?_, rfl⟩
  rw [if_neg (by decide), if_neg (by decide), if_neg (by decide)]

end MoveStd

end Sui
