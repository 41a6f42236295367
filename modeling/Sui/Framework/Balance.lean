import Sui.MoveArith

/-!
# Balances (`balance.move`)

A `Balance<T>` is a value of type `u64`. The operations that change one are
modelled on that value: `join` adds a balance into another with Move's
checked addition, and `split` takes a part out, asserting there is enough.
The code of the assertion is given by the caller, as the name its module gives
to balance::ENotEnough, so that every module can raise it among its own codes.

`split_eq_ok`, `join_eq_ok` and the inversion lemmas `eq_of_split_eq_ok`,
`eq_of_join_eq_ok` are all that the callers use.

A `Supply<T>` counts the value of every balance of type `T` issued and not yet
destroyed: `increase_supply` issues a balance and `decrease_supply` destroys
one, with the abort codes of balance. Each returns exactly when its
arithmetic stays within `u64` (`increaseSupply_eq_ok`, `increaseSupply_eq_error`,
`decreaseSupply_eq_ok`).
-/

namespace Sui.Balance

open MoveArith

/-- The abort codes of balance. -/
inductive Code where
  /-- ENonZero -/
  | eNonZero
  /-- EOverflow -/
  | eOverflow
  /-- ENotEnough -/
  | eNotEnough
  deriving DecidableEq, Repr

/-- balance::increase_supply: the supply once a balance of `value` is issued. -/
def increaseSupply (self value : ℕ) : Except (Abort Code) ℕ := do
  let room ← sub (2 ^ 64 - 1) self
  assert (value ≤ room) .eOverflow
  add 64 self value

/-- balance::decrease_supply: the supply once a balance of `value` is destroyed. -/
def decreaseSupply (self value : ℕ) : Except (Abort Code) ℕ := do
  assert (self ≥ value) .eOverflow
  sub self value

/-- balance::destroy_zero -/
def destroyZero (value : ℕ) : Except (Abort Code) Unit :=
  assert (value = 0) .eNonZero

section Supply

variable {self value : ℕ}

theorem increaseSupply_eq_ok (h : self + value < 2 ^ 64) :
    increaseSupply self value = .ok (self + value) := by
  rw [increaseSupply, sub_eq_ok (by omega), ok_bind, assert_eq_ok (by omega), ok_bind,
    add_eq_ok h]

/-- Past `u64::MAX` the issue aborts with EOverflow, before the addition is made. -/
theorem increaseSupply_eq_error (hself : self < 2 ^ 64) (h : 2 ^ 64 ≤ self + value) :
    increaseSupply self value = .error (.abort .eOverflow) := by
  rw [increaseSupply, sub_eq_ok (by omega), ok_bind]
  simp only [assert, if_neg (show ¬value ≤ 2 ^ 64 - 1 - self by omega)]
  rfl

theorem decreaseSupply_eq_ok (h : value ≤ self) :
    decreaseSupply self value = .ok (self - value) := by
  rw [decreaseSupply, assert_eq_ok h, ok_bind, sub_eq_ok h]

theorem destroyZero_eq_error (h : value ≠ 0) :
    destroyZero value = .error (.abort .eNonZero) := by
  simp only [destroyZero, assert, if_neg h]

end Supply

variable {C : Type}

/-- balance::split: the value left in `self` when `value` is taken out of it;
the balance split off holds `value`. -/
def split (eNotEnough : C) (self value : ℕ) : Except (Abort C) ℕ := do
  assert (value ≤ self) eNotEnough
  sub self value

/-- balance::join: the value of `self` once a balance of `value` is joined into it. -/
def join (self value : ℕ) : Except (Abort C) ℕ :=
  add 64 self value

/-- balance::withdraw_all: the whole value is split off, and `self` is left empty. -/
def withdrawAll (eNotEnough : C) (self : ℕ) : Except (Abort C) ℕ :=
  split eNotEnough self self

variable {e : C} {self value r : ℕ}

theorem split_eq_ok (h : value ≤ self) : split e self value = .ok (self - value) := by
  simp only [split, assert_eq_ok h, ok_bind, sub_eq_ok h]

theorem split_eq_error (h : self < value) : split e self value = .error (.abort e) := by
  simp only [split, assert, if_neg (not_le.mpr h)]
  rfl

theorem eq_of_split_eq_ok (h : split e self value = .ok r) : r = self - value ∧ value ≤ self := by
  by_cases hle : value ≤ self
  · rw [split_eq_ok hle] at h
    exact ⟨(Except.ok.inj h).symm, hle⟩
  · rw [split_eq_error (not_le.mp hle)] at h
    cases h

theorem withdrawAll_eq_ok : withdrawAll e self = .ok 0 := by
  rw [withdrawAll, split_eq_ok le_rfl, Nat.sub_self]

theorem join_eq_ok (h : self + value < 2 ^ 64) : (join self value : Except (Abort C) ℕ) = .ok (self + value) :=
  add_eq_ok h

theorem eq_of_join_eq_ok (h : (join self value : Except (Abort C) ℕ) = .ok r) :
    r = self + value ∧ self + value < 2 ^ 64 :=
  eq_of_add_eq_ok h

end Sui.Balance
