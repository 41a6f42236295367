import Mathlib.Algebra.BigOperators.Group.Finset.Basic
import Mathlib.Algebra.Order.Group.Nat
import Mathlib.Algebra.GroupWithZero.Nat

/-!
# Drawing a fund down by a decaying schedule

A fund of `budget` units pays out, at each step `k`, what a schedule asks for
(`demand k`), or what is left if that is less. Step `k` then pays
`payout demand budget k`, and the payouts of the first `n` steps add up to the
schedule's total capped at the budget (`sum_payouts`): the fund is never
overdrawn, and it pays the whole schedule for as long as it lasts.

A schedule that decays once every `period` steps asks for `f^[k / period] a`
at step `k` (`periodic`). Code that keeps the current amount and applies `f`
each time a step counter reaches a multiple of the period computes exactly
this closed form (`periodic_succ`), and when `f` never increases its argument
the schedule never increases (`periodic_antitone`).
-/

namespace Drawdown

section Payouts

variable (demand : ℕ → ℕ) (budget : ℕ)

/-- What step `k` pays: its demand, capped at what the earlier steps left. -/
def payout (k : ℕ) : ℕ :=
  min (demand k) (budget - min budget (∑ j ∈ Finset.range k, demand j))

/-- The fund after the first `k` steps holds the budget less what they were
asked for, or nothing. -/
theorem payout_add_min (k : ℕ) :
    min budget (∑ j ∈ Finset.range k, demand j) + payout demand budget k =
      min budget (∑ j ∈ Finset.range (k + 1), demand j) := by
  rw [payout, Finset.sum_range_succ]
  omega

theorem sum_payouts (n : ℕ) :
    ((List.range n).map (payout demand budget)).sum =
      min budget (∑ k ∈ Finset.range n, demand k) := by
  induction n with
  | zero =>
    simp only [List.range_zero, List.map_nil, List.sum_nil, Finset.range_zero, Finset.sum_empty,
      Nat.min_zero]
  | succ n ih =>
    rw [List.range_succ, List.map_append, List.sum_append, ih, List.map_singleton,
      List.sum_singleton, payout_add_min]

end Payouts

section Periodic

variable {α : Type} (f : α → α) (period : ℕ) (a : α)

/-- The schedule that starts at `a` and applies `f` once every `period` steps. -/
def periodic (k : ℕ) : α :=
  f^[k / period] a

/-- One step of the schedule: `f` is applied when the step count reaches a
multiple of the period. -/
theorem periodic_succ (k : ℕ) :
    periodic f period a (k + 1) =
      if (k + 1) % period = 0 then f (periodic f period a k) else periodic f period a k := by
  unfold periodic
  by_cases hdvd : period ∣ k + 1
  · rw [if_pos (Nat.dvd_iff_mod_eq_zero.mp hdvd), Nat.succ_div_of_dvd hdvd,
      Function.iterate_succ_apply']
  · rw [if_neg (mt Nat.dvd_iff_mod_eq_zero.mpr hdvd), Nat.succ_div_of_not_dvd hdvd]

@[simp] theorem periodic_zero : periodic f period a 0 = a := by
  simp [periodic]

/-- A schedule of a map that never increases its argument never increases. -/
theorem periodic_antitone (f : ℕ → ℕ) (hf : ∀ x, f x ≤ x) (period a : ℕ) :
    Antitone (periodic f period a) := by
  apply antitone_nat_of_succ_le
  intro k
  rw [periodic_succ]
  split
  · exact hf _
  · exact le_rfl

end Periodic

end Drawdown
