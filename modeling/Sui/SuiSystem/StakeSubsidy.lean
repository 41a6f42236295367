import Sui.Drawdown
import Sui.ProRata
import Sui.Framework.Balance

set_option linter.dupNamespace false

/-!
# Stake subsidy (`stake_subsidy.move`)

A model of the fund that tops up the validators' rewards at each epoch change.
The subsidy holds a balance and draws `current_distribution_amount` from it
at every advance_epoch, or the whole balance when less is left; every
`stake_subsidy_period_length` distributions, the amount shrinks by
`stake_subsidy_decrease_rate` basis points of itself, rounded down (`decay`).
create checks that the rate is at most 100% and takes the rest as given.

The code keeps the current amount and a distribution counter, and decreases
the amount each time the counter reaches a multiple of the period. What this
computes is the closed schedule of `Drawdown`: distribution `k` asks for
`scheduledAmount rate period amount k`, the amount decayed once per full
period before it, and pays that or what the balance has left.

**Main results.**

* `advanceEpoch_eq_ok`: from a state whose rate is at most 100%, whose period
  is positive and whose counter can still be incremented, advance_epoch
  returns `currentEpochSubsidyAmount` and the state `distribute` describes; the
  checked arithmetic of the decrease cannot abort there;
* `stakeSubsidy_follows_schedule`: every run of `n` epochs from create
  returns, pays out the schedule's distributions capped at the initial
  balance, and leaves the counter at `n` and the amount at the schedule's
  amount for distribution `n`.
-/

namespace Sui.StakeSubsidy

open MoveArith

/-- The abort codes the modelled functions can raise. -/
inductive Code where
  /-- stake_subsidy::ESubsidyDecreaseRateTooLarge -/
  | eSubsidyDecreaseRateTooLarge
  /-- balance::ENotEnough -/
  | eNotEnough
  deriving DecidableEq, Repr

/-- BASIS_POINT_DENOMINATOR -/
def basisPointDenominator : ℕ := 10000

/-- StakeSubsidy, without its bag of extra fields, which no modelled function reads. -/
structure StakeSubsidy where
  /-- value of the balance set aside for the subsidies -/
  balance : ℕ
  /-- number of distributions so far -/
  distributionCounter : ℕ
  /-- amount drawn per distribution -/
  currentDistributionAmount : ℕ
  /-- distributions per period -/
  stakeSubsidyPeriodLength : ℕ
  /-- decrease at the end of each period, in basis points -/
  stakeSubsidyDecreaseRate : ℕ
  deriving DecidableEq, Repr

/-- stake_subsidy::create -/
def create (balance initialDistributionAmount stakeSubsidyPeriodLength
    stakeSubsidyDecreaseRate : ℕ) : Except (Abort Code) StakeSubsidy := do
  assert (stakeSubsidyDecreaseRate ≤ basisPointDenominator) .eSubsidyDecreaseRateTooLarge
  pure ⟨balance, 0, initialDistributionAmount, stakeSubsidyPeriodLength, stakeSubsidyDecreaseRate⟩

/-- stake_subsidy::advance_epoch: the subsidy drawn and the new state. The
decrease is computed in u128 and cast back to u64, as the source does. -/
def advanceEpoch (self : StakeSubsidy) : Except (Abort Code) (ℕ × StakeSubsidy) := do
  let toWithdraw := min self.currentDistributionAmount self.balance
  let balance ← Balance.split .eNotEnough self.balance toWithdraw
  let distributionCounter ← add 64 self.distributionCounter 1
  let periodPosition ← mod distributionCounter self.stakeSubsidyPeriodLength
  if periodPosition = 0 then
    let product ← mul 128 self.currentDistributionAmount self.stakeSubsidyDecreaseRate
    let decreaseAmount ← div product basisPointDenominator
    let decreaseAmount ← cast 64 decreaseAmount
    let currentDistributionAmount ← sub self.currentDistributionAmount decreaseAmount
    pure (toWithdraw, { self with balance, distributionCounter, currentDistributionAmount })
  else
    pure (toWithdraw, { self with balance, distributionCounter })

/-- stake_subsidy::current_epoch_subsidy_amount -/
def currentEpochSubsidyAmount (self : StakeSubsidy) : ℕ :=
  min self.currentDistributionAmount self.balance

/-- stake_subsidy::get_distribution_counter -/
def getDistributionCounter (self : StakeSubsidy) : ℕ :=
  self.distributionCounter

/-- advance_epoch at `n` epoch changes in a row: the subsidies drawn, in order,
and the state they leave. -/
def advanceEpochs : ℕ → StakeSubsidy → Except (Abort Code) (List ℕ × StakeSubsidy)
  | 0, self => .ok ([], self)
  | n + 1, self => do
    let step ← advanceEpoch self
    let rest ← advanceEpochs n step.2
    pure (step.1 :: rest.1, rest.2)

/-! ## The schedule -/

/-- The amount after a period ends: less the rate's share of it, rounded down. -/
def decay (rate amount : ℕ) : ℕ :=
  amount - amount * rate / basisPointDenominator

/-- The amount of distribution `k` of a subsidy created with `amount`: decayed
once for each full period before it. -/
def scheduledAmount (rate period amount : ℕ) : ℕ → ℕ :=
  Drawdown.periodic (decay rate) period amount

theorem decay_le (rate amount : ℕ) : decay rate amount ≤ amount :=
  Nat.sub_le _ _

theorem scheduledAmount_le (rate period amount k : ℕ) : scheduledAmount rate period amount k ≤ amount := by
  have h := Drawdown.periodic_antitone (decay rate) (decay_le rate) period amount (Nat.zero_le k)
  rwa [Drawdown.periodic_zero] at h

/-- The state that one distribution leads to: the subsidy of the epoch taken
out of the balance, the counter incremented, and the amount decayed when the
counter reaches the end of a period. -/
def distribute (self : StakeSubsidy) : StakeSubsidy :=
  { self with
    balance := self.balance - currentEpochSubsidyAmount self
    distributionCounter := self.distributionCounter + 1
    currentDistributionAmount :=
      if (self.distributionCounter + 1) % self.stakeSubsidyPeriodLength = 0 then
        decay self.stakeSubsidyDecreaseRate self.currentDistributionAmount
      else self.currentDistributionAmount }

/-- What every state made by create keeps: the checked rate, and an amount
that fits in u64. -/
structure Valid (s : StakeSubsidy) : Prop where
  rate_le : s.stakeSubsidyDecreaseRate ≤ basisPointDenominator
  amount_lt : s.currentDistributionAmount < 2 ^ 64

/-! ## One epoch -/

section Step

variable {self : StakeSubsidy}

/-- The decrease computed in u128 is cast back to u64 and subtracted without
aborting: it is at most the amount. -/
theorem decrease_bind_eq {α : Type} (hv : Valid self) (f : ℕ → Except (Abort Code) α) :
    (do
      let product ← mul 128 self.currentDistributionAmount self.stakeSubsidyDecreaseRate
      let decreaseAmount ← div product basisPointDenominator
      let decreaseAmount ← cast 64 decreaseAmount
      let currentDistributionAmount ← sub self.currentDistributionAmount decreaseAmount
      f currentDistributionAmount) =
      f (decay self.stakeSubsidyDecreaseRate self.currentDistributionAmount) := by
  have hrate : self.stakeSubsidyDecreaseRate < 2 ^ 64 :=
    lt_of_le_of_lt hv.rate_le (by decide)
  have hle : self.currentDistributionAmount * self.stakeSubsidyDecreaseRate / basisPointDenominator ≤
      self.currentDistributionAmount := by
    rw [Nat.mul_comm]
    exact ProRata.mul_div_le_of_le _ hv.rate_le
  rw [mul_eq_ok (mul_lt_two_pow_double hv.amount_lt hrate), ok_bind,
    div_eq_ok (by decide), ok_bind,
    cast_eq_ok (lt_of_le_of_lt hle hv.amount_lt), ok_bind, sub_eq_ok hle, ok_bind]
  rfl

/-- The subsidy of the epoch is at most the balance, so splitting it off returns. -/
theorem split_toWithdraw :
    (Balance.split .eNotEnough self.balance (min self.currentDistributionAmount self.balance) :
      Except (Abort Code) ℕ) = .ok (self.balance - currentEpochSubsidyAmount self) :=
  Balance.split_eq_ok (min_le_right _ _)

/-- With a positive period and a counter below the `u64` bound, advance_epoch
returns this epoch's subsidy and leaves the state `distribute` computes: the
amount decays by the rate at the end of each period. -/
theorem advanceEpoch_eq_ok (hv : Valid self) (hp : 0 < self.stakeSubsidyPeriodLength)
    (hc : self.distributionCounter + 1 < 2 ^ 64) :
    advanceEpoch self = .ok (currentEpochSubsidyAmount self, distribute self) := by
  simp only [advanceEpoch, split_toWithdraw, ok_bind, add_eq_ok hc, mod_eq_ok hp]
  -- the amount changes only at the end of a period
  by_cases hend : (self.distributionCounter + 1) % self.stakeSubsidyPeriodLength = 0
  · rw [if_pos hend, decrease_bind_eq hv]
    simp only [distribute, if_pos hend]
    rfl
  · simp only [distribute, if_neg hend]
    rfl

/-- Whenever advance_epoch returns, the subsidy it returns came out of the balance. -/
theorem balance_of_advanceEpoch_eq_ok {subsidy : ℕ} {self' : StakeSubsidy}
    (h : advanceEpoch self = .ok (subsidy, self')) : self'.balance + subsidy = self.balance := by
  simp only [advanceEpoch, split_toWithdraw, ok_bind, bind_eq_ok] at h
  obtain ⟨_, -, _, -, h⟩ := h
  have hle : currentEpochSubsidyAmount self ≤ self.balance := min_le_right _ _
  -- both branches keep the balance the split left
  split at h
  · simp only [bind_eq_ok] at h
    obtain ⟨_, -, _, -, _, -, _, -, h⟩ := h
    obtain ⟨rfl, rfl⟩ := Prod.mk.inj (Except.ok.inj h).symm
    exact Nat.sub_add_cancel hle
  · obtain ⟨rfl, rfl⟩ := Prod.mk.inj (Except.ok.inj h).symm
    exact Nat.sub_add_cancel hle

end Step

/-! ## Runs from create -/

section Run

variable (balance amount period rate : ℕ)

/-- The state `k` distributions after create: the balance less the first `k`
scheduled amounts, capped at the balance, the counter at `k`, and the amount
of distribution `k`. -/
def scheduledState (k : ℕ) : StakeSubsidy :=
  ⟨balance - min balance (∑ j ∈ Finset.range k, scheduledAmount rate period amount j), k,
    scheduledAmount rate period amount k, period, rate⟩

theorem create_eq_ok (hr : rate ≤ basisPointDenominator) :
    create balance amount period rate = .ok (scheduledState balance amount period rate 0) := by
  simp [create, assert_eq_ok hr, scheduledState, scheduledAmount]

theorem valid_scheduledState (hr : rate ≤ basisPointDenominator) (hA : amount < 2 ^ 64) (k : ℕ) :
    Valid (scheduledState balance amount period rate k) where
  rate_le := hr
  amount_lt := lt_of_le_of_lt (scheduledAmount_le rate period amount k) hA

/-- Distribution `k` draws what the capped schedule pays at step `k`. -/
theorem currentEpochSubsidyAmount_scheduledState (k : ℕ) :
    currentEpochSubsidyAmount (scheduledState balance amount period rate k) =
      Drawdown.payout (scheduledAmount rate period amount) balance k := by
  simp only [currentEpochSubsidyAmount, scheduledState, Drawdown.payout]

/-- One distribution takes the closed form at `k` to the closed form at `k + 1`. -/
theorem distribute_scheduledState (k : ℕ) :
    distribute (scheduledState balance amount period rate k) =
      scheduledState balance amount period rate (k + 1) := by
  have hpaid := Drawdown.payout_add_min (scheduledAmount rate period amount) balance k
  rw [← currentEpochSubsidyAmount_scheduledState] at hpaid
  have hamount : scheduledAmount rate period amount (k + 1) =
      if (k + 1) % period = 0 then decay rate (scheduledAmount rate period amount k)
      else scheduledAmount rate period amount k :=
    Drawdown.periodic_succ (decay rate) period amount k
  simp only [distribute, scheduledState, currentEpochSubsidyAmount] at hpaid ⊢
  simp only [hamount, StakeSubsidy.mk.injEq, and_true]
  -- the balance: the payout of step k moves the cap from k to k + 1
  refine ⟨?_, trivial, rfl⟩
  omega

/-- The run lemma: from the state `k` distributions after create, `n` more
epochs pay the capped schedule's distributions `k` to `k + n - 1`. -/
theorem advanceEpochs_scheduledState (hr : rate ≤ basisPointDenominator) (hA : amount < 2 ^ 64)
    (hp : 0 < period) :
    ∀ n k, k + n < 2 ^ 64 →
      advanceEpochs n (scheduledState balance amount period rate k) =
        .ok ((List.range' k n).map (Drawdown.payout (scheduledAmount rate period amount) balance),
          scheduledState balance amount period rate (k + n))
  | 0, k, _ => rfl
  | n + 1, k, hkn => by
    have hstep := advanceEpoch_eq_ok (valid_scheduledState balance amount period rate hr hA k) hp
      (show k + 1 < 2 ^ 64 by omega)
    rw [distribute_scheduledState, currentEpochSubsidyAmount_scheduledState] at hstep
    have hrest := advanceEpochs_scheduledState hr hA hp n (k + 1) (by omega)
    simp only [advanceEpochs, hstep, ok_bind, hrest, List.range'_succ, List.map_cons,
      Nat.add_right_comm k 1 n]
    rfl

end Run

/-- Every run of `n` epochs from create returns, and pays out exactly the
capped schedule: distribution `k` draws the amount decayed once per full period
before it, or what the balance has left; the draws add up to the schedule's
total capped at the initial balance, what is left in the balance is the rest,
and the counter and the amount are those of distribution `n`. -/
theorem stakeSubsidy_follows_schedule (balance amount period rate n : ℕ)
    (hr : rate ≤ basisPointDenominator) (hA : amount < 2 ^ 64) (hp : 0 < period)
    (hn : n < 2 ^ 64) :
    ∃ s draws s', create balance amount period rate = .ok s ∧ advanceEpochs n s = .ok (draws, s') ∧
      draws = (List.range n).map (Drawdown.payout (scheduledAmount rate period amount) balance) ∧
      draws.sum = min balance (∑ k ∈ Finset.range n, scheduledAmount rate period amount k) ∧
      s'.balance = balance - draws.sum ∧ s'.distributionCounter = n ∧
      s'.currentDistributionAmount = scheduledAmount rate period amount n := by
  have hrun := advanceEpochs_scheduledState balance amount period rate hr hA hp n 0 (by omega)
  rw [← List.range_eq_range', Nat.zero_add] at hrun
  have hsum := Drawdown.sum_payouts (scheduledAmount rate period amount) balance n
  refine ⟨_, _, _, create_eq_ok balance amount period rate hr, hrun, rfl, hsum, ?_, rfl, rfl⟩
  rw [hsum]
  rfl

theorem stakeSubsidy_follows_schedule_five :
    (2500 : ℕ) ≤ basisPointDenominator ∧ (30 : ℕ) < 2 ^ 64 ∧ 0 < 2 ∧ (5 : ℕ) < 2 ^ 64 ∧
    ∃ s draws s', create 80 30 2 2500 = .ok s ∧ advanceEpochs 5 s = .ok (draws, s') ∧
      draws = (List.range 5).map (Drawdown.payout (scheduledAmount 2500 2 30) 80) ∧
      draws.sum = min 80 (∑ k ∈ Finset.range 5, scheduledAmount 2500 2 30 k) ∧
      s'.balance = 80 - draws.sum ∧ s'.distributionCounter = 5 ∧
      s'.currentDistributionAmount = scheduledAmount 2500 2 30 5 :=
  ⟨by decide, by decide, by decide, by decide,
    stakeSubsidy_follows_schedule 80 30 2 2500 5 (by decide) (by decide) (by decide) (by decide)⟩

example : advanceEpochs 5 ⟨80, 0, 30, 2, 2500⟩ = .ok ([30, 30, 20, 0, 0], ⟨0, 5, 18, 2, 2500⟩) := by
  decide

end Sui.StakeSubsidy
