import Sui.SuiSystem.EpochRewards
import Sui.SuiSystem.StakeSubsidy
import Sui.SuiSystem.StorageFund

/-!
# Epoch change (`sui_system_state_inner.move`)

SuiSystemStateInnerV2::advance_epoch moves the SUI of an epoch change. It
takes in the gas summary of the epoch (the storage charge, the computation
charge, the storage rebate already refunded to the senders and the
non-refundable storage fee) together with what safe mode accumulated, draws
the stake subsidy, splits the computation reward between the storage fund and
the validators, distributes the validators' rewards, and lets the storage fund
take in the storage charge, the reinvestment and the leftovers and give back
the rebate, which is burnt.

The model carries the fields of the system state that this path reads and
writes. The validator set takes part through what advance_epoch reads of it
(`ValidatorSetView`); of ValidatorSet::advance_epoch the model runs the reward
distribution (`EpochRewards.distributeEpochRewards`) and returns the payouts
where the source deposits them into the staking pools.

**Main results.**

* `drawStakeSubsidy_eq`: the stake subsidy of an epoch change is a run of the
  subsidy's own advance_epoch, its draws summed: no distribution before the
  start epoch or after a short epoch, one otherwise, and old_epoch - 560 more
  when the catch-up after the safe mode of epoch 560 applies;
* `advanceEpoch_conserves`: whenever advance_epoch returns, the storage fund,
  the subsidy fund, the payouts and the rebate given back hold exactly what the
  two funds held and the epoch's charges, safe mode's included; the rebate
  given back is the epoch's and safe mode's, and the epoch is the one asked.
-/

namespace Sui.SuiSystemState

open MoveArith

/-- The abort codes of advance_epoch: its own, and those of the modules it calls. -/
inductive Code where
  /-- sui_system_state_inner::EBpsTooLarge -/
  | eBpsTooLarge
  /-- sui_system_state_inner::ESafeModeGasNotProcessed -/
  | eSafeModeGasNotProcessed
  /-- sui_system_state_inner::EAdvancedToWrongEpoch -/
  | eAdvancedToWrongEpoch
  /-- raised by stake_subsidy -/
  | stakeSubsidy (code : StakeSubsidy.Code)
  /-- raised by storage_fund -/
  | storageFund (code : StorageFund.Code)
  /-- raised by the reward path -/
  | epochRewards (code : EpochRewards.Code)
  deriving DecidableEq, Repr

/-- The fields of SuiSystemStateInnerV2 that advance_epoch reads and writes,
the validator set and the reference gas price apart. -/
structure SuiSystemStateInnerV2 where
  epoch : ℕ
  protocolVersion : ℕ
  storageFund : StorageFund.StorageFund
  /-- parameters.epoch_duration_ms -/
  epochDurationMs : ℕ
  /-- parameters.stake_subsidy_start_epoch -/
  stakeSubsidyStartEpoch : ℕ
  stakeSubsidy : StakeSubsidy.StakeSubsidy
  safeMode : Bool
  safeModeStorageRewards : ℕ
  safeModeComputationRewards : ℕ
  safeModeStorageRebates : ℕ
  safeModeNonRefundableStorageFee : ℕ
  epochStartTimestampMs : ℕ
  deriving DecidableEq, Repr

/-- What advance_epoch reads of the validator set: the active validators'
voting powers and commission rates, their total stake, and the validators
slashed for this epoch, by their indices. -/
structure ValidatorSetView where
  activeValidators : List EpochRewards.Validator
  totalStake : ℕ
  slashedValidatorIndices : List ℕ
  deriving DecidableEq, Repr

/-- The arguments of advance_epoch, the balances given by their values. -/
structure EpochChange where
  newEpoch : ℕ
  nextProtocolVersion : ℕ
  storageReward : ℕ
  computationReward : ℕ
  storageRebateAmount : ℕ
  nonRefundableStorageFeeAmount : ℕ
  storageFundReinvestRate : ℕ
  rewardSlashingRate : ℕ
  epochStartTimestampMs : ℕ
  accumulatorStorageFundAmount : ℕ
  deriving DecidableEq, Repr

/-- `count` distributions of the stake subsidy in a row, each joined to
`total`: the loop `safe_mode_epoch_count.do!` of advance_epoch. -/
def drawDistributions : ℕ → ℕ → StakeSubsidy.StakeSubsidy →
    Except (Abort Code) (ℕ × StakeSubsidy.StakeSubsidy)
  | 0, total, stakeSubsidy => .ok (total, stakeSubsidy)
  | count + 1, total, stakeSubsidy => do
    let step ← (StakeSubsidy.advanceEpoch stakeSubsidy).mapError (Abort.map .stakeSubsidy)
    let total ← Balance.join total step.1
    drawDistributions count total step.2

/-- The stake subsidy of an epoch change, and the subsidy fund it leaves. Move's
`&&` evaluates its right operand, with its addition, only when the left one
holds. -/
def drawStakeSubsidy (stakeSubsidy : StakeSubsidy.StakeSubsidy) (oldEpoch stakeSubsidyStartEpoch
    prevEpochStartTimestamp epochDurationMs epochStartTimestampMs : ℕ) :
    Except (Abort Code) (ℕ × StakeSubsidy.StakeSubsidy) :=
  if oldEpoch ≥ stakeSubsidyStartEpoch then do
    let epochEnd ← add 64 prevEpochStartTimestamp epochDurationMs
    if epochStartTimestampMs ≥ epochEnd then do
      -- the catch-up for the epochs from 560 on, when safe mode skipped the subsidy
      let caughtUp ← if StakeSubsidy.getDistributionCounter stakeSubsidy = 540 ∧ oldEpoch > 560 then do
          let safeModeEpochCount ← sub oldEpoch 560
          drawDistributions safeModeEpochCount 0 stakeSubsidy
        else pure (0, stakeSubsidy)
      -- the distribution of this epoch
      drawDistributions 1 caughtUp.1 caughtUp.2
    else pure (0, stakeSubsidy)
  else pure (0, stakeSubsidy)

/-- SuiSystemStateInnerV2::advance_epoch, with `ctxEpoch` the epoch of the
transaction context: the storage rebate given back to be burnt, the new state,
and the validators' payouts.

splitEpochRewards computes the storage fund's balance with the accumulator's
amount and the total stake, which the source computes before it draws the
stake subsidy; both only abort with an arithmetic error, as every abort the
draw can raise does, so the order does not change what is returned. The rate
check splitEpochRewards repeats has passed here. -/
def advanceEpoch (self : SuiSystemStateInnerV2) (validators : ValidatorSetView)
    (args : EpochChange) (ctxEpoch : ℕ) :
    Except (Abort Code) (ℕ × SuiSystemStateInnerV2 × List EpochRewards.Payout) := do
  let prevEpochStartTimestamp := self.epochStartTimestampMs
  assert (args.storageFundReinvestRate ≤ EpochRewards.basisPointDenominator ∧
    args.rewardSlashingRate ≤ EpochRewards.basisPointDenominator) .eBpsTooLarge
  let stakeSubsidyStartEpoch :=
    if self.stakeSubsidyStartEpoch > 0 then 20 else self.stakeSubsidyStartEpoch
  -- the gas summary accumulated in safe mode
  let storageReward ← Balance.join args.storageReward self.safeModeStorageRewards
  let computationReward ← Balance.join args.computationReward self.safeModeComputationRewards
  let storageRebateAmount ← add 64 args.storageRebateAmount self.safeModeStorageRebates
  let nonRefundableStorageFeeAmount ←
    add 64 args.nonRefundableStorageFeeAmount self.safeModeNonRefundableStorageFee
  let storageFundTotalBalance ←
    (StorageFund.totalBalance self.storageFund).mapError (Abort.map .storageFund)
  let stakeSubsidy ← drawStakeSubsidy self.stakeSubsidy ctxEpoch stakeSubsidyStartEpoch
    prevEpochStartTimestamp self.epochDurationMs args.epochStartTimestampMs
  let split ← (EpochRewards.splitEpochRewards storageFundTotalBalance
    args.accumulatorStorageFundAmount validators.totalStake computationReward stakeSubsidy.1
    args.storageFundReinvestRate args.rewardSlashingRate).mapError (Abort.map .epochRewards)
  let epoch ← add 64 self.epoch 1
  assert (args.newEpoch = epoch) .eAdvancedToWrongEpoch
  let distribution ← (EpochRewards.distributeEpochRewards validators.activeValidators
    validators.slashedValidatorIndices args.rewardSlashingRate split.computationReward
    split.storageFundReward).mapError (Abort.map .epochRewards)
  let computationRewardDistributed ← sub split.computationReward distribution.stakingRewards
  let storageFundRewardDistributed ← sub split.storageFundReward distribution.storageFundReward
  let leftoverStakingRewards ←
    Balance.join distribution.storageFundReward distribution.stakingRewards
  let refunded ← (StorageFund.advanceEpoch self.storageFund storageReward
    split.storageFundReinvestment leftoverStakingRewards storageRebateAmount
    nonRefundableStorageFeeAmount).mapError (Abort.map .storageFund)
  -- the computed fields of SystemEpochInfoEvent
  let _ ← (StorageFund.totalBalance refunded.2).mapError (Abort.map .storageFund)
  let _ ← add 64 computationRewardDistributed storageFundRewardDistributed
  let self' : SuiSystemStateInnerV2 :=
    { self with
      epoch
      protocolVersion := args.nextProtocolVersion
      storageFund := refunded.2
      stakeSubsidyStartEpoch
      stakeSubsidy := stakeSubsidy.2
      safeMode := false
      safeModeStorageRewards := 0
      safeModeComputationRewards := 0
      safeModeStorageRebates := 0
      safeModeNonRefundableStorageFee := 0
      epochStartTimestampMs := args.epochStartTimestampMs }
  assert (self'.safeModeStorageRebates = 0 ∧ self'.safeModeStorageRewards = 0 ∧
    self'.safeModeComputationRewards = 0) .eSafeModeGasNotProcessed
  pure (refunded.1, self', distribution.payouts)

/-! ## The stake subsidy of an epoch change -/

section Subsidy

/-- Drawing `m + n` distributions is drawing `m`, then `n` more. -/
theorem drawDistributions_add (n : ℕ) :
    ∀ (m total : ℕ) (stakeSubsidy : StakeSubsidy.StakeSubsidy),
      drawDistributions (m + n) total stakeSubsidy =
        drawDistributions m total stakeSubsidy >>= fun r => drawDistributions n r.1 r.2
  | 0, total, stakeSubsidy => by
    rw [Nat.zero_add]
    rfl
  | m + 1, total, stakeSubsidy => by
    rw [Nat.add_right_comm, drawDistributions, drawDistributions]
    cases StakeSubsidy.advanceEpoch stakeSubsidy with
    | error e => rfl
    | ok step =>
      simp only [mapError_ok, ok_bind]
      cases Balance.join total step.1 with
      | error e => rfl
      | ok total' => exact drawDistributions_add n m total' step.2

/-- Whenever the distributions return, what they drew came out of the subsidy's balance. -/
theorem balance_of_drawDistributions_eq_ok :
    ∀ {count total total' : ℕ} {stakeSubsidy stakeSubsidy' : StakeSubsidy.StakeSubsidy},
      drawDistributions count total stakeSubsidy = .ok (total', stakeSubsidy') →
        total' + stakeSubsidy'.balance = total + stakeSubsidy.balance
  | 0, _, _, _, _, h => by
    obtain ⟨rfl, rfl⟩ := Prod.mk.inj (Except.ok.inj h).symm
    rfl
  | count + 1, total, total', stakeSubsidy, stakeSubsidy', h => by
    simp only [drawDistributions, bind_eq_ok, mapError_eq_ok] at h
    obtain ⟨step, hstep, joined, hjoin, hrest⟩ := h
    have hbalance := StakeSubsidy.balance_of_advanceEpoch_eq_ok hstep
    obtain ⟨rfl, -⟩ := Balance.eq_of_join_eq_ok hjoin
    rw [balance_of_drawDistributions_eq_ok hrest]
    omega

/-- The distributions drawn one after another are the subsidy's run of as many
epochs, their draws summed; the joins of the sums cannot overflow, as they
never exceed the balance. -/
theorem drawDistributions_eq :
    ∀ (count total : ℕ) (stakeSubsidy : StakeSubsidy.StakeSubsidy),
      total + stakeSubsidy.balance < 2 ^ 64 →
      drawDistributions count total stakeSubsidy =
        (Except.map (fun r => (total + r.1.sum, r.2))
          (StakeSubsidy.advanceEpochs count stakeSubsidy)).mapError (Abort.map .stakeSubsidy)
  | 0, total, stakeSubsidy, _ => rfl
  | count + 1, total, stakeSubsidy, hfit => by
    rw [drawDistributions, StakeSubsidy.advanceEpochs]
    cases hstep : StakeSubsidy.advanceEpoch stakeSubsidy with
    | error e => rfl
    | ok step =>
      have hbalance := StakeSubsidy.balance_of_advanceEpoch_eq_ok hstep
      rw [mapError_ok, ok_bind, ok_bind, Balance.join_eq_ok (by omega), ok_bind,
        drawDistributions_eq count (total + step.1) step.2 (by omega)]
      cases StakeSubsidy.advanceEpochs count step.2 with
      | error e => rfl
      | ok rest =>
        show Except.ok (total + step.1 + rest.1.sum, rest.2) = .ok (total + (step.1 :: rest.1).sum, rest.2)
        rw [List.sum_cons, Nat.add_assoc]

/-- How many distributions an epoch change draws: none before the start epoch
or after an epoch shorter than the epoch duration, one otherwise, and
old_epoch - 560 more for the catch-up when the counter stands at 540 past
epoch 560. -/
def distributionCount (distributionCounter oldEpoch stakeSubsidyStartEpoch prevEpochStartTimestamp
    epochDurationMs epochStartTimestampMs : ℕ) : ℕ :=
  if oldEpoch ≥ stakeSubsidyStartEpoch ∧
      epochStartTimestampMs ≥ prevEpochStartTimestamp + epochDurationMs then
    (if distributionCounter = 540 ∧ oldEpoch > 560 then oldEpoch - 560 else 0) + 1
  else 0

/-- The stake subsidy of an epoch change draws `distributionCount`
distributions from a total of zero, unless the end of the previous epoch
overflows, which only happens when the start epoch has been reached. -/
theorem drawStakeSubsidy_eq_drawDistributions (stakeSubsidy : StakeSubsidy.StakeSubsidy)
    (oldEpoch stakeSubsidyStartEpoch prevEpochStartTimestamp epochDurationMs
      epochStartTimestampMs : ℕ) :
    drawStakeSubsidy stakeSubsidy oldEpoch stakeSubsidyStartEpoch prevEpochStartTimestamp
        epochDurationMs epochStartTimestampMs =
      if oldEpoch ≥ stakeSubsidyStartEpoch ∧ 2 ^ 64 ≤ prevEpochStartTimestamp + epochDurationMs then
        .error .arithmeticError
      else drawDistributions (distributionCount stakeSubsidy.distributionCounter oldEpoch
        stakeSubsidyStartEpoch prevEpochStartTimestamp epochDurationMs epochStartTimestampMs) 0
        stakeSubsidy := by
  unfold drawStakeSubsidy distributionCount
  by_cases hstart : oldEpoch ≥ stakeSubsidyStartEpoch
  · by_cases hend : prevEpochStartTimestamp + epochDurationMs < 2 ^ 64
    · have hfits : ¬(oldEpoch ≥ stakeSubsidyStartEpoch ∧
          2 ^ 64 ≤ prevEpochStartTimestamp + epochDurationMs) := fun h => absurd h.2 (not_le.mpr hend)
      rw [if_pos hstart, add_eq_ok hend, ok_bind, if_neg hfits]
      by_cases hlong : epochStartTimestampMs ≥ prevEpochStartTimestamp + epochDurationMs
      · have hdraws : oldEpoch ≥ stakeSubsidyStartEpoch ∧
            epochStartTimestampMs ≥ prevEpochStartTimestamp + epochDurationMs := ⟨hstart, hlong⟩
        rw [if_pos hlong, if_pos hdraws]
        -- the catch-up and the epoch's own distribution are one run
        by_cases hcatch : StakeSubsidy.getDistributionCounter stakeSubsidy = 540 ∧ oldEpoch > 560
        · have hcatch' : stakeSubsidy.distributionCounter = 540 ∧ oldEpoch > 560 := hcatch
          rw [if_pos hcatch, if_pos hcatch', sub_eq_ok (by omega), ok_bind, drawDistributions_add]
        · have hcatch' : ¬(stakeSubsidy.distributionCounter = 540 ∧ oldEpoch > 560) := hcatch
          rw [if_neg hcatch, if_neg hcatch']
          rfl
      · have hdraws : ¬(oldEpoch ≥ stakeSubsidyStartEpoch ∧
            epochStartTimestampMs ≥ prevEpochStartTimestamp + epochDurationMs) := fun h => hlong h.2
        rw [if_neg hlong, if_neg hdraws]
        rfl
    · have hover : oldEpoch ≥ stakeSubsidyStartEpoch ∧
          2 ^ 64 ≤ prevEpochStartTimestamp + epochDurationMs := ⟨hstart, not_lt.mp hend⟩
      rw [if_pos hstart, add_eq_error (not_lt.mp hend), if_pos hover]
      rfl
  · have hover : ¬(oldEpoch ≥ stakeSubsidyStartEpoch ∧
        2 ^ 64 ≤ prevEpochStartTimestamp + epochDurationMs) := fun h => hstart h.1
    have hdraws : ¬(oldEpoch ≥ stakeSubsidyStartEpoch ∧
        epochStartTimestampMs ≥ prevEpochStartTimestamp + epochDurationMs) := fun h => hstart h.1
    rw [if_neg hstart, if_neg hover, if_neg hdraws]
    rfl

/-- The stake subsidy of an epoch change is the subsidy's run of
`distributionCount` epochs, its draws summed, whenever the end of the previous
epoch fits in u64 and the balance does. -/
theorem drawStakeSubsidy_eq (stakeSubsidy : StakeSubsidy.StakeSubsidy)
    (oldEpoch stakeSubsidyStartEpoch prevEpochStartTimestamp epochDurationMs
      epochStartTimestampMs : ℕ)
    (hend : prevEpochStartTimestamp + epochDurationMs < 2 ^ 64)
    (hbalance : stakeSubsidy.balance < 2 ^ 64) :
    drawStakeSubsidy stakeSubsidy oldEpoch stakeSubsidyStartEpoch prevEpochStartTimestamp
        epochDurationMs epochStartTimestampMs =
      (Except.map (fun r => (r.1.sum, r.2)) (StakeSubsidy.advanceEpochs
        (distributionCount stakeSubsidy.distributionCounter oldEpoch stakeSubsidyStartEpoch
          prevEpochStartTimestamp epochDurationMs epochStartTimestampMs) stakeSubsidy)).mapError
        (Abort.map .stakeSubsidy) := by
  have hfits : ¬(oldEpoch ≥ stakeSubsidyStartEpoch ∧
      2 ^ 64 ≤ prevEpochStartTimestamp + epochDurationMs) := fun h => absurd h.2 (not_le.mpr hend)
  rw [drawStakeSubsidy_eq_drawDistributions, if_neg hfits,
    drawDistributions_eq _ 0 stakeSubsidy (by omega)]
  simp only [Nat.zero_add]

theorem drawStakeSubsidy_eq_catchUp :
    1000 + 100 < 2 ^ 64 ∧ (10000 : ℕ) < 2 ^ 64 ∧
      drawStakeSubsidy ⟨10000, 540, 100, 10, 1000⟩ 563 20 1000 100 1100 =
        (Except.map (fun r => (r.1.sum, r.2)) (StakeSubsidy.advanceEpochs
          (distributionCount 540 563 20 1000 100 1100) ⟨10000, 540, 100, 10, 1000⟩)).mapError
          (Abort.map .stakeSubsidy) :=
  ⟨by decide, by decide, drawStakeSubsidy_eq _ _ _ _ _ _ (by decide) (by decide)⟩

example : distributionCount 540 563 20 1000 100 1100 = 4 := by decide

end Subsidy

/-! ## What an epoch change conserves -/

section Conservation

/-- Whenever the stake subsidy of an epoch change is drawn, it came out of the
subsidy's balance. -/
theorem balance_of_drawStakeSubsidy_eq_ok {stakeSubsidy stakeSubsidy' : StakeSubsidy.StakeSubsidy}
    {oldEpoch stakeSubsidyStartEpoch prevEpochStartTimestamp epochDurationMs epochStartTimestampMs
      amount : ℕ}
    (h : drawStakeSubsidy stakeSubsidy oldEpoch stakeSubsidyStartEpoch prevEpochStartTimestamp
      epochDurationMs epochStartTimestampMs = .ok (amount, stakeSubsidy')) :
    amount + stakeSubsidy'.balance = stakeSubsidy.balance := by
  rw [drawStakeSubsidy_eq_drawDistributions] at h
  split at h
  · cases h
  · rw [balance_of_drawDistributions_eq_ok h, Nat.zero_add]

theorem advanceEpoch_conserves {self self' : SuiSystemStateInnerV2} {validators : ValidatorSetView}
    {args : EpochChange} {ctxEpoch refunded : ℕ} {payouts : List EpochRewards.Payout}
    (h : advanceEpoch self validators args ctxEpoch = .ok (refunded, self', payouts)) :
    self'.storageFund.totalObjectStorageRebates + self'.storageFund.nonRefundableBalance +
        self'.stakeSubsidy.balance + (payouts.map fun p => p.validatorReward + p.stakerReward).sum +
        refunded =
      self.storageFund.totalObjectStorageRebates + self.storageFund.nonRefundableBalance +
        self.stakeSubsidy.balance + args.storageReward + args.computationReward +
        self.safeModeStorageRewards + self.safeModeComputationRewards ∧
    refunded = args.storageRebateAmount + self.safeModeStorageRebates ∧
    self'.epoch = args.newEpoch ∧ args.newEpoch = self.epoch + 1 := by
  simp only [advanceEpoch, bind_eq_ok, mapError_eq_ok] at h
  obtain ⟨_, -, storageReward, hstorage, computationReward, hcomputation, rebate, hrebate, _, -,
    fundTotal, -, ⟨amount, stakeSubsidy⟩, hsubsidy, split, hsplit, epoch, hepoch, _, hnew,
    distribution, hdistribution, _, -, _, -, leftover, hleftover, refund, hfund, _, -, _, -, _, -,
    hout⟩ := h
  obtain ⟨rfl, -⟩ := Balance.eq_of_join_eq_ok hstorage
  obtain ⟨rfl, -⟩ := Balance.eq_of_join_eq_ok hcomputation
  obtain ⟨rfl, -⟩ := eq_of_add_eq_ok hrebate
  obtain ⟨rfl, -⟩ := eq_of_add_eq_ok hepoch
  obtain ⟨rfl, -⟩ := Balance.eq_of_join_eq_ok hleftover
  obtain ⟨hfits, rfl⟩ := StorageFund.eq_of_advanceEpoch_eq_ok hfund
  have hout' := Except.ok.inj hout
  simp only [Prod.mk.injEq] at hout'
  obtain ⟨rfl, rfl, rfl⟩ := hout'
  -- what each stage moves: the subsidy out of its fund, the charges and the
  -- subsidy into the rewards, the rewards into the payouts and the leftovers,
  -- and the leftovers, the reinvestment and the storage charge into the fund
  have hdrawn := balance_of_drawStakeSubsidy_eq_ok hsubsidy
  have hsplitSum := EpochRewards.sum_of_splitEpochRewards_eq_ok hsplit
  have hpaid := EpochRewards.total_of_distributeEpochRewards_eq_ok hdistribution
  have hkept := StorageFund.afterEpoch_conserves hfits
  simp only [EpochRewards.DistributionState.total] at hpaid
  refine ⟨?_, rfl, (of_assert_eq_ok hnew).symm, of_assert_eq_ok hnew⟩
  dsimp only at hkept ⊢
  omega

theorem advanceEpoch_conserves_one :
    advanceEpoch ⟨10, 1, ⟨1000, 5000⟩, 100, 0, ⟨10000, 0, 100, 10, 1000⟩, false, 7, 50, 20, 3, 1000⟩
        ⟨[⟨6000, 1000⟩, ⟨4000, 0⟩], 100000, []⟩ ⟨11, 2, 300, 1000, 200, 10, 5000, 5000, 1100, 0⟩ 10 =
      .ok (220, ⟨11, 2, ⟨1074, 5043⟩, 100, 0, ⟨9900, 1, 100, 10, 1000⟩, false, 0, 0, 0, 0, 1100⟩,
        [⟨80, 589⟩, ⟨15, 436⟩]) ∧
    1074 + 5043 + 9900 + (([⟨80, 589⟩, ⟨15, 436⟩] : List EpochRewards.Payout).map
        fun p => p.validatorReward + p.stakerReward).sum + 220 =
      1000 + 5000 + 10000 + 300 + 1000 + 7 + 50 ∧
    220 = 200 + 20 ∧ 11 = 11 ∧ 11 = 10 + 1 :=
  have h : advanceEpoch ⟨10, 1, ⟨1000, 5000⟩, 100, 0, ⟨10000, 0, 100, 10, 1000⟩, false, 7, 50, 20, 3,
      1000⟩ ⟨[⟨6000, 1000⟩, ⟨4000, 0⟩], 100000, []⟩ ⟨11, 2, 300, 1000, 200, 10, 5000, 5000, 1100, 0⟩ 10 =
      .ok (220, ⟨11, 2, ⟨1074, 5043⟩, 100, 0, ⟨9900, 1, 100, 10, 1000⟩, false, 0, 0, 0, 0, 1100⟩,
        [⟨80, 589⟩, ⟨15, 436⟩]) := by decide
  ⟨h, advanceEpoch_conserves h⟩

end Conservation

end Sui.SuiSystemState
