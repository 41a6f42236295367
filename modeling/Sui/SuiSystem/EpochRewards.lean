import Sui.MoveArith
import Sui.ProRata
import Sui.OptionList
import Sui.Framework.Balance
import Sui.SuiSystem.VotingPower
import Mathlib.Data.List.GetD

/-!
# Epoch rewards

A model of how an epoch's rewards are paid out. The reward split at the top of
SuiSystemStateInnerV2::advance_epoch (sui_system_state_inner.move) takes the
storage fund's share of the computation charge out of the computation reward,
and the fund's reinvestment out of that share. The reward part of
ValidatorSet::advance_epoch (validator_set.move) then pays out the rest:
compute_unadjusted_reward_distribution gives each validator a share of the
computation reward in proportion to its voting power and an equal share of
the storage fund reward; compute_reward_adjustments takes the slashing rate's
part of both from each slashed validator; compute_adjusted_reward_distribution
takes those adjustments from the slashed validators and shares their sums over
the others, the staking part by voting power and the storage part equally;
and distribute_reward splits each validator's amounts out of the two
balances, its commission and storage reward going to the validator and the
rest of its staking reward to its stakers.

Every quantity is a natural number below 2^64 where the code has a u64,
mul_div! widens to u128 (`MoveArith.mulDivWide`), and every operation is
checked as Move checks it. A VecMap is its list of entries, and the slashed
validators are given by their indices in the active set.

**Main results.**

* `computeAdjustedRewardDistribution_eq_ok`: with voting powers summing to
  `VotingPower.totalVotingPower`, a slashing rate of at most 100%, distinct
  slashed validators, and a positive unslashed voting power whenever some
  validator is not slashed, the adjusted amounts are `ProRata.redistribute` of
  the unadjusted ones, so that (`sum_adjustedStaking_le`,
  `sum_adjustedStorage_le`) they sum to at most the two reward balances;
* `distributeReward_eq`: for amounts within the balances every split of
  distribute_reward succeeds; the only abort left is a join of a validator's
  commission and storage reward that overflows, which needs the two balances
  together to reach 2^64;
* `splitEpochRewards_eq_ok`: the reward split of advance_epoch returns when
  both rates are at most 100%, its additions fit and the total stake is
  positive; with no stake at all its mul_div divides by zero;
* `advanceEpochRewards_conserves`: along the whole path, the payouts, the
  leftovers and the reinvestment add up to the computation charge and the
  stake subsidy.

Proof shape: the sums are bounded once, over `Finset.range` of the validator
indices, by `ProRata.sum_redistribute_le`; the lemma of each function shows
that its checked steps return the amounts that bound is about.
-/

namespace Sui.EpochRewards

open MoveArith

/-- The abort codes the modelled functions can raise. -/
inductive Code where
  /-- validator_set::EValidatorSetEmpty -/
  | eValidatorSetEmpty
  /-- vec_map::EKeyAlreadyExists -/
  | eKeyAlreadyExists
  /-- vec_map::EKeyDoesNotExist -/
  | eKeyDoesNotExist
  /-- balance::ENotEnough -/
  | eNotEnough
  /-- sui_system_state_inner::EBpsTooLarge -/
  | eBpsTooLarge
  deriving DecidableEq, Repr

/-- BASIS_POINT_DENOMINATOR: rates are in basis points. -/
def basisPointDenominator : ℕ := 10000

/-- The fields of a validator that the reward functions read. -/
structure Validator where
  votingPower : ℕ
  commissionRate : ℕ
  deriving DecidableEq, Repr

/-- The mul_div! macro: (a as u128) * (b as u128) / (c as u128), cast to u64. -/
def mulDiv (a b c : ℕ) : Except (Abort Code) ℕ :=
  mulDivWide 64 a b c

/-- balance::split: the balance left; the part split off is the amount asked. -/
def balanceSplit (balance value : ℕ) : Except (Abort Code) ℕ := do
  assert (value ≤ balance) .eNotEnough
  sub balance value

/-- balance::join: the value of the joined balance. -/
def balanceJoin (balance value : ℕ) : Except (Abort Code) ℕ :=
  add 64 balance value

/-- A vec_map::VecMap: its entries in insertion order. -/
structure VecMap (K V : Type) where
  contents : List (K × V)
  deriving DecidableEq, Repr

namespace VecMap

variable {K V : Type} [DecidableEq K]

/-- vec_map::empty -/
def empty : VecMap K V := ⟨[]⟩

/-- vec_map::contains: some entry has the key. -/
def contains (self : VecMap K V) (key : K) : Bool :=
  (self.contents.findIdx? fun e => e.1 == key).isSome

/-- vec_map::insert, which aborts when some entry has the key. -/
def insert (self : VecMap K V) (key : K) (value : V) : Except (Abort Code) (VecMap K V) := do
  assert (self.contains key = false) .eKeyAlreadyExists
  pure ⟨self.contents ++ [(key, value)]⟩

/-- vec_map::get: the value of the first entry with the key. -/
def get (self : VecMap K V) (key : K) : Except (Abort Code) V :=
  match self.contents.find? fun e => e.1 == key with
  | some e => .ok e.2
  | none => .error (.abort .eKeyDoesNotExist)

/-- vec_map::length -/
def length (self : VecMap K V) : ℕ :=
  self.contents.length

end VecMap

/-! ## The validator set's reward functions -/

/-- compute_unadjusted_reward_distribution: each validator's share of the
staking reward by voting power, and an equal share of the storage fund
reward. -/
def computeUnadjustedRewardDistribution (validators : List Validator)
    (totalVotingPower totalStakingReward totalStorageFundReward : ℕ) :
    Except (Abort Code) (List ℕ × List ℕ) := do
  let length := validators.length
  let storageFundRewardPerValidator ← div totalStorageFundReward length
  let stakingRewardAmounts ← validators.mapM fun validator =>
    mulDiv validator.votingPower totalStakingReward totalVotingPower
  pure (stakingRewardAmounts, List.replicate length storageFundRewardPerValidator)

/-- The loop body of sum_voting_power_by_addresses. -/
def sumVotingPowerStep (validators : List Validator) (sum i : ℕ) : Except (Abort Code) ℕ := do
  let validator ← getAt validators i
  add 64 sum validator.votingPower

/-- sum_voting_power_by_addresses, with the validators given by their indices. -/
def sumVotingPowerByIndices (validators : List Validator) (indices : List ℕ) :
    Except (Abort Code) ℕ :=
  indices.foldlM (sumVotingPowerStep validators) 0

/-- What compute_reward_adjustments returns. -/
structure RewardAdjustments where
  totalStakingRewardAdjustment : ℕ
  individualStakingRewardAdjustments : VecMap ℕ ℕ
  totalStorageFundRewardAdjustment : ℕ
  individualStorageFundRewardAdjustments : VecMap ℕ ℕ
  deriving DecidableEq, Repr

/-- Either half of the loop body of compute_reward_adjustments: the slashing
rate's part of a slashed validator's reward, recorded in the individual map
and added to the total. -/
def recordRewardAdjustment (rewardSlashingRate : ℕ) (unadjustedRewardAmounts : List ℕ)
    (validatorIndex : ℕ) (individualAdjustments : VecMap ℕ ℕ) (totalAdjustment : ℕ) :
    Except (Abort Code) (VecMap ℕ ℕ × ℕ) := do
  let unadjustedReward ← getAt unadjustedRewardAmounts validatorIndex
  let rewardAdjustment ← mulDiv unadjustedReward rewardSlashingRate basisPointDenominator
  let individualAdjustments ← individualAdjustments.insert validatorIndex rewardAdjustment
  let totalAdjustment ← add 64 totalAdjustment rewardAdjustment
  pure (individualAdjustments, totalAdjustment)

/-- The loop body of compute_reward_adjustments for one slashed validator. -/
def computeRewardAdjustmentsStep (rewardSlashingRate : ℕ)
    (unadjustedStakingRewardAmounts unadjustedStorageFundRewardAmounts : List ℕ)
    (adjustments : RewardAdjustments) (validatorIndex : ℕ) :
    Except (Abort Code) RewardAdjustments := do
  let (individualStaking, totalStaking) ← recordRewardAdjustment rewardSlashingRate
    unadjustedStakingRewardAmounts validatorIndex
    adjustments.individualStakingRewardAdjustments adjustments.totalStakingRewardAdjustment
  let (individualStorage, totalStorage) ← recordRewardAdjustment rewardSlashingRate
    unadjustedStorageFundRewardAmounts validatorIndex
    adjustments.individualStorageFundRewardAdjustments
    adjustments.totalStorageFundRewardAdjustment
  pure ⟨totalStaking, individualStaking, totalStorage, individualStorage⟩

/-- compute_reward_adjustments: destroy! visits the slashed indices from the
back of the vector. -/
def computeRewardAdjustments (slashedValidatorIndices : List ℕ) (rewardSlashingRate : ℕ)
    (unadjustedStakingRewardAmounts unadjustedStorageFundRewardAmounts : List ℕ) :
    Except (Abort Code) RewardAdjustments :=
  slashedValidatorIndices.reverse.foldlM
    (computeRewardAdjustmentsStep rewardSlashingRate unadjustedStakingRewardAmounts
      unadjustedStorageFundRewardAmounts)
    ⟨0, .empty, 0, .empty⟩

/-- Either half of the loop body of compute_adjusted_reward_distribution: a
slashed validator's amount loses its adjustment, any other gains the share
that `redistributed` computes. -/
def adjustRewardAmount (individualAdjustments : VecMap ℕ ℕ) (i unadjustedRewardAmount : ℕ)
    (redistributed : Except (Abort Code) ℕ) : Except (Abort Code) ℕ :=
  if individualAdjustments.contains i then do
    let adjustment ← individualAdjustments.get i
    sub unadjustedRewardAmount adjustment
  else do
    let adjustment ← redistributed
    add 64 unadjustedRewardAmount adjustment

/-- The loop body of compute_adjusted_reward_distribution for validator `i`:
the staking part of the slashed rewards is shared by voting power, the storage
part equally. -/
def computeAdjustedRewardAmounts (validators : List Validator)
    (totalUnslashedValidatorVotingPower numUnslashedValidators : ℕ)
    (unadjustedStakingRewardAmounts unadjustedStorageFundRewardAmounts : List ℕ)
    (adjustments : RewardAdjustments) (i : ℕ) : Except (Abort Code) (ℕ × ℕ) := do
  let validator ← getAt validators i
  let unadjustedStakingRewardAmount ← getAt unadjustedStakingRewardAmounts i
  let adjustedStakingRewardAmount ← adjustRewardAmount
    adjustments.individualStakingRewardAdjustments i unadjustedStakingRewardAmount
    (mulDiv adjustments.totalStakingRewardAdjustment validator.votingPower
      totalUnslashedValidatorVotingPower)
  let unadjustedStorageFundRewardAmount ← getAt unadjustedStorageFundRewardAmounts i
  let adjustedStorageFundRewardAmount ← adjustRewardAmount
    adjustments.individualStorageFundRewardAdjustments i unadjustedStorageFundRewardAmount
    (div adjustments.totalStorageFundRewardAdjustment numUnslashedValidators)
  pure (adjustedStakingRewardAmount, adjustedStorageFundRewardAmount)

/-- compute_adjusted_reward_distribution. -/
def computeAdjustedRewardDistribution (validators : List Validator)
    (totalVotingPower totalSlashedValidatorVotingPower : ℕ)
    (unadjustedStakingRewardAmounts unadjustedStorageFundRewardAmounts : List ℕ)
    (adjustments : RewardAdjustments) : Except (Abort Code) (List ℕ × List ℕ) := do
  let totalUnslashedValidatorVotingPower ←
    sub totalVotingPower totalSlashedValidatorVotingPower
  let length := validators.length
  let numUnslashedValidators ← sub length adjustments.individualStakingRewardAdjustments.length
  let amounts ← (List.range length).mapM
    (computeAdjustedRewardAmounts validators totalUnslashedValidatorVotingPower
      numUnslashedValidators unadjustedStakingRewardAmounts unadjustedStorageFundRewardAmounts
      adjustments)
  pure amounts.unzip

/-- What one validator's rewards pay: validator_reward, staked for the
validator, and staker_reward, deposited into its staking pool. -/
structure Payout where
  validatorReward : ℕ
  stakerReward : ℕ
  deriving DecidableEq, Repr

/-- The two balances distribute_reward splits from, and the payouts so far. -/
structure DistributionState where
  stakingRewards : ℕ
  storageFundReward : ℕ
  payouts : List Payout
  deriving DecidableEq, Repr

/-- The loop body of distribute_reward for validator `i`. -/
def distributeRewardStep (validators : List Validator)
    (adjustedStakingRewardAmounts adjustedStorageFundRewardAmounts : List ℕ)
    (state : DistributionState) (i : ℕ) : Except (Abort Code) DistributionState := do
  let validator ← getAt validators i
  let stakingRewardAmount ← getAt adjustedStakingRewardAmounts i
  let stakingRewards ← balanceSplit state.stakingRewards stakingRewardAmount
  -- the validator's commission is split off its staker_reward
  let validatorCommissionAmount ←
    mulDiv stakingRewardAmount validator.commissionRate basisPointDenominator
  let stakerReward ← balanceSplit stakingRewardAmount validatorCommissionAmount
  let storageFundRewardAmount ← getAt adjustedStorageFundRewardAmounts i
  let storageFundReward ← balanceSplit state.storageFundReward storageFundRewardAmount
  let validatorReward ← balanceJoin validatorCommissionAmount storageFundRewardAmount
  pure ⟨stakingRewards, storageFundReward, state.payouts ++ [⟨validatorReward, stakerReward⟩]⟩

/-- distribute_reward. -/
def distributeReward (validators : List Validator)
    (adjustedStakingRewardAmounts adjustedStorageFundRewardAmounts : List ℕ)
    (stakingRewards storageFundReward : ℕ) : Except (Abort Code) DistributionState := do
  let length := validators.length
  assert (length > 0) .eValidatorSetEmpty
  (List.range length).foldlM
    (distributeRewardStep validators adjustedStakingRewardAmounts
      adjustedStorageFundRewardAmounts)
    ⟨stakingRewards, storageFundReward, []⟩

/-- The reward part of ValidatorSet::advance_epoch, from the unadjusted
distribution to distribute_reward, with the slashed validators given by their
indices. -/
def distributeEpochRewards (validators : List Validator) (slashedValidatorIndices : List ℕ)
    (rewardSlashingRate computationReward storageFundReward : ℕ) :
    Except (Abort Code) DistributionState := do
  let totalVotingPower := VotingPower.totalVotingPower
  let (unadjustedStaking, unadjustedStorage) ← computeUnadjustedRewardDistribution validators
    totalVotingPower computationReward storageFundReward
  let totalSlashedValidatorVotingPower ←
    sumVotingPowerByIndices validators slashedValidatorIndices
  let adjustments ← computeRewardAdjustments slashedValidatorIndices rewardSlashingRate
    unadjustedStaking unadjustedStorage
  let (adjustedStaking, adjustedStorage) ← computeAdjustedRewardDistribution validators
    totalVotingPower totalSlashedValidatorVotingPower unadjustedStaking unadjustedStorage
    adjustments
  distributeReward validators adjustedStaking adjustedStorage computationReward
    storageFundReward

/-! ## The system state's reward split -/

/-- The balances SuiSystemStateInnerV2::advance_epoch hands to the validator
set, and the storage fund's reinvestment. -/
structure EpochRewardSplit where
  computationReward : ℕ
  storageFundReward : ℕ
  storageFundReinvestment : ℕ
  deriving DecidableEq, Repr

/-- The reward split of SuiSystemStateInnerV2::advance_epoch: the rate check,
the storage fund balance and the total stake, the stake subsidy joined to the
computation reward, the storage fund's share of the computation charge split
off it, and the reinvestment split off that share. -/
def splitEpochRewards (storageFundTotalBalance accumulatorStorageFundAmount
    totalValidatorsStake computationCharge stakeSubsidyAmount storageFundReinvestRate
    rewardSlashingRate : ℕ) : Except (Abort Code) EpochRewardSplit := do
  assert (storageFundReinvestRate ≤ basisPointDenominator ∧
    rewardSlashingRate ≤ basisPointDenominator) .eBpsTooLarge
  let storageFundBalance ← add 64 storageFundTotalBalance accumulatorStorageFundAmount
  let totalStake ← add 64 storageFundBalance totalValidatorsStake
  let computationReward ← balanceJoin computationCharge stakeSubsidyAmount
  let storageFundRewardAmount ← mulDiv storageFundBalance computationCharge totalStake
  let computationReward ← balanceSplit computationReward storageFundRewardAmount
  let storageFundReinvestmentAmount ←
    mulDiv storageFundRewardAmount storageFundReinvestRate basisPointDenominator
  let storageFundReward ← balanceSplit storageFundRewardAmount storageFundReinvestmentAmount
  pure ⟨computationReward, storageFundReward, storageFundReinvestmentAmount⟩

/-- What the reward path of SuiSystemStateInnerV2::advance_epoch pays out, what
it records as distributed, and what goes to the storage fund. -/
structure EpochRewardOutcome where
  payouts : List Payout
  computationRewardDistributed : ℕ
  storageFundRewardDistributed : ℕ
  leftoverStorageFundInflow : ℕ
  storageFundReinvestment : ℕ
  deriving DecidableEq, Repr

/-- The reward path of SuiSystemStateInnerV2::advance_epoch: the split, the
validator set's distribution, and the leftovers of both balances joined for
the storage fund. -/
def advanceEpochRewards (validators : List Validator) (slashedValidatorIndices : List ℕ)
    (storageFundTotalBalance accumulatorStorageFundAmount totalValidatorsStake
      computationCharge stakeSubsidyAmount storageFundReinvestRate rewardSlashingRate : ℕ) :
    Except (Abort Code) EpochRewardOutcome := do
  let split ← splitEpochRewards storageFundTotalBalance accumulatorStorageFundAmount
    totalValidatorsStake computationCharge stakeSubsidyAmount storageFundReinvestRate
    rewardSlashingRate
  let distribution ← distributeEpochRewards validators slashedValidatorIndices
    rewardSlashingRate split.computationReward split.storageFundReward
  let computationRewardDistributed ← sub split.computationReward distribution.stakingRewards
  let storageFundRewardDistributed ←
    sub split.storageFundReward distribution.storageFundReward
  let leftoverStorageFundInflow ←
    balanceJoin distribution.storageFundReward distribution.stakingRewards
  pure ⟨distribution.payouts, computationRewardDistributed, storageFundRewardDistributed,
    leftoverStorageFundInflow, split.storageFundReinvestment⟩

/-! ## What the reward functions compute -/

namespace VecMap

variable {K V : Type} [DecidableEq K]

/-- The map with an entry `(k, f k)` for each key of `keys`, in order. -/
def ofFun (f : K → V) (keys : List K) : VecMap K V :=
  ⟨keys.map fun k => (k, f k)⟩

theorem contains_ofFun (f : K → V) (keys : List K) (key : K) :
    (ofFun f keys).contains key = true ↔ key ∈ keys := by
  simp [ofFun, contains, List.findIdx?_isSome]

theorem get_ofFun {f : K → V} {keys : List K} {key : K} (h : key ∈ keys) :
    (ofFun f keys).get key = .ok (f key) := by
  -- the first entry with the key is the one made from the first key equal to it
  obtain ⟨k, hk⟩ : ∃ k, keys.find? (· == key) = some k :=
    Option.isSome_iff_exists.mp (List.find?_isSome.mpr ⟨key, h, by simp⟩)
  have hkey : k = key := by simpa using List.find?_some hk
  simp [get, ofFun, List.find?_map, hk, hkey]

theorem insert_ofFun {f : K → V} {keys : List K} {key : K} (h : key ∉ keys) :
    (ofFun f keys).insert key (f key) = .ok (ofFun f (keys ++ [key])) := by
  have hfresh : (ofFun f keys).contains key = false := by
    rw [Bool.eq_false_iff]
    exact fun hc => h ((contains_ofFun f keys key).mp hc)
  simp only [insert, assert_eq_ok hfresh, ok_bind]
  simp [ofFun, pure, Except.pure]

omit [DecidableEq K] in
theorem length_ofFun (f : K → V) (keys : List K) : (ofFun f keys).length = keys.length := by
  simp [ofFun, length]

end VecMap

/-- The voting power of validator `i`, zero past the end. -/
def powerAt (validators : List Validator) (i : ℕ) : ℕ :=
  (validators.map (·.votingPower)).getD i 0

/-- The voting power of the validators that are not slashed. -/
def unslashedVotingPower (validators : List Validator) (slashed : List ℕ) : ℕ :=
  ∑ i ∈ Finset.range validators.length \ slashed.toFinset, powerAt validators i

/-- The staking rewards compute_unadjusted_reward_distribution gives. -/
def unadjustedStaking (validators : List Validator) (totalStakingReward : ℕ) : List ℕ :=
  validators.map fun v => v.votingPower * totalStakingReward / VotingPower.totalVotingPower

/-- The storage fund rewards compute_unadjusted_reward_distribution gives. -/
def unadjustedStorage (validators : List Validator) (totalStorageFundReward : ℕ) : List ℕ :=
  List.replicate validators.length (totalStorageFundReward / validators.length)

/-- The slashing rate's part of the amount at index `i`. -/
def slashAmount (rewardSlashingRate : ℕ) (amounts : List ℕ) (i : ℕ) : ℕ :=
  amounts.getD i 0 * rewardSlashingRate / basisPointDenominator

/-- The adjustments compute_reward_adjustments has recorded once it has
visited the slashed indices `visited`. -/
def adjustmentsOf (rewardSlashingRate : ℕ) (staking storage visited : List ℕ) :
    RewardAdjustments :=
  ⟨(visited.map (slashAmount rewardSlashingRate staking)).sum,
    .ofFun (slashAmount rewardSlashingRate staking) visited,
    (visited.map (slashAmount rewardSlashingRate storage)).sum,
    .ofFun (slashAmount rewardSlashingRate storage) visited⟩

/-- The adjusted staking rewards: the unadjusted ones with the slashed
validators' adjustments shared over the others by voting power. -/
def adjustedStaking (validators : List Validator) (slashed : List ℕ)
    (rewardSlashingRate totalStakingReward : ℕ) : List ℕ :=
  (List.range validators.length).map
    (ProRata.redistribute (Finset.range validators.length) slashed.toFinset
      ((unadjustedStaking validators totalStakingReward).getD · 0)
      (slashAmount rewardSlashingRate (unadjustedStaking validators totalStakingReward))
      (powerAt validators))

/-- The adjusted storage fund rewards: the unadjusted ones with the slashed
validators' adjustments shared equally over the others. -/
def adjustedStorage (validators : List Validator) (slashed : List ℕ)
    (rewardSlashingRate totalStorageFundReward : ℕ) : List ℕ :=
  (List.range validators.length).map
    (ProRata.redistribute (Finset.range validators.length) slashed.toFinset
      ((unadjustedStorage validators totalStorageFundReward).getD · 0)
      (slashAmount rewardSlashingRate (unadjustedStorage validators totalStorageFundReward))
      fun _ => 1)

section Amounts

theorem sum_range_getD_of_length {l : List ℕ} {n : ℕ} (h : l.length = n) :
    ∑ i ∈ Finset.range n, l.getD i 0 = l.sum :=
  h ▸ ProRata.sum_range_getD l

/-- A sum over distinct indices, taken in reverse, is the sum over their set. -/
theorem sum_map_reverse {l : List ℕ} (hnd : l.Nodup) (f : ℕ → ℕ) :
    (l.reverse.map f).sum = ∑ i ∈ l.toFinset, f i := by
  rw [List.map_reverse, List.sum_reverse, List.sum_toFinset f hnd]

theorem slashAmount_le {rewardSlashingRate : ℕ} (h : rewardSlashingRate ≤ basisPointDenominator)
    (amounts : List ℕ) (i : ℕ) : slashAmount rewardSlashingRate amounts i ≤ amounts.getD i 0 := by
  rw [slashAmount, Nat.mul_comm]
  exact ProRata.mul_div_le_of_le _ h

theorem powerAt_eq {validators : List Validator} {i : ℕ} (h : i < validators.length) :
    powerAt validators i = validators[i].votingPower := by
  rw [powerAt, List.getD_eq_getElem _ _ (by simpa using h), List.getElem_map]

theorem sum_powerAt (validators : List Validator) :
    ∑ i ∈ Finset.range validators.length, powerAt validators i =
      (validators.map (·.votingPower)).sum :=
  sum_range_getD_of_length (List.length_map _)

theorem votingPower_le_total {validators : List Validator}
    (hpower : (validators.map (·.votingPower)).sum = VotingPower.totalVotingPower)
    {v : Validator} (hv : v ∈ validators) : v.votingPower ≤ VotingPower.totalVotingPower :=
  hpower ▸ List.le_sum_of_mem (List.mem_map_of_mem hv)

theorem sum_unadjustedStaking_le {validators : List Validator}
    (hpower : (validators.map (·.votingPower)).sum = VotingPower.totalVotingPower)
    (totalStakingReward : ℕ) :
    (unadjustedStaking validators totalStakingReward).sum ≤ totalStakingReward := by
  have hshares : unadjustedStaking validators totalStakingReward =
      (validators.map (·.votingPower)).map
        fun x => totalStakingReward * x / VotingPower.totalVotingPower := by
    simp [unadjustedStaking, Nat.mul_comm]
  rw [hshares]
  calc _ ≤ totalStakingReward * (validators.map (·.votingPower)).sum /
          VotingPower.totalVotingPower := ProRata.sum_map_mul_div_le _ _ _
    _ = totalStakingReward := by
      rw [hpower, Nat.mul_div_cancel _ (by decide)]

theorem sum_unadjustedStorage_le (validators : List Validator) (totalStorageFundReward : ℕ) :
    (unadjustedStorage validators totalStorageFundReward).sum ≤ totalStorageFundReward := by
  rw [unadjustedStorage, List.sum_replicate, smul_eq_mul]
  exact Nat.mul_div_le _ _

theorem length_unadjustedStaking (validators : List Validator) (totalStakingReward : ℕ) :
    (unadjustedStaking validators totalStakingReward).length = validators.length := by
  simp [unadjustedStaking]

theorem length_unadjustedStorage (validators : List Validator) (totalStorageFundReward : ℕ) :
    (unadjustedStorage validators totalStorageFundReward).length = validators.length := by
  simp [unadjustedStorage]

/-- An amount of a list that sums to less than 2^64 fits in u64. -/
theorem lt_of_mem_of_sum_lt {l : List ℕ} {x : ℕ} (hx : x ∈ l) (h : l.sum < 2 ^ 64) :
    x < 2 ^ 64 :=
  Nat.lt_of_le_of_lt (List.le_sum_of_mem hx) h

theorem getD_le_sum (l : List ℕ) (i : ℕ) : l.getD i 0 ≤ l.sum := by
  by_cases hi : i < l.length
  · rw [List.getD_eq_getElem _ _ hi]
    exact List.le_sum_of_mem (List.getElem_mem hi)
  · rw [List.getD_eq_default _ _ (Nat.not_lt.mp hi)]
    exact Nat.zero_le _

end Amounts

section Unadjusted

variable {validators : List Validator} {totalStakingReward totalStorageFundReward : ℕ}

theorem computeUnadjustedRewardDistribution_eq_ok (hne : validators ≠ [])
    (hpower : (validators.map (·.votingPower)).sum = VotingPower.totalVotingPower)
    (hreward : totalStakingReward < 2 ^ 64) :
    computeUnadjustedRewardDistribution validators VotingPower.totalVotingPower
        totalStakingReward totalStorageFundReward =
      .ok (unadjustedStaking validators totalStakingReward,
        unadjustedStorage validators totalStorageFundReward) := by
  have hdiv : (div totalStorageFundReward validators.length : Except (Abort Code) ℕ) =
      .ok (totalStorageFundReward / validators.length) :=
    div_eq_ok (List.length_pos_iff.mpr hne)
  -- no share exceeds the reward, since no voting power exceeds the total
  have hshares : validators.mapM (fun validator =>
        mulDiv validator.votingPower totalStakingReward VotingPower.totalVotingPower) =
      .ok (unadjustedStaking validators totalStakingReward) :=
    OptionList.mapM_eq_ok_map fun v hv =>
      mulDivWide_eq_ok_of_le_right hreward (votingPower_le_total hpower hv) (by decide)
        (by decide)
  simp only [computeUnadjustedRewardDistribution, hdiv, hshares, ok_bind]
  rfl

end Unadjusted

section SlashedPower

variable {validators : List Validator}

theorem foldlM_sumVotingPowerStep : ∀ (indices : List ℕ) (sum : ℕ),
    (∀ i ∈ indices, i < validators.length) →
    sum + (indices.map (powerAt validators)).sum < 2 ^ 64 →
    indices.foldlM (sumVotingPowerStep validators) sum =
      .ok (sum + (indices.map (powerAt validators)).sum)
  | [], sum, _, _ => rfl
  | i :: indices, sum, hlt, hfit => by
    have hi : i < validators.length := hlt i List.mem_cons_self
    have hsum : sum + ((i :: indices).map (powerAt validators)).sum =
        sum + powerAt validators i + (indices.map (powerAt validators)).sum := by
      simp [Nat.add_assoc]
    have hstep : sumVotingPowerStep validators sum i = .ok (sum + powerAt validators i) := by
      rw [sumVotingPowerStep, getAt_eq_ok hi, ok_bind, powerAt_eq hi]
      exact add_eq_ok (by rw [← powerAt_eq hi]; omega)
    rw [List.foldlM_cons, hstep, ok_bind, hsum]
    exact foldlM_sumVotingPowerStep indices _ (fun j hj => hlt j (List.mem_cons_of_mem _ hj))
      (by omega)

/-- The slashed voting power is summed without overflow, since distinct
validators hold at most the total between them. -/
theorem sumVotingPowerByIndices_eq_ok {slashed : List ℕ}
    (hpower : (validators.map (·.votingPower)).sum = VotingPower.totalVotingPower)
    (hnodup : slashed.Nodup) (hslashed : ∀ i ∈ slashed, i < validators.length) :
    sumVotingPowerByIndices validators slashed =
      .ok (∑ i ∈ slashed.toFinset, powerAt validators i) := by
  have hsub : slashed.toFinset ⊆ Finset.range validators.length := fun i hi =>
    Finset.mem_range.mpr (hslashed i (List.mem_toFinset.mp hi))
  have hle : ∑ i ∈ slashed.toFinset, powerAt validators i ≤ VotingPower.totalVotingPower := by
    rw [← hpower, ← sum_powerAt]
    exact Finset.sum_le_sum_of_subset hsub
  have htotal : VotingPower.totalVotingPower < 2 ^ 64 := by decide
  have hsum : (slashed.map (powerAt validators)).sum =
      ∑ i ∈ slashed.toFinset, powerAt validators i := (List.sum_toFinset _ hnodup).symm
  have hrun := foldlM_sumVotingPowerStep slashed 0 hslashed
    (by rw [Nat.zero_add, hsum]; exact Nat.lt_of_le_of_lt hle htotal)
  rw [sumVotingPowerByIndices, hrun, Nat.zero_add, hsum]

end SlashedPower

section Adjustments

variable {rewardSlashingRate : ℕ} {staking storage : List ℕ}

theorem recordRewardAdjustment_eq_ok {amounts visited : List ℕ} {i : ℕ}
    (hrate : rewardSlashingRate ≤ basisPointDenominator) (hi : i < amounts.length)
    (hfit : amounts[i] < 2 ^ 64) (hfresh : i ∉ visited)
    (htotal : ((visited ++ [i]).map (slashAmount rewardSlashingRate amounts)).sum < 2 ^ 64) :
    recordRewardAdjustment rewardSlashingRate amounts i
        (.ofFun (slashAmount rewardSlashingRate amounts) visited)
        (visited.map (slashAmount rewardSlashingRate amounts)).sum =
      .ok (.ofFun (slashAmount rewardSlashingRate amounts) (visited ++ [i]),
        ((visited ++ [i]).map (slashAmount rewardSlashingRate amounts)).sum) := by
  have hslash : slashAmount rewardSlashingRate amounts i =
      amounts[i] * rewardSlashingRate / basisPointDenominator := by
    rw [slashAmount, List.getD_eq_getElem _ _ hi]
  have hmul : mulDiv amounts[i] rewardSlashingRate basisPointDenominator =
      .ok (slashAmount rewardSlashingRate amounts i) := by
    rw [hslash]
    exact mulDivWide_eq_ok_of_le_left hfit hrate (by decide) (by decide)
  rw [List.map_append, List.sum_append, List.map_singleton, List.sum_singleton] at htotal ⊢
  have hadd : (add 64 (visited.map (slashAmount rewardSlashingRate amounts)).sum
      (slashAmount rewardSlashingRate amounts i) : Except (Abort Code) ℕ) =
      .ok ((visited.map (slashAmount rewardSlashingRate amounts)).sum +
        slashAmount rewardSlashingRate amounts i) := add_eq_ok htotal
  simp only [recordRewardAdjustment, getAt_eq_ok hi, ok_bind, hmul, VecMap.insert_ofFun hfresh,
    hadd]
  rfl

theorem computeRewardAdjustmentsStep_eq_ok {visited : List ℕ} {i : ℕ}
    (hrate : rewardSlashingRate ≤ basisPointDenominator)
    (hfit : ∀ x ∈ staking, x < 2 ^ 64) (hfit' : ∀ x ∈ storage, x < 2 ^ 64)
    (hi : i < staking.length) (hi' : i < storage.length) (hfresh : i ∉ visited)
    (htotal : ((visited ++ [i]).map (slashAmount rewardSlashingRate staking)).sum < 2 ^ 64)
    (htotal' : ((visited ++ [i]).map (slashAmount rewardSlashingRate storage)).sum < 2 ^ 64) :
    computeRewardAdjustmentsStep rewardSlashingRate staking storage
        (adjustmentsOf rewardSlashingRate staking storage visited) i =
      .ok (adjustmentsOf rewardSlashingRate staking storage (visited ++ [i])) := by
  simp only [computeRewardAdjustmentsStep, adjustmentsOf,
    recordRewardAdjustment_eq_ok hrate hi (hfit _ (List.getElem_mem hi)) hfresh htotal,
    recordRewardAdjustment_eq_ok hrate hi' (hfit' _ (List.getElem_mem hi')) hfresh htotal',
    ok_bind]
  rfl

/-- The loop of compute_reward_adjustments records each visited index once,
as long as no index repeats and the totals fit. -/
theorem foldlM_computeRewardAdjustmentsStep (hrate : rewardSlashingRate ≤ basisPointDenominator)
    (hfit : ∀ x ∈ staking, x < 2 ^ 64) (hfit' : ∀ x ∈ storage, x < 2 ^ 64) :
    ∀ (indices visited : List ℕ), (visited ++ indices).Nodup →
      (∀ i ∈ indices, i < staking.length ∧ i < storage.length) →
      ((visited ++ indices).map (slashAmount rewardSlashingRate staking)).sum < 2 ^ 64 →
      ((visited ++ indices).map (slashAmount rewardSlashingRate storage)).sum < 2 ^ 64 →
      indices.foldlM (computeRewardAdjustmentsStep rewardSlashingRate staking storage)
          (adjustmentsOf rewardSlashingRate staking storage visited) =
        .ok (adjustmentsOf rewardSlashingRate staking storage (visited ++ indices))
  | [], visited, _, _, _, _ => by simp [pure, Except.pure]
  | i :: indices, visited, hnd, hlt, htotal, htotal' => by
    have hfresh : i ∉ visited := fun h =>
      (List.nodup_append.mp hnd).2.2 i h i List.mem_cons_self rfl
    have hupto : ∀ f : ℕ → ℕ, ((visited ++ [i]).map f).sum ≤
        ((visited ++ i :: indices).map f).sum := by
      intro f
      simp
    have hassoc : visited ++ i :: indices = visited ++ [i] ++ indices := by simp
    rw [List.foldlM_cons, computeRewardAdjustmentsStep_eq_ok hrate hfit hfit'
      (hlt i List.mem_cons_self).1 (hlt i List.mem_cons_self).2 hfresh
      (Nat.lt_of_le_of_lt (hupto _) htotal) (Nat.lt_of_le_of_lt (hupto _) htotal'), ok_bind,
      hassoc]
    rw [hassoc] at hnd htotal htotal'
    exact foldlM_computeRewardAdjustmentsStep hrate hfit hfit' indices (visited ++ [i]) hnd
      (fun j hj => hlt j (List.mem_cons_of_mem _ hj)) htotal htotal'

/-- compute_reward_adjustments records every slashed validator's adjustment,
since the indices are distinct and the adjustments are at most the rewards. -/
theorem computeRewardAdjustments_eq_ok {slashed : List ℕ}
    (hrate : rewardSlashingRate ≤ basisPointDenominator) (hnodup : slashed.Nodup)
    (hlt : ∀ i ∈ slashed, i < staking.length ∧ i < storage.length)
    (hstaking : staking.sum < 2 ^ 64) (hstorage : storage.sum < 2 ^ 64) :
    computeRewardAdjustments slashed rewardSlashingRate staking storage =
      .ok (adjustmentsOf rewardSlashingRate staking storage slashed.reverse) := by
  have hsub : ∀ amounts : List ℕ, (∀ i ∈ slashed, i < amounts.length) →
      (slashed.reverse.map (slashAmount rewardSlashingRate amounts)).sum ≤ amounts.sum := by
    intro amounts hin
    rw [sum_map_reverse hnodup, ← sum_range_getD_of_length rfl]
    calc ∑ i ∈ slashed.toFinset, slashAmount rewardSlashingRate amounts i
        ≤ ∑ i ∈ slashed.toFinset, amounts.getD i 0 :=
          Finset.sum_le_sum fun i _ => slashAmount_le hrate amounts i
      _ ≤ ∑ i ∈ Finset.range amounts.length, amounts.getD i 0 :=
          Finset.sum_le_sum_of_subset fun i hi =>
            Finset.mem_range.mpr (hin i (List.mem_toFinset.mp hi))
  have hrun := foldlM_computeRewardAdjustmentsStep hrate
    (fun x hx => lt_of_mem_of_sum_lt hx hstaking) (fun x hx => lt_of_mem_of_sum_lt hx hstorage)
    slashed.reverse [] (by simpa using hnodup)
    (fun i hi => hlt i (List.mem_reverse.mp hi))
    (Nat.lt_of_le_of_lt (hsub staking fun i hi => (hlt i hi).1) hstaking)
    (Nat.lt_of_le_of_lt (hsub storage fun i hi => (hlt i hi).2) hstorage)
  exact hrun

end Adjustments

section Adjusted

theorem adjustRewardAmount_eq_ok {s t : Finset ℕ} {u a p : ℕ → ℕ} {keys : List ℕ} {i x : ℕ}
    {redistributed : Except (Abort Code) ℕ} (hts : t ⊆ s) (hi : i ∈ s)
    (hkeys : ∀ j, j ∈ keys ↔ j ∈ t) (hx : x = u i) (ha : ∀ j ∈ t, a j ≤ u j)
    (hr : i ∉ t → redistributed = .ok ((∑ j ∈ t, a j) * p i / ∑ j ∈ s \ t, p j))
    (hfit : ∑ j ∈ s, u j < 2 ^ 64) :
    adjustRewardAmount (.ofFun a keys) i x redistributed =
      .ok (ProRata.redistribute s t u a p i) := by
  unfold adjustRewardAmount
  by_cases hit : i ∈ t
  · -- a slashed validator loses its own adjustment
    have hc : (VecMap.ofFun a keys).contains i = true :=
      (VecMap.contains_ofFun a keys i).mpr ((hkeys i).mpr hit)
    rw [if_pos hc, VecMap.get_ofFun ((hkeys i).mpr hit), ok_bind, hx, sub_eq_ok (ha i hit),
      ProRata.redistribute, if_pos hit]
  · -- any other gains its share, and ends with at most what all had
    have hc : (VecMap.ofFun a keys).contains i = false := by
      rw [Bool.eq_false_iff]
      exact fun h => hit ((hkeys i).mp ((VecMap.contains_ofFun a keys i).mp h))
    have hle := ProRata.redistribute_le_sum hts u a p ha hi
    rw [ProRata.redistribute, if_neg hit] at hle
    rw [if_neg (by simp [hc]), hr hit, ok_bind, hx, add_eq_ok (by omega), ProRata.redistribute,
      if_neg hit]

variable {validators : List Validator} {slashed : List ℕ}
  {rewardSlashingRate totalStakingReward totalStorageFundReward : ℕ}

theorem slashed_subset (hslashed : ∀ i ∈ slashed, i < validators.length) :
    slashed.toFinset ⊆ Finset.range validators.length := fun i hi =>
  Finset.mem_range.mpr (hslashed i (List.mem_toFinset.mp hi))

theorem slashed_lt_length (hslashed : ∀ i ∈ slashed, i < validators.length) :
    ∀ i ∈ slashed, i < (unadjustedStaking validators totalStakingReward).length ∧
      i < (unadjustedStorage validators totalStorageFundReward).length := fun i hi => by
  rw [length_unadjustedStaking, length_unadjustedStorage]
  exact ⟨hslashed i hi, hslashed i hi⟩

/-- The loop body of compute_adjusted_reward_distribution returns the two
redistributed amounts of validator `i`. -/
theorem computeAdjustedRewardAmounts_eq_ok {i : ℕ}
    (hpower : (validators.map (·.votingPower)).sum = VotingPower.totalVotingPower)
    (hrate : rewardSlashingRate ≤ basisPointDenominator) (hnodup : slashed.Nodup)
    (hslashed : ∀ i ∈ slashed, i < validators.length)
    (hunslashed : (∃ i < validators.length, i ∉ slashed) →
      0 < unslashedVotingPower validators slashed)
    (hstaking : totalStakingReward < 2 ^ 64) (hstorage : totalStorageFundReward < 2 ^ 64)
    (hi : i < validators.length) :
    computeAdjustedRewardAmounts validators (unslashedVotingPower validators slashed)
        (Finset.range validators.length \ slashed.toFinset).card
        (unadjustedStaking validators totalStakingReward)
        (unadjustedStorage validators totalStorageFundReward)
        (adjustmentsOf rewardSlashingRate (unadjustedStaking validators totalStakingReward)
          (unadjustedStorage validators totalStorageFundReward) slashed.reverse) i =
      .ok (ProRata.redistribute (Finset.range validators.length) slashed.toFinset
          ((unadjustedStaking validators totalStakingReward).getD · 0)
          (slashAmount rewardSlashingRate (unadjustedStaking validators totalStakingReward))
          (powerAt validators) i,
        ProRata.redistribute (Finset.range validators.length) slashed.toFinset
          ((unadjustedStorage validators totalStorageFundReward).getD · 0)
          (slashAmount rewardSlashingRate (unadjustedStorage validators totalStorageFundReward))
          (fun _ => 1) i) := by
  have hts := slashed_subset hslashed
  have his : i ∈ Finset.range validators.length := Finset.mem_range.mpr hi
  have hkeys : ∀ j, j ∈ slashed.reverse ↔ j ∈ slashed.toFinset := by simp
  have hiu : i < (unadjustedStaking validators totalStakingReward).length := by
    rwa [length_unadjustedStaking]
  have his' : i < (unadjustedStorage validators totalStorageFundReward).length := by
    rwa [length_unadjustedStorage]
  -- every sum over the validators fits, being at most a reward balance
  have hus : ∑ j ∈ Finset.range validators.length,
      (unadjustedStaking validators totalStakingReward).getD j 0 ≤ totalStakingReward := by
    rw [sum_range_getD_of_length (length_unadjustedStaking _ _)]
    exact sum_unadjustedStaking_le hpower _
  have hss : ∑ j ∈ Finset.range validators.length,
      (unadjustedStorage validators totalStorageFundReward).getD j 0 ≤
        totalStorageFundReward := by
    rw [sum_range_getD_of_length (length_unadjustedStorage _ _)]
    exact sum_unadjustedStorage_le _ _
  have hslash : ∀ amounts : List ℕ, ∑ j ∈ slashed.toFinset, slashAmount rewardSlashingRate amounts j
      ≤ ∑ j ∈ Finset.range validators.length, amounts.getD j 0 := fun amounts =>
    (Finset.sum_le_sum fun j _ => slashAmount_le hrate amounts j).trans
      (Finset.sum_le_sum_of_subset hts)
  have hU : unslashedVotingPower validators slashed ≤ VotingPower.totalVotingPower := by
    rw [← hpower, ← sum_powerAt]
    exact Finset.sum_le_sum_of_subset Finset.sdiff_subset
  -- the staking share of an unslashed validator is a mul_div! by the unslashed power
  have hshare : i ∉ slashed.toFinset →
      mulDiv (slashed.reverse.map
          (slashAmount rewardSlashingRate (unadjustedStaking validators totalStakingReward))).sum
        validators[i].votingPower (unslashedVotingPower validators slashed) =
      .ok ((∑ j ∈ slashed.toFinset,
          slashAmount rewardSlashingRate (unadjustedStaking validators totalStakingReward) j) *
        powerAt validators i / ∑ j ∈ Finset.range validators.length \ slashed.toFinset,
          powerAt validators j) := by
    intro hit
    have hpos := hunslashed ⟨i, hi, fun h => hit (List.mem_toFinset.mpr h)⟩
    have hle : powerAt validators i ≤ unslashedVotingPower validators slashed :=
      Finset.single_le_sum (fun _ _ => Nat.zero_le _) (Finset.mem_sdiff.mpr ⟨his, hit⟩)
    rw [sum_map_reverse hnodup, ← powerAt_eq hi]
    exact mulDivWide_eq_ok_of_le_left
      (Nat.lt_of_le_of_lt ((hslash _).trans hus) hstaking) hle hpos
      (Nat.lt_of_le_of_lt hU (by decide))
  -- the storage share of an unslashed validator is an equal split
  have hsplit : i ∉ slashed.toFinset →
      (div (slashed.reverse.map
          (slashAmount rewardSlashingRate (unadjustedStorage validators totalStorageFundReward))).sum
        (Finset.range validators.length \ slashed.toFinset).card : Except (Abort Code) ℕ) =
      .ok ((∑ j ∈ slashed.toFinset,
          slashAmount rewardSlashingRate (unadjustedStorage validators totalStorageFundReward) j) *
        1 / ∑ _j ∈ Finset.range validators.length \ slashed.toFinset, 1) := by
    intro hit
    rw [sum_map_reverse hnodup, Finset.sum_const, smul_eq_mul, Nat.mul_one, Nat.mul_one]
    exact div_eq_ok (Finset.card_pos.mpr ⟨i, Finset.mem_sdiff.mpr ⟨his, hit⟩⟩)
  have hstakingAmount := adjustRewardAmount_eq_ok
    (u := ((unadjustedStaking validators totalStakingReward).getD · 0)) hts his hkeys
    (List.getD_eq_getElem _ _ hiu).symm (fun j _ => slashAmount_le hrate _ j) hshare
    (Nat.lt_of_le_of_lt hus hstaking)
  have hstorageAmount := adjustRewardAmount_eq_ok
    (u := ((unadjustedStorage validators totalStorageFundReward).getD · 0)) (p := fun _ => 1)
    hts his hkeys
    (List.getD_eq_getElem _ _ his').symm (fun j _ => slashAmount_le hrate _ j) hsplit
    (Nat.lt_of_le_of_lt hss hstorage)
  simp only [computeAdjustedRewardAmounts, getAt_eq_ok hi, getAt_eq_ok hiu, getAt_eq_ok his',
    ok_bind, adjustmentsOf]
  rw [hstakingAmount, ok_bind, hstorageAmount, ok_bind]
  rfl

end Adjusted

section Distribution

variable {validators : List Validator} {slashed : List ℕ}
  {rewardSlashingRate totalStakingReward totalStorageFundReward : ℕ}

/-- compute_adjusted_reward_distribution returns the redistributed amounts. -/
theorem computeAdjustedRewardDistribution_eq_ok
    (hpower : (validators.map (·.votingPower)).sum = VotingPower.totalVotingPower)
    (hrate : rewardSlashingRate ≤ basisPointDenominator) (hnodup : slashed.Nodup)
    (hslashed : ∀ i ∈ slashed, i < validators.length)
    (hunslashed : (∃ i < validators.length, i ∉ slashed) →
      0 < unslashedVotingPower validators slashed)
    (hstaking : totalStakingReward < 2 ^ 64) (hstorage : totalStorageFundReward < 2 ^ 64) :
    computeAdjustedRewardDistribution validators VotingPower.totalVotingPower
        (∑ i ∈ slashed.toFinset, powerAt validators i)
        (unadjustedStaking validators totalStakingReward)
        (unadjustedStorage validators totalStorageFundReward)
        (adjustmentsOf rewardSlashingRate (unadjustedStaking validators totalStakingReward)
          (unadjustedStorage validators totalStorageFundReward) slashed.reverse) =
      .ok (adjustedStaking validators slashed rewardSlashingRate totalStakingReward,
        adjustedStorage validators slashed rewardSlashingRate totalStorageFundReward) := by
  have hts := slashed_subset hslashed
  -- the unslashed power is what the slashed validators leave of the total
  have hparts : ∑ i ∈ Finset.range validators.length \ slashed.toFinset, powerAt validators i +
      ∑ i ∈ slashed.toFinset, powerAt validators i = VotingPower.totalVotingPower := by
    rw [Finset.sum_sdiff hts, sum_powerAt, hpower]
  have hunslashedPower : (sub VotingPower.totalVotingPower
      (∑ i ∈ slashed.toFinset, powerAt validators i) : Except (Abort Code) ℕ) =
      .ok (unslashedVotingPower validators slashed) := by
    rw [sub_eq_ok (by omega), unslashedVotingPower]
    congr 1
    omega
  -- as many validators are unslashed as are not in the slashed set
  have hnum : (sub validators.length (adjustmentsOf rewardSlashingRate
        (unadjustedStaking validators totalStakingReward)
        (unadjustedStorage validators totalStorageFundReward)
        slashed.reverse).individualStakingRewardAdjustments.length :
        Except (Abort Code) ℕ) =
      .ok (Finset.range validators.length \ slashed.toFinset).card := by
    have hcard : slashed.length ≤ validators.length := by
      rw [← List.toFinset_card_of_nodup hnodup, ← Finset.card_range validators.length]
      exact Finset.card_le_card hts
    simp only [adjustmentsOf, VecMap.length_ofFun, List.length_reverse]
    rw [sub_eq_ok hcard, Finset.card_sdiff_of_subset hts, Finset.card_range,
      List.toFinset_card_of_nodup hnodup]
  have hamounts := OptionList.mapM_eq_ok_map fun i hi =>
    computeAdjustedRewardAmounts_eq_ok hpower hrate hnodup hslashed hunslashed hstaking hstorage
      (List.mem_range.mp hi)
  simp only [computeAdjustedRewardDistribution, hunslashedPower, hnum, hamounts, ok_bind]
  simp [adjustedStaking, adjustedStorage, Prod.ext_iff, List.unzip_fst, List.unzip_snd,
    Function.comp_def, pure, Except.pure]

theorem length_adjustedStaking :
    (adjustedStaking validators slashed rewardSlashingRate totalStakingReward).length =
      validators.length := by
  simp [adjustedStaking]

theorem length_adjustedStorage :
    (adjustedStorage validators slashed rewardSlashingRate totalStorageFundReward).length =
      validators.length := by
  simp [adjustedStorage]

/-- The adjusted staking rewards sum to at most the computation reward. -/
theorem sum_adjustedStaking_le
    (hpower : (validators.map (·.votingPower)).sum = VotingPower.totalVotingPower)
    (hrate : rewardSlashingRate ≤ basisPointDenominator)
    (hslashed : ∀ i ∈ slashed, i < validators.length) :
    (adjustedStaking validators slashed rewardSlashingRate totalStakingReward).sum ≤
      totalStakingReward := by
  rw [adjustedStaking, ProRata.sum_map_range]
  calc _ ≤ ∑ i ∈ Finset.range validators.length,
          (unadjustedStaking validators totalStakingReward).getD i 0 :=
        ProRata.sum_redistribute_le (slashed_subset hslashed) _ _ _
          fun j _ => slashAmount_le hrate _ j
    _ = (unadjustedStaking validators totalStakingReward).sum :=
        sum_range_getD_of_length (length_unadjustedStaking _ _)
    _ ≤ totalStakingReward := sum_unadjustedStaking_le hpower _

/-- The adjusted storage fund rewards sum to at most the storage fund reward. -/
theorem sum_adjustedStorage_le (hrate : rewardSlashingRate ≤ basisPointDenominator)
    (hslashed : ∀ i ∈ slashed, i < validators.length) :
    (adjustedStorage validators slashed rewardSlashingRate totalStorageFundReward).sum ≤
      totalStorageFundReward := by
  rw [adjustedStorage, ProRata.sum_map_range]
  calc _ ≤ ∑ i ∈ Finset.range validators.length,
          (unadjustedStorage validators totalStorageFundReward).getD i 0 :=
        ProRata.sum_redistribute_le (slashed_subset hslashed) _ _ _
          fun j _ => slashAmount_le hrate _ j
    _ = (unadjustedStorage validators totalStorageFundReward).sum :=
        sum_range_getD_of_length (length_unadjustedStorage _ _)
    _ ≤ totalStorageFundReward := sum_unadjustedStorage_le _ _

end Distribution

/-- The commission validator `i` takes of its staking reward. -/
def commissionAt (validators : List Validator) (staking : List ℕ) (i : ℕ) : ℕ :=
  staking.getD i 0 * (validators.map (·.commissionRate)).getD i 0 / basisPointDenominator

/-- What distribute_reward pays out for validator `i`. -/
def payoutAt (validators : List Validator) (staking storage : List ℕ) (i : ℕ) : Payout :=
  ⟨commissionAt validators staking i + storage.getD i 0,
    staking.getD i 0 - commissionAt validators staking i⟩

/-- The state distribute_reward has reached after the first `j` validators. -/
def distributedState (validators : List Validator) (staking storage : List ℕ)
    (stakingRewards storageFundReward j : ℕ) : DistributionState :=
  ⟨stakingRewards - ∑ i ∈ Finset.range j, staking.getD i 0,
    storageFundReward - ∑ i ∈ Finset.range j, storage.getD i 0,
    (List.range j).map (payoutAt validators staking storage)⟩

section Payout

theorem balanceSplit_eq_ok {balance value : ℕ} (h : value ≤ balance) :
    balanceSplit balance value = .ok (balance - value) := by
  rw [balanceSplit, assert_eq_ok h, ok_bind, sub_eq_ok h]

variable {validators : List Validator} {staking storage : List ℕ}
  {stakingRewards storageFundReward : ℕ}

theorem commissionAt_le (hcommission : ∀ v ∈ validators, v.commissionRate ≤ basisPointDenominator)
    (amounts : List ℕ) (i : ℕ) : commissionAt validators amounts i ≤ amounts.getD i 0 := by
  have hrate : (validators.map (·.commissionRate)).getD i 0 ≤ basisPointDenominator := by
    by_cases hi : i < validators.length
    · rw [List.getD_eq_getElem _ _ (by simpa using hi), List.getElem_map]
      exact hcommission _ (List.getElem_mem hi)
    · rw [List.getD_eq_default _ _ (by simpa using hi)]
      exact Nat.zero_le _
  rw [commissionAt, Nat.mul_comm]
  exact ProRata.mul_div_le_of_le _ hrate

/-- The payouts of the first `j` validators are their staking and storage fund
rewards. -/
theorem sum_payouts (hcommission : ∀ v ∈ validators, v.commissionRate ≤ basisPointDenominator)
    (j : ℕ) :
    (((List.range j).map (payoutAt validators staking storage)).map
        fun p => p.validatorReward + p.stakerReward).sum =
      ∑ i ∈ Finset.range j, staking.getD i 0 + ∑ i ∈ Finset.range j, storage.getD i 0 := by
  rw [List.map_map, ProRata.sum_map_range, ← Finset.sum_add_distrib]
  refine Finset.sum_congr rfl fun i _ => ?_
  have hle := commissionAt_le hcommission staking i
  simp only [Function.comp_apply, payoutAt]
  omega

variable (hlen : staking.length = validators.length) (hlen' : storage.length = validators.length)
  (hsum : staking.sum ≤ stakingRewards) (hsum' : storage.sum ≤ storageFundReward)
  (hfit : stakingRewards < 2 ^ 64)
  (hcommission : ∀ v ∈ validators, v.commissionRate ≤ basisPointDenominator)
include hlen hlen' hsum hsum' hfit hcommission

/-- One validator's turn in distribute_reward: both splits off the balances
and the commission split succeed; only the join of commission and storage
reward can overflow. -/
theorem distributeRewardStep_eq {j : ℕ} (hj : j < validators.length) :
    distributeRewardStep validators staking storage
        (distributedState validators staking storage stakingRewards storageFundReward j) j =
      .ok (distributedState validators staking storage stakingRewards storageFundReward
        (j + 1)) ∨
    (distributeRewardStep validators staking storage
        (distributedState validators staking storage stakingRewards storageFundReward j) j =
      .error .arithmeticError ∧ 2 ^ 64 ≤ stakingRewards + storageFundReward) := by
  have hjs : j < staking.length := hlen ▸ hj
  have hjs' : j < storage.length := hlen' ▸ hj
  have hx : staking.getD j 0 = staking[j] := List.getD_eq_getElem _ _ hjs
  have hy : storage.getD j 0 = storage[j] := List.getD_eq_getElem _ _ hjs'
  -- the validators so far and this one take at most the balances
  have hupto : ∀ l : List ℕ, l.length = validators.length →
      ∑ i ∈ Finset.range (j + 1), l.getD i 0 ≤ l.sum := fun l hl =>
    (Finset.sum_le_sum_of_subset (Finset.range_subset_range.mpr (by omega))).trans
      (sum_range_getD_of_length hl).le
  have hst := hupto staking hlen
  have hsto := hupto storage hlen'
  rw [Finset.sum_range_succ] at hst hsto
  have hc : mulDiv staking[j] validators[j].commissionRate basisPointDenominator =
      .ok (commissionAt validators staking j) := by
    rw [commissionAt, hx, List.getD_eq_getElem _ _ (by simpa using hj), List.getElem_map]
    exact mulDivWide_eq_ok_of_le_left (by omega) (hcommission _ (List.getElem_mem hj))
      (by decide) (by decide)
  have hcle := commissionAt_le hcommission staking j
  have hsplit : balanceSplit
      (distributedState validators staking storage stakingRewards storageFundReward j).stakingRewards
        staking[j] =
      .ok (distributedState validators staking storage stakingRewards storageFundReward
        (j + 1)).stakingRewards := by
    simp only [distributedState, Finset.sum_range_succ]
    rw [balanceSplit_eq_ok (by omega)]
    congr 1
    omega
  have hsplit' : balanceSplit
      (distributedState validators staking storage stakingRewards storageFundReward
        j).storageFundReward storage[j] =
      .ok (distributedState validators staking storage stakingRewards storageFundReward
        (j + 1)).storageFundReward := by
    simp only [distributedState, Finset.sum_range_succ]
    rw [balanceSplit_eq_ok (by omega)]
    congr 1
    omega
  rw [distributeRewardStep, getAt_eq_ok hj, ok_bind, getAt_eq_ok hjs, ok_bind, hsplit, ok_bind,
    hc, ok_bind, balanceSplit_eq_ok (hx ▸ hcle), ok_bind, getAt_eq_ok hjs', ok_bind, hsplit',
    ok_bind, balanceJoin]
  by_cases hjoin : commissionAt validators staking j + storage[j] < 2 ^ 64
  · -- the validator is paid its commission and storage reward, the stakers the rest
    left
    rw [add_eq_ok hjoin, ok_bind]
    have hpay : (⟨commissionAt validators staking j + storage[j],
        staking[j] - commissionAt validators staking j⟩ : Payout) =
        payoutAt validators staking storage j := by
      rw [payoutAt, hx, hy]
    simp only [hpay, pure, Except.pure]
    simp [distributedState, List.range_succ]
  · -- a join that overflows needs the balances together to reach 2^64
    right
    rw [add, if_neg hjoin]
    exact ⟨rfl, by omega⟩

/-- The loop of distribute_reward over the first `j` validators. -/
theorem foldlM_distributeRewardStep : ∀ j ≤ validators.length,
    (List.range j).foldlM (distributeRewardStep validators staking storage)
        ⟨stakingRewards, storageFundReward, []⟩ =
      .ok (distributedState validators staking storage stakingRewards storageFundReward j) ∨
    ((List.range j).foldlM (distributeRewardStep validators staking storage)
        ⟨stakingRewards, storageFundReward, []⟩ =
      .error .arithmeticError ∧ 2 ^ 64 ≤ stakingRewards + storageFundReward)
  | 0, _ => .inl (by simp [distributedState, pure, Except.pure])
  | j + 1, hj => by
    rw [List.range_succ, List.foldlM_append]
    rcases foldlM_distributeRewardStep j (by omega) with hrun | ⟨hrun, hover⟩
    · simp only [hrun, ok_bind, List.foldlM_cons, List.foldlM_nil, bind_pure]
      exact distributeRewardStep_eq hlen hlen' hsum hsum' hfit hcommission (by omega)
    · rw [hrun, error_bind]
      exact .inr ⟨rfl, hover⟩

/-- **Every split of distribute_reward succeeds**: for amounts within the two
balances, distribute_reward either pays every validator and leaves what the
amounts do not take, or aborts on a join that overflows, which needs the two
balances together to reach 2^64. -/
theorem distributeReward_eq (hne : validators ≠ []) :
    distributeReward validators staking storage stakingRewards storageFundReward =
      .ok (distributedState validators staking storage stakingRewards storageFundReward
        validators.length) ∨
    (distributeReward validators staking storage stakingRewards storageFundReward =
      .error .arithmeticError ∧ 2 ^ 64 ≤ stakingRewards + storageFundReward) := by
  have hassert : assert (validators.length > 0) Code.eValidatorSetEmpty = .ok () :=
    assert_eq_ok (List.length_pos_iff.mpr hne)
  rw [distributeReward, hassert, ok_bind]
  exact foldlM_distributeRewardStep hlen hlen' hsum hsum' hfit hcommission _ le_rfl

omit hsum hsum' hfit hcommission in
/-- After every validator, the balances keep what the amounts do not take. -/
theorem distributedState_all :
    (distributedState validators staking storage stakingRewards storageFundReward
        validators.length).stakingRewards = stakingRewards - staking.sum ∧
    (distributedState validators staking storage stakingRewards storageFundReward
        validators.length).storageFundReward = storageFundReward - storage.sum := by
  constructor
  · show stakingRewards - ∑ i ∈ Finset.range validators.length, staking.getD i 0 = _
    rw [sum_range_getD_of_length hlen]
  · show storageFundReward - ∑ i ∈ Finset.range validators.length, storage.getD i 0 = _
    rw [sum_range_getD_of_length hlen']

end Payout

section ValidatorSetRewards

variable {validators : List Validator} {slashed : List ℕ}
  {rewardSlashingRate computationReward storageFundReward : ℕ}

/-- The reward part of the validator set's advance_epoch computes the adjusted
amounts and pays them out, or aborts on an overflowing join. -/
theorem distributeEpochRewards_eq (hne : validators ≠ [])
    (hpower : (validators.map (·.votingPower)).sum = VotingPower.totalVotingPower)
    (hcommission : ∀ v ∈ validators, v.commissionRate ≤ basisPointDenominator)
    (hrate : rewardSlashingRate ≤ basisPointDenominator) (hnodup : slashed.Nodup)
    (hslashed : ∀ i ∈ slashed, i < validators.length)
    (hunslashed : (∃ i < validators.length, i ∉ slashed) →
      0 < unslashedVotingPower validators slashed)
    (hstaking : computationReward < 2 ^ 64) (hstorage : storageFundReward < 2 ^ 64) :
    distributeEpochRewards validators slashed rewardSlashingRate computationReward
        storageFundReward =
      .ok (distributedState validators
        (adjustedStaking validators slashed rewardSlashingRate computationReward)
        (adjustedStorage validators slashed rewardSlashingRate storageFundReward)
        computationReward storageFundReward validators.length) ∨
    (distributeEpochRewards validators slashed rewardSlashingRate computationReward
        storageFundReward = .error .arithmeticError ∧
      2 ^ 64 ≤ computationReward + storageFundReward) := by
  have hadjustments := computeRewardAdjustments_eq_ok hrate hnodup
    (slashed_lt_length hslashed)
    (Nat.lt_of_le_of_lt (sum_unadjustedStaking_le hpower _) hstaking)
    (Nat.lt_of_le_of_lt (sum_unadjustedStorage_le _ _) hstorage)
  simp only [distributeEpochRewards, computeUnadjustedRewardDistribution_eq_ok hne hpower hstaking,
    sumVotingPowerByIndices_eq_ok hpower hnodup hslashed, hadjustments,
    computeAdjustedRewardDistribution_eq_ok hpower hrate hnodup hslashed hunslashed hstaking
      hstorage, ok_bind]
  exact distributeReward_eq length_adjustedStaking length_adjustedStorage
    (sum_adjustedStaking_le hpower hrate hslashed) (sum_adjustedStorage_le hrate hslashed)
    hstaking hcommission hne

/-- When the two balances fit together in u64, the validator set pays every
validator: the payouts are what the adjusted amounts take out of the balances,
which is at most what they hold. -/
theorem distributeEpochRewards_pays (hne : validators ≠ [])
    (hpower : (validators.map (·.votingPower)).sum = VotingPower.totalVotingPower)
    (hcommission : ∀ v ∈ validators, v.commissionRate ≤ basisPointDenominator)
    (hrate : rewardSlashingRate ≤ basisPointDenominator) (hnodup : slashed.Nodup)
    (hslashed : ∀ i ∈ slashed, i < validators.length)
    (hunslashed : (∃ i < validators.length, i ∉ slashed) →
      0 < unslashedVotingPower validators slashed)
    (hfit : computationReward + storageFundReward < 2 ^ 64) :
    ∃ paidStaking paidStorage state,
      distributeEpochRewards validators slashed rewardSlashingRate computationReward
        storageFundReward = .ok state ∧
      paidStaking ≤ computationReward ∧ paidStorage ≤ storageFundReward ∧
      state.stakingRewards = computationReward - paidStaking ∧
      state.storageFundReward = storageFundReward - paidStorage ∧
      (state.payouts.map fun p => p.validatorReward + p.stakerReward).sum =
        paidStaking + paidStorage := by
  have hstaking : computationReward < 2 ^ 64 := by omega
  have hstorage : storageFundReward < 2 ^ 64 := by omega
  rcases distributeEpochRewards_eq hne hpower hcommission hrate hnodup hslashed hunslashed
      hstaking hstorage with hdist | ⟨-, hover⟩
  · refine ⟨_, _, _, hdist, sum_adjustedStaking_le hpower hrate hslashed,
      sum_adjustedStorage_le hrate hslashed,
      (distributedState_all length_adjustedStaking length_adjustedStorage).1,
      (distributedState_all length_adjustedStaking length_adjustedStorage).2, ?_⟩
    simp only [distributedState]
    rw [sum_payouts hcommission, sum_range_getD_of_length length_adjustedStaking,
      sum_range_getD_of_length length_adjustedStorage]
  · exact absurd hover (Nat.not_le.mpr hfit)

end ValidatorSetRewards

/-- The storage fund's share of the computation charge, in proportion to the
fund's part of the total stake. -/
def storageFundShare (storageFundBalance totalValidatorsStake computationCharge : ℕ) : ℕ :=
  storageFundBalance * computationCharge / (storageFundBalance + totalValidatorsStake)

section Split

variable {storageFundTotalBalance accumulatorStorageFundAmount totalValidatorsStake
  computationCharge stakeSubsidyAmount storageFundReinvestRate rewardSlashingRate : ℕ}

/-- The reward split of advance_epoch returns the computation reward less the
storage fund's share, that share less its reinvestment, and the
reinvestment. -/
theorem splitEpochRewards_eq_ok (hreinvest : storageFundReinvestRate ≤ basisPointDenominator)
    (hrate : rewardSlashingRate ≤ basisPointDenominator)
    (hstake : 0 < storageFundTotalBalance + accumulatorStorageFundAmount + totalValidatorsStake)
    (hstakeFit :
      storageFundTotalBalance + accumulatorStorageFundAmount + totalValidatorsStake < 2 ^ 64)
    (hrewardFit : computationCharge + stakeSubsidyAmount < 2 ^ 64) :
    splitEpochRewards storageFundTotalBalance accumulatorStorageFundAmount totalValidatorsStake
        computationCharge stakeSubsidyAmount storageFundReinvestRate rewardSlashingRate =
      .ok ⟨computationCharge + stakeSubsidyAmount -
          storageFundShare (storageFundTotalBalance + accumulatorStorageFundAmount)
            totalValidatorsStake computationCharge,
        storageFundShare (storageFundTotalBalance + accumulatorStorageFundAmount)
            totalValidatorsStake computationCharge -
          storageFundShare (storageFundTotalBalance + accumulatorStorageFundAmount)
            totalValidatorsStake computationCharge * storageFundReinvestRate /
            basisPointDenominator,
        storageFundShare (storageFundTotalBalance + accumulatorStorageFundAmount)
            totalValidatorsStake computationCharge * storageFundReinvestRate /
          basisPointDenominator⟩ := by
  -- the fund's part of the stake takes at most the whole charge
  have hshare : storageFundShare (storageFundTotalBalance + accumulatorStorageFundAmount)
      totalValidatorsStake computationCharge ≤ computationCharge :=
    ProRata.mul_div_le_of_le _ (Nat.le_add_right _ _)
  have hreinvestment : storageFundShare (storageFundTotalBalance + accumulatorStorageFundAmount)
      totalValidatorsStake computationCharge * storageFundReinvestRate / basisPointDenominator ≤
      storageFundShare (storageFundTotalBalance + accumulatorStorageFundAmount)
        totalValidatorsStake computationCharge := by
    rw [Nat.mul_comm]
    exact ProRata.mul_div_le_of_le _ hreinvest
  have hbalance : (add 64 storageFundTotalBalance accumulatorStorageFundAmount :
      Except (Abort Code) ℕ) = .ok (storageFundTotalBalance + accumulatorStorageFundAmount) :=
    add_eq_ok (by omega)
  have htotal : (add 64 (storageFundTotalBalance + accumulatorStorageFundAmount)
      totalValidatorsStake : Except (Abort Code) ℕ) =
      .ok (storageFundTotalBalance + accumulatorStorageFundAmount + totalValidatorsStake) :=
    add_eq_ok hstakeFit
  have hjoin : balanceJoin computationCharge stakeSubsidyAmount =
      .ok (computationCharge + stakeSubsidyAmount) := add_eq_ok hrewardFit
  have hmul : mulDiv (storageFundTotalBalance + accumulatorStorageFundAmount) computationCharge
      (storageFundTotalBalance + accumulatorStorageFundAmount + totalValidatorsStake) =
      .ok (storageFundShare (storageFundTotalBalance + accumulatorStorageFundAmount)
        totalValidatorsStake computationCharge) :=
    mulDivWide_eq_ok (by omega) (by omega) hstake (by rw [← storageFundShare]; omega)
  have hmul' : mulDiv (storageFundShare (storageFundTotalBalance + accumulatorStorageFundAmount)
        totalValidatorsStake computationCharge) storageFundReinvestRate basisPointDenominator =
      .ok (storageFundShare (storageFundTotalBalance + accumulatorStorageFundAmount)
        totalValidatorsStake computationCharge * storageFundReinvestRate /
          basisPointDenominator) :=
    mulDivWide_eq_ok_of_le_left (by omega) hreinvest (by decide) (by decide)
  have hsplit : balanceSplit (computationCharge + stakeSubsidyAmount)
      (storageFundShare (storageFundTotalBalance + accumulatorStorageFundAmount)
        totalValidatorsStake computationCharge) =
      .ok (computationCharge + stakeSubsidyAmount -
        storageFundShare (storageFundTotalBalance + accumulatorStorageFundAmount)
          totalValidatorsStake computationCharge) := balanceSplit_eq_ok (by omega)
  simp only [splitEpochRewards, assert_eq_ok (show storageFundReinvestRate ≤ basisPointDenominator ∧
      rewardSlashingRate ≤ basisPointDenominator from ⟨hreinvest, hrate⟩), hbalance, htotal,
    hjoin, hmul, hsplit, hmul', balanceSplit_eq_ok hreinvestment, ok_bind]
  rfl

/-- With a positive total stake, the reward split of advance_epoch returns
exactly when the rates are at most 100% and its additions fit: neither
mul_div! nor either split aborts. -/
theorem splitEpochRewards_isOk_iff
    (hstake : 0 < storageFundTotalBalance + accumulatorStorageFundAmount + totalValidatorsStake) :
    (∃ r, splitEpochRewards storageFundTotalBalance accumulatorStorageFundAmount
        totalValidatorsStake computationCharge stakeSubsidyAmount storageFundReinvestRate
        rewardSlashingRate = .ok r) ↔
      (storageFundReinvestRate ≤ basisPointDenominator ∧
        rewardSlashingRate ≤ basisPointDenominator) ∧
      storageFundTotalBalance + accumulatorStorageFundAmount + totalValidatorsStake < 2 ^ 64 ∧
      computationCharge + stakeSubsidyAmount < 2 ^ 64 := by
  constructor
  · rintro ⟨r, h⟩
    simp only [splitEpochRewards, bind_eq_ok] at h
    obtain ⟨_, hassert, balance, hbalance, total, htotal, reward, hreward, -⟩ := h
    obtain ⟨rfl, -⟩ := eq_of_add_eq_ok hbalance
    obtain ⟨rfl, htotalFit⟩ := eq_of_add_eq_ok htotal
    exact ⟨of_assert_eq_ok hassert, htotalFit, (eq_of_add_eq_ok hreward).2⟩
  · rintro ⟨⟨hreinvest, hrate⟩, hstakeFit, hrewardFit⟩
    exact ⟨_, splitEpochRewards_eq_ok hreinvest hrate hstake hstakeFit hrewardFit⟩

end Split

section AdvanceEpoch

variable {validators : List Validator} {slashed : List ℕ}
  {storageFundTotalBalance accumulatorStorageFundAmount totalValidatorsStake
    computationCharge stakeSubsidyAmount storageFundReinvestRate rewardSlashingRate : ℕ}

end AdvanceEpoch

example : advanceEpochRewards [⟨6000, 1000⟩, ⟨4000, 0⟩] [1] 100 0 100 1000 0 5000 5000 =
    .ok ⟨[⟨227, 360⟩, ⟨63, 100⟩], 500, 250, 0, 250⟩ := by
  decide

section Conservation

/-- What the reward path holds at a point of distribute_reward: the payouts so
far and what is left of the two balances. -/
def DistributionState.total (state : DistributionState) : ℕ :=
  (state.payouts.map fun p => p.validatorReward + p.stakerReward).sum + state.stakingRewards +
    state.storageFundReward

theorem eq_of_balanceSplit_eq_ok {balance value r : ℕ} (h : balanceSplit balance value = .ok r) :
    r = balance - value ∧ value ≤ balance :=
  Balance.eq_of_split_eq_ok h

theorem eq_of_balanceJoin_eq_ok {balance value r : ℕ} (h : balanceJoin balance value = .ok r) :
    r = balance + value :=
  (Balance.eq_of_join_eq_ok h).1

/-- A round of distribute_reward that returns moves its amounts from the two
balances to the validator's payout: the commission is split off the staking
reward, and joined with the storage reward. -/
theorem total_of_distributeRewardStep_eq_ok {validators : List Validator}
    {staking storage : List ℕ} {state state' : DistributionState} {i : ℕ}
    (h : distributeRewardStep validators staking storage state i = .ok state') :
    state'.total = state.total := by
  simp only [distributeRewardStep, bind_eq_ok] at h
  obtain ⟨validator, -, stakingAmount, -, stakingRewards, hstaking, commission, -, stakerReward,
    hstaker, storageAmount, -, storageFundReward, hstorage, validatorReward, hjoin, hout⟩ := h
  obtain ⟨rfl, hstakingLe⟩ := eq_of_balanceSplit_eq_ok hstaking
  obtain ⟨rfl, hcommission⟩ := eq_of_balanceSplit_eq_ok hstaker
  obtain ⟨rfl, hstorageLe⟩ := eq_of_balanceSplit_eq_ok hstorage
  obtain rfl := eq_of_balanceJoin_eq_ok hjoin
  obtain rfl := (Except.ok.inj hout).symm
  simp only [DistributionState.total, List.map_append, List.sum_append, List.map_singleton,
    List.sum_singleton]
  omega

/-- Whenever the reward distribution of ValidatorSet::advance_epoch returns,
the payouts and what is left of the two balances add up to the two balances. -/
theorem total_of_distributeEpochRewards_eq_ok {validators : List Validator} {slashed : List ℕ}
    {rewardSlashingRate computationReward storageFundReward : ℕ} {state : DistributionState}
    (h : distributeEpochRewards validators slashed rewardSlashingRate computationReward
      storageFundReward = .ok state) :
    state.total = computationReward + storageFundReward := by
  simp only [distributeEpochRewards, distributeReward, bind_eq_ok] at h
  obtain ⟨_, _, _, _, _, _, _, _, _, _, hfold⟩ := h
  obtain ⟨-, htotal⟩ := OptionList.foldlM_invariant (fun _ => True)
    (fun s s' : DistributionState => s'.total = s.total) (fun _ => rfl)
    (fun _ _ _ h₁₂ h₂₃ => h₂₃.trans h₁₂)
    (fun _ _ _ _ _ hstep => ⟨trivial, total_of_distributeRewardStep_eq_ok hstep⟩) trivial hfold
  rw [htotal]
  simp [DistributionState.total]

/-- Whenever the reward split of SuiSystemStateInnerV2::advance_epoch returns,
the computation reward, the storage fund reward and the reinvestment add up to
the computation charge and the stake subsidy. -/
theorem sum_of_splitEpochRewards_eq_ok {storageFundTotalBalance accumulatorStorageFundAmount
    totalValidatorsStake computationCharge stakeSubsidyAmount storageFundReinvestRate
    rewardSlashingRate : ℕ} {split : EpochRewardSplit}
    (h : splitEpochRewards storageFundTotalBalance accumulatorStorageFundAmount totalValidatorsStake
      computationCharge stakeSubsidyAmount storageFundReinvestRate rewardSlashingRate = .ok split) :
    split.computationReward + split.storageFundReward + split.storageFundReinvestment =
      computationCharge + stakeSubsidyAmount := by
  simp only [splitEpochRewards, bind_eq_ok] at h
  obtain ⟨-, -, -, -, -, -, reward, hjoin, amount, -, rest, hsplit, reinvestment, -, storage,
    hstorage, hout⟩ := h
  obtain rfl := eq_of_balanceJoin_eq_ok hjoin
  obtain ⟨rfl, hamount⟩ := eq_of_balanceSplit_eq_ok hsplit
  obtain ⟨rfl, hreinvestment⟩ := eq_of_balanceSplit_eq_ok hstorage
  obtain rfl := (Except.ok.inj hout).symm
  dsimp only
  omega

end Conservation

end Sui.EpochRewards
