import Sui.Framework.Table
import Sui.Framework.VecMap
import Sui.Framework.VecSet
import Sui.SuiSystem.VotingPower
import Sui.Holdings

/-!
# Who stays a validator at an epoch change (`validator_set.move`)

At the end of each epoch ValidatorSet::advance_epoch first lets go the
validators that asked to leave (process_pending_removals), then decides who
stays and who joins for the next epoch
(update_validator_positions_and_calculate_total_stake), following SIP-39:
the voting power each validator would have, its stake's share of the stake of
the active and pending validators together, is compared with three
thresholds that fall as the admission phases pass
(get_voting_power_thresholds). An active validator at or above the low
threshold is safe; one between the very low and the low threshold is at risk,
and the epochs it has spent so counted in `at_risk_validators`, and it leaves
once that count passes the grace period; one below the very low threshold
leaves at once. A pending validator joins when it reaches the joining
threshold and goes back to the candidates otherwise. Every validator that
leaves goes through process_validator_departure: its staking pool mapping is
removed, its at-risk entry dropped, the report records about it and by it are
cleaned (clean_report_records_leaving_validator), and it is deactivated into
`inactive_validators`. The function returns the stake of the next epoch.

The model keeps the fields of `ValidatorSet` that these functions read or
write. A validator is its address, its pool's id and SUI balance and the
pool's activation and deactivation epochs; a table is a partial function
(`Table`), `at_risk_validators` and the report records are vector maps
(`VecMap`, `VecSet`). Events are not modelled: they change no state.
-/

namespace Sui.Membership

open MoveArith VotingPower

/-- The abort codes the membership functions of validator_set raise, with
those of the modules they call. -/
inductive Code where
  /-- validator_set::ENotAValidator -/
  | eNotAValidator
  /-- validator_set::EDuplicateValidator -/
  | eDuplicateValidator
  /-- validator_set::EMinJoiningStakeNotReached -/
  | eMinJoiningStakeNotReached
  /-- validator_set::EAlreadyValidatorCandidate -/
  | eAlreadyValidatorCandidate
  /-- validator_set::EValidatorNotCandidate -/
  | eValidatorNotCandidate
  /-- validator_set::ENotValidatorCandidate -/
  | eNotValidatorCandidate
  /-- validator_set::EValidatorAlreadyRemoved -/
  | eValidatorAlreadyRemoved
  /-- validator_set::EAlreadyValidator -/
  | eAlreadyValidator
  /-- staking_pool::EPoolAlreadyActive -/
  | ePoolAlreadyActive
  /-- staking_pool::EActivationOfInactivePool -/
  | eActivationOfInactivePool
  /-- staking_pool::EDeactivationOfInactivePool -/
  | eDeactivationOfInactivePool
  /-- validator_set::EInvalidCap -/
  | eInvalidCap
  /-- validator_set::ENonValidatorInReportRecords -/
  | eNonValidatorInReportRecords
  /-- sui_system_state_inner::ENotValidator -/
  | eNotValidator
  /-- sui_system_state_inner::ECannotReportOneself -/
  | eCannotReportOneself
  /-- sui_system_state_inner::EReportRecordNotFound -/
  | eReportRecordNotFound
  | table (code : Table.Code)
  | vecMap (code : VecMap.Code)
  | vecSet (code : VecSet.Code)
  | votingPower (code : VotingPower.Code)
  deriving DecidableEq, Repr

/-- A callee's computation, its abort codes wrapped into these by `f`. -/
def lift {D α : Type} (f : D → Code) (x : Except (Abort D) α) : Except (Abort Code) α :=
  x.mapError (Abort.map f)

/-- The fields of a validator that the membership functions read and write:
sui_address(), staking_pool_id(), operation_cap_id(), total_stake() (its
pool's SUI balance), voting_power() and the pool's activation and
deactivation epochs. -/
structure Validator where
  suiAddress : ℕ
  stakingPoolId : ℕ
  operationCapId : ℕ
  totalStake : ℕ
  votingPower : ℕ
  activationEpoch : Option ℕ
  deactivationEpoch : Option ℕ
  deriving DecidableEq, Repr

/-- The fields of ValidatorSet the membership functions use. Of the bag
`extra_fields` they read one key, VotingPowerAdmissionStartEpochKey. -/
structure ValidatorSet where
  totalStake : ℕ
  activeValidators : List Validator
  pendingActiveValidators : List Validator
  pendingRemovals : List ℕ
  /-- staking pool id to validator address -/
  stakingPoolMappings : Table ℕ ℕ
  /-- staking pool id to validator -/
  inactiveValidators : Table ℕ Validator
  /-- validator address to validator -/
  validatorCandidates : Table ℕ Validator
  /-- validator address to the number of epochs it has been at risk -/
  atRiskValidators : VecMap ℕ ℕ
  votingPowerAdmissionStartEpoch : Option ℕ

/-- The report records of sui_system_state_inner: each reported validator's
address with the addresses of the validators that reported it. -/
abbrev ReportRecords := VecMap ℕ (VecSet ℕ)

namespace Validator

/-- validator::is_preactive: the pool has no activation epoch yet. -/
def isPreactive (self : Validator) : Bool :=
  self.activationEpoch.isNone

/-- staking_pool::is_inactive: the pool has a deactivation epoch. -/
def isInactive (self : Validator) : Bool :=
  self.deactivationEpoch.isSome

/-- validator::activate, through staking_pool::activate_staking_pool. -/
def activate (self : Validator) (activationEpoch : ℕ) : Except (Abort Code) Validator := do
  assert (self.isPreactive = true) .ePoolAlreadyActive
  assert (self.isInactive = false) .eActivationOfInactivePool
  pure { self with activationEpoch := some activationEpoch }

/-- validator::deactivate, through staking_pool::deactivate_staking_pool. -/
def deactivate (self : Validator) (deactivationEpoch : ℕ) : Except (Abort Code) Validator := do
  assert (self.isInactive = false) .eDeactivationOfInactivePool
  pure { self with deactivationEpoch := some deactivationEpoch }

end Validator

/-- PHASE_LENGTH: the admission phases are 14 epochs long. -/
def phaseLength : ℕ := 14

/-- get_voting_power_thresholds: the (minimum joining, low, very low) voting
power of the admission phase `epoch` is in, counted from the start epoch in
extra_fields, or from the next epoch when there is none yet. -/
def getVotingPowerThresholds (self : ValidatorSet) (epoch : ℕ) :
    Except (Abort Code) (ℕ × ℕ × ℕ) := do
  let startEpoch ← match self.votingPowerAdmissionStartEpoch with
    | some startEpoch => pure startEpoch
    | none => add 64 epoch 1
  let phaseOneEnd ← add 64 startEpoch phaseLength
  if epoch < phaseOneEnd then pure (12, 8, 4)
  else
    let phaseTwoEnd ← add 64 startEpoch (2 * phaseLength)
    if epoch < phaseTwoEnd then pure (6, 4, 2) else pure (3, 2, 1)

/-- calculate_total_stakes -/
def calculateTotalStakes (validators : List Validator) : Except (Abort Code) ℕ :=
  validators.foldlM (fun stake v => add 64 stake v.totalStake) 0

/-- can_join: whether a candidate with `stake` would reach the minimum joining
voting power once its stake is added to the total. -/
def canJoin (self : ValidatorSet) (stake epoch : ℕ) : Except (Abort Code) Bool := do
  let (minJoiningVotingPower, _, _) ← getVotingPowerThresholds self epoch
  let futureTotalStake ← add 64 self.totalStake stake
  let futureValidatorVotingPower ←
    lift .votingPower (deriveRawVotingPower stake futureTotalStake)
  pure (decide (futureValidatorVotingPower ≥ minJoiningVotingPower))

/-- The loop of clean_report_records_leaving_validator over the addresses of
the reported validators, taken before it starts: the leaving validator is
removed from each one's reporters, and a reported validator left without
reporters is removed. -/
def cleanReportRecordsLoop (leavingValidatorAddr : ℕ) :
    List ℕ → ReportRecords → Except (Abort Code) ReportRecords
  | [], validatorReportRecords => pure validatorReportRecords
  | reportedValidatorAddr :: reportedValidators, validatorReportRecords => do
    let reporters ← lift .vecMap (validatorReportRecords.get reportedValidatorAddr)
    if reporters.contains leavingValidatorAddr then
      let reporters ← lift .vecSet (reporters.remove leavingValidatorAddr)
      let validatorReportRecords ←
        lift .vecMap (validatorReportRecords.write reportedValidatorAddr reporters)
      if reporters.isEmpty then
        let (_, validatorReportRecords) ←
          lift .vecMap (validatorReportRecords.remove reportedValidatorAddr)
        cleanReportRecordsLoop leavingValidatorAddr reportedValidators validatorReportRecords
      else cleanReportRecordsLoop leavingValidatorAddr reportedValidators validatorReportRecords
    else cleanReportRecordsLoop leavingValidatorAddr reportedValidators validatorReportRecords

/-- clean_report_records_leaving_validator -/
def cleanReportRecordsLeavingValidator (validatorReportRecords : ReportRecords)
    (leavingValidatorAddr : ℕ) : Except (Abort Code) ReportRecords := do
  -- remove the records about this validator
  let validatorReportRecords ←
    lift .vecMap (validatorReportRecords.removeIfContains leavingValidatorAddr)
  -- remove the reports submitted by this validator
  cleanReportRecordsLoop leavingValidatorAddr validatorReportRecords.keys validatorReportRecords

/-- process_validator_departure: the set without the validator's tables'
entries and with the validator deactivated into the inactive table, the
cleaned report records, and the stake that left. -/
def processValidatorDeparture (self : ValidatorSet) (validator : Validator)
    (validatorReportRecords : ReportRecords) (epoch : ℕ) :
    Except (Abort Code) (ValidatorSet × ReportRecords × ℕ) := do
  let newEpoch ← add 64 epoch 1
  let validatorAddress := validator.suiAddress
  let validatorPoolId := validator.stakingPoolId
  let (_, stakingPoolMappings) ← lift .table (self.stakingPoolMappings.remove validatorPoolId)
  let atRiskValidators ← lift .vecMap (self.atRiskValidators.removeIfContains validatorAddress)
  let validatorReportRecords ←
    cleanReportRecordsLeavingValidator validatorReportRecords validatorAddress
  let removedStake := validator.totalStake
  let validator ← validator.deactivate newEpoch
  let inactiveValidators ← lift .table (self.inactiveValidators.add validatorPoolId validator)
  pure ({ self with stakingPoolMappings, atRiskValidators, inactiveValidators },
    validatorReportRecords, removedStake)

/-- The drain loop of process_pending_removals over the indices popped from
the back of the sorted pending removals. -/
def processPendingRemovalsLoop (epoch : ℕ) :
    List ℕ → ValidatorSet → ReportRecords → Except (Abort Code) (ValidatorSet × ReportRecords)
  | [], self, validatorReportRecords => pure (self, validatorReportRecords)
  | index :: indices, self, validatorReportRecords => do
    let (validator, activeValidators) ← removeAt self.activeValidators index
    let (self, validatorReportRecords, _) ←
      processValidatorDeparture { self with activeValidators } validator validatorReportRecords
        epoch
    processPendingRemovalsLoop epoch indices self validatorReportRecords

/-- process_pending_removals: the pending removals sorted in ascending order
and drained from the back, so that the highest index is removed first and
the others keep their positions. The loop reads nothing of the pending
removals but the indices it pops, so the model empties them at once. -/
def processPendingRemovals (self : ValidatorSet) (validatorReportRecords : ReportRecords)
    (epoch : ℕ) : Except (Abort Code) (ValidatorSet × ReportRecords) :=
  let pendingRemovals := self.pendingRemovals.insertionSort (· ≤ ·)
  processPendingRemovalsLoop epoch pendingRemovals.reverse { self with pendingRemovals := [] }
    validatorReportRecords

/-- The block both removing branches of the positions loop run: the
validator at `i` taken out of the active validators and sent through
process_validator_departure, its stake added to what was removed. -/
def removeActiveValidator (self : ValidatorSet) (i : ℕ) (validatorReportRecords : ReportRecords)
    (epoch totalRemovedStake : ℕ) :
    Except (Abort Code) (ValidatorSet × ReportRecords × ℕ) := do
  let (validator, activeValidators) ← removeAt self.activeValidators i
  let (self, validatorReportRecords, removedStake) ←
    processValidatorDeparture { self with activeValidators } validator validatorReportRecords epoch
  let totalRemovedStake ← add 64 totalRemovedStake removedStake
  pure (self, validatorReportRecords, totalRemovedStake)

/-- The count of epochs at risk of the validator at `validatorAddress`, one
more than before or one if it was not at risk, and the map with it. -/
def incrementAtRisk (atRiskValidators : VecMap ℕ ℕ) (validatorAddress : ℕ) :
    Except (Abort Code) (ℕ × VecMap ℕ ℕ) :=
  if atRiskValidators.contains validatorAddress then do
    let numEpochs ← lift .vecMap (atRiskValidators.get validatorAddress)
    let numEpochs ← add 64 numEpochs 1
    let atRiskValidators ← lift .vecMap (atRiskValidators.write validatorAddress numEpochs)
    pure (numEpochs, atRiskValidators)
  else do
    let atRiskValidators ← lift .vecMap (atRiskValidators.insert validatorAddress 1)
    pure (1, atRiskValidators)

/-- The while loop of update_validator_positions_and_calculate_total_stake
over the active validators from index `i - 1` down to 0: each one's voting
power, were no validator removed, decides whether it is safe, at risk or
leaves. Removing the validator at `i - 1` leaves those below it in place. -/
def updateValidatorPositionsLoop (lowStakeGracePeriod initialTotalStake
    lowVotingPowerThreshold veryLowVotingPowerThreshold epoch : ℕ) :
    ℕ → ValidatorSet → ReportRecords → ℕ →
      Except (Abort Code) (ValidatorSet × ReportRecords × ℕ)
  | 0, self, validatorReportRecords, totalRemovedStake =>
    pure (self, validatorReportRecords, totalRemovedStake)
  | i + 1, self, validatorReportRecords, totalRemovedStake => do
    let validatorRef ← getAt self.activeValidators i
    let validatorAddress := validatorRef.suiAddress
    let validatorStake := validatorRef.totalStake
    let votingPower ← lift .votingPower (deriveRawVotingPower validatorStake initialTotalStake)
    if votingPower ≥ lowVotingPowerThreshold then
      -- safe: its at-risk entry, if any, is dropped
      let atRiskValidators ←
        lift .vecMap (self.atRiskValidators.removeIfContains validatorAddress)
      updateValidatorPositionsLoop lowStakeGracePeriod initialTotalStake lowVotingPowerThreshold
        veryLowVotingPowerThreshold epoch i { self with atRiskValidators } validatorReportRecords
        totalRemovedStake
    else if votingPower ≥ veryLowVotingPowerThreshold then
      let (newLowStakePeriod, atRiskValidators) ←
        incrementAtRisk self.atRiskValidators validatorAddress
      let self := { self with atRiskValidators }
      if newLowStakePeriod > lowStakeGracePeriod then
        let (self, validatorReportRecords, totalRemovedStake) ←
          removeActiveValidator self i validatorReportRecords epoch totalRemovedStake
        updateValidatorPositionsLoop lowStakeGracePeriod initialTotalStake
          lowVotingPowerThreshold veryLowVotingPowerThreshold epoch i self validatorReportRecords
          totalRemovedStake
      else
        updateValidatorPositionsLoop lowStakeGracePeriod initialTotalStake
          lowVotingPowerThreshold veryLowVotingPowerThreshold epoch i self validatorReportRecords
          totalRemovedStake
    else
      let (self, validatorReportRecords, totalRemovedStake) ←
        removeActiveValidator self i validatorReportRecords epoch totalRemovedStake
      updateValidatorPositionsLoop lowStakeGracePeriod initialTotalStake lowVotingPowerThreshold
        veryLowVotingPowerThreshold epoch i self validatorReportRecords totalRemovedStake

/-- The do! loop of update_validator_positions_and_calculate_total_stake over
the pending validators: each one that reaches the joining threshold is
activated and pushed onto the active validators, and each other one goes
back to the candidates, its stake added to what was removed. -/
def addPendingValidatorsLoop (initialTotalStake minJoiningVotingPowerThreshold epoch : ℕ) :
    List Validator → ValidatorSet → ℕ → Except (Abort Code) (ValidatorSet × ℕ)
  | [], self, totalRemovedStake => pure (self, totalRemovedStake)
  | validator :: pendingActiveValidators, self, totalRemovedStake => do
    let validatorStake := validator.totalStake
    let votingPower ← lift .votingPower (deriveRawVotingPower validatorStake initialTotalStake)
    if votingPower ≥ minJoiningVotingPowerThreshold then
      let validator ← validator.activate epoch
      addPendingValidatorsLoop initialTotalStake minJoiningVotingPowerThreshold epoch
        pendingActiveValidators
        { self with activeValidators := self.activeValidators ++ [validator] } totalRemovedStake
    else
      let validatorCandidates ←
        lift .table (self.validatorCandidates.add validator.suiAddress validator)
      let totalRemovedStake ← add 64 totalRemovedStake validatorStake
      addPendingValidatorsLoop initialTotalStake minJoiningVotingPowerThreshold epoch
        pendingActiveValidators { self with validatorCandidates } totalRemovedStake

/-- update_validator_positions_and_calculate_total_stake: the set of the next
epoch, the cleaned report records and the next epoch's total stake. The
pending validators are popped off the back of their table vector into a
local vector, which so holds them in reverse order. -/
def updateValidatorPositionsAndCalculateTotalStake (self : ValidatorSet)
    (lowStakeGracePeriod : ℕ) (validatorReportRecords : ReportRecords) (epoch : ℕ) :
    Except (Abort Code) (ValidatorSet × ReportRecords × ℕ) := do
  let pendingActiveValidators := self.pendingActiveValidators.reverse
  let self := { self with pendingActiveValidators := [] }
  let pendingTotalStake ← calculateTotalStakes pendingActiveValidators
  let activeTotalStake ← calculateTotalStakes self.activeValidators
  let initialTotalStake ← add 64 activeTotalStake pendingTotalStake
  let (minJoiningVotingPowerThreshold, lowVotingPowerThreshold, veryLowVotingPowerThreshold) ←
    getVotingPowerThresholds self epoch
  let (self, validatorReportRecords, totalRemovedStake) ←
    updateValidatorPositionsLoop lowStakeGracePeriod initialTotalStake lowVotingPowerThreshold
      veryLowVotingPowerThreshold epoch self.activeValidators.length self validatorReportRecords 0
  let (self, totalRemovedStake) ←
    addPendingValidatorsLoop initialTotalStake minJoiningVotingPowerThreshold epoch
      pendingActiveValidators self totalRemovedStake
  let newTotalStake ← sub initialTotalStake totalRemovedStake
  pure (self, validatorReportRecords, newTotalStake)

/-! ## What the helpers compute -/

/-- The stake of a list of validators. -/
def stakeSum (validators : List Validator) : ℕ :=
  (validators.map Validator.totalStake).sum

@[simp] theorem stakeSum_nil : stakeSum [] = 0 := rfl

@[simp] theorem stakeSum_cons (v : Validator) (validators : List Validator) :
    stakeSum (v :: validators) = v.totalStake + stakeSum validators := by
  simp [stakeSum]

@[simp] theorem stakeSum_append (validators validators' : List Validator) :
    stakeSum (validators ++ validators') = stakeSum validators + stakeSum validators' := by
  simp [stakeSum]

@[simp] theorem stakeSum_reverse (validators : List Validator) :
    stakeSum validators.reverse = stakeSum validators := by
  simp [stakeSum, List.sum_reverse]

/-- Splitting validators by a test splits their stake. -/
theorem stakeSum_filter_add (p : Validator → Bool) :
    ∀ validators : List Validator,
      stakeSum (validators.filter p) + stakeSum (validators.filter fun v => !p v) =
        stakeSum validators
  | [] => rfl
  | v :: validators => by
    have ih := stakeSum_filter_add p validators
    cases hp : p v <;> simp [hp] <;> omega

/-- A reported validator's entry once `leaving` has left: gone if it is
`leaving` itself or `leaving` was its only reporter, else without `leaving`
among its reporters. -/
def withoutReporter (leaving : ℕ) (e : ℕ × VecSet ℕ) : Option (ℕ × VecSet ℕ) :=
  if e.1 = leaving then none
  else if leaving ∈ e.2.contents then
    if e.2.contents.erase leaving = [] then none
    else some (e.1, ⟨e.2.contents.erase leaving, e.2.nodup.erase leaving⟩)
  else some e

/-- SIP-39's rule for an active validator with voting power `votingPower`
that has been at risk for `atRisk` epochs (none: not at risk): it stays when
it is at or above the low threshold, or at or above the very low one for no
more epochs than the grace period. -/
def staysActive (lowStakeGracePeriod low veryLow : ℕ) (atRisk : Option ℕ) (votingPower : ℕ) :
    Bool :=
  decide (low ≤ votingPower) ||
    (decide (veryLow ≤ votingPower) && decide (atRisk.getD 0 + 1 ≤ lowStakeGracePeriod))

/-- ... and the epochs it has been at risk after the epoch change: none when it
is safe or leaves, one more otherwise. -/
def nextAtRisk (lowStakeGracePeriod low veryLow : ℕ) (atRisk : Option ℕ) (votingPower : ℕ) :
    Option ℕ :=
  if low ≤ votingPower then none
  else if veryLow ≤ votingPower ∧ atRisk.getD 0 + 1 ≤ lowStakeGracePeriod then
    some (atRisk.getD 0 + 1)
  else none

/-- Whether the active validator `v` stays by that rule, at the at-risk counts
of `atRisk` and its share of the stake `total`. -/
def keepsPosition (grace low veryLow total : ℕ) (atRisk : VecMap ℕ ℕ) (v : Validator) : Bool :=
  staysActive grace low veryLow (atRisk.lookup v.suiAddress) (rawVotingPower v.totalStake total)

/-- The validators of `validators` that leave by that rule. -/
def leavers (grace low veryLow total : ℕ) (atRisk : VecMap ℕ ℕ) (validators : List Validator) :
    List Validator :=
  validators.filter fun v => !keepsPosition grace low veryLow total atRisk v

/-- The staking pool mappings once the validators of `leaving` have left. -/
def unmapPools (leaving : List Validator) (mappings : ℕ → Option ℕ) : ℕ → Option ℕ :=
  leaving.foldr (fun v m => Function.update m v.stakingPoolId none) mappings

/-- The inactive validators once those of `leaving` have been deactivated at
`epoch`. -/
def deactivatePools (leaving : List Validator) (epoch : ℕ) (inactive : ℕ → Option Validator) :
    ℕ → Option Validator :=
  leaving.foldr
    (fun v m => Function.update m v.stakingPoolId (some { v with deactivationEpoch := some epoch }))
    inactive

/-- The at-risk counts once the validators of `leaving` have left, the last
one first. -/
def forgetAtRisk (leaving : List Validator) (atRisk : ℕ → Option ℕ) : ℕ → Option ℕ :=
  leaving.foldr (fun v f => Function.update f v.suiAddress none) atRisk

/-- The report records once the validators of `leaving` have left, the last
one first. -/
def cleanRecords (leaving : List Validator) (es : List (ℕ × VecSet ℕ)) : List (ℕ × VecSet ℕ) :=
  leaving.foldr (fun v es => es.filterMap (withoutReporter v.suiAddress)) es

/-- Whether a pending validator joins: its share of the stake `total` reaches
the minimum joining voting power. -/
def joins (minJoining total : ℕ) (v : Validator) : Bool :=
  decide (minJoining ≤ rawVotingPower v.totalStake total)

/-- The candidates once the validators of `returning` have gone back to them,
in turn. -/
def addCandidates (returning : List Validator) (candidates : ℕ → Option Validator) :
    ℕ → Option Validator :=
  returning.foldl (fun m v => Function.update m v.suiAddress (some v)) candidates

section Helpers

@[simp] theorem lift_ok {D α : Type} (f : D → Code) (a : α) :
    lift f (.ok a : Except (Abort D) α) = .ok a := rfl

theorem lift_eq_ok {D α : Type} {f : D → Code} {x : Except (Abort D) α} {a : α} :
    lift f x = .ok a ↔ x = .ok a :=
  mapError_eq_ok

theorem eq_of_deriveRawVotingPower_eq_ok {stake totalStake r : ℕ}
    (h : deriveRawVotingPower stake totalStake = .ok r) : r = rawVotingPower stake totalStake := by
  rw [deriveRawVotingPower] at h
  obtain ⟨product, hmul, h⟩ := bind_eq_ok.mp h
  obtain ⟨quotient, hdiv, hcast⟩ := bind_eq_ok.mp h
  rw [(eq_of_cast_eq_ok hcast).1, eq_of_div_eq_ok hdiv, eq_of_mul_eq_ok hmul]
  rfl

theorem foldlM_addStake_eq :
    ∀ {validators : List Validator} {stake total : ℕ},
      (validators.foldlM (fun stake v => add 64 stake v.totalStake) stake :
        Except (Abort Code) ℕ) = .ok total →
        total = stake + stakeSum validators
  | [], stake, total, h => by
    cases h
    simp
  | v :: validators, stake, total, h => by
    rw [List.foldlM_cons] at h
    obtain ⟨stake', hadd, hrest⟩ := bind_eq_ok.mp h
    rw [foldlM_addStake_eq hrest, (eq_of_add_eq_ok hadd).1, stakeSum_cons, Nat.add_assoc]

theorem foldlM_addStake_eq_ok :
    ∀ {validators : List Validator} {stake : ℕ}, stake + stakeSum validators < 2 ^ 64 →
      (validators.foldlM (fun stake v => add 64 stake v.totalStake) stake :
        Except (Abort Code) ℕ) = .ok (stake + stakeSum validators)
  | [], stake, _ => by
    rw [stakeSum_nil, Nat.add_zero]
    rfl
  | v :: validators, stake, h => by
    rw [stakeSum_cons, ← Nat.add_assoc] at h ⊢
    rw [List.foldlM_cons, add_eq_ok (by omega), ok_bind, foldlM_addStake_eq_ok h]

theorem eq_of_calculateTotalStakes_eq_ok {validators : List Validator} {total : ℕ}
    (h : calculateTotalStakes validators = .ok total) : total = stakeSum validators := by
  rw [foldlM_addStake_eq h, Nat.zero_add]

namespace Validator

variable {v v' : Validator} {epoch : ℕ}

theorem eq_of_activate_eq_ok (h : v.activate epoch = .ok v') :
    v' = { v with activationEpoch := some epoch } ∧ v.isPreactive = true ∧ v.isInactive = false := by
  rw [activate] at h
  obtain ⟨u, hpre, h⟩ := bind_eq_ok.mp h
  obtain ⟨u', hin, h⟩ := bind_eq_ok.mp h
  cases h
  exact ⟨rfl, of_assert_eq_ok hpre, of_assert_eq_ok hin⟩

theorem deactivate_eq_ok (hin : v.isInactive = false) (epoch : ℕ) :
    v.deactivate epoch = .ok { v with deactivationEpoch := some epoch } := by
  rw [deactivate, assert_eq_ok hin, ok_bind]
  rfl

theorem eq_of_deactivate_eq_ok (h : v.deactivate epoch = .ok v') :
    v' = { v with deactivationEpoch := some epoch } ∧ v.isInactive = false := by
  rw [deactivate] at h
  obtain ⟨u, hin, h⟩ := bind_eq_ok.mp h
  cases h
  exact ⟨rfl, of_assert_eq_ok hin⟩

end Validator

end Helpers

/-! ## Cleaning the report records -/

section Clean

variable (leaving : ℕ)

/-- The loop over the reported validators never aborts: each address it is
given is a key of the map when its turn comes, and it rewrites that entry as
`withoutReporter` says. -/
theorem cleanReportRecordsLoop_eq_ok :
    ∀ (done rest : List (ℕ × VecSet ℕ)) (records : ReportRecords),
      records.contents = done ++ rest → (∀ e ∈ rest, e.1 ≠ leaving) →
        ∃ records', cleanReportRecordsLoop leaving (rest.map Prod.fst) records = .ok records' ∧
          records'.contents = done ++ rest.filterMap (withoutReporter leaving)
  | done, [], records, h, _ => ⟨records, rfl, by simpa using h⟩
  | done, (k, s) :: rest, records, h, hne => by
    have hk : k ≠ leaving := hne (k, s) List.mem_cons_self
    have hrest : ∀ e ∈ rest, e.1 ≠ leaving := fun e he => hne e (List.mem_cons_of_mem _ he)
    have hget : records.get k = .ok s := VecMap.get_eq_ok h
    by_cases hmem : leaving ∈ s.contents
    · -- leaving reported k: it is taken out of k's reporters
      obtain ⟨s', hremove, hs'⟩ := VecSet.remove_eq_ok (show leaving ∈ s.elems from hmem)
      obtain ⟨records₁, hwrite, h₁⟩ := VecMap.write_eq_ok h s'
      have hcontains : s.contains leaving = true := VecSet.contains_iff.mpr hmem
      by_cases hempty : s.contents.erase leaving = []
      · -- and k, left without reporters, is removed
        have hisEmpty : s'.isEmpty = true := by
          simp [VecSet.isEmpty, VecSet.length, hs', hempty]
        obtain ⟨records₂, hremove₂, h₂⟩ := VecMap.remove_eq_ok h₁
        obtain ⟨records', hloop, hcontents⟩ := cleanReportRecordsLoop_eq_ok done rest records₂ h₂ hrest
        refine ⟨records', ?_, ?_⟩
        · simp only [List.map_cons, cleanReportRecordsLoop, hget, lift_ok, ok_bind, hcontains,
            if_true, hremove, hwrite, hisEmpty, hremove₂]
          exact hloop
        · rw [hcontents, List.filterMap_cons, withoutReporter, if_neg hk, if_pos hmem,
            if_pos hempty]
      · have hisEmpty : s'.isEmpty = false := by
          simp [VecSet.isEmpty, VecSet.length, hs', hempty]
        obtain ⟨records', hloop, hcontents⟩ :=
          cleanReportRecordsLoop_eq_ok (done ++ [(k, s')]) rest records₁ (by simp [h₁]) hrest
        refine ⟨records', ?_, ?_⟩
        · simp only [List.map_cons, cleanReportRecordsLoop, hget, lift_ok, ok_bind, hcontains,
            if_true, hremove, hwrite, hisEmpty, Bool.false_eq_true, if_false]
          exact hloop
        · have hs : s' = ⟨s.contents.erase leaving, s.nodup.erase leaving⟩ := VecSet.ext hs'
          rw [hcontents, List.filterMap_cons, withoutReporter, if_neg hk, if_pos hmem,
            if_neg hempty, ← hs]
          simp
    · -- leaving did not report k: the entry stays as it is
      have hcontains : s.contains leaving = false :=
        Bool.eq_false_iff.mpr fun hc => hmem (VecSet.contains_iff.mp hc)
      obtain ⟨records', hloop, hcontents⟩ :=
        cleanReportRecordsLoop_eq_ok (done ++ [(k, s)]) rest records (by simp [h]) hrest
      refine ⟨records', ?_, ?_⟩
      · simp only [List.map_cons, cleanReportRecordsLoop, hget, lift_ok, ok_bind, hcontains,
          Bool.false_eq_true, if_false]
        exact hloop
      · rw [hcontents, List.filterMap_cons, withoutReporter, if_neg hk, if_neg hmem]
        simp

/-- clean_report_records_leaving_validator never aborts, and leaves each entry
as `withoutReporter` says, in its order. -/
theorem cleanReportRecordsLeavingValidator_eq_ok (records : ReportRecords) :
    ∃ records', cleanReportRecordsLeavingValidator records leaving = .ok records' ∧
      records'.contents = records.contents.filterMap (withoutReporter leaving) := by
  obtain ⟨records₁, hremove, h₁⟩ := records.removeIfContains_eq_ok leaving
  have hne : ∀ e ∈ records₁.contents, e.1 ≠ leaving := by
    intro e he
    rw [h₁] at he
    simpa using (List.mem_filter.mp he).2
  obtain ⟨records', hloop, hcontents⟩ :=
    cleanReportRecordsLoop_eq_ok leaving [] records₁.contents records₁ (List.nil_append _).symm hne
  refine ⟨records', ?_, ?_⟩
  · rw [cleanReportRecordsLeavingValidator, hremove, lift_ok, ok_bind]
    exact hloop
  · rw [hcontents, h₁, List.nil_append, List.filterMap_filter]
    apply List.filterMap_congr
    intro e _
    by_cases hkey : e.1 = leaving
    · simp [hkey, withoutReporter]
    · simp [hkey]

/-- After `leaving` has gone, it is neither a reported validator nor a
reporter, and an address that was neither stays so. -/
theorem not_mem_filterMap_withoutReporter {es : List (ℕ × VecSet ℕ)} {e : ℕ × VecSet ℕ}
    (he : e ∈ es.filterMap (withoutReporter leaving)) :
    (e.1 ≠ leaving ∧ leaving ∉ e.2.contents) ∧ ∃ e₀ ∈ es, e.1 = e₀.1 ∧ e.2.contents ⊆ e₀.2.contents := by
  obtain ⟨e₀, he₀, hsome⟩ := List.mem_filterMap.mp he
  unfold withoutReporter at hsome
  split_ifs at hsome with hkey hmem hempty
  · cases hsome
    exact ⟨⟨hkey, List.Nodup.not_mem_erase e₀.2.nodup⟩, e₀, he₀, rfl, List.erase_subset⟩
  · cases hsome
    exact ⟨⟨hkey, hmem⟩, e, he₀, rfl, List.Subset.refl _⟩

end Clean

/-! ## A validator leaving -/

section Departure

variable {self self' : ValidatorSet} {validator : Validator} {records records' : ReportRecords}
  {epoch removedStake : ℕ}

/-- The state process_validator_departure leaves, when it returns: the
validator's pool mapping is removed and the validator, deactivated at the
next epoch, is added to the inactive table; its at-risk entry is gone; the
report records are cleaned of it; and the stake that left is its own. -/
theorem eq_of_processValidatorDeparture_eq_ok
    (h : processValidatorDeparture self validator records epoch = .ok (self', records', removedStake)) :
    removedStake = validator.totalStake ∧
      records'.contents = records.contents.filterMap (withoutReporter validator.suiAddress) ∧
      self'.atRiskValidators.lookup =
        Function.update self.atRiskValidators.lookup validator.suiAddress none ∧
      self' = { self with
        stakingPoolMappings :=
          ⟨Function.update self.stakingPoolMappings.contents validator.stakingPoolId none⟩
        atRiskValidators := self'.atRiskValidators
        inactiveValidators := self.inactiveValidators.write validator.stakingPoolId
          { validator with deactivationEpoch := some (epoch + 1) } } := by
  rw [processValidatorDeparture] at h
  obtain ⟨newEpoch, hepoch, h⟩ := bind_eq_ok.mp h
  obtain ⟨⟨address, stakingPoolMappings⟩, hmappings, h⟩ := bind_eq_ok.mp h
  obtain ⟨atRiskValidators, hatRisk, h⟩ := bind_eq_ok.mp h
  obtain ⟨records₁, hclean, h⟩ := bind_eq_ok.mp h
  obtain ⟨deactivated, hdeactivate, h⟩ := bind_eq_ok.mp h
  obtain ⟨inactiveValidators, hinactive, h⟩ := bind_eq_ok.mp h
  cases h
  rw [(eq_of_add_eq_ok hepoch).1] at hdeactivate
  obtain ⟨-, hremoved⟩ := Table.eq_of_remove_eq_ok (lift_eq_ok.mp hmappings)
  obtain ⟨records₂, hclean₂, hcontents⟩ :=
    cleanReportRecordsLeavingValidator_eq_ok validator.suiAddress records
  rw [hclean₂] at hclean
  cases hclean
  obtain ⟨-, rfl⟩ := Table.eq_of_add_eq_ok (lift_eq_ok.mp hinactive)
  obtain ⟨rfl, -⟩ := Validator.eq_of_deactivate_eq_ok hdeactivate
  refine ⟨rfl, hcontents, VecMap.lookup_of_removeIfContains_eq_ok (lift_eq_ok.mp hatRisk), ?_⟩
  have hmappings' : stakingPoolMappings =
      ⟨Function.update self.stakingPoolMappings.contents validator.stakingPoolId none⟩ := by
    cases stakingPoolMappings
    congr
    funext k'
    have hk' := hremoved k'
    dsimp only at hk'
    rw [hk', Function.update_apply]
  rw [hmappings']

end Departure

/-! ## One round of the positions loop -/

section Round

variable {self self' : ValidatorSet} {records records' : ReportRecords}
  {grace total low veryLow epoch removed removed' : ℕ} {P S : List Validator} {v : Validator}

theorem eq_of_incrementAtRisk_eq_ok {atRisk atRisk' : VecMap ℕ ℕ} {a c : ℕ}
    (h : incrementAtRisk atRisk a = .ok (c, atRisk')) :
    c = (atRisk.lookup a).getD 0 + 1 ∧
      atRisk'.lookup = Function.update atRisk.lookup a (some c) := by
  unfold incrementAtRisk at h
  split at h
  · -- at risk already: the count goes up by one
    obtain ⟨n, hget, h⟩ := bind_eq_ok.mp h
    obtain ⟨c', hadd, h⟩ := bind_eq_ok.mp h
    obtain ⟨atRisk₁, hwrite, h⟩ := bind_eq_ok.mp h
    cases h
    have hlookup : atRisk.lookup a = some n :=
      VecMap.lookup_eq_some_iff.mpr (VecMap.eq_of_get_eq_ok (lift_eq_ok.mp hget))
    rw [hlookup, Option.getD_some]
    exact ⟨(eq_of_add_eq_ok hadd).1, VecMap.lookup_of_write_eq_ok (lift_eq_ok.mp hwrite)⟩
  · -- newly at risk: the count starts at one
    rename_i hcontains
    obtain ⟨atRisk₁, hinsert, h⟩ := bind_eq_ok.mp h
    cases h
    have hlookup : atRisk.lookup a = none :=
      VecMap.lookup_eq_none_iff.mpr fun hk => hcontains (VecMap.contains_iff.mpr hk)
    rw [hlookup]
    exact ⟨rfl, VecMap.lookup_of_insert_eq_ok (lift_eq_ok.mp hinsert)⟩

/-- Removing the validator at the position of `v` sends `v` through
process_validator_departure and leaves the validators around it. -/
theorem eq_of_removeActiveValidator_eq_ok (hsplit : self.activeValidators = P ++ v :: S)
    (h : removeActiveValidator self P.length records epoch removed = .ok (self', records', removed')) :
    removed' = removed + v.totalStake ∧
      records'.contents = records.contents.filterMap (withoutReporter v.suiAddress) ∧
      self'.atRiskValidators.lookup = Function.update self.atRiskValidators.lookup v.suiAddress none ∧
      self' = { self with
        activeValidators := P ++ S
        stakingPoolMappings := ⟨Function.update self.stakingPoolMappings.contents v.stakingPoolId none⟩
        atRiskValidators := self'.atRiskValidators
        inactiveValidators := self.inactiveValidators.write v.stakingPoolId
          { v with deactivationEpoch := some (epoch + 1) } } := by
  simp only [removeActiveValidator, hsplit, removeAt_append_length, ok_bind] at h
  obtain ⟨⟨self₁, records₁, removedStake⟩, hdepart, h⟩ := bind_eq_ok.mp h
  obtain ⟨total', hadd, h⟩ := bind_eq_ok.mp h
  cases h
  obtain ⟨rfl, hrecords, hatRisk, hself⟩ := eq_of_processValidatorDeparture_eq_ok hdepart
  exact ⟨(eq_of_add_eq_ok hadd).1, hrecords, hatRisk, hself⟩

/-- One round of the positions loop, at the position of `v`: `v`'s at-risk
count becomes `nextAtRisk`, and the loop goes on below `v` with the state
unchanged if `v` stays, or with `v` sent through the departure if it leaves. -/
theorem updateValidatorPositionsLoop_succ_eq_ok {r : ValidatorSet × ReportRecords × ℕ}
    (hsplit : self.activeValidators = P ++ v :: S)
    (h : updateValidatorPositionsLoop grace total low veryLow epoch (P.length + 1) self records
      removed = .ok r) :
    ∃ self₁ records₁ removed₁,
      updateValidatorPositionsLoop grace total low veryLow epoch P.length self₁ records₁ removed₁ =
        .ok r ∧
      self₁.atRiskValidators.lookup = Function.update self.atRiskValidators.lookup v.suiAddress
        (nextAtRisk grace low veryLow (self.atRiskValidators.lookup v.suiAddress)
          (rawVotingPower v.totalStake total)) ∧
      if keepsPosition grace low veryLow total self.atRiskValidators v then
        self₁ = { self with atRiskValidators := self₁.atRiskValidators } ∧ records₁ = records ∧
          removed₁ = removed
      else
        self₁ = { self with
          activeValidators := P ++ S
          stakingPoolMappings :=
            ⟨Function.update self.stakingPoolMappings.contents v.stakingPoolId none⟩
          atRiskValidators := self₁.atRiskValidators
          inactiveValidators := self.inactiveValidators.write v.stakingPoolId
            { v with deactivationEpoch := some (epoch + 1) } } ∧
        records₁.contents = records.contents.filterMap (withoutReporter v.suiAddress) ∧
        removed₁ = removed + v.totalStake := by
  have hget : (getAt self.activeValidators P.length : Except (Abort Code) Validator) = .ok v := by
    rw [hsplit, getAt_eq_ok (by simp)]
    simp
  rw [updateValidatorPositionsLoop, hget, ok_bind] at h
  obtain ⟨votingPower, hvp, h⟩ := bind_eq_ok.mp h
  obtain rfl := eq_of_deriveRawVotingPower_eq_ok (lift_eq_ok.mp hvp)
  by_cases hlow : low ≤ rawVotingPower v.totalStake total
  · -- safe: only the at-risk entry goes
    rw [if_pos hlow] at h
    obtain ⟨atRisk₁, hremove, h⟩ := bind_eq_ok.mp h
    refine ⟨_, _, _, h, ?_, ?_⟩
    · simpa [nextAtRisk, hlow] using VecMap.lookup_of_removeIfContains_eq_ok (lift_eq_ok.mp hremove)
    · rw [if_pos (by simp [keepsPosition, staysActive, hlow])]
      exact ⟨rfl, rfl, rfl⟩
  rw [if_neg hlow] at h
  by_cases hveryLow : veryLow ≤ rawVotingPower v.totalStake total
  · -- at risk: the count goes up, and the validator leaves past the grace period
    rw [if_pos hveryLow] at h
    obtain ⟨⟨c, atRisk₁⟩, hincrement, h⟩ := bind_eq_ok.mp h
    obtain ⟨rfl, hatRisk₁⟩ := eq_of_incrementAtRisk_eq_ok hincrement
    dsimp only at h
    by_cases hgrace : (self.atRiskValidators.lookup v.suiAddress).getD 0 + 1 > grace
    · rw [if_pos hgrace] at h
      obtain ⟨⟨self₂, records₂, removed₂⟩, hremove, h⟩ := bind_eq_ok.mp h
      obtain ⟨hremoved, hrecords, hatRisk₂, hself₂⟩ := eq_of_removeActiveValidator_eq_ok
        (show ({ self with atRiskValidators := atRisk₁ } : ValidatorSet).activeValidators =
          P ++ v :: S from hsplit) hremove
      refine ⟨self₂, records₂, removed₂, h, ?_, ?_⟩
      · rw [hatRisk₂, hatRisk₁, Function.update_idem]
        simp [nextAtRisk, hlow, Nat.not_le.mpr hgrace]
      · rw [if_neg (by simp [keepsPosition, staysActive, hlow, Nat.not_le.mpr hgrace])]
        exact ⟨hself₂, hrecords, hremoved⟩
    · rw [if_neg hgrace] at h
      refine ⟨_, _, _, h, ?_, ?_⟩
      · rw [hatRisk₁]
        simp [nextAtRisk, hlow, hveryLow, Nat.le_of_not_lt hgrace]
      · rw [if_pos (by simp [keepsPosition, staysActive, hveryLow, Nat.le_of_not_lt hgrace])]
        exact ⟨rfl, rfl, rfl⟩
  · -- below the very low threshold: the validator leaves at once
    rw [if_neg hveryLow] at h
    obtain ⟨⟨self₂, records₂, removed₂⟩, hremove, h⟩ := bind_eq_ok.mp h
    obtain ⟨hremoved, hrecords, hatRisk₂, hself₂⟩ := eq_of_removeActiveValidator_eq_ok hsplit hremove
    refine ⟨self₂, records₂, removed₂, h, ?_, ?_⟩
    · rw [hatRisk₂]
      simp [nextAtRisk, hlow, hveryLow]
    · rw [if_neg (by simp [keepsPosition, staysActive, hlow, hveryLow])]
      exact ⟨hself₂, hrecords, hremoved⟩

/-- The positions loop over the front `P` of the active validators, whose
addresses are distinct. It keeps the validators of `P` that stay by SIP-39's
rule at the at-risk counts it started from, adds the stake of the others to
what was removed and sends them through the departure, from the last: their
pools move from the mappings to the inactive table and the report records are
cleaned of them. Each validator of `P` gets the at-risk count `nextAtRisk`
says, and every other count is left as it was. -/
theorem updateValidatorPositionsLoop_eq_ok (P : List Validator) :
    ∀ {S : List Validator} {self self' : ValidatorSet} {records records' : ReportRecords}
      {removed removed' : ℕ},
      (P.map Validator.suiAddress).Nodup → self.activeValidators = P ++ S →
      updateValidatorPositionsLoop grace total low veryLow epoch P.length self records removed =
        .ok (self', records', removed') →
      self' = { self with
        activeValidators :=
          P.filter (keepsPosition grace low veryLow total self.atRiskValidators) ++ S
        stakingPoolMappings := ⟨unmapPools (leavers grace low veryLow total
          self.atRiskValidators P) self.stakingPoolMappings.contents⟩
        atRiskValidators := self'.atRiskValidators
        inactiveValidators := ⟨deactivatePools (leavers grace low veryLow total
          self.atRiskValidators P) (epoch + 1) self.inactiveValidators.contents⟩ } ∧
      removed' = removed + stakeSum (leavers grace low veryLow total self.atRiskValidators P) ∧
      records'.contents =
        cleanRecords (leavers grace low veryLow total self.atRiskValidators P) records.contents ∧
      (∀ v ∈ P, self'.atRiskValidators.lookup v.suiAddress =
        nextAtRisk grace low veryLow (self.atRiskValidators.lookup v.suiAddress)
          (rawVotingPower v.totalStake total)) ∧
      (∀ a ∉ P.map Validator.suiAddress,
        self'.atRiskValidators.lookup a = self.atRiskValidators.lookup a) := by
  induction P using List.reverseRecOn with
  | nil =>
    intro S self self' records records' removed removed' _ hsplit h
    cases h
    refine ⟨?_, rfl, rfl, by simp, fun _ _ => rfl⟩
    rw [List.nil_append] at hsplit
    simp only [List.filter_nil, List.nil_append, ← hsplit]
    rfl
  | append_singleton P v ih =>
    intro S self self' records records' removed removed' hnodup hsplit h
    rw [List.map_append, List.map_singleton, List.nodup_append] at hnodup
    obtain ⟨hnodupP, -, hdisj⟩ := hnodup
    have hvP : v.suiAddress ∉ P.map Validator.suiAddress :=
      fun hmem => hdisj _ hmem _ (List.mem_singleton_self _) rfl
    rw [List.append_assoc, List.singleton_append] at hsplit
    rw [List.length_append, List.length_singleton] at h
    obtain ⟨self₁, records₁, removed₁, hloop, hatRisk₁, hround⟩ :=
      updateValidatorPositionsLoop_succ_eq_ok hsplit h
    -- the validators below v see the at-risk counts they started with
    have hsame : ∀ w ∈ P, self₁.atRiskValidators.lookup w.suiAddress =
        self.atRiskValidators.lookup w.suiAddress := by
      intro w hw
      have hne : w.suiAddress ≠ v.suiAddress :=
        fun heq => hvP (heq ▸ List.mem_map_of_mem hw)
      rw [hatRisk₁, Function.update_of_ne hne]
    have hkeeps : P.filter (keepsPosition grace low veryLow total self₁.atRiskValidators) =
        P.filter (keepsPosition grace low veryLow total self.atRiskValidators) :=
      List.filter_congr fun w hw => by rw [keepsPosition, keepsPosition, hsame w hw]
    have hleavers : leavers grace low veryLow total self₁.atRiskValidators P =
        leavers grace low veryLow total self.atRiskValidators P :=
      List.filter_congr fun w hw => by rw [keepsPosition, keepsPosition, hsame w hw]
    have hother : ∀ a ∉ (P ++ [v]).map Validator.suiAddress,
        self₁.atRiskValidators.lookup a = self.atRiskValidators.lookup a := by
      intro a ha
      have hne : a ≠ v.suiAddress := fun heq => ha (by simp [heq])
      rw [hatRisk₁, Function.update_of_ne hne]
    by_cases hstays : keepsPosition grace low veryLow total self.atRiskValidators v = true
    · -- v stays: the loop goes on below it with v in the processed part
      rw [if_pos hstays] at hround
      obtain ⟨hself₁, rfl, rfl⟩ := hround
      obtain ⟨hself', hremoved, hrecords, hmem, hframe⟩ :=
        ih hnodupP (by rw [hself₁]; exact hsplit) hloop
      rw [hkeeps, hleavers] at hself'
      rw [hleavers] at hremoved hrecords
      have hleaversv : leavers grace low veryLow total self.atRiskValidators (P ++ [v]) =
          leavers grace low veryLow total self.atRiskValidators P := by
        simp [leavers, hstays]
      refine ⟨?_, by rw [hleaversv, hremoved], by rw [hleaversv, hrecords], ?_, ?_⟩
      · rw [hself', hself₁, hleaversv]
        simp [List.filter_append, hstays]
      · intro w hw
        rcases List.mem_append.mp hw with hw | hw
        · rw [hmem w hw, hsame w hw]
        · rw [List.mem_singleton.mp hw, hframe _ hvP, hatRisk₁, Function.update_self]
      · intro a ha
        rw [hframe a fun haP => ha (by simp [haP]), hother a ha]
    · -- v leaves: the loop goes on below it without v
      rw [if_neg hstays] at hround
      obtain ⟨hself₁, hrecords₁, rfl⟩ := hround
      obtain ⟨hself', hremoved, hrecords, hmem, hframe⟩ :=
        ih hnodupP (by rw [hself₁]) hloop
      rw [hkeeps, hleavers] at hself'
      rw [hleavers] at hremoved hrecords
      have hleaversv : leavers grace low veryLow total self.atRiskValidators (P ++ [v]) =
          leavers grace low veryLow total self.atRiskValidators P ++ [v] := by
        simp [leavers, hstays]
      refine ⟨?_, ?_, ?_, ?_, ?_⟩
      · rw [hself', hself₁, hleaversv]
        simp [List.filter_append, hstays, unmapPools, deactivatePools, Table.write]
      · rw [hleaversv, hremoved, stakeSum_append, stakeSum_cons, stakeSum_nil]
        omega
      · rw [hleaversv, hrecords, hrecords₁, cleanRecords, cleanRecords, List.foldr_append]
        rfl
      · intro w hw
        rcases List.mem_append.mp hw with hw | hw
        · rw [hmem w hw, hsame w hw]
        · rw [List.mem_singleton.mp hw, hframe _ hvP, hatRisk₁, Function.update_self]
      · intro a ha
        rw [hframe a fun haP => ha (by simp [haP]), hother a ha]

/-- Whatever the addresses, a positions loop that returns has only moved stake
from the active validators to what was removed. -/
theorem stakeSum_add_of_updateValidatorPositionsLoop_eq_ok (P : List Validator) :
    ∀ {S : List Validator} {self self' : ValidatorSet} {records records' : ReportRecords}
      {removed removed' : ℕ}, self.activeValidators = P ++ S →
      updateValidatorPositionsLoop grace total low veryLow epoch P.length self records removed =
        .ok (self', records', removed') →
      stakeSum self'.activeValidators + removed' = stakeSum self.activeValidators + removed := by
  induction P using List.reverseRecOn with
  | nil =>
    intro S self self' records records' removed removed' _ h
    cases h
    rfl
  | append_singleton P v ih =>
    intro S self self' records records' removed removed' hsplit h
    rw [List.append_assoc, List.singleton_append] at hsplit
    rw [List.length_append, List.length_singleton] at h
    obtain ⟨self₁, records₁, removed₁, hloop, -, hround⟩ :=
      updateValidatorPositionsLoop_succ_eq_ok hsplit h
    split at hround
    · obtain ⟨hself₁, -, rfl⟩ := hround
      rw [ih (by rw [hself₁]; exact hsplit) hloop, hself₁]
    · obtain ⟨hself₁, -, rfl⟩ := hround
      rw [ih (by rw [hself₁]) hloop, hself₁, hsplit]
      simp only [stakeSum_append, stakeSum_cons]
      omega

end Round

/-! ## The pending validators -/

section Pending

variable {self self' : ValidatorSet} {total minJoining epoch removed removed' : ℕ}

/-- The loop over the pending validators activates, in turn, those that reach
the joining threshold onto the end of the active validators, and returns the
others to the candidates, adding their stake to what was removed. -/
theorem addPendingValidatorsLoop_eq_ok :
    ∀ {pending : List Validator} {self self' : ValidatorSet} {removed removed' : ℕ},
      addPendingValidatorsLoop total minJoining epoch pending self removed = .ok (self', removed') →
      self' = { self with
        activeValidators := self.activeValidators ++ (pending.filter (joins minJoining total)).map
          fun v => { v with activationEpoch := some epoch }
        validatorCandidates := ⟨addCandidates (pending.filter fun v => !joins minJoining total v)
          self.validatorCandidates.contents⟩ } ∧
      removed' = removed + stakeSum (pending.filter fun v => !joins minJoining total v)
  | [], self, self', removed, removed', h => by
    cases h
    exact ⟨by simp [addCandidates], rfl⟩
  | v :: pending, self, self', removed, removed', h => by
    rw [addPendingValidatorsLoop] at h
    obtain ⟨votingPower, hvp, h⟩ := bind_eq_ok.mp h
    obtain rfl := eq_of_deriveRawVotingPower_eq_ok (lift_eq_ok.mp hvp)
    by_cases hjoins : minJoining ≤ rawVotingPower v.totalStake total
    · -- v joins: activated onto the end of the active validators
      rw [if_pos hjoins] at h
      obtain ⟨v', hactivate, h⟩ := bind_eq_ok.mp h
      obtain ⟨rfl, -⟩ := Validator.eq_of_activate_eq_ok hactivate
      obtain ⟨hself', hremoved⟩ := addPendingValidatorsLoop_eq_ok h
      have hv : joins minJoining total v = true := by simp [joins, hjoins]
      refine ⟨?_, by simpa [hv] using hremoved⟩
      rw [hself']
      simp [hv]
    · -- v goes back to the candidates
      rw [if_neg hjoins] at h
      obtain ⟨candidates, hadd, h⟩ := bind_eq_ok.mp h
      obtain ⟨total', htotal, h⟩ := bind_eq_ok.mp h
      obtain ⟨hself', hremoved⟩ := addPendingValidatorsLoop_eq_ok h
      obtain ⟨-, rfl⟩ := Table.eq_of_add_eq_ok (lift_eq_ok.mp hadd)
      have hv : joins minJoining total v = false := by simp [joins, hjoins]
      refine ⟨?_, ?_⟩
      · rw [hself']
        simp [hv, addCandidates, Table.write]
      · rw [hremoved, (eq_of_add_eq_ok htotal).1]
        simp [hv, Nat.add_assoc]

end Pending

/-! ## The validators that asked to leave -/

section Removals

open Holdings

variable {self self' : ValidatorSet} {records records' : ReportRecords} {epoch : ℕ}

/-- The drain loop over positions of the active validators in decreasing
order: it removes the validators there and sends them through the departure,
the highest position first, so that each position still holds the validator
it held when the loop started. -/
theorem processPendingRemovalsLoop_eq_ok :
    ∀ {indices : List ℕ} {self self' : ValidatorSet} {records records' : ReportRecords},
      indices.Pairwise (· > ·) → (∀ i ∈ indices, i < self.activeValidators.length) →
      processPendingRemovalsLoop epoch indices self records = .ok (self', records') →
      self' = { self with
        activeValidators := withoutPositions indices self.activeValidators
        stakingPoolMappings := ⟨unmapPools (atPositions indices.reverse self.activeValidators)
          self.stakingPoolMappings.contents⟩
        atRiskValidators := self'.atRiskValidators
        inactiveValidators := ⟨deactivatePools (atPositions indices.reverse self.activeValidators)
          (epoch + 1) self.inactiveValidators.contents⟩ } ∧
      records'.contents =
        cleanRecords (atPositions indices.reverse self.activeValidators) records.contents ∧
      self'.atRiskValidators.lookup =
        forgetAtRisk (atPositions indices.reverse self.activeValidators)
          self.atRiskValidators.lookup
  | [], self, self', records, records', _, _, h => by
    cases h
    refine ⟨?_, rfl, rfl⟩
    simp only [withoutPositions_nil, List.reverse_nil, atPositions, List.filterMap_nil]
    rfl
  | i :: indices, self, self', records, records', hdecreasing, hlt, h => by
    obtain ⟨hbelow, hdecreasing⟩ := List.pairwise_cons.mp hdecreasing
    have hi := hlt i List.mem_cons_self
    -- the validator at i splits the active validators
    obtain ⟨A, v, B, hsplit, hA⟩ : ∃ A v B, self.activeValidators = A ++ v :: B ∧ A.length = i :=
      ⟨_, _, _, (List.take_append_drop i _).symm.trans
        (by rw [← List.getElem_cons_drop hi]), by simp [Nat.le_of_lt hi]⟩
    rw [processPendingRemovalsLoop, hsplit, ← hA, removeAt_append_length, ok_bind] at h
    obtain ⟨⟨self₁, records₁, removedStake⟩, hdepart, hloop⟩ := bind_eq_ok.mp h
    obtain ⟨-, hrecords₁, hatRisk₁, hself₁⟩ := eq_of_processValidatorDeparture_eq_ok hdepart
    have hbelow' : ∀ d ∈ indices, d < i := fun d hd => hbelow d hd
    have hactive₁ : self₁.activeValidators = A ++ B := by rw [hself₁]
    have hlt' : ∀ d ∈ indices, d < self₁.activeValidators.length := by
      intro d hd
      have hd' := hbelow' d hd
      rw [hactive₁, List.length_append]
      omega
    obtain ⟨hself', hrecords, hatRisk⟩ := processPendingRemovalsLoop_eq_ok hdecreasing hlt' hloop
    -- the positions below i read the same validators before and after v left
    have hat : atPositions (i :: indices).reverse self.activeValidators =
        atPositions indices.reverse (A ++ B) ++ [v] := by
      rw [List.reverse_cons, atPositions, List.filterMap_append, hsplit, ← atPositions,
        atPositions_append_cons hA fun d hd => hbelow' d (List.mem_reverse.mp hd)]
      simp [← hA]
    rw [hactive₁] at hself' hrecords hatRisk
    refine ⟨?_, ?_, ?_⟩
    · rw [hself', hself₁, hat, hsplit, withoutPositions_cons hA hbelow']
      simp [unmapPools, deactivatePools, List.foldr_append, Table.write]
    · rw [hrecords, hrecords₁, hat, cleanRecords, cleanRecords, List.foldr_append]
      rfl
    · rw [hatRisk, hatRisk₁, hat, forgetAtRisk, forgetAtRisk, List.foldr_append]
      rfl

/-- process_pending_removals, on pending removals that are distinct positions
of the active validators, removes exactly the validators at those positions,
whatever the order in which they asked, and sends them through the departure,
the highest position first: sorting the positions and draining them from the
back keeps every one of them valid until its turn. -/
theorem eq_of_processPendingRemovals_eq_ok (hnodup : self.pendingRemovals.Nodup)
    (hlt : ∀ i ∈ self.pendingRemovals, i < self.activeValidators.length)
    (h : processPendingRemovals self records epoch = .ok (self', records')) :
    self' = { self with
      activeValidators := withoutPositions self.pendingRemovals self.activeValidators
      pendingRemovals := []
      stakingPoolMappings := ⟨unmapPools (atPositions (self.pendingRemovals.insertionSort (· ≤ ·))
        self.activeValidators) self.stakingPoolMappings.contents⟩
      atRiskValidators := self'.atRiskValidators
      inactiveValidators := ⟨deactivatePools (atPositions
        (self.pendingRemovals.insertionSort (· ≤ ·)) self.activeValidators) (epoch + 1)
        self.inactiveValidators.contents⟩ } ∧
    records'.contents = cleanRecords (atPositions (self.pendingRemovals.insertionSort (· ≤ ·))
      self.activeValidators) records.contents ∧
    self'.atRiskValidators.lookup = forgetAtRisk (atPositions
      (self.pendingRemovals.insertionSort (· ≤ ·)) self.activeValidators)
      self.atRiskValidators.lookup := by
  have hperm := List.perm_insertionSort (· ≤ ·) self.pendingRemovals
  -- sorted and without repeats, the positions increase strictly; drained from the back they decrease
  have hincreasing : (self.pendingRemovals.insertionSort (· ≤ ·)).Pairwise (· < ·) :=
    ((List.pairwise_insertionSort (· ≤ ·) _).and (hperm.nodup_iff.mpr hnodup)).imp
      fun hab => Nat.lt_of_le_of_ne hab.1 hab.2
  have hdecreasing : (self.pendingRemovals.insertionSort (· ≤ ·)).reverse.Pairwise (· > ·) :=
    List.pairwise_reverse.mpr hincreasing
  have hlt' : ∀ i ∈ (self.pendingRemovals.insertionSort (· ≤ ·)).reverse,
      i < ({ self with pendingRemovals := [] } : ValidatorSet).activeValidators.length :=
    fun i hi => hlt i (hperm.mem_iff.mp (List.mem_reverse.mp hi))
  obtain ⟨hself', hrecords, hatRisk⟩ := processPendingRemovalsLoop_eq_ok hdecreasing hlt' h
  rw [List.reverse_reverse] at hself' hrecords hatRisk
  refine ⟨?_, hrecords, hatRisk⟩
  rw [hself', withoutPositions_congr (fun i => (List.mem_reverse.trans hperm.mem_iff))]

end Removals

/-! ## The epoch's update of the positions -/

section Update

variable {self self' : ValidatorSet} {records records' : ReportRecords}
  {grace epoch newTotalStake : ℕ}

/-- The steps of update_validator_positions_and_calculate_total_stake, when it
returns: the thresholds, the loop over the active validators at the stake of
the active and pending validators together, the loop over the pending
validators in reverse order, and the total less what was removed. -/
theorem eq_of_updateValidatorPositionsAndCalculateTotalStake_eq_ok
    (h : updateValidatorPositionsAndCalculateTotalStake self grace records epoch =
      .ok (self', records', newTotalStake)) :
    ∃ minJoining low veryLow self₁ removed₁ removed₂,
      getVotingPowerThresholds self epoch = .ok (minJoining, low, veryLow) ∧
      updateValidatorPositionsLoop grace
          (stakeSum self.activeValidators + stakeSum self.pendingActiveValidators) low veryLow
          epoch self.activeValidators.length { self with pendingActiveValidators := [] } records 0 =
        .ok (self₁, records', removed₁) ∧
      addPendingValidatorsLoop
          (stakeSum self.activeValidators + stakeSum self.pendingActiveValidators) minJoining epoch
          self.pendingActiveValidators.reverse self₁ removed₁ = .ok (self', removed₂) ∧
      newTotalStake =
        stakeSum self.activeValidators + stakeSum self.pendingActiveValidators - removed₂ := by
  simp only [updateValidatorPositionsAndCalculateTotalStake] at h
  obtain ⟨pendingTotalStake, hpending, h⟩ := bind_eq_ok.mp h
  obtain ⟨activeTotalStake, hactive, h⟩ := bind_eq_ok.mp h
  obtain ⟨initialTotalStake, hinitial, h⟩ := bind_eq_ok.mp h
  obtain ⟨⟨minJoining, low, veryLow⟩, hthresholds, h⟩ := bind_eq_ok.mp h
  obtain ⟨⟨self₁, records₁, removed₁⟩, hloop, h⟩ := bind_eq_ok.mp h
  obtain ⟨⟨self₂, removed₂⟩, hpendingLoop, h⟩ := bind_eq_ok.mp h
  obtain ⟨newTotalStake', hsub, h⟩ := bind_eq_ok.mp h
  cases h
  have htotal : initialTotalStake =
      stakeSum self.activeValidators + stakeSum self.pendingActiveValidators := by
    rw [(eq_of_add_eq_ok hinitial).1, eq_of_calculateTotalStakes_eq_ok hactive,
      eq_of_calculateTotalStakes_eq_ok hpending, stakeSum_reverse]
  rw [htotal] at hloop hpendingLoop hsub
  exact ⟨minJoining, low, veryLow, self₁, removed₁, removed₂, hthresholds, hloop, hpendingLoop,
    (eq_of_sub_eq_ok hsub).1⟩

/-- update_validator_positions_and_calculate_total_stake returns the stake of
the next epoch's active validators, whatever the state it ran on: advance_epoch
stores it as the set's total stake. -/
theorem updateValidatorPositionsAndCalculateTotalStake_total
    (h : updateValidatorPositionsAndCalculateTotalStake self grace records epoch =
      .ok (self', records', newTotalStake)) :
    newTotalStake = stakeSum self'.activeValidators := by
  obtain ⟨minJoining, low, veryLow, self₁, removed₁, removed₂, -, hloop, hpending, rfl⟩ :=
    eq_of_updateValidatorPositionsAndCalculateTotalStake_eq_ok h
  have hactive := stakeSum_add_of_updateValidatorPositionsLoop_eq_ok self.activeValidators
    (show ({ self with pendingActiveValidators := [] } : ValidatorSet).activeValidators =
      self.activeValidators ++ [] from (List.append_nil _).symm) hloop
  obtain ⟨hself', hremoved⟩ := addPendingValidatorsLoop_eq_ok hpending
  have hsplit := stakeSum_filter_add
    (joins minJoining (stakeSum self.activeValidators + stakeSum self.pendingActiveValidators))
    self.pendingActiveValidators.reverse
  have hactivated : ∀ validators : List Validator,
      stakeSum (validators.map fun v => { v with activationEpoch := some epoch }) =
        stakeSum validators := by
    intro validators
    simp [stakeSum, Function.comp_def]
  rw [hself']
  simp only [stakeSum_append, hactivated, stakeSum_reverse] at hsplit ⊢
  dsimp only at hactive
  omega

/-- On active validators with distinct addresses,
update_validator_positions_and_calculate_total_stake does what SIP-39 says, at
the thresholds of the epoch's admission phase and the voting power each
validator would have at the stake of the active and pending validators
together. The next epoch's active validators are the active ones that stay by
the rule, in their order, followed by the pending ones that reach the joining
threshold, activated, in the reverse order of their requests; the other
pending ones go back to the candidates. The active validators that leave have
their pools unmapped and are deactivated into the inactive table, and the
report records are cleaned of them. Every active validator's at-risk count
becomes `nextAtRisk`, and no other count changes. -/
theorem updateValidatorPositions_follows_sip39
    (hnodup : (self.activeValidators.map Validator.suiAddress).Nodup)
    (h : updateValidatorPositionsAndCalculateTotalStake self grace records epoch =
      .ok (self', records', newTotalStake)) :
    ∃ minJoining low veryLow, getVotingPowerThresholds self epoch = .ok (minJoining, low, veryLow) ∧
      self' = { self with
        activeValidators :=
          self.activeValidators.filter (keepsPosition grace low veryLow
            (stakeSum self.activeValidators + stakeSum self.pendingActiveValidators)
            self.atRiskValidators) ++
          ((self.pendingActiveValidators.reverse.filter (joins minJoining
            (stakeSum self.activeValidators + stakeSum self.pendingActiveValidators))).map
              fun v => { v with activationEpoch := some epoch })
        pendingActiveValidators := []
        stakingPoolMappings := ⟨unmapPools (leavers grace low veryLow
          (stakeSum self.activeValidators + stakeSum self.pendingActiveValidators)
          self.atRiskValidators self.activeValidators) self.stakingPoolMappings.contents⟩
        atRiskValidators := self'.atRiskValidators
        inactiveValidators := ⟨deactivatePools (leavers grace low veryLow
          (stakeSum self.activeValidators + stakeSum self.pendingActiveValidators)
          self.atRiskValidators self.activeValidators) (epoch + 1) self.inactiveValidators.contents⟩
        validatorCandidates := ⟨addCandidates (self.pendingActiveValidators.reverse.filter fun v =>
          !joins minJoining (stakeSum self.activeValidators + stakeSum self.pendingActiveValidators) v)
          self.validatorCandidates.contents⟩ } ∧
      records'.contents = cleanRecords (leavers grace low veryLow
        (stakeSum self.activeValidators + stakeSum self.pendingActiveValidators)
        self.atRiskValidators self.activeValidators) records.contents ∧
      (∀ v ∈ self.activeValidators, self'.atRiskValidators.lookup v.suiAddress =
        nextAtRisk grace low veryLow (self.atRiskValidators.lookup v.suiAddress)
          (rawVotingPower v.totalStake
            (stakeSum self.activeValidators + stakeSum self.pendingActiveValidators))) ∧
      (∀ a ∉ self.activeValidators.map Validator.suiAddress,
        self'.atRiskValidators.lookup a = self.atRiskValidators.lookup a) := by
  obtain ⟨minJoining, low, veryLow, self₁, removed₁, removed₂, hthresholds, hloop, hpending, -⟩ :=
    eq_of_updateValidatorPositionsAndCalculateTotalStake_eq_ok h
  obtain ⟨hself₁, -, hrecords, hmem, hframe⟩ :=
    updateValidatorPositionsLoop_eq_ok self.activeValidators hnodup
      (show ({ self with pendingActiveValidators := [] } : ValidatorSet).activeValidators =
        self.activeValidators ++ [] from (List.append_nil _).symm) hloop
  obtain ⟨hself', -⟩ := addPendingValidatorsLoop_eq_ok hpending
  -- the pending loop changes no at-risk count
  have hatRisk : self'.atRiskValidators = self₁.atRiskValidators := by
    rw [hself']
  refine ⟨minJoining, low, veryLow, hthresholds, ?_, hrecords, ?_, ?_⟩
  · rw [hself', hself₁]
    simp
  · intro v hv
    rw [hatRisk]
    exact hmem v hv
  · intro a ha
    rw [hatRisk]
    exact hframe a ha

end Update

end Sui.Membership
