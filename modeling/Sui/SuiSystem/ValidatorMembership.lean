import Sui.SuiSystem.ValidatorPositions

/-!
# The validator set over whole runs (`validator_set.move`, `sui_system_state_inner.move`)

Between two epoch changes the validator set changes only by requests: a
candidate registers (request_add_validator_candidate) or withdraws
(request_remove_validator_candidate), a candidate asks to join
(request_add_validator) and waits among the pending validators, an active
validator asks to leave (request_remove_validator) and its position is
recorded among the pending removals. Active validators report each other
(report_validator, undo_report_validator of sui_system_state_inner), and the
report records persist across epochs. At the epoch change
(advance_epoch) the tallying rule reads the records
(compute_slashed_validators), the stakes change by the epoch's rewards and
staking, the validators that asked to leave go (process_pending_removals),
the positions are updated (update_validator_positions_and_calculate_total_stake),
the total stake is stored and the voting power set.

The state of a run is `State`: the validator set, the report records and the
epoch. A run applies calls in turn, and a call that aborts leaves the state
as it was (`runCalls`). The rewards and the processing of stake requests are
not modelled: at each epoch change the call gives the stake every active
validator has afterwards. The metadata comparison of validator::is_duplicate
is a parameter, `isDuplicate`: it only adds aborts.
-/

namespace Sui.Membership

open MoveArith

/-! ## Looking validators up -/

/-- find_validator: the first position whose validator has the address. -/
def findValidator (validators : List Validator) (validatorAddress : ℕ) : Option ℕ :=
  validators.findIdx? fun v => v.suiAddress == validatorAddress

/-- find_validator_from_table_vec: the same search over the pending
validators' table vector. -/
def findValidatorFromTableVec (validators : List Validator) (validatorAddress : ℕ) : Option ℕ :=
  findValidator validators validatorAddress

/-- is_active_validator_by_sui_address -/
def isActiveValidatorBySuiAddress (self : ValidatorSet) (validatorAddress : ℕ) : Bool :=
  (findValidator self.activeValidators validatorAddress).isSome

/-- get_validator_ref -/
def getValidatorRef (validators : List Validator) (validatorAddress : ℕ) :
    Except (Abort Code) Validator :=
  match findValidator validators validatorAddress with
  | some idx => getAt validators idx
  | none => .error (.abort .eNotAValidator)

/-- active_validator -/
def activeValidator (self : ValidatorSet) (validatorAddress : ℕ) : Except (Abort Code) Validator :=
  getValidatorRef self.activeValidators validatorAddress

/-- verify_cap with ACTIVE_VALIDATOR_ONLY, the selector of its modelled
callers: the cap's address must be an active validator's whose operation cap
is the cap. Returns the verified cap's address. -/
def verifyCap (self : ValidatorSet) (capAddress capId : ℕ) : Except (Abort Code) ℕ := do
  let validator ← activeValidator self capAddress
  assert (validator.operationCapId = capId) .eInvalidCap
  pure capAddress

/-- get_validator_indices -/
def getValidatorIndices (validators : List Validator) (validatorAddresses : List ℕ) :
    Except (Abort Code) (List ℕ) :=
  validatorAddresses.mapM fun addr =>
    match findValidator validators addr with
    | some idx => pure idx
    | none => .error (.abort .eNotAValidator)

/-- sum_voting_power_by_addresses -/
def sumVotingPowerByAddresses (vs : List Validator) (addresses : List ℕ) :
    Except (Abort Code) ℕ :=
  addresses.foldlM (fun sum addr => do
    let validator ← getValidatorRef vs addr
    add 64 sum validator.votingPower) 0

/-- The while loop of compute_slashed_validators over the popped entries: each
reported validator must be active, and it is slashed when its reporters'
voting power reaches the quorum threshold. -/
def computeSlashedValidatorsLoop (self : ValidatorSet) :
    List (ℕ × VecSet ℕ) → List ℕ → Except (Abort Code) (List ℕ)
  | [], slashedValidators => pure slashedValidators
  | (validatorAddress, reporters) :: entries, slashedValidators => do
    assert (isActiveValidatorBySuiAddress self validatorAddress = true) .eNonValidatorInReportRecords
    let reporterVotes ← sumVotingPowerByAddresses self.activeValidators reporters.intoKeys
    let slashedValidators := if reporterVotes ≥ VotingPower.quorumThreshold then
        slashedValidators ++ [validatorAddress]
      else slashedValidators
    computeSlashedValidatorsLoop self entries slashedValidators

/-- compute_slashed_validators: pop takes the records' entries from the back. -/
def computeSlashedValidators (self : ValidatorSet) (validatorReportRecords : ReportRecords) :
    Except (Abort Code) (List ℕ) :=
  computeSlashedValidatorsLoop self validatorReportRecords.contents.reverse []

/-! ## Reports -/

/-- report_validator_impl -/
def reportValidatorImpl (reporterAddress reporteeAddr : ℕ) (validatorReportRecords : ReportRecords) :
    Except (Abort Code) ReportRecords := do
  assert (reporterAddress ≠ reporteeAddr) .eCannotReportOneself
  if !validatorReportRecords.contains reporteeAddr then
    lift .vecMap
      (validatorReportRecords.insert reporteeAddr (VecSet.singleton reporterAddress))
  else
    let reporters ← lift .vecMap (validatorReportRecords.get reporteeAddr)
    if !reporters.contains reporterAddress then
      let reporters ← lift .vecSet (reporters.insert reporterAddress)
      lift .vecMap (validatorReportRecords.write reporteeAddr reporters)
    else pure validatorReportRecords

/-- report_validator: the reportee must be active, and the cap an active
validator's. -/
def reportValidator (self : ValidatorSet) (validatorReportRecords : ReportRecords)
    (capAddress capId reporteeAddr : ℕ) : Except (Abort Code) ReportRecords := do
  assert (isActiveValidatorBySuiAddress self reporteeAddr = true) .eNotValidator
  let reporterAddress ← verifyCap self capAddress capId
  reportValidatorImpl reporterAddress reporteeAddr validatorReportRecords

/-- undo_report_validator_impl -/
def undoReportValidatorImpl (reporterAddr reporteeAddr : ℕ) (validatorReportRecords : ReportRecords) :
    Except (Abort Code) ReportRecords := do
  assert (validatorReportRecords.contains reporteeAddr = true) .eReportRecordNotFound
  let reporters ← lift .vecMap (validatorReportRecords.get reporteeAddr)
  assert (reporters.contains reporterAddr = true) .eReportRecordNotFound
  let reporters ← lift .vecSet (reporters.remove reporterAddr)
  let validatorReportRecords ←
    lift .vecMap (validatorReportRecords.write reporteeAddr reporters)
  if reporters.isEmpty then
    let (_, validatorReportRecords) ← lift .vecMap (validatorReportRecords.remove reporteeAddr)
    pure validatorReportRecords
  else pure validatorReportRecords

/-- undo_report_validator -/
def undoReportValidator (self : ValidatorSet) (validatorReportRecords : ReportRecords)
    (capAddress capId reporteeAddr : ℕ) : Except (Abort Code) ReportRecords := do
  let reporterAddr ← verifyCap self capAddress capId
  undoReportValidatorImpl reporterAddr reporteeAddr validatorReportRecords

/-! ## Requests -/

section Requests

variable (isDuplicate : Validator → Validator → Bool)

/-- is_duplicate_with_active_validator -/
def isDuplicateWithActiveValidator (self : ValidatorSet) (search : Validator) : Bool :=
  self.activeValidators.any fun v => v.suiAddress != search.suiAddress && isDuplicate v search

/-- is_duplicate_with_pending_validator -/
def isDuplicateWithPendingValidator (self : ValidatorSet) (search : Validator) : Bool :=
  self.pendingActiveValidators.any fun v =>
    v.suiAddress != search.suiAddress && isDuplicate v search

/-- assert_no_pending_or_active_duplicates -/
def assertNoPendingOrActiveDuplicates (self : ValidatorSet) (validator : Validator) :
    Except (Abort Code) Unit := do
  assert (isDuplicateWithActiveValidator isDuplicate self validator = false) .eDuplicateValidator
  assert (isDuplicateWithPendingValidator isDuplicate self validator = false) .eDuplicateValidator

/-- request_add_validator_candidate -/
def requestAddValidatorCandidate (self : ValidatorSet) (validator : Validator) :
    Except (Abort Code) ValidatorSet := do
  let validatorAddress := validator.suiAddress
  assert (self.validatorCandidates.contains validatorAddress = false) .eAlreadyValidatorCandidate
  assert (findValidator self.activeValidators validatorAddress = none) .eAlreadyValidator
  assert (findValidatorFromTableVec self.pendingActiveValidators validatorAddress = none)
    .eAlreadyValidator
  assertNoPendingOrActiveDuplicates isDuplicate self validator
  assert (validator.isPreactive = true) .eValidatorNotCandidate
  let stakingPoolMappings ←
    lift .table (self.stakingPoolMappings.add validator.stakingPoolId validatorAddress)
  let validatorCandidates ← lift .table (self.validatorCandidates.add validatorAddress validator)
  pure { self with stakingPoolMappings, validatorCandidates }

/-- request_remove_validator_candidate, sent by `sender` at `epoch`. -/
def requestRemoveValidatorCandidate (self : ValidatorSet) (sender epoch : ℕ) :
    Except (Abort Code) ValidatorSet := do
  assert (self.validatorCandidates.contains sender = true) .eNotValidatorCandidate
  let (validator, validatorCandidates) ← lift .table (self.validatorCandidates.remove sender)
  assert (validator.isPreactive = true) .eValidatorNotCandidate
  let stakingPoolId := validator.stakingPoolId
  let (_, stakingPoolMappings) ← lift .table (self.stakingPoolMappings.remove stakingPoolId)
  let validator ← validator.deactivate epoch
  let inactiveValidators ← lift .table (self.inactiveValidators.add stakingPoolId validator)
  pure { self with validatorCandidates, stakingPoolMappings, inactiveValidators }

/-- request_add_validator, sent by `sender` at `epoch`: the candidate is taken
out of the candidates before the checks. -/
def requestAddValidator (self : ValidatorSet) (sender epoch : ℕ) :
    Except (Abort Code) ValidatorSet := do
  assert (self.validatorCandidates.contains sender = true) .eNotValidatorCandidate
  let (validator, validatorCandidates) ← lift .table (self.validatorCandidates.remove sender)
  let self := { self with validatorCandidates }
  assertNoPendingOrActiveDuplicates isDuplicate self validator
  assert (validator.isPreactive = true) .eValidatorNotCandidate
  let joins ← canJoin self validator.totalStake epoch
  assert (joins = true) .eMinJoiningStakeNotReached
  pure { self with pendingActiveValidators := self.pendingActiveValidators ++ [validator] }

/-- request_remove_validator, sent by `sender`: its position among the active
validators is recorded once. -/
def requestRemoveValidator (self : ValidatorSet) (sender : ℕ) : Except (Abort Code) ValidatorSet := do
  let validatorIndex ← match findValidator self.activeValidators sender with
    | some idx => pure idx
    | none => .error (.abort .eNotAValidator)
  assert (self.pendingRemovals.contains validatorIndex = false) .eValidatorAlreadyRemoved
  pure { self with pendingRemovals := self.pendingRemovals ++ [validatorIndex] }

end Requests

/-! ## The epoch change -/

/-- voting_power::set_voting_power on these validators: it reads their stakes
and writes their voting powers. -/
def setVotingPower (validators : List Validator) (totalStake : ℕ) :
    Except (Abort Code) (List Validator) := do
  let powered ← lift .votingPower
    (VotingPower.setVotingPower (validators.map fun v => ⟨v.totalStake, v.votingPower⟩) totalStake)
  pure (validators.zipWith (fun v w => { v with votingPower := w.votingPower }) powered)

/-- The membership part of validator_set::advance_epoch at `epoch`: the
admission start epoch is fixed, the tallying rule reads the report records,
the active validators' stakes become what the epoch's rewards and staking
made them (`stakes`), the validators that asked to leave go, the positions are
updated, and the total stake and the voting power set. -/
def advanceEpoch (self : ValidatorSet) (validatorReportRecords : ReportRecords)
    (stakes : Validator → ℕ) (lowStakeGracePeriod epoch : ℕ) :
    Except (Abort Code) (ValidatorSet × ReportRecords) := do
  -- switch to using voting power based admission, if not already
  let self := match self.votingPowerAdmissionStartEpoch with
    | some _ => self
    | none => { self with votingPowerAdmissionStartEpoch := some epoch }
  let slashedValidators ← computeSlashedValidators self validatorReportRecords
  let _ ← sumVotingPowerByAddresses self.activeValidators slashedValidators
  let _ ← getValidatorIndices self.activeValidators slashedValidators
  let self := { self with
    activeValidators := self.activeValidators.map fun v => { v with totalStake := stakes v } }
  let (self, validatorReportRecords) ← processPendingRemovals self validatorReportRecords epoch
  let (self, validatorReportRecords, newTotalStake) ←
    updateValidatorPositionsAndCalculateTotalStake self lowStakeGracePeriod validatorReportRecords
      epoch
  let activeValidators ← setVotingPower self.activeValidators newTotalStake
  pure ({ self with totalStake := newTotalStake, activeValidators }, validatorReportRecords)

/-- validator_set::new: the genesis validators, their pools mapped to their
addresses. -/
def new (initActiveValidators : List Validator) : Except (Abort Code) ValidatorSet := do
  let totalStake ← calculateTotalStakes initActiveValidators
  let stakingPoolMappings ← initActiveValidators.foldlM
    (fun stakingPoolMappings v =>
      lift .table (stakingPoolMappings.add v.stakingPoolId v.suiAddress)) Table.new
  let activeValidators ← setVotingPower initActiveValidators totalStake
  pure {
    totalStake, activeValidators, stakingPoolMappings
    pendingActiveValidators := []
    pendingRemovals := []
    inactiveValidators := Table.new
    validatorCandidates := Table.new
    atRiskValidators := VecMap.empty
    votingPowerAdmissionStartEpoch := none }

/-! ## Runs -/

/-- The state the membership calls act on: the validator set, the report
records of sui_system_state_inner and its epoch. -/
structure State where
  validators : ValidatorSet
  validatorReportRecords : ReportRecords
  epoch : ℕ

/-- The calls that change the membership. -/
inductive Call where
  | requestAddValidatorCandidate (validator : Validator)
  | requestRemoveValidatorCandidate (sender : ℕ)
  | requestAddValidator (sender : ℕ)
  | requestRemoveValidator (sender : ℕ)
  | reportValidator (capAddress capId reporteeAddr : ℕ)
  | undoReportValidator (capAddress capId reporteeAddr : ℕ)
  | advanceEpoch (stakes : Validator → ℕ) (lowStakeGracePeriod : ℕ)

/-- One call on the state; sui_system_state_inner::advance_epoch moves to the
next epoch. -/
def runCall (isDuplicate : Validator → Validator → Bool) (s : State) :
    Call → Except (Abort Code) State
  | .requestAddValidatorCandidate validator => do
    let validators ← requestAddValidatorCandidate isDuplicate s.validators validator
    pure { s with validators }
  | .requestRemoveValidatorCandidate sender => do
    let validators ← requestRemoveValidatorCandidate s.validators sender s.epoch
    pure { s with validators }
  | .requestAddValidator sender => do
    let validators ← requestAddValidator isDuplicate s.validators sender s.epoch
    pure { s with validators }
  | .requestRemoveValidator sender => do
    let validators ← requestRemoveValidator s.validators sender
    pure { s with validators }
  | .reportValidator capAddress capId reporteeAddr => do
    let validatorReportRecords ←
      reportValidator s.validators s.validatorReportRecords capAddress capId reporteeAddr
    pure { s with validatorReportRecords }
  | .undoReportValidator capAddress capId reporteeAddr => do
    let validatorReportRecords ←
      undoReportValidator s.validators s.validatorReportRecords capAddress capId reporteeAddr
    pure { s with validatorReportRecords }
  | .advanceEpoch stakes lowStakeGracePeriod => do
    let (validators, validatorReportRecords) ←
      advanceEpoch s.validators s.validatorReportRecords stakes lowStakeGracePeriod s.epoch
    let epoch ← add 64 s.epoch 1
    pure ⟨validators, validatorReportRecords, epoch⟩

/-- A run: each call in turn, a call that aborts leaving the state as it was. -/
def runCalls (isDuplicate : Validator → Validator → Bool) (s : State) (calls : List Call) : State :=
  calls.foldl (fun s call =>
    match runCall isDuplicate s call with
    | .ok s' => s'
    | .error _ => s) s

/-! ## Looking validators up, by address -/

section Lookup

variable {validators : List Validator} {a i : ℕ} {v : Validator}

theorem findValidator_eq_none_iff :
    findValidator validators a = none ↔ a ∉ validators.map Validator.suiAddress := by
  rw [findValidator, List.findIdx?_eq_none_iff]
  simp

theorem eq_of_findValidator_eq_some (h : findValidator validators a = some i) :
    ∃ hi : i < validators.length, validators[i].suiAddress = a := by
  obtain ⟨hi, hkey, -⟩ := List.findIdx?_eq_some_iff_getElem.mp h
  exact ⟨hi, by simpa using hkey⟩

theorem isActiveValidatorBySuiAddress_iff {self : ValidatorSet} :
    isActiveValidatorBySuiAddress self a = true ↔
      a ∈ self.activeValidators.map Validator.suiAddress := by
  rw [isActiveValidatorBySuiAddress, Option.isSome_iff_ne_none, Ne, findValidator_eq_none_iff,
    not_not]

theorem eq_of_getValidatorRef_eq_ok (h : getValidatorRef validators a = .ok v) :
    v ∈ validators ∧ v.suiAddress = a := by
  unfold getValidatorRef at h
  split at h
  · rename_i i hfind
    obtain ⟨hi, rfl⟩ := eq_of_getAt_eq_ok h
    exact ⟨List.getElem_mem hi, (eq_of_findValidator_eq_some hfind).2⟩
  · cases h

/-- Among validators with distinct addresses, the search by a validator's
address finds that validator. -/
theorem getValidatorRef_eq_ok (hnodup : (validators.map Validator.suiAddress).Nodup)
    (hv : v ∈ validators) : getValidatorRef validators v.suiAddress = .ok v := by
  obtain ⟨i, hfind⟩ : ∃ i, findValidator validators v.suiAddress = some i :=
    Option.ne_none_iff_exists'.mp fun h => findValidator_eq_none_iff.mp h (List.mem_map_of_mem hv)
  obtain ⟨hi, hkey⟩ := eq_of_findValidator_eq_some hfind
  have heq : validators[i] = v := List.inj_on_of_nodup_map hnodup (List.getElem_mem hi) hv hkey
  simp only [getValidatorRef, hfind, getAt_eq_ok hi, heq]

/-- A verified cap is an active validator's. -/
theorem eq_of_verifyCap_eq_ok {self : ValidatorSet} {capAddress capId r : ℕ}
    (h : verifyCap self capAddress capId = .ok r) :
    r = capAddress ∧ capAddress ∈ self.activeValidators.map Validator.suiAddress := by
  rw [verifyCap] at h
  obtain ⟨validator, hvalidator, h⟩ := bind_eq_ok.mp h
  obtain ⟨-, -, h⟩ := bind_eq_ok.mp h
  cases h
  obtain ⟨hmem, hkey⟩ := eq_of_getValidatorRef_eq_ok hvalidator
  exact ⟨rfl, List.mem_map.mpr ⟨validator, hmem, hkey⟩⟩

end Lookup

/-! ## The addresses the report records name -/

/-- The addresses entries of report records name: the reported validators and
their reporters. -/
def namedIn (es : List (ℕ × VecSet ℕ)) (a : ℕ) : Prop :=
  ∃ e ∈ es, a = e.1 ∨ a ∈ e.2.contents

section Records

variable {reporter reportee a : ℕ} {records records' : ReportRecords}

/-- A report names nothing new but the reporter and the reportee. -/
theorem namedIn_of_reportValidatorImpl_eq_ok
    (h : reportValidatorImpl reporter reportee records = .ok records')
    (ha : namedIn records'.contents a) :
    namedIn records.contents a ∨ a = reporter ∨ a = reportee := by
  rw [reportValidatorImpl] at h
  obtain ⟨-, -, h⟩ := bind_eq_ok.mp h
  obtain ⟨e, he, hae⟩ := ha
  split at h
  · -- the reportee's first report
    rw [(VecMap.eq_of_insert_eq_ok (lift_eq_ok.mp h)).2, List.mem_append, List.mem_singleton] at he
    rcases he with he | rfl
    · exact .inl ⟨e, he, hae⟩
    · simp only [VecSet.singleton, List.mem_singleton] at hae
      rcases hae with rfl | rfl
      · exact .inr (.inr rfl)
      · exact .inr (.inl rfl)
  · obtain ⟨reporters, hget, h⟩ := bind_eq_ok.mp h
    have hmem := VecMap.eq_of_get_eq_ok (lift_eq_ok.mp hget)
    split at h
    · -- a new reporter joins the reportee's reporters
      obtain ⟨reporters', hinsert, h⟩ := bind_eq_ok.mp h
      have hreporters := (VecSet.eq_of_insert_eq_ok (lift_eq_ok.mp hinsert)).2
      obtain ⟨A, v, B, hsplit, hcontents⟩ := VecMap.eq_of_write_eq_ok (lift_eq_ok.mp h)
      rw [hcontents, List.mem_append, List.mem_cons] at he
      rcases he with he | rfl | he
      · exact .inl ⟨e, by simp [hsplit, he], hae⟩
      · simp only [hreporters, List.mem_append, List.mem_singleton] at hae
        rcases hae with rfl | hold | rfl
        · exact .inr (.inr rfl)
        · exact .inl ⟨_, hmem, .inr hold⟩
        · exact .inr (.inl rfl)
      · exact .inl ⟨e, by simp [hsplit, he], hae⟩
    · cases h
      exact .inl ⟨e, he, hae⟩

/-- Undoing a report names nothing new. -/
theorem namedIn_of_undoReportValidatorImpl_eq_ok
    (h : undoReportValidatorImpl reporter reportee records = .ok records')
    (ha : namedIn records'.contents a) : namedIn records.contents a := by
  rw [undoReportValidatorImpl] at h
  obtain ⟨-, -, h⟩ := bind_eq_ok.mp h
  obtain ⟨reporters, hget, h⟩ := bind_eq_ok.mp h
  obtain ⟨-, -, h⟩ := bind_eq_ok.mp h
  obtain ⟨reporters', hremove, h⟩ := bind_eq_ok.mp h
  obtain ⟨records₁, hwrite, h⟩ := bind_eq_ok.mp h
  have hmem := VecMap.eq_of_get_eq_ok (lift_eq_ok.mp hget)
  have hreporters := (VecSet.eq_of_remove_eq_ok (lift_eq_ok.mp hremove)).2
  obtain ⟨A, v, B, hsplit, hcontents⟩ := VecMap.eq_of_write_eq_ok (lift_eq_ok.mp hwrite)
  -- the reporter leaves the reportee's reporters, the other entries stay
  have hnamed₁ : ∀ a, namedIn records₁.contents a → namedIn records.contents a := by
    rintro a ⟨e, he, hae⟩
    rw [hcontents, List.mem_append, List.mem_cons] at he
    rcases he with he | rfl | he
    · exact ⟨e, by simp [hsplit, he], hae⟩
    · simp only [hreporters] at hae
      rcases hae with rfl | hold
      · exact ⟨_, hmem, .inl rfl⟩
      · exact ⟨_, hmem, .inr (List.erase_subset hold)⟩
    · exact ⟨e, by simp [hsplit, he], hae⟩
  split at h
  · -- left without reporters, the reportee's entry goes
    obtain ⟨⟨_, records₂⟩, hremove₂, h⟩ := bind_eq_ok.mp h
    cases h
    obtain ⟨A', v', B', hsplit', -, hcontents'⟩ := VecMap.eq_of_remove_eq_ok (lift_eq_ok.mp hremove₂)
    obtain ⟨e, he, hae⟩ := ha
    refine hnamed₁ a ⟨e, ?_, hae⟩
    rw [hcontents', List.mem_append] at he
    rw [hsplit']
    rcases he with he | he <;> simp [he]
  · cases h
    exact hnamed₁ a ha

/-- The validators of `leaving` gone, the records name none of them, and
nothing they did not name before. -/
theorem namedIn_cleanRecords {leaving : List Validator} {es : List (ℕ × VecSet ℕ)}
    (ha : namedIn (cleanRecords leaving es) a) :
    namedIn es a ∧ a ∉ leaving.map Validator.suiAddress := by
  induction leaving with
  | nil => exact ⟨ha, by simp⟩
  | cons v leaving ih =>
    obtain ⟨e, he, hae⟩ := ha
    change e ∈ (cleanRecords leaving es).filterMap (withoutReporter v.suiAddress) at he
    obtain ⟨⟨hkey, hreporter⟩, e₀, he₀, hkey₀, hsub⟩ :=
      not_mem_filterMap_withoutReporter v.suiAddress he
    obtain ⟨hnamed, hnot⟩ := ih ⟨e₀, he₀, hae.imp (fun h => h.trans hkey₀) fun h => hsub h⟩
    refine ⟨hnamed, ?_⟩
    rw [List.map_cons, List.mem_cons, not_or]
    refine ⟨?_, hnot⟩
    rintro rfl
    rcases hae with h | h
    · exact hkey h.symm
    · exact hreporter h

end Records

/-! ## The at-risk counts and the candidates at the epoch change -/

section Tables

variable {a n : ℕ} {v : Validator}

theorem forgetAtRisk_eq_some {leaving : List Validator} {f : ℕ → Option ℕ}
    (h : forgetAtRisk leaving f a = some n) :
    f a = some n ∧ a ∉ leaving.map Validator.suiAddress := by
  induction leaving with
  | nil => exact ⟨h, by simp⟩
  | cons w leaving ih =>
    change Function.update (forgetAtRisk leaving f) w.suiAddress none a = some n at h
    by_cases haw : a = w.suiAddress
    · rw [haw, Function.update_self] at h
      cases h
    · rw [Function.update_of_ne haw] at h
      obtain ⟨hf, hnot⟩ := ih h
      rw [List.map_cons, List.mem_cons, not_or]
      exact ⟨hf, haw, hnot⟩

/-- A validator that is still at risk after the epoch change stayed. -/
theorem staysActive_of_nextAtRisk_eq_some {grace low veryLow votingPower : ℕ} {c : Option ℕ}
    (h : nextAtRisk grace low veryLow c votingPower = some n) :
    staysActive grace low veryLow c votingPower = true := by
  unfold nextAtRisk at h
  split_ifs at h with hlow hrisk
  simp [staysActive, hrisk.1, hrisk.2]

theorem addCandidates_eq_some :
    ∀ {returning : List Validator} {c : ℕ → Option Validator},
      addCandidates returning c a = some v → (v ∈ returning ∧ v.suiAddress = a) ∨ c a = some v
  | [], _, h => .inr h
  | w :: returning, c, h => by
    have h' : addCandidates returning (Function.update c w.suiAddress (some w)) a = some v := h
    rcases addCandidates_eq_some h' with ⟨hv, hkey⟩ | hc
    · exact .inl ⟨List.mem_cons_of_mem w hv, hkey⟩
    · by_cases haw : a = w.suiAddress
      · rw [haw, Function.update_self] at hc
        cases hc
        exact .inl ⟨List.mem_cons_self, haw.symm⟩
      · rw [Function.update_of_ne haw] at hc
        exact .inr hc

theorem addCandidates_of_not_mem :
    ∀ {returning : List Validator} {c : ℕ → Option Validator},
      a ∉ returning.map Validator.suiAddress → addCandidates returning c a = c a
  | [], _, _ => rfl
  | w :: returning, c, ha => by
    rw [List.map_cons, List.mem_cons, not_or] at ha
    change addCandidates returning (Function.update c w.suiAddress (some w)) a = c a
    rw [addCandidates_of_not_mem ha.2, Function.update_of_ne ha.1]

/-- A returning validator whose address no other returning one has is a
candidate under it. -/
theorem addCandidates_of_mem :
    ∀ {returning : List Validator} {c : ℕ → Option Validator},
      (returning.map Validator.suiAddress).Nodup → v ∈ returning →
      addCandidates returning c v.suiAddress = some v
  | w :: returning, c, hnodup, hv => by
    rw [List.map_cons, List.nodup_cons] at hnodup
    change addCandidates returning (Function.update c w.suiAddress (some w)) v.suiAddress = some v
    rcases List.mem_cons.mp hv with rfl | hv
    · rw [addCandidates_of_not_mem hnodup.1, Function.update_self]
    · exact addCandidates_of_mem hnodup.2 hv

end Tables

/-! ## The voting power -/

section Power

open VotingPower in
theorem length_of_foldlM_modifyAt_eq_ok :
    ∀ {infos : List VotingPowerInfoV2} {validators validators' : List VotingPower.Validator},
      (infos.foldlM (fun validators info => MoveArith.modifyAt validators info.validatorIndex
          (·.setVotingPower info.votingPower)) validators :
        Except (Abort VotingPower.Code) (List VotingPower.Validator)) = .ok validators' →
      validators'.length = validators.length
  | [], _, _, h => by
    cases h
    rfl
  | info :: infos, validators, validators', h => by
    rw [List.foldlM_cons] at h
    obtain ⟨validators₁, hmodify, h⟩ := bind_eq_ok.mp h
    rw [length_of_foldlM_modifyAt_eq_ok h, length_of_modifyAt_eq_ok hmodify]

theorem eq_of_foldlM_addPositivePower_eq_ok :
    ∀ {validators : List VotingPower.Validator} {total total' : ℕ},
      validators.foldlM VotingPower.addPositivePower total = .ok total' →
      total' = total + (validators.map VotingPower.Validator.votingPower).sum
  | [], _, _, h => by
    cases h
    rfl
  | v :: validators, total, total', h => by
    rw [List.foldlM_cons] at h
    obtain ⟨total₁, hadd, h⟩ := bind_eq_ok.mp h
    rw [VotingPower.addPositivePower] at hadd
    obtain ⟨-, -, hadd⟩ := bind_eq_ok.mp hadd
    rw [eq_of_foldlM_addPositivePower_eq_ok h, (eq_of_add_eq_ok hadd).1, List.map_cons,
      List.sum_cons, Nat.add_assoc]

/-- Writing the voting powers of `powered` into as many validators keeps
their addresses and stakes. -/
theorem zipWith_votingPower :
    ∀ {validators : List Validator} {powered : List VotingPower.Validator},
      powered.length = validators.length →
      (validators.zipWith (fun v w => { v with votingPower := w.votingPower }) powered).map
          Validator.suiAddress = validators.map Validator.suiAddress ∧
      stakeSum (validators.zipWith (fun v w => { v with votingPower := w.votingPower }) powered) =
        stakeSum validators ∧
      (validators.zipWith (fun v w => { v with votingPower := w.votingPower }) powered).map
          Validator.votingPower = powered.map VotingPower.Validator.votingPower
  | [], [], _ => ⟨rfl, rfl, rfl⟩
  | v :: validators, w :: powered, hlen => by
    obtain ⟨haddresses, hstake, hpower⟩ := zipWith_votingPower (Nat.succ.inj hlen)
    simp only [List.zipWith_cons_cons, List.map_cons, stakeSum_cons]
    exact ⟨by rw [haddresses], by rw [hstake], by rw [hpower]⟩

/-- set_voting_power, when it returns, keeps the validators' addresses and
stakes, and their voting powers add up to the total voting power: its own
check_invariants asserts it. -/
theorem eq_of_setVotingPower_eq_ok {validators validators' : List Validator} {totalStake : ℕ}
    (h : setVotingPower validators totalStake = .ok validators') :
    validators'.map Validator.suiAddress = validators.map Validator.suiAddress ∧
      stakeSum validators' = stakeSum validators ∧
      (validators'.map Validator.votingPower).sum = VotingPower.totalVotingPower := by
  rw [setVotingPower] at h
  obtain ⟨powered, hpowered, h⟩ := bind_eq_ok.mp h
  cases h
  have hset := lift_eq_ok.mp hpowered
  rw [VotingPower.setVotingPower] at hset
  obtain ⟨_, -, hset⟩ := bind_eq_ok.mp hset
  obtain ⟨⟨infoList, remainingPower⟩, -, hset⟩ := bind_eq_ok.mp hset
  obtain ⟨infoList', -, hset⟩ := bind_eq_ok.mp hset
  obtain ⟨updated, hupdate, hset⟩ := bind_eq_ok.mp hset
  obtain ⟨_, hcheck, hset⟩ := bind_eq_ok.mp hset
  obtain rfl : updated = powered := Except.ok.inj hset
  have hlen : updated.length = validators.length := by
    rw [length_of_foldlM_modifyAt_eq_ok hupdate, List.length_map]
  rw [VotingPower.checkInvariants] at hcheck
  obtain ⟨total, htotal, hcheck⟩ := bind_eq_ok.mp hcheck
  obtain ⟨_, hassert, -⟩ := bind_eq_ok.mp hcheck
  have hsum := eq_of_foldlM_addPositivePower_eq_ok htotal
  rw [of_assert_eq_ok hassert, Nat.zero_add] at hsum
  obtain ⟨haddresses, hstake, hpower⟩ := zipWith_votingPower hlen
  exact ⟨haddresses, hstake, by rw [hpower, ← hsum]⟩

end Power

/-! ## What each request does -/

section Requests

variable (isDuplicate : Validator → Validator → Bool) {self self' : ValidatorSet}
  {validator : Validator} {sender epoch : ℕ}

theorem eq_of_requestAddValidatorCandidate_eq_ok
    (h : requestAddValidatorCandidate isDuplicate self validator = .ok self') :
    self.validatorCandidates.contents validator.suiAddress = none ∧
      validator.suiAddress ∉
        (self.activeValidators ++ self.pendingActiveValidators).map Validator.suiAddress ∧
      self' = { self with
        stakingPoolMappings := self'.stakingPoolMappings
        validatorCandidates := self.validatorCandidates.write validator.suiAddress validator } := by
  rw [requestAddValidatorCandidate] at h
  obtain ⟨_, hcandidate, h⟩ := bind_eq_ok.mp h
  obtain ⟨_, hactive, h⟩ := bind_eq_ok.mp h
  obtain ⟨_, hpending, h⟩ := bind_eq_ok.mp h
  obtain ⟨_, -, h⟩ := bind_eq_ok.mp h
  obtain ⟨_, -, h⟩ := bind_eq_ok.mp h
  obtain ⟨mappings, -, h⟩ := bind_eq_ok.mp h
  obtain ⟨candidates, hadd, h⟩ := bind_eq_ok.mp h
  cases h
  obtain ⟨-, rfl⟩ := Table.eq_of_add_eq_ok (lift_eq_ok.mp hadd)
  refine ⟨Table.contains_eq_false_iff.mp (of_assert_eq_ok hcandidate), ?_, rfl⟩
  rw [List.map_append, List.mem_append, not_or]
  exact ⟨findValidator_eq_none_iff.mp (of_assert_eq_ok hactive),
    findValidator_eq_none_iff.mp (of_assert_eq_ok hpending)⟩

theorem eq_of_requestRemoveValidatorCandidate_eq_ok
    (h : requestRemoveValidatorCandidate self sender epoch = .ok self') :
    (∀ a, self'.validatorCandidates.contents a =
      if a = sender then none else self.validatorCandidates.contents a) ∧
      self' = { self with
        validatorCandidates := self'.validatorCandidates
        stakingPoolMappings := self'.stakingPoolMappings
        inactiveValidators := self'.inactiveValidators } := by
  rw [requestRemoveValidatorCandidate] at h
  obtain ⟨_, -, h⟩ := bind_eq_ok.mp h
  obtain ⟨⟨validator, candidates⟩, hremove, h⟩ := bind_eq_ok.mp h
  obtain ⟨_, -, h⟩ := bind_eq_ok.mp h
  obtain ⟨⟨_, mappings⟩, -, h⟩ := bind_eq_ok.mp h
  obtain ⟨deactivated, -, h⟩ := bind_eq_ok.mp h
  obtain ⟨inactive, -, h⟩ := bind_eq_ok.mp h
  cases h
  exact ⟨(Table.eq_of_remove_eq_ok (lift_eq_ok.mp hremove)).2, rfl⟩

/-- request_add_validator moves the sender's candidate record to the end of
the pending validators. -/
theorem eq_of_requestAddValidator_eq_ok
    (h : requestAddValidator isDuplicate self sender epoch = .ok self') :
    ∃ validator, self.validatorCandidates.contents sender = some validator ∧
      (∀ a, self'.validatorCandidates.contents a =
        if a = sender then none else self.validatorCandidates.contents a) ∧
      self' = { self with
        validatorCandidates := self'.validatorCandidates
        pendingActiveValidators := self.pendingActiveValidators ++ [validator] } := by
  rw [requestAddValidator] at h
  obtain ⟨_, -, h⟩ := bind_eq_ok.mp h
  obtain ⟨⟨validator, candidates⟩, hremove, h⟩ := bind_eq_ok.mp h
  obtain ⟨_, -, h⟩ := bind_eq_ok.mp h
  obtain ⟨_, -, h⟩ := bind_eq_ok.mp h
  obtain ⟨joins, -, h⟩ := bind_eq_ok.mp h
  obtain ⟨_, -, h⟩ := bind_eq_ok.mp h
  cases h
  obtain ⟨hvalidator, hcandidates⟩ := Table.eq_of_remove_eq_ok (lift_eq_ok.mp hremove)
  exact ⟨validator, hvalidator, hcandidates, rfl⟩

theorem eq_of_requestRemoveValidator_eq_ok (h : requestRemoveValidator self sender = .ok self') :
    ∃ i, findValidator self.activeValidators sender = some i ∧ i ∉ self.pendingRemovals ∧
      self' = { self with pendingRemovals := self.pendingRemovals ++ [i] } := by
  rw [requestRemoveValidator] at h
  split at h
  · rename_i i hfind
    obtain ⟨j, hj, h⟩ := bind_eq_ok.mp h
    cases hj
    obtain ⟨_, hnew, h⟩ := bind_eq_ok.mp h
    cases h
    exact ⟨i, hfind, by simpa using of_assert_eq_ok hnew, rfl⟩
  · obtain ⟨j, hj, -⟩ := bind_eq_ok.mp h
    cases hj

end Requests

/-! ## What reports and the epoch change do -/

/-- The active validators with the stakes the epoch's rewards and staking
gave them. -/
def restake (stakes : Validator → ℕ) (validators : List Validator) : List Validator :=
  validators.map fun v => { v with totalStake := stakes v }

@[simp] theorem map_suiAddress_restake (stakes : Validator → ℕ) (validators : List Validator) :
    (restake stakes validators).map Validator.suiAddress = validators.map Validator.suiAddress := by
  simp [restake, Function.comp_def]

@[simp] theorem length_restake (stakes : Validator → ℕ) (validators : List Validator) :
    (restake stakes validators).length = validators.length :=
  List.length_map _

section Steps

variable {self self' : ValidatorSet} {records records' : ReportRecords}
  {capAddress capId reportee : ℕ}

/-- A report that is recorded is about an active validator, by one. -/
theorem eq_of_reportValidator_eq_ok
    (h : reportValidator self records capAddress capId reportee = .ok records') :
    reportee ∈ self.activeValidators.map Validator.suiAddress ∧
      capAddress ∈ self.activeValidators.map Validator.suiAddress ∧
      reportValidatorImpl capAddress reportee records = .ok records' := by
  rw [reportValidator] at h
  obtain ⟨_, hactive, h⟩ := bind_eq_ok.mp h
  obtain ⟨reporter, hcap, himpl⟩ := bind_eq_ok.mp h
  obtain ⟨rfl, hmem⟩ := eq_of_verifyCap_eq_ok hcap
  exact ⟨isActiveValidatorBySuiAddress_iff.mp (of_assert_eq_ok hactive), hmem, himpl⟩

theorem eq_of_undoReportValidator_eq_ok
    (h : undoReportValidator self records capAddress capId reportee = .ok records') :
    undoReportValidatorImpl capAddress reportee records = .ok records' := by
  rw [undoReportValidator] at h
  obtain ⟨reporter, hcap, himpl⟩ := bind_eq_ok.mp h
  obtain ⟨rfl, -⟩ := eq_of_verifyCap_eq_ok hcap
  exact himpl

/-- The steps of the epoch change that write the validator set, when it
returns: the admission start epoch and the stakes of the epoch, the pending
removals, the positions, and the voting power over the next epoch's active
validators, whose stake is stored as the total. -/
theorem eq_of_advanceEpoch_eq_ok {stakes : Validator → ℕ} {grace epoch : ℕ}
    (h : advanceEpoch self records stakes grace epoch = .ok (self', records')) :
    ∃ self₁ records₁ self₂ newTotalStake,
      processPendingRemovals { self with
          votingPowerAdmissionStartEpoch := some (self.votingPowerAdmissionStartEpoch.getD epoch)
          activeValidators := restake stakes self.activeValidators }
        records epoch = .ok (self₁, records₁) ∧
      updateValidatorPositionsAndCalculateTotalStake self₁ grace records₁ epoch =
        .ok (self₂, records', newTotalStake) ∧
      setVotingPower self₂.activeValidators newTotalStake = .ok self'.activeValidators ∧
      self' = { self₂ with totalStake := newTotalStake, activeValidators := self'.activeValidators } := by
  rw [advanceEpoch] at h
  obtain ⟨slashed, -, h⟩ := bind_eq_ok.mp h
  obtain ⟨_, -, h⟩ := bind_eq_ok.mp h
  obtain ⟨_, -, h⟩ := bind_eq_ok.mp h
  obtain ⟨⟨self₁, records₁⟩, hremovals, h⟩ := bind_eq_ok.mp h
  obtain ⟨⟨self₂, records₂, newTotalStake⟩, hupdate, h⟩ := bind_eq_ok.mp h
  obtain ⟨active, hpower, h⟩ := bind_eq_ok.mp h
  cases h
  refine ⟨self₁, records₁, self₂, newTotalStake, ?_, hupdate, hpower, rfl⟩
  -- the start epoch is the one stored, or this epoch when there was none
  split at hremovals
  · rename_i startEpoch hstart
    rw [hstart] at hremovals ⊢
    exact hremovals
  · rename_i hstart
    rw [hstart]
    exact hremovals

end Steps

/-! ## The epoch change as SIP-39 describes it -/

/-- The validators that asked to leave, with the epoch's stakes, from the
lowest position up. -/
def leaving (self : ValidatorSet) (stakes : Validator → ℕ) : List Validator :=
  Holdings.atPositions (self.pendingRemovals.insertionSort (· ≤ ·)) (restake stakes self.activeValidators)

/-- The other active validators, with the epoch's stakes, in their order. -/
def staying (self : ValidatorSet) (stakes : Validator → ℕ) : List Validator :=
  Holdings.withoutPositions self.pendingRemovals (restake stakes self.activeValidators)

/-- The stake SIP-39's rule judges the validators' shares by: that of the
staying and the pending validators together. -/
def epochStake (self : ValidatorSet) (stakes : Validator → ℕ) : ℕ :=
  stakeSum (staying self stakes) + stakeSum self.pendingActiveValidators

section Epoch

open Holdings

variable {self self' : ValidatorSet} {records records' : ReportRecords} {stakes : Validator → ℕ}
  {grace epoch : ℕ}

/-- Every active validator stays or leaves at its request. -/
theorem mem_staying_or_mem_leaving (stakes : Validator → ℕ) {a : ℕ}
    (ha : a ∈ self.activeValidators.map Validator.suiAddress) :
    a ∈ (staying self stakes).map Validator.suiAddress ∨
      a ∈ (leaving self stakes).map Validator.suiAddress := by
  rw [← map_suiAddress_restake stakes] at ha
  obtain ⟨v, hv, rfl⟩ := List.mem_map.mp ha
  rcases mem_withoutPositions_or_mem_atPositions
    (fun i => (List.perm_insertionSort (· ≤ ·) self.pendingRemovals).mem_iff.symm) hv with h | h
  · exact .inl (List.mem_map_of_mem h)
  · exact .inr (List.mem_map_of_mem h)

/-- ... and not both, when the addresses are distinct. -/
theorem not_mem_staying_of_mem_leaving
    (hnodup : (self.activeValidators.map Validator.suiAddress).Nodup) {v : Validator}
    (hv : v ∈ leaving self stakes) : v.suiAddress ∉ (staying self stakes).map Validator.suiAddress := by
  obtain ⟨i, hi, hvi⟩ := List.mem_filterMap.mp hv
  intro hmem
  obtain ⟨w, hw, hwv⟩ := List.mem_map.mp hmem
  obtain ⟨j, hj, hwj⟩ := mem_withoutPositions_iff.mp hw
  -- the same address at positions i and j, of which only i was to leave
  have hnodup' := (map_suiAddress_restake stakes self.activeValidators).symm ▸ hnodup
  have hij : i = j := eq_of_getElem?_eq_some hnodup'
    (by rw [List.getElem?_map, hvi]; rfl) (by rw [List.getElem?_map, hwj, Option.map_some, hwv])
  exact hj (hij ▸ (List.perm_insertionSort (· ≤ ·) self.pendingRemovals).mem_iff.mp hi)

/-- The staying, joining and returning validators have distinct addresses,
when the active and pending ones do. -/
theorem nodup_staying_append_pending (stakes : Validator → ℕ)
    (hnodup : ((self.activeValidators ++ self.pendingActiveValidators).map Validator.suiAddress).Nodup)
    (p q : Validator → Bool) :
    (((staying self stakes).filter p ++ self.pendingActiveValidators.reverse.filter q ++
      self.pendingActiveValidators.reverse.filter fun v => !q v).map Validator.suiAddress).Nodup := by
  have hperm : (self.pendingActiveValidators.reverse.filter q ++
      self.pendingActiveValidators.reverse.filter fun v => !q v).Perm self.pendingActiveValidators :=
    (List.filter_append_perm _ _).trans (List.reverse_perm _)
  have hsub : List.Sublist ((staying self stakes).filter p ++
        (self.pendingActiveValidators.reverse.filter q ++
          self.pendingActiveValidators.reverse.filter fun v => !q v))
      (restake stakes self.activeValidators ++
        (self.pendingActiveValidators.reverse.filter q ++
          self.pendingActiveValidators.reverse.filter fun v => !q v)) :=
    (List.filter_sublist.trans (withoutPositions_sublist _ _)).append (List.Sublist.refl _)
  have hnodup' : ((restake stakes self.activeValidators ++ self.pendingActiveValidators).map
      Validator.suiAddress).Nodup := by
    rwa [List.map_append, map_suiAddress_restake, ← List.map_append]
  rw [List.append_assoc]
  exact (hsub.map _).nodup (((hperm.append_left _).map _).nodup_iff.mpr hnodup')

/-- **The epoch change.** On active validators with distinct addresses and
pending removals that are distinct positions of them, advance_epoch, when it
returns, lets the validators that asked to leave go first, their at-risk
counts and report records with them. It then applies SIP-39's rule to the
staying validators, at the thresholds of the admission phase and at their
share of the stake of the staying and pending validators together: the next
epoch's active validators are the staying ones that keep their positions, in
their order, and then the pending ones that reach the joining threshold, in
the reverse order of their requests; the other pending ones go back to the
candidates, and the report records are cleaned of the validators that lose
their positions. The stored total stake is the new active validators', and
their voting powers add up to the total voting power. -/
theorem advanceEpoch_spec
    (hnodup : (self.activeValidators.map Validator.suiAddress).Nodup)
    (hremovals : self.pendingRemovals.Nodup)
    (hlt : ∀ i ∈ self.pendingRemovals, i < self.activeValidators.length)
    (h : advanceEpoch self records stakes grace epoch = .ok (self', records')) :
    ∃ (minJoining low veryLow : ℕ) (atRisk : VecMap ℕ ℕ),
      getVotingPowerThresholds { self with
          votingPowerAdmissionStartEpoch := some (self.votingPowerAdmissionStartEpoch.getD epoch) }
        epoch = .ok (minJoining, low, veryLow) ∧
      atRisk.lookup = forgetAtRisk (leaving self stakes) self.atRiskValidators.lookup ∧
      self'.activeValidators.map Validator.suiAddress =
        ((staying self stakes).filter
            (keepsPosition grace low veryLow (epochStake self stakes) atRisk) ++
          self.pendingActiveValidators.reverse.filter (joins minJoining (epochStake self stakes))).map
          Validator.suiAddress ∧
      self'.pendingActiveValidators = [] ∧ self'.pendingRemovals = [] ∧
      self'.validatorCandidates.contents = addCandidates
        (self.pendingActiveValidators.reverse.filter fun v => !joins minJoining (epochStake self stakes) v)
        self.validatorCandidates.contents ∧
      records'.contents = cleanRecords
        (leavers grace low veryLow (epochStake self stakes) atRisk (staying self stakes))
        (cleanRecords (leaving self stakes) records.contents) ∧
      (∀ v ∈ staying self stakes, self'.atRiskValidators.lookup v.suiAddress =
        nextAtRisk grace low veryLow (atRisk.lookup v.suiAddress)
          (VotingPower.rawVotingPower v.totalStake (epochStake self stakes))) ∧
      (∀ a ∉ (staying self stakes).map Validator.suiAddress,
        self'.atRiskValidators.lookup a = atRisk.lookup a) ∧
      self'.totalStake = stakeSum self'.activeValidators ∧
      (self'.activeValidators.map Validator.votingPower).sum = VotingPower.totalVotingPower := by
  obtain ⟨self₁, records₁, self₂, newTotalStake, hremovals₁, hupdate, hpower, hself'⟩ :=
    eq_of_advanceEpoch_eq_ok h
  -- the validators that asked to leave go
  obtain ⟨hself₁, hrecords₁, hatRisk₁⟩ := eq_of_processPendingRemovals_eq_ok (by exact hremovals)
    (fun i hi => by rw [restake, List.length_map]; exact hlt i hi) hremovals₁
  have hactive₁ : self₁.activeValidators = staying self stakes := by
    rw [hself₁]
    rfl
  have hpending₁ : self₁.pendingActiveValidators = self.pendingActiveValidators := by
    rw [hself₁]
  have hnodup₁ : (self₁.activeValidators.map Validator.suiAddress).Nodup := by
    rw [hactive₁]
    refine ((withoutPositions_sublist _ _).map _).nodup ?_
    simpa [restake, Function.comp_def] using hnodup
  -- the others by SIP-39's rule
  obtain ⟨minJoining, low, veryLow, hthresholds, hself₂, hrecords₂, hmem₂, hframe₂⟩ :=
    updateValidatorPositions_follows_sip39 hnodup₁ hupdate
  have htotal := updateValidatorPositionsAndCalculateTotalStake_total hupdate
  obtain ⟨haddresses', hstake', hpower'⟩ := eq_of_setVotingPower_eq_ok hpower
  have hstake : stakeSum self₁.activeValidators + stakeSum self₁.pendingActiveValidators =
      epochStake self stakes := by
    rw [hactive₁, hpending₁]
    rfl
  rw [hstake, hactive₁, hpending₁] at hself₂
  rw [hstake, hactive₁] at hrecords₂ hmem₂
  rw [hactive₁] at hframe₂
  have hatRisk' : self'.atRiskValidators = self₂.atRiskValidators := by
    rw [hself']
  refine ⟨minJoining, low, veryLow, self₁.atRiskValidators, ?_, ?_, ?_, ?_, ?_, ?_, ?_, ?_, ?_, ?_,
    hpower'⟩
  · -- the thresholds read only the admission start epoch
    rw [← hthresholds, hself₁]
    rfl
  · exact hatRisk₁
  · rw [haddresses', hself₂]
    simp [Function.comp_def]
  · rw [hself', hself₂]
  · rw [hself', hself₂, hself₁]
  · rw [hself', hself₂, hself₁]
  · rw [hrecords₂, hrecords₁]
    rfl
  · intro v hv
    rw [hatRisk']
    exact hmem₂ v hv
  · intro a ha
    rw [hatRisk']
    exact hframe₂ a ha
  · rw [hstake', ← htotal, hself']

end Epoch


/-! ## The tallying rule -/

/-- The voting power of the validators of `validators` whose addresses are
among `reporters`, each counted once. -/
def reportersVotes (validators : List Validator) (reporters : List ℕ) : ℕ :=
  ((validators.filter fun v => decide (v.suiAddress ∈ reporters)).map Validator.votingPower).sum

section Tally

variable {validators : List Validator}

theorem reportersVotes_le (reporters : List ℕ) :
    reportersVotes validators reporters ≤ (validators.map Validator.votingPower).sum :=
  List.Sublist.sum_le_sum (List.filter_sublist.map _) fun _ _ => Nat.zero_le _

/-- A reporter that is a validator, among validators of distinct addresses,
adds its own voting power. -/
theorem reportersVotes_cons (hnodup : (validators.map Validator.suiAddress).Nodup) {v : Validator}
    (hv : v ∈ validators) {rest : List ℕ} (hrest : v.suiAddress ∉ rest) :
    reportersVotes validators (v.suiAddress :: rest) =
      v.votingPower + reportersVotes validators rest := by
  induction validators with
  | nil => cases hv
  | cons w validators ih =>
    rw [List.map_cons, List.nodup_cons] at hnodup
    obtain ⟨hw, hnodup⟩ := hnodup
    by_cases hwv : w = v
    · -- v comes first, and no later validator has its address
      subst hwv
      have hothers : ∀ u ∈ validators, decide (u.suiAddress ∈ w.suiAddress :: rest) =
          decide (u.suiAddress ∈ rest) := by
        intro u hu
        have hne : u.suiAddress ≠ w.suiAddress := fun heq => hw (heq ▸ List.mem_map_of_mem hu)
        simp [hne]
      unfold reportersVotes
      rw [List.filter_cons_of_pos (by simp), List.filter_cons_of_neg (by simpa using hrest),
        List.filter_congr hothers, List.map_cons, List.sum_cons]
    · -- w's address is not v's, so w counts on both sides or on neither
      have hv' : v ∈ validators := (List.mem_cons.mp hv).resolve_left (Ne.symm hwv)
      have hne : w.suiAddress ≠ v.suiAddress := fun heq => hw (heq ▸ List.mem_map_of_mem hv')
      have hih := ih hnodup hv'
      unfold reportersVotes at hih ⊢
      by_cases hwr : w.suiAddress ∈ rest
      · rw [List.filter_cons_of_pos (by simp [hwr]), List.filter_cons_of_pos (by simpa using hwr),
          List.map_cons, List.map_cons, List.sum_cons, List.sum_cons, hih]
        omega
      · rw [List.filter_cons_of_neg (by simp [hne, hwr]), List.filter_cons_of_neg (by simpa using hwr),
          hih]

theorem reportersVotes_nil : reportersVotes validators [] = 0 := by
  simp [reportersVotes]

/-- sum_voting_power_by_addresses over distinct addresses of validators adds
their voting powers, when the validators' voting power fits in 64 bits. -/
theorem foldlM_votingPower_eq_ok (hnodup : (validators.map Validator.suiAddress).Nodup)
    (hfit : (validators.map Validator.votingPower).sum < 2 ^ 64) :
    ∀ {addresses : List ℕ} (sum : ℕ), addresses.Nodup →
      (∀ a ∈ addresses, a ∈ validators.map Validator.suiAddress) →
      sum + reportersVotes validators addresses ≤ (validators.map Validator.votingPower).sum →
      (addresses.foldlM (fun sum addr => do
          let validator ← getValidatorRef validators addr
          add 64 sum validator.votingPower) sum : Except (Abort Code) ℕ) =
        .ok (sum + reportersVotes validators addresses)
  | [], sum, _, _, _ => by
    rw [reportersVotes_nil, Nat.add_zero]
    rfl
  | a :: addresses, sum, haddresses, hmem, hbound => by
    obtain ⟨ha, hrest⟩ := List.nodup_cons.mp haddresses
    obtain ⟨v, hv, rfl⟩ := List.mem_map.mp (hmem a List.mem_cons_self)
    rw [reportersVotes_cons hnodup hv ha] at hbound ⊢
    rw [List.foldlM_cons, getValidatorRef_eq_ok hnodup hv, ok_bind, add_eq_ok (by omega), ok_bind,
      foldlM_votingPower_eq_ok hnodup hfit _ hrest (fun b hb => hmem b (List.mem_cons_of_mem _ hb))
        (by omega), Nat.add_assoc]

/-- The loop of compute_slashed_validators over entries that name active
validators only, whose addresses are distinct and whose voting power fits in
64 bits: it returns, and adds the reported validators whose reporters hold a
quorum. -/
theorem computeSlashedValidatorsLoop_eq_ok {self : ValidatorSet}
    (hnodup : (self.activeValidators.map Validator.suiAddress).Nodup)
    (hfit : (self.activeValidators.map Validator.votingPower).sum < 2 ^ 64) :
    ∀ {entries : List (ℕ × VecSet ℕ)} {slashedValidators : List ℕ},
      (∀ a, namedIn entries a → a ∈ self.activeValidators.map Validator.suiAddress) →
      computeSlashedValidatorsLoop self entries slashedValidators =
        .ok (slashedValidators ++ (entries.filter fun e => VotingPower.quorumThreshold ≤
          reportersVotes self.activeValidators e.2.contents).map Prod.fst)
  | [], slashedValidators, _ => by
    rw [List.filter_nil, List.map_nil, List.append_nil]
    rfl
  | (validatorAddress, reporters) :: entries, slashedValidators, hnamed => by
    have hactive : isActiveValidatorBySuiAddress self validatorAddress = true :=
      isActiveValidatorBySuiAddress_iff.mpr (hnamed _ ⟨_, List.mem_cons_self, .inl rfl⟩)
    have hvotes := foldlM_votingPower_eq_ok hnodup hfit 0 reporters.nodup
      (fun a ha => hnamed a ⟨_, List.mem_cons_self, .inr ha⟩)
      (by rw [Nat.zero_add]; exact reportersVotes_le _)
    rw [Nat.zero_add] at hvotes
    have hrest : ∀ a, namedIn entries a → a ∈ self.activeValidators.map Validator.suiAddress :=
      fun a ⟨e, he, hae⟩ => hnamed a ⟨e, List.mem_cons_of_mem _ he, hae⟩
    rw [computeSlashedValidatorsLoop, assert_eq_ok hactive, ok_bind]
    simp only [sumVotingPowerByAddresses, VecSet.intoKeys, hvotes, ok_bind]
    by_cases hquorum : VotingPower.quorumThreshold ≤ reportersVotes self.activeValidators reporters.contents
    · rw [if_pos hquorum, computeSlashedValidatorsLoop_eq_ok hnodup hfit hrest,
        List.filter_cons_of_pos (by simpa using hquorum)]
      simp
    · rw [if_neg hquorum, computeSlashedValidatorsLoop_eq_ok hnodup hfit hrest,
        List.filter_cons_of_neg (by simpa using hquorum)]

end Tally

end Sui.Membership
