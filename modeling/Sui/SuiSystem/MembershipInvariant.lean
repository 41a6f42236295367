import Sui.SuiSystem.ValidatorMembership

/-!
# The validator set's invariant over every run

The membership calls of `ValidatorMembership` act on one state: the
validator set, the report records and the epoch. This file states what every
state a run reaches satisfies, `Valid`, and proves it of every run from
genesis: validator_set::new on validators with distinct addresses starts a
state of the invariant (`valid_new`), every call that returns keeps it
(`valid_runCall`, one lemma per call), and a call that aborts changes
nothing, so every run keeps it (`valid_runCalls`).

Three consequences for the epoch change follow. **The tallying rule**
(compute_slashed_validators) never aborts on the report records of such a
state, and slashes exactly the reported validators whose reporters hold a
quorum of the voting power. **A request to leave** takes effect at the next
epoch change: the validator is no longer active. **A pending validator**
either joins the active validators at the epoch change or is back among the
candidates.
-/

namespace Sui.Membership

open MoveArith

/-! ## The invariant of the runs -/

/-- What every state a run reaches satisfies. Addresses identify validators:
no address is active or pending twice, and a candidate, stored under its own
address, is neither. The pending removals are distinct positions of active
validators, so that process_pending_removals finds every one of them. The
report records and the at-risk table name active validators only, which is
what compute_slashed_validators asserts of the records. The stored total stake
is the active validators' stake, and their voting powers add up to the total
voting power. -/
structure Valid (s : State) : Prop where
  nodup : ((s.validators.activeValidators ++ s.validators.pendingActiveValidators).map
    Validator.suiAddress).Nodup
  candidate_key : ∀ a v, s.validators.validatorCandidates.contents a = some v → v.suiAddress = a
  candidate_fresh : ∀ a ∈ (s.validators.activeValidators ++ s.validators.pendingActiveValidators).map
    Validator.suiAddress, s.validators.validatorCandidates.contents a = none
  removals_nodup : s.validators.pendingRemovals.Nodup
  removals_lt : ∀ i ∈ s.validators.pendingRemovals, i < s.validators.activeValidators.length
  records_active : ∀ a, namedIn s.validatorReportRecords.contents a →
    a ∈ s.validators.activeValidators.map Validator.suiAddress
  atRisk_active : ∀ a n, s.validators.atRiskValidators.lookup a = some n →
    a ∈ s.validators.activeValidators.map Validator.suiAddress
  totalStake_eq : s.validators.totalStake = stakeSum s.validators.activeValidators
  votingPower_sum :
    (s.validators.activeValidators.map Validator.votingPower).sum = VotingPower.totalVotingPower

theorem Valid.nodup_active {s : State} (hs : Valid s) :
    (s.validators.activeValidators.map Validator.suiAddress).Nodup := by
  have h := hs.nodup
  rw [List.map_append] at h
  exact h.of_append_left

/-- No pending validator has an active validator's address. -/
theorem Valid.not_mem_pending {s : State} (hs : Valid s) {v : Validator}
    (hv : v ∈ s.validators.activeValidators) :
    v.suiAddress ∉ s.validators.pendingActiveValidators.map Validator.suiAddress := by
  have h := hs.nodup
  rw [List.map_append, List.nodup_append] at h
  exact fun hmem => h.2.2 _ (List.mem_map_of_mem hv) _ hmem rfl

/-! ## Every call keeps the invariant -/

section Preservation

open Holdings

variable (isDuplicate : Validator → Validator → Bool) {s : State} {self' : ValidatorSet}
  {records' : ReportRecords}

theorem valid_requestAddValidatorCandidate {validator : Validator} (hs : Valid s)
    (h : requestAddValidatorCandidate isDuplicate s.validators validator = .ok self') :
    Valid { s with validators := self' } := by
  obtain ⟨-, hnew, hself'⟩ := eq_of_requestAddValidatorCandidate_eq_ok isDuplicate h
  rw [hself']
  refine { hs with candidate_key := ?_, candidate_fresh := ?_ }
  · -- the new candidate is stored under its own address
    intro a v hv
    dsimp only at hv
    rw [Table.contents_write] at hv
    split_ifs at hv with ha
    · cases hv
      exact ha.symm
    · exact hs.candidate_key a v hv
  · -- which no active or pending validator has
    intro a ha
    dsimp only at ha ⊢
    rw [Table.contents_write, if_neg fun (heq : a = validator.suiAddress) => hnew (heq ▸ ha)]
    exact hs.candidate_fresh a ha

theorem valid_requestRemoveValidatorCandidate {sender : ℕ} (hs : Valid s)
    (h : requestRemoveValidatorCandidate s.validators sender s.epoch = .ok self') :
    Valid { s with validators := self' } := by
  obtain ⟨hcandidates, hself'⟩ := eq_of_requestRemoveValidatorCandidate_eq_ok h
  rw [hself']
  refine { hs with candidate_key := ?_, candidate_fresh := ?_ }
  · intro a v hv
    dsimp only at hv
    rw [hcandidates] at hv
    by_cases ha : a = sender
    · rw [if_pos ha] at hv
      cases hv
    · rw [if_neg ha] at hv
      exact hs.candidate_key a v hv
  · intro a ha
    dsimp only at ha ⊢
    rw [hcandidates]
    split_ifs
    · rfl
    · exact hs.candidate_fresh a ha

theorem valid_requestAddValidator {sender : ℕ} (hs : Valid s)
    (h : requestAddValidator isDuplicate s.validators sender s.epoch = .ok self') :
    Valid { s with validators := self' } := by
  obtain ⟨validator, hvalidator, hcandidates, hself'⟩ := eq_of_requestAddValidator_eq_ok isDuplicate h
  have hkey : validator.suiAddress = sender := hs.candidate_key sender validator hvalidator
  -- a candidate is neither active nor pending
  have hnew : sender ∉
      (s.validators.activeValidators ++ s.validators.pendingActiveValidators).map Validator.suiAddress := by
    intro hmem
    rw [hs.candidate_fresh sender hmem] at hvalidator
    cases hvalidator
  rw [hself']
  refine { hs with nodup := ?_, candidate_key := ?_, candidate_fresh := ?_ }
  · dsimp only
    rw [← List.append_assoc, List.map_append, List.map_singleton, hkey, List.nodup_append]
    refine ⟨hs.nodup, List.nodup_singleton sender, ?_⟩
    intro a ha b hb hab
    rw [List.mem_singleton] at hb
    subst hb
    exact hnew (hab ▸ ha)
  · intro a v hv
    dsimp only at hv
    rw [hcandidates] at hv
    by_cases ha : a = sender
    · rw [if_pos ha] at hv
      cases hv
    · rw [if_neg ha] at hv
      exact hs.candidate_key a v hv
  · -- the sender's record left the candidates as it joined the pending validators
    intro a ha
    dsimp only at ha ⊢
    rw [hcandidates]
    by_cases has : a = sender
    · rw [if_pos has]
    · rw [if_neg has]
      rw [← List.append_assoc, List.map_append, List.mem_append, List.map_singleton,
        List.mem_singleton, hkey] at ha
      exact hs.candidate_fresh a (ha.resolve_right has)

theorem valid_requestRemoveValidator {sender : ℕ} (hs : Valid s)
    (h : requestRemoveValidator s.validators sender = .ok self') :
    Valid { s with validators := self' } := by
  obtain ⟨i, hfind, hi, rfl⟩ := eq_of_requestRemoveValidator_eq_ok h
  obtain ⟨hlt, -⟩ := eq_of_findValidator_eq_some hfind
  refine { hs with removals_nodup := ?_, removals_lt := ?_ }
  · exact List.nodup_append_comm.mp (List.nodup_cons.mpr ⟨hi, hs.removals_nodup⟩)
  · intro j hj
    rcases List.mem_append.mp hj with hj | hj
    · exact hs.removals_lt j hj
    · rw [List.mem_singleton.mp hj]
      exact hlt

theorem valid_reportValidator {capAddress capId reportee : ℕ} (hs : Valid s)
    (h : reportValidator s.validators s.validatorReportRecords capAddress capId reportee =
      .ok records') :
    Valid { s with validatorReportRecords := records' } := by
  obtain ⟨hreportee, hreporter, himpl⟩ := eq_of_reportValidator_eq_ok h
  refine { hs with records_active := ?_ }
  intro a ha
  rcases namedIn_of_reportValidatorImpl_eq_ok himpl ha with hold | rfl | rfl
  · exact hs.records_active a hold
  · exact hreporter
  · exact hreportee

theorem valid_undoReportValidator {capAddress capId reportee : ℕ} (hs : Valid s)
    (h : undoReportValidator s.validators s.validatorReportRecords capAddress capId reportee =
      .ok records') :
    Valid { s with validatorReportRecords := records' } :=
  { hs with
    records_active := fun a ha =>
      hs.records_active a (namedIn_of_undoReportValidatorImpl_eq_ok (eq_of_undoReportValidator_eq_ok h) ha) }

/-- The epoch change keeps the invariant. The validators that leave, at their
request or by SIP-39's rule, take their report records and at-risk counts with
them; the pending validators either join the active ones or go back to the
candidates under their addresses; the total stake and the voting power are
set over the new active validators. -/
theorem valid_advanceEpoch {stakes : Validator → ℕ} {grace : ℕ} (hs : Valid s)
    (h : advanceEpoch s.validators s.validatorReportRecords stakes grace s.epoch =
      .ok (self', records')) (epoch' : ℕ) :
    Valid ⟨self', records', epoch'⟩ := by
  obtain ⟨minJoining, low, veryLow, atRisk, -, hatRisk, haddresses, hpending', hremovals',
      hcandidates', hrecords', hmem', hframe', htotal', hpower'⟩ :=
    advanceEpoch_spec hs.nodup_active hs.removals_nodup hs.removals_lt h
  have hpartition := nodup_staying_append_pending stakes hs.nodup
    (keepsPosition grace low veryLow (epochStake s.validators stakes) atRisk)
    (joins minJoining (epochStake s.validators stakes))
  -- a staying validator that keeps its position is active in the next epoch
  have hkept : ∀ v ∈ staying s.validators stakes,
      keepsPosition grace low veryLow (epochStake s.validators stakes) atRisk v = true →
        v.suiAddress ∈ self'.activeValidators.map Validator.suiAddress := by
    intro v hv hkeeps
    rw [haddresses, List.map_append]
    exact List.mem_append_left _ (List.mem_map_of_mem (List.mem_filter.mpr ⟨hv, hkeeps⟩))
  -- so is an active address that neither asked to leave nor lost its position
  have hstays : ∀ a ∈ s.validators.activeValidators.map Validator.suiAddress,
      a ∉ (leaving s.validators stakes).map Validator.suiAddress →
      a ∉ (leavers grace low veryLow (epochStake s.validators stakes) atRisk
        (staying s.validators stakes)).map Validator.suiAddress →
      a ∈ self'.activeValidators.map Validator.suiAddress := by
    intro a ha hnotLeaving hnotLeaver
    obtain ⟨v, hv, rfl⟩ :=
      List.mem_map.mp ((mem_staying_or_mem_leaving stakes ha).resolve_right hnotLeaving)
    refine hkept v hv ?_
    by_contra hleaves
    exact hnotLeaver (List.mem_map_of_mem (List.mem_filter.mpr ⟨hv, by simpa using hleaves⟩))
  refine ⟨?nodup, ?key, ?fresh, ?removals, ?lt, ?records, ?atRisk, htotal', hpower'⟩
  case nodup =>
    show ((self'.activeValidators ++ self'.pendingActiveValidators).map Validator.suiAddress).Nodup
    rw [hpending', List.append_nil, haddresses]
    rw [List.map_append] at hpartition
    exact hpartition.of_append_left
  case key =>
    intro a v hv
    change self'.validatorCandidates.contents a = some v at hv
    rw [hcandidates'] at hv
    rcases addCandidates_eq_some hv with ⟨-, hkey⟩ | hold
    · exact hkey
    · exact hs.candidate_key a v hold
  case fresh =>
    -- a returning validator's address is no kept or joining validator's
    intro a ha
    change a ∈ (self'.activeValidators ++ self'.pendingActiveValidators).map
      Validator.suiAddress at ha
    change self'.validatorCandidates.contents a = none
    rw [hpending', List.append_nil, haddresses] at ha
    rw [List.map_append, List.nodup_append] at hpartition
    rw [hcandidates', addCandidates_of_not_mem fun hret => hpartition.2.2 a ha a hret rfl]
    apply hs.candidate_fresh a
    rw [List.map_append, List.mem_append] at ha ⊢
    rcases ha with ha | ha
    · obtain ⟨v, hv, rfl⟩ := List.mem_map.mp ha
      left
      rw [← map_suiAddress_restake stakes]
      exact List.mem_map_of_mem ((withoutPositions_sublist _ _).subset (List.mem_filter.mp hv).1)
    · obtain ⟨v, hv, rfl⟩ := List.mem_map.mp ha
      right
      exact List.mem_map_of_mem (List.mem_reverse.mp (List.mem_filter.mp hv).1)
  case removals =>
    show self'.pendingRemovals.Nodup
    rw [hremovals']
    exact List.nodup_nil
  case lt =>
    show ∀ i ∈ self'.pendingRemovals, i < self'.activeValidators.length
    rw [hremovals']
    simp
  case records =>
    -- a named address was active and left neither at its request nor by the rule
    intro a ha
    change namedIn records'.contents a at ha
    rw [hrecords'] at ha
    obtain ⟨ha₁, hnotLeaver⟩ := namedIn_cleanRecords ha
    obtain ⟨ha₀, hnotLeaving⟩ := namedIn_cleanRecords ha₁
    exact hstays a (hs.records_active a ha₀) hnotLeaving hnotLeaver
  case atRisk =>
    -- still at risk means it stayed; a count the loop did not touch was forgotten or active
    intro a n ha
    change self'.atRiskValidators.lookup a = some n at ha
    by_cases hstaying : a ∈ (staying s.validators stakes).map Validator.suiAddress
    · obtain ⟨v, hv, rfl⟩ := List.mem_map.mp hstaying
      rw [hmem' v hv] at ha
      exact hkept v hv (staysActive_of_nextAtRisk_eq_some ha)
    · rw [hframe' a hstaying, hatRisk] at ha
      obtain ⟨ha₀, hnotLeaving⟩ := forgetAtRisk_eq_some ha
      exact absurd ((mem_staying_or_mem_leaving stakes (hs.atRisk_active a n ha₀)).resolve_right
        hnotLeaving) hstaying

theorem valid_runCall {call : Call} {s' : State} (hs : Valid s)
    (h : runCall isDuplicate s call = .ok s') : Valid s' := by
  cases call with
  | requestAddValidatorCandidate validator =>
    obtain ⟨self', hrequest, h⟩ := bind_eq_ok.mp h
    cases h
    exact valid_requestAddValidatorCandidate isDuplicate hs hrequest
  | requestRemoveValidatorCandidate sender =>
    obtain ⟨self', hrequest, h⟩ := bind_eq_ok.mp h
    cases h
    exact valid_requestRemoveValidatorCandidate hs hrequest
  | requestAddValidator sender =>
    obtain ⟨self', hrequest, h⟩ := bind_eq_ok.mp h
    cases h
    exact valid_requestAddValidator isDuplicate hs hrequest
  | requestRemoveValidator sender =>
    obtain ⟨self', hrequest, h⟩ := bind_eq_ok.mp h
    cases h
    exact valid_requestRemoveValidator hs hrequest
  | reportValidator capAddress capId reportee =>
    obtain ⟨records', hreport, h⟩ := bind_eq_ok.mp h
    cases h
    exact valid_reportValidator hs hreport
  | undoReportValidator capAddress capId reportee =>
    obtain ⟨records', hundo, h⟩ := bind_eq_ok.mp h
    cases h
    exact valid_undoReportValidator hs hundo
  | advanceEpoch stakes lowStakeGracePeriod =>
    obtain ⟨⟨self', records'⟩, hadvance, h⟩ := bind_eq_ok.mp h
    obtain ⟨epoch', -, h⟩ := bind_eq_ok.mp h
    cases h
    exact valid_advanceEpoch hs hadvance epoch'

/-- From a state of the invariant, every run reaches one: a call that returns
keeps it, and one that aborts changes nothing. -/
theorem valid_runCalls (hs : Valid s) (calls : List Call) : Valid (runCalls isDuplicate s calls) := by
  induction calls generalizing s with
  | nil => exact hs
  | cons call calls ih =>
    unfold runCalls
    rw [List.foldl_cons]
    -- one call: its state when it returns, the same state when it aborts
    split
    · rename_i s' hcall
      exact ih (valid_runCall isDuplicate hs hcall)
    · exact ih hs

/-- validator_set::new, on genesis validators with distinct addresses, starts
a state of the invariant. -/
theorem valid_new {initActiveValidators : List Validator} {self : ValidatorSet}
    (hnodup : (initActiveValidators.map Validator.suiAddress).Nodup)
    (h : new initActiveValidators = .ok self) (epoch : ℕ) : Valid ⟨self, VecMap.empty, epoch⟩ := by
  rw [new] at h
  obtain ⟨totalStake, htotal, h⟩ := bind_eq_ok.mp h
  obtain ⟨mappings, -, h⟩ := bind_eq_ok.mp h
  obtain ⟨active, hpower, h⟩ := bind_eq_ok.mp h
  cases h
  obtain ⟨haddresses, hstake, hpower'⟩ := eq_of_setVotingPower_eq_ok hpower
  refine ⟨?_, ?_, fun _ _ => rfl, List.nodup_nil, ?_, ?_, ?_, ?_, hpower'⟩
  · show ((active ++ []).map Validator.suiAddress).Nodup
    rw [List.append_nil, haddresses]
    exact hnodup
  · intro a v hv
    cases hv
  · intro i hi
    cases hi
  · rintro a ⟨e, he, -⟩
    cases he
  · intro a n ha
    cases ha
  · show totalStake = stakeSum active
    rw [hstake, eq_of_calculateTotalStakes_eq_ok htotal]

end Preservation

/-! ## The states a run reaches -/

/-- The states a run reaches: validator_set::new on genesis validators with
distinct addresses, at some epoch, and then any calls. -/
def Reachable (isDuplicate : Validator → Validator → Bool) (s : State) : Prop :=
  ∃ (initActiveValidators : List Validator) (self : ValidatorSet) (epoch : ℕ) (calls : List Call),
    (initActiveValidators.map Validator.suiAddress).Nodup ∧ new initActiveValidators = .ok self ∧
      runCalls isDuplicate ⟨self, VecMap.empty, epoch⟩ calls = s

section Reachable

variable {isDuplicate : Validator → Validator → Bool} {s : State}

/-- **The invariant of the runs.** Every state a run reaches satisfies
`Valid`: addresses identify the active, pending and candidate validators, the
pending removals are positions of active validators, the report records and
the at-risk table name active validators only, and the stored total stake and
the voting powers are those of the active validators. -/
theorem valid_of_reachable (h : Reachable isDuplicate s) : Valid s := by
  obtain ⟨initActiveValidators, self, epoch, calls, hnodup, hnew, rfl⟩ := h
  exact valid_runCalls isDuplicate (valid_new hnodup hnew epoch) calls

set_option maxRecDepth 100000 in
theorem valid_of_reachable_two :
    ∃ s, Reachable (fun _ _ => false) s ∧ Valid s :=
  have h : Reachable (fun _ _ => false) _ :=
    ⟨[⟨1, 101, 201, 3000, 0, some 0, none⟩, ⟨2, 102, 202, 2000, 0, some 0, none⟩], _, 0,
      [.requestRemoveValidator 2, .advanceEpoch (·.totalStake) 1], by decide, rfl, rfl⟩
  ⟨_, h, valid_of_reachable h⟩

/-- compute_slashed_validators in a state of the invariant. -/
theorem computeSlashedValidators_of_valid (hs : Valid s) :
    computeSlashedValidators s.validators s.validatorReportRecords =
      .ok ((s.validatorReportRecords.contents.reverse.filter fun e =>
        VotingPower.quorumThreshold ≤ reportersVotes s.validators.activeValidators e.2.contents).map
          Prod.fst) := by
  have hfit : (s.validators.activeValidators.map Validator.votingPower).sum < 2 ^ 64 := by
    rw [hs.votingPower_sum]
    decide
  rw [computeSlashedValidators, computeSlashedValidatorsLoop_eq_ok hs.nodup_active hfit,
    List.nil_append]
  rintro a ⟨e, he, hae⟩
  exact hs.records_active a ⟨e, List.mem_reverse.mp he, hae⟩

/-- **The tallying rule in every reachable state.** compute_slashed_validators
returns: the report records name active validators only, so its assertion
ENonValidatorInReportRecords never fires, and the reporters' voting power is
at most the total voting power, so the sum does not overflow. It slashes
exactly the reported validators whose reporters, each counted once, hold a
quorum of the voting power, in the order pop takes the records from the back. -/
theorem tallying_rule_of_reachable (h : Reachable isDuplicate s) :
    computeSlashedValidators s.validators s.validatorReportRecords =
      .ok ((s.validatorReportRecords.contents.reverse.filter fun e =>
        VotingPower.quorumThreshold ≤ reportersVotes s.validators.activeValidators e.2.contents).map
          Prod.fst) := by
  obtain ⟨initActiveValidators, self, epoch, calls, hnodup, hnew, rfl⟩ := h
  exact computeSlashedValidators_of_valid
    (valid_runCalls isDuplicate (valid_new hnodup hnew epoch) calls)

set_option maxRecDepth 100000 in
theorem tallying_rule_of_reachable_two :
    ∃ s, Reachable (fun _ _ => false) s ∧
      computeSlashedValidators s.validators s.validatorReportRecords =
        .ok ((s.validatorReportRecords.contents.reverse.filter fun e =>
          VotingPower.quorumThreshold ≤ reportersVotes s.validators.activeValidators e.2.contents).map
            Prod.fst) :=
  have h : Reachable (fun _ _ => false) _ :=
    ⟨[⟨1, 101, 201, 3000, 0, some 0, none⟩, ⟨2, 102, 202, 2000, 0, some 0, none⟩], _, 0,
      [.reportValidator 1 201 2], by decide, rfl, rfl⟩
  ⟨_, h, tallying_rule_of_reachable h⟩

end Reachable

/-! ### The epoch change

What validator_set::advance_epoch does to the validators that asked to leave
and to the pending ones, read off `advanceEpoch_spec` in a state of the
invariant: the invariant supplies the distinct addresses and the in-range,
distinct removal positions that the description needs. -/

section EpochChange

variable {isDuplicate : Validator → Validator → Bool} {s : State} {self' : ValidatorSet}
  {records' : ReportRecords} {stakes : Validator → ℕ} {grace : ℕ}

/-- In a state of the invariant, a validator at a pending removal position
is no longer active once advance_epoch returns: it is among the leaving
validators, so not among those that stay, and its address is no pending
validator's, so it does not join. -/
theorem removal_takes_effect_of_valid (hs : Valid s)
    (h : advanceEpoch s.validators s.validatorReportRecords stakes grace s.epoch =
      .ok (self', records'))
    {i : ℕ} (hi : i ∈ s.validators.pendingRemovals) {v : Validator}
    (hv : s.validators.activeValidators[i]? = some v) :
    v.suiAddress ∉ self'.activeValidators.map Validator.suiAddress := by
  obtain ⟨minJoining, low, veryLow, atRisk, -, -, haddresses, -⟩ :=
    advanceEpoch_spec hs.nodup_active hs.removals_nodup hs.removals_lt h
  -- v, with the epoch's stake, is among the validators that leave at their request
  have hleaving : { v with totalStake := stakes v } ∈ leaving s.validators stakes :=
    List.mem_filterMap.mpr ⟨i, (List.perm_insertionSort (· ≤ ·) _).mem_iff.mpr hi,
      by simp [restake, hv]⟩
  have hstaying := not_mem_staying_of_mem_leaving hs.nodup_active hleaving
  -- and it is not among the pending validators, of which some join
  have hpending := hs.not_mem_pending (List.mem_of_getElem? hv)
  rw [haddresses, List.map_append, List.mem_append, not_or]
  constructor
  · exact fun hmem => hstaying (List.map_subset _ List.filter_sublist.subset hmem)
  · exact fun hmem => hpending
      (List.map_subset _ (fun w hw => List.mem_reverse.mp (List.mem_filter.mp hw).1) hmem)

/-- **A request to leave takes effect at the next epoch change.** In a
reachable state, the validator at a position that validator_set::request_remove_validator
recorded is no longer active once advance_epoch has returned. -/
theorem removal_takes_effect_of_reachable (hr : Reachable isDuplicate s)
    (h : advanceEpoch s.validators s.validatorReportRecords stakes grace s.epoch =
      .ok (self', records'))
    {i : ℕ} (hi : i ∈ s.validators.pendingRemovals) {v : Validator}
    (hv : s.validators.activeValidators[i]? = some v) :
    v.suiAddress ∉ self'.activeValidators.map Validator.suiAddress := by
  obtain ⟨initActiveValidators, self, epoch, calls, hnodup, hnew, rfl⟩ := hr
  exact removal_takes_effect_of_valid
    (valid_runCalls isDuplicate (valid_new hnodup hnew epoch) calls) h hi hv

set_option maxRecDepth 100000 in
theorem removal_takes_effect_of_reachable_two :
    ∃ (s : State) (self' : ValidatorSet) (records' : ReportRecords) (v : Validator),
      Reachable (fun _ _ => false) s ∧
      advanceEpoch s.validators s.validatorReportRecords (·.totalStake) 1 s.epoch =
        .ok (self', records') ∧
      1 ∈ s.validators.pendingRemovals ∧ s.validators.activeValidators[1]? = some v ∧
      v.suiAddress ∉ self'.activeValidators.map Validator.suiAddress := by
  have hr : Reachable (fun _ _ => false) _ :=
    ⟨[⟨1, 101, 201, 3000, 0, some 0, none⟩, ⟨2, 102, 202, 2000, 0, some 0, none⟩], _, 0,
      [.requestRemoveValidator 2], by decide, rfl, rfl⟩
  revert hr
  generalize hrun : runCalls _ _ _ = s
  intro hr
  -- the run records position 1 for removal, and the epoch change returns
  have hi : 1 ∈ s.validators.pendingRemovals := by
    rw [← hrun]
    decide +kernel
  obtain ⟨v, hv⟩ : ∃ v, s.validators.activeValidators[1]? = some v := by
    rw [← hrun]
    exact ⟨_, rfl⟩
  obtain ⟨⟨self', records'⟩, h⟩ := exists_eq_ok_of_toBool (e := advanceEpoch s.validators
    s.validatorReportRecords (·.totalStake) 1 s.epoch) (by rw [← hrun]; decide +kernel)
  exact ⟨s, self', records', v, hr, h, hi, hv, removal_takes_effect_of_reachable hr h hi hv⟩

/-- In a state of the invariant, a pending validator is active or back among
the candidates once advance_epoch returns: it joins when it reaches the
joining threshold, and otherwise returns to the candidates, whose addresses
are distinct from the others. -/
theorem pending_settled_of_valid (hs : Valid s)
    (h : advanceEpoch s.validators s.validatorReportRecords stakes grace s.epoch =
      .ok (self', records'))
    {v : Validator} (hv : v ∈ s.validators.pendingActiveValidators) :
    v.suiAddress ∈ self'.activeValidators.map Validator.suiAddress ∨
      self'.validatorCandidates.contents v.suiAddress = some v := by
  obtain ⟨minJoining, low, veryLow, atRisk, -, -, haddresses, -, -, hcandidates, -⟩ :=
    advanceEpoch_spec hs.nodup_active hs.removals_nodup hs.removals_lt h
  have hv' : v ∈ s.validators.pendingActiveValidators.reverse := List.mem_reverse.mpr hv
  -- a pending validator joins when it reaches the threshold, and goes back otherwise
  by_cases hjoins : joins minJoining (epochStake s.validators stakes) v = true
  · left
    rw [haddresses, List.map_append]
    exact List.mem_append_right _ (List.mem_map_of_mem (List.mem_filter.mpr ⟨hv', hjoins⟩))
  · right
    have hpartition := nodup_staying_append_pending stakes hs.nodup (fun _ => true)
      (joins minJoining (epochStake s.validators stakes))
    rw [List.map_append] at hpartition
    rw [hcandidates]
    exact addCandidates_of_mem hpartition.of_append_right
      (List.mem_filter.mpr ⟨hv', by simpa using hjoins⟩)

/-- **Every pending validator is settled at the epoch change.** In a
reachable state, once advance_epoch has returned, a validator that was
pending is active, or back among the candidates under its address. -/
theorem pending_settled_of_reachable (hr : Reachable isDuplicate s)
    (h : advanceEpoch s.validators s.validatorReportRecords stakes grace s.epoch =
      .ok (self', records'))
    {v : Validator} (hv : v ∈ s.validators.pendingActiveValidators) :
    v.suiAddress ∈ self'.activeValidators.map Validator.suiAddress ∨
      self'.validatorCandidates.contents v.suiAddress = some v := by
  obtain ⟨initActiveValidators, self, epoch, calls, hnodup, hnew, rfl⟩ := hr
  exact pending_settled_of_valid
    (valid_runCalls isDuplicate (valid_new hnodup hnew epoch) calls) h hv

set_option maxRecDepth 100000 in
theorem pending_settled_of_reachable_two :
    ∃ (s : State) (self' : ValidatorSet) (records' : ReportRecords) (v : Validator),
      Reachable (fun _ _ => false) s ∧
      advanceEpoch s.validators s.validatorReportRecords (·.totalStake) 1 s.epoch =
        .ok (self', records') ∧
      v ∈ s.validators.pendingActiveValidators ∧
      (v.suiAddress ∈ self'.activeValidators.map Validator.suiAddress ∨
        self'.validatorCandidates.contents v.suiAddress = some v) := by
  have hr : Reachable (fun _ _ => false) _ :=
    ⟨[⟨1, 101, 201, 3000, 0, some 0, none⟩, ⟨2, 102, 202, 2000, 0, some 0, none⟩], _, 0,
      [.requestAddValidatorCandidate ⟨3, 103, 203, 1000, 0, none, none⟩, .requestAddValidator 3],
      by decide, rfl, rfl⟩
  revert hr
  generalize hrun : runCalls _ _ _ = s
  intro hr
  -- the run leaves one validator pending, and the epoch change returns
  obtain ⟨v, hv⟩ : ∃ v, s.validators.pendingActiveValidators[0]? = some v := by
    rw [← hrun]
    exact ⟨_, rfl⟩
  obtain ⟨⟨self', records'⟩, h⟩ := exists_eq_ok_of_toBool (e := advanceEpoch s.validators
    s.validatorReportRecords (·.totalStake) 1 s.epoch) (by rw [← hrun]; decide +kernel)
  have hmem := List.mem_of_getElem? hv
  exact ⟨s, self', records', v, hr, h, hmem, pending_settled_of_reachable hr h hmem⟩

end EpochChange

end Sui.Membership
