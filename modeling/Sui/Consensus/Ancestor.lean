import Mathlib.Data.List.Sigma
import Mathlib.Data.List.Sort
import Sui.GreedyBudget
import Sui.Consensus.RoundTracker

/-!
# The ancestor state manager

`AncestorStateManager` decides which authorities' blocks the proposer leaves
out of its ancestors. Each authority is in `Include` or `Exclude` state, and
a change of state locks it for `STATE_LOCK_CLOCK_ROUNDS` rounds of the
threshold clock. `update_all_ancestors_state` collects from one snapshot the
excluded authorities to include again and the included authorities with a
low propagation score to exclude; it includes first, then excludes the
candidates worst score first, each only while the running excluded stake
stays within `excluded_nodes_stake_threshold`.

The model keeps the state map, the stake threshold, the running excluded
stake and the propagation scores; the threshold clock round is an argument of
each update, as the code reads it from the `DagState`. An index out of range,
the failed `checked_sub` and the panic on a call that is not a transition are
`none`. The lock round is a `u32` sum, which release builds wrap.

What is proved:
* every call of a run from `new` succeeds, and keeps the running excluded
  stake equal to the stake of the excluded authorities and within the
  threshold (`Consistent`, `run_consistent`);
* one call changes an authority's state at most once, only when it is not
  locked, and then locks it (`step_spec`); while the clock rounds stay below
  the `u32` wrap, the lock holds through later calls (`run_lock_ge`), so two
  changes of one authority are more than `STATE_LOCK_CLOCK_ROUNDS` rounds
  apart (`changes_apart`); in the last rounds before the wrap the lock wraps
  to a small round and does not hold;
* a candidate left included did not fit even without the stake of the
  candidates of higher score excluded in the same call (`step_spec`, from
  `GreedyBudget.budget_lt_of_not_mem_fit`).
-/

namespace Sui

open GreedyBudget

/-- `AncestorState`; `Exclude` keeps the score the authority was excluded with. -/
inductive AncestorState
  | include
  | exclude (score : ℕ)
  deriving DecidableEq, Repr

/-- Whether a state is `Exclude`. -/
def AncestorState.isExclude : AncestorState → Bool
  | .include => false
  | .exclude _ => true

/-- `AncestorInfo`. -/
structure AncestorInfo where
  /-- include or exclude -/
  state : AncestorState
  /-- the clock round up to which the state is locked (`u32`) -/
  lockUntilRound : ℕ
  deriving DecidableEq, Repr

namespace AncestorInfo

/-- `AncestorInfo::new`. -/
def new : AncestorInfo := ⟨.include, 0⟩

/-- `AncestorInfo::is_locked`. -/
def isLocked (info : AncestorInfo) (currentClockRound : ℕ) : Bool :=
  decide (currentClockRound ≤ info.lockUntilRound)

/-- `AncestorInfo::set_lock`. -/
def setLock (info : AncestorInfo) (lockUntilRound : ℕ) : AncestorInfo := { info with lockUntilRound }

end AncestorInfo

/-- `StateTransition`. -/
structure StateTransition where
  /-- the authority changing state -/
  authorityId : ℕ
  /-- its propagation score -/
  score : ℕ
  /-- its stake -/
  stake : ℕ
  /-- its high quorum round -/
  highQuorumRound : ℕ
  deriving DecidableEq, Repr

/-- `ReputationScores::highest_score`. -/
def highestScore (scoresPerAuthority : List ℕ) : ℕ := scoresPerAuthority.max?.getD 0

/-- `AncestorStateManager`. -/
structure AncestorStateManager where
  /-- the per-epoch context -/
  context : Context
  /-- state and lock per authority -/
  stateMap : List AncestorInfo
  /-- most stake that may be excluded at once -/
  excludedNodesStakeThreshold : ℕ
  /-- running total of the stake in `Exclude` state -/
  totalExcludedStake : ℕ
  /-- `scores_per_authority` of the propagation scores -/
  propagationScores : List ℕ
  deriving DecidableEq, Repr

namespace AncestorStateManager

/-- `STATE_LOCK_CLOCK_ROUNDS` outside tests. -/
def stateLockClockRounds : ℕ := 450

/-- `SCORE_EXCLUSION_THRESHOLD_PERCENTAGE`. -/
def scoreExclusionThresholdPercentage : ℕ := 20

/-- `AncestorStateManager::new`: every authority included and unlocked. -/
def new (context : Context) : AncestorStateManager :=
  let stateMap := List.replicate context.committee.size AncestorInfo.new
  let excludedNodesStakeThresholdPercentage := 2 * context.protocolConfig.badNodesStakeThreshold / 3
  let excludedNodesStakeThreshold :=
    excludedNodesStakeThresholdPercentage * context.committee.totalStake / 100
  { context, stateMap, excludedNodesStakeThreshold, totalExcludedStake := 0, propagationScores := [] }

/-- `set_propagation_scores`. -/
def setPropagationScores (m : AncestorStateManager) (scores : List ℕ) : AncestorStateManager :=
  { m with propagationScores := scores }

/-- `get_ancestor_states`. -/
def getAncestorStates (m : AncestorStateManager) : List AncestorState :=
  m.stateMap.map AncestorInfo.state

/-- One iteration of the first loop of `update_all_ancestors_state`, over
the propagation score of the authority `idx`: an unlocked included authority
with a low score becomes a candidate to exclude, and an unlocked excluded one
whose score recovered, or whose high quorum round caught up with the
network's, is to be included again. -/
def collectTransition (m : AncestorStateManager) (acceptedQuorumRounds : List (ℕ × ℕ))
    (networkHighQuorumRound lowScoreThreshold currentClockRound : ℕ)
    (transitions : List StateTransition × List StateTransition) (entry : ℕ × ℕ) :
    Option (List StateTransition × List StateTransition) := do
  let score := entry.1
  let idx := entry.2
  let authorityId ← m.context.committee.toAuthorityIndex idx
  let ancestorInfo ← m.stateMap[idx]?
  let quorumRound ← acceptedQuorumRounds[idx]?
  let stake := m.context.committee.stake authorityId
  let transition : StateTransition := ⟨authorityId, score, stake, quorumRound.2⟩
  if ancestorInfo.isLocked currentClockRound then
    pure transitions
  else
    match ancestorInfo.state with
    | .include =>
      if score ≤ lowScoreThreshold then pure (transitions.1, transitions.2 ++ [transition])
      else pure transitions
    | .exclude _ =>
      if lowScoreThreshold < score ∨ networkHighQuorumRound ≤ quorumRound.2 then
        pure (transitions.1 ++ [transition], transitions.2)
      else pure transitions

/-- The first phase of `update_all_ancestors_state`: from one snapshot of the
states, the authorities to include again and the candidates to exclude, each
in index order. The product of the highest score and the percentage is a
`u64` product. -/
def collectTransitions (m : AncestorStateManager) (acceptedQuorumRounds : List (ℕ × ℕ))
    (currentClockRound : ℕ) : Option (List StateTransition × List StateTransition) :=
  let networkHighQuorumRound := calculateNetworkHighQuorumRound m.context.committee acceptedQuorumRounds
  let lowScoreThreshold :=
    highestScore m.propagationScores * scoreExclusionThresholdPercentage % u64Bound / 100
  m.propagationScores.zipIdx.foldlM
    (m.collectTransition acceptedQuorumRounds networkHighQuorumRound lowScoreThreshold
      currentClockRound) ([], [])

/-- The round up to which a change at `currentClockRound` locks the state:
a `u32` sum, wrapped. -/
def lockUntilRound (currentClockRound : ℕ) : ℕ :=
  (currentClockRound + stateLockClockRounds) % u32Bound

/-- `apply_state_change`: the running total loses or gains the authority's
stake, and its state changes and is locked. `none` is the failed
`checked_sub` or the panic on a call that is not a transition. -/
def applyStateChange (m : AncestorStateManager) (transition : StateTransition)
    (newState : AncestorState) (currentClockRound : ℕ) : Option AncestorStateManager := do
  let ancestorInfo ← m.stateMap[transition.authorityId]?
  let totalExcludedStake ← match ancestorInfo.state, newState with
    | .exclude _, .include => checkedSub m.totalExcludedStake transition.stake
    | .include, .exclude _ => pure (m.totalExcludedStake + transition.stake)
    | _, _ => none
  let ancestorInfo := ({ ancestorInfo with state := newState }).setLock (lockUntilRound currentClockRound)
  pure { m with totalExcludedStake, stateMap := m.stateMap.set transition.authorityId ancestorInfo }

/-- The second loop of `update_all_ancestors_state`: every authority to
include again. -/
def includeAll (m : AncestorStateManager) (excludeToInclude : List StateTransition)
    (currentClockRound : ℕ) : Option AncestorStateManager :=
  excludeToInclude.foldlM (fun m transition => m.applyStateChange transition .include currentClockRound) m

/-- The last loop: each candidate in turn, excluded only if its stake still
fits within the threshold, and skipped otherwise. -/
def excludeWithinThreshold (m : AncestorStateManager) (includeToExclude : List StateTransition)
    (currentClockRound : ℕ) : Option AncestorStateManager :=
  includeToExclude.foldlM (fun m transition =>
    if m.totalExcludedStake + transition.stake ≤ m.excludedNodesStakeThreshold then
      m.applyStateChange transition (.exclude transition.score) currentClockRound
    else pure m) m

/-- `update_all_ancestors_state`. -/
def updateAllAncestorsState (m : AncestorStateManager) (acceptedQuorumRounds : List (ℕ × ℕ))
    (currentClockRound : ℕ) : Option AncestorStateManager := do
  let transitions ← m.collectTransitions acceptedQuorumRounds currentClockRound
  let m ← m.includeAll transitions.1 currentClockRound
  -- worst scores first; `sort_by_key` is stable
  let includeToExclude := transitions.2.insertionSort fun a b => a.score ≤ b.score
  m.excludeWithinThreshold includeToExclude currentClockRound

/-- What drives the manager: the propagation scores of the leader schedule,
then `update_all_ancestors_state` with the accepted quorum rounds of the
round tracker at the current threshold clock round. -/
structure Call where
  /-- propagation score per authority -/
  scores : List ℕ
  /-- accepted quorum round per authority -/
  acceptedQuorumRounds : List (ℕ × ℕ)
  /-- the threshold clock round -/
  currentClockRound : ℕ
  deriving DecidableEq, Repr

/-- A call for a committee of `n`: a score and a quorum round per authority. -/
def Call.Valid (n : ℕ) (call : Call) : Prop :=
  call.scores.length = n ∧ call.acceptedQuorumRounds.length = n

/-- One call. -/
def step (m : AncestorStateManager) (call : Call) : Option AncestorStateManager :=
  (m.setPropagationScores call.scores).updateAllAncestorsState call.acceptedQuorumRounds
    call.currentClockRound

/-- A sequence of calls. -/
def run (m : AncestorStateManager) (calls : List Call) : Option AncestorStateManager :=
  calls.foldlM step m

/-! ## The excluded stake -/

/-- The authorities whose state is `Exclude`. -/
def excluded (stateMap : List AncestorInfo) : Finset ℕ :=
  (Finset.range stateMap.length).filter fun i => (stateMap.getD i AncestorInfo.new).state.isExclude

theorem mem_excluded {stateMap : List AncestorInfo} {i : ℕ} :
    i ∈ excluded stateMap ↔ ∃ info, stateMap[i]? = some info ∧ info.state.isExclude = true := by
  simp only [excluded, Finset.mem_filter, Finset.mem_range, List.getD_eq_getElem?_getD]
  constructor
  · rintro ⟨hi, hex⟩
    rw [List.getElem?_eq_getElem hi] at hex
    exact ⟨stateMap[i], List.getElem?_eq_getElem hi, hex⟩
  · rintro ⟨info, hinfo, hex⟩
    rw [hinfo]
    exact ⟨(List.getElem?_eq_some_iff.mp hinfo).1, hex⟩

/-- An authority whose entry is `info` is excluded exactly when `info` is. -/
theorem mem_excluded_iff_of_getElem? {stateMap : List AncestorInfo} {i : ℕ} {info : AncestorInfo}
    (hinfo : stateMap[i]? = some info) : i ∈ excluded stateMap ↔ info.state.isExclude = true := by
  rw [mem_excluded]
  constructor
  · rintro ⟨info', hinfo', hex⟩
    rw [hinfo] at hinfo'
    cases hinfo'
    exact hex
  · exact fun hex => ⟨info, hinfo, hex⟩

theorem excluded_replicate (n : ℕ) : excluded (List.replicate n AncestorInfo.new) = ∅ := by
  refine Finset.eq_empty_of_forall_notMem fun i hi => ?_
  obtain ⟨info, hinfo, hex⟩ := mem_excluded.mp hi
  rw [List.getElem?_replicate] at hinfo
  split_ifs at hinfo
  cases hinfo
  cases hex

/-- Setting one entry adds it to the excluded authorities or removes it. -/
theorem excluded_set {stateMap : List AncestorInfo} {i : ℕ} (hi : i < stateMap.length)
    (info : AncestorInfo) :
    excluded (stateMap.set i info) =
      if info.state.isExclude then insert i (excluded stateMap) else (excluded stateMap).erase i := by
  ext j
  by_cases hij : i = j
  · subst hij
    split_ifs with hex <;> simp [mem_excluded, List.getElem?_set_self hi, hex]
  · split_ifs <;> simp [mem_excluded, List.getElem?_set_ne hij, Ne.symm hij]

section Weight

variable (c : Committee) {stateMap : List AncestorInfo} {i : ℕ} (hi : i < stateMap.length)
  {info : AncestorInfo}
include hi

theorem weight_excluded_set_exclude (hnot : i ∉ excluded stateMap) (hex : info.state.isExclude = true) :
    c.weight (excluded (stateMap.set i info)) = c.weight (excluded stateMap) + c.stake i := by
  rw [excluded_set hi, if_pos hex, Committee.weight, Committee.weight, Quorum.weight_insert hnot,
    Nat.add_comm]

theorem weight_excluded_set_include (hmem : i ∈ excluded stateMap) (hex : info.state.isExclude = false) :
    c.weight (excluded (stateMap.set i info)) + c.stake i = c.weight (excluded stateMap) := by
  rw [excluded_set hi, if_neg (by simp [hex]), Committee.weight, Committee.weight,
    Quorum.weight_erase_add hmem]

end Weight

/-- What the manager keeps: an entry per authority, and a running total
that is the stake of the excluded authorities and within the threshold. -/
structure Consistent (m : AncestorStateManager) : Prop where
  stateMap_length : m.stateMap.length = m.context.committee.size
  totalExcludedStake_eq : m.totalExcludedStake = m.context.committee.weight (excluded m.stateMap)
  totalExcludedStake_le : m.totalExcludedStake ≤ m.excludedNodesStakeThreshold

theorem new_consistent (context : Context) : (new context).Consistent where
  stateMap_length := List.length_replicate
  totalExcludedStake_eq := by
    simp only [new, excluded_replicate, Committee.weight, Quorum.weight, Finset.sum_empty]
  totalExcludedStake_le := Nat.zero_le _

/-- An excluded authority's stake is part of the running total, so the
`checked_sub` of its stake cannot fail. -/
theorem Consistent.stake_le {m : AncestorStateManager} (hm : m.Consistent) {i : ℕ}
    (hmem : i ∈ excluded m.stateMap) : m.context.committee.stake i ≤ m.totalExcludedStake := by
  obtain ⟨info, hinfo, hex⟩ := mem_excluded.mp hmem
  have hi : i < m.stateMap.length := (List.getElem?_eq_some_iff.mp hinfo).1
  have hset := weight_excluded_set_include m.context.committee hi hmem
    (show (⟨.include, 0⟩ : AncestorInfo).state.isExclude = false from rfl)
  rw [hm.totalExcludedStake_eq]
  omega

/-! ## One state change -/

section Apply

variable {m : AncestorStateManager} {t : StateTransition} {r : ℕ} {info : AncestorInfo}

/-- The state change of an excluded authority to `Include`. -/
theorem applyStateChange_include (hinfo : m.stateMap[t.authorityId]? = some info)
    (hex : info.state.isExclude = true) (hle : t.stake ≤ m.totalExcludedStake) :
    m.applyStateChange t .include r = some { m with
      totalExcludedStake := m.totalExcludedStake - t.stake
      stateMap := m.stateMap.set t.authorityId ⟨.include, lockUntilRound r⟩ } := by
  obtain ⟨_ | score, lock⟩ := info
  · cases hex
  · simp [applyStateChange, hinfo, checkedSub_eq_some hle, AncestorInfo.setLock]

/-- The state change of an included authority to `Exclude`. -/
theorem applyStateChange_exclude (hinfo : m.stateMap[t.authorityId]? = some info)
    (hex : info.state.isExclude = false) (score : ℕ) :
    m.applyStateChange t (.exclude score) r = some { m with
      totalExcludedStake := m.totalExcludedStake + t.stake
      stateMap := m.stateMap.set t.authorityId ⟨.exclude score, lockUntilRound r⟩ } := by
  obtain ⟨_ | score', lock⟩ := info
  · simp [applyStateChange, hinfo, AncestorInfo.setLock]
  · cases hex

variable (hm : m.Consistent) (hstake : t.stake = m.context.committee.stake t.authorityId)
include hm hstake

theorem Consistent.include (hmem : t.authorityId ∈ excluded m.stateMap) :
    Consistent { m with
      totalExcludedStake := m.totalExcludedStake - t.stake
      stateMap := m.stateMap.set t.authorityId ⟨.include, lockUntilRound r⟩ } := by
  obtain ⟨info, hinfo, -⟩ := mem_excluded.mp hmem
  have hi : t.authorityId < m.stateMap.length := (List.getElem?_eq_some_iff.mp hinfo).1
  have hset := weight_excluded_set_include m.context.committee hi hmem
    (show (⟨.include, lockUntilRound r⟩ : AncestorInfo).state.isExclude = false from rfl)
  refine ⟨by simp [hm.stateMap_length], ?_, ?_⟩
  · show m.totalExcludedStake - t.stake = _
    rw [hm.totalExcludedStake_eq, ← hset, hstake, Nat.add_sub_cancel]
  · exact Nat.le_trans (Nat.sub_le _ _) hm.totalExcludedStake_le

theorem Consistent.exclude (hi : t.authorityId < m.stateMap.length)
    (hnot : t.authorityId ∉ excluded m.stateMap) (score : ℕ)
    (hfit : m.totalExcludedStake + t.stake ≤ m.excludedNodesStakeThreshold) :
    Consistent { m with
      totalExcludedStake := m.totalExcludedStake + t.stake
      stateMap := m.stateMap.set t.authorityId ⟨.exclude score, lockUntilRound r⟩ } := by
  have hset := weight_excluded_set_exclude m.context.committee hi hnot
    (show (⟨.exclude score, lockUntilRound r⟩ : AncestorInfo).state.isExclude = true from rfl)
  refine ⟨by simp [hm.stateMap_length], ?_, hfit⟩
  show m.totalExcludedStake + t.stake = _
  rw [hm.totalExcludedStake_eq, hset, hstake]

end Apply

/-! ## The two loops of state changes -/

section Loops

/-- A loop that set the head's entry and then kept every entry off the rest
keeps every entry off the whole list. -/
theorem getElem?_of_frame_cons {s s' : List AncestorInfo} {a : ℕ} {x : AncestorInfo} {rest : List ℕ}
    (hframe : ∀ j ∉ rest, s'[j]? = (s.set a x)[j]?) : ∀ j ∉ a :: rest, s'[j]? = s[j]? := by
  intro j hj
  rw [List.mem_cons, not_or] at hj
  rw [hframe j hj.2]
  exact List.getElem?_set_ne (Ne.symm hj.1)

variable (r : ℕ)

/-- **The include loop**: authorities of distinct indices, all excluded, are
all included again and locked; the others keep their entries. -/
theorem includeAll_spec : ∀ (L : List StateTransition) {m : AncestorStateManager}, m.Consistent →
    (L.map StateTransition.authorityId).Nodup →
    (∀ t ∈ L, t.stake = m.context.committee.stake t.authorityId ∧ t.authorityId ∈ excluded m.stateMap) →
    ∃ m', m.includeAll L r = some m' ∧ m'.Consistent ∧ m'.context = m.context ∧
      m'.excludedNodesStakeThreshold = m.excludedNodesStakeThreshold ∧
      (∀ j ∉ L.map StateTransition.authorityId, m'.stateMap[j]? = m.stateMap[j]?) ∧
      ∀ t ∈ L, m'.stateMap[t.authorityId]? = some ⟨.include, lockUntilRound r⟩
  | [], m, hm, _, _ => ⟨m, rfl, hm, rfl, rfl, fun _ _ => rfl, fun _ h => absurd h List.not_mem_nil⟩
  | t :: L, m, hm, hnd, hL => by
    obtain ⟨hstake, hmem⟩ := hL t List.mem_cons_self
    obtain ⟨info, hinfo, hex⟩ := mem_excluded.mp hmem
    have hi : t.authorityId < m.stateMap.length := (List.getElem?_eq_some_iff.mp hinfo).1
    rw [List.map_cons, List.nodup_cons] at hnd
    have h₁ := applyStateChange_include (r := r) hinfo hex (hstake ▸ hm.stake_le hmem)
    -- the rest of the list is still excluded after the first change
    have hL₁ : ∀ t' ∈ L, t'.stake = m.context.committee.stake t'.authorityId ∧
        t'.authorityId ∈ excluded (m.stateMap.set t.authorityId ⟨.include, lockUntilRound r⟩) := by
      intro t' ht'
      obtain ⟨hstake', hmem'⟩ := hL t' (List.mem_cons_of_mem t ht')
      have hne : t'.authorityId ≠ t.authorityId := fun h => hnd.1 (h ▸ List.mem_map_of_mem ht')
      simp only [excluded_set hi, AncestorState.isExclude, Bool.false_eq_true, ↓reduceIte,
        Finset.mem_erase]
      exact ⟨hstake', hne, hmem'⟩
    obtain ⟨m', h', hm', hctx, hthreshold, hframe, hset⟩ :=
      includeAll_spec L (hm.include hstake hmem) hnd.2 hL₁
    refine ⟨m', ?_, hm', hctx, hthreshold, getElem?_of_frame_cons hframe, fun t' ht' => ?_⟩
    · simp only [includeAll, List.foldlM_cons, h₁, Option.bind_eq_bind, Option.bind_some]
      exact h'
    · rcases List.mem_cons.mp ht' with rfl | ht'
      · rw [hframe _ hnd.1]
        exact List.getElem?_set_self hi
      · exact hset t' ht'

/-- **The exclude loop** walks the candidates as `GreedyBudget.fit` does:
the candidates it takes are excluded and locked and their stake added, and
every other authority keeps its entry. -/
theorem excludeWithinThreshold_spec : ∀ (L : List StateTransition) {m : AncestorStateManager},
    m.Consistent → (L.map StateTransition.authorityId).Nodup →
    (∀ t ∈ L, t.stake = m.context.committee.stake t.authorityId ∧
      t.authorityId < m.stateMap.length ∧ t.authorityId ∉ excluded m.stateMap) →
    let taken := fit StateTransition.stake m.excludedNodesStakeThreshold m.totalExcludedStake L
    ∃ m', m.excludeWithinThreshold L r = some m' ∧ m'.Consistent ∧ m'.context = m.context ∧
      m'.excludedNodesStakeThreshold = m.excludedNodesStakeThreshold ∧
      m'.totalExcludedStake = m.totalExcludedStake + (taken.map StateTransition.stake).sum ∧
      (∀ j ∉ taken.map StateTransition.authorityId, m'.stateMap[j]? = m.stateMap[j]?) ∧
      ∀ t ∈ taken, m'.stateMap[t.authorityId]? = some ⟨.exclude t.score, lockUntilRound r⟩
  | [], m, hm, _, _ => ⟨m, rfl, hm, rfl, rfl, rfl, fun _ _ => rfl, fun _ h => absurd h List.not_mem_nil⟩
  | t :: L, m, hm, hnd, hL => by
    obtain ⟨hstake, hi, hnot⟩ := hL t List.mem_cons_self
    rw [List.map_cons, List.nodup_cons] at hnd
    by_cases hfit : m.totalExcludedStake + t.stake ≤ m.excludedNodesStakeThreshold
    · -- the candidate fits: it is excluded, and the walk goes on from the new total
      obtain ⟨info, hinfo⟩ : ∃ info, m.stateMap[t.authorityId]? = some info :=
        ⟨_, List.getElem?_eq_getElem hi⟩
      have hex : info.state.isExclude = false := by
        simpa using (mem_excluded_iff_of_getElem? hinfo).not.mp hnot
      have h₁ := applyStateChange_exclude (r := r) hinfo hex t.score
      have hL₁ : ∀ t' ∈ L, t'.stake = m.context.committee.stake t'.authorityId ∧
          t'.authorityId < (m.stateMap.set t.authorityId ⟨.exclude t.score, lockUntilRound r⟩).length ∧
          t'.authorityId ∉ excluded
            (m.stateMap.set t.authorityId ⟨.exclude t.score, lockUntilRound r⟩) := by
        intro t' ht'
        obtain ⟨hstake', hi', hnot'⟩ := hL t' (List.mem_cons_of_mem t ht')
        have hne : t'.authorityId ≠ t.authorityId := fun h => hnd.1 (h ▸ List.mem_map_of_mem ht')
        simp only [List.length_set, excluded_set hi, AncestorState.isExclude, ↓reduceIte,
          Finset.mem_insert, not_or]
        exact ⟨hstake', hi', hne, hnot'⟩
      obtain ⟨m', h', hm', hctx, hthreshold, htotal, hframe, hset⟩ :=
        excludeWithinThreshold_spec L (hm.exclude hstake hi hnot t.score hfit) hnd.2 hL₁
      simp only [fit_cons_of_le hfit]
      refine ⟨m', ?_, hm', hctx, hthreshold, ?_, getElem?_of_frame_cons hframe, fun t' ht' => ?_⟩
      · simp only [excludeWithinThreshold, List.foldlM_cons, if_pos hfit, h₁, Option.bind_eq_bind,
          Option.bind_some]
        exact h'
      · rw [htotal, List.map_cons, List.sum_cons, Nat.add_assoc]
      · rcases List.mem_cons.mp ht' with rfl | ht'
        · have hfresh : t'.authorityId ∉ (fit StateTransition.stake m.excludedNodesStakeThreshold
              (m.totalExcludedStake + t'.stake) L).map StateTransition.authorityId :=
            fun h => hnd.1 (((fit_sublist _ L).map _).subset h)
          rw [hframe _ hfresh]
          exact List.getElem?_set_self hi
        · exact hset t' ht'
    · -- the candidate does not fit: it is skipped and nothing changes
      have hlt : m.excludedNodesStakeThreshold < m.totalExcludedStake + t.stake := Nat.lt_of_not_le hfit
      obtain ⟨m', h', hm', hctx, hthreshold, htotal, hframe, hset⟩ :=
        excludeWithinThreshold_spec L hm hnd.2 fun t' ht' => hL t' (List.mem_cons_of_mem t ht')
      simp only [fit_cons_of_lt hlt]
      refine ⟨m', ?_, hm', hctx, hthreshold, htotal, hframe, hset⟩
      simp only [excludeWithinThreshold, List.foldlM_cons, if_neg hfit]
      exact h'

end Loops

/-! ## The transitions of one snapshot -/

/-- A transition collected at clock round `r` from the snapshot `m`: it
carries the authority's stake, and the authority's entry is unlocked and in
the state the transition leaves. -/
def Pending (m : AncestorStateManager) (r : ℕ) (wasExcluded : Bool) (t : StateTransition) : Prop :=
  t.stake = m.context.committee.stake t.authorityId ∧
    ∃ info, m.stateMap[t.authorityId]? = some info ∧ info.isLocked r = false ∧
      info.state.isExclude = wasExcluded

/-- The two lists of one snapshot: distinct authorities in each, every
transition pending. -/
structure Collected (m : AncestorStateManager) (r : ℕ)
    (transitions : List StateTransition × List StateTransition) : Prop where
  nodup_include : (transitions.1.map StateTransition.authorityId).Nodup
  nodup_exclude : (transitions.2.map StateTransition.authorityId).Nodup
  pending_include : ∀ t ∈ transitions.1, m.Pending r true t
  pending_exclude : ∀ t ∈ transitions.2, m.Pending r false t

section Collect

variable {m : AncestorStateManager} {r : ℕ} {acceptedQuorumRounds : List (ℕ × ℕ)}
  {networkHighQuorumRound lowScoreThreshold : ℕ}

/-- One iteration of the first loop, on an index in range, keeps the lists
or appends the authority's transition to one of them. -/
theorem collectTransition_cases (acc : List StateTransition × List StateTransition) {e : ℕ × ℕ}
    (hidx : e.2 < m.context.committee.size) (hmap : e.2 < m.stateMap.length)
    (hq : e.2 < acceptedQuorumRounds.length) :
    let t : StateTransition := ⟨e.2, e.1, m.context.committee.stake e.2, acceptedQuorumRounds[e.2].2⟩
    m.collectTransition acceptedQuorumRounds networkHighQuorumRound lowScoreThreshold r acc e = some acc ∨
      m.Pending r true t ∧ m.collectTransition acceptedQuorumRounds networkHighQuorumRound
        lowScoreThreshold r acc e = some (acc.1 ++ [t], acc.2) ∨
      m.Pending r false t ∧ m.collectTransition acceptedQuorumRounds networkHighQuorumRound
        lowScoreThreshold r acc e = some (acc.1, acc.2 ++ [t]) := by
  intro t
  have hto : m.context.committee.toAuthorityIndex e.2 = some e.2 := if_pos hidx
  have hq' : acceptedQuorumRounds[e.2]? = some acceptedQuorumRounds[e.2] := List.getElem?_eq_getElem hq
  obtain ⟨info, hinfo⟩ : ∃ info, m.stateMap[e.2]? = some info := ⟨_, List.getElem?_eq_getElem hmap⟩
  simp only [collectTransition, hto, hinfo, hq', Option.bind_eq_bind, Option.bind_some, Option.pure_def]
  cases hlock : info.isLocked r
  · -- unlocked: the state decides which list the authority may join
    simp only [Bool.false_eq_true, ↓reduceIte]
    rcases hs : info.state with _ | score
    · -- `Include`: a candidate to exclude when its score is low
      have hp : m.Pending r false t := ⟨rfl, info, hinfo, hlock, by simp [hs, AncestorState.isExclude]⟩
      by_cases hlow : e.1 ≤ lowScoreThreshold
      · exact Or.inr (Or.inr ⟨hp, by simp [hlow, t]⟩)
      · exact Or.inl (by simp [hlow])
    · -- `Exclude`: to include again when its score or its quorum round recovered
      have hp : m.Pending r true t := ⟨rfl, info, hinfo, hlock, by simp [hs, AncestorState.isExclude]⟩
      by_cases hback : lowScoreThreshold < e.1 ∨ networkHighQuorumRound ≤ acceptedQuorumRounds[e.2].2
      · exact Or.inr (Or.inl ⟨hp, by simp only [hback, ↓reduceIte]; rfl⟩)
      · exact Or.inl (by simp only [hback, ↓reduceIte])
  · exact Or.inl (by simp)

theorem Collected.push_include {acc : List StateTransition × List StateTransition}
    (hacc : m.Collected r acc) {t : StateTransition} (hp : m.Pending r true t)
    (hfresh : t.authorityId ∉ acc.1.map StateTransition.authorityId) :
    m.Collected r (acc.1 ++ [t], acc.2) where
  nodup_include := by
    rw [List.map_append, List.map_singleton, ← List.concat_eq_append]
    exact hacc.nodup_include.concat hfresh
  nodup_exclude := hacc.nodup_exclude
  pending_include := List.forall_mem_append.mpr
    ⟨hacc.pending_include, List.forall_mem_singleton.mpr hp⟩
  pending_exclude := hacc.pending_exclude

theorem Collected.push_exclude {acc : List StateTransition × List StateTransition}
    (hacc : m.Collected r acc) {t : StateTransition} (hp : m.Pending r false t)
    (hfresh : t.authorityId ∉ acc.2.map StateTransition.authorityId) :
    m.Collected r (acc.1, acc.2 ++ [t]) where
  nodup_include := hacc.nodup_include
  nodup_exclude := by
    rw [List.map_append, List.map_singleton, ← List.concat_eq_append]
    exact hacc.nodup_exclude.concat hfresh
  pending_include := hacc.pending_include
  pending_exclude := List.forall_mem_append.mpr
    ⟨hacc.pending_exclude, List.forall_mem_singleton.mpr hp⟩

/-- No authority is in both lists: the snapshot has it in one state. -/
theorem Collected.not_mem_include {transitions : List StateTransition × List StateTransition}
    (hc : m.Collected r transitions) {t : StateTransition} (ht : t ∈ transitions.2) :
    t.authorityId ∉ transitions.1.map StateTransition.authorityId := by
  intro hmem
  obtain ⟨t', ht', hid⟩ := List.mem_map.mp hmem
  obtain ⟨-, info', hinfo', -, hex'⟩ := hc.pending_include t' ht'
  obtain ⟨-, info, hinfo, -, hex⟩ := hc.pending_exclude t ht
  rw [hid, hinfo] at hinfo'
  cases hinfo'
  rw [hex] at hex'
  cases hex'

/-- The first loop over entries of distinct indices in range, from lists of
other authorities, ends with lists of one snapshot. -/
theorem foldlM_collectTransition_spec : ∀ (E : List (ℕ × ℕ)) (acc : List StateTransition × List StateTransition),
    m.Collected r acc →
    (∀ e ∈ E, e.2 < m.context.committee.size ∧ e.2 < m.stateMap.length ∧ e.2 < acceptedQuorumRounds.length) →
    (E.map Prod.snd).Nodup → (∀ t ∈ acc.1 ++ acc.2, t.authorityId ∉ E.map Prod.snd) →
    ∃ transitions, E.foldlM (m.collectTransition acceptedQuorumRounds networkHighQuorumRound
      lowScoreThreshold r) acc = some transitions ∧ m.Collected r transitions
  | [], acc, hacc, _, _, _ => ⟨acc, rfl, hacc⟩
  | e :: E, acc, hacc, hE, hnd, hfresh => by
    obtain ⟨hidx, hmap, hq⟩ := hE e List.mem_cons_self
    rw [List.map_cons, List.nodup_cons] at hnd
    have hE' : ∀ e' ∈ E, _ := fun e' he' => hE e' (List.mem_cons_of_mem e he')
    -- `e`'s index is new to the lists, and the later indices are new to `e`'s
    have hnew : ∀ t ∈ acc.1 ++ acc.2, t.authorityId ≠ e.2 :=
      fun t ht h => hfresh t ht (h ▸ List.mem_cons_self)
    have hrest : ∀ t ∈ acc.1 ++ acc.2, t.authorityId ∉ E.map Prod.snd :=
      fun t ht h => hfresh t ht (List.mem_cons_of_mem _ h)
    rcases @collectTransition_cases m r acceptedQuorumRounds networkHighQuorumRound lowScoreThreshold
      acc e hidx hmap hq with h | ⟨hp, h⟩ | ⟨hp, h⟩
    · obtain ⟨transitions, hres, hc⟩ := foldlM_collectTransition_spec E acc hacc hE' hnd.2 hrest
      refine ⟨transitions, ?_, hc⟩
      rw [List.foldlM_cons, h]
      exact hres
    · have hacc' := hacc.push_include hp fun hmem => by
        obtain ⟨t', ht', hid⟩ := List.mem_map.mp hmem
        exact hnew t' (List.mem_append_left _ ht') hid
      obtain ⟨transitions, hres, hc⟩ := foldlM_collectTransition_spec E _ hacc' hE' hnd.2
        fun t ht => by
          rcases List.mem_append.mp ht with ht | ht
          · rcases List.mem_append.mp ht with ht | ht
            · exact hrest t (List.mem_append_left _ ht)
            · exact List.mem_singleton.mp ht ▸ hnd.1
          · exact hrest t (List.mem_append_right _ ht)
      refine ⟨transitions, ?_, hc⟩
      rw [List.foldlM_cons, h]
      exact hres
    · have hacc' := hacc.push_exclude hp fun hmem => by
        obtain ⟨t', ht', hid⟩ := List.mem_map.mp hmem
        exact hnew t' (List.mem_append_right _ ht') hid
      obtain ⟨transitions, hres, hc⟩ := foldlM_collectTransition_spec E _ hacc' hE' hnd.2
        fun t ht => by
          rcases List.mem_append.mp ht with ht | ht
          · exact hrest t (List.mem_append_left _ ht)
          · rcases List.mem_append.mp ht with ht | ht
            · exact hrest t (List.mem_append_right _ ht)
            · exact List.mem_singleton.mp ht ▸ hnd.1
      refine ⟨transitions, ?_, hc⟩
      rw [List.foldlM_cons, h]
      exact hres

/-- **The first phase** over a score and a quorum round per authority never
fails, and gives the lists of one snapshot. -/
theorem collectTransitions_spec (hm : m.stateMap.length = m.context.committee.size)
    (hscores : m.propagationScores.length = m.context.committee.size)
    (hrounds : acceptedQuorumRounds.length = m.context.committee.size) :
    ∃ transitions, m.collectTransitions acceptedQuorumRounds r = some transitions ∧
      m.Collected r transitions := by
  refine foldlM_collectTransition_spec _ ([], []) ⟨List.nodup_nil, List.nodup_nil, nofun, nofun⟩
    (fun ⟨score, idx⟩ he => ?_) (List.nodup_zipIdx_map_snd _) (fun _ h => absurd h List.not_mem_nil)
  have hidx := (List.mem_zipIdx he).2.1
  rw [Nat.zero_add, hscores] at hidx
  exact ⟨hidx, hm ▸ hidx, hrounds ▸ hidx⟩

end Collect

/-! ## One call -/

/-- A change of an entry at clock round `r`: the entry was unlocked, its
state flipped, and it is locked from `r`. -/
def Changed (r : ℕ) (info info' : AncestorInfo) : Prop :=
  info.isLocked r = false ∧ info'.lockUntilRound = lockUntilRound r ∧
    info'.state.isExclude = !info.state.isExclude

section Step

theorem Consistent.setPropagationScores {m : AncestorStateManager} (hm : m.Consistent)
    (scores : List ℕ) : (m.setPropagationScores scores).Consistent :=
  ⟨hm.stateMap_length, hm.totalExcludedStake_eq, hm.totalExcludedStake_le⟩

variable {m m₁ m' : AncestorStateManager} {r : ℕ}
  {transitions : List StateTransition × List StateTransition}

/-- After the two loops of state changes, each entry is kept, or it was one
of the collected transitions and changed. -/
theorem entry_of_phases {taken : List StateTransition} (hc : m.Collected r transitions)
    (htaken : ∀ t ∈ taken, t ∈ transitions.2)
    (hframe₁ : ∀ j ∉ transitions.1.map StateTransition.authorityId, m₁.stateMap[j]? = m.stateMap[j]?)
    (hset₁ : ∀ t ∈ transitions.1, m₁.stateMap[t.authorityId]? = some ⟨.include, lockUntilRound r⟩)
    (hframe' : ∀ j ∉ taken.map StateTransition.authorityId, m'.stateMap[j]? = m₁.stateMap[j]?)
    (hset' : ∀ t ∈ taken, m'.stateMap[t.authorityId]? = some ⟨.exclude t.score, lockUntilRound r⟩)
    (j : ℕ) :
    m'.stateMap[j]? = m.stateMap[j]? ∨
      ∃ info info', m.stateMap[j]? = some info ∧ m'.stateMap[j]? = some info' ∧ Changed r info info' := by
  by_cases hj' : j ∈ taken.map StateTransition.authorityId
  · -- excluded by the last loop
    obtain ⟨t, ht, rfl⟩ := List.mem_map.mp hj'
    obtain ⟨-, info, hinfo, hlock, hex⟩ := hc.pending_exclude t (htaken t ht)
    exact Or.inr ⟨info, _, hinfo, hset' t ht, hlock, rfl, by rw [hex]; rfl⟩
  · rw [hframe' j hj']
    by_cases hj₁ : j ∈ transitions.1.map StateTransition.authorityId
    · -- included again by the second loop
      obtain ⟨t, ht, rfl⟩ := List.mem_map.mp hj₁
      obtain ⟨-, info, hinfo, hlock, hex⟩ := hc.pending_include t ht
      exact Or.inr ⟨info, _, hinfo, hset₁ t ht, hlock, rfl, by rw [hex]; rfl⟩
    · exact Or.inl (hframe₁ j hj₁)

/-- A candidate the last loop leaves included did not fit even without the
stake of the candidates of higher score that it excluded. -/
theorem skipped_of_phases {sorted : List StateTransition} (hc : m.Collected r transitions)
    (hframe₁ : ∀ j ∉ transitions.1.map StateTransition.authorityId, m₁.stateMap[j]? = m.stateMap[j]?)
    (hperm : sorted.Perm transitions.2) (hsorted : sorted.Pairwise fun a b => a.score ≤ b.score)
    (htotal : m'.totalExcludedStake = m₁.totalExcludedStake + ((fit StateTransition.stake
      m₁.excludedNodesStakeThreshold m₁.totalExcludedStake sorted).map StateTransition.stake).sum)
    (hthreshold : m'.excludedNodesStakeThreshold = m₁.excludedNodesStakeThreshold)
    (hframe' : ∀ j ∉ (fit StateTransition.stake m₁.excludedNodesStakeThreshold m₁.totalExcludedStake
      sorted).map StateTransition.authorityId, m'.stateMap[j]? = m₁.stateMap[j]?)
    (hset' : ∀ t ∈ fit StateTransition.stake m₁.excludedNodesStakeThreshold m₁.totalExcludedStake
      sorted, m'.stateMap[t.authorityId]? = some ⟨.exclude t.score, lockUntilRound r⟩)
    {A : StateTransition} (hA : A ∈ transitions.2) (hskip : A.authorityId ∉ excluded m'.stateMap) :
    m'.excludedNodesStakeThreshold < m'.totalExcludedStake - ((transitions.2.filter fun C =>
      C.authorityId ∈ excluded m'.stateMap ∧ A.score < C.score).map StateTransition.stake).sum +
      A.stake := by
  set taken := fit StateTransition.stake m₁.excludedNodesStakeThreshold m₁.totalExcludedStake sorted
  have hnodup : transitions.2.Nodup := List.Nodup.of_map _ hc.nodup_exclude
  have hsub : taken.Sublist sorted := fit_sublist _ _
  have hmemT : ∀ C ∈ taken, C ∈ transitions.2 := fun C hC => hperm.subset (hsub.subset hC)
  -- a candidate ends excluded exactly when the walk took it
  have hiff : ∀ C ∈ transitions.2, C.authorityId ∈ excluded m'.stateMap ↔ C ∈ taken := by
    intro C hC
    refine ⟨fun hex => ?_, fun hC' => mem_excluded.mpr ⟨_, hset' C hC', rfl⟩⟩
    by_contra hnot
    have hfresh : C.authorityId ∉ taken.map StateTransition.authorityId := fun hmem => by
      obtain ⟨C', hC', hid⟩ := List.mem_map.mp hmem
      exact hnot (List.inj_on_of_nodup_map hc.nodup_exclude (hmemT C' hC') hC hid ▸ hC')
    obtain ⟨-, info, hinfo, -, hinc⟩ := hc.pending_exclude C hC
    have hinfo' : m'.stateMap[C.authorityId]? = some info := by
      rw [hframe' _ hfresh, hframe₁ _ (hc.not_mem_include hC), hinfo]
    rw [mem_excluded_iff_of_getElem? hinfo', hinc] at hex
    cases hex
  have hlt : m₁.excludedNodesStakeThreshold < m₁.totalExcludedStake +
      ((taken.filter fun C => C.score ≤ A.score).map StateTransition.stake).sum + A.stake :=
    budget_lt_of_not_mem_fit hsorted (hperm.symm.subset hA) fun h => hskip ((hiff A hA).mpr h)
  have hsplit := List.sum_map_filter_add_sum_map_filter_not (fun C => C.score ≤ A.score)
    StateTransition.stake taken
  -- the higher-scored excluded candidates are the walk's higher-scored picks
  have hhigher : (transitions.2.filter fun C => C.authorityId ∈ excluded m'.stateMap ∧
      A.score < C.score).Perm (taken.filter fun C => ¬ C.score ≤ A.score) := by
    rw [List.perm_ext_iff_of_nodup (hnodup.filter _) ((hsub.nodup (hperm.nodup_iff.mpr hnodup)).filter _)]
    intro C
    simp only [List.mem_filter, decide_eq_true_eq, not_le]
    constructor
    · rintro ⟨hC, hex, hscore⟩
      exact ⟨(hiff C hC).mp hex, hscore⟩
    · rintro ⟨hC, hscore⟩
      exact ⟨hmemT C hC, (hiff C (hmemT C hC)).mpr hC, hscore⟩
  rw [(hhigher.map StateTransition.stake).sum_eq, htotal, hthreshold]
  omega

/-- **One call** from a consistent manager, with a score and a quorum round
per authority: it succeeds and stays consistent; each entry is kept or
changed once, unlocked, and locked from the call's round; and a candidate
left included did not fit even without the stake of the candidates of higher
score excluded in the call. -/
theorem step_spec (hm : m.Consistent) {call : Call} (hcall : call.Valid m.context.committee.size) :
    ∃ transitions m', (m.setPropagationScores call.scores).collectTransitions call.acceptedQuorumRounds
        call.currentClockRound = some transitions ∧ m.step call = some m' ∧ m'.Consistent ∧
      m'.context = m.context ∧ m'.excludedNodesStakeThreshold = m.excludedNodesStakeThreshold ∧
      (∀ j : ℕ, m'.stateMap[j]? = m.stateMap[j]? ∨ ∃ info info', m.stateMap[j]? = some info ∧
        m'.stateMap[j]? = some info' ∧ Changed call.currentClockRound info info') ∧
      ∀ A ∈ transitions.2, A.authorityId ∉ excluded m'.stateMap →
        m'.excludedNodesStakeThreshold < m'.totalExcludedStake - ((transitions.2.filter fun C =>
          C.authorityId ∈ excluded m'.stateMap ∧ A.score < C.score).map StateTransition.stake).sum +
          A.stake := by
  obtain ⟨transitions, hcollect, hc⟩ := collectTransitions_spec (m := m.setPropagationScores call.scores)
    (r := call.currentClockRound) hm.stateMap_length hcall.1 hcall.2
  obtain ⟨m₁, h₁, hm₁, hctx₁, hthreshold₁, hframe₁, hset₁⟩ := includeAll_spec call.currentClockRound
    transitions.1 (hm.setPropagationScores call.scores) hc.nodup_include fun t ht => by
      obtain ⟨hstake, info, hinfo, -, hex⟩ := hc.pending_include t ht
      exact ⟨hstake, mem_excluded.mpr ⟨info, hinfo, hex⟩⟩
  set sorted := transitions.2.insertionSort fun a b => a.score ≤ b.score
  have hperm : sorted.Perm transitions.2 := List.perm_insertionSort _ _
  -- every candidate is still included when the last loop reaches it
  have hready : ∀ t ∈ sorted, t.stake = m₁.context.committee.stake t.authorityId ∧
      t.authorityId < m₁.stateMap.length ∧ t.authorityId ∉ excluded m₁.stateMap := by
    intro t ht
    have ht₂ := hperm.subset ht
    obtain ⟨hstake, info, hinfo, -, hex⟩ := hc.pending_exclude t ht₂
    have hinfo₁ : m₁.stateMap[t.authorityId]? = some info :=
      (hframe₁ _ (hc.not_mem_include ht₂)).trans hinfo
    refine ⟨by rw [hctx₁]; exact hstake, (List.getElem?_eq_some_iff.mp hinfo₁).1, ?_⟩
    rw [mem_excluded_iff_of_getElem? hinfo₁, hex]
    exact Bool.false_ne_true
  obtain ⟨m', h', hm', hctx', hthreshold', htotal', hframe', hset'⟩ :=
    excludeWithinThreshold_spec call.currentClockRound sorted hm₁
      ((hperm.map _).nodup_iff.mpr hc.nodup_exclude) hready
  refine ⟨transitions, m', hcollect, ?_, hm', hctx'.trans hctx₁, hthreshold'.trans hthreshold₁,
    entry_of_phases (m := m.setPropagationScores call.scores) hc (fun t ht => hperm.subset ((fit_sublist _ _).subset ht)) hframe₁ hset₁
      hframe' hset',
    fun A hA hskip => skipped_of_phases (m := m.setPropagationScores call.scores) hc hframe₁ hperm
      (WeightedScan.pairwise_insertionSort_key StateTransition.score transitions.2) htotal'
      hthreshold' hframe' hset' hA hskip⟩
  simp only [step, updateAllAncestorsState, hcollect, h₁, Option.bind_eq_bind, Option.bind_some]
  exact h'

end Step

/-! ## Runs -/

section Run

/-- **Every run** of calls with a score and a quorum round per authority
succeeds from a consistent manager and stays consistent. -/
theorem run_consistent : ∀ (calls : List Call) {m : AncestorStateManager}, m.Consistent →
    (∀ call ∈ calls, call.Valid m.context.committee.size) →
    ∃ m', m.run calls = some m' ∧ m'.Consistent ∧ m'.context = m.context
  | [], m, hm, _ => ⟨m, rfl, hm, rfl⟩
  | call :: calls, m, hm, hvalid => by
    obtain ⟨-, m₁, -, h₁, hm₁, hctx₁, -⟩ := step_spec hm (hvalid call List.mem_cons_self)
    obtain ⟨m', h', hm', hctx'⟩ := run_consistent calls hm₁
      fun c hc => hctx₁ ▸ hvalid c (List.mem_cons_of_mem _ hc)
    refine ⟨m', ?_, hm', hctx'.trans hctx₁⟩
    simp only [run, List.foldlM_cons, h₁, Option.bind_eq_bind, Option.bind_some]
    exact h'

/-- A call that changes an authority's state found its entry unlocked, and
locks it from the call's round. -/
theorem step_changed {m m' : AncestorStateManager} (hm : m.Consistent) {call : Call}
    (hcall : call.Valid m.context.committee.size) (hstep : m.step call = some m') {a : ℕ}
    (hchanged : m'.getAncestorStates[a]? ≠ m.getAncestorStates[a]?) :
    ∃ info info', m.stateMap[a]? = some info ∧ m'.stateMap[a]? = some info' ∧
      Changed call.currentClockRound info info' := by
  obtain ⟨-, m'', -, h'', -, -, -, hentry, -⟩ := step_spec hm hcall
  rw [hstep, Option.some.injEq] at h''
  subst h''
  rcases hentry a with heq | hchange
  · exact absurd (by simp only [getAncestorStates, List.getElem?_map, heq]) hchanged
  · exact hchange

/-- While every call locks up to at least `B`, an authority's lock that is at
least `B` stays so along a run. -/
theorem run_lock_ge {a B : ℕ} : ∀ (calls : List Call) {m m' : AncestorStateManager}, m.Consistent →
    (∀ call ∈ calls, call.Valid m.context.committee.size) →
    (∀ call ∈ calls, B ≤ lockUntilRound call.currentClockRound) →
    (∃ info, m.stateMap[a]? = some info ∧ B ≤ info.lockUntilRound) → m.run calls = some m' →
    ∃ info', m'.stateMap[a]? = some info' ∧ B ≤ info'.lockUntilRound
  | [], m, m', _, _, _, hinfo, h => by
    rw [run, List.foldlM_nil, Option.pure_def, Option.some.injEq] at h
    exact h ▸ hinfo
  | call :: calls, m, m', hm, hvalid, hB, ⟨info, hinfo, hle⟩, h => by
    obtain ⟨-, m₁, -, h₁, hm₁, hctx₁, -, hentry, -⟩ := step_spec hm (hvalid call List.mem_cons_self)
    simp only [run, List.foldlM_cons, h₁, Option.bind_eq_bind, Option.bind_some] at h
    refine run_lock_ge calls hm₁ (fun c hc => hctx₁ ▸ hvalid c (List.mem_cons_of_mem _ hc))
      (fun c hc => hB c (List.mem_cons_of_mem _ hc)) ?_ h
    -- the call keeps the entry, or changes it and locks it from its own round
    rcases hentry a with heq | ⟨-, info', -, hinfo', -, hlock, -⟩
    · exact ⟨info, heq.trans hinfo, hle⟩
    · exact ⟨info', hinfo', hlock ▸ hB call List.mem_cons_self⟩

/-- The managers a run from `new` reaches are consistent. -/
theorem run_new_consistent {context : Context} {calls : List Call}
    (hvalid : ∀ call ∈ calls, call.Valid context.committee.size) {m : AncestorStateManager}
    (h : (new context).run calls = some m) : m.Consistent ∧ m.context = context := by
  obtain ⟨m', h', hm', hctx⟩ := run_consistent calls (new_consistent context) hvalid
  rw [h, Option.some.injEq] at h'
  subst h'
  exact ⟨hm', hctx⟩

/-- Two changes of one authority's state, the first by a call at round
`r₁` whose lock does not wrap, and none of the calls between them wrapping
or going back before `r₁`, are more than `STATE_LOCK_CLOCK_ROUNDS` rounds
apart. -/
theorem changes_apart {m₁ m₁' m₂ m₂' : AncestorStateManager} (hm₁ : m₁.Consistent)
    {c₁ c₂ : Call} {mid : List Call} (hvalid₁ : c₁.Valid m₁.context.committee.size)
    (hvalidMid : ∀ c ∈ mid, c.Valid m₁.context.committee.size)
    (hvalid₂ : c₂.Valid m₁.context.committee.size)
    (hle : ∀ c ∈ mid, c₁.currentClockRound ≤ c.currentClockRound)
    (hwrap₁ : c₁.currentClockRound + stateLockClockRounds < u32Bound)
    (hwrapMid : ∀ c ∈ mid, c.currentClockRound + stateLockClockRounds < u32Bound)
    (h₁ : m₁.step c₁ = some m₁') (hmid : m₁'.run mid = some m₂) (h₂ : m₂.step c₂ = some m₂') {a : ℕ}
    (hchanged₁ : m₁'.getAncestorStates[a]? ≠ m₁.getAncestorStates[a]?)
    (hchanged₂ : m₂'.getAncestorStates[a]? ≠ m₂.getAncestorStates[a]?) :
    c₁.currentClockRound + stateLockClockRounds < c₂.currentClockRound := by
  obtain ⟨-, m₁'', -, h₁'', hm₁', hctx₁, -⟩ := step_spec hm₁ hvalid₁
  rw [h₁, Option.some.injEq] at h₁''
  subst h₁''
  -- the first change locks the authority up to `r₁ + STATE_LOCK_CLOCK_ROUNDS`
  obtain ⟨-, info₁, -, hinfo₁, -, hlock₁, -⟩ := step_changed hm₁ hvalid₁ h₁ hchanged₁
  have hlock₁' : info₁.lockUntilRound = c₁.currentClockRound + stateLockClockRounds := by
    rw [hlock₁, lockUntilRound, Nat.mod_eq_of_lt hwrap₁]
  -- and the calls between lock it no earlier
  have hmidLock : ∀ c ∈ mid, c₁.currentClockRound + stateLockClockRounds ≤
      lockUntilRound c.currentClockRound := fun c hc => by
    rw [lockUntilRound, Nat.mod_eq_of_lt (hwrapMid c hc)]
    have := hle c hc
    omega
  obtain ⟨info₂, hinfo₂, hle₂⟩ := run_lock_ge mid hm₁' (fun c hc => hctx₁ ▸ hvalidMid c hc) hmidLock
    ⟨info₁, hinfo₁, hlock₁'.ge⟩ hmid
  obtain ⟨m₂'', hmid', hm₂, hctx₂⟩ := run_consistent mid hm₁' fun c hc => hctx₁ ▸ hvalidMid c hc
  rw [hmid, Option.some.injEq] at hmid'
  subst hmid'
  -- so the second change found the lock passed
  obtain ⟨info, -, hinfo, -, hunlocked, -⟩ :=
    step_changed hm₂ (by rw [hctx₂, hctx₁]; exact hvalid₂) h₂ hchanged₂
  rw [hinfo₂, Option.some.injEq] at hinfo
  subst hinfo
  simp only [AncestorInfo.isLocked, decide_eq_false_iff_not, Nat.not_le] at hunlocked
  omega

/-- **The ancestor state manager never excludes too much stake.** Along every
run from `new` of calls with a score and a quorum round per authority: every
call succeeds (no index out of range, no failed `checked_sub`, no panic) and
leaves the running excluded stake equal to the stake of the excluded
authorities and within the threshold; in every call, a candidate left
included did not fit even without the stake of the candidates of higher
score excluded in that call; and while the clock rounds do not decrease and
stay below the `u32` wrap of the lock, two changes of one authority's state
are more than `STATE_LOCK_CLOCK_ROUNDS` rounds apart. -/
theorem ancestorStateManager_never_overexcludes (context : Context) (calls : List Call)
    (hvalid : ∀ call ∈ calls, call.Valid context.committee.size) :
    (∀ pre post, calls = pre ++ post → ∃ m, (new context).run pre = some m ∧ m.Consistent) ∧
    (∀ pre call post m, calls = pre ++ call :: post → (new context).run pre = some m →
      ∃ transitions m', (m.setPropagationScores call.scores).collectTransitions
          call.acceptedQuorumRounds call.currentClockRound = some transitions ∧ m.step call = some m' ∧
        ∀ A ∈ transitions.2, A.authorityId ∉ excluded m'.stateMap →
          m'.excludedNodesStakeThreshold < m'.totalExcludedStake - ((transitions.2.filter fun C =>
            C.authorityId ∈ excluded m'.stateMap ∧ A.score < C.score).map StateTransition.stake).sum +
            A.stake) ∧
    ((calls.Pairwise fun c c' => c.currentClockRound ≤ c'.currentClockRound) →
      (∀ call ∈ calls, call.currentClockRound + stateLockClockRounds < u32Bound) →
      ∀ pre c₁ mid c₂ post m₁ m₁' m₂ m₂' (a : ℕ), calls = pre ++ c₁ :: (mid ++ c₂ :: post) →
        (new context).run pre = some m₁ → m₁.step c₁ = some m₁' → m₁'.run mid = some m₂ →
        m₂.step c₂ = some m₂' → m₁'.getAncestorStates[a]? ≠ m₁.getAncestorStates[a]? →
        m₂'.getAncestorStates[a]? ≠ m₂.getAncestorStates[a]? →
        c₁.currentClockRound + stateLockClockRounds < c₂.currentClockRound) := by
  have hpre : ∀ {pre post : List Call}, calls = pre ++ post →
      ∀ call ∈ pre, call.Valid context.committee.size :=
    fun hsplit call hcall => hvalid call (hsplit ▸ List.mem_append_left _ hcall)
  refine ⟨fun pre post hsplit => ?_, fun pre call post m hsplit hrun => ?_,
    fun hsorted hwrap pre c₁ mid c₂ post m₁ m₁' m₂ m₂' a hsplit hrun h₁ hmid h₂ hchanged₁ hchanged₂ => ?_⟩
  · obtain ⟨m, h, hm, -⟩ := run_consistent pre (new_consistent context) (hpre hsplit)
    exact ⟨m, h, hm⟩
  · obtain ⟨hm, hctx⟩ := run_new_consistent (hpre hsplit) hrun
    have hcall : call.Valid m.context.committee.size :=
      hctx ▸ hvalid call (hsplit ▸ List.mem_append_right _ List.mem_cons_self)
    obtain ⟨transitions, m', hcollect, hstep, -, -, -, -, hskipped⟩ := step_spec hm hcall
    exact ⟨transitions, m', hcollect, hstep, hskipped⟩
  · obtain ⟨hm₁, hctx⟩ := run_new_consistent (hpre hsplit) hrun
    -- the calls from `c₁` on are calls of the run, none before `c₁`'s round
    have hlater : ∀ c ∈ c₁ :: (mid ++ c₂ :: post), c ∈ calls :=
      fun c hc => hsplit ▸ List.mem_append_right _ hc
    have hvalid' : ∀ c ∈ c₁ :: (mid ++ c₂ :: post), c.Valid m₁.context.committee.size :=
      fun c hc => hctx ▸ hvalid c (hlater c hc)
    have hsorted' := (List.pairwise_append.mp (hsplit ▸ hsorted)).2.1
    rw [List.pairwise_cons] at hsorted'
    exact changes_apart hm₁ (hvalid' c₁ List.mem_cons_self)
      (fun c hc => hvalid' c (List.mem_cons_of_mem _ (List.mem_append_left _ hc)))
      (hvalid' c₂ (List.mem_cons_of_mem _ (List.mem_append_right _ List.mem_cons_self)))
      (fun c hc => hsorted'.1 c (List.mem_append_left _ hc))
      (hwrap c₁ (hlater c₁ List.mem_cons_self))
      (fun c hc => hwrap c (hlater c (List.mem_cons_of_mem _ (List.mem_append_left _ hc))))
      h₁ hmid h₂ hchanged₁ hchanged₂

/-- At the last `u32` clock round the lock wraps to round 449: the first
authority is excluded, and a second call at the same round, finding it
unlocked, includes it again. -/
theorem ancestorState_changes_twice_at_u32_wrap :
    let context : Context := ⟨0, 0, ⟨0, [⟨1⟩, ⟨10⟩], 11, 8, 8, 4⟩, ⟨0, some 1, 30, 1, 1, false, 4, 2, 8⟩⟩
    let call : Call := ⟨[0, 10], [(0, 0), (0, 0)], 2 ^ 32 - 1⟩
    ((new context).run [call]).map getAncestorStates = some [.exclude 0, .include] ∧
      ((new context).run [call, call]).map getAncestorStates = some [.include, .include] := by
  decide

end Run

end AncestorStateManager

end Sui
