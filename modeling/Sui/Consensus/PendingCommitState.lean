import Sui.Consensus.Linearizer

/-!
# The pending state of the flex committer (`flex_committer.rs`)

`FlexCommitter` decides the leader slots of the rounds from the schedule's
minimum round on, and keeps what it decided in a `PendingCommitState` until
the schedule moves to a later commit. Each round has a `RoundState`: its
leader slots, one per allowed leader in the order the round's shuffle gives,
the set of slots still undecided, and how many were committed.
`RoundState::update_slot_decision` records a decision: the first decision
of a slot is kept with the rule that made it, a later one must agree with
it, and a decided slot is never undecided.

The bookkeeping holds on its own (`RoundState.WellFormed`): the undecided set
is the set of slots whose status is undecided, and the count is that of the
committed slots, as long as the allowed leaders are distinct
(`RoundState.WellFormed.updateSlotDecision`); so does the pending state, whose
rounds run on from the schedule's minimum round, and no step changes a
decided slot (`PendingCommitState.Keeps`). With a leader listed twice, the
round has two slots of one name, a decision reaches only the first of them,
and the round counts as decided while the second is still undecided.
`find_commit_leader_round` then picks the first round with a committed slot,
when every round up to it is decided (`findCommitLeaderRound_spec`).

The shuffle of the allowed leaders, seeded by the round, is a parameter; the
proofs use only that it permutes the leaders.
-/

namespace Sui

/-- The panics of the flex committer and its pending state, by the
assertion, `expect` or `unwrap` that raises them. -/
inductive FlexCommitterPanic
  /-- the two `unwrap`s of `get_round_state`: a round below the schedule's
  minimum round, or one without a state -/
  | roundStateUnwrap (round : ℕ)
  /-- "Slot … must be in round …" -/
  | slotNotInRound (slot : Slot) (round : ℕ)
  /-- "Cannot undecide slot …" -/
  | cannotUndecide (slot : Slot)
  /-- "Cannot update slot … decision" -/
  | cannotUpdateDecision (slot : Slot)
  /-- "next_commit_index should only move forward" -/
  | commitIndexBackwards (current next : ℕ)
  /-- a panic of the slot decider -/
  | slotDecider
  /-- the indirect rule returned another number of statuses than of slots
  (`zip_eq`) -/
  | statusCount
  /-- "Unexpected undecided slot …" -/
  | unexpectedUndecidedSlot (slot : Slot)
  /-- "Decided slot must have a decision" -/
  | missingDecision
  /-- "No committed leaders found" -/
  | noCommittedLeaders
  /-- "Leader block … attempted to be committed twice" -/
  | leaderCommittedTwice (reference : BlockRef)
  /-- `is_committed` and `set_committed` of the DAG state -/
  | dagState (error : LinearizerPanic)
  /-- the search's `get_block(…).unwrap()` -/
  | missingBlock (reference : BlockRef)
  /-- "No blocks at or below gc_round … should be committed" -/
  | belowGcRound (gcRound : ℕ)
  /-- "At least one committed leader must be in to_commit" -/
  | emptySubDag
  /-- the assertion that the named leader lies in the commit round -/
  | leaderRound (round commitLeaderRound : ℕ)
  /-- `committed_leaders[0]` of `calculate_commit_timestamp` -/
  | noLeaderForTimestamp
  /-- "Parent block must be in dag state" -/
  | missingParentBlock
  /-- "Cannot compute commit timestamp: …" -/
  | commitTimestamp (error : MedianError)
  /-- the search ran out of the fuel the model gives it, which it never does
  (`Dfs.runFresh_spec`) -/
  | outOfFuel
  deriving DecidableEq, Repr

/-- `LeaderSlot`: a leader slot of a round, its status, and the rule that
decided it. -/
structure LeaderSlot where
  /-- the slot -/
  slot : Slot
  /-- its status -/
  leaderStatus : LeaderStatus
  /-- the rule that first decided it, `None` while undecided -/
  decision : Option Decision
  deriving DecidableEq, Repr

/-- `RoundState`. -/
structure RoundState where
  /-- the round -/
  round : ℕ
  /-- the leader slots of the round, in order -/
  leaderSlots : List LeaderSlot
  /-- the slots not decided yet -/
  undecidedSlots : Finset Slot
  /-- the number of slots decided to be committed -/
  numCommitted : ℕ
  deriving DecidableEq

/-- `NextCommitLeaderSchedule`: what the leader schedule fixes for the next
commit. -/
structure NextCommitLeaderSchedule where
  /-- the index of the next commit -/
  nextCommitIndex : ℕ
  /-- the lowest round a leader of the next commit may have -/
  minNextLeaderRound : ℕ
  /-- the authorities allowed to be leaders -/
  allowedLeaders : List ℕ
  deriving DecidableEq, Repr

/-- `PendingCommitState`. -/
structure PendingCommitState where
  /-- the schedule of the next commit -/
  nextCommitLeaders : NextCommitLeaderSchedule
  /-- one state per round, from the schedule's minimum round on -/
  rounds : List RoundState
  deriving DecidableEq

/-- `PendingCommitState::default()`. -/
def PendingCommitState.default : PendingCommitState := ⟨⟨0, 0, []⟩, []⟩

namespace LeaderStatus

/-- `matches!(status, LeaderStatus::Commit(_))`. -/
def isCommit : LeaderStatus → Bool
  | commit _ => true
  | _ => false

end LeaderStatus

/-- The block of a slot decided to be committed. -/
def LeaderSlot.committedBlock? (leaderSlot : LeaderSlot) : Option Block :=
  match leaderSlot.leaderStatus with
  | .commit block => some block
  | _ => none

namespace RoundState

/-- The blocks of the committed slots of a round, in slot order: the
`committed_leaders` of `build_commit`. -/
def committedLeaders (rs : RoundState) : List Block := rs.leaderSlots.filterMap LeaderSlot.committedBlock?

/-- Every slot of the round is decided, with the rule that decided it. -/
def Decided (rs : RoundState) : Prop :=
  ∀ leaderSlot ∈ rs.leaderSlots, leaderSlot.leaderStatus.isDecided = true ∧ leaderSlot.decision.isSome

instance : DecidablePred Decided := fun rs => inferInstanceAs (Decidable (∀ _ ∈ rs.leaderSlots, _))

/-- `RoundState::update_slot_decision`: the first leader slot of the slot
takes the decision if the slot is undecided; a later decision must be the
recorded one, and an undecided status leaves an undecided slot as it is. -/
def updateSlotDecision (rs : RoundState) (slot : Slot) (newStatus : LeaderStatus)
    (decision : Decision) : Except FlexCommitterPanic RoundState :=
  match rs.leaderSlots.findIdx? (·.slot == slot) with
  | none => throw (.slotNotInRound slot rs.round)
  | some i =>
    match rs.leaderSlots[i]? with
    | none => throw (.slotNotInRound slot rs.round)
    | some leaderSlot =>
      if !newStatus.isDecided then
        -- no-op while the slot stays undecided; undeciding is a panic
        if !leaderSlot.leaderStatus.isDecided then pure rs else throw (.cannotUndecide slot)
      else if slot ∈ rs.undecidedSlots then
        pure { rs with
          undecidedSlots := rs.undecidedSlots.erase slot
          numCommitted := if newStatus.isCommit then rs.numCommitted + 1 else rs.numCommitted
          leaderSlots := rs.leaderSlots.set i
            { leaderSlot with leaderStatus := newStatus, decision := some decision } }
      else if leaderSlot.leaderStatus = newStatus then pure rs
      else throw (.cannotUpdateDecision slot)

end RoundState

namespace PendingCommitState

variable (shuffle : ℕ → List ℕ → List ℕ)

/-- The state a round starts with: a slot for each allowed leader, in the
order of the round's shuffle, all undecided. -/
def newRoundState (allowedLeaders : List ℕ) (r : ℕ) : RoundState :=
  let leaderSlots := (shuffle r allowedLeaders).map fun leader =>
    (⟨⟨r, leader⟩, .undecided ⟨r, leader⟩, none⟩ : LeaderSlot)
  ⟨r, leaderSlots, (leaderSlots.map (·.slot)).toFinset, 0⟩

variable (p : PendingCommitState)

/-- `PendingCommitState::get_round_state`. -/
def getRoundState (round : ℕ) : Except FlexCommitterPanic RoundState :=
  if p.nextCommitLeaders.minNextLeaderRound ≤ round then
    match p.rounds[round - p.nextCommitLeaders.minNextLeaderRound]? with
    | some rs => pure rs
    | none => throw (.roundStateUnwrap round)
  else throw (.roundStateUnwrap round)

/-- Write back the state of a round that `get_round_state` found. -/
def setRoundState (round : ℕ) (rs : RoundState) : PendingCommitState :=
  { p with rounds := p.rounds.set (round - p.nextCommitLeaders.minNextLeaderRound) rs }

/-- The first round without a state: one after the last state's, or the
schedule's minimum round. -/
def addFromRound : ℕ :=
  (p.rounds.getLast?.map (·.round + 1)).getD p.nextCommitLeaders.minNextLeaderRound

/-- The loop of `get_or_create_round_state`: a new state for each round from
the first without one up to `round`. -/
def populate (round : ℕ) : PendingCommitState :=
  let newRounds := (List.range' p.addFromRound (round + 1 - p.addFromRound)).map
    (newRoundState shuffle p.nextCommitLeaders.allowedLeaders)
  { p with rounds := p.rounds ++ newRounds }

/-- `PendingCommitState::get_or_create_round_state`: the round's state, and
the pending state with the rounds up to it populated. -/
def getOrCreateRoundState (round : ℕ) :
    Except FlexCommitterPanic (RoundState × PendingCommitState) := do
  let p := p.populate shuffle round
  let rs ← p.getRoundState round
  pure (rs, p)

end PendingCommitState

/-- `FlexCommitter::find_commit_leader_round`: the round of the first state
with a committed slot, when no state before it or it has an undecided slot. -/
def findCommitLeaderRound : List RoundState → Option ℕ
  | [] => none
  | rs :: rounds =>
    if rs.undecidedSlots.Nonempty then none
    else if 0 < rs.numCommitted then some rs.round
    else findCommitLeaderRound rounds

/-- `FlexCommitter::maybe_refresh_pending_commit_state`: a schedule for a
later commit starts afresh; the same commit keeps the pending state. -/
def maybeRefreshPendingCommitState (p : PendingCommitState)
    (nextCommitLeaders : NextCommitLeaderSchedule) : Except FlexCommitterPanic PendingCommitState :=
  if p.nextCommitLeaders.nextCommitIndex = nextCommitLeaders.nextCommitIndex then pure p
  else if p.nextCommitLeaders.nextCommitIndex < nextCommitLeaders.nextCommitIndex then
    pure ⟨nextCommitLeaders, []⟩
  else throw (.commitIndexBackwards p.nextCommitLeaders.nextCommitIndex
    nextCommitLeaders.nextCommitIndex)

/-! ## The bookkeeping of a round -/

namespace RoundState

/-- What the state of a round keeps: a slot for each allowed leader at its
round, in some order; the undecided set holds exactly the slots whose status
is undecided, and the count is that of the committed slots; a slot has a
recorded decision exactly when it is decided. -/
structure WellFormed (allowedLeaders : List ℕ) (rs : RoundState) : Prop where
  slots_perm : (rs.leaderSlots.map (·.slot)).Perm (allowedLeaders.map (Slot.mk rs.round))
  mem_undecided : ∀ x, x ∈ rs.undecidedSlots ↔
    ∃ leaderSlot ∈ rs.leaderSlots, leaderSlot.slot = x ∧ leaderSlot.leaderStatus.isDecided = false
  numCommitted_eq : rs.numCommitted = rs.leaderSlots.countP (·.leaderStatus.isCommit)
  decision_isSome : ∀ leaderSlot ∈ rs.leaderSlots,
    leaderSlot.decision.isSome = leaderSlot.leaderStatus.isDecided

/-- The undecided set is that of the slots with an undecided status. -/
theorem mem_undecided_iff {rs : RoundState} :
    (∀ x, x ∈ rs.undecidedSlots ↔
      ∃ leaderSlot ∈ rs.leaderSlots, leaderSlot.slot = x ∧ leaderSlot.leaderStatus.isDecided = false) ↔
      rs.undecidedSlots =
        ((rs.leaderSlots.filter fun leaderSlot => !leaderSlot.leaderStatus.isDecided).map
          (·.slot)).toFinset := by
  rw [Finset.ext_iff]
  simp only [List.mem_toFinset, List.mem_map, List.mem_filter, Bool.not_eq_eq_eq_not, Bool.not_true]
  constructor <;> intro h x
  · rw [h x]
    exact ⟨fun ⟨ls, hls, hx, hd⟩ => ⟨ls, ⟨hls, hd⟩, hx⟩, fun ⟨ls, ⟨hls, hd⟩, hx⟩ => ⟨ls, hls, hx, hd⟩⟩
  · rw [h x]
    exact ⟨fun ⟨ls, ⟨hls, hd⟩, hx⟩ => ⟨ls, hls, hx, hd⟩, fun ⟨ls, hls, hx, hd⟩ => ⟨ls, ⟨hls, hd⟩, hx⟩⟩

instance (allowedLeaders : List ℕ) (rs : RoundState) : Decidable (rs.WellFormed allowedLeaders) :=
  decidable_of_iff (_ ∧ _ ∧ _ ∧ _)
    ⟨fun ⟨h₁, h₂, h₃, h₄⟩ => ⟨h₁, mem_undecided_iff.mpr h₂, h₃, h₄⟩,
      fun h => ⟨h.slots_perm, mem_undecided_iff.mp h.mem_undecided, h.numCommitted_eq, h.decision_isSome⟩⟩

/-- `rs'` keeps what `rs` decided: the same round and slots, and every
decided leader slot unchanged at its place. -/
structure Keeps (rs rs' : RoundState) : Prop where
  round_eq : rs'.round = rs.round
  slots_eq : rs'.leaderSlots.map (·.slot) = rs.leaderSlots.map (·.slot)
  decided_eq : ∀ (j : ℕ) (leaderSlot : LeaderSlot), rs.leaderSlots[j]? = some leaderSlot →
    leaderSlot.leaderStatus.isDecided = true → rs'.leaderSlots[j]? = some leaderSlot

theorem Keeps.refl (rs : RoundState) : Keeps rs rs := ⟨rfl, rfl, fun _ _ h _ => h⟩

theorem Keeps.trans {rs₁ rs₂ rs₃ : RoundState} (h₁ : Keeps rs₁ rs₂) (h₂ : Keeps rs₂ rs₃) :
    Keeps rs₁ rs₃ :=
  ⟨h₂.round_eq.trans h₁.round_eq, h₂.slots_eq.trans h₁.slots_eq,
    fun j ls hj hd => h₂.decided_eq j ls (h₁.decided_eq j ls hj hd) hd⟩

variable {allowedLeaders : List ℕ} {rs rs' : RoundState}

/-- Distinct allowed leaders give distinct slots. -/
theorem WellFormed.slots_nodup (hnd : allowedLeaders.Nodup) (hwf : rs.WellFormed allowedLeaders) :
    (rs.leaderSlots.map (·.slot)).Nodup :=
  hwf.slots_perm.nodup_iff.mpr (hnd.map fun _ _ h => by cases h; rfl)

/-- With distinct slots, a slot in the undecided set is the slot of an
undecided leader slot, which is the only leader slot of it. -/
theorem WellFormed.isDecided_eq_false (hnd : allowedLeaders.Nodup) (hwf : rs.WellFormed allowedLeaders)
    {leaderSlot : LeaderSlot} (hls : leaderSlot ∈ rs.leaderSlots)
    (hmem : leaderSlot.slot ∈ rs.undecidedSlots) : leaderSlot.leaderStatus.isDecided = false := by
  obtain ⟨ls, hls', hslot, hundecided⟩ := (hwf.mem_undecided _).mp hmem
  obtain rfl := List.inj_on_of_nodup_map (hwf.slots_nodup hnd) hls' hls hslot
  exact hundecided

/-- Setting a leader slot of the same slot changes it alone: every leader
slot of the new list is the new one or an old one of another slot. -/
theorem mem_set_of_slot_eq {l : List LeaderSlot} (hnd : (l.map (·.slot)).Nodup) {i : ℕ}
    (hi : i < l.length) {a : LeaderSlot} (ha : a.slot = l[i].slot) (y : LeaderSlot) :
    y ∈ l.set i a ↔ y = a ∨ y ∈ l ∧ y.slot ≠ a.slot := by
  constructor
  · intro hy
    obtain ⟨j, hj, rfl⟩ := List.mem_iff_getElem.mp hy
    rw [List.getElem_set]
    split
    · exact .inl rfl
    · rename_i hij
      refine .inr ⟨List.getElem_mem _, fun h => hij ?_⟩
      rw [ha] at h
      have := (@List.Nodup.getElem_inj_iff _ _ hnd j (by simpa using hj) i (by simpa using hi)).mp
        (by simpa using h)
      exact this.symm
  · rintro (rfl | ⟨hy, hslot⟩)
    · exact List.mem_iff_getElem.mpr ⟨i, by simpa using hi, by simp⟩
    · obtain ⟨j, hj, rfl⟩ := List.mem_iff_getElem.mp hy
      have hij : i ≠ j := fun h => hslot (by subst h; exact ha.symm)
      refine List.mem_iff_getElem.mpr ⟨j, by simpa using hj, ?_⟩
      rw [List.getElem_set, if_neg hij]

/-- **What `update_slot_decision` can do.** It finds the first leader slot
of the slot, and leaves the state as it is when the status stays undecided
or repeats the recorded one, or records the decision on a slot in the
undecided set. -/
theorem updateSlotDecision_eq_ok {slot : Slot} {newStatus : LeaderStatus} {decision : Decision}
    (h : rs.updateSlotDecision slot newStatus decision = .ok rs') :
    ∃ i, ∃ hi : i < rs.leaderSlots.length, rs.leaderSlots[i].slot = slot ∧
      ((newStatus.isDecided = false ∧ rs.leaderSlots[i].leaderStatus.isDecided = false ∧ rs' = rs) ∨
       (newStatus.isDecided = true ∧ slot ∈ rs.undecidedSlots ∧
         rs' = { rs with
           undecidedSlots := rs.undecidedSlots.erase slot
           numCommitted := if newStatus.isCommit then rs.numCommitted + 1 else rs.numCommitted
           leaderSlots := rs.leaderSlots.set i
             { rs.leaderSlots[i] with leaderStatus := newStatus, decision := some decision } }) ∨
       (newStatus.isDecided = true ∧ slot ∉ rs.undecidedSlots ∧
         rs.leaderSlots[i].leaderStatus = newStatus ∧ rs' = rs)) := by
  unfold updateSlotDecision at h
  split at h
  · cases h
  · rename_i i hfind
    obtain ⟨hi, hslot, -⟩ := List.findIdx?_eq_some_iff_getElem.mp hfind
    rw [List.getElem?_eq_getElem hi] at h
    refine ⟨i, hi, beq_iff_eq.mp hslot, ?_⟩
    simp only at h
    by_cases hdecided : newStatus.isDecided = true
    · by_cases hmem : slot ∈ rs.undecidedSlots
      · simp only [hdecided, Bool.not_true, Bool.false_eq_true, if_false, if_pos hmem, pure,
          Except.pure, Except.ok.injEq] at h
        exact .inr (.inl ⟨hdecided, hmem, h.symm⟩)
      · simp only [hdecided, Bool.not_true, Bool.false_eq_true, if_false, if_neg hmem] at h
        split at h
        · cases h
          exact .inr (.inr ⟨hdecided, hmem, ‹_›, rfl⟩)
        · cases h
    · rw [Bool.not_eq_true] at hdecided
      simp only [hdecided, Bool.not_false, if_true] at h
      split at h
      · cases h
        rename_i hls
        exact .inl ⟨hdecided, by simpa using hls, rfl⟩
      · cases h

/-- **Recording a decision keeps the bookkeeping**, with distinct allowed
leaders, and changes no decided slot. -/
theorem WellFormed.updateSlotDecision (hnd : allowedLeaders.Nodup)
    (hwf : rs.WellFormed allowedLeaders) {slot : Slot} {newStatus : LeaderStatus}
    {decision : Decision} (h : rs.updateSlotDecision slot newStatus decision = .ok rs') :
    rs'.WellFormed allowedLeaders ∧ Keeps rs rs' := by
  obtain ⟨i, hi, hslot, hcases⟩ := updateSlotDecision_eq_ok h
  rcases hcases with ⟨-, -, rfl⟩ | ⟨hdecided, hmem, rfl⟩ | ⟨-, -, -, rfl⟩
  · exact ⟨hwf, .refl _⟩
  · -- the first decision of an undecided slot
    have hundecided : rs.leaderSlots[i].leaderStatus.isDecided = false :=
      hwf.isDecided_eq_false hnd (List.getElem_mem hi) (hslot ▸ hmem)
    have hnd' := hwf.slots_nodup hnd
    have hset := mem_set_of_slot_eq hnd' hi
      (a := { rs.leaderSlots[i] with leaderStatus := newStatus, decision := some decision }) rfl
    have hmap : (rs.leaderSlots.set i
        { rs.leaderSlots[i] with leaderStatus := newStatus, decision := some decision }).map
          (·.slot) = rs.leaderSlots.map (·.slot) := by
      apply List.ext_getElem (by simp)
      intro j hj₁ hj₂
      simp only [List.getElem_map, List.getElem_set]
      split <;> simp_all
    refine ⟨⟨?_, fun x => ?_, ?_, fun y hy => ?_⟩, ⟨rfl, hmap, fun j ls hj hd => ?_⟩⟩
    · rw [hmap]
      exact hwf.slots_perm
    · simp only [Finset.mem_erase, hwf.mem_undecided, hset]
      constructor
      · rintro ⟨hx, ls, hls, rfl, hls'⟩
        exact ⟨ls, .inr ⟨hls, fun h => hx (h.trans hslot)⟩, rfl, hls'⟩
      · rintro ⟨ls, rfl | ⟨hls, hne⟩, rfl, hls'⟩
        · simp only at hls'
          rw [hdecided] at hls'
          cases hls'
        · exact ⟨fun h => hne (h.trans hslot.symm), ls, hls, rfl, hls'⟩
    · have hcommit : rs.leaderSlots[i].leaderStatus.isCommit = false := by
        obtain ⟨x, hx⟩ := LeaderStatus.isDecided_eq_false hundecided
        rw [hx]
        rfl
      simp only
      rw [List.countP_set hi, hcommit, hwf.numCommitted_eq]
      split <;> simp_all
    · rcases (hset y).mp hy with rfl | ⟨hy, -⟩
      · simp [hdecided]
      · exact hwf.decision_isSome y hy
    · -- the decided slots were not the one recorded
      have hij : i ≠ j := by
        rintro rfl
        rw [List.getElem?_eq_getElem hi, Option.some.injEq] at hj
        rw [← hj, hundecided] at hd
        cases hd
      rw [List.getElem?_set_ne hij]
      exact hj
  · exact ⟨hwf, .refl _⟩

/-- A round with no undecided slot is decided. -/
theorem WellFormed.decided_iff (hwf : rs.WellFormed allowedLeaders) :
    rs.Decided ↔ ¬ rs.undecidedSlots.Nonempty := by
  rw [Finset.not_nonempty_iff_eq_empty, Finset.eq_empty_iff_forall_notMem]
  constructor
  · intro hd x hx
    obtain ⟨ls, hls, -, hundecided⟩ := (hwf.mem_undecided x).mp hx
    rw [(hd ls hls).1] at hundecided
    cases hundecided
  · intro hempty ls hls
    have hdecided : ls.leaderStatus.isDecided = true := by
      by_contra hnot
      exact hempty ls.slot ((hwf.mem_undecided _).mpr ⟨ls, hls, rfl, by simpa using hnot⟩)
    exact ⟨hdecided, by rw [hwf.decision_isSome ls hls, hdecided]⟩

/-- The count is positive exactly when a slot is committed. -/
theorem WellFormed.numCommitted_pos_iff (hwf : rs.WellFormed allowedLeaders) :
    0 < rs.numCommitted ↔ rs.committedLeaders ≠ [] := by
  rw [hwf.numCommitted_eq, List.countP_pos_iff, committedLeaders, ne_eq, List.filterMap_eq_nil_iff]
  simp only [not_forall, LeaderSlot.committedBlock?]
  constructor
  · rintro ⟨ls, hls, hcommit⟩
    refine ⟨ls, hls, ?_⟩
    cases hst : ls.leaderStatus <;> simp_all [LeaderStatus.isCommit]
  · rintro ⟨ls, hls, hsome⟩
    refine ⟨ls, hls, ?_⟩
    cases hst : ls.leaderStatus <;> simp_all [LeaderStatus.isCommit]

/-- A decision reaches only the leader slot of its own slot. -/
theorem updateSlotDecision_frame {slot : Slot} {newStatus : LeaderStatus} {decision : Decision}
    (h : rs.updateSlotDecision slot newStatus decision = .ok rs') {j : ℕ} {leaderSlot : LeaderSlot}
    (hj : rs.leaderSlots[j]? = some leaderSlot) (hslot : leaderSlot.slot ≠ slot) :
    rs'.leaderSlots[j]? = some leaderSlot := by
  obtain ⟨i, hi, hslot_i, hcases⟩ := updateSlotDecision_eq_ok h
  rcases hcases with ⟨-, -, rfl⟩ | ⟨-, -, rfl⟩ | ⟨-, -, -, rfl⟩
  · exact hj
  · have hij : i ≠ j := by
      rintro rfl
      rw [List.getElem?_eq_getElem hi, Option.some.injEq] at hj
      exact hslot (hj ▸ hslot_i)
    simp only
    rw [List.getElem?_set_ne hij]
    exact hj
  · exact hj

/-- With distinct slots, the leader slot a decision finds for the slot of
the one at `j` is the one at `j`. -/
theorem index_eq_of_slot_eq (hnd : (rs.leaderSlots.map (·.slot)).Nodup) {i j : ℕ}
    (hi : i < rs.leaderSlots.length) {leaderSlot : LeaderSlot}
    (hj : rs.leaderSlots[j]? = some leaderSlot) (hslot : rs.leaderSlots[i].slot = leaderSlot.slot) :
    i = j := by
  obtain ⟨hj', rfl⟩ := List.getElem?_eq_some_iff.mp hj
  exact (@List.Nodup.getElem_inj_iff _ _ hnd i (by simpa using hi) j (by simpa using hj')).mp
    (by simpa using hslot)

/-- **When `update_slot_decision` panics** on the slot of a leader slot of
a well-formed round: only on a decided leader slot whose status the new one
is not, by undeciding it or by deciding it otherwise. -/
theorem WellFormed.updateSlotDecision_eq_error (hnd : allowedLeaders.Nodup)
    (hwf : rs.WellFormed allowedLeaders) {newStatus : LeaderStatus} {decision : Decision}
    {j : ℕ} {leaderSlot : LeaderSlot} (hj : rs.leaderSlots[j]? = some leaderSlot) {e : FlexCommitterPanic}
    (h : rs.updateSlotDecision leaderSlot.slot newStatus decision = .error e) :
    leaderSlot.leaderStatus.isDecided = true ∧ leaderSlot.leaderStatus ≠ newStatus ∧
      ((newStatus.isDecided = false ∧ e = .cannotUndecide leaderSlot.slot) ∨
        (newStatus.isDecided = true ∧ e = .cannotUpdateDecision leaderSlot.slot)) := by
  have hmem : leaderSlot ∈ rs.leaderSlots := List.mem_of_getElem? hj
  unfold RoundState.updateSlotDecision at h
  split at h
  · -- the slot is in the round
    rename_i hfind
    rw [List.findIdx?_eq_none_iff] at hfind
    simp at hfind
    exact absurd (hfind leaderSlot hmem) (by simp)
  · rename_i i hfind
    obtain ⟨hi, hslot_i, -⟩ := List.findIdx?_eq_some_iff_getElem.mp hfind
    obtain rfl := index_eq_of_slot_eq (hwf.slots_nodup hnd) hi hj (beq_iff_eq.mp hslot_i)
    rw [List.getElem?_eq_getElem hi] at h
    rw [List.getElem?_eq_getElem hi, Option.some.injEq] at hj
    subst hj
    simp only at h
    by_cases hnew : newStatus.isDecided = true
    · by_cases hundecided : rs.leaderSlots[i].slot ∈ rs.undecidedSlots
      · simp [hnew, hundecided, pure, Except.pure] at h
      · -- a decided slot, decided again
        have hdecided : rs.leaderSlots[i].leaderStatus.isDecided = true := by
          by_contra hnot
          exact hundecided ((hwf.mem_undecided _).mpr ⟨_, hmem, rfl, by simpa using hnot⟩)
        simp only [hnew, Bool.not_true, Bool.false_eq_true, if_false, if_neg hundecided] at h
        split at h
        · cases h
        · cases h
          exact ⟨hdecided, ‹_›, .inr ⟨hnew, rfl⟩⟩
    · -- an undecided status for a decided slot
      rw [Bool.not_eq_true] at hnew
      simp only [hnew, Bool.not_false, if_true] at h
      split at h
      · cases h
      · cases h
        rename_i hdecided
        have hdecided : rs.leaderSlots[i].leaderStatus.isDecided = true := by simpa using hdecided
        refine ⟨hdecided, fun heq => ?_, .inl ⟨hnew, rfl⟩⟩
        rw [heq, hnew] at hdecided
        cases hdecided

end RoundState

/-! ## The bookkeeping of the pending state -/

namespace PendingCommitState

/-- What the pending state keeps: distinct allowed leaders, and one state per
round from the schedule's minimum round on, each well formed. -/
structure WellFormed (p : PendingCommitState) : Prop where
  leaders_nodup : p.nextCommitLeaders.allowedLeaders.Nodup
  rounds_eq : p.rounds.map (·.round) =
    List.range' p.nextCommitLeaders.minNextLeaderRound p.rounds.length
  rounds_wf : ∀ rs ∈ p.rounds, rs.WellFormed p.nextCommitLeaders.allowedLeaders

instance (p : PendingCommitState) : Decidable p.WellFormed :=
  decidable_of_iff (_ ∧ _ ∧ _) ⟨fun ⟨h₁, h₂, h₃⟩ => ⟨h₁, h₂, h₃⟩,
    fun h => ⟨h.leaders_nodup, h.rounds_eq, h.rounds_wf⟩⟩

/-- `p'` keeps what `p` decided: the same schedule, and the state of each
round of `p` kept at its place. -/
structure Keeps (p p' : PendingCommitState) : Prop where
  schedule_eq : p'.nextCommitLeaders = p.nextCommitLeaders
  rounds_keep : ∀ (i : ℕ) (rs : RoundState), p.rounds[i]? = some rs →
    ∃ rs', p'.rounds[i]? = some rs' ∧ rs.Keeps rs'

theorem Keeps.refl (p : PendingCommitState) : Keeps p p :=
  ⟨rfl, fun _ rs h => ⟨rs, h, .refl rs⟩⟩

theorem Keeps.trans {p₁ p₂ p₃ : PendingCommitState} (h₁ : Keeps p₁ p₂) (h₂ : Keeps p₂ p₃) :
    Keeps p₁ p₃ := by
  refine ⟨h₂.schedule_eq.trans h₁.schedule_eq, fun i rs hrs => ?_⟩
  obtain ⟨rs₂, hrs₂, hk₂⟩ := h₁.rounds_keep i rs hrs
  obtain ⟨rs₃, hrs₃, hk₃⟩ := h₂.rounds_keep i rs₂ hrs₂
  exact ⟨rs₃, hrs₃, hk₂.trans hk₃⟩

variable (shuffle : ℕ → List ℕ → List ℕ) {p : PendingCommitState}

/-- A new round is well formed when the shuffle permutes the leaders. -/
theorem newRoundState_wellFormed {allowedLeaders : List ℕ} {r : ℕ}
    (hperm : (shuffle r allowedLeaders).Perm allowedLeaders) :
    (newRoundState shuffle allowedLeaders r).WellFormed allowedLeaders where
  slots_perm := by
    simp only [newRoundState, List.map_map]
    exact hperm.map _
  mem_undecided x := by
    simp only [newRoundState, List.mem_toFinset, List.mem_map]
    constructor
    · rintro ⟨ls, ⟨a, ha, rfl⟩, rfl⟩
      exact ⟨_, ⟨a, ha, rfl⟩, rfl, rfl⟩
    · rintro ⟨ls, ⟨a, ha, rfl⟩, rfl, -⟩
      exact ⟨_, ⟨a, ha, rfl⟩, rfl⟩
  numCommitted_eq := by
    simp only [newRoundState]
    refine (List.countP_eq_zero.mpr ?_).symm
    simp only [List.mem_map]
    rintro ls ⟨a, -, rfl⟩
    simp [LeaderStatus.isCommit]
  decision_isSome ls hls := by
    simp only [newRoundState, List.mem_map] at hls
    obtain ⟨a, -, rfl⟩ := hls
    rfl

/-- The rounds of a well-formed state run on from the minimum round. -/
theorem WellFormed.round_eq (hwf : p.WellFormed) {i : ℕ} {rs : RoundState}
    (h : p.rounds[i]? = some rs) : rs.round = p.nextCommitLeaders.minNextLeaderRound + i := by
  have hi : i < p.rounds.length := (List.getElem?_eq_some_iff.mp h).1
  have := congrArg (·[i]?) hwf.rounds_eq
  simp only [List.getElem?_map, h, Option.map_some, List.getElem?_range' hi] at this
  simpa using this

theorem WellFormed.addFromRound_eq (hwf : p.WellFormed) :
    p.addFromRound = p.nextCommitLeaders.minNextLeaderRound + p.rounds.length := by
  unfold addFromRound
  cases hlast : p.rounds.getLast? with
  | none =>
    rw [List.getLast?_eq_none_iff.mp hlast]
    rfl
  | some rs =>
    have hlen : p.rounds.length - 1 < p.rounds.length := by
      have := List.length_pos_of_ne_nil (List.getLast?_isSome.mp (by rw [hlast]; rfl))
      omega
    rw [List.getLast?_eq_getElem?] at hlast
    simp only [Option.map_some, Option.getD_some, hwf.round_eq hlast]
    omega

/-- Populating the rounds up to `round` appends the rounds from the first
without a state. -/
theorem populate_rounds (round : ℕ) :
    (p.populate shuffle round).rounds = p.rounds ++
      (List.range' p.addFromRound (round + 1 - p.addFromRound)).map
        (newRoundState shuffle p.nextCommitLeaders.allowedLeaders) := rfl

variable {shuffle}
variable (hperm : ∀ r l, (shuffle r l).Perm l)

include hperm in
/-- **Populating rounds** keeps the bookkeeping and what was decided, and
gives every round from the minimum one up to `round` a state. -/
theorem WellFormed.populate (hwf : p.WellFormed) (round : ℕ) :
    (p.populate shuffle round).WellFormed ∧ Keeps p (p.populate shuffle round) ∧
      round + 1 - p.nextCommitLeaders.minNextLeaderRound ≤ (p.populate shuffle round).rounds.length := by
  have hadd := hwf.addFromRound_eq
  have hnew : ((List.range' p.addFromRound (round + 1 - p.addFromRound)).map
      (newRoundState shuffle p.nextCommitLeaders.allowedLeaders)).map (·.round) =
      List.range' p.addFromRound (round + 1 - p.addFromRound) := by
    rw [List.map_map]
    exact List.map_id'' (fun _ => rfl) _
  refine ⟨⟨hwf.leaders_nodup, ?_, fun rs hrs => ?_⟩, ⟨rfl, fun i rs hrs => ⟨rs, ?_, .refl rs⟩⟩, ?_⟩
  · rw [populate_rounds, List.map_append, hwf.rounds_eq, hnew, List.length_append, List.length_map,
      List.length_range', hadd, ← List.range'_append, Nat.one_mul]
    rfl
  · rw [populate_rounds, List.mem_append, List.mem_map] at hrs
    rcases hrs with hrs | ⟨r, -, rfl⟩
    · exact hwf.rounds_wf rs hrs
    · exact newRoundState_wellFormed shuffle (hperm r _)
  · rw [populate_rounds, List.getElem?_append_left (List.getElem?_eq_some_iff.mp hrs).1]
    exact hrs
  · rw [populate_rounds, List.length_append, List.length_map, List.length_range', hadd]
    omega

/-- `get_round_state` of a round from the minimum one on reads its place. -/
theorem getRoundState_eq_ok {round : ℕ} {rs : RoundState}
    (hmin : p.nextCommitLeaders.minNextLeaderRound ≤ round)
    (h : p.rounds[round - p.nextCommitLeaders.minNextLeaderRound]? = some rs) :
    p.getRoundState round = .ok rs := by
  simp only [getRoundState, if_pos hmin, h]
  rfl

include hperm in
/-- **`get_or_create_round_state`** of a round from the minimum one on
returns its state, at the round, in the populated pending state. -/
theorem WellFormed.getOrCreateRoundState (hwf : p.WellFormed) {round : ℕ}
    (hmin : p.nextCommitLeaders.minNextLeaderRound ≤ round) :
    ∃ rs, p.getOrCreateRoundState shuffle round = .ok (rs, p.populate shuffle round) ∧
      (p.populate shuffle round).rounds[round - p.nextCommitLeaders.minNextLeaderRound]? = some rs ∧
      rs.round = round ∧ (p.populate shuffle round).WellFormed ∧ Keeps p (p.populate shuffle round) := by
  obtain ⟨hwf', hkeeps, hlen⟩ := hwf.populate hperm round
  obtain ⟨rs, hrs⟩ : ∃ rs, (p.populate shuffle round).rounds[round -
      p.nextCommitLeaders.minNextLeaderRound]? = some rs :=
    ⟨_, List.getElem?_eq_getElem (by omega)⟩
  have hmin' : (p.populate shuffle round).nextCommitLeaders.minNextLeaderRound ≤ round := hmin
  refine ⟨rs, ?_, hrs, ?_, hwf', hkeeps⟩
  · show (p.populate shuffle round).getRoundState round >>=
      (fun rs => pure (rs, p.populate shuffle round)) = _
    rw [getRoundState_eq_ok hmin' hrs]
    rfl
  · rw [hwf'.round_eq hrs]
    show p.nextCommitLeaders.minNextLeaderRound + (round - p.nextCommitLeaders.minNextLeaderRound) = round
    omega

/-- **Writing back a round's state** that keeps the old one keeps the
bookkeeping and what was decided. -/
theorem WellFormed.setRoundState (hwf : p.WellFormed) {round : ℕ} {rs rs' : RoundState}
    (hrs : p.rounds[round - p.nextCommitLeaders.minNextLeaderRound]? = some rs)
    (hwf' : rs'.WellFormed p.nextCommitLeaders.allowedLeaders) (hk : rs.Keeps rs') :
    (p.setRoundState round rs').WellFormed ∧ Keeps p (p.setRoundState round rs') := by
  set i := round - p.nextCommitLeaders.minNextLeaderRound
  have hi : i < p.rounds.length := (List.getElem?_eq_some_iff.mp hrs).1
  refine ⟨⟨hwf.leaders_nodup, ?_, fun x hx => ?_⟩, ⟨rfl, fun j x hx => ?_⟩⟩
  · -- the round at the place written is the old one
    have hset : (p.rounds.map (·.round)).set i rs.round = p.rounds.map (·.round) := by
      apply List.ext_getElem?
      intro j
      by_cases hij : i = j
      · subst hij
        rw [List.getElem?_set_self (by simpa using hi)]
        simp [hrs]
      · rw [List.getElem?_set_ne hij]
    simp only [PendingCommitState.setRoundState, List.map_set, List.length_set]
    rw [hk.round_eq, hset, hwf.rounds_eq]
  · rcases List.mem_or_eq_of_mem_set hx with hx | rfl
    · exact hwf.rounds_wf x hx
    · exact hwf'
  · simp only [PendingCommitState.setRoundState]
    by_cases hij : i = j
    · subst hij
      rw [hrs, Option.some.injEq] at hx
      subst hx
      exact ⟨rs', List.getElem?_set_self hi, hk⟩
    · exact ⟨x, by rw [List.getElem?_set_ne hij]; exact hx, .refl x⟩

end PendingCommitState

/-- The round `find_commit_leader_round` picks among the states `rounds`:
every round up to it is decided, it has a committed slot, and no round
before it has one. -/
structure IsCommitLeaderRound (rounds : List RoundState) (r : ℕ) : Prop where
  decided : ∀ rs ∈ rounds, rs.round ≤ r → rs.Decided
  committed : ∃ rs ∈ rounds, rs.round = r ∧ rs.committedLeaders ≠ []
  first : ∀ rs ∈ rounds, rs.round < r → rs.committedLeaders = []

/-- The search of `find_commit_leader_round` over well-formed states of
consecutive rounds from `m`. -/
theorem findCommitLeaderRound_spec_aux {allowedLeaders : List ℕ} :
    ∀ {rounds : List RoundState} {m r : ℕ},
      rounds.map (·.round) = List.range' m rounds.length →
      (∀ rs ∈ rounds, rs.WellFormed allowedLeaders) →
      findCommitLeaderRound rounds = some r → IsCommitLeaderRound rounds r
  | [], _, _, _, _, h => by cases h
  | rs :: rounds, m, r, hrounds, hwf, h => by
    rw [List.map_cons, List.length_cons, List.range'_succ, List.cons.injEq] at hrounds
    obtain ⟨hm, hrest⟩ := hrounds
    -- the later rounds lie above this one
    have habove : ∀ rs' ∈ rounds, rs.round < rs'.round := fun rs' hrs' => by
      have : rs'.round ∈ List.range' (m + 1) rounds.length := hrest ▸ List.mem_map_of_mem hrs'
      rw [List.mem_range'_1] at this
      omega
    have hwf₀ := hwf rs List.mem_cons_self
    unfold findCommitLeaderRound at h
    split_ifs at h with hundecided hcommitted
    · -- this round is decided and has a committed slot
      cases h
      refine ⟨fun rs' hrs' hle => ?_, ⟨rs, List.mem_cons_self, rfl,
        hwf₀.numCommitted_pos_iff.mp hcommitted⟩, fun rs' hrs' hlt => ?_⟩
      · rcases List.mem_cons.mp hrs' with rfl | hrs'
        · exact hwf₀.decided_iff.mpr hundecided
        · exact absurd hle (Nat.not_le.mpr (habove rs' hrs'))
      · rcases List.mem_cons.mp hrs' with rfl | hrs'
        · exact absurd hlt (lt_irrefl _)
        · exact absurd (habove rs' hrs') (Nat.lt_asymm hlt)
    · -- this round is decided without a committed slot: the search goes on
      have ih := findCommitLeaderRound_spec_aux hrest (fun rs' hrs' => hwf rs' (List.mem_cons_of_mem _ hrs')) h
      have hnone : rs.committedLeaders = [] := by
        by_contra hne
        exact hcommitted (hwf₀.numCommitted_pos_iff.mpr hne)
      obtain ⟨rs₁, hrs₁, hr, -⟩ := ih.committed
      have hlt : rs.round < r := hr ▸ habove rs₁ hrs₁
      refine ⟨fun rs' hrs' hle => ?_, ?_, fun rs' hrs' hlt' => ?_⟩
      · rcases List.mem_cons.mp hrs' with rfl | hrs'
        · exact hwf₀.decided_iff.mpr hundecided
        · exact ih.decided rs' hrs' hle
      · obtain ⟨rs₁, hrs₁, hr, hne⟩ := ih.committed
        exact ⟨rs₁, List.mem_cons_of_mem _ hrs₁, hr, hne⟩
      · rcases List.mem_cons.mp hrs' with rfl | hrs'
        · exact hnone
        · exact ih.first rs' hrs' hlt'

/-- **`find_commit_leader_round`** on a well-formed pending state picks the
lowest round up to which every round is decided and which has a committed
slot. -/
theorem findCommitLeaderRound_spec {p : PendingCommitState} (hwf : p.WellFormed) {r : ℕ}
    (h : findCommitLeaderRound p.rounds = some r) : IsCommitLeaderRound p.rounds r :=
  findCommitLeaderRound_spec_aux hwf.rounds_eq hwf.rounds_wf h

/-- **Refreshing the pending state** for a schedule of distinct leaders keeps
the bookkeeping; for the same commit it keeps the state. -/
theorem PendingCommitState.WellFormed.maybeRefresh {p p' : PendingCommitState}
    {nextCommitLeaders : NextCommitLeaderSchedule} (hwf : p.WellFormed)
    (hnd : nextCommitLeaders.allowedLeaders.Nodup)
    (h : maybeRefreshPendingCommitState p nextCommitLeaders = .ok p') :
    p'.WellFormed ∧ p'.nextCommitLeaders.nextCommitIndex = nextCommitLeaders.nextCommitIndex ∧
      (p.nextCommitLeaders.nextCommitIndex = nextCommitLeaders.nextCommitIndex → p' = p) := by
  unfold maybeRefreshPendingCommitState at h
  split_ifs at h with hsame hlt
  · cases h
    exact ⟨hwf, hsame, fun _ => rfl⟩
  · cases h
    exact ⟨⟨hnd, rfl, by simp⟩, rfl, fun h => absurd h hsame⟩

end Sui
