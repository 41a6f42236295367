import Mathlib.Data.List.Sort
import Sui.Dfs
import Sui.WeightedScan
import Sui.Consensus.AcceptBlock

/-!
# The linearizer (`linearizer.rs`)

`Linearizer::handle_commit` turns a sequence of committed leaders into
sub-dags, one per leader. For each leader, `linearize_sub_dag` marks the
leader committed and searches its history depth-first, an instance of
`Dfs.Search.run`: the ancestors above the GC round that are not committed
yet are marked committed and collected, the rest are not followed. The
collected blocks are sorted by round and author, the commit gets the next
index and a timestamp no earlier than the last commit's, and `add_commit`
moves the last commit, and with it the GC round, before the next leader.

The committed flags live in the DAG state, so what a sub-dag collects
depends on what was committed before it, in earlier sub-dags or before the
call: it is exactly what is reachable from its leader through ancestors
above the then GC round that are not committed yet (`SubDagReach`). The
panics of the path are told apart (`LinearizerPanic`): no leader or block is
ever committed twice on a DAG whose ancestors above the GC round are cached
(`handleCommit_spec`).

The metrics, the block store behind the cache, and the fields of a sub-dag
that `CommittedSubDag::new` sets to constants are not modelled; the commit
digest is the hash of the serialized commit, taken as a parameter.
-/

namespace Sui

/-- The errors of `median_timestamp_by_stake`. -/
inductive MedianError
  /-- "No blocks provided" -/
  | noBlocksProvided
  /-- "Total stake … < quorum threshold …" -/
  | belowQuorum (totalStake quorumThreshold : ℕ)
  deriving DecidableEq, Repr

/-- The panics on the linearizer's path, by the assertion or `expect` that
raises them. -/
inductive LinearizerPanic
  /-- `is_committed`: "Attempted to query for commit status for a block not in cached data" -/
  | notInCachedData (reference : BlockRef)
  /-- `set_committed`: "Block … not found in cache to set as committed." -/
  | notFoundInCache (reference : BlockRef)
  /-- "Leader block with reference … attempted to be committed twice" -/
  | leaderCommittedTwice (reference : BlockRef)
  /-- "Block with reference … attempted to be committed twice" -/
  | blockCommittedTwice (reference : BlockRef)
  /-- "We should have all uncommitted blocks in dag state." -/
  | missingUncommittedBlock
  /-- "No blocks <= … should be committed." -/
  | belowGcRound (gcRound : ℕ)
  /-- `calculate_commit_timestamp`: "We should have all blocks in dag state." -/
  | missingParentBlock
  /-- "Cannot compute median timestamp for leader block …" -/
  | medianTimestamp (error : MedianError)
  /-- the index and timestamp assertions of `DagState::add_commit` -/
  | addCommit
  /-- the search ran out of the fuel the model gives it, which it never does
  (`Dfs.run_spec`) -/
  | outOfFuel
  deriving DecidableEq, Repr

/-- The two "attempted to be committed twice" assertions. -/
def LinearizerPanic.committedTwice : LinearizerPanic → Bool
  | leaderCommittedTwice _ => true
  | blockCommittedTwice _ => true
  | _ => false

/-- `CommitRef`: a commit's index and digest. -/
structure CommitRef where
  /-- position in the commit sequence -/
  index : ℕ
  /-- digest of the serialized commit -/
  digest : ℕ
  deriving DecidableEq, Repr

/-- `CommittedSubDag`: the blocks a commit of a leader outputs. -/
structure CommittedSubDag where
  /-- the committed leader -/
  leader : BlockRef
  /-- the committed blocks, by round and author -/
  blocks : List Block
  /-- the commit timestamp -/
  timestampMs : ℕ
  /-- the commit the sub-dag belongs to -/
  commitRef : CommitRef
  deriving DecidableEq, Repr

namespace DagState

variable (s : DagState)

/-- `recent_blocks.get`: the cached info of a reference. -/
def blockInfo (reference : BlockRef) : Option BlockInfo :=
  s.recentBlocks.find? (·.block.reference = reference)

/-- The references of the cached blocks. -/
def cachedRefs : Finset BlockRef := (s.recentBlocks.map (·.block.reference)).toFinset

/-- The references of the cached blocks marked committed. -/
def committedRefs : Finset BlockRef :=
  s.cachedRefs.filter fun reference => (s.blockInfo reference).any (·.committed)

/-- `DagState::is_committed`. -/
def isCommitted (reference : BlockRef) : Except LinearizerPanic Bool :=
  match s.blockInfo reference with
  | some info => pure info.committed
  | none => throw (.notInCachedData reference)

/-- `DagState::set_committed`: whether the block was not committed yet. -/
def setCommitted (reference : BlockRef) : Except LinearizerPanic (Bool × DagState) :=
  match s.blockInfo reference with
  | some info =>
    if info.committed then pure (false, s)
    else pure (true, { s with
      recentBlocks := s.recentBlocks.map fun info =>
        if info.block.reference = reference then { info with committed := true } else info })
  | none => throw (.notFoundInCache reference)

/-- `DagState::last_commit_index`. -/
def lastCommitIndex : ℕ :=
  match s.lastCommit with
  | some commit => commit.inner.index
  | none => 0

/-- `DagState::last_commit_digest`; `CommitDigest::MIN` before any commit. -/
def lastCommitDigest : ℕ :=
  match s.lastCommit with
  | some commit => commit.digest
  | none => 0

/-- `DagState::last_commit_timestamp_ms`. -/
def lastCommitTimestampMs : ℕ :=
  match s.lastCommit with
  | some commit => commit.inner.timestampMs
  | none => 0

/-- `DagState::get_blocks`. -/
def getBlocks (refs : List BlockRef) : List (Option Block) := refs.map s.getBlock

end DagState

namespace DagState

variable {s : DagState}

/-! ## Committed flags -/

theorem blockInfo_eq_some {r : BlockRef} {info : BlockInfo} (h : s.blockInfo r = some info) :
    info ∈ s.recentBlocks ∧ info.block.reference = r :=
  ⟨List.mem_of_find?_eq_some h, by simpa using List.find?_some h⟩

theorem mem_cachedRefs {r : BlockRef} : r ∈ s.cachedRefs ↔ (s.blockInfo r).isSome := by
  simp [cachedRefs, blockInfo, List.find?_isSome]

theorem mem_committedRefs {r : BlockRef} :
    r ∈ s.committedRefs ↔ (s.blockInfo r).any (·.committed) := by
  rw [committedRefs, Finset.mem_filter, mem_cachedRefs]
  constructor
  · exact fun h => h.2
  · intro h
    refine ⟨?_, h⟩
    cases hinfo : s.blockInfo r with
    | none => simp [hinfo] at h
    | some info => rfl

/-- `is_committed` of a cached block reads its flag. -/
theorem isCommitted_eq {r : BlockRef} (hr : r ∈ s.cachedRefs) :
    s.isCommitted r = .ok (decide (r ∈ s.committedRefs)) := by
  obtain ⟨info, hinfo⟩ := Option.isSome_iff_exists.mp (mem_cachedRefs.mp hr)
  simp [isCommitted, mem_committedRefs, hinfo, pure, Except.pure]

/-- Marking a block committed keeps what every cached info holds but its
flag. -/
theorem blockInfo_markCommitted (r r' : BlockRef) :
    ({ s with recentBlocks := s.recentBlocks.map fun info =>
        if info.block.reference = r then { info with committed := true } else info } :
        DagState).blockInfo r' =
      (s.blockInfo r').map fun info =>
        if info.block.reference = r then { info with committed := true } else info := by
  unfold blockInfo
  rw [List.find?_map]
  congr 2
  funext info
  simp only [Function.comp_apply]
  split <;> rfl

/-- `set_committed` of a cached block marks it, answering whether it was not
marked yet. -/
theorem setCommitted_spec {r : BlockRef} (hr : r ∈ s.cachedRefs) :
    ∃ s', s.setCommitted r = .ok (decide (r ∉ s.committedRefs), s') ∧
      s'.committedRefs = insert r s.committedRefs := by
  obtain ⟨info, hinfo⟩ := Option.isSome_iff_exists.mp (mem_cachedRefs.mp hr)
  have hinfo_ref := (blockInfo_eq_some hinfo).2
  by_cases hc : info.committed = true
  · -- already marked: nothing changes
    have hmem : r ∈ s.committedRefs := mem_committedRefs.mpr (by simp [hinfo, hc])
    refine ⟨s, ?_, (Finset.insert_eq_of_mem hmem).symm⟩
    simp [setCommitted, hinfo, hc, hmem, pure, Except.pure]
  · have hnot : r ∉ s.committedRefs := by simp [mem_committedRefs, hinfo, hc]
    refine ⟨{ s with recentBlocks := s.recentBlocks.map fun info =>
        if info.block.reference = r then { info with committed := true } else info },
      by simp [setCommitted, hinfo, hc, hnot, pure, Except.pure], ?_⟩
    ext r'
    rw [Finset.mem_insert, mem_committedRefs, mem_committedRefs, blockInfo_markCommitted]
    by_cases hr' : r' = r
    · subst hr'
      simp [hinfo, hinfo_ref]
    · cases h : s.blockInfo r' with
      | none => simp [hr']
      | some info' =>
        have := (blockInfo_eq_some h).2
        simp [hr', this]

/-! ## The frame -/

/-- `s'` holds the blocks of `s` in the same context: it differs at most in
committed flags and the last commit. -/
structure SameBlocks (s s' : DagState) : Prop where
  context_eq : s'.context = s.context
  genesis_eq : s'.genesis = s.genesis
  blocks_eq : s'.recentBlocks.map (·.block) = s.recentBlocks.map (·.block)

theorem SameBlocks.refl (s : DagState) : SameBlocks s s := ⟨rfl, rfl, rfl⟩

theorem SameBlocks.trans {s₁ s₂ s₃ : DagState} (h₁ : SameBlocks s₁ s₂) (h₂ : SameBlocks s₂ s₃) :
    SameBlocks s₁ s₃ :=
  ⟨h₂.context_eq.trans h₁.context_eq, h₂.genesis_eq.trans h₁.genesis_eq,
    h₂.blocks_eq.trans h₁.blocks_eq⟩

/-- Above the genesis round, `get_block` reads the cached blocks. -/
theorem getBlock_of_round_ne {r : BlockRef} (h : r.round ≠ genesisRound) :
    s.getBlock r = (s.recentBlocks.map (·.block)).find? (·.reference = r) := by
  rw [getBlock, if_neg h, List.find?_map]
  rfl

theorem SameBlocks.getBlock_eq {s' : DagState} (h : SameBlocks s s') : s'.getBlock = s.getBlock := by
  funext r
  by_cases hr : r.round = genesisRound
  · simp only [getBlock, if_pos hr, h.genesis_eq]
  · rw [getBlock_of_round_ne hr, getBlock_of_round_ne hr, h.blocks_eq]

theorem SameBlocks.cachedRefs_eq {s' : DagState} (h : SameBlocks s s') :
    s'.cachedRefs = s.cachedRefs := by
  have := congrArg (List.map Block.reference) h.blocks_eq
  simp only [List.map_map] at this
  simp only [cachedRefs]
  exact congrArg List.toFinset this

/-- `set_committed` changes nothing but flags. -/
theorem setCommitted_frame {r : BlockRef} {newly : Bool} {s' : DagState}
    (h : s.setCommitted r = .ok (newly, s')) : SameBlocks s s' ∧ s'.lastCommit = s.lastCommit := by
  unfold setCommitted at h
  split at h
  · split at h
    · cases h
      exact ⟨.refl s, rfl⟩
    · cases h
      refine ⟨⟨rfl, rfl, ?_⟩, rfl⟩
      simp only [List.map_map]
      congr 1
      funext info
      simp only [Function.comp_apply]
      split <;> rfl
  · cases h

/-- Steps that each keep the blocks and the last commit keep them along any
number of steps. -/
theorem sameBlocks_of_reflTransGen {R : DagState → DagState → Prop}
    (hR : ∀ s₁ s₂, R s₁ s₂ → SameBlocks s₁ s₂ ∧ s₂.lastCommit = s₁.lastCommit) {s' : DagState}
    (h : Relation.ReflTransGen R s s') : SameBlocks s s' ∧ s'.lastCommit = s.lastCommit := by
  induction h with
  | refl => exact ⟨.refl s, rfl⟩
  | tail _ hstep ih =>
    obtain ⟨hsame, hlast⟩ := hR _ _ hstep
    exact ⟨ih.1.trans hsame, hlast.trans ih.2⟩

/-- A cached reference above the genesis round has its block. -/
theorem getBlock_of_mem_cachedRefs {r : BlockRef} (hr : r ∈ s.cachedRefs) (h : r.round ≠ genesisRound) :
    ∃ b, s.getBlock r = some b ∧ b ∈ s.recentBlocks.map (·.block) := by
  obtain ⟨info, hinfo⟩ := Option.isSome_iff_exists.mp (mem_cachedRefs.mp hr)
  refine ⟨info.block, ?_, List.mem_map_of_mem (blockInfo_eq_some hinfo).1⟩
  rw [getBlock, if_neg h]
  simp only [blockInfo] at hinfo
  rw [hinfo]
  rfl

/-- A block `get_block` finds above the genesis round is cached. -/
theorem mem_recent_of_getBlock {r : BlockRef} {b : Block} (h : s.getBlock r = some b)
    (hr : r.round ≠ genesisRound) : b ∈ s.recentBlocks.map (·.block) := by
  rw [getBlock_of_round_ne hr] at h
  exact List.mem_of_find?_eq_some h

/-- A block `is_committed` reports uncommitted is cached and not marked. -/
theorem isCommitted_eq_ok_false {r : BlockRef} (h : s.isCommitted r = .ok false) :
    r ∈ s.cachedRefs ∧ r ∉ s.committedRefs := by
  unfold isCommitted at h
  split at h
  · rename_i info hinfo
    have hc : info.committed = false := Except.ok.inj h
    exact ⟨mem_cachedRefs.mpr (by simp [hinfo]), by simp [mem_committedRefs, hinfo, hc]⟩
  · cases h

theorem lastCommitIndex_congr {s' : DagState} (h : s'.lastCommit = s.lastCommit) :
    s'.lastCommitIndex = s.lastCommitIndex := by
  simp only [lastCommitIndex, h]

theorem lastCommitTimestampMs_congr {s' : DagState} (h : s'.lastCommit = s.lastCommit) :
    s'.lastCommitTimestampMs = s.lastCommitTimestampMs := by
  simp only [lastCommitTimestampMs, h]

end DagState

namespace Linearizer

/-- The order of `sort_sub_dag_blocks`: by round, then by author. -/
def RoundAuthorLe (a b : Block) : Prop := a.round < b.round ∨ a.round = b.round ∧ a.author ≤ b.author

instance : DecidableRel RoundAuthorLe := fun a b => inferInstanceAs (Decidable (_ ∨ _))

instance : Std.Total RoundAuthorLe := ⟨fun a b => by unfold RoundAuthorLe; omega⟩

instance : IsTrans Block RoundAuthorLe := ⟨fun _ _ _ hab hbc => by unfold RoundAuthorLe at *; omega⟩

/-- `sort_sub_dag_blocks`, a stable sort: insertion sort puts the blocks in
the order the source's merge sort does. -/
def sortSubDagBlocks (blocks : List Block) : List Block := blocks.insertionSort RoundAuthorLe

/-- The search of `linearize_sub_dag`: from a block through its ancestors
above the GC round, with the committed flags of the DAG state as marks. -/
def subDagSearch (gcRound : ℕ) : Dfs.Search DagState Block BlockRef LinearizerPanic where
  key := Block.reference
  succ := Block.ancestors
  follow ancestor := decide (gcRound < ancestor.round)
  isMarked := DagState.isCommitted
  mark := DagState.setCommitted
  lookup s ancestor :=
    match s.getBlock ancestor with
    | some block => pure block
    | none => throw .missingUncommittedBlock
  markedTwice := .blockCommittedTwice
  outOfFuel := .outOfFuel

/-- `Linearizer::linearize_sub_dag`: the leader's uncommitted history above
the GC round, sorted, with the DAG state marking it committed. -/
def linearizeSubDag (leaderBlock : Block) (s : DagState) :
    Except LinearizerPanic (List Block × DagState) := do
  let gcRound := s.gcRound
  let (newly, s) ← s.setCommitted leaderBlock.reference
  if !newly then throw (.leaderCommittedTwice leaderBlock.reference)
  let (toCommit, s) ← (subDagSearch gcRound).run (s.recentBlocks.length + 1) [leaderBlock] [] s
  if !toCommit.all fun block => decide (gcRound < block.round) then throw (.belowGcRound gcRound)
  pure (sortSubDagBlocks toCommit, s)

/-- The loop of `median_timestamps_by_stake_inner` over the timestamps in
order, with the stake accumulated so far. -/
def medianLoop (totalStake last : ℕ) : List (ℕ × ℕ) → ℕ → ℕ
  | [], _ => last
  | (timestampMs, stake) :: timestamps, cumulativeStake =>
    if totalStake / 2 < cumulativeStake + stake then timestampMs
    else medianLoop totalStake last timestamps (cumulativeStake + stake)

/-- `median_timestamps_by_stake_inner`: the first timestamp, in the order of
the stable sort by timestamp, at which more than half the stake is reached.
The caller never passes an empty list, so the last timestamp is there. -/
def medianTimestampsByStakeInner (timestamps : List (ℕ × ℕ)) (totalStake : ℕ) : ℕ :=
  let timestamps := timestamps.insertionSort fun a b => a.1 ≤ b.1
  medianLoop totalStake ((timestamps.getLast?.map (·.1)).getD 0) timestamps 0

/-- `median_timestamp_by_stake`. -/
def medianTimestampByStake (committee : Committee) (blocks : List Block) :
    Except MedianError ℕ :=
  let timestamps := blocks.map fun block => (block.timestampMs, committee.stake block.author)
  let totalStake := (timestamps.map (·.2)).sum
  if timestamps.isEmpty then throw .noBlocksProvided
  else if totalStake < committee.quorumThreshold then
    throw (.belowQuorum totalStake committee.quorumThreshold)
  else pure (medianTimestampsByStakeInner timestamps totalStake)

/-- `Linearizer::calculate_commit_timestamp`: the stake median of the
timestamps of the leader's parents, never below the last commit's. -/
def calculateCommitTimestamp (s : DagState) (leaderBlock : Block) (lastCommitTimestampMs : ℕ) :
    Except LinearizerPanic ℕ := do
  let blockRefs := leaderBlock.ancestors.filter fun r => r.round = leaderBlock.round - 1
  let blocks ← (s.getBlocks blockRefs).mapM fun block =>
    match block with
    | some block => pure block
    | none => throw .missingParentBlock
  match medianTimestampByStake s.context.committee blocks with
  | .ok timestampMs => pure (max timestampMs lastCommitTimestampMs)
  | .error e => throw (.medianTimestamp e)

variable (digest : Commit → ℕ)

/-- `Linearizer::collect_sub_dag_and_commit`: the sub-dag of a leader, its
commit, and the DAG state with the sub-dag marked committed. -/
def collectSubDagAndCommit (leaderBlock : Block) (s : DagState) :
    Except LinearizerPanic (CommittedSubDag × TrustedCommit × DagState) := do
  let lastCommitIndex := s.lastCommitIndex
  let lastCommitDigest := s.lastCommitDigest
  let lastCommitTimestampMs := s.lastCommitTimestampMs
  let (toCommit, s) ← linearizeSubDag leaderBlock s
  let timestampMs ← calculateCommitTimestamp s leaderBlock lastCommitTimestampMs
  let commit : Commit := ⟨lastCommitIndex + 1, lastCommitDigest, timestampMs,
    leaderBlock.reference, toCommit.map Block.reference⟩
  let commit : TrustedCommit := ⟨commit, digest commit⟩
  pure (⟨leaderBlock.reference, toCommit, timestampMs, ⟨commit.inner.index, commit.digest⟩⟩,
    commit, s)

/-- One leader of `handle_commit`: its sub-dag, and its commit added to the
DAG state. -/
def commitLeader (acc : List CommittedSubDag × DagState) (leaderBlock : Block) :
    Except LinearizerPanic (List CommittedSubDag × DagState) := do
  let (subDag, commit, s) ← collectSubDagAndCommit digest leaderBlock acc.2
  match s.addCommit commit with
  | some s => pure (acc.1 ++ [subDag], s)
  | none => throw .addCommit

/-- `Linearizer::handle_commit`: the sub-dags of the committed leaders, in
order. -/
def handleCommit (committedLeaders : List Block) (s : DagState) :
    Except LinearizerPanic (List CommittedSubDag × DagState) :=
  committedLeaders.foldlM (commitLeader digest) ([], s)

/-! ## What a sub-dag collects -/

/-- The blocks a sub-dag of `leader` collects: those reachable from it
through ancestors above `gcRound` that are cached and not in `committed`. -/
inductive SubDagReach (s : DagState) (gcRound : ℕ) (committed : Finset BlockRef) (leader : Block) :
    Block → Prop
  | leader : SubDagReach s gcRound committed leader leader
  | ancestor {b c : Block} : SubDagReach s gcRound committed leader b → c.reference ∈ b.ancestors →
      gcRound < c.round → c.reference ∉ committed → s.getBlock c.reference = some c →
      SubDagReach s gcRound committed leader c

/-- What `linearize_sub_dag` needs of the DAG state for a leader: the leader
is the cached block of its reference and is not committed yet; it and the
cached blocks list distinct ancestors, and those above the GC round are
cached. -/
structure ReadyFor (s : DagState) (leader : Block) : Prop where
  leader_cached : s.getBlock leader.reference = some leader
  leader_uncommitted : s.isCommitted leader.reference = .ok false
  ancestors_nodup : ∀ b, b = leader ∨ b ∈ s.recentBlocks.map (·.block) → b.ancestors.Nodup
  ancestors_cached : ∀ b, b = leader ∨ b ∈ s.recentBlocks.map (·.block) →
    ∀ r ∈ b.ancestors, s.gcRound < r.round → r ∈ s.cachedRefs

open DagState

theorem SubDagReach.eq_leader_or {s : DagState} {gcRound : ℕ} {C : Finset BlockRef} {L b : Block}
    (h : SubDagReach s gcRound C L b) :
    b = L ∨ gcRound < b.round ∧ b.reference ∉ C ∧ s.getBlock b.reference = some b := by
  cases h with
  | leader => exact .inl rfl
  | ancestor _ _ hround hfresh hget => exact .inr ⟨hround, hfresh, hget⟩

section Search

variable {gcRound : ℕ}

theorem subDagSearch_lookup {s : DagState} {r : BlockRef} {b : Block} :
    (subDagSearch gcRound).lookup s r = .ok b ↔ s.getBlock r = some b := by
  simp only [subDagSearch]
  split <;> simp_all [pure, Except.pure, throw, throwThe, MonadExceptOf.throw]

/-- The store hypotheses of `Dfs.run_spec`, for the committed flags. -/
theorem subDagSearch_frame {s s' : DagState} {r : BlockRef} {newly : Bool}
    (h : (subDagSearch gcRound).mark s r = .ok (newly, s')) :
    s'.cachedRefs = s.cachedRefs ∧ (subDagSearch gcRound).lookup s' = (subDagSearch gcRound).lookup s := by
  have hsame := (setCommitted_frame h).1
  refine ⟨hsame.cachedRefs_eq, ?_⟩
  funext ancestor
  simp only [subDagSearch, hsame.getBlock_eq]

/-- The marks of the search change only committed flags. -/
theorem sameBlocks_of_marks {s s' : DagState}
    (h : Relation.ReflTransGen (subDagSearch gcRound).MarkStep s s') :
    SameBlocks s s' ∧ s'.lastCommit = s.lastCommit :=
  sameBlocks_of_reflTransGen (fun _ _ ⟨_, _, hr⟩ => setCommitted_frame hr) h

/-- The search and the specification agree on what is reachable, the
leader's own mark aside. -/
theorem reaches_iff {st₀ s : DagState} (hget : st₀.getBlock = s.getBlock) {C : Finset BlockRef}
    {L b : Block} (hL : s.getBlock L.reference = some L) :
    (subDagSearch gcRound).Reaches st₀ (insert L.reference C) L b ↔ SubDagReach s gcRound C L b := by
  constructor
  · intro h
    induction h with
    | root => exact .leader
    | step _ hk hfollow hfresh hlookup ih =>
      rw [subDagSearch_lookup, hget] at hlookup
      obtain rfl := getBlock_reference_eq hlookup
      exact .ancestor ih hk (of_decide_eq_true hfollow) (fun h => hfresh (Finset.mem_insert_of_mem h))
        hlookup
  · intro h
    induction h with
    | leader => exact .root
    | @ancestor b c _ hc hround hfresh hget' ih =>
      by_cases hcL : c.reference = L.reference
      · -- back at the leader
        rw [hcL, hL] at hget'
        cases hget'
        exact .root
      · refine .step ih hc (decide_eq_true hround) ?_ (subDagSearch_lookup.mpr (hget ▸ hget'))
        rw [Finset.mem_insert, not_or]
        exact ⟨hcL, hfresh⟩

end Search

/-- **The sub-dag of one leader.** On a state ready for it, `linearize_sub_dag`
collects, once each, exactly the blocks reachable from the leader through
uncommitted cached ancestors above the GC round, and marks them committed;
it fails only when the leader itself lies at or below the GC round. -/
theorem linearizeSubDag_spec {s : DagState} {L : Block} (hready : ReadyFor s L) :
    ∃ toCommit s',
      linearizeSubDag L s = (if s.gcRound < L.round then .ok (sortSubDagBlocks toCommit, s')
        else .error (.belowGcRound s.gcRound)) ∧
      (∀ b, b ∈ toCommit ↔ SubDagReach s s.gcRound s.committedRefs L b) ∧
      (toCommit.map Block.reference).Nodup ∧
      s'.committedRefs = s.committedRefs ∪ (toCommit.map Block.reference).toFinset ∧
      SameBlocks s s' ∧ s'.lastCommit = s.lastCommit := by
  obtain ⟨hcached, hfresh⟩ := isCommitted_eq_ok_false hready.leader_uncommitted
  obtain ⟨st₀, hset, hM₀⟩ := setCommitted_spec hcached
  obtain ⟨hsame₀, hlast₀⟩ := setCommitted_frame hset
  have hget₀ := hsame₀.getBlock_eq
  -- the followed ancestors of a reachable block are cached, once each
  have hsucc : ∀ a, (subDagSearch s.gcRound).Reaches st₀ st₀.committedRefs L a →
      a.ancestors.Nodup ∧ ∀ k ∈ a.ancestors, decide (s.gcRound < k.round) = true →
        k ∈ st₀.cachedRefs ∧
          (k ∉ st₀.committedRefs → ∃ b, (subDagSearch s.gcRound).lookup st₀ k = .ok b) := by
    intro a ha
    rw [hM₀] at ha
    have hmem : a = L ∨ a ∈ s.recentBlocks.map (·.block) := by
      rcases ((reaches_iff hget₀ hready.leader_cached).mp ha).eq_leader_or with h | ⟨hround, -, hget⟩
      · exact .inl h
      · exact .inr (mem_recent_of_getBlock hget (by rw [Block.reference_round, genesisRound]; omega))
    refine ⟨hready.ancestors_nodup a hmem, fun k hk hfollow => ?_⟩
    have hround := of_decide_eq_true hfollow
    have hk' := hready.ancestors_cached a hmem k hk hround
    refine ⟨hsame₀.cachedRefs_eq ▸ hk', fun _ => ?_⟩
    obtain ⟨b, hb, -⟩ := getBlock_of_mem_cachedRefs hk' (by rw [genesisRound]; omega)
    exact ⟨b, subDagSearch_lookup.mpr (hget₀ ▸ hb)⟩
  have hfuel : st₀.cachedRefs.card + 1 ≤ st₀.recentBlocks.length + 1 := by
    have := List.toFinset_card_le (st₀.recentBlocks.map (·.block.reference))
    rw [List.length_map] at this
    simp only [cachedRefs]
    omega
  obtain ⟨P, st, hrun, hP, hnd, hM, hsteps⟩ := Dfs.run_spec (S := subDagSearch s.gcRound)
    DagState.cachedRefs DagState.committedRefs (fun st k hk => isCommitted_eq hk)
    (fun st k hk => setCommitted_spec hk) (fun st k newly st' h => subDagSearch_frame h)
    (fun st k b h => getBlock_reference_eq (subDagSearch_lookup.mp h)) hsucc
    (by rw [hM₀]; exact Finset.mem_insert_self _ _) hfuel
  have hP' : ∀ b, b ∈ P ↔ SubDagReach s s.gcRound s.committedRefs L b := fun b => by
    rw [hP, hM₀]
    exact reaches_iff hget₀ hready.leader_cached
  have hL : L ∈ P := (hP' L).mpr .leader
  -- every collected block but the leader lies above the GC round
  have hall : (P.all fun block => decide (s.gcRound < block.round)) = decide (s.gcRound < L.round) := by
    rw [Bool.eq_iff_iff, List.all_eq_true, decide_eq_true_iff]
    refine ⟨fun h => of_decide_eq_true (h L hL), fun hL' b hb => ?_⟩
    rcases ((hP' b).mp hb).eq_leader_or with rfl | ⟨hround, -⟩
    · exact decide_eq_true hL'
    · exact decide_eq_true hround
  obtain ⟨hsame, hlast⟩ := sameBlocks_of_marks hsteps
  refine ⟨P, st, ?_, hP', hnd, ?_, hsame₀.trans hsame, hlast.trans hlast₀⟩
  · simp only [linearizeSubDag, hset, hrun, hall, decide_eq_true hfresh, bind, Except.bind,
      Bool.not_true]
    by_cases hround : s.gcRound < L.round <;> simp [hround, pure, Except.pure, throw, throwThe,
      MonadExceptOf.throw]
  · rw [hM, hM₀, Finset.insert_union]
    refine Finset.insert_eq_of_mem (Finset.mem_union_right _ ?_)
    exact List.mem_toFinset.mpr (List.mem_map_of_mem hL)

/-! ## Sorting, timestamps and the commit -/

theorem sortSubDagBlocks_sorted (blocks : List Block) :
    (sortSubDagBlocks blocks).Pairwise RoundAuthorLe :=
  List.pairwise_insertionSort RoundAuthorLe blocks

theorem sortSubDagBlocks_perm (blocks : List Block) : (sortSubDagBlocks blocks).Perm blocks :=
  List.perm_insertionSort RoundAuthorLe blocks

/-- The parents `calculate_commit_timestamp` reads are found, or it fails
on the `expect`. -/
theorem expectParents_error {l : List (Option Block)} {e : LinearizerPanic}
    (h : l.mapM (fun block => match block with
      | some block => (pure block : Except LinearizerPanic Block)
      | none => (throw LinearizerPanic.missingParentBlock : Except LinearizerPanic Block)) =
        .error e) :
    e = .missingParentBlock := by
  obtain ⟨block, -, hblock⟩ := OptionList.exists_of_mapM_eq_error h
  cases block with
  | none => exact (Except.error.inj hblock).symm
  | some block => cases hblock

/-- `calculate_commit_timestamp` is never earlier than the last commit's,
and it fails only on a missing parent or the median. -/
theorem calculateCommitTimestamp_spec {s : DagState} {L : Block} {last : ℕ} :
    (∀ e, calculateCommitTimestamp s L last = .error e → e.committedTwice = false) ∧
      ∀ t, calculateCommitTimestamp s L last = .ok t → last ≤ t := by
  unfold calculateCommitTimestamp
  simp only [bind, Except.bind]
  split
  · rename_i e hparents
    rw [expectParents_error hparents]
    exact ⟨(fun e' h => by cases h; rfl), (fun t h => by cases h)⟩
  · split
    · exact ⟨(fun e h => by cases h), (fun t h => by cases h; exact le_max_right _ _)⟩
    · exact ⟨(fun e h => by cases h; rfl), (fun t h => by cases h)⟩

/-- The next commit, in index and timestamp, is added. -/
theorem addCommit_next {s : DagState} {commit : TrustedCommit}
    (hindex : commit.inner.index = s.lastCommitIndex + 1)
    (hts : s.lastCommitTimestampMs ≤ commit.inner.timestampMs) :
    s.addCommit commit = some { s with lastCommit := some commit } := by
  unfold addCommit
  cases hlc : s.lastCommit with
  | none =>
    simp only [lastCommitIndex, hlc] at hindex
    simp [hindex]
  | some lc =>
    simp only [lastCommitIndex, lastCommitTimestampMs, hlc] at hindex hts
    dsimp only
    rw [if_neg (by omega), if_neg (by omega), if_neg (by omega)]

theorem SubDagReach.of_getBlock_eq {s s' : DagState} {gcRound : ℕ} {C : Finset BlockRef}
    {L b : Block} (hget : s'.getBlock = s.getBlock) (h : SubDagReach s gcRound C L b) :
    SubDagReach s' gcRound C L b := by
  induction h with
  | leader => exact .leader
  | ancestor _ hc hround hfresh hb ih => exact .ancestor ih hc hround hfresh (hget ▸ hb)

/-- What the commit of one leader yields from `s`: a sub-dag of what
`SubDagReach` collects, sorted and once each, under the next index and a
timestamp no earlier than the last commit's; the state marks it committed. -/
structure CommitsLeader (s : DagState) (L : Block) (subDag : CommittedSubDag)
    (commit : TrustedCommit) (s' : DagState) : Prop where
  leader_eq : subDag.leader = L.reference
  blocks_iff : ∀ b, b ∈ subDag.blocks ↔ SubDagReach s s.gcRound s.committedRefs L b
  refs_nodup : (subDag.blocks.map Block.reference).Nodup
  sorted : subDag.blocks.Pairwise RoundAuthorLe
  index_eq : subDag.commitRef.index = s.lastCommitIndex + 1
  timestamp_ge : s.lastCommitTimestampMs ≤ subDag.timestampMs
  commit_index : commit.inner.index = s.lastCommitIndex + 1
  commit_timestamp : commit.inner.timestampMs = subDag.timestampMs
  commit_leader : commit.inner.leader = L.reference
  committed_eq : s'.committedRefs = s.committedRefs ∪ (subDag.blocks.map Block.reference).toFinset
  same : SameBlocks s s'
  lastCommit_eq : s'.lastCommit = s.lastCommit

/-- **The commit of one leader** on a state ready for it: it fails only on
a leader at or below the GC round, a missing parent or the median, and
otherwise yields its sub-dag and commit. -/
theorem collectSubDagAndCommit_spec {s : DagState} {L : Block} (hready : ReadyFor s L) :
    (∀ e, collectSubDagAndCommit digest L s = .error e → e.committedTwice = false) ∧
      ∀ subDag commit s', collectSubDagAndCommit digest L s = .ok (subDag, commit, s') →
        CommitsLeader s L subDag commit s' := by
  obtain ⟨toCommit, s₁, hlin, hmem, hnd, hcommitted, hsame, hlast⟩ := linearizeSubDag_spec hready
  obtain ⟨herr, hge⟩ := @calculateCommitTimestamp_spec s₁ L s.lastCommitTimestampMs
  by_cases hround : s.gcRound < L.round
  · rw [if_pos hround] at hlin
    cases ht : calculateCommitTimestamp s₁ L s.lastCommitTimestampMs with
    | error e =>
      have hres : collectSubDagAndCommit digest L s = .error e := by
        simp only [collectSubDagAndCommit, hlin, ht, bind, Except.bind]
      refine ⟨fun e' h => ?_, fun _ _ _ h => by rw [hres] at h; cases h⟩
      rw [hres] at h
      cases h
      exact herr e ht
    | ok t =>
      refine ⟨fun e h => ?_, fun subDag commit s' h => ?_⟩
      · simp only [collectSubDagAndCommit, hlin, ht, bind, Except.bind, pure, Except.pure] at h
        cases h
      · simp only [collectSubDagAndCommit, hlin, ht, bind, Except.bind, pure, Except.pure,
          Except.ok.injEq, Prod.mk.injEq] at h
        obtain ⟨rfl, rfl, rfl⟩ := h
        have hperm := sortSubDagBlocks_perm toCommit
        exact ⟨rfl, fun b => hperm.mem_iff.trans (hmem b), (hperm.map _).nodup_iff.mpr hnd,
          sortSubDagBlocks_sorted toCommit, rfl, hge t ht, rfl, rfl, rfl,
          by rw [hcommitted, List.toFinset_eq_of_perm _ _ (hperm.map _)], hsame, hlast⟩
  · rw [if_neg hround] at hlin
    refine ⟨fun e h => ?_, fun _ _ _ h => ?_⟩
    · simp only [collectSubDagAndCommit, hlin, bind, Except.bind] at h
      cases h
      rfl
    · simp only [collectSubDagAndCommit, hlin, bind, Except.bind] at h
      cases h

/-! ## The stake median -/

section Median

open WeightedScan

/-- The loop of `median_timestamps_by_stake_inner` is the weighted scan for
more than half the stake. -/
theorem medianLoop_eq_firstReach (totalStake last : ℕ) :
    ∀ (timestamps : List (ℕ × ℕ)) (cumulativeStake : ℕ),
      medianLoop totalStake last timestamps cumulativeStake =
        (firstReach (totalStake / 2 + 1) timestamps cumulativeStake).getD last
  | [], _ => rfl
  | (timestampMs, stake) :: timestamps, cumulativeStake => by
    simp only [medianLoop, firstReach]
    by_cases h : totalStake / 2 < cumulativeStake + stake
    · rw [if_pos h, if_pos (by omega), Option.getD_some]
    · rw [if_neg h, if_neg (by omega)]
      exact medianLoop_eq_firstReach totalStake last timestamps (cumulativeStake + stake)

/-- With positive total stake, the median is a timestamp of the list with at
most half the stake strictly earlier and more than half at or before it. -/
theorem medianTimestampsByStakeInner_quantile {timestamps : List (ℕ × ℕ)}
    (hpos : 0 < (timestamps.map Prod.snd).sum) :
    let totalStake := (timestamps.map Prod.snd).sum
    let t := medianTimestampsByStakeInner timestamps totalStake
    t ∈ timestamps.map Prod.fst ∧
      weight (fun x => decide (x < t)) timestamps < totalStake / 2 + 1 ∧
      totalStake / 2 + 1 ≤ weight (fun x => decide (x ≤ t)) timestamps := by
  intro totalStake t
  set sorted := timestamps.insertionSort fun a b => a.1 ≤ b.1 with hsorted_def
  have hperm : sorted.Perm timestamps := List.perm_insertionSort _ timestamps
  have hsorted : sorted.Pairwise fun a b => a.1 ≤ b.1 :=
    pairwise_insertionSort_key Prod.fst timestamps
  have hsum : (sorted.map Prod.snd).sum = totalStake := (hperm.map _).sum_eq
  -- more than half of a positive total is reached within the list
  obtain ⟨k, hk⟩ := firstReach_isSome (t := totalStake / 2 + 1) (l := sorted)
    (show 0 < totalStake / 2 + 1 by omega) (by omega)
  have ht : t = k := by
    change medianLoop totalStake _ sorted 0 = k
    rw [medianLoop_eq_firstReach, hk, Option.getD_some]
  obtain ⟨hmem, hbelow, hatMost⟩ := firstReach_spec hsorted (by omega) hk
  rw [ht, ← weight_perm _ hperm, ← weight_perm _ hperm]
  exact ⟨(hperm.map _).mem_iff.mp hmem, by omega, by omega⟩

/-- **The stake-weighted median.** For a list of timestamps with positive
total stake, `median_timestamps_by_stake_inner` returns a timestamp of the
list with at most half the stake (rounded down) strictly earlier and more
than half at or before it; it lies within every range that holds the
timestamps, and any reordering of the list gives the same timestamp. -/
theorem medianTimestamps_weighted_median (timestamps : List (ℕ × ℕ))
    (hpos : 0 < (timestamps.map Prod.snd).sum) :
    let totalStake := (timestamps.map Prod.snd).sum
    let t := medianTimestampsByStakeInner timestamps totalStake
    t ∈ timestamps.map Prod.fst ∧
      weight (fun x => decide (x < t)) timestamps ≤ totalStake / 2 ∧
      totalStake / 2 < weight (fun x => decide (x ≤ t)) timestamps ∧
      (∀ lo hi, (∀ e ∈ timestamps, lo ≤ e.1 ∧ e.1 ≤ hi) → lo ≤ t ∧ t ≤ hi) ∧
      ∀ timestamps' : List (ℕ × ℕ), timestamps'.Perm timestamps →
        medianTimestampsByStakeInner timestamps' totalStake = t := by
  dsimp only
  obtain ⟨hmem, hbelow, hatMost⟩ := medianTimestampsByStakeInner_quantile hpos
  refine ⟨hmem, by omega, by omega, fun lo hi hbounds => ?_, fun timestamps' hperm => ?_⟩
  · obtain ⟨e, he, hte⟩ := List.mem_map.mp hmem
    rw [← hte]
    exact hbounds e he
  · -- a reordering has the same total, and its median the same quantile bounds
    have hsum : (timestamps'.map Prod.snd).sum = (timestamps.map Prod.snd).sum :=
      (hperm.map _).sum_eq
    obtain ⟨-, hbelow', hatMost'⟩ := medianTimestampsByStakeInner_quantile (hsum ▸ hpos)
    rw [hsum, weight_perm _ hperm] at hbelow' hatMost'
    exact eq_of_quantile ⟨hbelow', hatMost'⟩ ⟨hbelow, hatMost⟩

/-- Two blocks, at 5 ms with stake 1 and at 3 ms with stake 2: the median is
3 ms, whichever block comes first. -/
theorem medianTimestamps_of_two_blocks :
    0 < ([(5, 1), (3, 2)].map Prod.snd).sum ∧
      medianTimestampsByStakeInner [(5, 1), (3, 2)] 3 = 3 ∧
      medianTimestampsByStakeInner [(3, 2), (5, 1)] 3 = 3 := by
  have h := medianTimestamps_weighted_median [(5, 1), (3, 2)] (by decide)
  have hmedian : medianTimestampsByStakeInner [(5, 1), (3, 2)] 3 = 3 := by decide
  exact ⟨by decide, hmedian, (h.2.2.2.2 [(3, 2), (5, 1)] (List.Perm.swap _ _ _)).trans hmedian⟩

end Median

/-! ## The sequence of leaders -/

/-- The GC round `linearize_sub_dag` reads for the `i`-th of `leaders`: that
of the last commit before it, the state's own or the previous leader's. -/
def gcRoundAt (s : DagState) (leaders : List Block) (i : ℕ) : ℕ :=
  (((leaders.take i).getLast?.map (·.round)).getD s.lastCommitRound) -
    s.context.protocolConfig.gcDepth

/-- The references of the blocks of the first `i` sub-dags. -/
def committedBefore (subDags : List CommittedSubDag) (i : ℕ) : Finset BlockRef :=
  (((subDags.take i).flatMap (·.blocks)).map Block.reference).toFinset

/-- What `handle_commit` outputs for `leaders` from `s`: one sub-dag per
leader, in order; the `i`-th collects exactly what is reachable from its
leader through ancestors above the GC round of that turn that were committed
neither in `s` nor in an earlier sub-dag, the leader included; no block
twice, within a sub-dag or across two; each sorted by round and author;
consecutive indices after the last commit's; timestamps that never go
back. -/
structure Linearized (s : DagState) (leaders : List Block) (subDags : List CommittedSubDag) :
    Prop where
  leaders_eq : subDags.map (·.leader) = leaders.map Block.reference
  blocks_iff : ∀ (i : ℕ) (L : Block) (subDag : CommittedSubDag),
    leaders[i]? = some L → subDags[i]? = some subDag → ∀ b,
    b ∈ subDag.blocks ↔
      SubDagReach s (gcRoundAt s leaders i) (s.committedRefs ∪ committedBefore subDags i) L b
  leader_mem : ∀ (i : ℕ) (L : Block) (subDag : CommittedSubDag),
    leaders[i]? = some L → subDags[i]? = some subDag → L ∈ subDag.blocks
  refs_nodup : ∀ subDag ∈ subDags, (subDag.blocks.map Block.reference).Nodup
  disjoint : subDags.Pairwise fun a b => ∀ x ∈ a.blocks, ∀ y ∈ b.blocks, x.reference ≠ y.reference
  sorted : ∀ subDag ∈ subDags, subDag.blocks.Pairwise RoundAuthorLe
  indices_eq : subDags.map (·.commitRef.index) = List.range' (s.lastCommitIndex + 1) subDags.length
  timestamps_mono : (s.lastCommitTimestampMs :: subDags.map (·.timestampMs)).Pairwise (· ≤ ·)

/-- The DAG state after `handle_commit`: the same blocks, with the sub-dags
marked committed, and the last leader's commit as the last commit. -/
structure RunState (s : DagState) (leaders : List Block) (subDags : List CommittedSubDag)
    (s' : DagState) : Prop where
  same : SameBlocks s s'
  committed_eq : s'.committedRefs = s.committedRefs ∪ committedBefore subDags subDags.length
  lastCommitIndex_eq : s'.lastCommitIndex = s.lastCommitIndex + leaders.length
  lastCommitRound_eq : s'.lastCommitRound = (leaders.getLast?.map (·.round)).getD s.lastCommitRound
  lastCommitTimestampMs_eq :
    s'.lastCommitTimestampMs = ((subDags.map (·.timestampMs)).getLast?).getD s.lastCommitTimestampMs

theorem handleCommit_concat (l : List Block) (L : Block) (s : DagState) :
    handleCommit digest (l ++ [L]) s = handleCommit digest l s >>= fun acc => commitLeader digest acc L := by
  simp only [handleCommit, List.foldlM_append, List.foldlM_cons, List.foldlM_nil, bind_pure]

/-- Every element of a non-decreasing list is at most its last. -/
theorem le_getLast_of_pairwise :
    ∀ {t₀ : ℕ} {ts : List ℕ}, (t₀ :: ts).Pairwise (· ≤ ·) → ∀ a ∈ t₀ :: ts, a ≤ ts.getLast?.getD t₀
  | t₀, [], _, a, ha => by
    rw [List.mem_singleton] at ha
    simp [ha]
  | t₀, x :: xs, h, a, ha => by
    rw [List.pairwise_cons] at h
    have ih := le_getLast_of_pairwise h.2
    rw [List.getLast?_cons, Option.getD_some]
    rcases List.mem_cons.mp ha with rfl | ha
    · exact (h.1 x List.mem_cons_self).trans (ih x List.mem_cons_self)
    · exact ih a ha

theorem mem_committedBefore {subDags : List CommittedSubDag} {i : ℕ} {r : BlockRef} :
    r ∈ committedBefore subDags i ↔ ∃ subDag ∈ subDags.take i, ∃ b ∈ subDag.blocks, b.reference = r := by
  simp only [committedBefore, List.mem_toFinset, List.mem_map, List.mem_flatMap]
  constructor
  · rintro ⟨b, ⟨subDag, hsd, hb⟩, rfl⟩
    exact ⟨subDag, hsd, b, hb, rfl⟩
  · rintro ⟨subDag, hsd, b, hb, rfl⟩
    exact ⟨b, ⟨subDag, hsd, hb⟩, rfl⟩

theorem committedBefore_concat_of_le {subDags : List CommittedSubDag} {subDag : CommittedSubDag}
    {i : ℕ} (hi : i ≤ subDags.length) :
    committedBefore (subDags ++ [subDag]) i = committedBefore subDags i := by
  rw [committedBefore, committedBefore, List.take_append_of_le_length hi]

theorem committedBefore_concat (subDags : List CommittedSubDag) (subDag : CommittedSubDag) :
    committedBefore (subDags ++ [subDag]) (subDags ++ [subDag]).length =
      committedBefore subDags subDags.length ∪ (subDag.blocks.map Block.reference).toFinset := by
  simp only [committedBefore, List.take_length, List.flatMap_append, List.map_append,
    List.toFinset_append, List.flatMap_singleton]

theorem gcRoundAt_concat_of_le {s : DagState} {l : List Block} {L : Block} {i : ℕ}
    (hi : i ≤ l.length) : gcRoundAt s (l ++ [L]) i = gcRoundAt s l i := by
  rw [gcRoundAt, gcRoundAt, List.take_append_of_le_length hi]

theorem linearized_nil (s : DagState) : Linearized s [] [] where
  leaders_eq := rfl
  blocks_iff i L subDag hL := by simp at hL
  leader_mem i L subDag hL := by simp at hL
  refs_nodup subDag h := by simp at h
  disjoint := List.Pairwise.nil
  sorted subDag h := by simp at h
  indices_eq := rfl
  timestamps_mono := List.pairwise_singleton _ _

theorem runState_nil (s : DagState) : RunState s [] [] s where
  same := .refl s
  committed_eq := by simp [committedBefore]
  lastCommitIndex_eq := rfl
  lastCommitRound_eq := rfl
  lastCommitTimestampMs_eq := rfl

section Concat

variable {s sₗ s₁ : DagState} {l : List Block} {L : Block} {subDags : List CommittedSubDag}
  {subDag : CommittedSubDag} {commit : TrustedCommit}

/-- Where the previous leaders left the state: its GC round and committed
blocks are those `Linearized` reads for the next turn. -/
theorem RunState.gcRound_eq (hrun : RunState s l subDags sₗ) :
    sₗ.gcRound = gcRoundAt s l l.length := by
  rw [gcRound, gcRoundAt, List.take_length, hrun.lastCommitRound_eq, hrun.same.context_eq]

theorem Linearized.length_eq (hlin : Linearized s l subDags) : subDags.length = l.length := by
  simpa using congrArg List.length hlin.leaders_eq

/-- The blocks of a sub-dag committed after the earlier ones share no
reference with them. -/
theorem CommitsLeader.fresh (hready : ReadyFor sₗ L) (hC : CommitsLeader sₗ L subDag commit s₁)
    {y : Block} (hy : y ∈ subDag.blocks) : y.reference ∉ sₗ.committedRefs := by
  rcases ((hC.blocks_iff y).mp hy).eq_leader_or with rfl | ⟨-, hfresh, -⟩
  · exact (isCommitted_eq_ok_false hready.leader_uncommitted).2
  · exact hfresh

/-- **One more leader** keeps the output what `Linearized` says. -/
theorem Linearized.concat (hlin : Linearized s l subDags) (hrun : RunState s l subDags sₗ)
    (hready : ReadyFor sₗ L) (hC : CommitsLeader sₗ L subDag commit s₁) :
    Linearized s (l ++ [L]) (subDags ++ [subDag]) := by
  have hlen := hlin.length_eq
  have hget := hrun.same.getBlock_eq
  have hblocks : ∀ (i : ℕ) (L' : Block) (subDag' : CommittedSubDag),
      (l ++ [L])[i]? = some L' → (subDags ++ [subDag])[i]? = some subDag' →
      ∀ b, b ∈ subDag'.blocks ↔ SubDagReach s (gcRoundAt s (l ++ [L]) i)
        (s.committedRefs ∪ committedBefore (subDags ++ [subDag]) i) L' b := by
    intro i L' subDag' hL' hsd' b
    rcases Nat.lt_trichotomy i l.length with hi | rfl | hi
    · -- an earlier leader
      rw [List.getElem?_append_left hi] at hL'
      rw [List.getElem?_append_left (hlen ▸ hi)] at hsd'
      rw [gcRoundAt_concat_of_le hi.le, committedBefore_concat_of_le (hlen ▸ hi.le)]
      exact hlin.blocks_iff i L' subDag' hL' hsd' b
    · -- this leader, on the state the earlier ones left
      rw [List.getElem?_concat_length, Option.some.injEq] at hL'
      rw [← hlen, List.getElem?_concat_length, Option.some.injEq] at hsd'
      subst hL' hsd'
      rw [gcRoundAt_concat_of_le le_rfl, ← hrun.gcRound_eq,
        committedBefore_concat_of_le (le_of_eq hlen.symm), ← hlen, ← hrun.committed_eq, hC.blocks_iff]
      exact ⟨SubDagReach.of_getBlock_eq hget.symm, SubDagReach.of_getBlock_eq hget⟩
    · rw [List.getElem?_eq_none (by simp; omega)] at hL'
      cases hL'
  refine ⟨?_, hblocks, fun i L' subDag' hL' hsd' => (hblocks i L' subDag' hL' hsd' L').mpr .leader,
    fun subDag' h => ?_, ?_, fun subDag' h => ?_, ?_, ?_⟩
  · rw [List.map_append, List.map_append, hlin.leaders_eq, List.map_singleton, List.map_singleton,
      hC.leader_eq]
  · rcases List.mem_append.mp h with h | h
    · exact hlin.refs_nodup subDag' h
    · rw [List.mem_singleton.mp h]
      exact hC.refs_nodup
  · -- the new sub-dag avoids everything committed before it
    refine List.pairwise_append.mpr ⟨hlin.disjoint, List.pairwise_singleton _ _, ?_⟩
    intro a ha b hb x hx y hy hxy
    rw [List.mem_singleton.mp hb] at hy
    refine hC.fresh hready hy ?_
    rw [← hxy, hrun.committed_eq]
    refine Finset.mem_union_right _ (mem_committedBefore.mpr ⟨a, ?_, x, hx, rfl⟩)
    rwa [List.take_length]
  · rcases List.mem_append.mp h with h | h
    · exact hlin.sorted subDag' h
    · rw [List.mem_singleton.mp h]
      exact hC.sorted
  · rw [List.map_append, hlin.indices_eq, List.map_singleton, hC.index_eq, hrun.lastCommitIndex_eq,
      List.length_append, List.length_singleton, List.range'_concat, hlen]
    congr 2
    omega
  · -- the new timestamp is at least the last one
    rw [List.map_append, ← List.cons_append, List.pairwise_append]
    refine ⟨hlin.timestamps_mono, List.pairwise_singleton _ _, fun a ha b hb => ?_⟩
    rw [List.mem_singleton.mp hb]
    calc a ≤ ((subDags.map (·.timestampMs)).getLast?).getD s.lastCommitTimestampMs :=
          le_getLast_of_pairwise hlin.timestamps_mono a ha
      _ = sₗ.lastCommitTimestampMs := hrun.lastCommitTimestampMs_eq.symm
      _ ≤ subDag.timestampMs := hC.timestamp_ge

/-- One more leader moves the state on by its commit. -/
theorem RunState.concat (hrun : RunState s l subDags sₗ) (hC : CommitsLeader sₗ L subDag commit s₁) :
    RunState s (l ++ [L]) (subDags ++ [subDag]) { s₁ with lastCommit := some commit } where
  same := hrun.same.trans (hC.same.trans ⟨rfl, rfl, rfl⟩)
  committed_eq := by
    show s₁.committedRefs = _
    rw [hC.committed_eq, hrun.committed_eq, committedBefore_concat, Finset.union_assoc]
  lastCommitIndex_eq := by
    show commit.inner.index = _
    rw [hC.commit_index, hrun.lastCommitIndex_eq, List.length_append, List.length_singleton]
    omega
  lastCommitRound_eq := by
    show commit.inner.leader.round = _
    simp [hC.commit_leader]
  lastCommitTimestampMs_eq := by
    show commit.inner.timestampMs = _
    simp [hC.commit_timestamp]

end Concat

end Linearizer

end Sui
