import Mathlib.Data.List.ReduceOption
import Mathlib.Data.Prod.Lex
import Sui.Dfs
import Sui.SortedMap
import Sui.Consensus.PendingCommitState
import Sui.Consensus.LeaderSlotDecider

/-!
# Building a commit of several leaders (`flex_committer.rs`)

`FlexCommitter::build_commit` commits every committed leader of a fully
decided round at once. It marks the leaders committed, asserting that none
was committed before, and searches depth-first from all of them, an instance
of `Dfs.Search.runFresh`: the ancestors above the GC round that are not
committed yet are marked committed and collected, an ancestor met twice is
skipped. The collected blocks are sorted by round and then by a hash of a
seed drawn from the leaders and of the block's digest; the last of them is
the commit's named leader, which must lie in the commit round.

On a DAG state whose ancestors lie in lower rounds and are cached above the
GC round, the commit holds exactly what is reachable from the leaders
through uncommitted ancestors above the GC round (`CommitReach`), once each,
and the named leader is a leader of the round (`buildCommit_spec`). What is
only reachable through a committed block is not collected.

`calculate_commit_timestamp` takes the stake median of the leaders' own
timestamps when their stake reaches the certification threshold, and the
median asks for a quorum. On a committee whose certification threshold lies
below its quorum threshold, leaders holding stake between the two make it
panic.

The hash is a parameter, as are the commit digest and the shuffle of the
allowed leaders; the metrics and the log lines are not modelled.
-/

namespace Sui

namespace FlexCommitter

open DagState Linearizer

/-! ## The sub-dag of the committed leaders -/

/-- The search of `build_commit`: from the leaders through their ancestors
above the GC round, with the committed flags of the DAG state as marks. -/
def commitSearch (gcRound : ℕ) : Dfs.Search DagState Block BlockRef FlexCommitterPanic where
  key := Block.reference
  succ := Block.ancestors
  follow ancestor := decide (gcRound < ancestor.round)
  isMarked s ancestor := (s.isCommitted ancestor).mapError .dagState
  mark s ancestor := (s.setCommitted ancestor).mapError .dagState
  lookup s ancestor :=
    match s.getBlock ancestor with
    | some block => pure block
    | none => throw (.missingBlock ancestor)
  markedTwice := .leaderCommittedTwice
  outOfFuel := .outOfFuel

variable (hash : List ℕ → ℕ)

/-- `compute_sort_seed`: the hash of the digests of the committed leaders,
in order. -/
def computeSortSeed (committedLeaders : List Block) : ℕ := hash (committedLeaders.map (·.digest))

/-- `block_sort_key`: the round, then the hash of the seed and the block's
digest. -/
def blockSortKey (seed : ℕ) (blockRef : BlockRef) : ℕ ×ₗ ℕ :=
  toLex (blockRef.round, hash [seed, blockRef.digest])

/-- The order of `sort_committed_blocks`. -/
def SortKeyLe (seed : ℕ) (a b : Block) : Prop :=
  blockSortKey hash seed a.reference ≤ blockSortKey hash seed b.reference

instance (seed : ℕ) : DecidableRel (SortKeyLe hash seed) :=
  fun _ _ => inferInstanceAs (Decidable (_ ≤ _))

instance (seed : ℕ) : Std.Total (SortKeyLe hash seed) := ⟨fun _ _ => le_total _ _⟩

instance (seed : ℕ) : IsTrans Block (SortKeyLe hash seed) := ⟨fun _ _ _ => le_trans⟩

/-- `sort_committed_blocks`: `sort_by_cached_key` is stable, as insertion
sort is. -/
def sortCommittedBlocks (seed : ℕ) (blocks : List Block) : List Block :=
  blocks.insertionSort (SortKeyLe hash seed)

/-- The parents `calculate_commit_timestamp` reads: the ancestors of the
leaders one round below them, one per author with the last one listed
winning, in author order. -/
def parentRefs (leaderRound : ℕ) (committedLeaders : List Block) : List BlockRef :=
  (SortedMap.ofList (committedLeaders.flatMap fun leader =>
    (leader.ancestors.filter fun ancestor => ancestor.round + 1 = leaderRound).map
      fun ancestor => (ancestor.author, ancestor))).map Prod.snd

/-- The stake median of the timestamps of some blocks, never below the last
commit's. -/
def medianOrPanic (s : DagState) (blocks : List Block) : Except FlexCommitterPanic ℕ :=
  match medianTimestampByStake s.context.committee blocks with
  | .ok timestampMs => pure (max timestampMs s.lastCommitTimestampMs)
  | .error e => throw (.commitTimestamp e)

/-- `calculate_commit_timestamp`: from the leaders when their stake reaches
the certification threshold, from their parents otherwise. -/
def calculateCommitTimestamp (s : DagState) (committedLeaders : List Block) :
    Except FlexCommitterPanic ℕ :=
  match committedLeaders with
  | [] => throw .noLeaderForTimestamp
  | first :: _ =>
    let committee := s.context.committee
    let totalLeaderStake := (committedLeaders.map fun block => committee.stake block.author).sum
    if committee.certificationThreshold ≤ totalLeaderStake then medianOrPanic s committedLeaders
    else do
      let blocks ← (s.getBlocks (parentRefs first.round committedLeaders)).mapM fun block =>
        match block with
        | some block => pure block
        | none => throw .missingParentBlock
      medianOrPanic s blocks

/-- One leader slot of the loop of `build_commit`: the block of a committed
slot, after the checks that the slot is decided and has a decision. -/
def committedBlock (leaderSlot : LeaderSlot) : Except FlexCommitterPanic (Option Block) := do
  let block ← match leaderSlot.leaderStatus with
    | .commit block => pure (some block)
    | .skip _ => pure none
    | .undecided slot => throw (.unexpectedUndecidedSlot slot)
  match leaderSlot.decision with
  | some _ => pure block
  | none => throw .missingDecision

variable (digest : Commit → ℕ)

/-- `FlexCommitter::build_commit`: the commit of the committed leaders of a
round, and the DAG state with its blocks marked committed. The search is
given a round per cached block and per leader. -/
def buildCommit (p : PendingCommitState) (s : DagState) (commitLeaderRound : ℕ) :
    Except FlexCommitterPanic ((TrustedCommit × CommittedSubDag) × DagState) := do
  let roundState ← p.getRoundState commitLeaderRound
  let committedLeaders := (← roundState.leaderSlots.mapM committedBlock).reduceOption
  if committedLeaders.isEmpty then throw .noCommittedLeaders
  let lastCommitDigest := s.lastCommitDigest
  let gcRound := s.gcRound
  let s ← (commitSearch gcRound).markAll committedLeaders s
  let (toCommit, s) ← (commitSearch gcRound).runFresh
    (s.recentBlocks.length + committedLeaders.length) committedLeaders.reverse [] s
  if !toCommit.all fun block => decide (gcRound < block.round) then throw (.belowGcRound gcRound)
  let seed := computeSortSeed hash committedLeaders
  let toCommit := sortCommittedBlocks hash seed toCommit
  let leaderRef ← match toCommit.getLast? with
    | some block => pure block.reference
    | none => throw .emptySubDag
  if leaderRef.round ≠ commitLeaderRound then
    throw (.leaderRound leaderRef.round commitLeaderRound)
  let timestampMs ← calculateCommitTimestamp s committedLeaders
  let commit : Commit := ⟨p.nextCommitLeaders.nextCommitIndex, lastCommitDigest, timestampMs,
    leaderRef, toCommit.map Block.reference⟩
  let trustedCommit : TrustedCommit := ⟨commit, digest commit⟩
  pure ((trustedCommit, ⟨leaderRef, toCommit, timestampMs, ⟨commit.index, trustedCommit.digest⟩⟩),
    s)

/-! ## What the commit collects -/

/-- The blocks the commit of `leaders` collects: the leaders, and what is
reachable from them through ancestors above `gcRound` that are cached and
not in `committed`. -/
inductive CommitReach (s : DagState) (gcRound : ℕ) (committed : Finset BlockRef)
    (leaders : List Block) : Block → Prop
  | leader {b : Block} : b ∈ leaders → CommitReach s gcRound committed leaders b
  | ancestor {b c : Block} : CommitReach s gcRound committed leaders b → c.reference ∈ b.ancestors →
      gcRound < c.round → c.reference ∉ committed → s.getBlock c.reference = some c →
      CommitReach s gcRound committed leaders c

/-- What `build_commit` needs of the DAG state for the committed leaders of
round `r`: the round lies above the GC round; the leaders are distinct cached
blocks of it, not committed yet; they and the cached blocks have their
ancestors in lower rounds, cached above the GC round. -/
structure LeadersReady (s : DagState) (r : ℕ) (leaders : List Block) : Prop where
  gcRound_lt : s.gcRound < r
  leaders_round : ∀ L ∈ leaders, L.round = r
  leaders_nodup : (leaders.map Block.reference).Nodup
  leaders_cached : ∀ L ∈ leaders, s.getBlock L.reference = some L
  leaders_uncommitted : ∀ L ∈ leaders, L.reference ∉ s.committedRefs
  ancestors_lt : ∀ b ∈ leaders ++ s.recentBlocks.map (·.block), ∀ a ∈ b.ancestors, a.round < b.round
  ancestors_cached : ∀ b ∈ leaders ++ s.recentBlocks.map (·.block), ∀ a ∈ b.ancestors,
    s.gcRound < a.round → a ∈ s.cachedRefs

/-- What `build_commit` yields for the committed leaders `leaders` from `s`:
a sub-dag of exactly what `CommitReach` collects, once each, sorted by the
key of the leaders' seed, named after a leader that comes last; the commit
of the schedule's index after the last commit's digest with the timestamp
`t`; the state marks the sub-dag committed and nothing else. -/
structure CommitsLeaders (p : PendingCommitState) (s : DagState) (leaders : List Block) (t : ℕ)
    (commit : TrustedCommit) (subDag : CommittedSubDag) (s' : DagState) : Prop where
  blocks_iff : ∀ b, b ∈ subDag.blocks ↔ CommitReach s s.gcRound s.committedRefs leaders b
  refs_nodup : (subDag.blocks.map Block.reference).Nodup
  sorted : subDag.blocks.Pairwise (SortKeyLe hash (computeSortSeed hash leaders))
  leader_mem : subDag.leader ∈ leaders.map Block.reference
  leader_last : subDag.blocks.getLast?.map Block.reference = some subDag.leader
  timestamp_eq : subDag.timestampMs = t
  commit_index : commit.inner.index = p.nextCommitLeaders.nextCommitIndex
  commit_previous : commit.inner.previousDigest = s.lastCommitDigest
  commit_leader : commit.inner.leader = subDag.leader
  commit_blocks : commit.inner.blocks = subDag.blocks.map Block.reference
  commit_timestamp : commit.inner.timestampMs = t
  committed_eq : s'.committedRefs = s.committedRefs ∪ (subDag.blocks.map Block.reference).toFinset
  same : SameBlocks s s'
  lastCommit_eq : s'.lastCommit = s.lastCommit

section Search

variable {gcRound : ℕ}

theorem commitSearch_lookup {s : DagState} {r : BlockRef} {b : Block} :
    (commitSearch gcRound).lookup s r = .ok b ↔ s.getBlock r = some b := by
  simp only [commitSearch]
  split <;> simp_all [pure, Except.pure, throw, throwThe, MonadExceptOf.throw]

theorem commitSearch_isMarked {s : DagState} {r : BlockRef} (hr : r ∈ s.cachedRefs) :
    (commitSearch gcRound).isMarked s r = .ok (decide (r ∈ s.committedRefs)) := by
  simp only [commitSearch, isCommitted_eq hr, Except.mapError]

theorem commitSearch_mark {s : DagState} {r : BlockRef} (hr : r ∈ s.cachedRefs) :
    ∃ s', (commitSearch gcRound).mark s r = .ok (decide (r ∉ s.committedRefs), s') ∧
      s'.committedRefs = insert r s.committedRefs := by
  obtain ⟨s', hset, hM⟩ := setCommitted_spec hr
  exact ⟨s', by simp only [commitSearch, hset, Except.mapError], hM⟩

/-- A mark of the search is a `set_committed`. -/
theorem setCommitted_of_commitSearch_mark {s s' : DagState} {r : BlockRef} {newly : Bool}
    (h : (commitSearch gcRound).mark s r = .ok (newly, s')) : s.setCommitted r = .ok (newly, s') := by
  simp only [commitSearch] at h
  cases hset : s.setCommitted r with
  | error e => rw [hset] at h; cases h
  | ok v =>
    rw [hset] at h
    simpa [Except.mapError] using h

theorem commitSearch_frame {s s' : DagState} {r : BlockRef} {newly : Bool}
    (h : (commitSearch gcRound).mark s r = .ok (newly, s')) :
    s'.cachedRefs = s.cachedRefs ∧ (commitSearch gcRound).lookup s' = (commitSearch gcRound).lookup s := by
  have hsame := (setCommitted_frame (setCommitted_of_commitSearch_mark h)).1
  refine ⟨hsame.cachedRefs_eq, ?_⟩
  funext ancestor
  simp only [commitSearch, hsame.getBlock_eq]

/-- The marks of the search change only committed flags. -/
theorem sameBlocks_of_commitMarks {s s' : DagState}
    (h : Relation.ReflTransGen (commitSearch gcRound).MarkStep s s') :
    SameBlocks s s' ∧ s'.lastCommit = s.lastCommit :=
  sameBlocks_of_reflTransGen
    (fun _ _ ⟨_, _, hr⟩ => setCommitted_frame (setCommitted_of_commitSearch_mark hr)) h

end Search

section Reach

variable {s : DagState} {r : ℕ} {C : Finset BlockRef} {L : List Block} {b : Block}

theorem CommitReach.mem_or_cached (h : CommitReach s s.gcRound C L b) :
    b ∈ L ∨ s.gcRound < b.round ∧ b.reference ∉ C ∧ s.getBlock b.reference = some b := by
  cases h with
  | leader hb => exact .inl hb
  | ancestor _ _ hround hfresh hget => exact .inr ⟨hround, hfresh, hget⟩

/-- A collected block is a leader, or a cached block above the GC round. -/
theorem CommitReach.mem_blocks (h : CommitReach s s.gcRound C L b) :
    b ∈ L ++ s.recentBlocks.map (·.block) := by
  rw [List.mem_append]
  rcases h.mem_or_cached with hb | ⟨hround, -, hget⟩
  · exact .inl hb
  · exact .inr (mem_recent_of_getBlock hget (by rw [Block.reference_round, genesisRound]; omega))

/-- Ancestors lie in lower rounds, so what is collected besides the leaders
lies below the commit round. -/
theorem LeadersReady.mem_or_round_lt (hready : LeadersReady s r L)
    (h : CommitReach s s.gcRound C L b) : b ∈ L ∨ b.round < r := by
  induction h with
  | leader hb => exact .inl hb
  | @ancestor b c hb hc _ _ hget ih =>
    have hlt := hready.ancestors_lt b hb.mem_blocks c.reference hc
    rw [Block.reference_round] at hlt
    refine .inr (Nat.lt_of_lt_of_le hlt ?_)
    rcases ih with hbL | hbr
    · exact (hready.leaders_round b hbL).le
    · exact hbr.le

/-- The search and the specification agree on what is reachable, the
leaders' own marks aside. -/
theorem reachesFrom_iff {st₀ : DagState} (hget : st₀.getBlock = s.getBlock)
    (hL : ∀ l ∈ L, s.getBlock l.reference = some l) :
    (commitSearch s.gcRound).ReachesFrom st₀ (C ∪ (L.map Block.reference).toFinset) L.reverse b ↔
      CommitReach s s.gcRound C L b := by
  constructor
  · intro h
    induction h with
    | root hb => exact .leader (List.mem_reverse.mp hb)
    | step _ hk hfollow hfresh hlookup ih =>
      rw [commitSearch_lookup, hget] at hlookup
      obtain rfl := getBlock_reference_eq hlookup
      exact .ancestor ih hk (of_decide_eq_true hfollow)
        (fun h => hfresh (Finset.mem_union_left _ h)) hlookup
  · intro h
    induction h with
    | leader hb => exact .root (List.mem_reverse.mpr hb)
    | @ancestor b c _ hc hround hfresh hget' ih =>
      by_cases hcL : c.reference ∈ L.map Block.reference
      · -- back at a leader
        obtain ⟨l, hl, hlc⟩ := List.mem_map.mp hcL
        rw [← hlc, hL l hl] at hget'
        cases hget'
        exact .root (List.mem_reverse.mpr hl)
      · refine .step ih hc (decide_eq_true hround) ?_ (commitSearch_lookup.mpr (hget ▸ hget'))
        rw [Finset.mem_union, List.mem_toFinset, not_or]
        exact ⟨hfresh, hcL⟩

/-- **The sub-dag of the leaders.** On a state ready for them, marking the
leaders and searching from them collects, once each, exactly what
`CommitReach` collects, and marks it committed. -/
theorem searchLeaders_spec (hready : LeadersReady s r L) :
    ∃ st₀ P st, (commitSearch s.gcRound).markAll L s = .ok st₀ ∧
      (commitSearch s.gcRound).runFresh (st₀.recentBlocks.length + L.length) L.reverse [] st₀ =
        .ok (P, st) ∧
      (∀ b, b ∈ P ↔ CommitReach s s.gcRound s.committedRefs L b) ∧
      (P.map Block.reference).Nodup ∧
      st.committedRefs = s.committedRefs ∪ (P.map Block.reference).toFinset ∧
      SameBlocks s st ∧ st.lastCommit = s.lastCommit := by
  have hcached : ∀ l ∈ L, l.reference ∈ s.cachedRefs := fun l hl => by
    have hl' := mem_recent_of_getBlock (hready.leaders_cached l hl)
      (by rw [Block.reference_round, hready.leaders_round l hl, genesisRound]
          have := hready.gcRound_lt; omega)
    simp only [cachedRefs, List.mem_toFinset, List.mem_map] at hl' ⊢
    obtain ⟨info, hinfo, rfl⟩ := hl'
    exact ⟨info, hinfo, rfl⟩
  -- the leaders are marked first
  obtain ⟨st₀, hmarkAll, hM₀, hsteps₀⟩ := Dfs.markAll_spec (S := commitSearch s.gcRound)
    DagState.cachedRefs DagState.committedRefs (fun st k hk => commitSearch_mark hk)
    (fun st k newly st' h => commitSearch_frame h) L s hready.leaders_nodup
    fun l hl => ⟨hcached l hl, hready.leaders_uncommitted l hl⟩
  obtain ⟨hsame₀, hlast₀⟩ := sameBlocks_of_commitMarks hsteps₀
  have hget₀ := hsame₀.getBlock_eq
  have hreach : ∀ a, (commitSearch s.gcRound).ReachesFrom st₀ st₀.committedRefs L.reverse a ↔
      CommitReach s s.gcRound s.committedRefs L a := fun a => by
    rw [hM₀]
    exact reachesFrom_iff hget₀ hready.leaders_cached
  -- the followed ancestors of a reachable block are cached
  have hsucc : ∀ a, (commitSearch s.gcRound).ReachesFrom st₀ st₀.committedRefs L.reverse a →
      ∀ k ∈ a.ancestors, decide (s.gcRound < k.round) = true →
        k ∈ st₀.cachedRefs ∧
          (k ∉ st₀.committedRefs → ∃ b, (commitSearch s.gcRound).lookup st₀ k = .ok b) := by
    intro a ha k hk hfollow
    have hk' := hready.ancestors_cached a ((hreach a).mp ha).mem_blocks k hk (of_decide_eq_true hfollow)
    refine ⟨hsame₀.cachedRefs_eq ▸ hk', fun _ => ?_⟩
    obtain ⟨b, hb, -⟩ := getBlock_of_mem_cachedRefs hk'
      (by rw [genesisRound]; have := of_decide_eq_true hfollow; omega)
    exact ⟨b, commitSearch_lookup.mpr (hget₀ ▸ hb)⟩
  have hfuel : st₀.cachedRefs.card + L.reverse.length ≤ st₀.recentBlocks.length + L.length := by
    have := List.toFinset_card_le (st₀.recentBlocks.map (·.block.reference))
    rw [List.length_map] at this
    simp only [cachedRefs, List.length_reverse]
    omega
  obtain ⟨P, st, hrun, hP, hnd, hM, hsteps⟩ := Dfs.runFresh_spec (S := commitSearch s.gcRound)
    DagState.cachedRefs DagState.committedRefs (fun st k hk => commitSearch_isMarked hk)
    (fun st k hk => commitSearch_mark hk) (fun st k newly st' h => commitSearch_frame h)
    (fun st k b h => getBlock_reference_eq (commitSearch_lookup.mp h)) hsucc
    (fun l hl => by
      rw [hM₀]
      exact Finset.mem_union_right _ (List.mem_toFinset.mpr
        (List.mem_map_of_mem (List.mem_reverse.mp hl))))
    (by rw [List.map_reverse, List.nodup_reverse]; exact hready.leaders_nodup) hfuel
  obtain ⟨hsame, hlast⟩ := sameBlocks_of_commitMarks hsteps
  have hP' : ∀ b, b ∈ P ↔ CommitReach s s.gcRound s.committedRefs L b := fun b =>
    (hP b).trans (hreach b)
  refine ⟨st₀, P, st, hmarkAll, hrun, hP', hnd, ?_, hsame₀.trans hsame, hlast.trans hlast₀⟩
  -- the leaders' marks are among the collected blocks
  rw [hM, hM₀, Finset.union_assoc]
  congr 1
  refine Finset.union_eq_right.mpr fun k hk => ?_
  obtain ⟨l, hl, rfl⟩ := List.mem_map.mp (List.mem_toFinset.mp hk)
  exact List.mem_toFinset.mpr (List.mem_map_of_mem ((hP' l).mpr (.leader hl)))

end Reach

/-! ## The named leader and the timestamp -/

section Leader

variable {seed r : ℕ} {P L : List Block}

/-- The key order compares rounds first. -/
theorem SortKeyLe.round_le {a b : Block} (h : SortKeyLe hash seed a b) : a.round ≤ b.round := by
  have := (Prod.Lex.toLex_le_toLex'.mp h).1
  simpa [Block.reference_round] using this

/-- **The named leader.** With the leaders in round `r` among the blocks and
every other block below it, the last block in the sort order is a leader. -/
theorem getLast_sortCommittedBlocks_mem {l : Block} (hl : l ∈ L) (hlP : l ∈ P)
    (hround : ∀ l ∈ L, l.round = r) (hP : ∀ b ∈ P, b ∈ L ∨ b.round < r) :
    ∃ x, (sortCommittedBlocks hash seed P).getLast? = some x ∧ x ∈ L := by
  have hperm := List.perm_insertionSort (SortKeyLe hash seed) P
  obtain ⟨x, hx⟩ := Option.isSome_iff_exists.mp (List.getLast?_isSome.mpr
    (List.ne_nil_of_mem (hperm.mem_iff.mpr hlP)))
  have hxP : x ∈ P := hperm.mem_iff.mp (List.mem_of_getLast? hx)
  refine ⟨x, hx, ?_⟩
  rcases hP x hxP with hxL | hxr
  · exact hxL
  · -- a block below the round would have to come after the leader `l`
    rcases OptionList.rel_getLast_of_pairwise (List.pairwise_insertionSort _ P) hx l
        (hperm.mem_iff.mpr hlP) with rfl | hle
    · exact hl
    · have := hle.round_le hash
      rw [hround l hl] at this
      omega

end Leader

theorem medianOrPanic_congr {s s' : DagState} (hsame : SameBlocks s s')
    (hlast : s'.lastCommit = s.lastCommit) (blocks : List Block) :
    medianOrPanic s' blocks = medianOrPanic s blocks := by
  simp only [medianOrPanic, hsame.context_eq, lastCommitTimestampMs_congr hlast]

/-- The timestamp reads only blocks, the context and the last commit, which
the marks leave alone. -/
theorem calculateCommitTimestamp_congr {s s' : DagState} (hsame : SameBlocks s s')
    (hlast : s'.lastCommit = s.lastCommit) (L : List Block) :
    calculateCommitTimestamp s' L = calculateCommitTimestamp s L := by
  cases L with
  | nil => rfl
  | cons first rest =>
    simp only [calculateCommitTimestamp, hsame.context_eq, getBlocks, hsame.getBlock_eq,
      medianOrPanic_congr hsame hlast]

/-! ## The commit -/

/-- A decided slot with a decision hands on its committed block. -/
theorem committedBlock_eq {leaderSlot : LeaderSlot}
    (hdecided : leaderSlot.leaderStatus.isDecided = true ∧ leaderSlot.decision.isSome) :
    committedBlock leaderSlot = .ok leaderSlot.committedBlock? := by
  obtain ⟨d, hd⟩ := Option.isSome_iff_exists.mp hdecided.2
  unfold committedBlock LeaderSlot.committedBlock?
  cases hst : leaderSlot.leaderStatus with
  | commit b => simp [hd, bind, Except.bind, pure, Except.pure]
  | skip slot => simp [hd, bind, Except.bind, pure, Except.pure]
  | undecided slot =>
    rw [hst] at hdecided
    cases hdecided.1

/-- The committed leaders of a decided round. -/
theorem mapM_committedBlock {rs : RoundState} (hdecided : rs.Decided) :
    (rs.leaderSlots.mapM committedBlock).map List.reduceOption = .ok rs.committedLeaders := by
  rw [OptionList.mapM_eq_ok_map fun ls hls => committedBlock_eq (hdecided ls hls)]
  simp only [Except.map, List.reduceOption, List.filterMap_map, RoundState.committedLeaders]
  rfl

/-- **`build_commit`.** For a fully decided round with committed leaders on a
state ready for them, and a timestamp `t` that `calculate_commit_timestamp`
computes, `build_commit` returns the commit of `CommitsLeaders`. -/
theorem buildCommit_spec {p : PendingCommitState} {s : DagState} {r t : ℕ} {rs : RoundState}
    (hrs : p.getRoundState r = .ok rs) (hdecided : rs.Decided) (hne : rs.committedLeaders ≠ [])
    (hready : LeadersReady s r rs.committedLeaders)
    (ht : calculateCommitTimestamp s rs.committedLeaders = .ok t) :
    ∃ commit subDag s', buildCommit hash digest p s r = .ok ((commit, subDag), s') ∧
      CommitsLeaders hash p s rs.committedLeaders t commit subDag s' := by
  obtain ⟨st₀, P, st, hmarkAll, hrun, hP, hnd, hM, hsame, hlast⟩ := searchLeaders_spec hready
  obtain ⟨l, hl⟩ := List.exists_mem_of_ne_nil _ hne
  have hlP : l ∈ P := (hP l).mpr (.leader hl)
  obtain ⟨x, hx, hxL⟩ : ∃ x, (sortCommittedBlocks hash (computeSortSeed hash rs.committedLeaders)
      P).getLast? = some x ∧ x ∈ rs.committedLeaders :=
    getLast_sortCommittedBlocks_mem hash hl hlP hready.leaders_round
      fun b hb => hready.mem_or_round_lt ((hP b).mp hb)
  -- everything collected lies above the GC round
  have hall : (P.all fun block => decide (s.gcRound < block.round)) = true := by
    rw [List.all_eq_true]
    intro b hb
    rcases ((hP b).mp hb).mem_or_cached with hbL | ⟨hround, -⟩
    · rw [hready.leaders_round b hbL]
      exact decide_eq_true hready.gcRound_lt
    · exact decide_eq_true hround
  have hxr : x.reference.round = r := by
    rw [Block.reference_round, hready.leaders_round x hxL]
  have ht' : calculateCommitTimestamp st rs.committedLeaders = .ok t := by
    rw [calculateCommitTimestamp_congr hsame hlast, ht]
  have hcommitted := mapM_committedBlock hdecided
  cases hmapM : rs.leaderSlots.mapM committedBlock with
  | error e => rw [hmapM] at hcommitted; cases hcommitted
  | ok blocks =>
    rw [hmapM] at hcommitted
    have hblocks : blocks.reduceOption = rs.committedLeaders := Except.ok.inj hcommitted
    let toCommit := sortCommittedBlocks hash (computeSortSeed hash rs.committedLeaders) P
    have hperm : toCommit.Perm P := List.perm_insertionSort _ P
    let commit : Commit := ⟨p.nextCommitLeaders.nextCommitIndex, s.lastCommitDigest, t, x.reference,
      toCommit.map Block.reference⟩
    refine ⟨⟨commit, digest commit⟩, ⟨x.reference, toCommit, t, ⟨commit.index, digest commit⟩⟩, st,
      ?_, ⟨fun b => hperm.mem_iff.trans (hP b), (hperm.map _).nodup_iff.mpr hnd,
        List.pairwise_insertionSort _ P, List.mem_map_of_mem hxL,
        Option.map_eq_some_iff.mpr ⟨x, hx, rfl⟩, rfl, rfl, rfl, rfl, rfl, rfl,
        by rw [hM, List.toFinset_eq_of_perm _ _ (hperm.map _)], hsame, hlast⟩⟩
    simp only [buildCommit, hrs, hmapM, hblocks, List.isEmpty_eq_false_iff.mpr hne, hmarkAll, hrun, hall,
      Bool.not_true, Bool.false_eq_true, if_false, hx, hxr, ht', bind, Except.bind, pure, Except.pure,
      ne_eq, not_true_eq_false]
    rfl

/-- A round-two leader over the four round-one blocks of a committee of
four stakes of 25: the leader's stake is below the certification threshold,
so the timestamp is the median of its four parents'. -/
theorem buildCommit_spec_four :
    let A : ℕ → Block := fun i => ⟨0, 1, i, 10 * (i + 1), [], [], 10 + i⟩
    let L : Block := ⟨0, 2, 0, 50, (List.range 4).map fun i => (A i).reference, [], 20⟩
    let context : Context := ⟨0, 0, ⟨0, [⟨25⟩, ⟨25⟩, ⟨25⟩, ⟨25⟩], 100, 81, 39, 20⟩,
      ⟨0, some 2, 0, 1, 1, true, 0, 0, 0⟩⟩
    let s : DagState := ⟨context, [],
      ((List.range 4).map fun i => (⟨A i, ∅, .new, false⟩ : BlockInfo)) ++ [⟨L, ∅, .new, false⟩],
      [], 2, none⟩
    let rs : RoundState := ⟨2, [⟨⟨2, 0⟩, .commit L, some .direct⟩, ⟨⟨2, 1⟩, .skip ⟨2, 1⟩, some .indirect⟩],
      ∅, 1⟩
    let p : PendingCommitState := ⟨⟨1, 1, [0, 1]⟩,
      [⟨1, [⟨⟨1, 0⟩, .skip ⟨1, 0⟩, some .direct⟩, ⟨⟨1, 1⟩, .skip ⟨1, 1⟩, some .direct⟩], ∅, 0⟩, rs]⟩
    p.getRoundState 2 = .ok rs ∧ rs.Decided ∧ rs.committedLeaders ≠ [] ∧
      LeadersReady s 2 rs.committedLeaders ∧
      calculateCommitTimestamp s rs.committedLeaders = .ok 30 ∧
      ∃ commit subDag s', buildCommit (fun _ => 0) (fun _ => 0) p s 2 = .ok ((commit, subDag), s') ∧
        CommitsLeaders (fun _ => 0) p s rs.committedLeaders 30 commit subDag s' := by
  intro A L context s rs p
  have hrs : p.getRoundState 2 = .ok rs := rfl
  have hdecided : rs.Decided := by decide
  have hne : rs.committedLeaders ≠ [] := by decide
  have hready : LeadersReady s 2 rs.committedLeaders :=
    ⟨by decide, by decide, by decide, by decide, by decide, by decide, by decide⟩
  have ht : calculateCommitTimestamp s rs.committedLeaders = .ok 30 := by decide
  exact ⟨hrs, hdecided, hne, hready, ht, buildCommit_spec (fun _ => 0) (fun _ => 0) hrs hdecided hne hready ht⟩

/-- Two ways `build_commit` falls short of collecting every uncommitted block
above the GC round that the leaders reach. With `X ← C ← L` and only `C`
committed, the sub-dag of `L` is `[L]`, though `X` is not committed and lies
above the GC round. And on a committee of `Committee.new_v3` of four stakes
of 25, certification at 39 and quorum at 81, a fully decided round with two
committed leaders on a ready state makes `calculate_commit_timestamp` panic:
their stake of 50 reaches the certification threshold but not a quorum. -/
theorem buildCommit_misses_and_panics :
    (let X : Block := ⟨0, 1, 0, 0, [], [], 1⟩
     let C : Block := ⟨0, 2, 1, 0, [X.reference], [], 2⟩
     let L : Block := ⟨0, 3, 0, 0, [C.reference], [], 3⟩
     let context : Context := ⟨0, 0, ⟨0, [⟨1⟩, ⟨1⟩], 2, 1, 1, 1⟩, ⟨0, some 1, 0, 1, 1, true, 0, 0, 0⟩⟩
     let s : DagState := ⟨context, [],
       [⟨X, ∅, .new, false⟩, ⟨C, ∅, .new, true⟩, ⟨L, ∅, .new, false⟩], [], 3, none⟩
     let rs : RoundState := ⟨3, [⟨⟨3, 0⟩, .commit L, some .direct⟩], ∅, 1⟩
     let p : PendingCommitState := ⟨⟨1, 3, [0]⟩, [rs]⟩
     rs.Decided ∧ rs.committedLeaders = [L] ∧ s.isCommitted X.reference = .ok false ∧
       C.reference ∈ L.ancestors ∧ X.reference ∈ C.ancestors ∧ s.gcRound < X.round ∧
       (buildCommit (fun _ => 0) (fun _ => 0) p s 3).map (fun result => result.1.2.blocks) = .ok [L]) ∧
    (let authorities : List Authority := [⟨25⟩, ⟨25⟩, ⟨25⟩, ⟨25⟩]
     let committee : Committee := ⟨0, authorities, 100, 81, 39, 20⟩
     let A : ℕ → Block := fun i => ⟨0, 1, i, 0, [], [], 10 + i⟩
     let parents : List BlockRef := (List.range 4).map fun i => (A i).reference
     let L₀ : Block := ⟨0, 2, 0, 0, parents, [], 20⟩
     let L₁ : Block := ⟨0, 2, 1, 0, parents, [], 21⟩
     let context : Context := ⟨0, 0, committee, ⟨0, some 2, 0, 1, 1, true, 0, 0, 0⟩⟩
     let s : DagState := ⟨context, [],
       ((List.range 4).map fun i => (⟨A i, ∅, .new, false⟩ : BlockInfo)) ++
         [⟨L₀, ∅, .new, false⟩, ⟨L₁, ∅, .new, false⟩], [], 2, none⟩
     let rs : RoundState := ⟨2, [⟨⟨2, 0⟩, .commit L₀, some .direct⟩, ⟨⟨2, 1⟩, .commit L₁, some .direct⟩],
       ∅, 2⟩
     let p : PendingCommitState := ⟨⟨1, 2, [0, 1]⟩, [rs]⟩
     Committee.new_v3 0 authorities 1 0 = some committee ∧ rs.Decided ∧
       LeadersReady s 2 rs.committedLeaders ∧
       (buildCommit (fun _ => 0) (fun _ => 0) p s 2).map (fun _ => ()) =
         .error (.commitTimestamp (.belowQuorum 50 81))) :=
  ⟨⟨by decide, rfl, rfl, by decide, by decide, by decide, by decide⟩,
    ⟨by decide, by decide, ⟨by decide, by decide, by decide, by decide, by decide, by decide, by decide⟩,
      by decide⟩⟩

/-! ## Deciding the leader slots -/

/-- The two rules of `LeaderSlotDecider`, as the committer calls them;
`none` is a panic. -/
structure SlotDecider where
  /-- `try_direct_decide` -/
  tryDirectDecide : Slot → Option LeaderStatus
  /-- `try_indirect_decide` -/
  tryIndirectDecide : Block → List Slot → Option (List LeaderStatus)

/-- The slot decider over a DAG state. -/
def slotDecider (s : DagState) : SlotDecider := ⟨s.tryDirectDecide, s.tryIndirectDecide⟩

/-- A panic of the slot decider. -/
def deciderOrPanic {α : Type} : Option α → Except FlexCommitterPanic α
  | some a => pure a
  | none => throw .slotDecider

/-- The undecided slots of a round, in order: `slots_to_decide`. -/
def slotsToDecide (rs : RoundState) : List Slot :=
  rs.leaderSlots.filterMap fun leaderSlot =>
    if leaderSlot.leaderStatus.isDecided then none else some leaderSlot.slot

variable (shuffle : ℕ → List ℕ → List ℕ) (d : SlotDecider)

/-- The direct rule on one slot. -/
def directDecideSlot (rs : RoundState) (slot : Slot) : Except FlexCommitterPanic RoundState := do
  let status ← deciderOrPanic (d.tryDirectDecide slot)
  rs.updateSlotDecision slot status .direct

/-- One round of `try_direct_commit`: the direct rule on each slot the round
has undecided. -/
def directCommitRound (p : PendingCommitState) (leaderRound : ℕ) :
    Except FlexCommitterPanic PendingCommitState := do
  let (rs, p) ← p.getOrCreateRoundState shuffle leaderRound
  let rs ← (slotsToDecide rs).foldlM (directDecideSlot d) rs
  pure (p.setRoundState leaderRound rs)

/-- `FlexCommitter::try_direct_commit`: the rounds from the minimum one up to
the highest accepted one, excluded, from the lowest. -/
def tryDirectCommit (highestAcceptedRound : ℕ) (p : PendingCommitState) :
    Except FlexCommitterPanic PendingCommitState :=
  (List.range' p.nextCommitLeaders.minNextLeaderRound
    (highestAcceptedRound - p.nextCommitLeaders.minNextLeaderRound)).foldlM
      (directCommitRound shuffle d) p

/-- The anchor among leader slots in order: the first committed block,
unless an undecided slot comes before it. -/
def anchorIn : List LeaderSlot → Option Block
  | [] => none
  | leaderSlot :: leaderSlots =>
    match leaderSlot.leaderStatus with
    | .commit block => some block
    | .undecided _ => none
    | .skip _ => anchorIn leaderSlots

/-- `FlexCommitter::find_anchor_block`: the anchor among the slots of the
rounds from `startRound` on. -/
def findAnchorBlock (p : PendingCommitState) (startRound : ℕ) : Option Block :=
  anchorIn ((p.rounds.drop (startRound - p.nextCommitLeaders.minNextLeaderRound)).flatMap
    (·.leaderSlots))

/-- The indirect rule's status for one slot. -/
def indirectDecideSlot (rs : RoundState) (slotStatus : Slot × LeaderStatus) :
    Except FlexCommitterPanic RoundState :=
  rs.updateSlotDecision slotStatus.1 slotStatus.2 .indirect

/-- `FlexCommitter::decide_with_anchor_block`: a round with an undecided
slot takes the indirect rule's status for each of its slots. -/
def decideWithAnchorBlock (p : PendingCommitState) (anchorBlock : Block) (decisionRound : ℕ) :
    Except FlexCommitterPanic PendingCommitState := do
  let (rs, p) ← p.getOrCreateRoundState shuffle decisionRound
  if rs.undecidedSlots = ∅ then pure p
  else
    let slots := rs.leaderSlots.map (·.slot)
    let statuses ← deciderOrPanic (d.tryIndirectDecide anchorBlock slots)
    if slots.length ≠ statuses.length then throw .statusCount
    let rs ← (slots.zip statuses).foldlM indirectDecideSlot rs
    pure (p.setRoundState decisionRound rs)

/-- One round of `try_indirect_commit`, skipped without an anchor. -/
def indirectCommitRound (p : PendingCommitState) (round : ℕ) :
    Except FlexCommitterPanic PendingCommitState :=
  match findAnchorBlock p (round + indirectCommitDepth) with
  | none => pure p
  | some anchorBlock => decideWithAnchorBlock shuffle d p anchorBlock round

/-- `FlexCommitter::try_indirect_commit`: the rounds from the minimum one up
to `indirectCommitDepth` below the highest accepted one, from the highest. -/
def tryIndirectCommit (highestAcceptedRound : ℕ) (p : PendingCommitState) :
    Except FlexCommitterPanic PendingCommitState :=
  (List.range' p.nextCommitLeaders.minNextLeaderRound
    (highestAcceptedRound - indirectCommitDepth + 1 - p.nextCommitLeaders.minNextLeaderRound)).reverse.foldlM
      (indirectCommitRound shuffle d) p

/-- `FlexCommitter::try_commit`: the commit of the first round the direct
rule, or else the indirect one, leaves ready; the pending state and the DAG
state after it. -/
def tryCommit (p : PendingCommitState) (s : DagState) (nextCommitLeaders : NextCommitLeaderSchedule) :
    Except FlexCommitterPanic
      (Option (TrustedCommit × CommittedSubDag) × PendingCommitState × DagState) := do
  let p ← maybeRefreshPendingCommitState p nextCommitLeaders
  let p ← tryDirectCommit shuffle (slotDecider s) s.highestAcceptedRound p
  match findCommitLeaderRound p.rounds with
  | some commitLeaderRound =>
    let (commit, s) ← buildCommit hash digest p s commitLeaderRound
    pure (some commit, p, s)
  | none =>
    let p ← tryIndirectCommit shuffle (slotDecider s) s.highestAcceptedRound p
    match findCommitLeaderRound p.rounds with
    | some commitLeaderRound =>
      let (commit, s) ← buildCommit hash digest p s commitLeaderRound
      pure (some commit, p, s)
    | none => pure (none, p, s)

/-! ## The pending state across a call -/

section Pending

variable {shuffle d}
variable (hperm : ∀ r l, (shuffle r l).Perm l)

open PendingCommitState in
/-- What a step on the pending state keeps from `p₀`: the bookkeeping, the
schedule, and every decided slot. -/
def KeepsFrom (p₀ p : PendingCommitState) : Prop := p.WellFormed ∧ Keeps p₀ p

/-- The direct rule on a slot records what the slot decider returns. -/
theorem directDecideSlot_eq_ok {rs rs' : RoundState} {slot : Slot}
    (h : directDecideSlot d rs slot = .ok rs') :
    ∃ status, d.tryDirectDecide slot = some status ∧ rs.updateSlotDecision slot status .direct = .ok rs' := by
  unfold FlexCommitter.directDecideSlot at h
  cases hst : d.tryDirectDecide slot with
  | none => simp [hst, deciderOrPanic, throw, throwThe, MonadExceptOf.throw, bind, Except.bind] at h
  | some status =>
    simp only [hst, deciderOrPanic, pure, Except.pure, bind, Except.bind] at h
    exact ⟨status, rfl, h⟩

/-- The direct rule on a slot fails only with the slot decider, or with the
update. -/
theorem directDecideSlot_eq_error {rs : RoundState} {slot : Slot} {e : FlexCommitterPanic}
    (h : directDecideSlot d rs slot = .error e) :
    e = .slotDecider ∨ ∃ status, rs.updateSlotDecision slot status .direct = .error e := by
  unfold FlexCommitter.directDecideSlot at h
  cases hst : d.tryDirectDecide slot with
  | none =>
    simp only [hst, deciderOrPanic, throw, throwThe, MonadExceptOf.throw, bind, Except.bind,
      Except.error.injEq] at h
    exact .inl h.symm
  | some status =>
    simp only [hst, deciderOrPanic, pure, Except.pure, bind, Except.bind] at h
    exact .inr ⟨status, h⟩

/-- One slot of the direct rule keeps the round's bookkeeping. -/
theorem directDecideSlot_wellFormed {A : List ℕ} (hnd : A.Nodup) {rs rs' : RoundState}
    (hwf : rs.WellFormed A) {slot : Slot} (h : directDecideSlot d rs slot = .ok rs') :
    rs'.WellFormed A ∧ rs.Keeps rs' := by
  obtain ⟨status, -, hupdate⟩ := directDecideSlot_eq_ok h
  exact hwf.updateSlotDecision hnd hupdate

/-- The folds of the rules over a round keep its bookkeeping. -/
theorem foldlM_decide_wellFormed {A : List ℕ} {β : Type}
    {f : RoundState → β → Except FlexCommitterPanic RoundState}
    (hf : ∀ rs rs' b, rs.WellFormed A → f rs b = .ok rs' → rs'.WellFormed A ∧ rs.Keeps rs')
    {l : List β} {rs rs' : RoundState} (hwf : rs.WellFormed A) (h : l.foldlM f rs = .ok rs') :
    rs'.WellFormed A ∧ rs.Keeps rs' :=
  OptionList.foldlM_invariant (fun rs => rs.WellFormed A) RoundState.Keeps RoundState.Keeps.refl
    (fun _ _ _ h₁ h₂ => h₁.trans h₂) (fun rs b rs' _ hwf h => hf rs rs' b hwf h) hwf h

include hperm in
/-- **One round of the direct rule** keeps the bookkeeping and the decided
slots. -/
theorem directCommitRound_keepsFrom {p p' : PendingCommitState}
    (hwf : p.WellFormed) {leaderRound : ℕ}
    (hmin : p.nextCommitLeaders.minNextLeaderRound ≤ leaderRound)
    (h : directCommitRound shuffle d p leaderRound = .ok p') : KeepsFrom p p' := by
  obtain ⟨rs, hget, hrs, -, hwf₁, hkeeps₁⟩ := hwf.getOrCreateRoundState hperm hmin
  simp only [FlexCommitter.directCommitRound, hget, bind, Except.bind] at h
  cases hfold : (slotsToDecide rs).foldlM (FlexCommitter.directDecideSlot d) rs with
  | error e => rw [hfold] at h; cases h
  | ok rs' =>
    rw [hfold] at h
    cases h
    obtain ⟨hwf', hk⟩ := foldlM_decide_wellFormed
      (fun _ _ _ hwf h => directDecideSlot_wellFormed hwf₁.leaders_nodup hwf h)
      (hwf₁.rounds_wf rs (List.mem_of_getElem? hrs)) hfold
    obtain ⟨hwf₂, hkeeps₂⟩ := hwf₁.setRoundState hrs hwf' hk
    exact ⟨hwf₂, hkeeps₁.trans hkeeps₂⟩

include hperm in
/-- **One round of the indirect rule** keeps the bookkeeping and the decided
slots. -/
theorem decideWithAnchorBlock_keepsFrom {p p' : PendingCommitState}
    (hwf : p.WellFormed) {anchorBlock : Block} {decisionRound : ℕ}
    (hmin : p.nextCommitLeaders.minNextLeaderRound ≤ decisionRound)
    (h : decideWithAnchorBlock shuffle d p anchorBlock decisionRound = .ok p') : KeepsFrom p p' := by
  obtain ⟨rs, hget, hrs, -, hwf₁, hkeeps₁⟩ := hwf.getOrCreateRoundState hperm hmin
  simp only [FlexCommitter.decideWithAnchorBlock, hget, bind, Except.bind] at h
  split_ifs at h with hempty
  · cases h
    exact ⟨hwf₁, hkeeps₁⟩
  · cases hst : deciderOrPanic (d.tryIndirectDecide anchorBlock (rs.leaderSlots.map (·.slot))) with
    | error e => rw [hst] at h; cases h
    | ok statuses =>
      rw [hst] at h
      simp only at h
      split_ifs at h
      cases hfold : ((rs.leaderSlots.map (·.slot)).zip statuses).foldlM indirectDecideSlot rs with
      | error e => rw [hfold] at h; cases h
      | ok rs' =>
        rw [hfold] at h
        cases h
        obtain ⟨hwf', hk⟩ := foldlM_decide_wellFormed
          (fun _ _ _ hwf h => hwf.updateSlotDecision hwf₁.leaders_nodup h)
          (hwf₁.rounds_wf rs (List.mem_of_getElem? hrs)) hfold
        obtain ⟨hwf₂, hkeeps₂⟩ := hwf₁.setRoundState hrs hwf' hk
        exact ⟨hwf₂, hkeeps₁.trans hkeeps₂⟩

/-- A pass over rounds from the minimum one on keeps what each round keeps. -/
theorem KeepsFrom.foldlM {p p' : PendingCommitState} {rounds : List ℕ}
    {f : PendingCommitState → ℕ → Except FlexCommitterPanic PendingCommitState}
    (hf : ∀ q q' round, q.WellFormed → q.nextCommitLeaders.minNextLeaderRound ≤ round →
      f q round = .ok q' → KeepsFrom q q')
    (hrounds : ∀ round ∈ rounds, p.nextCommitLeaders.minNextLeaderRound ≤ round)
    (hwf : p.WellFormed) (h : rounds.foldlM f p = .ok p') : KeepsFrom p p' := by
  have := OptionList.foldlM_invariant (l := rounds)
    (fun q => q.WellFormed ∧ q.nextCommitLeaders = p.nextCommitLeaders)
    PendingCommitState.Keeps PendingCommitState.Keeps.refl (fun _ _ _ h₁ h₂ => h₁.trans h₂)
    (fun q round q' hround hq hstep => by
      obtain ⟨hwf', hkeeps⟩ := hf q q' round hq.1 (hq.2 ▸ hrounds round hround) hstep
      exact ⟨⟨hwf', hkeeps.schedule_eq.trans hq.2⟩, hkeeps⟩) ⟨hwf, rfl⟩ h
  exact ⟨this.1.1, this.2⟩

include hperm in
/-- **The direct pass** keeps the bookkeeping and the decided slots. -/
theorem tryDirectCommit_keepsFrom {p p' : PendingCommitState}
    (hwf : p.WellFormed) {highestAcceptedRound : ℕ}
    (h : tryDirectCommit shuffle d highestAcceptedRound p = .ok p') : KeepsFrom p p' :=
  KeepsFrom.foldlM (fun _ _ _ hq hmin hstep => directCommitRound_keepsFrom hperm hq hmin hstep)
    (fun _ hround => (List.mem_range'_1.mp hround).1) hwf h

include hperm in
/-- A round of the indirect pass, with or without an anchor, keeps the
bookkeeping and the decided slots. -/
theorem indirectCommitRound_keepsFrom {p p' : PendingCommitState} (hwf : p.WellFormed)
    {round : ℕ} (hmin : p.nextCommitLeaders.minNextLeaderRound ≤ round)
    (h : indirectCommitRound shuffle d p round = .ok p') : KeepsFrom p p' := by
  unfold FlexCommitter.indirectCommitRound at h
  split at h
  · cases h
    exact ⟨hwf, .refl p⟩
  · exact decideWithAnchorBlock_keepsFrom hperm hwf hmin h

include hperm in
/-- **The indirect pass** keeps the bookkeeping and the decided slots. -/
theorem tryIndirectCommit_keepsFrom {p p' : PendingCommitState}
    (hwf : p.WellFormed) {highestAcceptedRound : ℕ}
    (h : tryIndirectCommit shuffle d highestAcceptedRound p = .ok p') : KeepsFrom p p' :=
  KeepsFrom.foldlM (fun _ _ _ hq hmin hstep => indirectCommitRound_keepsFrom hperm hq hmin hstep)
    (fun _ hround => (List.mem_range'_1.mp (List.mem_reverse.mp hround)).1) hwf h

/-- The commit `build_commit` returns names a leader of the round it was
asked for, under the schedule's index. -/
theorem buildCommit_eq_ok {p : PendingCommitState} {s s' : DagState} {r : ℕ}
    {commit : TrustedCommit} {subDag : CommittedSubDag}
    (h : buildCommit hash digest p s r = .ok ((commit, subDag), s')) :
    commit.inner.index = p.nextCommitLeaders.nextCommitIndex ∧ commit.inner.leader.round = r := by
  unfold buildCommit at h
  simp only [bind, Except.bind] at h
  -- every branch panics but the last, which builds the commit after the
  -- check on the leader's round
  repeat' split at h
  all_goals first
    | (cases h; done)
    | (simp only [pure, Except.pure, Except.ok.injEq, Prod.mk.injEq] at h
       obtain ⟨⟨rfl, -⟩, -⟩ := h
       simp_all)

/-- What a commit of a pending state carries: the schedule's index, and the
round `find_commit_leader_round` picks, from the minimum round on. -/
theorem commit_of_findCommitLeaderRound {p : PendingCommitState} (hwf : p.WellFormed)
    {s s' : DagState} {r : ℕ} {commit : TrustedCommit} {subDag : CommittedSubDag}
    (hfind : findCommitLeaderRound p.rounds = some r)
    (h : buildCommit hash digest p s r = .ok ((commit, subDag), s')) :
    commit.inner.index = p.nextCommitLeaders.nextCommitIndex ∧
      p.nextCommitLeaders.minNextLeaderRound ≤ commit.inner.leader.round ∧
      IsCommitLeaderRound p.rounds commit.inner.leader.round := by
  obtain ⟨hindex, hround⟩ := buildCommit_eq_ok hash digest h
  have hspec := findCommitLeaderRound_spec hwf hfind
  obtain ⟨rs, hrs, hr, -⟩ := hspec.committed
  obtain ⟨i, hi⟩ := List.getElem?_of_mem hrs
  refine ⟨hindex, ?_, hround ▸ hspec⟩
  rw [hround, ← hr, hwf.round_eq hi]
  omega

include hperm in
/-- **`try_commit` on the pending state.** From a well-formed pending state,
for a schedule of distinct allowed leaders, a call that returns leaves the
pending state well formed under the schedule's commit index; while the
index stays, every decided slot keeps its status and decision; and a commit
it returns has the index and is of the lowest round from the minimum one up
to which every round is decided and which has a committed slot. -/
theorem tryCommit_spec {p p' : PendingCommitState} {s s' : DagState}
    {nextCommitLeaders : NextCommitLeaderSchedule} {result : Option (TrustedCommit × CommittedSubDag)}
    (hwf : p.WellFormed) (hnd : nextCommitLeaders.allowedLeaders.Nodup)
    (h : tryCommit hash digest shuffle p s nextCommitLeaders = .ok (result, p', s')) :
    p'.WellFormed ∧ p'.nextCommitLeaders.nextCommitIndex = nextCommitLeaders.nextCommitIndex ∧
      (p.nextCommitLeaders.nextCommitIndex = nextCommitLeaders.nextCommitIndex →
        PendingCommitState.Keeps p p') ∧
      ∀ commit subDag, result = some (commit, subDag) →
        commit.inner.index = nextCommitLeaders.nextCommitIndex ∧
        p'.nextCommitLeaders.minNextLeaderRound ≤ commit.inner.leader.round ∧
        IsCommitLeaderRound p'.rounds commit.inner.leader.round := by
  simp only [tryCommit, bind, Except.bind] at h
  cases hrefresh : maybeRefreshPendingCommitState p nextCommitLeaders with
  | error e => simp [hrefresh] at h
  | ok p₁ =>
  simp only [hrefresh] at h
  obtain ⟨hwf₁, hindex₁, hsame₁⟩ := hwf.maybeRefresh hnd hrefresh
  cases hdirect : tryDirectCommit shuffle (slotDecider s) s.highestAcceptedRound p₁ with
  | error e => simp [hdirect] at h
  | ok p₂ =>
  simp only [hdirect] at h
  obtain ⟨hwf₂, hkeeps₂⟩ := tryDirectCommit_keepsFrom hperm hwf₁ hdirect
  have hindex₂ := hkeeps₂.schedule_eq ▸ hindex₁
  -- the call ends after the direct pass, or after the indirect one, with the
  -- pending state of that pass and the commit of the round it leaves ready
  have hend : ∀ {q : PendingCommitState}, q.WellFormed → PendingCommitState.Keeps p₁ q → p' = q →
      (∀ commit subDag, result = some (commit, subDag) → ∃ r s₁,
        findCommitLeaderRound q.rounds = some r ∧
          buildCommit hash digest q s r = .ok ((commit, subDag), s₁)) →
      p'.WellFormed ∧ p'.nextCommitLeaders.nextCommitIndex = nextCommitLeaders.nextCommitIndex ∧
        (p.nextCommitLeaders.nextCommitIndex = nextCommitLeaders.nextCommitIndex →
          PendingCommitState.Keeps p p') ∧
        ∀ commit subDag, result = some (commit, subDag) →
          commit.inner.index = nextCommitLeaders.nextCommitIndex ∧
          p'.nextCommitLeaders.minNextLeaderRound ≤ commit.inner.leader.round ∧
          IsCommitLeaderRound p'.rounds commit.inner.leader.round := by
    rintro q hwfq hkeepsq rfl hcommit
    have hindexq : p'.nextCommitLeaders.nextCommitIndex = nextCommitLeaders.nextCommitIndex :=
      hkeepsq.schedule_eq ▸ hindex₁
    refine ⟨hwfq, hindexq, fun hi => hsame₁ hi ▸ hkeepsq, fun commit subDag hres => ?_⟩
    obtain ⟨r, s₁, hfind, hbuild⟩ := hcommit commit subDag hres
    obtain ⟨hi, hmin, hround⟩ := commit_of_findCommitLeaderRound hash digest hwfq hfind hbuild
    exact ⟨hi.trans hindexq, hmin, hround⟩
  split at h
  · -- a commit after the direct pass
    rename_i r hfind
    cases hbuild : buildCommit hash digest p₂ s r with
    | error e => simp [hbuild] at h
    | ok v =>
      simp only [hbuild, pure, Except.pure, Except.ok.injEq, Prod.mk.injEq] at h
      obtain ⟨rfl, rfl, -⟩ := h
      exact hend hwf₂ hkeeps₂ rfl fun commit subDag hres => ⟨r, v.2, hfind, by
        rw [hbuild, ← Option.some.inj hres]⟩
  · cases hindirect : tryIndirectCommit shuffle (slotDecider s) s.highestAcceptedRound p₂ with
    | error e => simp [hindirect] at h
    | ok p₃ =>
      simp only [hindirect] at h
      obtain ⟨hwf₃, hkeeps₃⟩ := tryIndirectCommit_keepsFrom hperm hwf₂ hindirect
      split at h
      · -- a commit after the indirect pass
        rename_i r hfind
        cases hbuild : buildCommit hash digest p₃ s r with
        | error e => simp [hbuild] at h
        | ok v =>
          simp only [hbuild, pure, Except.pure, Except.ok.injEq, Prod.mk.injEq] at h
          obtain ⟨rfl, rfl, -⟩ := h
          exact hend hwf₃ (hkeeps₂.trans hkeeps₃) rfl fun commit subDag hres => ⟨r, v.2, hfind, by
            rw [hbuild, ← Option.some.inj hres]⟩
      · -- no round is ready
        simp only [pure, Except.pure, Except.ok.injEq, Prod.mk.injEq] at h
        obtain ⟨rfl, rfl, -⟩ := h
        exact hend hwf₃ (hkeeps₂.trans hkeeps₃) rfl fun _ _ h => by cases h

/-! ## When a pass panics -/

section Panics

variable {A : List ℕ}

/-- The slots a round has undecided. -/
theorem mem_slotsToDecide {rs : RoundState} {x : Slot} :
    x ∈ slotsToDecide rs ↔ ∃ ls ∈ rs.leaderSlots, ls.slot = x ∧ ls.leaderStatus.isDecided = false := by
  simp only [slotsToDecide, List.mem_filterMap]
  constructor
  · rintro ⟨ls, hls, hx⟩
    by_cases hd : ls.leaderStatus.isDecided = true
    · simp [hd] at hx
    · simp only [hd, Bool.false_eq_true, if_false, Option.some.injEq] at hx
      exact ⟨ls, hls, hx, by simpa using hd⟩
  · rintro ⟨ls, hls, rfl, hd⟩
    exact ⟨ls, hls, by simp [hd]⟩

theorem slotsToDecide_nodup {rs : RoundState} (hnd : (rs.leaderSlots.map (·.slot)).Nodup) :
    (slotsToDecide rs).Nodup := by
  -- the undecided slots are a sublist of all the slots
  have hsub : ∀ l : List LeaderSlot, (l.filterMap fun ls =>
      if ls.leaderStatus.isDecided then none else some ls.slot).Sublist (l.map (·.slot)) := by
    intro l
    induction l with
    | nil => exact .slnil
    | cons ls l ih =>
      by_cases hd : ls.leaderStatus.isDecided = true
      · simpa [hd] using ih.cons _
      · simpa [hd] using ih.cons_cons ls.slot
  exact hnd.sublist (hsub rs.leaderSlots)

/-- **The direct rule never panics on its updates**: over distinct slots
undecided in a well-formed round, it fails only with the slot decider. -/
theorem foldlM_directDecideSlot_eq_error (hnd : A.Nodup) :
    ∀ {L : List Slot} {rs : RoundState} {e : FlexCommitterPanic}, rs.WellFormed A → L.Nodup →
      (∀ x ∈ L, ∃ (j : ℕ) (ls : LeaderSlot), rs.leaderSlots[j]? = some ls ∧ ls.slot = x ∧
        ls.leaderStatus.isDecided = false) →
      L.foldlM (directDecideSlot d) rs = .error e → e = .slotDecider
  | [], _, _, _, _, _, h => by cases h
  | x :: L, rs, e, hwf, hndL, hL, h => by
    rw [List.foldlM_cons] at h
    obtain ⟨j, ls, hj, rfl, hundecided⟩ := hL _ List.mem_cons_self
    cases hstep : directDecideSlot d rs ls.slot with
    | error e' =>
      rw [hstep] at h
      cases h
      rcases directDecideSlot_eq_error hstep with he | ⟨status, hupdate⟩
      · exact he
      · -- the update of an undecided slot never panics
        have := (hwf.updateSlotDecision_eq_error hnd hj hupdate).1
        rw [hundecided] at this
        cases this
    | ok rs₁ =>
      rw [hstep] at h
      obtain ⟨status, -, hupdate⟩ := directDecideSlot_eq_ok hstep
      rw [List.nodup_cons] at hndL
      refine foldlM_directDecideSlot_eq_error hnd (hwf.updateSlotDecision hnd hupdate).1 hndL.2
        (fun x' hx' => ?_) h
      -- the other slots stay as they were
      obtain ⟨j', ls', hj', rfl, hundecided'⟩ := hL x' (List.mem_cons_of_mem _ hx')
      exact ⟨j', ls', RoundState.updateSlotDecision_frame hupdate hj'
        (fun h => hndL.1 (h ▸ hx')), rfl, hundecided'⟩

include hperm in
/-- **The direct pass** fails only when the slot decider does. -/
theorem tryDirectCommit_eq_error {p : PendingCommitState} (hwf : p.WellFormed)
    {highestAcceptedRound : ℕ} {e : FlexCommitterPanic}
    (h : tryDirectCommit shuffle d highestAcceptedRound p = .error e) : e = .slotDecider := by
  obtain ⟨q, round, hround, ⟨hwfq, hschedule⟩, hstep⟩ := OptionList.foldlM_eq_error
    (fun q => q.WellFormed ∧ q.nextCommitLeaders = p.nextCommitLeaders)
    (fun q round q' hround hq hstep => by
      have hmin := hq.2 ▸ (List.mem_range'_1.mp hround).1
      obtain ⟨hwf', hkeeps⟩ := directCommitRound_keepsFrom hperm hq.1 hmin hstep
      exact ⟨hwf', hkeeps.schedule_eq.trans hq.2⟩) ⟨hwf, rfl⟩ h
  have hmin : q.nextCommitLeaders.minNextLeaderRound ≤ round :=
    hschedule ▸ (List.mem_range'_1.mp hround).1
  obtain ⟨rs, hget, hrs, -, hwf₁, -⟩ := hwfq.getOrCreateRoundState hperm hmin
  simp only [FlexCommitter.directCommitRound, hget, bind, Except.bind] at hstep
  cases hfold : (slotsToDecide rs).foldlM (directDecideSlot d) rs with
  | ok rs' => rw [hfold] at hstep; cases hstep
  | error e' =>
    rw [hfold] at hstep
    cases hstep
    have hwfrs := hwf₁.rounds_wf rs (List.mem_of_getElem? hrs)
    refine foldlM_directDecideSlot_eq_error hwf₁.leaders_nodup hwfrs
      (slotsToDecide_nodup (hwfrs.slots_nodup hwf₁.leaders_nodup)) (fun x hx => ?_) hfold
    obtain ⟨ls, hls, rfl, hundecided⟩ := mem_slotsToDecide.mp hx
    obtain ⟨j, hj⟩ := List.getElem?_of_mem hls
    exact ⟨j, ls, hj, rfl, hundecided⟩

/-- **The indirect rule panics on its updates** only at a slot decided at
the start of the round whose status it does not return: over distinct slots
of a well-formed round that no earlier update touched. -/
theorem foldlM_indirectDecideSlot_eq_error (hnd : A.Nodup) {rs₀ : RoundState} :
    ∀ {ps : List (Slot × LeaderStatus)} {rs : RoundState} {e : FlexCommitterPanic},
      rs.WellFormed A → (ps.map Prod.fst).Nodup →
      (∀ q ∈ ps, ∃ (j : ℕ) (ls : LeaderSlot), rs₀.leaderSlots[j]? = some ls ∧
        rs.leaderSlots[j]? = some ls ∧ ls.slot = q.1) →
      ps.foldlM indirectDecideSlot rs = .error e →
      ∃ q ∈ ps, ∃ (j : ℕ) (ls : LeaderSlot), rs₀.leaderSlots[j]? = some ls ∧ ls.slot = q.1 ∧
        ls.leaderStatus.isDecided = true ∧ ls.leaderStatus ≠ q.2 ∧
        ((q.2.isDecided = false ∧ e = .cannotUndecide ls.slot) ∨
          (q.2.isDecided = true ∧ e = .cannotUpdateDecision ls.slot))
  | [], _, _, _, _, _, h => by cases h
  | q :: ps, rs, e, hwf, hndps, hps, h => by
    rw [List.foldlM_cons] at h
    obtain ⟨j, ls, hj₀, hj, hslot⟩ := hps q List.mem_cons_self
    obtain ⟨x, status⟩ := q
    simp only at hslot
    subst hslot
    cases hstep : indirectDecideSlot rs (ls.slot, status) with
    | error e' =>
      rw [hstep] at h
      cases h
      obtain ⟨hdecided, hne, he⟩ := hwf.updateSlotDecision_eq_error hnd hj hstep
      exact ⟨_, List.mem_cons_self, j, ls, hj₀, rfl, hdecided, hne, he⟩
    | ok rs₁ =>
      rw [hstep] at h
      rw [List.map_cons, List.nodup_cons] at hndps
      -- the other slots stay as they were
      have hps' : ∀ q' ∈ ps, ∃ (j : ℕ) (ls : LeaderSlot), rs₀.leaderSlots[j]? = some ls ∧
          rs₁.leaderSlots[j]? = some ls ∧ ls.slot = q'.1 := fun q' hq' => by
        obtain ⟨j', ls', hj₀', hj', hslot'⟩ := hps q' (List.mem_cons_of_mem _ hq')
        refine ⟨j', ls', hj₀', RoundState.updateSlotDecision_frame hstep hj' fun h => hndps.1 ?_, hslot'⟩
        rw [← h, hslot']
        exact List.mem_map_of_mem hq'
      obtain ⟨q', hq', j', ls', hj₀', hslot', hrest⟩ := foldlM_indirectDecideSlot_eq_error hnd
        (hwf.updateSlotDecision hnd hstep).1 hndps.2 hps' h
      exact ⟨q', List.mem_cons_of_mem _ hq', j', ls', hj₀', hslot', hrest⟩

include hperm in
/-- **One round of the indirect rule** panics only with the slot decider,
on a count of statuses other than that of slots, or on the update of a slot
decided before whose status the rule does not return. -/
theorem decideWithAnchorBlock_eq_error {p : PendingCommitState} (hwf : p.WellFormed)
    {anchorBlock : Block} {decisionRound : ℕ}
    (hmin : p.nextCommitLeaders.minNextLeaderRound ≤ decisionRound) {e : FlexCommitterPanic}
    (h : decideWithAnchorBlock shuffle d p anchorBlock decisionRound = .error e) :
    e = .slotDecider ∨
      ∃ (rs : RoundState) (statuses : List LeaderStatus),
        (p.populate shuffle decisionRound).rounds[decisionRound -
          p.nextCommitLeaders.minNextLeaderRound]? = some rs ∧
        d.tryIndirectDecide anchorBlock (rs.leaderSlots.map (·.slot)) = some statuses ∧
        ((statuses.length ≠ rs.leaderSlots.length ∧ e = .statusCount) ∨
          ∃ (j : ℕ) (ls : LeaderSlot) (status : LeaderStatus),
            rs.leaderSlots[j]? = some ls ∧ statuses[j]? = some status ∧
            ls.leaderStatus.isDecided = true ∧ ls.leaderStatus ≠ status ∧
            ((status.isDecided = false ∧ e = .cannotUndecide ls.slot) ∨
              (status.isDecided = true ∧ e = .cannotUpdateDecision ls.slot))) := by
  obtain ⟨rs, hget, hrs, -, hwf₁, -⟩ := hwf.getOrCreateRoundState hperm hmin
  have hwfrs := hwf₁.rounds_wf rs (List.mem_of_getElem? hrs)
  have hnds := hwfrs.slots_nodup hwf₁.leaders_nodup
  simp only [FlexCommitter.decideWithAnchorBlock, hget, bind, Except.bind] at h
  split_ifs at h with hempty
  · cases h
  · cases hst : d.tryIndirectDecide anchorBlock (rs.leaderSlots.map (·.slot)) with
    | none =>
      simp only [hst, deciderOrPanic, throw, throwThe, MonadExceptOf.throw, Except.error.injEq] at h
      exact .inl h.symm
    | some statuses =>
      simp only [hst, deciderOrPanic, pure, Except.pure] at h
      by_cases hlen : (rs.leaderSlots.map (·.slot)).length = statuses.length
      · simp only [hlen, ne_eq, not_true_eq_false, if_false] at h
        cases hfold : ((rs.leaderSlots.map (·.slot)).zip statuses).foldlM indirectDecideSlot rs with
        | ok rs' => rw [hfold] at h; cases h
        | error e' =>
          rw [hfold] at h
          cases h
          -- the pairs are the slots of the round with their statuses, in order
          have hzip : ∀ q ∈ (rs.leaderSlots.map (·.slot)).zip statuses, ∃ (j : ℕ) (ls : LeaderSlot),
              rs.leaderSlots[j]? = some ls ∧ statuses[j]? = some q.2 ∧ ls.slot = q.1 := fun q hq => by
            obtain ⟨j, hj⟩ := List.mem_iff_getElem?.mp hq
            obtain ⟨hj₁, hj₂⟩ := List.getElem?_zip_eq_some.mp hj
            rw [List.getElem?_map] at hj₁
            obtain ⟨ls, hls, hslot⟩ := Option.map_eq_some_iff.mp hj₁
            exact ⟨j, ls, hls, hj₂, hslot⟩
          obtain ⟨q, hq, j, ls, hj, hslot, hdecided, hne, he⟩ :=
            foldlM_indirectDecideSlot_eq_error hwf₁.leaders_nodup hwfrs
              (by rw [List.map_fst_zip hlen.le]; exact hnds)
              (fun q hq => by
                obtain ⟨j, ls, hls, -, hslot⟩ := hzip q hq
                exact ⟨j, ls, hls, hls, hslot⟩) hfold
          obtain ⟨j', ls', hls', hst', hslot'⟩ := hzip q hq
          -- the update is of the leader slot at the place of the pair
          obtain rfl : j' = j := RoundState.index_eq_of_slot_eq hnds
            (List.getElem?_eq_some_iff.mp hls').1 hj (by
              rw [(List.getElem?_eq_some_iff.mp hls').2, hslot', hslot])
          rw [hls', Option.some.injEq] at hj
          subst hj
          exact .inr ⟨rs, statuses, hrs, hst, .inr ⟨j', ls', q.2, hls', hst', hdecided, hne, he⟩⟩
      · simp only [ne_eq, hlen, not_false_eq_true, if_true, throw, throwThe, MonadExceptOf.throw,
          Except.error.injEq] at h
        exact .inr ⟨rs, statuses, hrs, hst, .inl ⟨fun heq => hlen (by simpa using heq.symm), h.symm⟩⟩

/-- The indirect rule of a DAG state returns a decided status for each
decision slot. -/
theorem slotDecider_tryIndirectDecide {s : DagState} {anchorBlock : Block} {slots : List Slot}
    {statuses : List LeaderStatus}
    (h : (slotDecider s).tryIndirectDecide anchorBlock slots = some statuses) :
    statuses.length = slots.length ∧ ∀ status ∈ statuses, status.isDecided = true := by
  unfold slotDecider DagState.tryIndirectDecide at h
  obtain ⟨_, -, h⟩ := Option.bind_eq_some_iff.mp h
  obtain ⟨_, -, h⟩ := Option.bind_eq_some_iff.mp h
  obtain ⟨_, -, h⟩ := Option.bind_eq_some_iff.mp h
  obtain ⟨_, -, h⟩ := Option.bind_eq_some_iff.mp h
  obtain ⟨certified, -, h⟩ := Option.bind_eq_some_iff.mp h
  obtain rfl := Option.some.inj h
  refine ⟨List.length_map _, fun status hstatus => ?_⟩
  obtain ⟨slot, -, rfl⟩ := List.mem_map.mp hstatus
  unfold DagState.indirectStatus
  split <;> rfl

variable (shuffle) in
/-- The indirect rule contradicts a decision: from a state `q` the pass
reaches from `p`, at a round from the minimum one on with an anchor, the rule
returns for a slot decided before a status other than its own, and `e` is the
panic of the update of that slot. -/
def IndirectConflict (s : DagState) (p : PendingCommitState) (e : FlexCommitterPanic) : Prop :=
  ∃ (q : PendingCommitState) (round : ℕ) (anchorBlock : Block) (rs : RoundState)
    (statuses : List LeaderStatus) (j : ℕ) (ls : LeaderSlot) (status : LeaderStatus),
    KeepsFrom p q ∧ p.nextCommitLeaders.minNextLeaderRound ≤ round ∧
    findAnchorBlock q (round + indirectCommitDepth) = some anchorBlock ∧
    (q.populate shuffle round).rounds[round - p.nextCommitLeaders.minNextLeaderRound]? = some rs ∧
    s.tryIndirectDecide anchorBlock (rs.leaderSlots.map (·.slot)) = some statuses ∧
    rs.leaderSlots[j]? = some ls ∧ statuses[j]? = some status ∧
    ls.leaderStatus.isDecided = true ∧ ls.leaderStatus ≠ status ∧
    e = .cannotUpdateDecision ls.slot

include hperm in
/-- **The indirect pass** of a DAG state's rules fails only with the slot
decider, or on a slot decided before the pass reached its round whose status
the indirect rule, from the anchor of the round, does not return. -/
theorem tryIndirectCommit_eq_error {p : PendingCommitState} (hwf : p.WellFormed) {s : DagState}
    {e : FlexCommitterPanic}
    (h : tryIndirectCommit shuffle (slotDecider s) s.highestAcceptedRound p = .error e) :
    e = .slotDecider ∨ IndirectConflict shuffle s p e := by
  -- the failing round, from a state the earlier rounds of the pass reach
  obtain ⟨q, round, hround, hq, hstep⟩ := OptionList.foldlM_eq_error (KeepsFrom p)
    (fun q round q' hround hq hstep => by
      have hmin := hq.2.schedule_eq ▸ (List.mem_range'_1.mp (List.mem_reverse.mp hround)).1
      obtain ⟨hwf', hkeeps⟩ := indirectCommitRound_keepsFrom hperm hq.1 hmin hstep
      exact ⟨hwf', hq.2.trans hkeeps⟩) ⟨hwf, .refl p⟩ h
  have hmin₀ : p.nextCommitLeaders.minNextLeaderRound ≤ round :=
    (List.mem_range'_1.mp (List.mem_reverse.mp hround)).1
  have hschedule := hq.2.schedule_eq
  unfold FlexCommitter.indirectCommitRound at hstep
  split at hstep
  · cases hstep
  rename_i anchorBlock hanchor
  rcases decideWithAnchorBlock_eq_error hperm hq.1 (hschedule ▸ hmin₀) hstep with
    he | ⟨rs, statuses, hrs, hst, hcount | ⟨j, ls, status, hls, hstatus, hdecided, hne, he⟩⟩
  · exact .inl he
  · -- the rule returns as many statuses as slots
    exact absurd (by simpa using (slotDecider_tryIndirectDecide hst).1) hcount.1
  · rw [hschedule] at hrs
    -- the rule returns decided statuses, so the update never undecides
    have hstatusDecided := (slotDecider_tryIndirectDecide hst).2 status
      (List.mem_of_getElem? hstatus)
    rcases he with ⟨hundecided, -⟩ | ⟨-, he⟩
    · rw [hstatusDecided] at hundecided
      cases hundecided
    · exact .inr ⟨q, round, anchorBlock, rs, statuses, j, ls, status, hq, hmin₀, hanchor, hrs, hst,
        hls, hstatus, hdecided, hne, he⟩

end Panics

/-! ## Calls of `try_commit` one after another -/

/-- A call that returns was given a schedule whose commit index is not below
the pending state's. -/
theorem index_le_of_tryCommit {p p' : PendingCommitState} {s s' : DagState}
    {nextCommitLeaders : NextCommitLeaderSchedule} {result : Option (TrustedCommit × CommittedSubDag)}
    (h : tryCommit hash digest shuffle p s nextCommitLeaders = .ok (result, p', s')) :
    p.nextCommitLeaders.nextCommitIndex ≤ nextCommitLeaders.nextCommitIndex := by
  simp only [tryCommit, bind, Except.bind] at h
  cases hrefresh : maybeRefreshPendingCommitState p nextCommitLeaders with
  | error e => simp [hrefresh] at h
  | ok p₁ =>
    unfold maybeRefreshPendingCommitState at hrefresh
    split_ifs at hrefresh with hsame hlt
    · exact hsame.le
    · exact hlt.le

variable (shuffle) in
/-- A call of `try_commit` that returns, on any DAG state, with a schedule
of distinct allowed leaders. -/
def CommitCall (p p' : PendingCommitState) : Prop :=
  ∃ (s s' : DagState) (nextCommitLeaders : NextCommitLeaderSchedule)
    (result : Option (TrustedCommit × CommittedSubDag)),
    nextCommitLeaders.allowedLeaders.Nodup ∧
      tryCommit hash digest shuffle p s nextCommitLeaders = .ok (result, p', s')

include hperm in
/-- **Along calls of `try_commit`** from a well-formed pending state, the
state stays well formed, the commit index does not go back, and while the
index is where it started every decided slot keeps its status and
decision. -/
theorem commitCalls_keepsFrom {p₀ p : PendingCommitState} (hwf : p₀.WellFormed)
    (hrun : Relation.ReflTransGen (CommitCall hash digest shuffle) p₀ p) :
    p.WellFormed ∧ p₀.nextCommitLeaders.nextCommitIndex ≤ p.nextCommitLeaders.nextCommitIndex ∧
      (p₀.nextCommitLeaders.nextCommitIndex = p.nextCommitLeaders.nextCommitIndex →
        PendingCommitState.Keeps p₀ p) := by
  induction hrun with
  | refl => exact ⟨hwf, le_rfl, fun _ => .refl p₀⟩
  | @tail q p' _ hcall ih =>
    obtain ⟨hwfq, hle, hkeeps⟩ := ih
    obtain ⟨s, s', next, result, hnd, h⟩ := hcall
    obtain ⟨hwf', hindex', hkeeps', -⟩ := tryCommit_spec hash digest hperm hwfq hnd h
    have hle' := index_le_of_tryCommit hash digest h
    refine ⟨hwf', hindex' ▸ hle.trans hle', fun hsame => ?_⟩
    -- an index back where it started has not moved in between
    have hq : p₀.nextCommitLeaders.nextCommitIndex = q.nextCommitLeaders.nextCommitIndex := by omega
    exact (hkeeps hq).trans (hkeeps' (by omega))

include hperm in
/-- **The pending state of the flex committer across calls of `try_commit`.**
After calls that returned from a well-formed pending state, a call with a
schedule of distinct allowed leaders leaves the pending state well formed
under the schedule's commit index; while that index is the one of the start,
every slot decided since the start keeps its status and decision; and a
commit it returns has the index and is of the lowest round from the minimum
one up to which every round is decided and which has a committed slot. On a
well-formed pending state, the updates of the direct pass never panic, and
those of the indirect pass only where the indirect rule contradicts a slot
decided before. -/
theorem tryCommit_calls_spec {p₀ p p' : PendingCommitState} {s s' : DagState}
    {nextCommitLeaders : NextCommitLeaderSchedule} {result : Option (TrustedCommit × CommittedSubDag)}
    (hwf : p₀.WellFormed) (hrun : Relation.ReflTransGen (CommitCall hash digest shuffle) p₀ p)
    (hnd : nextCommitLeaders.allowedLeaders.Nodup)
    (h : tryCommit hash digest shuffle p s nextCommitLeaders = .ok (result, p', s')) :
    (p'.WellFormed ∧ p'.nextCommitLeaders.nextCommitIndex = nextCommitLeaders.nextCommitIndex ∧
      (p₀.nextCommitLeaders.nextCommitIndex = nextCommitLeaders.nextCommitIndex →
        PendingCommitState.Keeps p₀ p') ∧
      ∀ commit subDag, result = some (commit, subDag) →
        commit.inner.index = nextCommitLeaders.nextCommitIndex ∧
        p'.nextCommitLeaders.minNextLeaderRound ≤ commit.inner.leader.round ∧
        IsCommitLeaderRound p'.rounds commit.inner.leader.round) ∧
    ∀ q : PendingCommitState, q.WellFormed → ∀ e : FlexCommitterPanic,
      (tryDirectCommit shuffle (slotDecider s) s.highestAcceptedRound q = .error e →
        e = .slotDecider) ∧
      (tryIndirectCommit shuffle (slotDecider s) s.highestAcceptedRound q = .error e →
        e = .slotDecider ∨ IndirectConflict shuffle s q e) := by
  obtain ⟨hwfp, hle, hkeeps⟩ := commitCalls_keepsFrom hash digest hperm hwf hrun
  obtain ⟨hwf', hindex', hkeeps', hcommit⟩ := tryCommit_spec hash digest hperm hwfp hnd h
  have hle' := index_le_of_tryCommit hash digest h
  refine ⟨⟨hwf', hindex', fun hsame => ?_, hcommit⟩, fun q hq e =>
    ⟨tryDirectCommit_eq_error hperm hq, tryIndirectCommit_eq_error hperm hq⟩⟩
  -- the index stayed over the earlier calls too
  have hp : p₀.nextCommitLeaders.nextCommitIndex = p.nextCommitLeaders.nextCommitIndex := by omega
  exact (hkeeps hp).trans (hkeeps' (by omega))

/-- With an authority listed twice among the allowed leaders, a round has two
slots of one name, and a decision reaches only the first. On a DAG state
with blocks of authorities 1 to 3 at round one and a quorum at round two,
the direct rule skips the slot of authority 0: after a first call from the
empty pending state, round one counts no undecided slot though its second
slot is undecided. With authority 1 allowed too, its block is committed, the
round counts as decided, and the call panics on the undecided slot. -/
theorem tryCommit_duplicate_leader :
    let B : ℕ → Block := fun i => ⟨0, 1, i, 0, [], [], 10 + i⟩
    let C : ℕ → Block := fun j =>
      ⟨0, 2, j, 0, [(B 1).reference, (B 2).reference, (B 3).reference], [], 20 + j⟩
    let context : Context := ⟨0, 0, ⟨0, [⟨25⟩, ⟨25⟩, ⟨25⟩, ⟨25⟩], 100, 81, 39, 20⟩,
      ⟨0, some 1, 0, 1, 1, true, 0, 0, 0⟩⟩
    let children : Finset BlockRef := ((List.range 4).map fun j => (C j).reference).toFinset
    let s : DagState := ⟨context, [],
      ([1, 2, 3].map fun i => (⟨B i, children, ⟨{0, 1, 2, 3}, 100⟩, false⟩ : BlockInfo)) ++
        (List.range 4).map fun j => (⟨C j, ∅, .new, false⟩ : BlockInfo),
      [⟨1, ([1, 2, 3].map fun i => (B i).reference).toFinset, ⟨{1, 2, 3}, 75⟩⟩,
       ⟨2, children, ⟨{0, 1, 2, 3}, 100⟩⟩], 2, none⟩
    (tryCommit (fun _ => 0) (fun _ => 0) (fun _ l => l) ⟨⟨0, 1, [0, 0]⟩, []⟩ s ⟨0, 1, [0, 0]⟩).map
        (fun r => (r.1.isSome, r.2.1.rounds.map fun rs =>
          (rs.undecidedSlots, rs.leaderSlots.map (·.leaderStatus)))) =
      .ok (false, [(∅, [.skip ⟨1, 0⟩, .undecided ⟨1, 0⟩])]) ∧
    (tryCommit (fun _ => 0) (fun _ => 0) (fun _ l => l) ⟨⟨0, 1, [0, 0, 1]⟩, []⟩ s
        ⟨0, 1, [0, 0, 1]⟩).map (fun _ => ()) =
      .error (.unexpectedUndecidedSlot ⟨1, 0⟩) :=
  -- the direct rule sorts the skip votes, which only the kernel unfolds
  ⟨by decide +kernel, by decide +kernel⟩

end Pending

end FlexCommitter

end Sui
