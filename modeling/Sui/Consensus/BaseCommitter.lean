import Sui.Consensus.DagState
import Sui.Consensus.StakeAggregator

/-!
# The Mysticeti commit rules (`base_committer.rs`)

A `BaseCommitter` decides leader slots of one leader offset and one pipeline
stage. Waves are `wave_length` rounds long: the leader round, then voting
rounds, then the decision round.

* **Direct rule** (`try_direct_decide`): skip the leader when a quorum of the
  voting round's blocks blames it (none of their ancestors is by the leader);
  commit a leader block when a quorum of the decision round's blocks are
  certificates for it; otherwise leave it undecided.
* **Indirect rule** (`try_indirect_decide`): take the first committed leader
  at least a wave above as anchor, passing over skipped ones and stopping at
  an undecided one, and commit the leader block that has a certificate in the
  anchor's history at the decision round, skipping the slot if none has.

A block *votes* for a leader block when the depth-first search
`find_supported_block` from it reaches the leader's slot at that block; a
block is a *certificate* when its ancestors include votes of a quorum. The
search panics on a missing block and runs on fuel here: from a block of round
`r` it never descends more than `r` times on a causal DAG.

The panics of the source — a missing block, a round with committed blocks,
more than one supported or certified leader block — are `none`.
-/

namespace Sui

/-- `BaseCommitterOptions`. -/
structure BaseCommitterOptions where
  /-- the length of a wave -/
  waveLength : ℕ
  /-- which of the round's leaders this committer elects -/
  leaderOffset : ℕ
  /-- the offset of the first wave, for pipelining -/
  roundOffset : ℕ
  deriving DecidableEq, Repr

/-- `BaseCommitterOptions::default`. -/
def BaseCommitterOptions.default : BaseCommitterOptions := ⟨defaultWaveLength, 0, 0⟩

/-- The leader schedule, as the committers consult it:
`LeaderSchedule::elect_leader(round, leader_offset)`. Its stake-weighted
shuffle and swap table are external to the model. -/
structure LeaderSchedule where
  /-- the leader of a round at an offset -/
  electLeader : ℕ → ℕ → ℕ

/-- `BaseCommitter`: the leader schedule and the options. The context and the
DAG state are those of the `DagState` each rule is given. -/
structure BaseCommitter where
  /-- the shared leader schedule -/
  leaderSchedule : LeaderSchedule
  /-- the options of this committer -/
  options : BaseCommitterOptions

namespace BaseCommitter

variable (c : BaseCommitter) (s : DagState)

/-- `BaseCommitter::wave_number`. -/
def waveNumber (round : ℕ) : ℕ := (round - c.options.roundOffset) / c.options.waveLength

/-- `BaseCommitter::leader_round`. -/
def leaderRound (wave : ℕ) : ℕ := wave * c.options.waveLength + c.options.roundOffset

/-- `BaseCommitter::decision_round`. -/
def decisionRound (wave : ℕ) : ℕ :=
  wave * c.options.waveLength + c.options.waveLength - 1 + c.options.roundOffset

/-- `BaseCommitter::elect_leader`: a slot for the leader rounds of this
committer's waves only. -/
def electLeader (round : ℕ) : Option Slot :=
  let wave := c.waveNumber round
  if c.leaderRound wave ≠ round then none
  else some ⟨round, c.leaderSchedule.electLeader round c.options.leaderOffset⟩

/-! ## Votes and certificates -/

/-- `BaseCommitter::find_supported_block`: the depth-first search, on fuel,
for the block a block supports at a slot. `some none` is "no support";
`none` is a panic (a missing block) or exhausted fuel. -/
def findSupportedBlock (leaderSlot : Slot) : ℕ → Block → Option (Option BlockRef)
  | 0, _ => none
  | fuel + 1, fromBlock =>
    if fromBlock.round < leaderSlot.round then some none
    else
      fromBlock.ancestors.findSomeM? fun ancestor =>
        if Slot.ofRef ancestor = leaderSlot then some (some ancestor)
        -- weak links may point to blocks with lower round numbers than strong links
        else if ancestor.round ≤ leaderSlot.round then some none
        else do
          let ancestor ← s.getBlock ancestor
          findSupportedBlock leaderSlot fuel ancestor

/-- `BaseCommitter::is_vote`. The search from a block of round `r` descends
at most `r` times, which the fuel allows. -/
def isVote (potentialVote leaderBlock : Block) : Option Bool := do
  let reference := leaderBlock.reference
  let leaderSlot := Slot.ofRef reference
  let supported ← findSupportedBlock s leaderSlot (potentialVote.round + 1) potentialVote
  pure (supported = some reference)

/-- The `all_votes` cache of `is_certificate`: references already known to
be votes, or not, for one leader block. -/
abbrev VoteCache := BlockRef → Option Bool

/-- What `is_certificate` computes for a reference missing from the cache:
whether its block votes for the leader block. -/
def voteOfReference (leaderBlock : Block) (gcRound : ℕ) (reference : BlockRef) : Option Bool :=
  match s.getBlock reference with
  | some potentialVote => isVote s potentialVote leaderBlock
  -- a missing block must lie at or below the gc round
  | none => if reference.round ≤ gcRound then some false else none

/-- The cache lookup of `is_certificate`: the cached verdict, or the one
computed afresh, which is then cached. -/
def cachedVote (leaderBlock : Block) (gcRound : ℕ) (allVotes : VoteCache) (reference : BlockRef) :
    Option (Bool × VoteCache) :=
  match allVotes reference with
  | some isVote => some (isVote, allVotes)
  | none => do
    let isVote ← voteOfReference s leaderBlock gcRound reference
    some (isVote, Function.update allVotes reference (some isVote))

/-- The loop of `BaseCommitter::is_certificate` over the ancestors of the
potential certificate, with the vote aggregator and the cache. -/
def isCertificateLoop (leaderBlock : Block) (gcRound : ℕ) :
    StakeAggregator .quorumThreshold → List BlockRef → VoteCache → Option (Bool × VoteCache)
  | _, [], allVotes => some (false, allVotes)
  | votesStakeAggregator, reference :: rest, allVotes => do
    let (isVote, allVotes) ← cachedVote s leaderBlock gcRound allVotes reference
    if isVote then
      if (votesStakeAggregator.add reference.author s.context.committee).2 then
        some (true, allVotes)
      else
        isCertificateLoop leaderBlock gcRound
          (votesStakeAggregator.add reference.author s.context.committee).1 rest allVotes
    else isCertificateLoop leaderBlock gcRound votesStakeAggregator rest allVotes

/-- `BaseCommitter::is_certificate`; returns the updated cache. -/
def isCertificate (potentialCertificate leaderBlock : Block) (allVotes : VoteCache) :
    Option (Bool × VoteCache) :=
  isCertificateLoop s leaderBlock s.gcRound StakeAggregator.new potentialCertificate.ancestors
    allVotes

/-- `potential_certificates.iter().any(..)` in `decide_leader_from_anchor`:
the certificates checked in order with one cache, stopping at the first. -/
def anyCertificate (leaderBlock : Block) : List Block → VoteCache → Option Bool
  | [], _ => some false
  | potentialCertificate :: rest, allVotes => do
    let (certified, allVotes) ← isCertificate s potentialCertificate leaderBlock allVotes
    if certified then some true else anyCertificate leaderBlock rest allVotes

/-! ## The rules -/

/-- `BaseCommitter::decide_leader_from_anchor`. -/
def decideLeaderFromAnchor (anchor : Block) (leaderSlot : Slot) : Option LeaderStatus := do
  -- there could be more than one leader block in the slot from a Byzantine authority
  let leaderBlocks := s.getUncommittedBlocksAtSlot leaderSlot
  let wave := c.waveNumber leaderSlot.round
  let decisionRound := c.decisionRound wave
  let potentialCertificates ← s.ancestorsAtRound anchor decisionRound
  let certifiedLeaderBlocks ← leaderBlocks.filterM fun leaderBlock =>
    anyCertificate s leaderBlock potentialCertificates fun _ => none
  if 1 < certifiedLeaderBlocks.length then none
  else
    match certifiedLeaderBlocks.getLast? with
    | some certifiedLeaderBlock => some (.commit certifiedLeaderBlock)
    | none => some (.skip leaderSlot)

/-- `BaseCommitter::enough_leader_blame`: whether the voting blocks that have
no ancestor by the leader carry a quorum. -/
def enoughLeaderBlame (votingRound leader : ℕ) : Option Bool := do
  let votingBlocks ← s.getUncommittedBlocksAtRound votingRound
  pure ((StakeAggregator.new : StakeAggregator .quorumThreshold).addUntilThreshold s.context.committee
    ((votingBlocks.filter fun b => b.ancestors.all (·.author ≠ leader)).map (·.author)))

/-- The loop of `BaseCommitter::enough_leader_support` over the decision
blocks, with the certificate aggregator and one vote cache. -/
def enoughLeaderSupportLoop (leaderBlock : Block) :
    StakeAggregator .quorumThreshold → List Block → VoteCache → Option Bool
  | _, [], _ => some false
  | certificateStakeAggregator, decisionBlock :: rest, allVotes => do
    let authority := decisionBlock.author
    let (certified, allVotes) ← isCertificate s decisionBlock leaderBlock allVotes
    if certified then
      if (certificateStakeAggregator.add authority s.context.committee).2 then some true
      else
        enoughLeaderSupportLoop leaderBlock
          (certificateStakeAggregator.add authority s.context.committee).1 rest allVotes
    else enoughLeaderSupportLoop leaderBlock certificateStakeAggregator rest allVotes

/-- `BaseCommitter::enough_leader_support`: a quick rejection when the
decision round's blocks together lack a quorum, then the certificate count. -/
def enoughLeaderSupport (decisionRound : ℕ) (leaderBlock : Block) : Option Bool := do
  let decisionBlocks ← s.getUncommittedBlocksAtRound decisionRound
  let totalStake := (decisionBlocks.map (s.context.committee.stake ·.author)).sum
  if ¬ s.context.committee.reachedQuorum totalStake then some false
  else enoughLeaderSupportLoop s leaderBlock StakeAggregator.new decisionBlocks fun _ => none

/-- `BaseCommitter::try_direct_decide`. -/
def tryDirectDecide (leader : Slot) : Option LeaderStatus := do
  let votingRound := leader.round + 1
  let blamed ← enoughLeaderBlame s votingRound leader.authority
  if blamed then some (.skip leader)
  else
    let wave := c.waveNumber leader.round
    let decisionRound := c.decisionRound wave
    let leaderBlocks := s.getUncommittedBlocksAtSlot leader
    let leadersWithEnoughSupport ← leaderBlocks.filterM (enoughLeaderSupport s decisionRound)
    -- more than one supported leader block breaks the BFT assumption
    if 1 < leadersWithEnoughSupport.length then none
    else
      match leadersWithEnoughSupport.getLast? with
      | some leaderBlock => some (.commit leaderBlock)
      | none => some (.undecided leader)

/-- `BaseCommitter::try_indirect_decide`, over the statuses of the leaders
above, lowest first. -/
def tryIndirectDecide (leaderSlot : Slot) : List LeaderStatus → Option LeaderStatus
  | [] => some (.undecided leaderSlot)
  | anchor :: rest =>
    if leaderSlot.round + c.options.waveLength ≤ anchor.round then
      match anchor with
      | .commit anchor => c.decideLeaderFromAnchor s anchor leaderSlot
      | .skip _ => tryIndirectDecide leaderSlot rest
      | .undecided _ => some (.undecided leaderSlot)
    else tryIndirectDecide leaderSlot rest

/-! ## The search on a causal DAG

On a causal DAG every ancestor lookup succeeds and every ancestor lies a
round below, so the search from a block of round `r` finishes within `r + 1`
steps of fuel, and what it finds is a reference of the slot, found at a
block above the slot's round. -/

section Search

variable {s}

theorem findSupportedBlock_isSome (hD : s.CausalDag) (leaderSlot : Slot) :
    ∀ (fuel : ℕ) (b : Block), b ∈ s.blocks → b.round < fuel →
      (findSupportedBlock s leaderSlot fuel b).isSome
  | 0, _, _, hlt => absurd hlt (Nat.not_lt_zero _)
  | fuel + 1, b, hb, hlt => by
    rw [findSupportedBlock]
    split_ifs
    · rfl
    · refine OptionList.findSomeM?_isSome fun a ha => ?_
      split_ifs
      · rfl
      · rfl
      · obtain ⟨b', hb', rfl, hget⟩ := hD.getBlock_ancestor hb ha
        have hround := hD.ancestor_round_lt b hb _ ha
        rw [hget]
        exact findSupportedBlock_isSome hD leaderSlot fuel b' hb' (by simp at hround; omega)

/-- One round of a search that finds a reference: it is an ancestor at the
slot, or the search found it from the block of an ancestor above the slot's
round. -/
theorem findSupportedBlock_succ_eq_some_some (hD : s.CausalDag) {leaderSlot : Slot} {fuel : ℕ}
    {b : Block} (hb : b ∈ s.blocks) {x : BlockRef}
    (h : findSupportedBlock s leaderSlot (fuel + 1) b = some (some x)) :
    ∃ a ∈ b.ancestors, (Slot.ofRef a = leaderSlot ∧ x = a) ∨
      (leaderSlot.round < a.round ∧ ∃ b' ∈ s.blocks, b'.reference = a ∧
        findSupportedBlock s leaderSlot fuel b' = some (some x)) := by
  rw [findSupportedBlock] at h
  split_ifs at h with hlt
  · cases h
  obtain ⟨a, ha, hstep⟩ := OptionList.exists_of_findSomeM?_eq_some h
  refine ⟨a, ha, ?_⟩
  split_ifs at hstep with hslot hle
  · cases hstep
    exact .inl ⟨hslot, rfl⟩
  · cases hstep
  · obtain ⟨b', hb', rfl, hget⟩ := hD.getBlock_ancestor hb ha
    rw [hget] at hstep
    exact .inr ⟨by omega, b', hb', rfl, hstep⟩

/-- **What the search finds.** A reference of the slot, found from a block
above the slot's round; from a block one round above, it is one of the block's
own ancestors. -/
theorem findSupportedBlock_eq_some_some (hD : s.CausalDag) {leaderSlot : Slot} :
    ∀ (fuel : ℕ) (b : Block), b ∈ s.blocks → ∀ {x : BlockRef},
      findSupportedBlock s leaderSlot fuel b = some (some x) →
        Slot.ofRef x = leaderSlot ∧ leaderSlot.round < b.round ∧
          (b.round = leaderSlot.round + 1 → x ∈ b.ancestors)
  | 0, _, _, _, h => by cases h
  | fuel + 1, b, hb, x, h => by
    obtain ⟨a, ha, ⟨hslot, rfl⟩ | ⟨hlt, b', hb', rfl, hstep⟩⟩ :=
      findSupportedBlock_succ_eq_some_some hD hb h
    · -- the ancestor is at the slot itself
      have haround := hD.ancestor_round_lt b hb _ ha
      exact ⟨hslot, by rw [← hslot]; exact haround, fun _ => ha⟩
    · -- found further down, through an ancestor above the slot's round
      have haround := hD.ancestor_round_lt b hb _ ha
      obtain ⟨hx, hlt', -⟩ := findSupportedBlock_eq_some_some hD fuel b' hb' hstep
      simp only [Block.reference_round] at haround hlt
      exact ⟨hx, by omega, fun _ => by omega⟩

/-- What the search finds is the reference of a block of the state. -/
theorem exists_block_of_findSupportedBlock (hD : s.CausalDag) {leaderSlot : Slot} :
    ∀ (fuel : ℕ) (b : Block), b ∈ s.blocks → ∀ {x : BlockRef},
      findSupportedBlock s leaderSlot fuel b = some (some x) → ∃ b' ∈ s.blocks, b'.reference = x
  | 0, _, _, _, h => by cases h
  | fuel + 1, b, hb, x, h => by
    obtain ⟨a, ha, ⟨-, rfl⟩ | ⟨-, b', hb', -, hstep⟩⟩ := findSupportedBlock_succ_eq_some_some hD hb h
    · exact hD.closed b hb x ha
    · exact exists_block_of_findSupportedBlock hD fuel b' hb' hstep

/-- **The search reads only the block's history**, which a later view
shares. -/
theorem findSupportedBlock_of_extends {s' : DagState} (he : s.Extends s') (hD : s.CausalDag)
    (hD' : s'.CausalDag) (leaderSlot : Slot) :
    ∀ (fuel : ℕ) (b : Block), b ∈ s.blocks →
      findSupportedBlock s' leaderSlot fuel b = findSupportedBlock s leaderSlot fuel b
  | 0, _, _ => rfl
  | fuel + 1, b, hb => by
    rw [findSupportedBlock, findSupportedBlock]
    split_ifs
    · rfl
    · refine OptionList.findSomeM?_congr fun a ha => ?_
      split_ifs
      · rfl
      · rfl
      · obtain ⟨b', hb', rfl, hget⟩ := hD.getBlock_ancestor hb ha
        rw [hget, he.getBlock_eq hD hD' hget]
        exact findSupportedBlock_of_extends he hD hD' leaderSlot fuel b' hb'

theorem isVote_eq_some_true {V B : Block} :
    isVote s V B = some true ↔
      findSupportedBlock s (Slot.ofRef B.reference) (V.round + 1) V = some (some B.reference) := by
  unfold isVote
  cases h : findSupportedBlock s (Slot.ofRef B.reference) (V.round + 1) V with
  | none => simp [h]
  | some r => simp [h]

theorem isVote_isSome (hD : s.CausalDag) {V : Block} (hV : V ∈ s.blocks) (B : Block) :
    ∃ v, isVote s V B = some v := by
  obtain ⟨r, hr⟩ := Option.isSome_iff_exists.mp
    (findSupportedBlock_isSome hD (Slot.ofRef B.reference) (V.round + 1) V hV (Nat.lt_succ_self _))
  exact ⟨decide (r = some B.reference), by rw [isVote, hr]; rfl⟩

/-- **A block votes for at most one block of a slot**: the search returns
one reference. -/
theorem reference_eq_of_isVote {V B B' : Block} (h : isVote s V B = some true)
    (h' : isVote s V B' = some true) (hslot : B.slot = B'.slot) :
    B.reference = B'.reference := by
  rw [isVote_eq_some_true] at h h'
  have hslot' : Slot.ofRef B.reference = Slot.ofRef B'.reference := hslot
  rw [hslot', h'] at h
  exact (Option.some.inj (Option.some.inj h)).symm

/-- A vote lies above the block it votes for. -/
theorem round_lt_of_isVote (hD : s.CausalDag) {V B : Block} (hV : V ∈ s.blocks)
    (h : isVote s V B = some true) : B.round < V.round :=
  (findSupportedBlock_eq_some_some hD _ V hV (isVote_eq_some_true.mp h)).2.1

/-- A vote one round above the block it votes for links to it directly. -/
theorem mem_ancestors_of_isVote (hD : s.CausalDag) {V B : Block} (hV : V ∈ s.blocks)
    (h : isVote s V B = some true) (hround : V.round = B.round + 1) :
    B.reference ∈ V.ancestors :=
  (findSupportedBlock_eq_some_some hD _ V hV (isVote_eq_some_true.mp h)).2.2 hround

theorem isVote_of_extends {s' : DagState} (he : s.Extends s') (hD : s.CausalDag)
    (hD' : s'.CausalDag) {V : Block} (hV : V ∈ s.blocks) (B : Block) :
    isVote s' V B = isVote s V B := by
  rw [isVote, isVote, findSupportedBlock_of_extends he hD hD' _ _ V hV]

end Search

/-! ## Certificates

The vote cache only ever holds what the lookup computes (`CacheSound`), so
the loops with the cache compute the same as without it: whether the voters
among a certificate's ancestors, or the certificates among the decision
blocks, reach a quorum. -/

section Certificates

variable {s}

/-- Every cached verdict is the one the lookup computes. -/
def CacheSound (s : DagState) (leaderBlock : Block) (gcRound : ℕ) (allVotes : VoteCache) : Prop :=
  ∀ r v, allVotes r = some v → voteOfReference s leaderBlock gcRound r = some v

theorem cacheSound_empty {B : Block} {gc : ℕ} : CacheSound s B gc fun _ => none :=
  fun _ _ h => by cases h

theorem CacheSound.update {B : Block} {gc : ℕ} {allVotes : VoteCache} (h : CacheSound s B gc allVotes)
    {r : BlockRef} {v : Bool} (hr : voteOfReference s B gc r = some v) :
    CacheSound s B gc (Function.update allVotes r (some v)) := by
  intro r' v' h'
  by_cases hr' : r' = r
  · subst hr'
    rw [Function.update_self] at h'
    cases h'
    exact hr
  · rw [Function.update_of_ne hr'] at h'
    exact h r' v' h'

/-- The authors of the references that vote for the leader block. -/
def voters (s : DagState) (leaderBlock : Block) (gcRound : ℕ) (refs : List BlockRef) : List ℕ :=
  (refs.filter fun r => voteOfReference s leaderBlock gcRound r = some true).map (·.author)

theorem voters_cons {B : Block} {gc : ℕ} {r : BlockRef} {refs : List BlockRef} :
    voters s B gc (r :: refs) =
      if voteOfReference s B gc r = some true then r.author :: voters s B gc refs
      else voters s B gc refs := by
  unfold voters
  rw [List.filter_cons]
  split_ifs with h1 h2 h2 <;> simp_all

/-- A lookup that hits the cache or computes afresh yields the lookup's
verdict and a sound cache. -/
theorem cachedVote_eq {B : Block} {gc : ℕ} {allVotes : VoteCache} (h : CacheSound s B gc allVotes)
    {r : BlockRef} {v : Bool} (hr : voteOfReference s B gc r = some v) :
    ∃ allVotes', CacheSound s B gc allVotes' ∧ cachedVote s B gc allVotes r = some (v, allVotes') := by
  unfold cachedVote
  cases hcache : allVotes r with
  | some w =>
    have hw : w = v := by
      have := h r w hcache
      rw [hr] at this
      exact (Option.some.inj this).symm
    exact ⟨allVotes, h, by rw [hw]⟩
  | none => exact ⟨_, h.update hr, by rw [hr]; rfl⟩

/-- **The certificate loop counts the voters.** With a sound cache and
lookups that succeed, `is_certificate`'s loop returns whether the voters among
the references, counted until the quorum, reach it. -/
theorem isCertificateLoop_spec {B : Block} {gc : ℕ} :
    ∀ (refs : List BlockRef) (agg : StakeAggregator .quorumThreshold) (allVotes : VoteCache),
      CacheSound s B gc allVotes → (∀ r ∈ refs, (voteOfReference s B gc r).isSome) →
      ∃ allVotes', CacheSound s B gc allVotes' ∧
        isCertificateLoop s B gc agg refs allVotes =
          some (agg.addUntilThreshold s.context.committee (voters s B gc refs), allVotes')
  | [], _, allVotes, h, _ => ⟨allVotes, h, rfl⟩
  | r :: refs, agg, allVotes, h, hsome => by
    obtain ⟨v, hv⟩ := Option.isSome_iff_exists.mp (hsome r List.mem_cons_self)
    have hrest : ∀ x ∈ refs, (voteOfReference s B gc x).isSome :=
      fun x hx => hsome x (List.mem_cons_of_mem _ hx)
    obtain ⟨cache, hcache, hpair⟩ := cachedVote_eq h hv
    rw [isCertificateLoop, hpair, voters_cons]
    cases v with
    | false =>
      obtain ⟨cache', hcache', heq⟩ := isCertificateLoop_spec refs agg cache hcache hrest
      exact ⟨cache', hcache', by simpa [hv] using heq⟩
    | true =>
      simp only [hv, if_true, StakeAggregator.addUntilThreshold]
      by_cases hreached : (agg.add r.author s.context.committee).2 = true
      · exact ⟨cache, hcache, by simp [hreached]⟩
      · obtain ⟨cache', hcache', heq⟩ :=
          isCertificateLoop_spec refs (agg.add r.author s.context.committee).1 cache hcache hrest
        exact ⟨cache', hcache', by simpa [hreached] using heq⟩

/-- A block is a certificate for the leader block when the voters among its
ancestors carry a quorum. -/
def Certifies (s : DagState) (C B : Block) : Prop :=
  s.context.committee.quorumThreshold ≤
    s.context.committee.weight (voters s B s.gcRound C.ancestors).toFinset

instance {C B : Block} : Decidable (Certifies s C B) := by
  unfold Certifies
  infer_instance

/-- On a causal DAG the lookup of an ancestor is the vote of its block. -/
theorem voteOfReference_ancestor (hD : s.CausalDag) {b : Block} (hb : b ∈ s.blocks) {r : BlockRef}
    (hr : r ∈ b.ancestors) (B : Block) (gc : ℕ) :
    ∃ V ∈ s.blocks, V.reference = r ∧ voteOfReference s B gc r = isVote s V B := by
  obtain ⟨V, hV, rfl, hget⟩ := hD.getBlock_ancestor hb hr
  exact ⟨V, hV, rfl, by rw [voteOfReference, hget]⟩

theorem voteOfReference_ancestor_isSome (hD : s.CausalDag) {b : Block} (hb : b ∈ s.blocks)
    (B : Block) (gc : ℕ) : ∀ r ∈ b.ancestors, (voteOfReference s B gc r).isSome := by
  intro r hr
  obtain ⟨V, hV, -, heq⟩ := voteOfReference_ancestor hD hb hr B gc
  obtain ⟨v, hv⟩ := isVote_isSome hD hV B
  rw [heq, hv]
  rfl

/-- **`is_certificate` decides `Certifies`**, and leaves the cache sound. -/
theorem isCertificate_spec (hD : s.CausalDag) (hq : 0 < s.context.committee.quorumThreshold)
    {C B : Block} (hC : C ∈ s.blocks) {allVotes : VoteCache}
    (h : CacheSound s B s.gcRound allVotes) :
    ∃ allVotes', CacheSound s B s.gcRound allVotes' ∧
      isCertificate s C B allVotes = some (decide (Certifies s C B), allVotes') := by
  obtain ⟨cache, hcache, heq⟩ := isCertificateLoop_spec C.ancestors StakeAggregator.new allVotes h
    (voteOfReference_ancestor_isSome hD hC B s.gcRound)
  refine ⟨cache, hcache, ?_⟩
  rw [isCertificate, heq]
  congr
  exact Bool.eq_iff_iff.mpr ((StakeAggregator.addUntilThreshold_new_iff (T := .quorumThreshold) hq _).trans
    decide_eq_true_iff.symm)

/-- **`any` over potential certificates decides whether one certifies.** -/
theorem anyCertificate_spec (hD : s.CausalDag) (hq : 0 < s.context.committee.quorumThreshold)
    {B : Block} : ∀ (pcs : List Block) (allVotes : VoteCache), (∀ C ∈ pcs, C ∈ s.blocks) →
      CacheSound s B s.gcRound allVotes →
      anyCertificate s B pcs allVotes = some (decide (∃ C ∈ pcs, Certifies s C B))
  | [], _, _, _ => by simp [anyCertificate]
  | C :: pcs, allVotes, hpcs, h => by
    obtain ⟨cache, hcache, heq⟩ := isCertificate_spec hD hq (hpcs C List.mem_cons_self) h
    rw [anyCertificate, heq]
    by_cases hC : Certifies s C B
    · simp [hC]
    · have := anyCertificate_spec hD hq pcs cache (fun x hx => hpcs x (List.mem_cons_of_mem _ hx))
        hcache
      simp only [hC, decide_false, Bool.false_eq_true, if_false, Option.bind_eq_bind,
        Option.bind_some, List.exists_mem_cons_iff, false_or]
      exact this

/-- The voters among a block's ancestors are those of a later view. -/
theorem voters_of_extends {s' : DagState} (he : s.Extends s') (hD : s.CausalDag)
    (hD' : s'.CausalDag) {b : Block} (hb : b ∈ s.blocks) (B : Block) (gc gc' : ℕ) :
    voters s' B gc' b.ancestors = voters s B gc b.ancestors := by
  unfold voters
  congr 1
  refine List.filter_congr fun r hr => ?_
  obtain ⟨V, hV, rfl, heq⟩ := voteOfReference_ancestor hD hb hr B gc
  obtain ⟨V', hV', hVV, heq'⟩ := voteOfReference_ancestor hD' (he.mem_blocks hb) hr B gc'
  have hV'V : V' = V := hD'.eq_of_reference_eq hV' (he.mem_blocks hV) hVV
  rw [heq, heq', hV'V, isVote_of_extends he hD hD' hV]

/-- **Certificates of the earlier view stay certificates.** -/
theorem certifies_of_extends {s' : DagState} (he : s.Extends s') (hD : s.CausalDag)
    (hD' : s'.CausalDag) {C : Block} (hC : C ∈ s.blocks) (B : Block) :
    Certifies s' C B ↔ Certifies s C B := by
  unfold Certifies
  rw [voters_of_extends he hD hD' hC B s.gcRound s'.gcRound, he.context_eq]

end Certificates

/-! ## The rules on a causal DAG

Each rule computes a statement about the DAG: blames and certificates of a
quorum for the direct rule, certificates in the anchor's history for the
indirect one. What remains of their panics is the check for more than one
candidate, which the quorum arguments of `Sui.Consensus.CommitSafety`
discharge. -/

section Rules

variable {c s}

/-- The leader block has a certificate at round `d` in the history of the
anchor `A`. -/
def CertifiedFrom (s : DagState) (A : Block) (d : ℕ) (B : Block) : Prop :=
  ∃ C ∈ s.blocks, C.round = d ∧
    Worklist.Reach s.ancestorRefs (DagState.atOrBelow d) A.ancestors.toFinset C.reference ∧
      Certifies s C B

/-- `decide_leader_from_anchor` filters the slot's blocks by a certificate in
the anchor's history and returns the one left. -/
theorem decideLeaderFromAnchor_eq_filter (hD : s.CausalDag)
    (hq : 0 < s.context.committee.quorumThreshold) {A : Block} (hA : A ∈ s.blocks)
    (leaderSlot : Slot) :
    ∃ p : Block → Bool, (∀ B, p B = true ↔
        CertifiedFrom s A (c.decisionRound (c.waveNumber leaderSlot.round)) B) ∧
      c.decideLeaderFromAnchor s A leaderSlot =
        if 1 < ((s.getUncommittedBlocksAtSlot leaderSlot).filter p).length then none
        else
          match ((s.getUncommittedBlocksAtSlot leaderSlot).filter p).getLast? with
          | some B => some (.commit B)
          | none => some (.skip leaderSlot) := by
  obtain ⟨pcs, hpcs, hmem⟩ := hD.ancestorsAtRound_spec
    (e := c.decisionRound (c.waveNumber leaderSlot.round)) hA
  have hpcsD : ∀ C ∈ pcs, C ∈ s.blocks := fun C hC => ((hmem C).mp hC).1
  refine ⟨fun B => decide (∃ C ∈ pcs, Certifies s C B), fun B => ?_, ?_⟩
  · rw [decide_eq_true_iff]
    constructor
    · rintro ⟨C, hC, hcert⟩
      obtain ⟨hCD, hround, hreach⟩ := (hmem C).mp hC
      exact ⟨C, hCD, hround, hreach, hcert⟩
    · rintro ⟨C, hCD, hround, hreach, hcert⟩
      exact ⟨C, (hmem C).mpr ⟨hCD, hround, hreach⟩, hcert⟩
  · have hfilter := OptionList.filterM_eq_some_filter
      (l := s.getUncommittedBlocksAtSlot leaderSlot)
      (q := fun B => decide (∃ C ∈ pcs, Certifies s C B)) fun B _ =>
        anyCertificate_spec hD hq pcs _ hpcsD cacheSound_empty
    simp only [decideLeaderFromAnchor, hpcs, hfilter, Option.bind_eq_bind, Option.bind_some]

/-- **The indirect rule commits a certified leader block**, when it is the
only one with a certificate in the anchor's history. -/
theorem decideLeaderFromAnchor_of_certifiedFrom (hD : s.CausalDag)
    (hq : 0 < s.context.committee.quorumThreshold) {A : Block} (hA : A ∈ s.blocks)
    {leaderSlot : Slot} {B : Block} (hB : B ∈ s.getUncommittedBlocksAtSlot leaderSlot)
    (hcert : CertifiedFrom s A (c.decisionRound (c.waveNumber leaderSlot.round)) B)
    (huniq : ∀ B' ∈ s.getUncommittedBlocksAtSlot leaderSlot,
      CertifiedFrom s A (c.decisionRound (c.waveNumber leaderSlot.round)) B' → B' = B) :
    c.decideLeaderFromAnchor s A leaderSlot = some (.commit B) := by
  obtain ⟨p, hp, heq⟩ := decideLeaderFromAnchor_eq_filter (c := c) hD hq hA leaderSlot
  have hone : (s.getUncommittedBlocksAtSlot leaderSlot).filter p = [B] :=
    OptionList.filter_eq_singleton (hD.nodup_getUncommittedBlocksAtSlot leaderSlot) hB
      ((hp B).mpr hcert) fun x hx hpx => huniq x hx ((hp x).mp hpx)
  rw [heq, hone]
  rfl

/-- **The indirect rule skips a slot without a certified block.** -/
theorem decideLeaderFromAnchor_of_not_certifiedFrom (hD : s.CausalDag)
    (hq : 0 < s.context.committee.quorumThreshold) {A : Block} (hA : A ∈ s.blocks)
    {leaderSlot : Slot}
    (hnone : ∀ B ∈ s.getUncommittedBlocksAtSlot leaderSlot,
      ¬ CertifiedFrom s A (c.decisionRound (c.waveNumber leaderSlot.round)) B) :
    c.decideLeaderFromAnchor s A leaderSlot = some (.skip leaderSlot) := by
  obtain ⟨p, hp, heq⟩ := decideLeaderFromAnchor_eq_filter (c := c) hD hq hA leaderSlot
  have hzero : (s.getUncommittedBlocksAtSlot leaderSlot).filter p = [] :=
    List.filter_eq_nil_iff.mpr fun B hB hpB => hnone B hB ((hp B).mp hpB)
  rw [heq, hzero]
  rfl

/-- The authors of the blocks of the voting round with no ancestor by the
leader. -/
def blameAuthors (s : DagState) (votingRound leader : ℕ) : Finset ℕ :=
  (((s.blocksAtRound votingRound).filter fun b => b.ancestors.all (·.author ≠ leader)).map
    (·.author)).toFinset

/-- **`enough_leader_blame` decides whether the blames carry a quorum.** -/
theorem enoughLeaderBlame_eq (hq : 0 < s.context.committee.quorumThreshold) {votingRound : ℕ}
    (hround : s.lastCommitRound < votingRound) (leader : ℕ) :
    enoughLeaderBlame s votingRound leader =
      some (decide (s.context.committee.quorumThreshold ≤
        s.context.committee.weight (blameAuthors s votingRound leader))) := by
  rw [enoughLeaderBlame, DagState.getUncommittedBlocksAtRound_of_lt hround]
  simp only [Option.bind_eq_bind, Option.bind_some]
  congr 1
  exact Bool.eq_iff_iff.mpr ((StakeAggregator.addUntilThreshold_new_iff (T := .quorumThreshold)
    hq _).trans decide_eq_true_iff.symm)

/-- **The support loop counts the certificates**: with a sound cache it
returns whether the authors of the certificates among the blocks, counted
until the quorum, reach it. -/
theorem enoughLeaderSupportLoop_spec (hD : s.CausalDag)
    (hq : 0 < s.context.committee.quorumThreshold) {B : Block} :
    ∀ (blocks : List Block) (agg : StakeAggregator .quorumThreshold) (allVotes : VoteCache),
      (∀ C ∈ blocks, C ∈ s.blocks) → CacheSound s B s.gcRound allVotes →
      enoughLeaderSupportLoop s B agg blocks allVotes =
        some (agg.addUntilThreshold s.context.committee
          ((blocks.filter fun C => decide (Certifies s C B)).map (·.author)))
  | [], _, _, _, _ => rfl
  | C :: blocks, agg, allVotes, hblocks, h => by
    obtain ⟨cache, hcache, heq⟩ := isCertificate_spec hD hq (hblocks C List.mem_cons_self) h
    have hrest : ∀ x ∈ blocks, x ∈ s.blocks := fun x hx => hblocks x (List.mem_cons_of_mem _ hx)
    rw [enoughLeaderSupportLoop, heq, List.filter_cons]
    by_cases hC : Certifies s C B
    · simp only [hC, decide_true, if_true, Option.bind_eq_bind, Option.bind_some, List.map_cons,
        StakeAggregator.addUntilThreshold]
      by_cases hreached : (agg.add C.author s.context.committee).2 = true
      · simp [hreached]
      · simp only [hreached, Bool.false_eq_true, if_false]
        exact enoughLeaderSupportLoop_spec hD hq blocks _ cache hrest hcache
    · simp only [hC, decide_false, Bool.false_eq_true, if_false, Option.bind_eq_bind,
        Option.bind_some]
      exact enoughLeaderSupportLoop_spec hD hq blocks agg cache hrest hcache

/-- The authors of the certificates for the leader block among the blocks of
the decision round. -/
def certificateAuthors (s : DagState) (decisionRound : ℕ) (B : Block) : Finset ℕ :=
  (((s.blocksAtRound decisionRound).filter fun C => decide (Certifies s C B)).map (·.author)).toFinset

/-- **`enough_leader_support` decides whether the certificates carry a
quorum.** The quick rejection never rejects a leader whose certificates do:
the summed stake of the decision blocks is at least theirs. -/
theorem enoughLeaderSupport_eq (hD : s.CausalDag) (hq : 0 < s.context.committee.quorumThreshold)
    {decisionRound : ℕ} (hround : s.lastCommitRound < decisionRound) (B : Block) :
    enoughLeaderSupport s decisionRound B =
      some (decide (s.context.committee.quorumThreshold ≤
        s.context.committee.weight (certificateAuthors s decisionRound B))) := by
  have hblocks : ∀ C ∈ s.blocksAtRound decisionRound, C ∈ s.blocks := fun C hC =>
    DagState.mem_blocks.mpr (.inr (DagState.mem_blocksAtRound.mp hC).1)
  -- the stake of the certificates' authors is within the summed stake
  have hle : s.context.committee.weight (certificateAuthors s decisionRound B) ≤
      ((s.blocksAtRound decisionRound).map (s.context.committee.stake ·.author)).sum := by
    calc s.context.committee.weight (certificateAuthors s decisionRound B)
        ≤ s.context.committee.weight ((s.blocksAtRound decisionRound).map (·.author)).toFinset := by
          refine Quorum.weight_mono fun x hx => ?_
          simp only [certificateAuthors, List.mem_toFinset, List.mem_map, List.mem_filter] at hx ⊢
          obtain ⟨C, ⟨hC, -⟩, rfl⟩ := hx
          exact ⟨C, hC, rfl⟩
      _ ≤ (((s.blocksAtRound decisionRound).map (·.author)).map s.context.committee.stake).sum :=
          Quorum.weight_toFinset_le_sum _
      _ = ((s.blocksAtRound decisionRound).map (s.context.committee.stake ·.author)).sum := by
          rw [List.map_map]
          rfl
  rw [enoughLeaderSupport, DagState.getUncommittedBlocksAtRound_of_lt hround]
  simp only [Option.bind_eq_bind, Option.bind_some, Committee.reachedQuorum, decide_eq_true_eq]
  split_ifs with hquick
  · rw [enoughLeaderSupportLoop_spec hD hq _ _ _ hblocks cacheSound_empty]
    congr 1
    exact Bool.eq_iff_iff.mpr ((StakeAggregator.addUntilThreshold_new_iff
      (T := .quorumThreshold) hq _).trans decide_eq_true_iff.symm)
  · -- the quick rejection: not even all decision blocks reach a quorum
    congr 1
    exact (decide_eq_false (by omega)).symm

/-- **The direct rule skips a blamed leader.** -/
theorem tryDirectDecide_of_blamed (hq : 0 < s.context.committee.quorumThreshold) {slot : Slot}
    (hround : s.lastCommitRound < slot.round + 1)
    (hblame : s.context.committee.quorumThreshold ≤
      s.context.committee.weight (blameAuthors s (slot.round + 1) slot.authority)) :
    c.tryDirectDecide s slot = some (.skip slot) := by
  rw [tryDirectDecide, enoughLeaderBlame_eq hq hround]
  simp [hblame]

/-- Past the blame check, the direct rule filters the slot's blocks by their
support and returns the one left. -/
theorem tryDirectDecide_eq_filter (hD : s.CausalDag) (hq : 0 < s.context.committee.quorumThreshold)
    {slot : Slot} (hround : s.lastCommitRound < slot.round + 1)
    (hdecision : s.lastCommitRound < c.decisionRound (c.waveNumber slot.round))
    (hnot : ¬ s.context.committee.quorumThreshold ≤
      s.context.committee.weight (blameAuthors s (slot.round + 1) slot.authority)) :
    c.tryDirectDecide s slot =
      let supported := (s.getUncommittedBlocksAtSlot slot).filter fun B =>
        decide (s.context.committee.quorumThreshold ≤ s.context.committee.weight
          (certificateAuthors s (c.decisionRound (c.waveNumber slot.round)) B))
      if 1 < supported.length then none
      else
        match supported.getLast? with
        | some B => some (.commit B)
        | none => some (.undecided slot) := by
  have hfilter := OptionList.filterM_eq_some_filter (l := s.getUncommittedBlocksAtSlot slot)
    (p := enoughLeaderSupport s (c.decisionRound (c.waveNumber slot.round)))
    fun B _ => enoughLeaderSupport_eq hD hq hdecision B
  rw [tryDirectDecide, enoughLeaderBlame_eq hq hround]
  simp only [hnot, decide_false, Option.bind_eq_bind, Option.bind_some, Bool.false_eq_true,
    if_false, hfilter]

end Rules

/-- An elected slot is at the round it was elected for. -/
theorem round_of_electLeader {round : ℕ} {slot : Slot} (h : c.electLeader round = some slot) :
    slot.round = round := by
  unfold electLeader at h
  dsimp only at h
  split_ifs at h
  cases h
  rfl

/-- An elected slot of a committer with waves of three rounds is decided two
rounds above it. -/
theorem decisionRound_of_electLeader {round : ℕ} {slot : Slot}
    (hwave : c.options.waveLength = defaultWaveLength) (h : c.electLeader round = some slot) :
    slot.round = round ∧ c.decisionRound (c.waveNumber slot.round) = slot.round + 2 := by
  unfold electLeader at h
  dsimp only at h
  split_ifs at h with hlead
  cases h
  refine ⟨rfl, ?_⟩
  dsimp only
  unfold leaderRound at hlead
  unfold decisionRound
  rw [hwave, defaultWaveLength] at hlead ⊢
  omega

end BaseCommitter

end Sui
