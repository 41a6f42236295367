import Sui.Bfs
import Sui.Consensus.AcceptBlock

/-!
# The v3 commit rule (`leader_slot_decider.rs`)

`LeaderSlotDecider` decides one leader slot at a time from the vote
accounting of the DAG state.

* `tryDirectDecide` reads the info of the round after the slot: with a quorum
  of stake there, a block of the slot whose children carry a quorum is
  committed, and the slot is skipped when every block of it has a quorum of
  voting-round blocks that are not its children. A block with both panics.
* `tryIndirectDecide` searches the history of an anchor block breadth-first
  through the rounds above the decision round, an instance of `Bfs.run`, and
  counts the votes of voting-round blocks for the decision blocks. A slot
  with exactly one certified block is committed, any other is skipped.

The direct rule is read through the exact vote accounting of every reachable
state (`MetadataExact`), the indirect rule through the voters its search
visits (`CausalDag.tryIndirectDecide_eq`). Over a committee of
`Committee.new_v3`, with at most `f` stake of equivocating authors
(`HonestViewV3`), quorum intersection gives that a direct commit is certified
from every later anchor and no other block of its slot is
(`HonestViewV3.certified_of_direct_commit`,
`HonestViewV3.eq_of_certified_of_direct_commit`), that no block of a directly
skipped slot is (`HonestViewV3.weight_voters_lt_of_direct_skip`), and that the
direct rule never finds a block both committed and skipped
(`HonestViewV3.tryDirectDecide_ne_none`); `leaderSlotDecider_safe` puts them
together as `RulesAgree`.
-/

namespace Sui

namespace StakeAggregator

variable {T : CommitteeThreshold} {a : StakeAggregator T} {committee : Committee}
  {refs : Finset BlockRef}

/-- Counting the authors of a list of blocks one by one tallies them. -/
theorem Tallies.foldl_addUnique (h : a.Tallies committee refs) (l : List BlockRef) :
    (l.foldl (fun a r => (a.addUnique r.author committee).1) a).Tallies committee
      (refs ∪ l.toFinset) := by
  induction l generalizing a refs with
  | nil => simpa using h
  | cons r l ih =>
    rw [List.foldl_cons, List.toFinset_cons, Finset.union_insert, ← Finset.insert_union]
    exact ih (h.addUnique r)

end StakeAggregator

/-- `INDIRECT_COMMIT_DEPTH`: the anchor of an indirect decision lies at least
this many rounds above the decision round. -/
def indirectCommitDepth : ℕ := 2

namespace DagState

open RoundInfo (Consecutive)

variable (s : DagState)

/-! ## The direct rule -/

/-- The skip votes `try_direct_decide` counts against one block of the slot:
the authors of the voting-round blocks that are not its children. -/
def rejectVotes (committee : Committee) (votingRoundInfo : RoundInfo) (blockInfo : BlockInfo) :
    StakeAggregator .quorumThreshold :=
  ((votingRoundInfo.blocks \ blockInfo.children).sort (· ≤ ·)).foldl
    (fun rejectVotes r => (rejectVotes.addUnique r.author committee).1) .new

/-- The loop of `try_direct_decide` over the blocks of the slot. `numSkipped`
counts the blocks with a quorum of skip votes so far; the first block with a
quorum of commit votes is committed, after checking it is not also skipped. -/
def directDecideLoop (committee : Committee) (votingRoundInfo : RoundInfo) (slot : Slot)
    (numBlocks : ℕ) : List BlockInfo → ℕ → Option LeaderStatus
  | [], numSkipped =>
    -- When there is no block in the slot or all blocks in the slot are skipped,
    -- the whole slot is skipped.
    some (if numSkipped = numBlocks then .skip slot else .undecided slot)
  | blockInfo :: blockInfos, numSkipped =>
    let blockRejected := (rejectVotes committee votingRoundInfo blockInfo).reachedThreshold committee
    let numSkipped := if blockRejected then numSkipped + 1 else numSkipped
    if blockInfo.childrenStake.reachedThreshold committee then
      -- "Block cannot be both committed and skipped"
      if blockRejected then none else some (.commit blockInfo.block)
    else directDecideLoop committee votingRoundInfo slot numBlocks blockInfos numSkipped

/-- `LeaderSlotDecider::try_direct_decide`. `none` is a panic: the contiguity
assertion of `get_round_info`, a slot at or below the GC round, or a block
both committed and skipped. -/
def tryDirectDecide (slot : Slot) : Option LeaderStatus := do
  match ← s.getRoundInfo (slot.round + 1) with
  -- No blocks accepted in the next round yet, so there is no votes to the slot.
  | none => pure (.undecided slot)
  | some votingRoundInfo =>
    -- Next round has insufficient stake to decide the slot.
    if !votingRoundInfo.totalStake.reachedThreshold s.context.committee then
      pure (.undecided slot)
    else
      let blockInfos ← s.getBlockInfoAtSlot slot
      directDecideLoop s.context.committee votingRoundInfo slot blockInfos.length blockInfos 0

/-! ### What the direct rule reads -/

variable {s}

theorem rejectVotes_tallies (committee : Committee) (votingRoundInfo : RoundInfo)
    (blockInfo : BlockInfo) :
    (rejectVotes committee votingRoundInfo blockInfo).Tallies committee
      (votingRoundInfo.blocks \ blockInfo.children) := by
  have hnew : (StakeAggregator.new : StakeAggregator .quorumThreshold).Tallies committee ∅ :=
    StakeAggregator.tallies_new
  have h := hnew.foldl_addUnique ((votingRoundInfo.blocks \ blockInfo.children).sort (· ≤ ·))
  rwa [Finset.sort_toFinset, Finset.empty_union] at h

/-- A committed block of the loop is one of the slot's, with a quorum of
commit votes. -/
theorem directDecideLoop_eq_commit {committee : Committee} {votingRoundInfo : RoundInfo}
    {slot : Slot} {numBlocks : ℕ} {b : Block} :
    ∀ (blockInfos : List BlockInfo) (numSkipped : ℕ),
      directDecideLoop committee votingRoundInfo slot numBlocks blockInfos numSkipped =
        some (.commit b) →
      ∃ blockInfo ∈ blockInfos, blockInfo.block = b ∧
        blockInfo.childrenStake.reachedThreshold committee = true
  | [], numSkipped, h => by
    simp only [directDecideLoop] at h
    split_ifs at h <;> cases h
  | blockInfo :: blockInfos, numSkipped, h => by
    simp only [directDecideLoop] at h
    by_cases hcommit : blockInfo.childrenStake.reachedThreshold committee = true
    · rw [if_pos hcommit] at h
      split_ifs at h
      cases h
      exact ⟨blockInfo, List.mem_cons_self, rfl, hcommit⟩
    · rw [if_neg hcommit] at h
      obtain ⟨x, hx, hxb, hxc⟩ := directDecideLoop_eq_commit blockInfos _ h
      exact ⟨x, List.mem_cons_of_mem _ hx, hxb, hxc⟩

/-- A skipped slot had as many blocks with a quorum of skip votes as blocks. -/
theorem directDecideLoop_eq_skip {committee : Committee} {votingRoundInfo : RoundInfo}
    {slot slot' : Slot} {numBlocks : ℕ} :
    ∀ (blockInfos : List BlockInfo) (numSkipped : ℕ),
      directDecideLoop committee votingRoundInfo slot numBlocks blockInfos numSkipped =
        some (.skip slot') →
      slot' = slot ∧ numSkipped + (blockInfos.filter fun blockInfo =>
        (rejectVotes committee votingRoundInfo blockInfo).reachedThreshold committee).length =
        numBlocks
  | [], numSkipped, h => by
    simp only [directDecideLoop] at h
    split_ifs at h with hall
    · cases h
      exact ⟨rfl, by simpa using hall⟩
    · cases h
  | blockInfo :: blockInfos, numSkipped, h => by
    simp only [directDecideLoop] at h
    by_cases hcommit : blockInfo.childrenStake.reachedThreshold committee = true
    · rw [if_pos hcommit] at h
      split_ifs at h
      cases h
    rw [if_neg hcommit] at h
    by_cases hrejected :
        (rejectVotes committee votingRoundInfo blockInfo).reachedThreshold committee = true
    · rw [if_pos hrejected] at h
      obtain ⟨rfl, hcount⟩ := directDecideLoop_eq_skip blockInfos _ h
      refine ⟨rfl, ?_⟩
      rw [List.filter_cons, if_pos hrejected, List.length_cons]
      omega
    · rw [if_neg hrejected] at h
      obtain ⟨rfl, hcount⟩ := directDecideLoop_eq_skip blockInfos _ h
      refine ⟨rfl, ?_⟩
      rw [List.filter_cons, if_neg hrejected]
      exact hcount

/-- The loop panics only on a block with a quorum of both kinds of votes. -/
theorem directDecideLoop_eq_none {committee : Committee} {votingRoundInfo : RoundInfo}
    {slot : Slot} {numBlocks : ℕ} :
    ∀ (blockInfos : List BlockInfo) (numSkipped : ℕ),
      directDecideLoop committee votingRoundInfo slot numBlocks blockInfos numSkipped = none →
      ∃ blockInfo ∈ blockInfos, blockInfo.childrenStake.reachedThreshold committee = true ∧
        (rejectVotes committee votingRoundInfo blockInfo).reachedThreshold committee = true
  | [], numSkipped, h => by
    simp only [directDecideLoop] at h
    split_ifs at h
  | blockInfo :: blockInfos, numSkipped, h => by
    simp only [directDecideLoop] at h
    by_cases hcommit : blockInfo.childrenStake.reachedThreshold committee = true
    · rw [if_pos hcommit] at h
      split_ifs at h with hrejected
      exact ⟨blockInfo, List.mem_cons_self, hcommit, hrejected⟩
    · rw [if_neg hcommit] at h
      obtain ⟨x, hx, hxc, hxr⟩ := directDecideLoop_eq_none blockInfos _ h
      exact ⟨x, List.mem_cons_of_mem _ hx, hxc, hxr⟩

/-- On consecutive infos, `get_round_info` finds the info of a round above
the GC round when there is one, and never trips its contiguity assertion. -/
theorem getRoundInfo_spec {r₀ : ℕ} (hcons : Consecutive s.roundInfo r₀) (round : ℕ) :
    s.getRoundInfo round = some none ∨
      ∃ info ∈ s.roundInfo, info.round = round ∧ s.gcRound < round ∧
        s.getRoundInfo round = some (some info) := by
  unfold getRoundInfo
  cases hhead : s.roundInfo.head? with
  | none => exact .inl rfl
  | some front =>
    have hne : s.roundInfo ≠ [] := by
      rintro hnil
      simp [hnil] at hhead
    have hfront : front.round = r₀ := by
      obtain ⟨x, rest, hx⟩ := List.exists_cons_of_ne_nil hne
      have h0 := hcons.round_getElem (i := 0) (by simp [hx])
      simp only [hx, List.head?_cons, Option.some.injEq] at hhead h0
      rw [← hhead]
      exact h0
    dsimp only
    split_ifs with hlow
    · exact .inl rfl
    · cases hget : s.roundInfo[round - front.round]? with
      | none => exact .inl rfl
      | some info =>
        obtain ⟨hi, hinfo⟩ := List.getElem?_eq_some_iff.mp hget
        have hround : info.round = round := by
          rw [← hinfo, hcons.round_getElem hi]
          omega
        refine .inr ⟨info, hinfo ▸ List.getElem_mem hi, hround, by omega, ?_⟩
        dsimp only
        rw [if_pos hround]

theorem getBlockInfoAtSlot_eq_some {slot : Slot} {blockInfos : List BlockInfo}
    (h : s.getBlockInfoAtSlot slot = some blockInfos) :
    s.gcRound < slot.round ∧ blockInfos = s.recentBlocks.filter (·.block.slot = slot) := by
  unfold getBlockInfoAtSlot at h
  split_ifs at h with hgc
  cases h
  exact ⟨hgc, rfl⟩

/-- The children of a block of the slot, under exact accounting. -/
theorem MetadataExact.children_of_slot (hE : MetadataExact s) {slot : Slot}
    (hgc : s.gcRound < slot.round) {blockInfo : BlockInfo}
    (hmem : blockInfo ∈ s.recentBlocks.filter (·.block.slot = slot)) :
    blockInfo ∈ s.recentBlocks ∧ blockInfo.block.slot = slot ∧
      blockInfo.children = s.childRefs blockInfo.block ∧
      blockInfo.childrenStake.Tallies s.context.committee blockInfo.children := by
  obtain ⟨hin, hslot⟩ := List.mem_filter.mp hmem
  have hslot : blockInfo.block.slot = slot := of_decide_eq_true hslot
  have hround : s.gcRound < blockInfo.block.round := by
    rw [← Block.slot_round, hslot]
    exact hgc
  exact ⟨hin, hslot, hE.children_eq blockInfo hin hround,
    hE.childrenStake_tallies blockInfo hin hround⟩

/-- **What the direct rule reads** under exact accounting: it leaves the slot
undecided, or the voting round's info is the one of the round's blocks, with a
quorum of stake, and the rule is the loop over the slot's blocks. -/
theorem MetadataExact.tryDirectDecide_cases (hE : MetadataExact s) (slot : Slot) :
    s.tryDirectDecide slot = some (.undecided slot) ∨
      ∃ info : RoundInfo, info.blocks = s.roundRefs (slot.round + 1) ∧
        info.totalStake.Tallies s.context.committee info.blocks ∧
        info.totalStake.reachedThreshold s.context.committee = true ∧
        s.tryDirectDecide slot = (s.getBlockInfoAtSlot slot).bind fun blockInfos =>
          directDecideLoop s.context.committee info slot blockInfos.length blockInfos 0 := by
  obtain ⟨r₀, hcons⟩ := hE.consecutive
  unfold tryDirectDecide
  rcases getRoundInfo_spec hcons (slot.round + 1) with hnone | ⟨info, hin, hround, hgcr, hinfo⟩
  · -- no block of the voting round yet
    left
    rw [hnone]
    rfl
  rw [hinfo]
  simp only [Option.bind_eq_bind, Option.bind_some]
  by_cases hstake : info.totalStake.reachedThreshold s.context.committee = true
  · right
    refine ⟨info, ?_, hE.totalStake_tallies info hin (by omega), hstake, ?_⟩
    · rw [hE.blocks_eq info hin (by omega), hround]
    · simp [hstake]
  · left
    simp [hstake]

/-- **What a direct commit means**: the block is one of the slot's, above the
GC round, and the authors of its children carry a quorum. -/
theorem MetadataExact.tryDirectDecide_eq_commit (hE : MetadataExact s) {slot : Slot} {b : Block}
    (h : s.tryDirectDecide slot = some (.commit b)) :
    b ∈ s.recentBlocks.map (·.block) ∧ b.slot = slot ∧ s.gcRound < slot.round ∧
      s.context.committee.quorumThreshold ≤
        s.context.committee.weight ((s.childRefs b).image BlockRef.author) := by
  rcases hE.tryDirectDecide_cases slot with hund | ⟨info, -, -, -, hloop⟩
  · rw [hund] at h
    cases h
  rw [hloop] at h
  obtain ⟨blockInfos, hinfos, h⟩ := Option.bind_eq_some_iff.mp h
  obtain ⟨hgc, rfl⟩ := getBlockInfoAtSlot_eq_some hinfos
  obtain ⟨blockInfo, hmem, rfl, hreached⟩ := directDecideLoop_eq_commit _ _ h
  obtain ⟨hin, hslot, hchildren, htallies⟩ := hE.children_of_slot hgc hmem
  refine ⟨List.mem_map_of_mem hin, hslot, hgc, ?_⟩
  have hq := htallies.reachedThreshold.mp hreached
  rwa [hchildren] at hq

/-- **What a direct skip means**: the voting round above the GC round carries
a quorum, and so do the voting-round blocks that are not children of any one
block of the slot. -/
theorem MetadataExact.tryDirectDecide_eq_skip (hE : MetadataExact s) {slot slot' : Slot}
    (h : s.tryDirectDecide slot = some (.skip slot')) :
    slot' = slot ∧ s.gcRound < slot.round ∧
      s.context.committee.quorumThreshold ≤
        s.context.committee.weight ((s.roundRefs (slot.round + 1)).image BlockRef.author) ∧
      ∀ b ∈ s.recentBlocks.map (·.block), b.slot = slot →
        s.context.committee.quorumThreshold ≤ s.context.committee.weight
          ((s.roundRefs (slot.round + 1) \ s.childRefs b).image BlockRef.author) := by
  rcases hE.tryDirectDecide_cases slot with hund | ⟨info, hblocks, htotal, hstake, hloop⟩
  · rw [hund] at h
    cases h
  rw [hloop] at h
  obtain ⟨blockInfos, hinfos, h⟩ := Option.bind_eq_some_iff.mp h
  obtain ⟨hgc, rfl⟩ := getBlockInfoAtSlot_eq_some hinfos
  obtain ⟨hslot', hcount⟩ := directDecideLoop_eq_skip _ _ h
  refine ⟨hslot', hgc, ?_, fun b hb hbslot => ?_⟩
  · have hq := htotal.reachedThreshold.mp hstake
    rwa [hblocks] at hq
  · -- every block of the slot is among those counted as skipped
    rw [Nat.zero_add] at hcount
    obtain ⟨blockInfo, hbi, rfl⟩ := List.mem_map.mp hb
    have hmem : blockInfo ∈ s.recentBlocks.filter (·.block.slot = slot) :=
      List.mem_filter.mpr ⟨hbi, decide_eq_true hbslot⟩
    have hrejected := List.length_filter_eq_length_iff.mp hcount blockInfo hmem
    obtain ⟨-, -, hchildren, -⟩ := hE.children_of_slot hgc hmem
    have hq := (rejectVotes_tallies _ _ _).reachedThreshold.mp hrejected
    rwa [hblocks, hchildren] at hq

/-- **When the direct rule panics** above the GC round, a block of the slot
has a quorum of children and a quorum of voting-round blocks that are not
its children. -/
theorem MetadataExact.tryDirectDecide_eq_none (hE : MetadataExact s) {slot : Slot}
    (hgc : s.gcRound < slot.round) (h : s.tryDirectDecide slot = none) :
    ∃ b ∈ s.recentBlocks.map (·.block), b.slot = slot ∧
      s.context.committee.quorumThreshold ≤
        s.context.committee.weight ((s.childRefs b).image BlockRef.author) ∧
      s.context.committee.quorumThreshold ≤ s.context.committee.weight
        ((s.roundRefs (slot.round + 1) \ s.childRefs b).image BlockRef.author) := by
  rcases hE.tryDirectDecide_cases slot with hund | ⟨info, hblocks, -, -, hloop⟩
  · rw [hund] at h
    cases h
  have hinfos : s.getBlockInfoAtSlot slot = some (s.recentBlocks.filter (·.block.slot = slot)) :=
    if_pos hgc
  rw [hloop, hinfos, Option.bind_some] at h
  obtain ⟨blockInfo, hmem, hreached, hrejected⟩ := directDecideLoop_eq_none _ _ h
  obtain ⟨hbi, hslot, hchildren, htallies⟩ := hE.children_of_slot hgc hmem
  refine ⟨blockInfo.block, List.mem_map_of_mem hbi, hslot, ?_, ?_⟩
  · have hq := htallies.reachedThreshold.mp hreached
    rwa [hchildren] at hq
  · have hq := (rejectVotes_tallies _ _ _).reachedThreshold.mp hrejected
    rwa [hblocks, hchildren] at hq

variable (s)

/-! ## The indirect rule -/

/-- The search of `try_indirect_decide`: from a block to its ancestors,
looked up in the state, following only those above the decision round. -/
def voteGraph (decisionRound : ℕ) : Bfs.Graph Block BlockRef :=
  ⟨Block.reference, Block.ancestors, s.getBlock, fun ancestor => decide (decisionRound < ancestor.round)⟩

/-- The vote count of `try_indirect_decide`: a voting-round block votes for
each decision block it lists, once per author. -/
def countVote (committee : Committee) (decisionBlocks : Finset BlockRef) (decisionRound : ℕ)
    (block : Block) (ancestor : BlockRef)
    (votes : BlockRef → Option (StakeAggregator .certificationThreshold)) :
    BlockRef → Option (StakeAggregator .certificationThreshold) :=
  if ancestor ∈ decisionBlocks ∧ block.round = decisionRound + 1 then
    Function.update votes ancestor
      (some (((votes ancestor).getD .new).addUnique block.author committee).1)
  else votes

/-- The decision blocks of `try_indirect_decide`: the blocks of the decision
slots. -/
def decisionBlocks (decisionSlots : List Slot) : Finset BlockRef :=
  (decisionSlots.flatMap fun slot => (s.getUncommittedBlocksAtSlot slot).map Block.reference).toFinset

/-- The decision on one slot from the certified blocks, tagged with their
slots. When there is no certified block at the slot, the slot is skipped;
when there are several, there cannot have been a direct commit on the slot
if there are at most `f` malicious stake, so it is also skipped. -/
def indirectStatus (certified : List (Slot × Block)) (slot : Slot) : LeaderStatus :=
  match (certified.filter (·.1 = slot)).map (·.2) with
  | [block] => .commit block
  | _ => .skip slot

/-- `LeaderSlotDecider::try_indirect_decide`: one status per decision slot,
in order. `none` is a panic: no or mixed decision slots, an anchor too close
to them, or a missing block. The search pops each block of the state at most
once, so as many rounds as there are blocks let it finish. -/
def tryIndirectDecide (anchorBlock : Block) (decisionSlots : List Slot) :
    Option (List LeaderStatus) := do
  let first ← decisionSlots.head?
  let decisionRound := first.round
  guard (decisionSlots.all fun slot => slot.round = decisionRound)
  -- "Anchor block is too close to decision round"
  guard (decisionRound + indirectCommitDepth ≤ anchorBlock.round)
  let decisionBlocks := s.decisionBlocks decisionSlots
  -- BFS once from the anchor: collect votes from voting round blocks against
  -- decision round blocks.
  let votes ← Bfs.run (s.voteGraph decisionRound)
    (countVote s.context.committee decisionBlocks decisionRound) s.blocks.length
    [anchorBlock] {anchorBlock.reference} fun _ => none
  -- Collect the blocks with commit certificates per slot.
  let certified ← ((decisionBlocks.sort (· ≤ ·)).filter fun r =>
      (votes r).any (·.reachedThreshold s.context.committee)).mapM fun r =>
    (s.getBlock r).map fun block => (Slot.ofRef r, block)
  pure (decisionSlots.map (indirectStatus certified))

/-! ### What the indirect rule counts -/

/-- The authors of the voting-round blocks among `P` that list `r`: the
commit votes for `r` a search popping `P` collects. -/
def voters (decisionRound : ℕ) (P : List Block) (r : BlockRef) : Finset ℕ :=
  ((P.filter fun b => b.round = decisionRound + 1 ∧ r ∈ b.ancestors).map (·.author)).toFinset

variable {s}

theorem mem_voters {decisionRound : ℕ} {P : List Block} {r : BlockRef} {x : ℕ} :
    x ∈ voters decisionRound P r ↔
      ∃ b ∈ P, b.round = decisionRound + 1 ∧ r ∈ b.ancestors ∧ b.author = x := by
  simp [voters, and_assoc]

theorem voters_concat (decisionRound : ℕ) (P : List Block) (b : Block) (r : BlockRef) :
    voters decisionRound (P ++ [b]) r =
      if b.round = decisionRound + 1 ∧ r ∈ b.ancestors then
        insert b.author (voters decisionRound P r)
      else voters decisionRound P r := by
  ext x
  simp only [voters, List.filter_append, List.map_append, List.toFinset_append,
    Finset.mem_union, List.filter_singleton]
  split_ifs with hb
  · simp [hb, or_comm]
  · simp [hb]

/-- The vote map agrees with the voter sets `X` on every decision block: no
entry while a block has no voter, an aggregator over exactly its voters
otherwise. -/
def TalliesVoters (committee : Committee) (decisionBlocks : Finset BlockRef)
    (X : BlockRef → Finset ℕ) (votes : BlockRef → Option (StakeAggregator .certificationThreshold)) :
    Prop :=
  ∀ r ∈ decisionBlocks, (votes r = none ∧ X r = ∅) ∨
    ∃ a, votes r = some a ∧ a.votes = X r ∧ a.Counts committee

section Votes

variable {committee : Committee} {decisionBlocks : Finset BlockRef} {decisionRound : ℕ}
  {X : BlockRef → Finset ℕ} {votes : BlockRef → Option (StakeAggregator .certificationThreshold)}

variable (decisionRound) in
/-- One vote of a block for one of its ancestors. -/
theorem TalliesVoters.addVote (h : TalliesVoters committee decisionBlocks X votes) (b : Block)
    (k : BlockRef) :
    TalliesVoters committee decisionBlocks
      (fun r => if b.round = decisionRound + 1 ∧ r = k then insert b.author (X r) else X r)
      (countVote committee decisionBlocks decisionRound b k votes) := by
  intro r hr
  dsimp only
  by_cases hvote : k ∈ decisionBlocks ∧ b.round = decisionRound + 1
  · have hcount : countVote committee decisionBlocks decisionRound b k votes =
        Function.update votes k
          (some (((votes k).getD .new).addUnique b.author committee).1) := if_pos hvote
    rw [hcount]
    by_cases hrk : r = k
    · subst hrk
      rw [if_pos ⟨hvote.2, rfl⟩, Function.update_self]
      refine .inr ⟨_, rfl, ?_, ?_⟩
      · rcases h r hr with ⟨hnone, hX⟩ | ⟨a, ha, haX, -⟩
        · rw [hnone, hX]
          simp
        · rw [ha, Option.getD_some, StakeAggregator.addUnique_fst,
            StakeAggregator.insertVote_votes, haX]
      · rcases h r hr with ⟨hnone, -⟩ | ⟨a, ha, -, hcounts⟩
        · rw [hnone]
          exact StakeAggregator.counts_new.insertVote
        · rw [ha]
          exact hcounts.insertVote
    · rw [Function.update_of_ne hrk, if_neg fun hc => hrk hc.2]
      exact h r hr
  · have hcount : countVote committee decisionBlocks decisionRound b k votes = votes :=
      if_neg hvote
    have hno : ¬ (b.round = decisionRound + 1 ∧ r = k) := by
      rintro ⟨hround, rfl⟩
      exact hvote ⟨hr, hround⟩
    rw [hcount, if_neg hno]
    exact h r hr

variable (decisionRound) in
/-- A block's votes for its ancestors, one after another. -/
theorem TalliesVoters.addVotes (b : Block) :
    ∀ (ks : List BlockRef) {X : BlockRef → Finset ℕ}
      {votes : BlockRef → Option (StakeAggregator .certificationThreshold)},
      TalliesVoters committee decisionBlocks X votes →
      TalliesVoters committee decisionBlocks
        (fun r => if b.round = decisionRound + 1 ∧ r ∈ ks then insert b.author (X r) else X r)
        (ks.foldl (fun acc k => countVote committee decisionBlocks decisionRound b k acc) votes)
  | [], X, votes, h => by
    simpa using h
  | k :: ks, X, votes, h => by
    have ih := TalliesVoters.addVotes b ks (h.addVote decisionRound b k)
    rw [List.foldl_cons]
    intro r hr
    -- voting for `k` and then for the rest is voting for the whole list
    have hX : (if b.round = decisionRound + 1 ∧ r ∈ ks then
        insert b.author (if b.round = decisionRound + 1 ∧ r = k then insert b.author (X r) else X r)
        else if b.round = decisionRound + 1 ∧ r = k then insert b.author (X r) else X r) =
        if b.round = decisionRound + 1 ∧ r ∈ k :: ks then insert b.author (X r) else X r := by
      by_cases hround : b.round = decisionRound + 1
      · by_cases hrk : r = k <;> by_cases hrks : r ∈ ks <;> simp [hround, hrk, hrks]
      · simp [hround]
    have hr' := ih r hr
    beta_reduce at hr' ⊢
    rw [hX] at hr'
    exact hr'

/-- **The search counts the voters of the blocks it pops**: folded over `P`,
the vote map holds every decision block's voters among `P`. -/
theorem talliesVoters_visitAll :
    ∀ (P Q : List Block) {votes : BlockRef → Option (StakeAggregator .certificationThreshold)},
      TalliesVoters committee decisionBlocks (voters decisionRound Q) votes →
      TalliesVoters committee decisionBlocks (voters decisionRound (Q ++ P))
        (P.foldl (fun acc a => a.ancestors.foldl
          (fun acc k => countVote committee decisionBlocks decisionRound a k acc) acc) votes)
  | [], Q, votes, h => by simpa using h
  | b :: P, Q, votes, h => by
    rw [List.foldl_cons, ← List.singleton_append, ← List.append_assoc]
    refine talliesVoters_visitAll P (Q ++ [b]) ?_
    have hstep := TalliesVoters.addVotes decisionRound b b.ancestors h
    intro r hr
    rw [voters_concat]
    exact hstep r hr

theorem talliesVoters_none :
    TalliesVoters committee decisionBlocks (voters decisionRound []) fun _ => none :=
  fun _ _ => .inl ⟨rfl, rfl⟩

/-- A decision block is certified exactly when its voters carry the
certification threshold. -/
theorem TalliesVoters.any_reachedThreshold (h : TalliesVoters committee decisionBlocks X votes)
    (hcert : 1 ≤ committee.certificationThreshold) {r : BlockRef} (hr : r ∈ decisionBlocks) :
    (votes r).any (·.reachedThreshold committee) = true ↔
      committee.certificationThreshold ≤ committee.weight (X r) := by
  rcases h r hr with ⟨hnone, hX⟩ | ⟨a, ha, haX, hcounts⟩
  · rw [hnone, hX]
    simp only [Option.any_none, Bool.false_eq_true, false_iff, not_le]
    change Quorum.weight committee.stake ∅ < committee.certificationThreshold
    rw [Quorum.weight_empty]
    omega
  · rw [ha, Option.any_some, hcounts.reachedThreshold, haX]
    rfl

end Votes

/-! ### The search -/

/-- What the search reaches it finds in the state. -/
theorem CausalDag.mem_blocks_of_reaches (hD : CausalDag s) {A : Block} (hA : A ∈ s.blocks)
    {decisionRound : ℕ} {b : Block} (h : Bfs.Reaches (s.voteGraph decisionRound) A b) :
    b ∈ s.blocks := by
  induction h with
  | root => exact hA
  | step _ _ _ hlookup _ => exact (hD.getBlock_eq_some_iff.mp hlookup).1

/-- **The search of `try_indirect_decide` finishes** on a causal DAG, from a
block of it, and pops exactly the blocks it reaches. -/
theorem CausalDag.run_voteGraph {σ : Type} (hD : CausalDag s) {A : Block} (hA : A ∈ s.blocks)
    (decisionRound : ℕ) (visit : Block → BlockRef → σ → σ) (acc₀ : σ) :
    ∃ P : List Block, (∀ b, b ∈ P ↔ Bfs.Reaches (s.voteGraph decisionRound) A b) ∧
      Bfs.run (s.voteGraph decisionRound) visit s.blocks.length [A] {A.reference} acc₀ =
        some (Bfs.visitAll (s.voteGraph decisionRound) visit P acc₀) := by
  have hkey : ∀ k b, (s.voteGraph decisionRound).lookup k = some b →
      (s.voteGraph decisionRound).key b = k :=
    fun k b hb => (hD.getBlock_eq_some_iff.mp hb).2
  have hU : ∀ b, Bfs.Reaches (s.voteGraph decisionRound) A b →
      (s.voteGraph decisionRound).key b ∈ (s.blocks.map Block.reference).toFinset :=
    fun b hb => List.mem_toFinset.mpr (List.mem_map_of_mem (hD.mem_blocks_of_reaches hA hb))
  have hlookup : ∀ a, Bfs.Reaches (s.voteGraph decisionRound) A a →
      ∀ k ∈ (s.voteGraph decisionRound).succ a, (s.voteGraph decisionRound).follow k = true →
        ((s.voteGraph decisionRound).lookup k).isSome := by
    intro a ha k hk _
    obtain ⟨b, -, -, hb⟩ := hD.getBlock_ancestor (hD.mem_blocks_of_reaches hA ha) hk
    exact Option.isSome_iff_exists.mpr ⟨b, hb⟩
  -- the keys of the state's blocks bound the number of pops
  have hfuel : ((s.blocks.map Block.reference).toFinset).card ≤ s.blocks.length :=
    (List.toFinset_card_le _).trans (List.length_map _).le
  obtain ⟨P, hP, -, hrun⟩ := @Bfs.run_spec _ _ _ _ _ visit _ hkey _ hU hlookup
    (hD.getBlock_reference hA) _ hfuel acc₀
  exact ⟨P, hP, hrun⟩

/-- A reference the history walk of `ancestors_at_round` reaches above the
decision round is a block the search reaches. -/
theorem reaches_of_reach {A : Block} {decisionRound : ℕ} {x : BlockRef}
    (h : Worklist.Reach s.ancestorRefs (atOrBelow (decisionRound + 1)) A.ancestors.toFinset x) :
    decisionRound < x.round → ∀ c, s.getBlock x = some c →
      Bfs.Reaches (s.voteGraph decisionRound) A c := by
  induction h with
  | base hx =>
    intro hround c hc
    exact .step .root (List.mem_toFinset.mp hx) (decide_eq_true hround) hc
  | @step a b ns _ hstop hnext hb ih =>
    intro hround c hc
    obtain ⟨ca, hca, rfl⟩ := Option.map_eq_some_iff.mp hnext
    -- a walk only expands references above the voting round
    have ha : decisionRound < a.round := by
      have := of_decide_eq_false hstop
      omega
    exact .step (ih ha ca hca) (List.mem_toFinset.mp hb) (decide_eq_true hround) hc

/-! ### The indirect rule, run -/

theorem mem_decisionBlocks {decisionSlots : List Slot} {r : BlockRef} :
    r ∈ s.decisionBlocks decisionSlots ↔
      ∃ b ∈ s.recentBlocks.map (·.block), b.slot ∈ decisionSlots ∧ b.reference = r := by
  simp only [decisionBlocks, List.mem_toFinset, List.mem_flatMap, List.mem_map,
    mem_getUncommittedBlocksAtSlot]
  constructor
  · rintro ⟨slot, hslot, b, ⟨hb, rfl⟩, rfl⟩
    exact ⟨b, hb, hslot, rfl⟩
  · rintro ⟨b, hb, hslot, rfl⟩
    exact ⟨b.slot, hslot, b, ⟨hb, rfl⟩, rfl⟩

theorem guard_eq_some {p : Prop} [Decidable p] (h : p) : (guard p : Option Unit) = some () := by
  simp [guard, h]

/-- The assertions of `try_indirect_decide` held in any run that returned. -/
theorem tryIndirectDecide_guards {A : Block} {decisionSlots : List Slot}
    {sts : List LeaderStatus} (h : s.tryIndirectDecide A decisionSlots = some sts) :
    ∃ first, decisionSlots.head? = some first ∧
      (∀ slot ∈ decisionSlots, slot.round = first.round) ∧
      first.round + indirectCommitDepth ≤ A.round := by
  unfold tryIndirectDecide at h
  obtain ⟨first, hhead, h⟩ := Option.bind_eq_some_iff.mp h
  obtain ⟨_, hall, h⟩ := Option.bind_eq_some_iff.mp h
  obtain ⟨_, hdepth, -⟩ := Option.bind_eq_some_iff.mp h
  refine ⟨first, hhead, fun slot hslot => ?_, ?_⟩
  · by_contra hne
    have hfalse : ¬ (decisionSlots.all fun slot => slot.round = first.round) := by
      simp only [List.all_eq_true, decide_eq_true_eq, not_forall]
      exact ⟨slot, hslot, hne⟩
    simp [guard, hfalse] at hall
  · by_contra hlt
    simp [guard, hlt] at hdepth

/-- **What `try_indirect_decide` computes** on a causal DAG from one of its
blocks, once its assertions pass: the search pops the blocks `P` it reaches,
and a slot's status comes from the decision blocks of the slot whose voters
among `P` carry the certification threshold, looked up in reference order. -/
theorem CausalDag.tryIndirectDecide_eq (hD : CausalDag s) {A : Block} (hA : A ∈ s.blocks)
    {decisionSlots : List Slot} {first : Slot} (hhead : decisionSlots.head? = some first)
    (hround : ∀ slot ∈ decisionSlots, slot.round = first.round)
    (hdepth : first.round + indirectCommitDepth ≤ A.round)
    (hcert : 1 ≤ s.context.committee.certificationThreshold) :
    ∃ P : List Block, (∀ b, b ∈ P ↔ Bfs.Reaches (s.voteGraph first.round) A b) ∧
      ∃ certified : List (Slot × Block),
        s.tryIndirectDecide A decisionSlots =
          some (decisionSlots.map (indirectStatus certified)) ∧
        ∀ slot, (((s.decisionBlocks decisionSlots).sort (· ≤ ·)).filter fun r =>
            decide (s.context.committee.certificationThreshold ≤
              s.context.committee.weight (voters first.round P r)) &&
            decide (Slot.ofRef r = slot)).mapM s.getBlock =
          some ((certified.filter (·.1 = slot)).map (·.2)) := by
  obtain ⟨P, hP, hrun⟩ := hD.run_voteGraph hA first.round
    (countVote s.context.committee (s.decisionBlocks decisionSlots) first.round) fun _ => none
  have htally : TalliesVoters s.context.committee (s.decisionBlocks decisionSlots)
      (voters first.round P) (Bfs.visitAll (s.voteGraph first.round)
        (countVote s.context.committee (s.decisionBlocks decisionSlots) first.round) P
        fun _ => none) :=
    talliesVoters_visitAll P [] talliesVoters_none
  -- every decision block is an accepted block, which the lookup finds
  have hlookup : ∀ r ∈ s.decisionBlocks decisionSlots, ∃ b, s.getBlock r = some b := by
    intro r hr
    obtain ⟨b, hb, -, rfl⟩ := mem_decisionBlocks.mp hr
    exact ⟨b, hD.getBlock_reference (mem_blocks.mpr (.inr hb))⟩
  obtain ⟨certified, hcertified⟩ := OptionList.mapM_isSome
    (f := fun r => (s.getBlock r).map fun block => (Slot.ofRef r, block))
    (l := ((s.decisionBlocks decisionSlots).sort (· ≤ ·)).filter fun r =>
      ((Bfs.visitAll (s.voteGraph first.round)
        (countVote s.context.committee (s.decisionBlocks decisionSlots) first.round) P
        fun _ => none) r).any (·.reachedThreshold s.context.committee)) (by
      intro r hr
      obtain ⟨b, hb⟩ := hlookup r ((Finset.mem_sort _).mp (List.mem_filter.mp hr).1)
      simp [hb])
  refine ⟨P, hP, certified, ?_, fun slot => ?_⟩
  · unfold tryIndirectDecide
    have hall : decisionSlots.all (fun slot => slot.round = first.round) = true := by
      simpa using hround
    simp only [hhead, Option.bind_eq_bind, Option.bind_some, guard_eq_some hall,
      guard_eq_some hdepth, hrun]
    rw [hcertified]
    rfl
  · rw [← OptionList.mapM_filter_of_mapM_tag slot hcertified, List.filter_filter]
    congr 1
    refine List.filter_congr fun r hr => ?_
    have hiff := htally.any_reachedThreshold hcert ((Finset.mem_sort _).mp hr)
    apply Bool.eq_iff_iff.mpr
    simp only [Bool.and_eq_true, decide_eq_true_eq, hiff]
    exact and_comm

/-! ## Safety of the v3 commit rule -/

/-- A view the v3 safety argument applies to: a causal DAG over a committee
of `Committee.new_v3`, in which authorities outside `F`, of at most the
scaled malicious budget `f = validityThreshold - 1` in stake, author at most
one block per slot. -/
structure HonestViewV3 (s : DagState) (F : Finset ℕ) : Prop where
  causal : s.CausalDag
  committee_new_v3 : ∃ epoch authorities maliciousStake crashStake,
    Committee.new_v3 epoch authorities maliciousStake crashStake = some s.context.committee
  faulty_le : s.context.committee.weight F ≤ s.context.committee.validityThreshold - 1
  noEquivocation : s.NoEquivocation F

section Safety

variable {s s' : DagState} {F : Finset ℕ}

/-- An earlier causal view of an honest view is honest. -/
theorem HonestViewV3.of_extends (hV' : HonestViewV3 s' F) (he : Extends s s')
    (hD : CausalDag s) : HonestViewV3 s F where
  causal := hD
  committee_new_v3 := he.context_eq ▸ hV'.committee_new_v3
  faulty_le := he.context_eq ▸ hV'.faulty_le
  noEquivocation b₁ hb₁ b₂ hb₂ :=
    hV'.noEquivocation b₁ (he.mem_blocks hb₁) b₂ (he.mem_blocks hb₂)

/-- The thresholds of the view, as `Committee.new_v3_spec` states them. -/
theorem HonestViewV3.thresholds (hV : HonestViewV3 s F) :
    s.context.committee.totalStake = Committee.stakeSum s.context.committee.authorities ∧
      s.context.committee.totalStake + (s.context.committee.validityThreshold - 1) + 1 ≤
        s.context.committee.certificationThreshold + s.context.committee.quorumThreshold ∧
      s.context.committee.totalStake + (s.context.committee.validityThreshold - 1) +
          s.context.committee.certificationThreshold ≤ 2 * s.context.committee.quorumThreshold ∧
      1 ≤ s.context.committee.certificationThreshold := by
  obtain ⟨epoch, authorities, maliciousStake, crashStake, hc⟩ := hV.committee_new_v3
  exact Committee.new_v3_spec hc

theorem HonestViewV3.quorum_pos (hV : HonestViewV3 s F) :
    0 < s.context.committee.quorumThreshold := by
  obtain ⟨-, -, hqq, hcert⟩ := hV.thresholds
  omega

/-- Two sets whose weights exceed the total stake and `f` together share an
honest authority. -/
theorem HonestViewV3.exists_honest (hV : HonestViewV3 s F) {S S' : Finset ℕ} {a a' : ℕ}
    (hS : a ≤ s.context.committee.weight S) (hS' : a' ≤ s.context.committee.weight S')
    (h : s.context.committee.totalStake + (s.context.committee.validityThreshold - 1) < a + a') :
    ∃ x, x ∈ S ∧ x ∈ S' ∧ x ∉ F := by
  obtain ⟨htotal, -, -, -⟩ := hV.thresholds
  have hF := hV.faulty_le
  exact Committee.exists_mem_inter_not_mem_of_total htotal (by omega)

/-- Two quorums share honest authorities of certification weight. -/
theorem HonestViewV3.certificationThreshold_le (hV : HonestViewV3 s F) {S S' : Finset ℕ}
    (hS : s.context.committee.quorumThreshold ≤ s.context.committee.weight S)
    (hS' : s.context.committee.quorumThreshold ≤ s.context.committee.weight S') :
    s.context.committee.certificationThreshold ≤ s.context.committee.weight ((S ∩ S') \ F) := by
  obtain ⟨htotal, -, hqq, -⟩ := hV.thresholds
  have hF := hV.faulty_le
  have hmeet := Committee.weight_add_le_weight_inter_sdiff_add htotal F S S'
  omega

/-- Two blocks of one honest slot are one block. -/
theorem HonestViewV3.eq_of_slot (hV : HonestViewV3 s F) {b b' : Block} (hb : b ∈ s.blocks)
    (hb' : b' ∈ s.blocks) (hF : b.author ∉ F) (hround : b.round = b'.round)
    (hauthor : b.author = b'.author) : b = b' :=
  hV.noEquivocation b hb b' hb' hF (Block.slot_eq_slot_iff.mpr ⟨hround, hauthor⟩)

/-- A block lists at most one block of each author. -/
theorem CausalDag.eq_of_mem_ancestors (hD : CausalDag s) {c : Block} (hc : c ∈ s.blocks)
    {r r' : BlockRef} (hr : r ∈ c.ancestors) (hr' : r' ∈ c.ancestors) (hauthor : r.author = r'.author) :
    r = r' :=
  List.inj_on_of_nodup_map (hD.ancestor_authors_nodup c hc) hr hr' hauthor

/-- **A direct commit is certified from every later anchor.** The anchor's
history holds voting-round blocks of a quorum of authors; the children of the
committed block are another quorum; their honest common authors, of
certification weight, authored one voting-round block each, which is both in
the history and a vote. -/
theorem HonestViewV3.certified_of_direct_commit (hV' : HonestViewV3 s' F) (hE : MetadataExact s)
    (he : Extends s s') {slot : Slot} {b : Block}
    (hdirect : s.tryDirectDecide slot = some (.commit b)) {A : Block} (hA : A ∈ s'.blocks)
    (hround : slot.round + indirectCommitDepth ≤ A.round) {P : List Block}
    (hP : ∀ x, x ∈ P ↔ Bfs.Reaches (s'.voteGraph slot.round) A x) :
    s'.context.committee.certificationThreshold ≤
      s'.context.committee.weight (voters slot.round P b.reference) := by
  obtain ⟨hb, hbslot, -, hquorum⟩ := hE.tryDirectDecide_eq_commit hdirect
  rw [← he.context_eq] at hquorum
  have hbround : b.round = slot.round := by rw [← hbslot, Block.slot_round]
  -- the anchor's history holds a quorum of blocks of the voting round
  obtain ⟨S, hS, hSmem⟩ := hV'.causal.exists_quorum_at_round hV'.quorum_pos A.round A hA rfl
    (by unfold indirectCommitDepth at hround; omega : slot.round + 1 < A.round)
  -- their honest authors among the children vote for the block
  have hsub : (S ∩ (s.childRefs b).image BlockRef.author) \ F ⊆
      voters slot.round P b.reference := by
    intro x hx
    simp only [Finset.mem_sdiff, Finset.mem_inter, Finset.mem_image] at hx
    obtain ⟨⟨hxS, r, hr, rfl⟩, hxF⟩ := hx
    obtain ⟨c, hc, hcround, hcb, rfl⟩ := mem_childRefs.mp hr
    obtain ⟨c', hc', hc'x, hc'round, hreach⟩ := hSmem _ hxS
    have hcs' : c ∈ s'.blocks := he.mem_blocks (mem_blocks.mpr (.inr hc))
    -- the author's block in the history is its child of the block
    have hcc' : c' = c :=
      hV'.eq_of_slot hc' hcs' (by rw [hc'x]; exact hxF) (by omega) hc'x
    subst hcc'
    have hreaches := reaches_of_reach hreach (by rw [Block.reference_round]; omega) c'
      (hV'.causal.getBlock_reference hc')
    exact mem_voters.mpr ⟨c', (hP c').mpr hreaches, by omega, hcb, rfl⟩
  calc s'.context.committee.certificationThreshold
      ≤ s'.context.committee.weight ((S ∩ (s.childRefs b).image BlockRef.author) \ F) :=
        hV'.certificationThreshold_le hS hquorum
    _ ≤ s'.context.committee.weight (voters slot.round P b.reference) := Quorum.weight_mono hsub

/-- **No other block of a directly committed slot is certified.** Its honest
voters of weight above `cert - f` and the committed block's children, a
quorum, share an authority whose one voting-round block would list two
blocks of the slot's author. -/
theorem HonestViewV3.eq_of_certified_of_direct_commit (hV' : HonestViewV3 s' F)
    (hE : MetadataExact s) (he : Extends s s') {slot : Slot} {b : Block}
    (hdirect : s.tryDirectDecide slot = some (.commit b)) {A : Block} (hA : A ∈ s'.blocks)
    {P : List Block} (hP : ∀ x, x ∈ P ↔ Bfs.Reaches (s'.voteGraph slot.round) A x)
    {r : BlockRef} (hr : Slot.ofRef r = slot)
    (hcert : s'.context.committee.certificationThreshold ≤
      s'.context.committee.weight (voters slot.round P r)) :
    r = b.reference := by
  obtain ⟨hb, hbslot, -, hquorum⟩ := hE.tryDirectDecide_eq_commit hdirect
  rw [← he.context_eq] at hquorum
  obtain ⟨-, hcq, -, -⟩ := hV'.thresholds
  obtain ⟨x, hxv, hxc, hxF⟩ := hV'.exists_honest hcert hquorum (by omega)
  obtain ⟨c₁, hc₁P, hc₁round, hc₁r, rfl⟩ := mem_voters.mp hxv
  obtain ⟨ref, href, hrefx⟩ := Finset.mem_image.mp hxc
  obtain ⟨c₂, hc₂, hc₂round, hc₂b, rfl⟩ := mem_childRefs.mp href
  have hc₁ : c₁ ∈ s'.blocks := hV'.causal.mem_blocks_of_reaches hA ((hP c₁).mp hc₁P)
  have hbround : b.round = slot.round := by rw [← hbslot, Block.slot_round]
  -- the voter's block is the child of the committed block
  have heq : c₁ = c₂ := hV'.eq_of_slot hc₁ (he.mem_blocks (mem_blocks.mpr (.inr hc₂))) hxF
    (by omega) hrefx.symm
  subst heq
  refine hV'.causal.eq_of_mem_ancestors hc₁ hc₁r hc₂b ?_
  rw [Block.reference_author, ← Block.slot_authority, hbslot, ← hr, Slot.ofRef_authority]

/-- The authors a direct skip saw not voting for a block of the slot: a
quorum of voting-round authors each with a voting-round block that does not
list `r`. For a block of the slot these are the skip votes; for a block the
state did not hold, every voting-round block, none of which can list it. -/
theorem MetadataExact.exists_rejecters (hE : MetadataExact s) (hD : CausalDag s) {slot : Slot}
    (hskip : s.tryDirectDecide slot = some (.skip slot)) {r : BlockRef}
    (hr : Slot.ofRef r = slot) :
    ∃ R : Finset ℕ, s.context.committee.quorumThreshold ≤ s.context.committee.weight R ∧
      ∀ x ∈ R, ∃ c ∈ s.recentBlocks.map (·.block), c.round = slot.round + 1 ∧ c.author = x ∧
        r ∉ c.ancestors := by
  obtain ⟨-, hgc, hround, hrejected⟩ := hE.tryDirectDecide_eq_skip hskip
  have hrround : r.round = slot.round := by rw [← hr, Slot.ofRef_round]
  by_cases hin : ∃ b' ∈ s.recentBlocks.map (·.block), b'.reference = r
  · -- a block of the slot: the voting-round blocks that are not its children
    obtain ⟨b', hb', rfl⟩ := hin
    refine ⟨_, hrejected b' hb' hr, fun x hx => ?_⟩
    obtain ⟨ref, href, rfl⟩ := Finset.mem_image.mp hx
    obtain ⟨hround', hnotchild⟩ := Finset.mem_sdiff.mp href
    obtain ⟨c, hc, hcround, rfl⟩ := mem_roundRefs.mp hround'
    refine ⟨c, hc, hcround, rfl, fun hcb => hnotchild ?_⟩
    exact mem_childRefs.mpr ⟨c, hc, by rw [hcround, ← hrround, Block.reference_round], hcb, rfl⟩
  · -- a block the state does not hold: no accepted block lists it
    refine ⟨_, hround, fun x hx => ?_⟩
    obtain ⟨ref, href, rfl⟩ := Finset.mem_image.mp hx
    obtain ⟨c, hc, hcround, rfl⟩ := mem_roundRefs.mp href
    refine ⟨c, hc, hcround, rfl, fun hcr => hin ?_⟩
    obtain ⟨b', hb', rfl⟩ := hD.closed c (mem_blocks.mpr (.inr hc)) r hcr
    refine ⟨b', (mem_recent_iff_of_round_ne hD ?_).mpr hb', rfl⟩
    rw [genesisRound, ← Block.reference_round, hrround]
    omega

/-- **A direct skip is never overturned**: no block of the slot gathers a
certificate in any later view. Its honest voters and the rejecters of the
skip share an authority whose one voting-round block would both list the
block and not. -/
theorem HonestViewV3.weight_voters_lt_of_direct_skip (hV' : HonestViewV3 s' F)
    (hE : MetadataExact s) (hD : CausalDag s) (he : Extends s s') {slot : Slot}
    (hskip : s.tryDirectDecide slot = some (.skip slot)) {P : List Block}
    (hP : ∀ x ∈ P, x ∈ s'.blocks) {r : BlockRef} (hr : Slot.ofRef r = slot) :
    s'.context.committee.weight (voters slot.round P r) <
      s'.context.committee.certificationThreshold := by
  obtain ⟨R, hR, hRmem⟩ := hE.exists_rejecters hD hskip hr
  rw [← he.context_eq] at hR
  obtain ⟨-, hcq, -, -⟩ := hV'.thresholds
  refine Nat.lt_of_not_le fun hcert => ?_
  obtain ⟨x, hxv, hxR, hxF⟩ := hV'.exists_honest hcert hR (by omega)
  obtain ⟨c₁, hc₁P, hc₁round, hc₁r, rfl⟩ := mem_voters.mp hxv
  obtain ⟨c₂, hc₂, hc₂round, hc₂x, hc₂r⟩ := hRmem _ hxR
  -- the voter's block is the one that did not vote
  have heq : c₁ = c₂ := hV'.eq_of_slot (hP c₁ hc₁P) (he.mem_blocks (mem_blocks.mpr (.inr hc₂)))
    hxF (by omega) hc₂x.symm
  exact hc₂r (heq ▸ hc₁r)

/-- **The direct rule never finds a block both committed and skipped**:
its children and the voting-round blocks that are not its children would be
two quorums, sharing an honest author with one voting-round block. -/
theorem HonestViewV3.tryDirectDecide_ne_none (hV : HonestViewV3 s F) (hE : MetadataExact s)
    {slot : Slot} (hgc : s.gcRound < slot.round) : s.tryDirectDecide slot ≠ none := by
  intro hnone
  obtain ⟨b, -, hbslot, hchildren, hrejected⟩ := hE.tryDirectDecide_eq_none hgc hnone
  obtain ⟨-, -, hqq, hcert⟩ := hV.thresholds
  obtain ⟨x, hxc, hxr, hxF⟩ := hV.exists_honest hchildren hrejected (by omega)
  obtain ⟨ref₁, href₁, hx₁⟩ := Finset.mem_image.mp hxc
  obtain ⟨ref₂, href₂, hx₂⟩ := Finset.mem_image.mp hxr
  obtain ⟨hround₂, hnotchild⟩ := Finset.mem_sdiff.mp href₂
  obtain ⟨c₁, hc₁, hc₁round, hc₁b, rfl⟩ := mem_childRefs.mp href₁
  obtain ⟨c₂, hc₂, hc₂round, rfl⟩ := mem_roundRefs.mp hround₂
  have hbround : b.round = slot.round := by rw [← hbslot, Block.slot_round]
  -- the rejecting block is the child
  have heq : c₁ = c₂ := hV.eq_of_slot (mem_blocks.mpr (.inr hc₁)) (mem_blocks.mpr (.inr hc₂))
    (by rw [← Block.reference_author, hx₁]; exact hxF) (by omega)
    (by rw [← Block.reference_author, hx₁, ← hx₂, Block.reference_author])
  subst heq
  exact hnotchild (mem_childRefs.mpr ⟨c₁, hc₁, hc₁round, hc₁b, rfl⟩)

/-- What the direct and the indirect rule must agree on for one slot, from
a state `s` the direct rule reads and a later view `s'` of the indirect rule:
a directly committed block is the indirect decision from every anchor at
least `indirectCommitDepth` rounds above the slot, a directly skipped slot is
skipped by every indirect decision, and the direct rule fails only on the
assertion that the slot lies above the GC round, never on a block both
committed and skipped. -/
structure RulesAgree (s s' : DagState) (slot : Slot) : Prop where
  direct_commit : ∀ b, s.tryDirectDecide slot = some (.commit b) →
    ∀ A ∈ s'.blocks, slot.round + indirectCommitDepth ≤ A.round →
    ∀ decisionSlots : List Slot, slot ∈ decisionSlots →
      (∀ x ∈ decisionSlots, x.round = slot.round) →
      ∃ sts : List LeaderStatus, s'.tryIndirectDecide A decisionSlots = some sts ∧
        ∀ i : ℕ, decisionSlots[i]? = some slot → sts[i]? = some (.commit b)
  direct_skip : s.tryDirectDecide slot = some (.skip slot) →
    ∀ A ∈ s'.blocks, ∀ decisionSlots (sts : List LeaderStatus),
      s'.tryIndirectDecide A decisionSlots = some sts →
      ∀ i : ℕ, decisionSlots[i]? = some slot → sts[i]? = some (.skip slot)
  direct_none : s.tryDirectDecide slot = none → slot.round ≤ s.gcRound

/-- **Safety of the v3 commit rule.** The rules agree on every slot of a
state the DAG-state steps reach with v3 enabled, over a committee of
`Committee.new_v3`, with any later causal view in which authorities outside
`F`, of at most `f` stake, do not equivocate. -/
theorem leaderSlotDecider_safe {s s' : DagState} {F : Finset ℕ}
    (hv3 : s.context.protocolConfig.enableV3 = true)
    (hR : Relation.ReflTransGen Step (new s.context s.genesis) s) (hD : CausalDag s)
    (he : Extends s s') (hV' : HonestViewV3 s' F) (slot : Slot) :
    RulesAgree s s' slot := by
  obtain ⟨hE, -⟩ := metadataExact_of_reachable hv3 hR
  obtain ⟨-, -, -, hcert⟩ := hV'.thresholds
  refine ⟨fun b hdirect A hA hround decisionSlots hslot hrounds => ?_,
    fun hskip A hA decisionSlots sts hsts i hi => ?_, fun hnone => ?_⟩
  · -- a direct commit: the committed block is the one certified block of its slot
    obtain ⟨first, hhead⟩ : ∃ first, decisionSlots.head? = some first := by
      cases decisionSlots with
      | nil => cases hslot
      | cons first _ => exact ⟨first, rfl⟩
    have hfirst : first.round = slot.round := hrounds first (List.mem_of_mem_head? hhead)
    obtain ⟨P, hP, certified, heq, hcertified⟩ := hV'.causal.tryIndirectDecide_eq hA hhead
      (fun x hx => (hrounds x hx).trans hfirst.symm) (hfirst ▸ hround) hcert
    rw [hfirst] at hP hcertified
    obtain ⟨hb, hbslot, -, -⟩ := hE.tryDirectDecide_eq_commit hdirect
    have hb' : b ∈ s'.recentBlocks.map (·.block) := he.recent_subset b hb
    have hfilter : (((s'.decisionBlocks decisionSlots).sort (· ≤ ·)).filter fun r =>
        decide (s'.context.committee.certificationThreshold ≤
          s'.context.committee.weight (voters slot.round P r)) &&
        decide (Slot.ofRef r = slot)) = [b.reference] := by
      refine OptionList.filter_eq_singleton (Finset.sort_nodup _ _) ?_ ?_ ?_
      · exact (Finset.mem_sort _).mpr (mem_decisionBlocks.mpr ⟨b, hb', hbslot ▸ hslot, rfl⟩)
      · simp only [Bool.and_eq_true, decide_eq_true_eq]
        exact ⟨hV'.certified_of_direct_commit hE he hdirect hA hround hP, hbslot⟩
      · intro r _ hr
        simp only [Bool.and_eq_true, decide_eq_true_eq] at hr
        exact hV'.eq_of_certified_of_direct_commit hE he hdirect hA hP hr.2 hr.1
    have hslotCertified := hcertified slot
    rw [hfilter, List.mapM_cons, hV'.causal.getBlock_reference (mem_blocks.mpr (.inr hb'))]
      at hslotCertified
    simp only [List.mapM_nil, Option.bind_eq_bind, Option.pure_def, Option.bind_some,
      Option.some.injEq] at hslotCertified
    refine ⟨_, heq, fun i hi => ?_⟩
    rw [List.getElem?_map, hi, Option.map_some, indirectStatus, ← hslotCertified]
  · -- a direct skip: no decision block of the slot is certified
    obtain ⟨first, hhead, hrounds, hdepth⟩ := tryIndirectDecide_guards hsts
    have hfirst : first.round = slot.round := (hrounds slot (List.mem_of_getElem? hi)).symm
    obtain ⟨P, hP, certified, heq, hcertified⟩ :=
      hV'.causal.tryIndirectDecide_eq hA hhead hrounds hdepth hcert
    rw [heq, Option.some.injEq] at hsts
    subst hsts
    rw [hfirst] at hP hcertified
    have hfilter : (((s'.decisionBlocks decisionSlots).sort (· ≤ ·)).filter fun r =>
        decide (s'.context.committee.certificationThreshold ≤
          s'.context.committee.weight (voters slot.round P r)) &&
        decide (Slot.ofRef r = slot)) = [] := by
      refine List.filter_eq_nil_iff.mpr fun r _ hr => ?_
      simp only [Bool.and_eq_true, decide_eq_true_eq] at hr
      have hlt := hV'.weight_voters_lt_of_direct_skip hE hD he hskip
        (fun x hx => hV'.causal.mem_blocks_of_reaches hA ((hP x).mp hx)) hr.2
      exact absurd hr.1 (Nat.not_le.mpr hlt)
    have hslotCertified := hcertified slot
    rw [hfilter, List.mapM_nil, Option.pure_def, Option.some.injEq] at hslotCertified
    rw [List.getElem?_map, hi, Option.map_some, indirectStatus, ← hslotCertified]
  · -- no block is both committed and skipped above the GC round
    refine Nat.le_of_not_lt fun hgc => ?_
    exact (hV'.of_extends he hD).tryDirectDecide_ne_none hE hgc hnone

/-- Safety on a committee of four stakes of 25 with a malicious budget of
one in five (`f = 19`, certification at 39, quorum at 81), from the state that
accepted the four blocks of round one to a view of three full rounds. -/
theorem leaderSlotDecider_safe_after_round_one :
    let authorities : List Authority := [⟨25⟩, ⟨25⟩, ⟨25⟩, ⟨25⟩]
    let committee : Committee := ⟨0, authorities, 100, 81, 39, 20⟩
    let context : Context := ⟨0, 0, committee, ⟨0, some 1, 0, 1, 1, true, 0, 0, 0⟩⟩
    let block (round author digest : ℕ) (ancestors : List BlockRef) : Block :=
      ⟨0, round, author, 0, ancestors, [], digest⟩
    let genesis := (List.range 4).map fun a => block 0 a a []
    let round₁ := (List.range 4).map fun a => block 1 a (4 + a) (genesis.map Block.reference)
    let round₂ := (List.range 4).map fun a => block 2 a (8 + a) (round₁.map Block.reference)
    let round₃ := (List.range 4).map fun a => block 3 a (12 + a) (round₂.map Block.reference)
    let s := (round₁.foldlM acceptBlock (new context genesis)).getD (new context genesis)
    let s' : DagState := ⟨context, genesis,
      (round₁ ++ round₂ ++ round₃).map fun b => ⟨b, ∅, .new, false⟩, [], 3, none⟩
    ∀ slot : Slot, RulesAgree s s' slot := by
  intro authorities committee context block genesis round₁ round₂ round₃ s s' slot
  have hc : Committee.new_v3 0 authorities 1 0 = some committee := by decide
  have hrun : round₁.foldlM acceptBlock (new context genesis) = some s :=
    (Option.getD_of_ne_none (by decide) _).symm
  -- the accepted state keeps the context and genesis it started from
  have hR : Relation.ReflTransGen Step (new s.context s.genesis) s := by
    obtain ⟨hctx, hgen⟩ : s.context = context ∧ s.genesis = genesis := by decide
    rw [hctx, hgen]
    exact reflTransGen_of_foldlM_acceptBlock hrun
  have hD : s.CausalDag := ⟨by decide, by decide, by decide, by decide, by decide, by decide, by decide⟩
  have hD' : s'.CausalDag :=
    ⟨by decide, by decide, by decide, by decide, by decide, by decide, by decide⟩
  have hV' : HonestViewV3 s' ∅ :=
    ⟨hD', ⟨0, authorities, 1, 0, hc⟩, by decide, by unfold DagState.NoEquivocation; decide⟩
  have he : s.Extends s' := ⟨by decide, by decide, by decide, by decide⟩
  exact leaderSlotDecider_safe (by decide) hR hD he hV' slot

end Safety

end DagState

end Sui
