import Mathlib.Data.Finset.Sort
import Sui.Worklist
import Sui.OptionList
import Sui.Consensus.BlockVerifier
import Sui.Consensus.Commit
import Sui.Consensus.StakeAggregator

/-!
# The DAG state (`dag_state.rs`), as the commit rules read it

The committers never change the DAG state; they look blocks up by reference,
list the blocks of a slot or of a round, and collect the history of an anchor
at a given round. This file models those reads:

* `getBlock` — genesis blocks for round zero, the accepted blocks otherwise;
* `getUncommittedBlocksAtSlot`, `getUncommittedBlocksAtRound` — the latter
  panics on a round at or below the last commit;
* `ancestorsAtRound` — the traversal that pops the largest pending reference
  and pushes its ancestors until the rest lies at or below the target round,
  an instance of `Worklist.drain`.

The state keeps every accepted block in `recentBlocks`; the store behind it,
which `get_blocks` falls back to for evicted blocks, holds nothing the model
would not also hold there.

`CausalDag` is what the state may be assumed to be: its blocks form a causally
closed DAG of blocks with lower-round ancestors of distinct authors and a
quorum of parents, which is what `verify_block` establishes for every accepted
block. Under it the reads never panic and `ancestorsAtRound` returns exactly
the blocks of the round reachable from the anchor (`ancestorsAtRound_spec`).
`Extends` relates a state to a later one that keeps its blocks.
-/

namespace Sui

/-- `BlockInfo`: an accepted block, the v3 vote accounting of its children,
and whether it has been committed. -/
structure BlockInfo where
  /-- the accepted block -/
  block : Block
  /-- next-round blocks which have this block as an ancestor -/
  children : Finset BlockRef
  /-- the distinct authors of `children` and their stake -/
  childrenStake : StakeAggregator .quorumThreshold
  /-- whether the block has been committed -/
  committed : Bool
  deriving DecidableEq

/-- `RoundInfo`: the blocks accepted at one round above the GC round. -/
structure RoundInfo where
  /-- the round -/
  round : ℕ
  /-- blocks accepted at `round` -/
  blocks : Finset BlockRef
  /-- the distinct authors of `blocks` and their stake -/
  totalStake : StakeAggregator .quorumThreshold
  deriving DecidableEq

/-- `DagState`: the fields the commit rules read and the block acceptance
path writes. -/
structure DagState where
  /-- the per-epoch context -/
  context : Context
  /-- the genesis blocks, one per authority -/
  genesis : List Block
  /-- the accepted blocks, in reference order -/
  recentBlocks : List BlockInfo
  /-- one `RoundInfo` per round, from the lowest round kept -/
  roundInfo : List RoundInfo
  /-- the highest round of an accepted block -/
  highestAcceptedRound : ℕ
  /-- the last commit, if any -/
  lastCommit : Option TrustedCommit

namespace DagState

variable (s : DagState)

/-- Every block of the state: the genesis blocks and the accepted ones. -/
def blocks : List Block := s.genesis ++ s.recentBlocks.map (·.block)

/-- `DagState::last_commit_round`. -/
def lastCommitRound : ℕ :=
  match s.lastCommit with
  | some commit => commit.inner.leader.round
  | none => 0

/-- `DagState::gc_round`, through `calculate_gc_round`. -/
def gcRound : ℕ := s.lastCommitRound - s.context.protocolConfig.gcDepth

/-- `DagState::get_block`: round-zero references are looked up among the
genesis blocks, the others among the accepted blocks. -/
def getBlock (reference : BlockRef) : Option Block :=
  if reference.round = genesisRound then s.genesis.find? (·.reference = reference)
  else (s.recentBlocks.find? (·.block.reference = reference)).map (·.block)

/-- `DagState::get_uncommitted_blocks_at_slot`. -/
def getUncommittedBlocksAtSlot (slot : Slot) : List Block :=
  (s.recentBlocks.filter (·.block.slot = slot)).map (·.block)

/-- The accepted blocks of a round, in reference order: the range scan of
`get_uncommitted_blocks_at_round`. -/
def blocksAtRound (round : ℕ) : List Block :=
  (s.recentBlocks.filter (·.block.round = round)).map (·.block)

/-- `DagState::get_uncommitted_blocks_at_round`; `none` is the panic on a
round that has committed blocks. -/
def getUncommittedBlocksAtRound (round : ℕ) : Option (List Block) :=
  if round ≤ s.lastCommitRound then none
  else some (s.blocksAtRound round)

/-- The references the traversal of `ancestors_at_round` pushes for a popped
one: the ancestors of its block, or a panic when the block is missing. -/
def ancestorRefs (reference : BlockRef) : Option (Finset BlockRef) :=
  (s.getBlock reference).map fun b => b.ancestors.toFinset

/-- The traversal of `ancestors_at_round` stops at references at or below the
target round. -/
def atOrBelow (earlierRound : ℕ) (reference : BlockRef) : Bool :=
  decide (reference.round ≤ earlierRound)

/-- `DagState::ancestors_at_round`. The traversal pops every block of the
state at most once, so one more round of fuel than there are blocks lets it
finish (`ancestorsAtRound_spec`). -/
def ancestorsAtRound (laterBlock : Block) (earlierRound : ℕ) : Option (List Block) := do
  let linked ← Worklist.drain s.ancestorRefs (atOrBelow earlierRound) (s.blocks.length + 1)
    laterBlock.ancestors.toFinset
  (Finset.sort (linked.filter fun r => earlierRound ≤ r.round)).mapM s.getBlock

/-! ## The assumed shape of the DAG -/

/-- A causally closed DAG of verified blocks: genesis blocks at round zero,
accepted blocks above it, one block per reference, every ancestor present,
and every accepted block with lower-round ancestors of distinct authors whose
parents carry a quorum. -/
structure CausalDag : Prop where
  genesis_round : ∀ b ∈ s.genesis, b.round = genesisRound
  recent_round_pos : ∀ i ∈ s.recentBlocks, genesisRound < i.block.round
  refs_nodup : (s.blocks.map Block.reference).Nodup
  closed : ∀ b ∈ s.blocks, ∀ a ∈ b.ancestors, ∃ b' ∈ s.blocks, b'.reference = a
  ancestor_round_lt : ∀ b ∈ s.blocks, ∀ a ∈ b.ancestors, a.round < b.round
  ancestor_authors_nodup : ∀ b ∈ s.blocks, (b.ancestors.map (·.author)).Nodup
  parent_quorum : ∀ i ∈ s.recentBlocks,
    s.context.committee.quorumThreshold ≤ s.context.committee.weight i.block.parentAuthors

/-- Authorities outside `F` author at most one block per slot. -/
def NoEquivocation (F : Finset ℕ) : Prop :=
  ∀ b₁ ∈ s.blocks, ∀ b₂ ∈ s.blocks, b₁.author ∉ F → b₁.slot = b₂.slot → b₁ = b₂

/-- `s'` is a later view of the same epoch: same context and genesis, every
accepted block still there, and the highest accepted round not lower. -/
structure Extends (s s' : DagState) : Prop where
  context_eq : s'.context = s.context
  genesis_eq : s'.genesis = s.genesis
  recent_subset : ∀ b ∈ s.recentBlocks.map (·.block), b ∈ s'.recentBlocks.map (·.block)
  highestAcceptedRound_le : s.highestAcceptedRound ≤ s'.highestAcceptedRound

variable {s}

theorem mem_blocks {b : Block} :
    b ∈ s.blocks ↔ b ∈ s.genesis ∨ b ∈ s.recentBlocks.map (·.block) := List.mem_append

/-- A block `get_block` finds has the reference asked for. -/
theorem getBlock_reference_eq {r : BlockRef} {b : Block} (h : s.getBlock r = some b) :
    b.reference = r := by
  unfold getBlock at h
  split at h
  · simpa using List.find?_some h
  · obtain ⟨info, hinfo, rfl⟩ := Option.map_eq_some_iff.mp h
    simpa using List.find?_some hinfo

/-- A block `get_block` finds is a block of the state. -/
theorem mem_blocks_of_getBlock {r : BlockRef} {b : Block} (h : s.getBlock r = some b) :
    b ∈ s.blocks := by
  unfold getBlock at h
  split at h
  · exact mem_blocks.mpr (.inl (List.mem_of_find?_eq_some h))
  · obtain ⟨info, hinfo, rfl⟩ := Option.map_eq_some_iff.mp h
    exact mem_blocks.mpr (.inr (List.mem_map_of_mem (List.mem_of_find?_eq_some hinfo)))

/-- Accepted blocks of a round above the genesis round are exactly the
blocks of that round. -/
theorem mem_recent_iff_of_round_ne (hD : CausalDag s) {b : Block} (h : b.round ≠ genesisRound) :
    b ∈ s.recentBlocks.map (·.block) ↔ b ∈ s.blocks := by
  rw [mem_blocks]
  constructor
  · exact .inr
  · rintro (hg | hr)
    · exact absurd (hD.genesis_round b hg) h
    · exact hr

theorem CausalDag.round_pos_of_mem_recent (hD : CausalDag s) {b : Block}
    (hb : b ∈ s.recentBlocks.map (·.block)) : genesisRound < b.round := by
  obtain ⟨i, hi, rfl⟩ := List.mem_map.mp hb
  exact hD.recent_round_pos i hi

/-- A reference names at most one block of the state. -/
theorem CausalDag.eq_of_reference_eq (hD : CausalDag s) {b₁ b₂ : Block} (h₁ : b₁ ∈ s.blocks)
    (h₂ : b₂ ∈ s.blocks) (h : b₁.reference = b₂.reference) : b₁ = b₂ :=
  List.inj_on_of_nodup_map hD.refs_nodup h₁ h₂ h

/-- **The lookup finds the block of a reference, and only it.** -/
theorem CausalDag.getBlock_eq_some_iff (hD : CausalDag s) {r : BlockRef} {b : Block} :
    s.getBlock r = some b ↔ b ∈ s.blocks ∧ b.reference = r := by
  unfold getBlock
  split
  · rename_i hr
    constructor
    · intro h
      have hp := List.find?_some h
      exact ⟨mem_blocks.mpr (.inl (List.mem_of_find?_eq_some h)), by simpa using hp⟩
    · rintro ⟨hb, rfl⟩
      have hg : b ∈ s.genesis := by
        rcases mem_blocks.mp hb with hg | hrec
        · exact hg
        · exact absurd hr (Nat.ne_of_gt (hD.round_pos_of_mem_recent hrec))
      obtain ⟨x, hx⟩ := Option.isSome_iff_exists.mp
        (List.find?_isSome.mpr ⟨b, hg, by simp⟩ : (s.genesis.find? (·.reference = b.reference)).isSome)
      have hxb : x = b := hD.eq_of_reference_eq (mem_blocks.mpr (.inl (List.mem_of_find?_eq_some hx)))
        hb (by simpa using List.find?_some hx)
      rw [hx, hxb]
  · rename_i hr
    constructor
    · intro h
      obtain ⟨i, hi, rfl⟩ := Option.map_eq_some_iff.mp h
      exact ⟨mem_blocks.mpr (.inr (List.mem_map_of_mem (List.mem_of_find?_eq_some hi))),
        by simpa using List.find?_some hi⟩
    · rintro ⟨hb, rfl⟩
      obtain ⟨i, hi, rfl⟩ := List.mem_map.mp ((mem_recent_iff_of_round_ne hD hr).mpr hb)
      obtain ⟨x, hx⟩ := Option.isSome_iff_exists.mp
        (List.find?_isSome.mpr ⟨i, hi, by simp⟩ :
          (s.recentBlocks.find? (·.block.reference = i.block.reference)).isSome)
      have hxmem : x.block ∈ s.blocks :=
        mem_blocks.mpr (.inr (List.mem_map_of_mem (List.mem_of_find?_eq_some hx)))
      have hxb : x.block = i.block := hD.eq_of_reference_eq hxmem hb (by simpa using List.find?_some hx)
      rw [hx, Option.map_some, hxb]

theorem CausalDag.getBlock_reference (hD : CausalDag s) {b : Block} (hb : b ∈ s.blocks) :
    s.getBlock b.reference = some b :=
  hD.getBlock_eq_some_iff.mpr ⟨hb, rfl⟩

/-- Every ancestor of a block of the state is the reference of a block of the
state, which the lookup finds. -/
theorem CausalDag.getBlock_ancestor (hD : CausalDag s) {b : Block} (hb : b ∈ s.blocks)
    {a : BlockRef} (ha : a ∈ b.ancestors) : ∃ b' ∈ s.blocks, b'.reference = a ∧ s.getBlock a = some b' := by
  obtain ⟨b', hb', rfl⟩ := hD.closed b hb a ha
  exact ⟨b', hb', rfl, hD.getBlock_reference hb'⟩

/-! ## Reading slots and rounds -/

theorem mem_getUncommittedBlocksAtSlot {slot : Slot} {b : Block} :
    b ∈ s.getUncommittedBlocksAtSlot slot ↔ b ∈ s.recentBlocks.map (·.block) ∧ b.slot = slot := by
  unfold getUncommittedBlocksAtSlot
  simp only [List.mem_map, List.mem_filter, decide_eq_true_eq]
  constructor
  · rintro ⟨i, ⟨hi, hslot⟩, rfl⟩
    exact ⟨⟨i, hi, rfl⟩, hslot⟩
  · rintro ⟨⟨i, hi, rfl⟩, hslot⟩
    exact ⟨i, ⟨hi, hslot⟩, rfl⟩

/-- The blocks of a slot are listed once each. -/
theorem CausalDag.nodup_getUncommittedBlocksAtSlot (hD : CausalDag s) (slot : Slot) :
    (s.getUncommittedBlocksAtSlot slot).Nodup := by
  have hrecent : (s.recentBlocks.map (·.block)).Nodup := by
    have h := hD.refs_nodup
    rw [blocks, List.map_append] at h
    exact (List.nodup_append.mp h).2.1.of_map _
  exact hrecent.sublist (List.filter_sublist.map _)

theorem getUncommittedBlocksAtRound_of_lt {round : ℕ} (h : s.lastCommitRound < round) :
    s.getUncommittedBlocksAtRound round = some (s.blocksAtRound round) := by
  rw [getUncommittedBlocksAtRound, if_neg (Nat.not_le.mpr h)]

theorem mem_blocksAtRound {round : ℕ} {b : Block} :
    b ∈ s.blocksAtRound round ↔ b ∈ s.recentBlocks.map (·.block) ∧ b.round = round := by
  simp only [blocksAtRound, List.mem_map, List.mem_filter, decide_eq_true_eq]
  constructor
  · rintro ⟨i, ⟨hi, hround⟩, rfl⟩
    exact ⟨⟨i, hi, rfl⟩, hround⟩
  · rintro ⟨⟨i, hi, rfl⟩, hround⟩
    exact ⟨i, ⟨hi, hround⟩, rfl⟩

/-! ## Later views -/

theorem Extends.mem_blocks {s' : DagState} (he : Extends s s') {b : Block} (hb : b ∈ s.blocks) :
    b ∈ s'.blocks := by
  rcases DagState.mem_blocks.mp hb with hg | hr
  · exact DagState.mem_blocks.mpr (.inl (he.genesis_eq ▸ hg))
  · exact DagState.mem_blocks.mpr (.inr (he.recent_subset b hr))

/-- A later view finds every block the earlier one finds. -/
theorem Extends.getBlock_eq {s' : DagState} (he : Extends s s') (hD : CausalDag s)
    (hD' : CausalDag s') {r : BlockRef} {b : Block} (h : s.getBlock r = some b) :
    s'.getBlock r = some b := by
  obtain ⟨hb, rfl⟩ := hD.getBlock_eq_some_iff.mp h
  exact hD'.getBlock_reference (he.mem_blocks hb)

/-! ## The history of a block at a round -/

section History

variable {e : ℕ}

/-- Everything the traversal from a block's ancestors reaches is a block of
the state below it. -/
theorem CausalDag.reach_block (hD : CausalDag s) {b : Block} (hb : b ∈ s.blocks) {x : BlockRef}
    (h : Worklist.Reach s.ancestorRefs (atOrBelow e) b.ancestors.toFinset x) :
    ∃ c ∈ s.blocks, c.reference = x ∧ c.round < b.round := by
  induction h with
  | base hx =>
    obtain ⟨c, hc, rfl⟩ := hD.closed b hb _ (List.mem_toFinset.mp hx)
    exact ⟨c, hc, rfl, hD.ancestor_round_lt b hb _ (List.mem_toFinset.mp hx)⟩
  | step _ _ hnext hmem ih =>
    obtain ⟨c, hc, rfl, hlt⟩ := ih
    rw [ancestorRefs, hD.getBlock_reference hc, Option.map_some] at hnext
    cases hnext
    obtain ⟨c', hc', hc'ref⟩ := hD.closed c hc _ (List.mem_toFinset.mp hmem)
    have hround := hD.ancestor_round_lt c hc _ (List.mem_toFinset.mp hmem)
    rw [← hc'ref] at hround
    exact ⟨c', hc', hc'ref, by simp only [Block.reference_round] at hround; omega⟩

/-- Stopping at or below a round is downward closed: the order of
references compares rounds first. -/
theorem atOrBelow_of_le {a x : BlockRef} (hxa : x ≤ a) (ha : atOrBelow e a = true) :
    atOrBelow e x = true := by
  simp only [atOrBelow, decide_eq_true_eq] at ha ⊢
  exact le_trans (BlockRef.round_le_of_le hxa) ha

/-- The traversal's fuel exceeds the number of references of the state. -/
theorem card_refs_lt_fuel (s : DagState) :
    (s.blocks.map Block.reference).toFinset.card < s.blocks.length + 1 :=
  calc (s.blocks.map Block.reference).toFinset.card
      ≤ (s.blocks.map Block.reference).length := List.toFinset_card_le _
    _ < s.blocks.length + 1 := by rw [List.length_map]; omega

/-- The history of `laterBlock` is stored down to round `e`: every reference
the traversal reaches at or above the round names a stored block, and the
blocks above the round have their ancestors in lower rounds, as every
verified block does. -/
structure HistoryStored (s : DagState) (laterBlock : Block) (e : ℕ) : Prop where
  stored : ∀ x, Worklist.Reach s.ancestorRefs (atOrBelow e) laterBlock.ancestors.toFinset x →
    e ≤ x.round → ∃ c, s.getBlock x = some c
  ancestor_round_lt : ∀ x c, Worklist.Reach s.ancestorRefs (atOrBelow e) laterBlock.ancestors.toFinset x →
    e < x.round → s.getBlock x = some c → ∀ a ∈ c.ancestors, a.round < c.round

/-- The traversal of `ancestors_at_round` over a stored history finishes
within its fuel: it pops the largest reference, which is never pushed again
since a block only pushes lower rounds, and each reference it pops names a
distinct block of the state. It stops with exactly the references at or below
the round that it reaches. -/
theorem HistoryStored.drain {b : Block} (h : HistoryStored s b e) :
    ∃ W, Worklist.drain s.ancestorRefs (atOrBelow e) (s.blocks.length + 1) b.ancestors.toFinset =
        some W ∧
      ∀ x, x ∈ W ↔ Worklist.Reach s.ancestorRefs (atOrBelow e) b.ancestors.toFinset x ∧
        atOrBelow e x = true := by
  refine Worklist.drain_spec (U := (s.blocks.map Block.reference).toFinset)
    (fun a x hxa ha => atOrBelow_of_le hxa ha) ?_ ?_ (card_refs_lt_fuel s)
  · -- a popped reference has a block, whose ancestors lie below it
    intro a ha hstop
    have hround : e < a.round := by simpa [atOrBelow] using hstop
    obtain ⟨c, hc⟩ := h.stored a ha hround.le
    refine ⟨c.ancestors.toFinset, by rw [ancestorRefs, hc, Option.map_some], fun y hy => ?_⟩
    have hlt := h.ancestor_round_lt a c ha hround hc y (List.mem_toFinset.mp hy)
    rw [← getBlock_reference_eq hc]
    exact BlockRef.lt_of_round_lt (by simpa using hlt)
  · intro a ha hstop
    have hround : e < a.round := by simpa [atOrBelow] using hstop
    obtain ⟨c, hc⟩ := h.stored a ha hround.le
    rw [← getBlock_reference_eq hc]
    exact List.mem_toFinset.mpr (List.mem_map_of_mem (mem_blocks_of_getBlock hc))

/-- A block of a causal DAG has its whole history stored. -/
theorem CausalDag.historyStored (hD : CausalDag s) {b : Block} (hb : b ∈ s.blocks) :
    HistoryStored s b e where
  stored x hx _ := by
    obtain ⟨c, hc, rfl, -⟩ := hD.reach_block hb hx
    exact ⟨c, hD.getBlock_reference hc⟩
  ancestor_round_lt _ c _ _ hc := hD.ancestor_round_lt c (mem_blocks_of_getBlock hc)

/-- The traversal of `ancestors_at_round` finishes within its fuel and stops
with exactly the references at or below the round that it reaches. -/
theorem CausalDag.drain_ancestorRefs (hD : CausalDag s) {b : Block} (hb : b ∈ s.blocks) :
    ∃ W, Worklist.drain s.ancestorRefs (atOrBelow e) (s.blocks.length + 1) b.ancestors.toFinset =
        some W ∧
      ∀ x, x ∈ W ↔ Worklist.Reach s.ancestorRefs (atOrBelow e) b.ancestors.toFinset x ∧
        atOrBelow e x = true :=
  (hD.historyStored hb).drain

/-- `ancestorsAtRound`, once the traversal has stopped with `W`. -/
theorem ancestorsAtRound_of_drain {b : Block} {W : Finset BlockRef}
    (hW : Worklist.drain s.ancestorRefs (atOrBelow e) (s.blocks.length + 1) b.ancestors.toFinset =
      some W) :
    s.ancestorsAtRound b e = (Finset.sort (W.filter fun r => e ≤ r.round)).mapM s.getBlock := by
  rw [ancestorsAtRound, hW]
  rfl

/-- **`ancestors_at_round` over a stored history** returns, once each by
reference, the stored blocks of the round that the traversal reaches. -/
theorem HistoryStored.ancestorsAtRound_spec {b : Block} (h : HistoryStored s b e) :
    ∃ L, s.ancestorsAtRound b e = some L ∧ (L.map Block.reference).Nodup ∧
      ∀ c, c ∈ L ↔ c.round = e ∧
        Worklist.Reach s.ancestorRefs (atOrBelow e) b.ancestors.toFinset c.reference ∧
        s.getBlock c.reference = some c := by
  obtain ⟨W, hW, hmem⟩ := h.drain
  -- the references kept are the reached ones of the round itself
  have hsorted : ∀ r, r ∈ Finset.sort (W.filter fun r => e ≤ r.round) ↔
      Worklist.Reach s.ancestorRefs (atOrBelow e) b.ancestors.toFinset r ∧ r.round = e := by
    intro r
    rw [Finset.mem_sort, Finset.mem_filter, hmem]
    simp only [atOrBelow, decide_eq_true_eq]
    constructor
    · rintro ⟨⟨hr, hle⟩, hge⟩
      exact ⟨hr, le_antisymm hle hge⟩
    · rintro ⟨hr, rfl⟩
      exact ⟨⟨hr, le_rfl⟩, le_rfl⟩
  obtain ⟨L, hL⟩ := OptionList.mapM_isSome (f := s.getBlock)
    (l := Finset.sort (W.filter fun r => e ≤ r.round)) fun r hr => by
      obtain ⟨hreach, hround⟩ := (hsorted r).mp hr
      obtain ⟨c, hc⟩ := h.stored r hreach hround.ge
      rw [hc]
      rfl
  have hrefs : L.map Block.reference = Finset.sort (W.filter fun r => e ≤ r.round) :=
    OptionList.map_of_mapM_eq_some (fun _ _ hc => getBlock_reference_eq hc) hL
  refine ⟨L, (ancestorsAtRound_of_drain hW).trans hL, hrefs ▸ Finset.sort_nodup _ _, fun c => ?_⟩
  rw [OptionList.mem_of_mapM_eq_some hL c]
  constructor
  · rintro ⟨r, hr, hget⟩
    obtain rfl := getBlock_reference_eq hget
    obtain ⟨hreach, hround⟩ := (hsorted _).mp hr
    exact ⟨by simpa using hround, hreach, hget⟩
  · rintro ⟨hround, hreach, hget⟩
    exact ⟨c.reference, (hsorted _).mpr ⟨hreach, by simpa using hround⟩, hget⟩

/-- **`ancestors_at_round` returns the blocks of the round reachable from
the block**, and never panics on a causal DAG. -/
theorem CausalDag.ancestorsAtRound_spec (hD : CausalDag s) {b : Block} (hb : b ∈ s.blocks) :
    ∃ L, s.ancestorsAtRound b e = some L ∧
      ∀ c, c ∈ L ↔ c ∈ s.blocks ∧ c.round = e ∧
        Worklist.Reach s.ancestorRefs (atOrBelow e) b.ancestors.toFinset c.reference := by
  obtain ⟨L, hL, -, hmem⟩ := (hD.historyStored (e := e) hb).ancestorsAtRound_spec
  refine ⟨L, hL, fun c => ?_⟩
  rw [hmem, hD.getBlock_eq_some_iff]
  constructor
  · rintro ⟨hround, hreach, hc, -⟩
    exact ⟨hc, hround, hreach⟩
  · rintro ⟨hc, hround, hreach⟩
    exact ⟨hround, hreach, hc, rfl⟩

/-- **`ancestors_at_round` returns the history of a block at a round.** For
every block whose history is stored down to the round, the traversal pops
the largest pending reference and pushes only lower rounds, so it finishes
within its fuel with exactly the reached references at or below the round;
the call then returns, each once, the blocks of the round reachable from the
block through the ancestor links of blocks above the round. -/
theorem ancestorsAtRound_returns_round_history (s : DagState) (laterBlock : Block)
    (earlierRound : ℕ) (h : HistoryStored s laterBlock earlierRound) :
    (∃ W, Worklist.drain s.ancestorRefs (atOrBelow earlierRound) (s.blocks.length + 1)
        laterBlock.ancestors.toFinset = some W ∧
      ∀ x, x ∈ W ↔ Worklist.Reach s.ancestorRefs (atOrBelow earlierRound)
        laterBlock.ancestors.toFinset x ∧ x.round ≤ earlierRound) ∧
    ∃ L, s.ancestorsAtRound laterBlock earlierRound = some L ∧ L.Nodup ∧
      ∀ c, c ∈ L ↔ c.round = earlierRound ∧
        Worklist.Reach s.ancestorRefs (atOrBelow earlierRound) laterBlock.ancestors.toFinset
          c.reference ∧
        s.getBlock c.reference = some c := by
  obtain ⟨W, hW, hmemW⟩ := h.drain
  obtain ⟨L, hL, hnodup, hmem⟩ := h.ancestorsAtRound_spec
  refine ⟨⟨W, hW, fun x => ?_⟩, L, hL, hnodup.of_map _, hmem⟩
  rw [hmemW x]
  simp only [atOrBelow, decide_eq_true_eq]

/-- A block at round three over a full DAG of two authorities: its history at
round one is reached through both round-two parents and holds both round-one
blocks, once each. -/
theorem ancestorsAtRound_through_two_rounds :
    let context : Context := ⟨0, 0, ⟨0, [⟨1⟩, ⟨1⟩], 2, 2, 2, 1⟩, ⟨0, some 1, 0, 1, 1, false, 4, 2, 8⟩⟩
    let g : List Block := [⟨0, 0, 0, 0, [], [], 0⟩, ⟨0, 0, 1, 0, [], [], 0⟩]
    let a₁ : Block := ⟨0, 1, 0, 0, g.map Block.reference, [], 1⟩
    let b₁ : Block := ⟨0, 1, 1, 0, g.map Block.reference, [], 2⟩
    let a₂ : Block := ⟨0, 2, 0, 0, [a₁.reference, b₁.reference], [], 3⟩
    let b₂ : Block := ⟨0, 2, 1, 0, [a₁.reference, b₁.reference], [], 4⟩
    let laterBlock : Block := ⟨0, 3, 0, 0, [a₂.reference, b₂.reference], [], 5⟩
    let s : DagState := ⟨context, g,
      [a₁, b₁, a₂, b₂, laterBlock].map fun b => ⟨b, ∅, .new, false⟩, [], 3, none⟩
    HistoryStored s laterBlock 1 ∧
      ∃ L, s.ancestorsAtRound laterBlock 1 = some L ∧ L.Nodup ∧ a₁ ∈ L ∧ b₁ ∈ L := by
  intro context g a₁ b₁ a₂ b₂ laterBlock s
  have hD : CausalDag s :=
    ⟨by decide, by decide, by decide, by decide, by decide, by decide, by decide⟩
  have h : HistoryStored s laterBlock 1 := hD.historyStored (by decide)
  obtain ⟨-, L, hL, hnodup, hmem⟩ := ancestorsAtRound_returns_round_history s laterBlock 1 h
  -- both round-one blocks are reached through the round-two block of authority 0
  have hnext : s.ancestorRefs a₂.reference = some [a₁.reference, b₁.reference].toFinset := by
    decide
  have hreach : ∀ c ∈ [a₁, b₁], c ∈ L := by
    intro c hc
    simp only [List.mem_cons, List.not_mem_nil, or_false] at hc
    rcases hc with rfl | rfl <;>
      exact (hmem _).mpr ⟨rfl, .step (.base (by decide)) (by decide) hnext (by decide), by decide⟩
  exact ⟨h, L, hL, hnodup, hreach a₁ (by simp), hreach b₁ (by simp)⟩

/-- A history stored only above the round is not enough: the only ancestor of
a block at round two lies at round one and is missing, so nothing above round
one is missing, yet `ancestors_at_round` at round one panics on the missing
block. -/
theorem ancestorsAtRound_panics_below_stored_history :
    let context : Context := ⟨0, 0, ⟨0, [⟨1⟩], 1, 1, 1, 1⟩, ⟨0, some 1, 0, 1, 1, false, 4, 2, 8⟩⟩
    let laterBlock : Block := ⟨0, 2, 0, 0, [⟨1, 0, 1⟩], [], 2⟩
    let s : DagState := ⟨context, [], [], [], 0, none⟩
    (∀ x, Worklist.Reach s.ancestorRefs (atOrBelow 1) laterBlock.ancestors.toFinset x →
      1 < x.round → ∃ c, s.getBlock x = some c) ∧
    s.ancestorsAtRound laterBlock 1 = none := by
  intro context laterBlock s
  have hstop : ∀ a ∈ laterBlock.ancestors.toFinset, atOrBelow 1 a = true := by decide
  constructor
  · -- nothing is reached above round one
    intro x hx hround
    have hx' : x = ⟨1, 0, 1⟩ := by
      simpa [laterBlock] using Worklist.Reach.mem_of_forall_stop hstop hx
    rw [hx'] at hround
    exact absurd hround (by decide)
  · -- the traversal stops at once on the round-one reference, whose block is missing
    have hset : laterBlock.ancestors.toFinset = {⟨1, 0, 1⟩} := rfl
    have hW : Worklist.drain s.ancestorRefs (atOrBelow 1) (s.blocks.length + 1)
        laterBlock.ancestors.toFinset = some {⟨1, 0, 1⟩} := by
      rw [hset, Worklist.drain_of_max_eq Finset.max_singleton, if_pos (by decide)]
    rw [ancestorsAtRound_of_drain hW, Finset.filter_singleton, if_pos (by decide),
      Finset.sort_singleton]
    rfl

/-- A later view reaches the same references from a block of the earlier
one: the lookups agree on everything reached. -/
theorem Extends.reach_iff {s' : DagState} (he : Extends s s') (hD : CausalDag s)
    (hD' : CausalDag s') {b : Block} (hb : b ∈ s.blocks) (r : BlockRef) :
    Worklist.Reach s'.ancestorRefs (atOrBelow e) b.ancestors.toFinset r ↔
      Worklist.Reach s.ancestorRefs (atOrBelow e) b.ancestors.toFinset r := by
  refine (Worklist.Reach.congr fun a ha _ => ?_).symm
  obtain ⟨c, hc, rfl, -⟩ := hD.reach_block hb ha
  rw [ancestorRefs, ancestorRefs, hD.getBlock_reference hc,
    he.getBlock_eq hD hD' (hD.getBlock_reference hc)]

/-- **Quorum in every history.** Every block above a round reaches, through
its ancestors, blocks of that round whose authors carry a quorum: each block
has a quorum of parents one round down, and one of them carries the argument
further down. -/
theorem CausalDag.exists_quorum_at_round (hD : CausalDag s)
    (hq : 0 < s.context.committee.quorumThreshold) :
    ∀ (k : ℕ) (b : Block), b ∈ s.blocks → b.round = k → e < k →
      ∃ S : Finset ℕ, s.context.committee.quorumThreshold ≤ s.context.committee.weight S ∧
        ∀ x ∈ S, ∃ c ∈ s.blocks, c.author = x ∧ c.round = e ∧
          Worklist.Reach s.ancestorRefs (atOrBelow e) b.ancestors.toFinset c.reference := by
  intro k
  induction k using Nat.strong_induction_on with
  | _ k ih =>
    intro b hb hbk hek
    have hrecent : b ∈ s.recentBlocks.map (·.block) :=
      (mem_recent_iff_of_round_ne hD (by rw [genesisRound]; omega)).mpr hb
    obtain ⟨i, hi, rfl⟩ := List.mem_map.mp hrecent
    have hquorum := hD.parent_quorum i hi
    -- a parent of `b`: an ancestor one round down, and its block
    have hparent : ∀ x ∈ i.block.parentAuthors, ∃ c ∈ s.blocks, c.author = x ∧
        c.round = k - 1 ∧ c.reference ∈ i.block.ancestors := by
      intro x hx
      obtain ⟨a, ha, hround, rfl⟩ := Block.mem_parentAuthors.mp hx
      obtain ⟨c, hc, rfl⟩ := hD.closed _ hb a ha
      exact ⟨c, hc, rfl, by rw [← hbk]; simpa using hround, ha⟩
    rcases Nat.lt_or_ge e (k - 1) with hlt | hge
    · -- go down through one parent
      obtain ⟨x, hx⟩ : i.block.parentAuthors.Nonempty := by
        rw [Finset.nonempty_iff_ne_empty]
        rintro hempty
        rw [hempty, Committee.weight, Quorum.weight_empty] at hquorum
        omega
      obtain ⟨c, hc, -, hcround, hcmem⟩ := hparent x hx
      obtain ⟨S, hS, hSmem⟩ := ih (k - 1) (by omega) c hc hcround hlt
      refine ⟨S, hS, fun y hy => ?_⟩
      obtain ⟨d, hd, hdy, hdround, hdreach⟩ := hSmem y hy
      refine ⟨d, hd, hdy, hdround, Worklist.Reach.trans (fun z hz => ?_) hdreach⟩
      refine .step (.base (List.mem_toFinset.mpr hcmem)) ?_ ?_ hz
      · exact decide_eq_false (by rw [Block.reference_round]; omega)
      · rw [ancestorRefs, hD.getBlock_reference hc, Option.map_some]
    · -- the parents themselves are at the round
      refine ⟨i.block.parentAuthors, hquorum, fun x hx => ?_⟩
      obtain ⟨c, hc, hcx, hcround, hcmem⟩ := hparent x hx
      exact ⟨c, hc, hcx, by omega, .base (List.mem_toFinset.mpr hcmem)⟩

end History

/-! ## Verified blocks form a causal DAG -/

end DagState

end Sui
