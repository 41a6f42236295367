import Sui.Consensus.StakeAggregator
import Sui.Consensus.Block

/-!
# The threshold clock (`threshold_clock.rs`)

The threshold clock tracks the round a validator proposes in. It advances
past round `r` once it has seen blocks of round `r` from a quorum of
authorities, and jumps ahead when it sees a block of a later round (whose
author must itself have seen a quorum of the round before).

`add_block` has three branches, on how the block's round compares with the
clock's:

* **older** — ignored;
* **same** — the author is counted; on a quorum the aggregator is cleared and
  the clock moves to the next round;
* **newer** — the aggregator is cleared and seeded with the author; the clock
  moves to the block's round, or past it if that single author is already a
  quorum.

In the last case the seed vote stays in the aggregator although it belongs to
the round the clock has just left: unlike the same-round branch, the
catch-up branch does not clear after completing a quorum. Everything else the clock is meant to
maintain holds for every run, and the vote-set invariant holds for every run
in which that branch cannot fire, i.e. whenever no single authority holds a
quorum (`runSince_invariant`).
-/

namespace Sui

/-- `ThresholdClock`; the quorum timestamp, used only for metrics and
proposal timing, is not modelled. -/
structure ThresholdClock where
  /-- authors of blocks seen at the current round -/
  aggregator : StakeAggregator .quorumThreshold
  /-- the current round -/
  round : ℕ

namespace ThresholdClock

/-- `ThresholdClock::new`. -/
def new (round : ℕ) : ThresholdClock := ⟨.new, round⟩

/-- `ThresholdClock::add_block`: returns the new clock and whether the round
advanced. -/
def addBlock (committee : Committee) (clock : ThresholdClock) (block : BlockRef) :
    ThresholdClock × Bool :=
  match compare block.round clock.round with
  -- Blocks with round less then what we currently build are irrelevant here
  | .lt => (clock, false)
  | .eq =>
    let (aggregator, reached) := clock.aggregator.add block.author committee
    if reached then
      -- We have seen 2f+1 blocks for current round, advance
      (⟨aggregator.clear, block.round + 1⟩, true)
    else (⟨aggregator, clock.round⟩, false)
  -- If we processed block for round r, we also have stored 2f+1 blocks from r-1
  | .gt =>
    let (aggregator, reached) := clock.aggregator.clear.add block.author committee
    if reached then
      -- Even though this is the first block of the round, there is still a quorum at block.round.
      (⟨aggregator, block.round + 1⟩, true)
    else
      -- There is a quorum at block.round - 1 but not block.round.
      (⟨aggregator, block.round⟩, true)

variable {c : Committee} {clock : ThresholdClock} {b : BlockRef}

/-! ## One call, branch by branch -/

theorem addBlock_of_lt (clock : ThresholdClock) (h : b.round < clock.round) : clock.addBlock c b = (clock, false) := by
  simp [addBlock, Nat.compare_eq_lt.mpr h]

theorem addBlock_of_eq (clock : ThresholdClock) (h : b.round = clock.round) :
    clock.addBlock c b =
      if (clock.aggregator.add b.author c).2 then
        (⟨(clock.aggregator.insertVote b.author c).clear, b.round + 1⟩, true)
      else (⟨clock.aggregator.insertVote b.author c, clock.round⟩, false) := by
  simp [addBlock, Nat.compare_eq_eq.mpr h]

theorem addBlock_of_gt (clock : ThresholdClock) (h : clock.round < b.round) :
    clock.addBlock c b =
      if (clock.aggregator.clear.add b.author c).2 then
        (⟨clock.aggregator.clear.insertVote b.author c, b.round + 1⟩, true)
      else (⟨clock.aggregator.clear.insertVote b.author c, b.round⟩, true) := by
  simp [addBlock, Nat.compare_eq_gt.mpr h]

/-- The round never decreases, and `add_block` reports exactly the calls that
move it. -/
theorem addBlock_round_spec :
    clock.round ≤ (clock.addBlock c b).1.round ∧
      ((clock.addBlock c b).2 = true ↔ clock.round < (clock.addBlock c b).1.round) := by
  rcases lt_trichotomy b.round clock.round with hlt | heq | hgt
  · simp [addBlock_of_lt _ hlt]
  · rw [addBlock_of_eq _ heq]
    split
    · dsimp only
      simp only [true_iff]
      omega
    · simp
  · rw [addBlock_of_gt _ hgt]
    split
    all_goals
      dsimp only
      simp only [true_iff]
      omega

/-- The aggregator always counts stake correctly. -/
theorem counts_addBlock (h : clock.aggregator.Counts c) :
    (clock.addBlock c b).1.aggregator.Counts c := by
  rcases lt_trichotomy b.round clock.round with hlt | heq | hgt
  · simpa [addBlock_of_lt _ hlt] using h
  · rw [addBlock_of_eq _ heq]
    split
    · exact (clock.aggregator.insertVote b.author c).counts_clear
    · exact h.insertVote
  · rw [addBlock_of_gt _ hgt]
    split <;> exact clock.aggregator.counts_clear.insertVote

/-! ## The vote-set invariant over a run

The invariant speaks about the blocks added since the clock moved to its
current round. That history is ghost state: `sinceStep` runs `add_block` and
keeps, next to the clock, the blocks added since the last change of round —
restarting from the block that caused the change when that block is at the
new round (a catch-up that stops at the block's round). -/

/-- One call of `add_block` with its ghost history. -/
def sinceStep (c : Committee) (st : ThresholdClock × List BlockRef) (b : BlockRef) :
    ThresholdClock × List BlockRef :=
  let clock' := (st.1.addBlock c b).1
  (clock', if clock'.round = st.1.round then st.2 ++ [b]
    else if b.round = clock'.round then [b] else [])

/-- A run of `add_block` calls with its ghost history. -/
def runSince (c : Committee) (st : ThresholdClock × List BlockRef) (bs : List BlockRef) :
    ThresholdClock × List BlockRef :=
  bs.foldl (sinceStep c) st

/-- The distinct authors of the blocks of round `r` in a history. -/
def authorsAt (r : ℕ) (since : List BlockRef) : Finset ℕ :=
  ((since.filter (·.round = r)).map (·.author)).toFinset

/-- The clock's aggregator holds exactly the authors of the blocks of its
round added since it reached that round, and counts their stake. -/
def VotesInvariant (c : Committee) (st : ThresholdClock × List BlockRef) : Prop :=
  st.1.aggregator.votes = authorsAt st.1.round st.2 ∧ st.1.aggregator.Counts c

@[simp] theorem authorsAt_nil (r : ℕ) : authorsAt r [] = ∅ := rfl

theorem authorsAt_append_of_ne {r : ℕ} {since : List BlockRef} (h : b.round ≠ r) :
    authorsAt r (since ++ [b]) = authorsAt r since := by
  simp [authorsAt, List.filter_append, h]

theorem authorsAt_append_of_eq {r : ℕ} {since : List BlockRef} (h : b.round = r) :
    authorsAt r (since ++ [b]) = insert b.author (authorsAt r since) := by
  simp only [authorsAt, List.filter_append, List.map_append, List.toFinset_append]
  rw [Finset.union_comm, Finset.insert_eq]
  simp [h]

theorem votesInvariant_new (r : ℕ) : VotesInvariant c (new r, []) :=
  ⟨rfl, StakeAggregator.counts_new⟩

/-- A catch-up block completes a quorum only if its author alone is one. -/
theorem catchUp_add_snd (agg : StakeAggregator .quorumThreshold)
    (h : c.stake b.author < c.quorumThreshold) : (agg.clear.add b.author c).2 = false := by
  have hcounts : agg.clear.Counts c := agg.counts_clear
  have hw : c.weight {b.author} = c.stake b.author := by
    simp [Committee.weight, Quorum.weight]
  cases hreach : (agg.clear.add b.author c).2
  · rfl
  · rw [hcounts.add_snd, StakeAggregator.clear_votes, insert_empty_eq, hw] at hreach
    exact absurd hreach (Nat.not_le_of_lt h)

/-- **Step lemma.** When the catch-up branch cannot complete a quorum on its
own, one call keeps the vote-set invariant. -/
theorem VotesInvariant.sinceStep {st : ThresholdClock × List BlockRef}
    (hinv : VotesInvariant c st) (hsingle : c.stake b.author < c.quorumThreshold) :
    VotesInvariant c (sinceStep c st b) := by
  obtain ⟨⟨agg, r⟩, since⟩ := st
  obtain ⟨hvotes, hcounts⟩ := hinv
  simp only at hvotes hcounts
  refine ⟨?_, counts_addBlock hcounts⟩
  rcases lt_trichotomy b.round r with hlt | heq | hgt
  · -- an older block changes nothing but the history, where it is not counted
    simp [ThresholdClock.sinceStep, addBlock_of_lt ⟨agg, r⟩ hlt,
      authorsAt_append_of_ne (Nat.ne_of_lt hlt), hvotes]
  · rw [ThresholdClock.sinceStep]
    simp only [addBlock_of_eq ⟨agg, r⟩ heq]
    split
    · -- the quorum moves the clock on and empties the aggregator
      simp [heq]
    · simp [authorsAt_append_of_eq heq, hvotes]
  · -- a catch-up stops at the block's round: the block alone is counted
    rw [ThresholdClock.sinceStep]
    simp only [addBlock_of_gt ⟨agg, r⟩ hgt, catchUp_add_snd agg hsingle]
    simp [Nat.ne_of_gt hgt, authorsAt]

/-- **Run lemma.** From a fresh clock, as long as no single authority holds a
quorum, the aggregator holds exactly the authors of the blocks of the clock's
round added since the clock reached it. -/
theorem runSince_invariant (hsingle : ∀ a, c.stake a < c.quorumThreshold)
    (r : ℕ) (bs : List BlockRef) : VotesInvariant c (runSince c (new r, []) bs) := by
  unfold runSince
  generalize hst : ((new r, []) : ThresholdClock × List BlockRef) = st
  have h0 : VotesInvariant c st := hst ▸ votesInvariant_new r
  clear hst
  induction bs generalizing st with
  | nil => exact h0
  | cons b bs ih => exact ih _ (h0.sinceStep (hsingle b.author))

/-- Under the invariant, a same-round block advances the clock only when the
distinct authors of the round's blocks, that block included, reach a quorum. -/
theorem VotesInvariant.advance_of_eq {st : ThresholdClock × List BlockRef}
    (hinv : VotesInvariant c st) (heq : b.round = st.1.round)
    (hadv : (st.1.addBlock c b).2 = true) :
    c.quorumThreshold ≤ c.weight (authorsAt st.1.round (st.2 ++ [b])) := by
  obtain ⟨hvotes, hcounts⟩ := hinv
  rw [addBlock_of_eq _ heq] at hadv
  split at hadv
  · rename_i hreach
    rw [hcounts.add_snd, hvotes] at hreach
    rwa [authorsAt_append_of_eq heq]
  · cases hadv

/-! ## What the clock maintains -/

end ThresholdClock

end Sui
