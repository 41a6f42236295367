import Mathlib.Data.List.GetD
import Sui.WeightedScan
import Sui.OptionList
import Sui.Consensus.Block
import Sui.Consensus.Context

/-!
# Quorum rounds (`round_tracker.rs`)

Every authority reports, for every authority, the highest round it has
received and accepted from it. `RoundTracker` keeps those reports as square
matrices, a row per reporting authority, fed by the round prober and by
verified blocks, whose ancestors show what their author has accepted. For a
target authority, `compute_quorum_round` reads the column of the target and
returns a round range: `low`, the highest round that a quorum of stake has
reached, and `high`, the lowest round that a quorum of stake has not passed.
The network's high quorum round of `ancestor.rs` is the same forward scan
over the authorities' `high` rounds.

The two loops of `compute_quorum_round` scan the reports sorted by round, in
opposite directions, for the first point where the stake seen reaches the
quorum: `WeightedScan.firstReach` on the sorted list and on its reverse.

* **`computeQuorumRound_spec`** — on a report per authority, `low` is the
  greatest round with a quorum at or above it and `high` the least with a
  quorum at or below it; since a quorum is a strict majority of the total,
  `low ≤ high`.
* **`calculateNetworkHighQuorumRound_spec`** — the least round with a quorum
  of high quorum rounds at or below it.
* **`run_shaped`**, **`calculatePropagationDelay_isSome`** — from `new`, the
  tracker's matrices stay square under any updates from verified blocks of
  the committee and well-formed probes, so computing the propagation delay
  never fails: no index is out of range and no `high - low` underflows.

**Proof shape.** The scan lemmas of `WeightedScan` do the work: the reports
sorted lexicographically are sorted by round, and their weights are those of
the unsorted reports. The matrices' shape is an invariant of each update,
carried through the fold over a block's ancestors by induction.
-/

namespace Sui

open WeightedScan

/-- `v[j] = max(v[j], round)`; `none` is the panic on an index out of range. -/
def raiseEntry (v : List ℕ) (j round : ℕ) : Option (List ℕ) :=
  v[j]?.map fun r => v.set j (max r round)

/-- `rows[i][j] = max(rows[i][j], round)` on a matrix. -/
def raiseMatrixEntry (rows : List (List ℕ)) (i j round : ℕ) : Option (List (List ℕ)) := do
  let row ← rows[i]?
  let row ← raiseEntry row j round
  pure (rows.set i row)

/-- The reports of the target's round, each with the stake of the authority
that reported it: `rounds_with_stake` before it is sorted; `none` is the
panic on a row without the target. -/
def roundsWithStake (committee : Committee) (targetIndex : ℕ) (highestRounds : List (List ℕ)) :
    Option (List (ℕ × ℕ)) :=
  (highestRounds.zip committee.authorities).mapM fun (rounds, authority) =>
    rounds[targetIndex]?.map fun round => (round, authority.stake)

/-- `compute_quorum_round`: sort the reports by round and stake, then scan
them from the top for `low` and from the bottom for `high`, each the round
at which the stake seen first reaches the quorum, or zero. -/
def computeQuorumRound (committee : Committee) (targetIndex : ℕ) (highestRounds : List (List ℕ)) :
    Option (ℕ × ℕ) := do
  let roundsWithStake ← roundsWithStake committee targetIndex highestRounds
  let roundsWithStake := roundsWithStake.insertionSort fun a b => toLex a ≤ toLex b
  let low := (firstReach committee.quorumThreshold roundsWithStake.reverse 0).getD 0
  let high := (firstReach committee.quorumThreshold roundsWithStake 0).getD 0
  pure (low, high)

/-- `AncestorStateManager::calculate_network_high_quorum_round`: the forward
scan of `compute_quorum_round` over the authorities' high quorum rounds. -/
def calculateNetworkHighQuorumRound (committee : Committee) (acceptedQuorumRounds : List (ℕ × ℕ)) :
    ℕ :=
  let highQuorumRoundsWithStake := (acceptedQuorumRounds.zip committee.authorities).map
    fun (quorumRound, authority) => (quorumRound.2, authority.stake)
  let highQuorumRoundsWithStake :=
    highQuorumRoundsWithStake.insertionSort fun a b => toLex a ≤ toLex b
  (firstReach committee.quorumThreshold highQuorumRoundsWithStake 0).getD 0

/-- A square matrix of side `n`: a row per authority, each with an entry per
authority. -/
def SquareMatrix (n : ℕ) (rows : List (List ℕ)) : Prop :=
  rows.length = n ∧ ∀ row ∈ rows, row.length = n

/-- `RoundTracker`. -/
structure RoundTracker where
  /-- the per-epoch context -/
  context : Context
  /-- highest accepted round per authority, seen in the blocks of each author -/
  blockAcceptedRounds : List (List ℕ)
  /-- highest accepted round per authority, from the round prober -/
  probedAcceptedRounds : List (List ℕ)
  /-- highest received round per authority, from the round prober -/
  probedReceivedRounds : List (List ℕ)
  /-- highest received round per authority, tracked locally -/
  localHighestReceivedRounds : List ℕ
  deriving DecidableEq, Repr

namespace RoundTracker

/-- `RoundTracker::new`; `none` is the failed assertion on the size of the
initial received rounds. -/
def new (context : Context) (initialReceivedRounds : List ℕ) : Option RoundTracker :=
  let size := context.committee.size
  let localHighestReceivedRounds :=
    if initialReceivedRounds.isEmpty then some (List.replicate size 0)
    else if initialReceivedRounds.length = size then some initialReceivedRounds
    else none
  localHighestReceivedRounds.map fun localHighestReceivedRounds =>
    { context
      blockAcceptedRounds := List.replicate size (List.replicate size 0)
      probedAcceptedRounds := List.replicate size (List.replicate size 0)
      probedReceivedRounds := List.replicate size (List.replicate size 0)
      localHighestReceivedRounds }

/-- `update_from_verified_block`: the block's author has received the block
and accepted its round, and has accepted the rounds of its ancestors and of
the ancestors it excluded. -/
def updateFromVerifiedBlock (t : RoundTracker) (block : Block) (excludedAncestors : List BlockRef) :
    Option RoundTracker := do
  let author := block.author
  let localHighestReceivedRounds ← raiseEntry t.localHighestReceivedRounds author block.round
  let blockAcceptedRounds ← raiseMatrixEntry t.blockAcceptedRounds author author block.round
  let blockAcceptedRounds ← block.ancestors.foldlM
    (fun rows ancestor => raiseMatrixEntry rows author ancestor.author ancestor.round)
    blockAcceptedRounds
  let blockAcceptedRounds ← excludedAncestors.foldlM
    (fun rows excludedAncestor =>
      raiseMatrixEntry rows author excludedAncestor.author excludedAncestor.round)
    blockAcceptedRounds
  pure { t with localHighestReceivedRounds, blockAcceptedRounds }

/-- `update_from_probe`. -/
def updateFromProbe (t : RoundTracker) (acceptedRounds receivedRounds : List (List ℕ)) :
    RoundTracker :=
  { t with probedAcceptedRounds := acceptedRounds, probedReceivedRounds := receivedRounds }

/-- `compute_accepted_quorum_rounds`: per authority, the quorum round of the
higher of the probed and the block-derived accepted rounds. -/
def computeAcceptedQuorumRounds (t : RoundTracker) : Option (List (ℕ × ℕ)) :=
  let highestAcceptedRounds := (t.probedAcceptedRounds.zip t.blockAcceptedRounds).map
    fun (probedRounds, blockRounds) =>
      (probedRounds.zip blockRounds).map fun (probedRound, blockRound) => max probedRound blockRound
  (List.range t.context.committee.size).mapM fun peer =>
    computeQuorumRound t.context.committee peer highestAcceptedRounds

/-- `compute_received_quorum_rounds`. -/
def computeReceivedQuorumRounds (t : RoundTracker) : Option (List (ℕ × ℕ)) :=
  (List.range t.context.committee.size).mapM fun peer =>
    computeQuorumRound t.context.committee peer t.probedReceivedRounds

/-- The gaps `high - low` the metrics record for each authority; the
subtraction is on `u32`, and `none` is an underflow. -/
def quorumRoundGaps (quorumRounds : List (ℕ × ℕ)) : Option (List ℕ) :=
  quorumRounds.mapM fun (low, high) => if low ≤ high then some (high - low) else none

/-- `calculate_propagation_delay`: how far the own last proposed round is
ahead of the low received and accepted quorum rounds of the own authority,
the smaller of the two, after recording the gaps of every authority. -/
def calculatePropagationDelay (t : RoundTracker) (lastProposedRound : ℕ) : Option ℕ := do
  let ownIndex := t.context.ownIndex
  let receivedQuorumRounds ← t.computeReceivedQuorumRounds
  let acceptedQuorumRounds ← t.computeAcceptedQuorumRounds
  let _ ← quorumRoundGaps receivedQuorumRounds
  let _ ← quorumRoundGaps acceptedQuorumRounds
  let received ← receivedQuorumRounds[ownIndex]?
  let accepted ← acceptedQuorumRounds[ownIndex]?
  pure (min (lastProposedRound - received.1) (lastProposedRound - accepted.1))

/-! ## Quorum rounds from a report per authority -/

section QuorumRound

variable {committee : Committee}

/-- The reports, paired with the authorities' stakes, weigh the total stake. -/
theorem sum_stake_zip {β : Type} (hc : committee.MajorityQuorum) {l : List β}
    (hlen : l.length = committee.size) (f : β → ℕ) :
    (((l.zip committee.authorities).map fun e => (f e.1, e.2.stake)).map Prod.snd).sum =
      committee.totalStake := by
  have hstakes : ((l.zip committee.authorities).map fun e => (f e.1, e.2.stake)).map Prod.snd =
      committee.authorities.map Authority.stake := by
    rw [List.map_map,
      show (Prod.snd ∘ fun e : β × Authority => (f e.1, e.2.stake)) = Authority.stake ∘ Prod.snd
        from rfl,
      ← List.map_map, List.map_snd_zip (by rw [hlen]; rfl)]
  rw [hstakes, hc.total_eq]
  rfl

/-- With every row holding the target, the reports are the target's column
paired with the stakes. -/
theorem roundsWithStake_eq {targetIndex : ℕ} {highestRounds : List (List ℕ)}
    (htarget : ∀ rounds ∈ highestRounds, targetIndex < rounds.length) :
    roundsWithStake committee targetIndex highestRounds =
      some ((highestRounds.zip committee.authorities).map
        fun e => (e.1.getD targetIndex 0, e.2.stake)) := by
  apply OptionList.mapM_eq_some_map
  rintro ⟨rounds, authority⟩ he
  have hlt := htarget rounds (List.of_mem_zip he).1
  simp [List.getElem?_eq_getElem hlt]

/-- **`compute_quorum_round` on a report per authority**: `low` is the
greatest round with a quorum of stake reporting it or more, `high` the least
with a quorum reporting it or less, and `low ≤ high`. -/
theorem computeQuorumRound_spec (hc : committee.MajorityQuorum) {targetIndex : ℕ}
    {highestRounds : List (List ℕ)} (hrows : highestRounds.length = committee.size)
    (htarget : ∀ rounds ∈ highestRounds, targetIndex < rounds.length) :
    let reports := (highestRounds.zip committee.authorities).map
      fun e => (e.1.getD targetIndex 0, e.2.stake)
    ∃ low high, computeQuorumRound committee targetIndex highestRounds = some (low, high) ∧
      IsGreatest {r | committee.quorumThreshold ≤ weight (fun x => decide (r ≤ x)) reports} low ∧
      IsLeast {r | committee.quorumThreshold ≤ weight (fun x => decide (x ≤ r)) reports} high ∧
      low ≤ high := by
  intro reports
  have htotal : (reports.map Prod.snd).sum = committee.totalStake :=
    sum_stake_zip hc hrows fun rounds => rounds.getD targetIndex 0
  have hreach : committee.quorumThreshold ≤ (reports.map Prod.snd).sum := by
    rw [htotal]
    exact hc.quorum_le_total
  obtain ⟨low, hlow, hgreatest⟩ := isGreatest_firstReach_reverse_sortLex hc.quorum_pos hreach
  obtain ⟨high, hhigh, hleast⟩ := isLeast_firstReach_sortLex hc.quorum_pos hreach
  refine ⟨low, high, ?_, hgreatest, hleast, ?_⟩
  · simp only [computeQuorumRound, roundsWithStake_eq htarget, Option.bind_eq_bind,
      Option.bind_some]
    rw [hlow, hhigh]
    rfl
  · -- a quorum at or above `low` and one at or below `high` would be disjoint otherwise
    exact le_of_two_mul_gt (by rw [htotal]; exact hc.total_lt_two_mul_quorum) hgreatest.1 hleast.1

/-- **The network's high quorum round** is the least round at or below which
the high quorum rounds of a quorum of stake lie. -/
theorem calculateNetworkHighQuorumRound_spec (hc : committee.MajorityQuorum)
    {acceptedQuorumRounds : List (ℕ × ℕ)} (hlen : acceptedQuorumRounds.length = committee.size) :
    IsLeast {r | committee.quorumThreshold ≤ weight (fun x => decide (x ≤ r))
        ((acceptedQuorumRounds.zip committee.authorities).map fun e => (e.1.2, e.2.stake))}
      (calculateNetworkHighQuorumRound committee acceptedQuorumRounds) := by
  have hreach : committee.quorumThreshold ≤
      (((acceptedQuorumRounds.zip committee.authorities).map
        fun e => (e.1.2, e.2.stake)).map Prod.snd).sum := by
    rw [sum_stake_zip hc hlen]
    exact hc.quorum_le_total
  obtain ⟨high, hhigh, hleast⟩ := isLeast_firstReach_sortLex hc.quorum_pos hreach
  have heq : calculateNetworkHighQuorumRound committee acceptedQuorumRounds = high := by
    simp only [calculateNetworkHighQuorumRound]
    rw [hhigh]
    rfl
  rw [heq]
  exact hleast

end QuorumRound

/-! ## The shape of the tracker -/

section Shape

variable {n : ℕ}

theorem raiseEntry_length {v v' : List ℕ} {j round : ℕ} (h : raiseEntry v j round = some v') :
    v'.length = v.length := by
  unfold raiseEntry at h
  obtain ⟨r, -, rfl⟩ := Option.map_eq_some_iff.mp h
  exact List.length_set

theorem raiseEntry_isSome {v : List ℕ} {j : ℕ} (hj : j < v.length) (round : ℕ) :
    ∃ v', raiseEntry v j round = some v' := by
  simp [raiseEntry, List.getElem?_eq_getElem hj]

/-- Raising an entry inside the square keeps it square. -/
theorem raiseMatrixEntry_square {rows : List (List ℕ)} (hrows : SquareMatrix n rows) {i j : ℕ}
    (hi : i < n) (hj : j < n) (round : ℕ) :
    ∃ rows', raiseMatrixEntry rows i j round = some rows' ∧ SquareMatrix n rows' := by
  have hi' : i < rows.length := hrows.1 ▸ hi
  have hrow : rows[i].length = n := hrows.2 rows[i] (List.getElem_mem hi')
  obtain ⟨row', hrow'⟩ := raiseEntry_isSome (v := rows[i]) (j := j) (by omega) round
  refine ⟨rows.set i row', by simp [raiseMatrixEntry, List.getElem?_eq_getElem hi', hrow'],
    by rw [List.length_set]; exact hrows.1, fun row hmem => ?_⟩
  rcases List.mem_or_eq_of_mem_set hmem with h | rfl
  · exact hrows.2 row h
  · rw [raiseEntry_length hrow', hrow]

/-- Raising entries of one row, for a list of columns inside the square,
keeps it square. -/
theorem foldlM_raiseMatrixEntry_square {α : Type} {i : ℕ} (hi : i < n) (column round : α → ℕ) :
    ∀ (l : List α) {rows : List (List ℕ)}, SquareMatrix n rows → (∀ a ∈ l, column a < n) →
      ∃ rows', l.foldlM (fun rows a => raiseMatrixEntry rows i (column a) (round a)) rows =
        some rows' ∧ SquareMatrix n rows'
  | [], rows, hrows, _ => ⟨rows, rfl, hrows⟩
  | a :: l, rows, hrows, hl => by
    obtain ⟨rows₁, h₁, hsq₁⟩ := raiseMatrixEntry_square hrows hi (hl a List.mem_cons_self) (round a)
    obtain ⟨rows₂, h₂, hsq₂⟩ := foldlM_raiseMatrixEntry_square hi column round l hsq₁
      fun b hb => hl b (List.mem_cons_of_mem _ hb)
    exact ⟨rows₂, by rw [List.foldlM_cons, h₁]; exact h₂, hsq₂⟩

theorem squareMatrix_replicate : SquareMatrix n (List.replicate n (List.replicate n 0)) :=
  ⟨List.length_replicate, fun row hrow => by rw [List.eq_of_mem_replicate hrow, List.length_replicate]⟩

/-- The higher of two square matrices, entry by entry, is square. -/
theorem squareMatrix_max {P B : List (List ℕ)} (hP : SquareMatrix n P) (hB : SquareMatrix n B) :
    SquareMatrix n ((P.zip B).map fun (probedRounds, blockRounds) =>
      (probedRounds.zip blockRounds).map fun (probedRound, blockRound) => max probedRound blockRound) := by
  refine ⟨by rw [List.length_map, List.length_zip, hP.1, hB.1, min_self], fun row hrow => ?_⟩
  obtain ⟨⟨p, b⟩, hpb, rfl⟩ := List.mem_map.mp hrow
  obtain ⟨hp, hb⟩ := List.of_mem_zip hpb
  rw [List.length_map, List.length_zip, hP.2 p hp, hB.2 b hb, min_self]

end Shape

/-- The tracker's matrices are square and its local rounds have an entry per
authority. -/
structure Shaped (t : RoundTracker) : Prop where
  blockAccepted_square : SquareMatrix t.context.committee.size t.blockAcceptedRounds
  probedAccepted_square : SquareMatrix t.context.committee.size t.probedAcceptedRounds
  probedReceived_square : SquareMatrix t.context.committee.size t.probedReceivedRounds
  localReceived_length : t.localHighestReceivedRounds.length = t.context.committee.size

theorem new_shaped {context : Context} {initialReceivedRounds : List ℕ} {t : RoundTracker}
    (h : new context initialReceivedRounds = some t) : t.Shaped ∧ t.context = context := by
  unfold new at h
  dsimp only at h
  split_ifs at h with hempty hlen
  · simp only [Option.map_some, Option.some.injEq] at h
    subst h
    exact ⟨⟨squareMatrix_replicate, squareMatrix_replicate, squareMatrix_replicate,
      List.length_replicate⟩, rfl⟩
  · simp only [Option.map_some, Option.some.injEq] at h
    subst h
    exact ⟨⟨squareMatrix_replicate, squareMatrix_replicate, squareMatrix_replicate, hlen⟩, rfl⟩
  · cases h

/-- A verified block of an authority of the committee, whose ancestors and
excluded ancestors name authorities of the committee, is recorded without
an index out of range, and the matrices stay square. -/
theorem updateFromVerifiedBlock_shaped {t : RoundTracker} (ht : t.Shaped) {block : Block}
    {excludedAncestors : List BlockRef} (hauthor : block.author < t.context.committee.size)
    (hancestors : ∀ a ∈ block.ancestors, a.author < t.context.committee.size)
    (hexcluded : ∀ a ∈ excludedAncestors, a.author < t.context.committee.size) :
    ∃ t', t.updateFromVerifiedBlock block excludedAncestors = some t' ∧ t'.Shaped ∧
      t'.context = t.context := by
  obtain ⟨local', hlocal⟩ := raiseEntry_isSome (v := t.localHighestReceivedRounds)
    (by rw [ht.localReceived_length]; exact hauthor) block.round
  obtain ⟨rows₁, h₁, hsq₁⟩ := raiseMatrixEntry_square ht.blockAccepted_square hauthor hauthor block.round
  obtain ⟨rows₂, h₂, hsq₂⟩ := foldlM_raiseMatrixEntry_square hauthor BlockRef.author BlockRef.round
    block.ancestors hsq₁ hancestors
  obtain ⟨rows₃, h₃, hsq₃⟩ := foldlM_raiseMatrixEntry_square hauthor BlockRef.author BlockRef.round
    excludedAncestors hsq₂ hexcluded
  refine ⟨{ t with localHighestReceivedRounds := local', blockAcceptedRounds := rows₃ }, ?_,
    ⟨hsq₃, ht.probedAccepted_square, ht.probedReceived_square,
      by rw [raiseEntry_length hlocal, ht.localReceived_length]⟩, rfl⟩
  simp only [updateFromVerifiedBlock, hlocal, h₁, Option.bind_eq_bind, Option.bind_some]
  rw [h₂, Option.bind_some, h₃]
  rfl

/-- What drives the tracker: a verified block with the ancestors it excluded,
or the accepted and received rounds of a probe. -/
inductive Event
  | verifiedBlock (block : Block) (excludedAncestors : List BlockRef)
  | probe (acceptedRounds receivedRounds : List (List ℕ))

/-- An event the rest of consensus hands over for a committee of `n`: a
verified block names authorities of the committee, and the prober keeps only
reports of the committee's size, so its matrices are square. -/
def Event.Valid (n : ℕ) : Event → Prop
  | .verifiedBlock block excludedAncestors => block.author < n ∧
      (∀ a ∈ block.ancestors, a.author < n) ∧ ∀ a ∈ excludedAncestors, a.author < n
  | .probe acceptedRounds receivedRounds => SquareMatrix n acceptedRounds ∧ SquareMatrix n receivedRounds

/-- One event. -/
def step (t : RoundTracker) : Event → Option RoundTracker
  | .verifiedBlock block excludedAncestors => t.updateFromVerifiedBlock block excludedAncestors
  | .probe acceptedRounds receivedRounds => some (t.updateFromProbe acceptedRounds receivedRounds)

/-- A sequence of events. -/
def run (t : RoundTracker) (events : List Event) : Option RoundTracker := events.foldlM step t

theorem step_shaped {t : RoundTracker} (ht : t.Shaped) {event : Event}
    (hvalid : event.Valid t.context.committee.size) :
    ∃ t', t.step event = some t' ∧ t'.Shaped ∧ t'.context = t.context := by
  cases event with
  | verifiedBlock block excludedAncestors =>
    obtain ⟨hauthor, hancestors, hexcluded⟩ := hvalid
    exact updateFromVerifiedBlock_shaped ht hauthor hancestors hexcluded
  | probe acceptedRounds receivedRounds =>
    obtain ⟨haccepted, hreceived⟩ := hvalid
    exact ⟨_, rfl, ⟨ht.blockAccepted_square, haccepted, hreceived, ht.localReceived_length⟩, rfl⟩

/-- **Any run of valid events keeps the tracker's shape**, and never fails. -/
theorem run_shaped : ∀ {t : RoundTracker} (events : List Event), t.Shaped →
    (∀ event ∈ events, event.Valid t.context.committee.size) →
    ∃ t', t.run events = some t' ∧ t'.Shaped ∧ t'.context = t.context
  | t, [], ht, _ => ⟨t, rfl, ht, rfl⟩
  | t, event :: events, ht, hvalid => by
    obtain ⟨t₁, h₁, ht₁, hctx₁⟩ := step_shaped ht (hvalid event List.mem_cons_self)
    obtain ⟨t₂, h₂, ht₂, hctx₂⟩ := run_shaped events ht₁
      (fun e he => hctx₁ ▸ hvalid e (List.mem_cons_of_mem _ he))
    exact ⟨t₂, by rw [run, List.foldlM_cons, h₁]; exact h₂, ht₂, hctx₂.trans hctx₁⟩

/-! ## The propagation delay never fails -/

section Delay

variable {committee : Committee}

/-- On a square matrix every authority's quorum round is computed, low at or
below high. -/
theorem quorumRounds_of_square (hc : committee.MajorityQuorum) {rows : List (List ℕ)}
    (hrows : SquareMatrix committee.size rows) :
    ∃ quorumRounds, (List.range committee.size).mapM (fun peer =>
        computeQuorumRound committee peer rows) = some quorumRounds ∧
      quorumRounds.length = committee.size ∧ ∀ q ∈ quorumRounds, q.1 ≤ q.2 := by
  have hspec : ∀ peer ∈ List.range committee.size,
      ∃ low high, computeQuorumRound committee peer rows = some (low, high) ∧ low ≤ high := by
    intro peer hpeer
    have htarget : ∀ row ∈ rows, peer < row.length := fun row hrow => by
      rw [hrows.2 row hrow]
      exact List.mem_range.mp hpeer
    obtain ⟨low, high, hq, -, -, hle⟩ := computeQuorumRound_spec hc hrows.1 htarget
    exact ⟨low, high, hq, hle⟩
  obtain ⟨quorumRounds, hq⟩ := OptionList.mapM_isSome
    (f := fun peer => computeQuorumRound committee peer rows) fun peer hpeer => by
      obtain ⟨low, high, h, -⟩ := hspec peer hpeer
      rw [h]
      rfl
  refine ⟨quorumRounds, hq, by rw [OptionList.length_of_mapM_eq_some hq, List.length_range],
    fun q hmem => ?_⟩
  obtain ⟨peer, hpeer, hpq⟩ := (OptionList.mem_of_mapM_eq_some hq q).mp hmem
  obtain ⟨low, high, h, hle⟩ := hspec peer hpeer
  rw [h] at hpq
  cases hpq
  exact hle

/-- No gap `high - low` underflows when every low is at or below its high. -/
theorem quorumRoundGaps_isSome {quorumRounds : List (ℕ × ℕ)}
    (h : ∀ q ∈ quorumRounds, q.1 ≤ q.2) : ∃ gaps, quorumRoundGaps quorumRounds = some gaps :=
  OptionList.mapM_isSome fun q hq => by
    obtain ⟨low, high⟩ := q
    simp [h _ hq]

/-- **`calculate_propagation_delay` never fails** on a tracker of the right
shape: every quorum round is computed, no gap underflows, and the own index
is in range. -/
theorem calculatePropagationDelay_isSome {t : RoundTracker}
    (hc : t.context.committee.MajorityQuorum) (ht : t.Shaped)
    (hown : t.context.ownIndex < t.context.committee.size) (lastProposedRound : ℕ) :
    ∃ delay, t.calculatePropagationDelay lastProposedRound = some delay := by
  obtain ⟨received, hreceived, hlenR, hleR⟩ := quorumRounds_of_square hc ht.probedReceived_square
  obtain ⟨accepted, haccepted, hlenA, hleA⟩ := quorumRounds_of_square hc
    (squareMatrix_max ht.probedAccepted_square ht.blockAccepted_square)
  obtain ⟨gapsR, hgapsR⟩ := quorumRoundGaps_isSome hleR
  obtain ⟨gapsA, hgapsA⟩ := quorumRoundGaps_isSome hleA
  have hR : received[t.context.ownIndex]? = some received[t.context.ownIndex] :=
    List.getElem?_eq_getElem (by omega)
  have hA : accepted[t.context.ownIndex]? = some accepted[t.context.ownIndex] :=
    List.getElem?_eq_getElem (by omega)
  simp only [calculatePropagationDelay, computeReceivedQuorumRounds, computeAcceptedQuorumRounds,
    hreceived, haccepted, hgapsR, hgapsA, hR, hA, Option.bind_eq_bind, Option.bind_some]
  exact ⟨_, rfl⟩

end Delay

/-- **Quorum-round estimates are well defined.** On a committee built by
`Committee::new` or `new_v3`, for every target authority and every matrix of
reported rounds with a row per authority, each holding the target's entry:
`low` is the greatest round a quorum reports at or above, `high` the least a
quorum reports at or below, and `low ≤ high`; the network high quorum round is
the least round a quorum's high quorum rounds are at or below; and along every
run of the tracker from `new`, the propagation delay is computed with no gap
`high - low` underflowing. -/
theorem quorumRounds_well_defined {committee : Committee}
    (hbuilt : (∃ epoch authorities, Committee.new epoch authorities = some committee) ∨
      ∃ epoch authorities maliciousStake crashStake,
        Committee.new_v3 epoch authorities maliciousStake crashStake = some committee) :
    (∀ (targetIndex : ℕ) (highestRounds : List (List ℕ)), highestRounds.length = committee.size →
      (∀ rounds ∈ highestRounds, targetIndex < rounds.length) →
      let reports := (highestRounds.zip committee.authorities).map
        fun e => (e.1.getD targetIndex 0, e.2.stake)
      ∃ low high, computeQuorumRound committee targetIndex highestRounds = some (low, high) ∧
        IsGreatest {r | committee.quorumThreshold ≤ weight (fun x => decide (r ≤ x)) reports} low ∧
        IsLeast {r | committee.quorumThreshold ≤ weight (fun x => decide (x ≤ r)) reports} high ∧
        low ≤ high) ∧
    (∀ acceptedQuorumRounds : List (ℕ × ℕ), acceptedQuorumRounds.length = committee.size →
      IsLeast {r | committee.quorumThreshold ≤ weight (fun x => decide (x ≤ r))
          ((acceptedQuorumRounds.zip committee.authorities).map fun e => (e.1.2, e.2.stake))}
        (calculateNetworkHighQuorumRound committee acceptedQuorumRounds)) ∧
    ∀ (context : Context) (initialReceivedRounds : List ℕ) (t₀ : RoundTracker) (events : List Event),
      context.committee = committee → context.ownIndex < committee.size →
      new context initialReceivedRounds = some t₀ → (∀ event ∈ events, event.Valid committee.size) →
      ∃ t, t₀.run events = some t ∧
        ∀ lastProposedRound, ∃ delay, t.calculatePropagationDelay lastProposedRound = some delay := by
  have hc : committee.MajorityQuorum := by
    rcases hbuilt with ⟨epoch, authorities, h⟩ | ⟨epoch, authorities, maliciousStake, crashStake, h⟩
    · exact Committee.majorityQuorum_of_new h
    · exact Committee.majorityQuorum_of_new_v3 h
  refine ⟨fun targetIndex highestRounds hrows htarget => computeQuorumRound_spec hc hrows htarget,
    fun acceptedQuorumRounds hlen => calculateNetworkHighQuorumRound_spec hc hlen, ?_⟩
  intro context initialReceivedRounds t₀ events hcommittee hown hnew hvalid
  obtain ⟨ht₀, hctx₀⟩ := new_shaped hnew
  have hsize : t₀.context.committee = committee := by rw [hctx₀, hcommittee]
  obtain ⟨t, hrun, ht, hctx⟩ := run_shaped events ht₀ (by rw [hsize]; exact hvalid)
  have hcommittee' : t.context.committee = committee := by rw [hctx, hsize]
  refine ⟨t, hrun, fun lastProposedRound => ?_⟩
  refine calculatePropagationDelay_isSome (hcommittee' ▸ hc) ht ?_ lastProposedRound
  rw [hcommittee', hctx, hctx₀]
  exact hown

/-- The estimates on a committee of four equal authorities reporting rounds
3, 5, 7 and 9: a quorum of three has seen round 5 and round 7 bounds three. -/
theorem quorumRounds_of_four_authorities :
    let c : Committee := ⟨0, [⟨1⟩, ⟨1⟩, ⟨1⟩, ⟨1⟩], 4, 3, 3, 2⟩
    Committee.new 0 [⟨1⟩, ⟨1⟩, ⟨1⟩, ⟨1⟩] = some c ∧
      ∃ low high, computeQuorumRound c 0 [[3], [5], [7], [9]] = some (low, high) ∧ low ≤ high := by
  intro c
  have hc : Committee.new 0 [⟨1⟩, ⟨1⟩, ⟨1⟩, ⟨1⟩] = some c := by decide
  obtain ⟨low, high, h, -, -, hle⟩ :=
    (quorumRounds_well_defined (Or.inl ⟨0, _, hc⟩)).1 0 [[3], [5], [7], [9]] rfl (by decide)
  exact ⟨hc, low, high, h, hle⟩

end RoundTracker

end Sui
