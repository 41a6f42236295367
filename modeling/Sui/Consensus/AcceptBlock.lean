import Sui.Consensus.DagState

/-!
# Accepting blocks and commits into the DAG state (`dag_state.rs`)

`accept_block` inserts a block into the recent blocks and, under Mysticeti
v3, keeps the vote accounting the v3 commit rule reads: each block above the
GC round records its children (the next-round blocks that list it as an
ancestor) with their stake, and each round above the GC round records its
blocks with their stake. `add_commit` moves the last commit, and with it the
GC round; `flush` evicts cached blocks and round infos at or below it.

`MetadataExact` says the accounting is exact above the GC round: children
and round blocks are what the recent blocks say they are, with their stake
counted once per author (`ChildrenExact`, `RoundsExact`). Every step keeps it
(`MetadataExact.step`) as long as commits do not go back in round, so it holds
in every state reached from an empty one (`metadataExact_of_reachable`).

The store behind the recent blocks, the per-authority indexes, the threshold
clock and the metrics are not modelled.
-/

namespace Sui

/-- The accounting of one more child in a block's info. -/
def BlockInfo.addChild (committee : Committee) (child : Block) (info : BlockInfo) : BlockInfo :=
  { info with
    children := insert child.reference info.children
    childrenStake := (info.childrenStake.addUnique child.author committee).1 }

/-- One more block in a round's info. -/
def RoundInfo.addBlock (committee : Committee) (block : Block) (info : RoundInfo) : RoundInfo :=
  { info with
    blocks := insert block.reference info.blocks
    totalStake := (info.totalStake.addUnique block.author committee).1 }

/-- The aggregator counts exactly the authors of `refs`, each once, with
their stake. -/
def StakeAggregator.Tallies {T : CommitteeThreshold} (a : StakeAggregator T)
    (committee : Committee) (refs : Finset BlockRef) : Prop :=
  a.votes = refs.image BlockRef.author ∧ a.Counts committee

namespace StakeAggregator

variable {T : CommitteeThreshold} {a : StakeAggregator T} {committee : Committee}
  {refs : Finset BlockRef}

theorem tallies_new : (new : StakeAggregator T).Tallies committee ∅ :=
  ⟨by simp, counts_new⟩

/-- `add_unique` of a block's author tallies the block. -/
theorem Tallies.addUnique (h : a.Tallies committee refs) (r : BlockRef) :
    (a.addUnique r.author committee).1.Tallies committee (insert r refs) :=
  ⟨by rw [addUnique_fst, insertVote_votes, h.1, Finset.image_insert], h.2.insertVote⟩

/-- What `reached_threshold` reports, as a statement about the authors. -/
theorem Tallies.reachedThreshold (h : a.Tallies committee refs) :
    a.reachedThreshold committee = true ↔
      T.threshold committee ≤ committee.weight (refs.image BlockRef.author) := by
  rw [h.2.reachedThreshold, h.1]

end StakeAggregator

/-! ## Consecutive round infos -/

namespace RoundInfo

@[simp] theorem addBlock_round (committee : Committee) (block : Block) (info : RoundInfo) :
    (info.addBlock committee block).round = info.round := rfl

/-- The infos hold the consecutive rounds from `r₀` on, one each: what makes
the offset from the front round find a round's info. -/
def Consecutive (L : List RoundInfo) (r₀ : ℕ) : Prop :=
  L.map (·.round) = List.range' r₀ L.length

/-- Replacing an info by one of the same round keeps the rounds. -/
theorem map_round_set {L : List RoundInfo} {i : ℕ} (hi : i < L.length) {x : RoundInfo}
    (hx : x.round = L[i].round) : (L.set i x).map (·.round) = L.map (·.round) := by
  have hself := List.set_getElem_self (by simpa using hi : i < (L.map (·.round)).length)
  simpa [List.map_set, hx] using hself

/-- Dropping from the front while `p` holds keeps what `p` rejects. -/
theorem mem_dropWhile_of_not {α : Type} {p : α → Bool} {L : List α} {x : α} (hx : x ∈ L)
    (hp : p x = false) : x ∈ L.dropWhile p := by
  induction L with
  | nil => exact absurd hx List.not_mem_nil
  | cons a L ih =>
    rcases List.mem_cons.mp hx with rfl | hx
    · rw [List.dropWhile_cons_of_neg (by simp [hp])]
      exact List.mem_cons_self
    · by_cases ha : p a = true
      · rw [List.dropWhile_cons_of_pos ha]
        exact ih hx
      · rw [List.dropWhile_cons_of_neg ha]
        exact List.mem_cons_of_mem a hx

namespace Consecutive

variable {L : List RoundInfo} {r₀ : ℕ}

theorem round_getElem (h : Consecutive L r₀) {i : ℕ} (hi : i < L.length) :
    L[i].round = r₀ + i := by
  have hi' := congrArg (fun l => l[i]?) h
  simpa [hi] using hi'

theorem round_bounds (h : Consecutive L r₀) {a : RoundInfo} (ha : a ∈ L) :
    r₀ ≤ a.round ∧ a.round < r₀ + L.length := by
  have hmem : a.round ∈ L.map (·.round) := List.mem_map_of_mem ha
  rw [h, List.mem_range'_1] at hmem
  exact hmem

/-- Only the rounds matter. -/
theorem of_map_eq {L' : List RoundInfo} (h : Consecutive L r₀)
    (hmap : L'.map (·.round) = L.map (·.round)) : Consecutive L' r₀ := by
  have hlen : L'.length = L.length := by simpa using congrArg List.length hmap
  rw [Consecutive, hmap, hlen]
  exact h

theorem set (h : Consecutive L r₀) {i : ℕ} (hi : i < L.length) {x : RoundInfo}
    (hx : x.round = L[i].round) : Consecutive (L.set i x) r₀ :=
  h.of_map_eq (map_round_set hi hx)

theorem append (h : Consecutive L r₀) {x : RoundInfo} (hx : x.round = r₀ + L.length) :
    Consecutive (L ++ [x]) r₀ := by
  rw [Consecutive, List.map_append, h, List.length_append, List.length_singleton,
    List.range'_concat]
  simp [hx]

/-- Replacing the info at an index by one of the same round keeps the others. -/
theorem mem_set_iff (h : Consecutive L r₀) {i : ℕ} (hi : i < L.length) {x y : RoundInfo}
    (hx : x.round = L[i].round) : y ∈ L.set i x ↔ y = x ∨ (y ∈ L ∧ y.round ≠ x.round) := by
  constructor
  · intro hy
    obtain ⟨j, hj, rfl⟩ := List.mem_iff_getElem.mp hy
    rw [List.length_set] at hj
    by_cases hij : i = j
    · subst hij
      exact .inl (by simp)
    · right
      rw [List.getElem_set_ne hij]
      refine ⟨List.getElem_mem hj, ?_⟩
      rw [hx, h.round_getElem hi, h.round_getElem hj]
      omega
  · rintro (hyx | ⟨hy, hne⟩)
    · rw [hyx]
      exact List.mem_set hi x
    · obtain ⟨j, hj, rfl⟩ := List.mem_iff_getElem.mp hy
      have hij : i ≠ j := by
        rintro rfl
        exact hne hx.symm
      exact List.mem_iff_getElem.mpr ⟨j, by simpa using hj, List.getElem_set_ne hij _⟩

/-- Dropping infos from the front keeps the rest consecutive. -/
theorem dropWhile (h : Consecutive L r₀)
    (p : RoundInfo → Bool) : ∃ r₁, Consecutive (L.dropWhile p) r₁ := by
  obtain ⟨k, hk⟩ : ∃ k, L.dropWhile p = L.drop k :=
    ⟨_, List.suffix_iff_eq_drop.mp (List.dropWhile_suffix p)⟩
  refine ⟨r₀ + k, ?_⟩
  rw [hk, Consecutive, List.map_drop, h, List.drop_range', List.length_drop]
  simp

end Consecutive

end RoundInfo

open RoundInfo (Consecutive)

namespace DagState

variable (s : DagState)

/-- `DagState::new` on an empty store: the genesis blocks and nothing else. -/
def new (context : Context) (genesis : List Block) : DagState :=
  ⟨context, genesis, [], [], 0, none⟩

/-- `DagState::contains_block`: the genesis blocks and the accepted ones. -/
def containsBlock (reference : BlockRef) : Bool :=
  s.blocks.any (·.reference = reference)

/-- `DagState::get_round_info`. `some none` is a round evicted or not reached
yet; `none` is the contiguity assertion. -/
def getRoundInfo (round : ℕ) : Option (Option RoundInfo) :=
  match s.roundInfo.head? with
  | none => some none
  | some front =>
    if round < front.round ∨ round ≤ s.gcRound then some none
    else
      match s.roundInfo[round - front.round]? with
      | none => some none
      | some roundInfo => if roundInfo.round = round then some (some roundInfo) else none

/-- `DagState::get_block_info_at_slot`; `none` is the assertion that the slot
lies above the GC round. -/
def getBlockInfoAtSlot (slot : Slot) : Option (List BlockInfo) :=
  if s.gcRound < slot.round then some (s.recentBlocks.filter (·.block.slot = slot)) else none

/-- The loop body of `update_block_metadata` over the ancestors of `block`:
only a link one round down, above the GC round, is a potential leader vote;
its parent must be there. -/
def addChild (block : Block) (s : DagState) (ancestor : BlockRef) : Option DagState :=
  if ancestor.round + 1 ≠ block.round ∨ ancestor.round ≤ s.gcRound then some s
  else if s.recentBlocks.any (·.block.reference = ancestor) then
    some { s with
      recentBlocks := s.recentBlocks.map fun info =>
        if info.block.reference = ancestor then info.addChild s.context.committee block else info }
  -- "Parent block does not exist"
  else none

/-- The last step of `DagState::update_round_info`: add the block to the info
of its round, found at its offset from the front round. The subtraction and
the indexing panic when the round is not there. -/
def addToRoundInfo (committee : Committee) (block : Block) (roundInfo : List RoundInfo) :
    Option (List RoundInfo) :=
  match roundInfo.head? with
  -- "round_info non-empty after extend"
  | none => none
  | some front =>
    if block.round < front.round then none
    else
      match roundInfo[block.round - front.round]? with
      | none => none
      | some info =>
        some (roundInfo.set (block.round - front.round) (info.addBlock committee block))

/-- `DagState::update_round_info`. -/
def updateRoundInfo (block : Block) : Option DagState :=
  -- RoundInfo is only kept for rounds above GC round.
  if block.round ≤ s.gcRound then some s
  else
    let nextRound :=
      match s.roundInfo.getLast? with
      | some roundInfo => roundInfo.round + 1
      | none => s.gcRound + 1
    -- DAG can only grow one round at a time.
    if nextRound < block.round then none
    else
      let roundInfo :=
        if block.round = nextRound then s.roundInfo ++ [⟨block.round, ∅, .new⟩] else s.roundInfo
      (addToRoundInfo s.context.committee block roundInfo).map fun roundInfo =>
        { s with roundInfo }

/-! ## The round accounting -/

section RoundAccounting

variable {committee : Committee} {block : Block} {L L' : List RoundInfo} {r₀ : ℕ}

/-- On consecutive infos from `r₀`, the offset finds the info of the block's
round when there is one. -/
theorem addToRoundInfo_eq (hcons : Consecutive L r₀) (hne : L ≠ []) :
    addToRoundInfo committee block L =
      if h : r₀ ≤ block.round ∧ block.round - r₀ < L.length then
        some (L.set (block.round - r₀) (L[block.round - r₀].addBlock committee block))
      else none := by
  obtain ⟨front, rest, rfl⟩ := List.exists_cons_of_ne_nil hne
  have hfront : front.round = r₀ := hcons.round_getElem (i := 0) (by simp)
  unfold addToRoundInfo
  simp only [List.head?_cons, hfront]
  by_cases hlt : block.round < r₀
  · rw [if_pos hlt, dif_neg (by omega)]
  · rw [if_neg hlt]
    by_cases hi : block.round - r₀ < (front :: rest).length
    · rw [List.getElem?_eq_getElem hi, dif_pos ⟨by omega, hi⟩]
    · rw [List.getElem?_eq_none (by omega), dif_neg (by omega)]

/-- **Adding to a round's info** replaces the info of the block's round by the
same info with the block counted, and keeps every other info. -/
theorem addToRoundInfo_spec (hcons : Consecutive L r₀)
    (h : addToRoundInfo committee block L = some L') :
    ∃ info ∈ L, info.round = block.round ∧ L'.map (·.round) = L.map (·.round) ∧
      Consecutive L' r₀ ∧
      ∀ i, i ∈ L' ↔ i = info.addBlock committee block ∨ (i ∈ L ∧ i.round ≠ block.round) := by
  have hne : L ≠ [] := by
    rintro rfl
    simp [addToRoundInfo] at h
  rw [addToRoundInfo_eq hcons hne] at h
  split at h
  · rename_i hbounds
    cases h
    have hround : L[block.round - r₀].round = block.round := by
      rw [hcons.round_getElem hbounds.2]
      omega
    have hx : (L[block.round - r₀].addBlock committee block).round = L[block.round - r₀].round :=
      rfl
    refine ⟨L[block.round - r₀], List.getElem_mem _, hround, RoundInfo.map_round_set hbounds.2 hx,
      hcons.set hbounds.2 hx, fun i => ?_⟩
    rw [hcons.mem_set_iff hbounds.2 hx, RoundInfo.addBlock_round, hround]
  · cases h

/-- The infos grown by a fresh one for the round after the last (or after the
GC round, when there is none) stay consecutive, and no info had that round. -/
theorem consecutive_append_fresh {gcRound : ℕ} (hcons : Consecutive L r₀)
    (hnext : block.round = (match L.getLast? with
      | some roundInfo => roundInfo.round + 1
      | none => gcRound + 1)) :
    (∃ r₁, Consecutive (L ++ [⟨block.round, ∅, .new⟩]) r₁) ∧
      ∀ i ∈ L, i.round ≠ block.round := by
  cases hlast : L.getLast? with
  | none =>
    rw [List.getLast?_eq_none_iff] at hlast
    subst hlast
    exact ⟨⟨block.round, by simp [Consecutive]⟩, fun i hi => absurd hi List.not_mem_nil⟩
  | some last =>
    simp only [hlast] at hnext
    have hlen : 0 < L.length := List.length_pos_iff.mpr (by rintro rfl; simp at hlast)
    have hget : L[L.length - 1] = last := by
      rw [List.getLast?_eq_getElem?, List.getElem?_eq_getElem (by omega)] at hlast
      exact Option.some.inj hlast
    have hlastround : last.round = r₀ + (L.length - 1) := by
      rw [← hget, hcons.round_getElem]
    refine ⟨⟨r₀, hcons.append (by simp; omega)⟩, fun i hi => ?_⟩
    have := hcons.round_bounds hi
    omega

end RoundAccounting

variable {s} in
/-- **The round accounting.** Above the GC round, a successful
`update_round_info` counts the block in the info of its round: an info already
there, or a fresh one appended after the last round. Every other info is
kept, and the infos stay consecutive. -/
theorem updateRoundInfo_spec {block : Block} {s' : DagState} (hgc : s.gcRound < block.round)
    {r₀ : ℕ} (hcons : Consecutive s.roundInfo r₀) (h : s.updateRoundInfo block = some s') :
    ∃ info₀ : RoundInfo, info₀.round = block.round ∧
      ((info₀ ∈ s.roundInfo ∧ s'.roundInfo.map (·.round) = s.roundInfo.map (·.round)) ∨
        (info₀ = ⟨block.round, ∅, .new⟩ ∧ (∀ i ∈ s.roundInfo, i.round ≠ block.round) ∧
          s'.roundInfo.map (·.round) = s.roundInfo.map (·.round) ++ [block.round])) ∧
      (∃ r₁, Consecutive s'.roundInfo r₁) ∧
      (∀ i, i ∈ s'.roundInfo ↔
        i = info₀.addBlock s.context.committee block ∨ (i ∈ s.roundInfo ∧ i.round ≠ block.round)) ∧
      s' = { s with roundInfo := s'.roundInfo } := by
  unfold updateRoundInfo at h
  rw [if_neg (Nat.not_le.mpr hgc)] at h
  dsimp only at h
  split_ifs at h with hlt hfresh
  · -- the block opens the next round
    obtain ⟨L', hL', rfl⟩ := Option.map_eq_some_iff.mp h
    obtain ⟨⟨r₁, hcons₁⟩, hnone⟩ := consecutive_append_fresh hcons hfresh
    obtain ⟨info, hinfo, hround, hmap, hcons', hmem⟩ := addToRoundInfo_spec hcons₁ hL'
    have hinfo₀ : info = ⟨block.round, ∅, .new⟩ := by
      rcases List.mem_append.mp hinfo with hold | hnew
      · exact absurd hround (hnone info hold)
      · simpa using hnew
    refine ⟨info, hround, .inr ⟨hinfo₀, hnone, by simpa using hmap⟩, ⟨r₁, hcons'⟩,
      fun i => ?_, rfl⟩
    rw [hmem, List.mem_append, List.mem_singleton]
    constructor
    · rintro (hi | ⟨hi | rfl, hne⟩)
      · exact .inl hi
      · exact .inr ⟨hi, hne⟩
      · exact absurd rfl hne
    · rintro (hi | ⟨hi, hne⟩)
      · exact .inl hi
      · exact .inr ⟨.inl hi, hne⟩
  · -- the block's round is already there
    obtain ⟨L', hL', rfl⟩ := Option.map_eq_some_iff.mp h
    obtain ⟨info, hinfo, hround, hmap, hcons', hmem⟩ := addToRoundInfo_spec hcons hL'
    exact ⟨info, hround, .inl ⟨hinfo, hmap⟩, ⟨r₀, hcons'⟩, hmem, rfl⟩

/-- The recent blocks with a fresh info for `block`, in reference order. -/
def insertRecent (block : Block) : DagState :=
  { s with
    recentBlocks := s.recentBlocks.orderedInsert
      (fun i j : BlockInfo => i.block.reference ≤ j.block.reference) ⟨block, ∅, .new, false⟩ }

/-- `DagState::update_block_metadata`: insert the block, then, under v3, the
children accounting of its parents and the round accounting. -/
def updateBlockMetadata (block : Block) : Option DagState := do
  let s := s.insertRecent block
  let s ← if s.context.protocolConfig.enableV3 then do
      let s ← block.ancestors.foldlM (addChild block) s
      s.updateRoundInfo block
    else pure s
  pure { s with highestAcceptedRound := max s.highestAcceptedRound block.round }

/-- `DagState::accept_block`: a genesis block is refused, a known block is
ignored, and an own block must not equivocate. -/
def acceptBlock (block : Block) : Option DagState :=
  if block.round = genesisRound then none
  else if s.containsBlock block.reference then some s
  -- Ensure we don't write multiple blocks per slot for our own index
  else if block.author = s.context.ownIndex ∧ s.getUncommittedBlocksAtSlot block.slot ≠ [] then none
  else s.updateBlockMetadata block

/-- `DagState::add_commit`: a stale commit is ignored; the next one must
follow the last in index and timestamp. -/
def addCommit (commit : TrustedCommit) : Option DagState :=
  match s.lastCommit with
  | some lastCommit =>
    if commit.inner.index ≤ lastCommit.inner.index then some s
    else if commit.inner.index ≠ lastCommit.inner.index + 1 then none
    else if commit.inner.timestampMs < lastCommit.inner.timestampMs then none
    else some { s with lastCommit := some commit }
  | none => if commit.inner.index ≠ 1 then none else some { s with lastCommit := some commit }

/-- `DagState::calculate_authority_eviction_round`: the author's last
accepted round less the cached rounds, but never above the GC round. -/
def evictionRound (cachedRounds authority : ℕ) : ℕ :=
  let lastRound :=
    (((s.recentBlocks.map (·.block)).filter (·.author = authority)).map (·.round)).max?.getD
      genesisRound
  min s.gcRound (lastRound - cachedRounds)

/-- The clean-up of `DagState::flush` once the buffered blocks and commits are
written: each authority's blocks up to its eviction round leave the cache, and
the round infos at or below the GC round are dropped from the front. With
nothing buffered, `flush` returns before this and leaves the state as it is. -/
def flush (cachedRounds : ℕ) : DagState :=
  { s with
    recentBlocks := s.recentBlocks.filter fun info =>
      !(decide (info.block.author < s.context.committee.size) &&
        decide (info.block.round ≤ s.evictionRound cachedRounds info.block.author))
    roundInfo := s.roundInfo.dropWhile (·.round ≤ s.gcRound) }

/-- The steps of the DAG state: accepting a block, adding a commit whose
leader round does not go back, and flushing. -/
inductive Step : DagState → DagState → Prop
  | acceptBlock {s s' : DagState} {block : Block} : s.acceptBlock block = some s' → Step s s'
  | addCommit {s s' : DagState} {commit : TrustedCommit} :
      s.lastCommitRound ≤ commit.inner.leader.round → s.addCommit commit = some s' → Step s s'
  | flush {s : DagState} (cachedRounds : ℕ) : Step s (s.flush cachedRounds)

/-! ## What the accounting should hold -/

/-- The references of the accepted blocks of the round after `b`'s that list
`b` as an ancestor: what `b`'s children should be. -/
def childRefs (b : Block) : Finset BlockRef :=
  (((s.recentBlocks.map (·.block)).filter fun c =>
    c.round = b.round + 1 ∧ b.reference ∈ c.ancestors).map Block.reference).toFinset

/-- The references of the accepted blocks of a round: what its `RoundInfo`
should hold. -/
def roundRefs (round : ℕ) : Finset BlockRef :=
  (((s.recentBlocks.map (·.block)).filter (·.round = round)).map Block.reference).toFinset

variable {s}

theorem mem_childRefs {b : Block} {r : BlockRef} :
    r ∈ s.childRefs b ↔ ∃ c ∈ s.recentBlocks.map (·.block),
      c.round = b.round + 1 ∧ b.reference ∈ c.ancestors ∧ c.reference = r := by
  simp [childRefs, and_assoc]

theorem mem_roundRefs {round : ℕ} {r : BlockRef} :
    r ∈ s.roundRefs round ↔ ∃ c ∈ s.recentBlocks.map (·.block), c.round = round ∧ c.reference = r := by
  simp [roundRefs, and_assoc]

/-- The target sets only read the accepted blocks. -/
theorem childRefs_congr {t : DagState}
    (h : ∀ c, c ∈ s.recentBlocks.map (·.block) ↔ c ∈ t.recentBlocks.map (·.block)) (b : Block) :
    s.childRefs b = t.childRefs b := by
  ext r
  simp only [mem_childRefs, h]

theorem roundRefs_congr {t : DagState}
    (h : ∀ c, c ∈ s.recentBlocks.map (·.block) ↔ c ∈ t.recentBlocks.map (·.block)) (round : ℕ) :
    s.roundRefs round = t.roundRefs round := by
  ext r
  simp only [mem_roundRefs, h]

/-! ## Inserting the block -/

theorem mem_insertRecent {block : Block} {i : BlockInfo} :
    i ∈ (s.insertRecent block).recentBlocks ↔ i = ⟨block, ∅, .new, false⟩ ∨ i ∈ s.recentBlocks :=
  List.mem_orderedInsert _

theorem mem_insertRecent_blocks {block c : Block} :
    c ∈ (s.insertRecent block).recentBlocks.map (·.block) ↔
      c = block ∨ c ∈ s.recentBlocks.map (·.block) := by
  simp only [List.mem_map, mem_insertRecent]
  constructor
  · rintro ⟨i, rfl | hi, rfl⟩
    · exact .inl rfl
    · exact .inr ⟨i, hi, rfl⟩
  · rintro (rfl | ⟨i, hi, rfl⟩)
    · exact ⟨_, .inl rfl, rfl⟩
    · exact ⟨i, .inr hi, rfl⟩

@[simp] theorem insertRecent_context (block : Block) : (s.insertRecent block).context = s.context :=
  rfl

@[simp] theorem insertRecent_lastCommit (block : Block) :
    (s.insertRecent block).lastCommit = s.lastCommit := rfl

@[simp] theorem insertRecent_roundInfo (block : Block) :
    (s.insertRecent block).roundInfo = s.roundInfo := rfl

@[simp] theorem insertRecent_gcRound (block : Block) : (s.insertRecent block).gcRound = s.gcRound :=
  rfl

/-! ## The children accounting -/

theorem BlockInfo.addChild_block (committee : Committee) (child : Block) (info : BlockInfo) :
    (info.addChild committee child).block = info.block := rfl

/-- Counting a child twice counts it once. -/
theorem BlockInfo.addChild_addChild (committee : Committee) (child : Block) (info : BlockInfo) :
    (info.addChild committee child).addChild committee child = info.addChild committee child := by
  simp only [BlockInfo.addChild, StakeAggregator.addUnique_fst,
    StakeAggregator.insertVote_insertVote, Finset.insert_idem]

/-- The recent blocks once every parent link of `block` among `as` counts
it as a child. -/
def withChild (committee : Committee) (gcRound : ℕ) (block : Block) (as : List BlockRef)
    (recent : List BlockInfo) : List BlockInfo :=
  recent.map fun info =>
    if info.block.reference ∈ as ∧ info.block.round + 1 = block.round ∧ gcRound < info.block.round
    then info.addChild committee block else info

/-- **The children loop** succeeds only when every parent link is present,
and then counts `block` once in each parent's info. -/
theorem foldlM_addChild (block : Block) :
    ∀ (as : List BlockRef) (s s' : DagState), as.foldlM (addChild block) s = some s' →
      (∀ a ∈ as, a.round + 1 = block.round → s.gcRound < a.round →
        ∃ i ∈ s.recentBlocks, i.block.reference = a) ∧
      s' = { s with
        recentBlocks := withChild s.context.committee s.gcRound block as s.recentBlocks }
  | [], s, s', h => by
    rw [List.foldlM_nil] at h
    cases h
    refine ⟨fun a ha => absurd ha List.not_mem_nil, ?_⟩
    simp [withChild]
  | a :: as, s, s', h => by
    rw [List.foldlM_cons] at h
    unfold addChild at h
    split_ifs at h with hskip hpresent
    · -- not a parent link: nothing counted
      rw [Option.bind_eq_bind, Option.bind_some] at h
      obtain ⟨hmem, rfl⟩ := foldlM_addChild block as s s' h
      have hiff : ∀ info : BlockInfo,
          (info.block.reference ∈ a :: as ∧ info.block.round + 1 = block.round ∧
            s.gcRound < info.block.round) ↔
          (info.block.reference ∈ as ∧ info.block.round + 1 = block.round ∧
            s.gcRound < info.block.round) := by
        intro info
        rw [List.mem_cons]
        constructor
        · rintro ⟨hr | hr, h1, h2⟩
          · rw [← hr, Block.reference_round] at hskip
            omega
          · exact ⟨hr, h1, h2⟩
        · rintro ⟨hr, h1, h2⟩
          exact ⟨.inr hr, h1, h2⟩
      refine ⟨fun x hx hxr hxgc => ?_, by simp only [withChild, hiff]⟩
      rcases List.mem_cons.mp hx with rfl | hx
      · omega
      · exact hmem x hx hxr hxgc
    · -- a parent link: the parent's info counts the block
      rw [Option.bind_eq_bind, Option.bind_some] at h
      obtain ⟨hmem, rfl⟩ := foldlM_addChild block as _ s' h
      have hlink : a.round + 1 = block.round ∧ s.gcRound < a.round := by omega
      refine ⟨fun x hx hxr hxgc => ?_, ?_⟩
      · rcases List.mem_cons.mp hx with rfl | hx
        · simpa using hpresent
        · obtain ⟨i, hi, hix⟩ := hmem x hx hxr hxgc
          obtain ⟨j, hj, rfl⟩ := List.mem_map.mp hi
          refine ⟨j, hj, ?_⟩
          split_ifs at hix <;> simpa [BlockInfo.addChild_block] using hix
      · -- the state after the first link has the same GC round and committee
        have key : withChild s.context.committee s.gcRound block as
            (s.recentBlocks.map fun info =>
              if info.block.reference = a then info.addChild s.context.committee block else info) =
            withChild s.context.committee s.gcRound block (a :: as) s.recentBlocks := by
          simp only [withChild, List.map_map]
          refine List.map_congr_left fun info _ => ?_
          simp only [Function.comp_apply]
          by_cases hx : info.block.reference = a
          · subst hx
            have hl : info.block.round + 1 = block.round ∧ s.gcRound < info.block.round := by
              simpa using hlink
            by_cases has : info.block.reference ∈ as
            · simp [BlockInfo.addChild_block, has, hl, BlockInfo.addChild_addChild]
            · simp [BlockInfo.addChild_block, has, hl]
          · simp [hx]
        exact congrArg (fun r => { s with recentBlocks := r }) key
    · -- a missing parent: the loop panics
      simp at h

/-! ## The accounting is exact -/

theorem withChild_blocks (committee : Committee) (gcRound : ℕ) (block : Block)
    (as : List BlockRef) (recent : List BlockInfo) :
    (withChild committee gcRound block as recent).map (·.block) = recent.map (·.block) := by
  simp only [withChild, List.map_map]
  refine List.map_congr_left fun info _ => ?_
  simp only [Function.comp_apply]
  split_ifs <;> rfl

/-- The children a block should have once `block` is accepted: `block` joins
them when it is a next-round block listing it. -/
theorem childRefs_of_insert {t : DagState} {block : Block}
    (h : ∀ c, c ∈ t.recentBlocks.map (·.block) ↔ c = block ∨ c ∈ s.recentBlocks.map (·.block))
    (b : Block) :
    t.childRefs b = if block.round = b.round + 1 ∧ b.reference ∈ block.ancestors
      then insert block.reference (s.childRefs b) else s.childRefs b := by
  ext r
  split_ifs with hchild
  · simp only [Finset.mem_insert, mem_childRefs, h]
    constructor
    · rintro ⟨c, rfl | hc, hcr, hca, rfl⟩
      · exact .inl rfl
      · exact .inr ⟨c, hc, hcr, hca, rfl⟩
    · rintro (rfl | ⟨c, hc, hcr, hca, rfl⟩)
      · exact ⟨block, .inl rfl, hchild.1, hchild.2, rfl⟩
      · exact ⟨c, .inr hc, hcr, hca, rfl⟩
  · simp only [mem_childRefs, h]
    constructor
    · rintro ⟨c, rfl | hc, hcr, hca, rfl⟩
      · exact absurd ⟨hcr, hca⟩ hchild
      · exact ⟨c, hc, hcr, hca, rfl⟩
    · rintro ⟨c, hc, hcr, hca, rfl⟩
      exact ⟨c, .inr hc, hcr, hca, rfl⟩

/-- The blocks a round's info should hold once `block` is accepted. -/
theorem roundRefs_of_insert {t : DagState} {block : Block}
    (h : ∀ c, c ∈ t.recentBlocks.map (·.block) ↔ c = block ∨ c ∈ s.recentBlocks.map (·.block))
    (round : ℕ) :
    t.roundRefs round = if block.round = round
      then insert block.reference (s.roundRefs round) else s.roundRefs round := by
  ext r
  split_ifs with hround
  · simp only [Finset.mem_insert, mem_roundRefs, h]
    constructor
    · rintro ⟨c, rfl | hc, hcr, rfl⟩
      · exact .inl rfl
      · exact .inr ⟨c, hc, hcr, rfl⟩
    · rintro (rfl | ⟨c, hc, hcr, rfl⟩)
      · exact ⟨block, .inl rfl, hround, rfl⟩
      · exact ⟨c, .inr hc, hcr, rfl⟩
  · simp only [mem_roundRefs, h]
    constructor
    · rintro ⟨c, rfl | hc, hcr, rfl⟩
      · exact absurd hcr hround
      · exact ⟨c, hc, hcr, rfl⟩
    · rintro ⟨c, hc, hcr, rfl⟩
      exact ⟨c, .inr hc, hcr, rfl⟩

/-- **What `update_block_metadata` does under v3**: every parent link of the
block above the GC round was present, each such parent counts the block as a
child, and the round accounting runs on the result. -/
theorem updateBlockMetadata_spec {block : Block} {s' : DagState}
    (hv3 : s.context.protocolConfig.enableV3 = true) (h : s.updateBlockMetadata block = some s') :
    (∀ a ∈ block.ancestors, a.round + 1 = block.round → s.gcRound < a.round →
      ∃ i ∈ s.recentBlocks, i.block.reference = a) ∧
    ∃ s₃ : DagState,
      { s.insertRecent block with
        recentBlocks := withChild s.context.committee s.gcRound block block.ancestors
          (s.insertRecent block).recentBlocks }.updateRoundInfo block = some s₃ ∧
      s' = { s₃ with highestAcceptedRound := max s₃.highestAcceptedRound block.round } := by
  unfold updateBlockMetadata at h
  dsimp only at h
  rw [insertRecent_context, if_pos hv3] at h
  obtain ⟨s₂, hfold, h⟩ := Option.bind_eq_some_iff.mp h
  obtain ⟨hparents, rfl⟩ := foldlM_addChild block block.ancestors _ s₂ hfold
  obtain ⟨s₃, hround, h⟩ := Option.bind_eq_some_iff.mp h
  refine ⟨fun a ha hround' hgc => ?_, s₃, hround, (Option.some.inj h).symm⟩
  -- a parent is one round down, so it is not the block itself
  obtain ⟨i, hi, hia⟩ := hparents a ha hround' hgc
  rcases mem_insertRecent.mp hi with rfl | hi
  · simp only [← hia, Block.reference_round] at hround'
    omega
  · exact ⟨i, hi, hia⟩

/-- The children half of the accounting: above the GC round every parent
link points at an accepted block, and a block's children are the next-round
blocks that list it, their stake counted once per author. -/
structure ChildrenExact (s : DagState) : Prop where
  parent_mem : ∀ b ∈ s.recentBlocks.map (·.block), ∀ a ∈ b.ancestors, a.round + 1 = b.round →
    s.gcRound < a.round → ∃ c ∈ s.recentBlocks.map (·.block), c.reference = a
  children_eq : ∀ i ∈ s.recentBlocks, s.gcRound < i.block.round →
    i.children = s.childRefs i.block
  childrenStake_tallies : ∀ i ∈ s.recentBlocks, s.gcRound < i.block.round →
    i.childrenStake.Tallies s.context.committee i.children

/-- The round half of the accounting: the infos are consecutive, every
accepted round above the GC round has one, and it holds the blocks of its
round, their stake counted once per author. -/
structure RoundsExact (s : DagState) : Prop where
  consecutive : ∃ r₀, Consecutive s.roundInfo r₀
  roundInfo_complete : ∀ b ∈ s.recentBlocks.map (·.block), s.gcRound < b.round →
    ∃ info ∈ s.roundInfo, info.round = b.round
  blocks_eq : ∀ info ∈ s.roundInfo, s.gcRound < info.round →
    info.blocks = s.roundRefs info.round
  totalStake_tallies : ∀ info ∈ s.roundInfo, s.gcRound < info.round →
    info.totalStake.Tallies s.context.committee info.blocks

/-- **The v3 vote accounting is exact** above the GC round. -/
structure MetadataExact (s : DagState) : Prop extends ChildrenExact s, RoundsExact s

theorem metadataExact_new (context : Context) (genesis : List Block) :
    MetadataExact (new context genesis) where
  parent_mem _ hb := absurd hb List.not_mem_nil
  children_eq _ hi := absurd hi List.not_mem_nil
  childrenStake_tallies _ hi := absurd hi List.not_mem_nil
  consecutive := ⟨0, rfl⟩
  roundInfo_complete _ hb := absurd hb List.not_mem_nil
  blocks_eq _ hi := absurd hi List.not_mem_nil
  totalStake_tallies _ hi := absurd hi List.not_mem_nil

/-! ### Accepting a block -/

section Accept

variable {block : Block} {t : DagState}

theorem mem_withChild {committee : Committee} {gcRound : ℕ} {as : List BlockRef}
    {recent : List BlockInfo} {i : BlockInfo} :
    i ∈ withChild committee gcRound block as recent ↔ ∃ j ∈ recent,
      (if j.block.reference ∈ as ∧ j.block.round + 1 = block.round ∧ gcRound < j.block.round
        then j.addChild committee block else j) = i :=
  List.mem_map

/-- A block nobody had accepted has no children yet: a next-round block
listing it would have needed it as a parent. -/
theorem ChildrenExact.childRefs_eq_empty (hC : ChildrenExact s)
    (hnew : ∀ j ∈ s.recentBlocks, j.block.reference ≠ block.reference)
    (hgc : s.gcRound < block.round) : s.childRefs block = ∅ := by
  ext r
  simp only [mem_childRefs, Finset.notMem_empty, iff_false, not_exists, not_and]
  intro c hc hcr hca _
  obtain ⟨d, hd, hdr⟩ := hC.parent_mem c hc block.reference hca (by simpa using hcr.symm)
    (by simpa using hgc)
  obtain ⟨j, hj, rfl⟩ := List.mem_map.mp hd
  exact hnew j hj hdr

/-- **The children loop keeps the children half exact**, for a block that
was not there and whose parent links above the GC round were present. -/
theorem ChildrenExact.accept (hC : ChildrenExact s)
    (hnew : ∀ j ∈ s.recentBlocks, j.block.reference ≠ block.reference)
    (hparents : ∀ a ∈ block.ancestors, a.round + 1 = block.round → s.gcRound < a.round →
      ∃ i ∈ s.recentBlocks, i.block.reference = a)
    (hrecent : t.recentBlocks = withChild s.context.committee s.gcRound block block.ancestors
      (s.insertRecent block).recentBlocks)
    (hgc : t.gcRound = s.gcRound) (hcommittee : t.context.committee = s.context.committee) :
    ChildrenExact t := by
  have hblocks : ∀ c, c ∈ t.recentBlocks.map (·.block) ↔
      c = block ∨ c ∈ s.recentBlocks.map (·.block) := by
    intro c
    rw [hrecent, withChild_blocks, mem_insertRecent_blocks]
  have hchildren := childRefs_of_insert hblocks
  refine ⟨fun b hb a ha hab hga => ?_, fun i hi hgi => ?_, fun i hi hgi => ?_⟩
  · -- parent links: the new block's were checked by the loop
    rw [hgc] at hga
    rcases (hblocks b).mp hb with rfl | hb
    · obtain ⟨i, hi, hia⟩ := hparents a ha hab hga
      exact ⟨i.block, (hblocks _).mpr (.inr (List.mem_map_of_mem hi)), hia⟩
    · obtain ⟨c, hc, hca⟩ := hC.parent_mem b hb a ha hab hga
      exact ⟨c, (hblocks c).mpr (.inr hc), hca⟩
  all_goals
    rw [hrecent, mem_withChild] at hi
    obtain ⟨j, hj, rfl⟩ := hi
    rw [hgc] at hgi
    rcases mem_insertRecent.mp hj with rfl | hj
  · -- the new block's own info: no children yet
    have hno : ¬ (block.round + 1 = block.round) := by omega
    simp only [hno, false_and, and_false, if_false] at hgi ⊢
    rw [hchildren, if_neg (by omega), hC.childRefs_eq_empty hnew hgi]
  · split_ifs at hgi ⊢ with hlink
    · -- a parent of the new block counts it
      rw [BlockInfo.addChild_block] at hgi ⊢
      rw [hchildren, if_pos ⟨hlink.2.1.symm, hlink.1⟩, ← hC.children_eq j hj hgi]
      rfl
    · rw [hchildren, if_neg fun h => hlink ⟨h.2, h.1.symm, hgi⟩, hC.children_eq j hj hgi]
  · have hno : ¬ (block.round + 1 = block.round) := by omega
    simp only [hno, false_and, and_false, if_false] at hgi ⊢
    exact StakeAggregator.tallies_new
  · split_ifs at hgi ⊢ with hlink
    · rw [hcommittee]
      exact (hC.childrenStake_tallies j hj hlink.2.2).addUnique block.reference
    · rw [hcommittee]
      exact hC.childrenStake_tallies j hj hgi

/-- `update_round_info` only writes the round infos. -/
theorem updateRoundInfo_frame {s' : DagState} (h : s.updateRoundInfo block = some s') :
    s' = { s with roundInfo := s'.roundInfo } := by
  unfold updateRoundInfo at h
  dsimp only at h
  split_ifs at h
  · cases h
    rfl
  · obtain ⟨L', -, rfl⟩ := Option.map_eq_some_iff.mp h
    rfl
  · obtain ⟨L', -, rfl⟩ := Option.map_eq_some_iff.mp h
    rfl

/-- A round with accepted blocks above the GC round has an info, so a round
without one has no such block. -/
theorem RoundsExact.roundRefs_eq_empty (hR : RoundsExact s) {round : ℕ}
    (hgc : s.gcRound < round) (hnone : ∀ i ∈ s.roundInfo, i.round ≠ round) :
    s.roundRefs round = ∅ := by
  ext r
  simp only [mem_roundRefs, Finset.notMem_empty, iff_false, not_exists, not_and]
  intro c hc hcr _
  obtain ⟨info, hinfo, hir⟩ := hR.roundInfo_complete c hc (by omega)
  exact hnone info hinfo (hir.trans hcr)

/-- **The round accounting keeps the round half exact**: run on a state whose
accepted blocks are those of `s` and `block`, with the round infos, GC round
and committee of `s`. -/
theorem RoundsExact.accept (hR : RoundsExact s) {u : DagState}
    (hblocks : ∀ c, c ∈ t.recentBlocks.map (·.block) ↔
      c = block ∨ c ∈ s.recentBlocks.map (·.block))
    (hroundInfo : t.roundInfo = s.roundInfo) (hgc : t.gcRound = s.gcRound)
    (hcommittee : t.context.committee = s.context.committee)
    (h : t.updateRoundInfo block = some u) : RoundsExact u := by
  have hframe := updateRoundInfo_frame h
  have hu : u.recentBlocks = t.recentBlocks ∧ u.gcRound = s.gcRound ∧
      u.context.committee = s.context.committee := by
    rw [hframe]
    exact ⟨rfl, hgc, hcommittee⟩
  have hublocks : ∀ c, c ∈ u.recentBlocks.map (·.block) ↔
      c = block ∨ c ∈ s.recentBlocks.map (·.block) := by
    rw [hu.1]
    exact hblocks
  have hrefs := roundRefs_of_insert hublocks
  obtain ⟨r₀, hcons⟩ := hR.consecutive
  by_cases hlow : block.round ≤ s.gcRound
  · -- below the GC round nothing is counted
    have hut : u = t := by
      unfold updateRoundInfo at h
      rw [if_pos (hgc ▸ hlow)] at h
      exact (Option.some.inj h).symm
    subst hut
    refine ⟨⟨r₀, hroundInfo ▸ hcons⟩, fun b hb hgb => ?_, fun info hinfo hgi => ?_,
      fun info hinfo hgi => ?_⟩
    · rw [hgc] at hgb
      rcases (hblocks b).mp hb with rfl | hb
      · omega
      · rw [hroundInfo]
        exact hR.roundInfo_complete b hb hgb
    · rw [hroundInfo] at hinfo
      rw [hgc] at hgi
      rw [hrefs, if_neg (by omega), hR.blocks_eq info hinfo hgi]
    · rw [hroundInfo] at hinfo
      rw [hgc] at hgi
      rw [hcommittee]
      exact hR.totalStake_tallies info hinfo hgi
  · -- above it, the block is counted in the info of its round
    have hgt : t.gcRound < block.round := by omega
    rw [← hroundInfo] at hcons
    obtain ⟨info₀, hround₀, hold, hcons', hmem, -⟩ := updateRoundInfo_spec hgt hcons h
    rw [hroundInfo] at hold hmem
    -- what the info of the block's round held before
    have hinfo₀ : info₀.blocks = s.roundRefs block.round ∧
        info₀.totalStake.Tallies s.context.committee info₀.blocks := by
      rcases hold with ⟨hin, -⟩ | ⟨rfl, hnone, -⟩
      · rw [← hround₀]
        exact ⟨hR.blocks_eq info₀ hin (by omega), hR.totalStake_tallies info₀ hin (by omega)⟩
      · exact ⟨(hR.roundRefs_eq_empty (by omega) hnone).symm, StakeAggregator.tallies_new⟩
    refine ⟨hcons', fun b hb hgb => ?_, fun info hinfo hgi => ?_, fun info hinfo hgi => ?_⟩
    · rw [hu.2.1] at hgb
      by_cases hbr : b.round = block.round
      · exact ⟨_, (hmem _).mpr (.inl rfl), by rw [RoundInfo.addBlock_round, hround₀, hbr]⟩
      · rcases (hublocks b).mp hb with rfl | hb
        · exact absurd rfl hbr
        · obtain ⟨info, hinfo, hir⟩ := hR.roundInfo_complete b hb hgb
          exact ⟨info, (hmem info).mpr (.inr ⟨hinfo, by rw [hir]; exact hbr⟩), hir⟩
    · rw [hu.2.1] at hgi
      rcases (hmem info).mp hinfo with rfl | ⟨hinfo, hne⟩
      · rw [RoundInfo.addBlock_round, hround₀, hrefs, if_pos rfl, ← hinfo₀.1]
        rfl
      · rw [hrefs, if_neg (Ne.symm hne), hR.blocks_eq info hinfo hgi]
    · rw [hu.2.1] at hgi
      rw [hu.2.2]
      rcases (hmem info).mp hinfo with rfl | ⟨hinfo, -⟩
      · rw [hcommittee]
        exact hinfo₀.2.addUnique block.reference
      · exact hR.totalStake_tallies info hinfo hgi

/-- **Accepting a block keeps the accounting exact** under v3: the children
loop and the round accounting each keep their half, for a block that was not
there before. -/
theorem MetadataExact.updateBlockMetadata (hE : MetadataExact s)
    (hv3 : s.context.protocolConfig.enableV3 = true)
    (hnew : ∀ j ∈ s.recentBlocks, j.block.reference ≠ block.reference) {s' : DagState}
    (h : s.updateBlockMetadata block = some s') : MetadataExact s' := by
  obtain ⟨hparents, s₃, hround, rfl⟩ := updateBlockMetadata_spec hv3 h
  have hframe := updateRoundInfo_frame hround
  have hblocks : ∀ c, c ∈ (withChild s.context.committee s.gcRound block block.ancestors
      (s.insertRecent block).recentBlocks).map (·.block) ↔
      c = block ∨ c ∈ s.recentBlocks.map (·.block) := by
    intro c
    rw [withChild_blocks, mem_insertRecent_blocks]
  have hC : ChildrenExact s₃ :=
    hE.toChildrenExact.accept hnew hparents (by rw [hframe]) (by rw [hframe]; rfl)
      (by rw [hframe]; rfl)
  have hR : RoundsExact s₃ := hE.toRoundsExact.accept hblocks (by rfl) (by rfl) (by rfl) hround
  -- the accounting does not read the highest accepted round
  exact ⟨⟨hC.parent_mem, hC.children_eq, hC.childrenStake_tallies⟩,
    ⟨hR.consecutive, hR.roundInfo_complete, hR.blocks_eq, hR.totalStake_tallies⟩⟩

/-- `accept_block` refuses a known block before the metadata is touched. -/
theorem MetadataExact.acceptBlock (hE : MetadataExact s)
    (hv3 : s.context.protocolConfig.enableV3 = true) {s' : DagState}
    (h : s.acceptBlock block = some s') : MetadataExact s' := by
  unfold DagState.acceptBlock at h
  split_ifs at h with hgen hcontains hown
  · cases h
    exact hE
  · refine hE.updateBlockMetadata hv3 (fun j hj href => hcontains ?_) h
    exact List.any_eq_true.mpr
      ⟨j.block, mem_blocks.mpr (.inr (List.mem_map_of_mem hj)), decide_eq_true href⟩

end Accept

/-! ### Commits and flushes -/

/-- The accounting only reads the accepted blocks, the round infos, the GC
round and the committee; a higher GC round asks for less. -/
theorem MetadataExact.of_gcRound_le (hE : MetadataExact s) {t : DagState}
    (hrecent : t.recentBlocks = s.recentBlocks) (hroundInfo : t.roundInfo = s.roundInfo)
    (hcommittee : t.context.committee = s.context.committee) (hgc : s.gcRound ≤ t.gcRound) :
    MetadataExact t := by
  have hsame : ∀ c, c ∈ s.recentBlocks.map (·.block) ↔ c ∈ t.recentBlocks.map (·.block) := by
    intro c
    rw [hrecent]
  refine ⟨⟨fun b hb a ha hab hga => ?_, fun i hi hgi => ?_, fun i hi hgi => ?_⟩,
    ⟨?_, fun b hb hgb => ?_, fun info hinfo hgi => ?_, fun info hinfo hgi => ?_⟩⟩
  · rw [hrecent] at hb ⊢
    exact hE.parent_mem b hb a ha hab (by omega)
  · rw [hrecent] at hi
    rw [hE.children_eq i hi (by omega), childRefs_congr hsame]
  · rw [hrecent] at hi
    rw [hcommittee]
    exact hE.childrenStake_tallies i hi (by omega)
  · rw [hroundInfo]
    exact hE.consecutive
  · rw [hrecent] at hb
    rw [hroundInfo]
    exact hE.roundInfo_complete b hb (by omega)
  · rw [hroundInfo] at hinfo
    rw [hE.blocks_eq info hinfo (by omega), roundRefs_congr hsame]
  · rw [hroundInfo] at hinfo
    rw [hcommittee]
    exact hE.totalStake_tallies info hinfo (by omega)

/-- `add_commit` moves nothing but the last commit. -/
theorem addCommit_frame {commit : TrustedCommit} {s' : DagState}
    (h : s.addCommit commit = some s') : s' = s ∨ s' = { s with lastCommit := some commit } := by
  unfold addCommit at h
  split at h
  · split_ifs at h
    · exact .inl (Option.some.inj h).symm
    · exact .inr (Option.some.inj h).symm
  · split_ifs at h
    exact .inr (Option.some.inj h).symm

theorem MetadataExact.addCommit (hE : MetadataExact s) {commit : TrustedCommit} {s' : DagState}
    (hround : s.lastCommitRound ≤ commit.inner.leader.round) (h : s.addCommit commit = some s') :
    MetadataExact s' := by
  rcases addCommit_frame h with rfl | rfl
  · exact hE
  · refine hE.of_gcRound_le rfl rfl rfl ?_
    simp only [gcRound, lastCommitRound] at hround ⊢
    omega

@[simp] theorem flush_gcRound (cachedRounds : ℕ) : (s.flush cachedRounds).gcRound = s.gcRound :=
  rfl

@[simp] theorem flush_context (cachedRounds : ℕ) : (s.flush cachedRounds).context = s.context :=
  rfl

/-- Flushing evicts only blocks at or below the GC round. -/
theorem mem_flush_of_gcRound_lt {cachedRounds : ℕ} {i : BlockInfo} (hi : i ∈ s.recentBlocks)
    (hgc : s.gcRound < i.block.round) : i ∈ (s.flush cachedRounds).recentBlocks := by
  refine List.mem_filter.mpr ⟨hi, ?_⟩
  have hle : s.evictionRound cachedRounds i.block.author ≤ s.gcRound := min_le_left _ _
  simp only [Bool.not_eq_true', Bool.and_eq_false_iff, decide_eq_false_iff_not, not_le]
  exact .inr (by omega)

theorem MetadataExact.flush (hE : MetadataExact s) (cachedRounds : ℕ) :
    MetadataExact (s.flush cachedRounds) := by
  have hsub : ∀ c ∈ (s.flush cachedRounds).recentBlocks.map (·.block),
      c ∈ s.recentBlocks.map (·.block) := by
    intro c hc
    obtain ⟨i, hi, rfl⟩ := List.mem_map.mp hc
    exact List.mem_map_of_mem (List.mem_filter.mp hi).1
  have hkeep : ∀ c ∈ s.recentBlocks.map (·.block), s.gcRound < c.round →
      c ∈ (s.flush cachedRounds).recentBlocks.map (·.block) := by
    intro c hc hgc
    obtain ⟨i, hi, rfl⟩ := List.mem_map.mp hc
    exact List.mem_map_of_mem (mem_flush_of_gcRound_lt hi hgc)
  -- the blocks the accounting reads lie above the GC round, and stay
  have hchild : ∀ b : Block, s.gcRound < b.round →
      (s.flush cachedRounds).childRefs b = s.childRefs b := by
    intro b hgb
    ext r
    simp only [mem_childRefs]
    constructor
    · rintro ⟨c, hc, hcr, hca, rfl⟩
      exact ⟨c, hsub c hc, hcr, hca, rfl⟩
    · rintro ⟨c, hc, hcr, hca, rfl⟩
      exact ⟨c, hkeep c hc (by omega), hcr, hca, rfl⟩
  have hround : ∀ round, s.gcRound < round →
      (s.flush cachedRounds).roundRefs round = s.roundRefs round := by
    intro round hgr
    ext r
    simp only [mem_roundRefs]
    constructor
    · rintro ⟨c, hc, hcr, rfl⟩
      exact ⟨c, hsub c hc, hcr, rfl⟩
    · rintro ⟨c, hc, hcr, rfl⟩
      exact ⟨c, hkeep c hc (by omega), hcr, rfl⟩
  obtain ⟨r₀, hcons⟩ := hE.consecutive
  refine ⟨⟨fun b hb a ha hab hga => ?_, fun i hi hgi => ?_, fun i hi hgi => ?_⟩,
    ⟨hcons.dropWhile _, fun b hb hgb => ?_, fun info hinfo hgi => ?_, fun info hinfo hgi => ?_⟩⟩
  · obtain ⟨c, hc, rfl⟩ := hE.parent_mem b (hsub b hb) a ha hab hga
    exact ⟨c, hkeep c hc hga, rfl⟩
  · rw [hchild i.block hgi]
    exact hE.children_eq i (List.mem_filter.mp hi).1 hgi
  · exact hE.childrenStake_tallies i (List.mem_filter.mp hi).1 hgi
  · obtain ⟨info, hinfo, hir⟩ := hE.roundInfo_complete b (hsub b hb) hgb
    refine ⟨info, RoundInfo.mem_dropWhile_of_not hinfo ?_, hir⟩
    simpa [hir] using hgb
  · have hin := List.dropWhile_subset _ hinfo
    rw [hround info.round hgi]
    exact hE.blocks_eq info hin hgi
  · exact hE.totalStake_tallies info (List.dropWhile_subset _ hinfo) hgi

/-! ### Every reachable state -/

theorem updateBlockMetadata_context {block : Block} {s' : DagState}
    (h : s.updateBlockMetadata block = some s') : s'.context = s.context := by
  unfold updateBlockMetadata at h
  dsimp only at h
  split at h
  · obtain ⟨s₂, hfold, h⟩ := Option.bind_eq_some_iff.mp h
    obtain ⟨-, rfl⟩ := foldlM_addChild block block.ancestors _ s₂ hfold
    obtain ⟨s₃, hround, h⟩ := Option.bind_eq_some_iff.mp h
    rw [← Option.some.inj h, updateRoundInfo_frame hround]
    rfl
  · rw [← Option.some.inj h]
    rfl

theorem Step.context_eq {s' : DagState} (h : Step s s') : s'.context = s.context := by
  cases h with
  | acceptBlock h =>
    unfold DagState.acceptBlock at h
    split_ifs at h
    · cases h
      rfl
    · exact updateBlockMetadata_context h
  | addCommit _ h =>
    rcases addCommit_frame h with rfl | rfl <;> rfl
  | flush cachedRounds => rfl

/-- **Every step keeps the accounting exact** under v3. -/
theorem MetadataExact.step (hE : MetadataExact s) (hv3 : s.context.protocolConfig.enableV3 = true)
    {s' : DagState} (h : Step s s') : MetadataExact s' := by
  cases h with
  | acceptBlock h => exact hE.acceptBlock hv3 h
  | addCommit hround h => exact hE.addCommit hround h
  | flush cachedRounds => exact hE.flush cachedRounds

/-- Accepting a list of blocks one after another is a run of steps. -/
theorem reflTransGen_of_foldlM_acceptBlock {blocks : List Block} {s' : DagState}
    (h : blocks.foldlM acceptBlock s = some s') : Relation.ReflTransGen Step s s' := by
  induction blocks generalizing s with
  | nil => cases h; exact .refl
  | cons block blocks ih =>
    obtain ⟨t, ht, h⟩ := Option.bind_eq_some_iff.mp h
    exact .head (.acceptBlock ht) (ih h)

/-- **The accounting is exact in every state reached from an empty one**
under v3. -/
theorem metadataExact_of_reachable {context : Context} {genesis : List Block}
    (hv3 : context.protocolConfig.enableV3 = true)
    (h : Relation.ReflTransGen Step (new context genesis) s) :
    MetadataExact s ∧ s.context = context := by
  induction h with
  | refl => exact ⟨metadataExact_new context genesis, rfl⟩
  | tail _ hstep ih =>
    obtain ⟨hE, hcontext⟩ := ih
    exact ⟨hE.step (hcontext ▸ hv3) hstep, hstep.context_eq.trans hcontext⟩

end DagState

end Sui
