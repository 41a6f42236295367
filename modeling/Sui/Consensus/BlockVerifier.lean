import Sui.Consensus.Context
import Sui.Consensus.Block

/-!
# Block verification (`block_verifier.rs`)

`SignedBlockVerifier::verify_block` is the gate every block from the network
passes before it enters the DAG. It checks, in this order and returning the
first error:

* the epoch, that the block is not a genesis block, and the author index;
* the signature — external cryptography, a parameter here;
* the ancestors: not more than the committee, not none, and then one pass over
  them checking each index, the position of the own ancestor, the round, the
  genesis ancestors and duplicate authors, while summing the stake of the
  parents at the previous round;
* that the parents reach a quorum;
* the transaction limits (`check_transactions`).

`ValidBlock` says what the structural checks establish, as a statement about
the block; `verifyBlock_eq_ok` proves that `verify_block` accepts exactly the
structurally valid blocks whose signature and transactions pass. The commit
rules rely on three of its consequences: ancestors of lower rounds, distinct
ancestor authors, and parents of a quorum of distinct authors
(`ValidBlock.quorum_le_weight_parentAuthors`).
-/

namespace Sui

/-- The `ConsensusError`s `verify_block` itself returns. -/
inductive ConsensusError
  | wrongEpoch (expected actual : ℕ)
  | unexpectedGenesisBlock
  | invalidAuthorityIndex (index max : ℕ)
  | tooManyAncestors (count size : ℕ)
  | insufficientParentStakes (parentStakes quorum : ℕ)
  | invalidAncestorPosition (blockAuthority ancestorAuthority position : ℕ)
  | invalidAncestorRound (ancestor block : ℕ)
  | invalidGenesisAncestor (ancestor : BlockRef)
  | duplicatedAncestorsAuthority (authority : ℕ)
  | transactionTooLarge (size limit : ℕ)
  | tooManyTransactions (count limit : ℕ)
  | tooManyTransactionBytes (size limit : ℕ)
  /-- an error of the signature check, external to the model -/
  | signatureVerificationFailure
  deriving DecidableEq, Repr

/-- `SignedBlockVerifier`: the context and the references of the genesis
blocks. The transaction verifier is only used after `verify_block`. -/
structure SignedBlockVerifier where
  /-- the per-epoch context -/
  context : Context
  /-- references of the genesis blocks of the epoch -/
  genesis : List BlockRef

namespace SignedBlockVerifier

variable (v : SignedBlockVerifier)

/-- The pass over the ancestors of `verify_block`, from position `i` with the
authors `seen` so far and the parent stake accumulated so far; it returns the
total parent stake. -/
def verifyAncestors (block : Block) : ℕ → Finset ℕ → ℕ → List BlockRef → Except ConsensusError ℕ
  | _, _, parentStakes, [] => .ok parentStakes
  | i, seen, parentStakes, ancestor :: rest =>
    let committee := v.context.committee
    if ¬ committee.isValidIndex ancestor.author then
      .error (.invalidAuthorityIndex ancestor.author (committee.size - 1))
    else if (i = 0 ∧ ancestor.author ≠ block.author) ∨ (0 < i ∧ ancestor.author = block.author) then
      .error (.invalidAncestorPosition block.author ancestor.author i)
    else if block.round ≤ ancestor.round then
      .error (.invalidAncestorRound ancestor.round block.round)
    else if ancestor.round = genesisRound ∧ ancestor ∉ v.genesis then
      .error (.invalidGenesisAncestor ancestor)
    else if ancestor.author ∈ seen then
      .error (.duplicatedAncestorsAuthority ancestor.author)
    else
      -- the block's round is at least one here, so `checked_sub(1)` succeeds
      let parentStakes :=
        if ancestor.round = block.round - 1 then parentStakes + committee.stake ancestor.author
        else parentStakes
      verifyAncestors block (i + 1) (insert ancestor.author seen) parentStakes rest

/-- `SignedBlockVerifier::check_transactions`, on the transaction sizes. A
limit of zero means no limit. -/
def checkTransactions (batch : List ℕ) : Except ConsensusError Unit :=
  let maxTransactionSizeLimit := v.context.protocolConfig.maxTransactionSizeBytes
  match batch.find? (fun t => maxTransactionSizeLimit < t ∧ 0 < maxTransactionSizeLimit) with
  | some t => .error (.transactionTooLarge t maxTransactionSizeLimit)
  | none =>
    let maxNumTransactionsLimit := v.context.protocolConfig.maxNumTransactionsInBlock
    if maxNumTransactionsLimit < batch.length ∧ 0 < maxNumTransactionsLimit then
      .error (.tooManyTransactions batch.length maxNumTransactionsLimit)
    else
      let totalTransactionsSizeLimit := v.context.protocolConfig.maxTransactionsInBlockBytes
      if totalTransactionsSizeLimit < batch.sum ∧ 0 < totalTransactionsSizeLimit then
        -- the source reports the number of transactions as the size
        .error (.tooManyTransactionBytes batch.length totalTransactionsSizeLimit)
      else .ok ()

/-- `SignedBlockVerifier::verify_block`, with the external signature check
`verifySignature`. -/
def verifyBlock (verifySignature : Block → Except ConsensusError Unit) (block : Block) :
    Except ConsensusError Unit :=
  let committee := v.context.committee
  if block.epoch ≠ committee.epoch then .error (.wrongEpoch committee.epoch block.epoch)
  else if block.round = 0 then .error .unexpectedGenesisBlock
  else if ¬ committee.isValidIndex block.author then
    .error (.invalidAuthorityIndex block.author (committee.size - 1))
  else
    match verifySignature block with
    | .error e => .error e
    | .ok () =>
      if committee.size < block.ancestors.length then
        .error (.tooManyAncestors block.ancestors.length committee.size)
      else if block.ancestors.isEmpty then
        .error (.insufficientParentStakes 0 committee.quorumThreshold)
      else
        match v.verifyAncestors block 0 ∅ 0 block.ancestors with
        | .error e => .error e
        | .ok parentStakes =>
          if ¬ committee.reachedQuorum parentStakes then
            .error (.insufficientParentStakes parentStakes committee.quorumThreshold)
          else v.checkTransactions block.transactions

end SignedBlockVerifier

/-! ## What the structural checks establish -/

/-- The stake of the ancestors at the round before the block's, as the
verifier sums it. -/
def Block.parentStakes (committee : Committee) (block : Block) : ℕ :=
  ((block.ancestors.filter (·.round = block.round - 1)).map (committee.stake ·.author)).sum

/-- The authors of the ancestors at the round before the block's. -/
def Block.parentAuthors (block : Block) : Finset ℕ :=
  ((block.ancestors.filter (·.round = block.round - 1)).map (·.author)).toFinset

theorem Block.mem_parentAuthors {block : Block} {x : ℕ} :
    x ∈ block.parentAuthors ↔ ∃ a ∈ block.ancestors, a.round = block.round - 1 ∧ a.author = x := by
  simp [Block.parentAuthors, and_assoc]

/-- A block that passes every structural check of `verify_block`. -/
structure ValidBlock (committee : Committee) (genesis : List BlockRef) (block : Block) : Prop where
  epoch_eq : block.epoch = committee.epoch
  round_pos : 0 < block.round
  author_lt : block.author < committee.size
  length_le : block.ancestors.length ≤ committee.size
  ancestors_ne_nil : block.ancestors ≠ []
  ancestor_author_lt : ∀ a ∈ block.ancestors, a.author < committee.size
  /-- the own previous block comes first, and only there -/
  ancestor_position : ∀ (i : ℕ) (a : BlockRef), block.ancestors[i]? = some a →
    (a.author = block.author ↔ i = 0)
  ancestor_round_lt : ∀ a ∈ block.ancestors, a.round < block.round
  genesis_ancestor : ∀ a ∈ block.ancestors, a.round = genesisRound → a ∈ genesis
  authors_nodup : (block.ancestors.map (·.author)).Nodup
  parent_quorum : committee.quorumThreshold ≤ block.parentStakes committee

/-! ## The ancestor pass -/

namespace SignedBlockVerifier

variable {v : SignedBlockVerifier} {block : Block}

/-- What the ancestor pass checks of one ancestor at position `i`, the authors
`seen` before it. -/
def AncestorChecks (v : SignedBlockVerifier) (block : Block) (i : ℕ) (seen : Finset ℕ)
    (a : BlockRef) : Prop :=
  a.author < v.context.committee.size ∧ (a.author = block.author ↔ i = 0) ∧
    a.round < block.round ∧ (a.round = genesisRound → a ∈ v.genesis) ∧ a.author ∉ seen

/-- What the ancestor pass checks of the ancestors from position `i` on. -/
def AncestorsOk (v : SignedBlockVerifier) (block : Block) (i : ℕ) (seen : Finset ℕ)
    (l : List BlockRef) : Prop :=
  (∀ (k : ℕ) (a : BlockRef), l[k]? = some a →
    a.author < v.context.committee.size ∧ (a.author = block.author ↔ i + k = 0) ∧
      a.round < block.round ∧ (a.round = genesisRound → a ∈ v.genesis)) ∧
  (∀ a ∈ l, a.author ∉ seen) ∧ (l.map (·.author)).Nodup

/-- The parent stake summed over a list of ancestors. -/
def parentSum (committee : Committee) (block : Block) (l : List BlockRef) : ℕ :=
  ((l.filter (·.round = block.round - 1)).map (committee.stake ·.author)).sum

theorem ancestorsOk_nil {i : ℕ} {seen : Finset ℕ} : AncestorsOk v block i seen [] := by
  simp [AncestorsOk]

theorem ancestorsOk_cons {i : ℕ} {seen : Finset ℕ} {a : BlockRef} {l : List BlockRef} :
    AncestorsOk v block i seen (a :: l) ↔
      AncestorChecks v block i seen a ∧ AncestorsOk v block (i + 1) (insert a.author seen) l := by
  unfold AncestorsOk AncestorChecks
  rw [List.map_cons, List.nodup_cons]
  constructor
  · rintro ⟨hall, hseen, hnotin, hnodup⟩
    obtain ⟨h1, h2, h3, h4⟩ := hall 0 a rfl
    refine ⟨⟨h1, by simpa using h2, h3, h4, hseen a List.mem_cons_self⟩, ?_, ?_, hnodup⟩
    · intro k b hb
      obtain ⟨g1, g2, g3, g4⟩ := hall (k + 1) b (by simpa using hb)
      exact ⟨g1, by rw [g2]; omega, g3, g4⟩
    · intro b hb
      rw [Finset.mem_insert, not_or]
      exact ⟨fun heq => hnotin (List.mem_map.mpr ⟨b, hb, heq⟩),
        hseen b (List.mem_cons_of_mem _ hb)⟩
  · rintro ⟨⟨h1, h2, h3, h4, h5⟩, hall, hseen, hnodup⟩
    refine ⟨?_, ?_, ?_, hnodup⟩
    · intro k b hb
      cases k with
      | zero =>
        obtain rfl : a = b := by simpa using hb
        exact ⟨h1, by simpa using h2, h3, h4⟩
      | succ k =>
        obtain ⟨g1, g2, g3, g4⟩ := hall k b (by simpa using hb)
        exact ⟨g1, by rw [g2]; omega, g3, g4⟩
    · intro b hb
      rcases List.mem_cons.mp hb with rfl | hb
      · exact h5
      · exact fun hs => hseen b hb (Finset.mem_insert_of_mem hs)
    · intro hmem
      obtain ⟨b, hb, hba⟩ := List.mem_map.mp hmem
      exact hseen b hb (hba ▸ Finset.mem_insert_self _ _)

@[simp] theorem parentSum_nil {c : Committee} : parentSum c block [] = 0 := rfl

theorem parentSum_cons {c : Committee} {a : BlockRef} {l : List BlockRef} :
    parentSum c block (a :: l) =
      (if a.round = block.round - 1 then c.stake a.author else 0) + parentSum c block l := by
  unfold parentSum
  rw [List.filter_cons]
  split <;> simp_all

/-- Past the checks of its head, the pass goes on with the rest, the head's
stake added when it is a parent. -/
theorem verifyAncestors_cons_of_checks {i : ℕ} {seen : Finset ℕ} {acc : ℕ} {a : BlockRef}
    {l : List BlockRef} (h : AncestorChecks v block i seen a) :
    v.verifyAncestors block i seen acc (a :: l) =
      v.verifyAncestors block (i + 1) (insert a.author seen)
        (acc + if a.round = block.round - 1 then v.context.committee.stake a.author else 0) l := by
  obtain ⟨h1, h2, h3, h4, h5⟩ := h
  simp only [verifyAncestors, Committee.isValidIndex, decide_eq_true_eq]
  rw [if_neg (not_not.mpr h1), if_neg (by omega), if_neg (by omega),
    if_neg (fun h => h.2 (h4 h.1)), if_neg h5]
  split <;> simp

/-- A head that fails a check stops the pass with an error. -/
theorem verifyAncestors_cons_error {i : ℕ} {seen : Finset ℕ} {a : BlockRef}
    (h : ¬ AncestorChecks v block i seen a) (acc : ℕ) (l : List BlockRef) :
    ∃ e, v.verifyAncestors block i seen acc (a :: l) = .error e := by
  simp only [verifyAncestors, Committee.isValidIndex, decide_eq_true_eq]
  -- the checks in the order the pass makes them, each an error when it fails
  by_cases h1 : a.author < v.context.committee.size
  case neg => exact ⟨_, if_pos h1⟩
  rw [if_neg (not_not.mpr h1)]
  by_cases h2 : (i = 0 ∧ a.author ≠ block.author) ∨ (0 < i ∧ a.author = block.author)
  case pos => exact ⟨_, if_pos h2⟩
  rw [if_neg h2]
  by_cases h3 : block.round ≤ a.round
  case pos => exact ⟨_, if_pos h3⟩
  rw [if_neg h3]
  by_cases h4 : a.round = genesisRound ∧ a ∉ v.genesis
  case pos => exact ⟨_, if_pos h4⟩
  rw [if_neg h4]
  by_cases h5 : a.author ∈ seen
  case pos => exact ⟨_, if_pos h5⟩
  -- every check passed, against the hypothesis
  exact absurd ⟨h1, by omega, by omega, fun hg => of_not_not fun hn => h4 ⟨hg, hn⟩, h5⟩ h

/-- **The ancestor pass accepts exactly the well-placed ancestors**, and then
returns the parent stake. -/
theorem verifyAncestors_eq_ok : ∀ (l : List BlockRef) (i : ℕ) (seen : Finset ℕ) (acc r : ℕ),
    v.verifyAncestors block i seen acc l = .ok r ↔
      AncestorsOk v block i seen l ∧ r = acc + parentSum v.context.committee block l := by
  intro l
  induction l with
  | nil =>
    intro i seen acc r
    simp [verifyAncestors, ancestorsOk_nil, eq_comm]
  | cons a l ih =>
    intro i seen acc r
    rw [ancestorsOk_cons, parentSum_cons]
    by_cases hc : AncestorChecks v block i seen a
    case pos =>
      rw [verifyAncestors_cons_of_checks hc, ih]
      simp only [hc, true_and, Nat.add_assoc]
    case neg =>
      obtain ⟨e, he⟩ := verifyAncestors_cons_error hc acc l
      simp [he, hc]

/-- `ValidBlock` in the terms of the checks: the header checks, the ancestor
pass from position zero and the quorum. -/
theorem validBlock_iff : ValidBlock v.context.committee v.genesis block ↔
    block.epoch = v.context.committee.epoch ∧ block.round ≠ 0 ∧
      block.author < v.context.committee.size ∧
      block.ancestors.length ≤ v.context.committee.size ∧ block.ancestors ≠ [] ∧
      AncestorsOk v block 0 ∅ block.ancestors ∧
      v.context.committee.quorumThreshold ≤ parentSum v.context.committee block block.ancestors := by
  constructor
  · intro hv
    refine ⟨hv.epoch_eq, by have := hv.round_pos; omega, hv.author_lt, hv.length_le,
      hv.ancestors_ne_nil, ⟨?_, by simp, hv.authors_nodup⟩, hv.parent_quorum⟩
    intro k a ha
    have hmem : a ∈ block.ancestors := List.mem_of_getElem? ha
    exact ⟨hv.ancestor_author_lt a hmem, by simpa using hv.ancestor_position k a ha,
      hv.ancestor_round_lt a hmem, hv.genesis_ancestor a hmem⟩
  · rintro ⟨h1, h2, h3, h4, h5, ⟨hall, -, hnodup⟩, h7⟩
    -- every ancestor sits at some position, where the pass checked it
    have hat : ∀ a ∈ block.ancestors, ∃ k, block.ancestors[k]? = some a := fun a ha => by
      obtain ⟨k, hk, rfl⟩ := List.getElem_of_mem ha
      exact ⟨k, List.getElem?_eq_getElem hk⟩
    refine ⟨h1, by omega, h3, h4, h5, ?_, ?_, ?_, ?_, hnodup, h7⟩
    · intro a ha
      obtain ⟨k, hk⟩ := hat a ha
      exact (hall k a hk).1
    · intro k a ha
      simpa using (hall k a ha).2.1
    · intro a ha
      obtain ⟨k, hk⟩ := hat a ha
      exact (hall k a hk).2.2.1
    · intro a ha
      obtain ⟨k, hk⟩ := hat a ha
      exact (hall k a hk).2.2.2

/-- **`verify_block` accepts exactly the structurally valid blocks** whose
signature and transactions pass. -/
theorem verifyBlock_eq_ok {verifySignature : Block → Except ConsensusError Unit} :
    v.verifyBlock verifySignature block = .ok () ↔
      ValidBlock v.context.committee v.genesis block ∧ verifySignature block = .ok () ∧
        v.checkTransactions block.transactions = .ok () := by
  rw [validBlock_iff]
  unfold verifyBlock
  simp only [Committee.isValidIndex, Committee.reachedQuorum, decide_eq_true_eq,
    List.isEmpty_iff]
  -- the checks in the order the verifier makes them, each an error when it fails
  by_cases hep : block.epoch = v.context.committee.epoch
  case neg => simp [hep]
  by_cases hr : block.round = 0
  case pos => simp [hep, hr]
  by_cases ha : block.author < v.context.committee.size
  case neg => simp [hep, hr, ha]
  cases hsig : verifySignature block with
  | error e => simp [hep, hr, ha]
  | ok u =>
    by_cases hlen : block.ancestors.length ≤ v.context.committee.size
    case neg => simp [hep, hr, ha, not_le.mp hlen]
    by_cases hemp : block.ancestors = []
    case pos => simp [hep, hr, ha, hemp]
    cases hanc : v.verifyAncestors block 0 ∅ 0 block.ancestors with
    | error e =>
      -- a valid block passes the ancestor pass, so an error here is a rejection
      have hnot : ¬ AncestorsOk v block 0 ∅ block.ancestors := fun hok => by
        have := (verifyAncestors_eq_ok block.ancestors 0 ∅ 0 _).mpr ⟨hok, rfl⟩
        rw [hanc] at this
        cases this
      simp [hep, hr, ha, hlen, not_lt.mpr hlen, hemp, hnot]
    | ok ps =>
      obtain ⟨hok, rfl⟩ := (verifyAncestors_eq_ok block.ancestors 0 ∅ 0 ps).mp hanc
      -- last, the quorum of parent stake
      by_cases hq : v.context.committee.quorumThreshold ≤
          parentSum v.context.committee block block.ancestors
      case pos => simp [hep, hr, ha, hlen, not_lt.mpr hlen, hemp, hok, hq]
      case neg => simp [hep, hr, ha, hlen, not_lt.mpr hlen, hemp, hq]

end SignedBlockVerifier

/-- With distinct ancestor authors the parent stake the verifier sums is the
weight of the set of parent authors. -/
theorem parentStakes_eq_weight {c : Committee} {b : Block} (h : (b.ancestors.map (·.author)).Nodup) :
    b.parentStakes c = c.weight b.parentAuthors := by
  have hnodup : ((b.ancestors.filter (·.round = b.round - 1)).map (·.author)).Nodup :=
    h.sublist (List.filter_sublist.map _)
  rw [Block.parentStakes, Block.parentAuthors, Committee.weight, Quorum.weight,
    List.sum_toFinset _ hnodup, List.map_map]
  rfl

/-- A valid block's parents are authored by a quorum. -/
theorem ValidBlock.quorum_le_weight_parentAuthors {c : Committee} {g : List BlockRef} {b : Block}
    (hv : ValidBlock c g b) : c.quorumThreshold ≤ c.weight b.parentAuthors :=
  parentStakes_eq_weight hv.authors_nodup ▸ hv.parent_quorum

end Sui
