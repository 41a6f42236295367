import Sui.Consensus.Block

/-!
# Leader decisions and commits (`commit.rs`)

The commit rules decide leader slots one at a time. A slot's status is
`Commit` of one of its blocks, `Skip`, or `Undecided`; a decided status turns
into a `DecidedLeader` carrying whether the decision was direct. Once
decided, a committed leader is expanded into a `Commit` by the linearizer.

`DecidedLeader.outcome` forgets the direct/indirect flag: two validators may
reach the same decision by different rules, and the safety of the commit
sequence is a statement about outcomes.
-/

namespace Sui

/-- `DEFAULT_WAVE_LENGTH`: a leader round, a voting round and a decision
round. -/
def defaultWaveLength : ℕ := 3

/-- `CommitV1`: a commit of the leader sequence. -/
structure Commit where
  /-- position in the commit sequence, from 1 -/
  index : ℕ
  /-- digest of the previous commit -/
  previousDigest : ℕ
  /-- commit timestamp -/
  timestampMs : ℕ
  /-- the committed leader -/
  leader : BlockRef
  /-- the committed blocks, in commit order -/
  blocks : List BlockRef
  deriving DecidableEq, Repr

/-- `TrustedCommit`: a commit with its cached digest. -/
structure TrustedCommit where
  /-- the commit -/
  inner : Commit
  /-- digest of the serialized commit -/
  digest : ℕ
  deriving DecidableEq, Repr

/-- `Decision`: which rule decided a leader. -/
inductive Decision
  | direct
  | indirect
  /-- a commit-certified leader: no decision was made locally -/
  | certified
  deriving DecidableEq, Repr

/-- `LeaderStatus`: the status of a leader slot. -/
inductive LeaderStatus
  | commit (block : Block)
  | skip (slot : Slot)
  | undecided (slot : Slot)
  deriving DecidableEq, Repr

/-- `DecidedLeader`: a decided slot; a commit records whether it was direct. -/
inductive DecidedLeader
  | commit (block : Block) (direct : Bool)
  | skip (slot : Slot)
  deriving DecidableEq, Repr

namespace LeaderStatus

/-- `LeaderStatus::round`. -/
def round : LeaderStatus → ℕ
  | commit block => block.round
  | skip leader => leader.round
  | undecided leader => leader.round

/-- `LeaderStatus::is_decided`. -/
def isDecided : LeaderStatus → Bool
  | commit _ => true
  | skip _ => true
  | undecided _ => false

/-- `LeaderStatus::into_decided_leader`. -/
def intoDecidedLeader : LeaderStatus → Bool → Option DecidedLeader
  | commit block, direct => some (.commit block direct)
  | skip slot, _ => some (.skip slot)
  | undecided _, _ => none

@[simp] theorem isDecided_undecided (s : Slot) : (undecided s).isDecided = false := rfl

theorem isDecided_eq_false {st : LeaderStatus} (h : st.isDecided = false) :
    ∃ s, st = undecided s := by
  cases st with
  | commit b => cases h
  | skip s => cases h
  | undecided s => exact ⟨s, rfl⟩

theorem intoDecidedLeader_isSome {st : LeaderStatus} {direct : Bool} :
    (st.intoDecidedLeader direct).isSome = st.isDecided := by
  cases st <;> rfl

end LeaderStatus

namespace DecidedLeader

/-- `DecidedLeader::slot`. -/
def slot : DecidedLeader → Slot
  | commit block _ => block.slot
  | skip slot => slot

/-- The decision without the direct/indirect flag: the block committed, or
the slot skipped. -/
def outcome : DecidedLeader → Block ⊕ Slot
  | commit block _ => .inl block
  | skip slot => .inr slot

end DecidedLeader

end Sui
