import Sui.Consensus.Committee

/-!
# Per-epoch context (`context.rs`, `consensus_protocol_config.rs`)

The configuration every consensus component reads: the committee, this
authority's index, and the protocol parameters the modelled code consults.
Metrics and the clock are not modelled.
-/

namespace Sui

/-- The protocol parameters of `ConsensusProtocolConfig` the model reads. -/
structure ProtocolConfig where
  /-- `gc_depth` -/
  gcDepth : ℕ
  /-- `num_leaders_per_round` -/
  numLeadersPerRound : Option ℕ
  /-- `bad_nodes_stake_threshold` -/
  badNodesStakeThreshold : ℕ
  /-- raw `leader_schedule_window_size` -/
  rawLeaderScheduleWindowSize : ℕ
  /-- raw `leader_schedule_update_interval` -/
  rawLeaderScheduleUpdateInterval : ℕ
  /-- `enable_v3` -/
  enableV3 : Bool
  /-- `max_transaction_size_bytes`, no limit when zero -/
  maxTransactionSizeBytes : ℕ
  /-- `max_num_transactions_in_block`, no limit when zero -/
  maxNumTransactionsInBlock : ℕ
  /-- `max_transactions_in_block_bytes`, no limit when zero -/
  maxTransactionsInBlockBytes : ℕ
  deriving DecidableEq, Repr

namespace ProtocolConfig

/-- `leader_schedule_window_size`, clamped to at least one. -/
def leaderScheduleWindowSize (p : ProtocolConfig) : ℕ := max p.rawLeaderScheduleWindowSize 1

/-- `leader_schedule_update_interval`, clamped to at least one. -/
def leaderScheduleUpdateInterval (p : ProtocolConfig) : ℕ :=
  max p.rawLeaderScheduleUpdateInterval 1

end ProtocolConfig

/-- `Context`. -/
structure Context where
  /-- timestamp of the start of the epoch -/
  epochStartTimestampMs : ℕ
  /-- index of this authority in the committee -/
  ownIndex : ℕ
  /-- committee of the epoch -/
  committee : Committee
  /-- protocol configuration of the epoch -/
  protocolConfig : ProtocolConfig
  deriving DecidableEq, Repr

end Sui
