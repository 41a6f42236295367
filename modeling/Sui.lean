import Sui.Quorum
import Sui.Worklist
import Sui.Consensus.Types
import Sui.Consensus.Committee
import Sui.Consensus.StakeAggregator
import Sui.Consensus.Block
import Sui.Consensus.Context
import Sui.Consensus.Commit
import Sui.Consensus.ThresholdClock
import Sui.Consensus.BlockVerifier
import Sui.OptionList
import Sui.Consensus.DagState
import Sui.Consensus.BaseCommitter
import Sui.Consensus.CommitSafety
import Sui.Consensus.UniversalCommitter
import Sui.Bfs
import Sui.Consensus.AcceptBlock
import Sui.Consensus.LeaderSlotDecider
import Sui.Dfs
import Sui.Consensus.Linearizer
import Sui.Consensus.PendingCommitState
import Sui.Consensus.FlexCommitter
import Sui.AggregateSignature
import Sui.SortedMap
import Sui.SuiTypes.Error
import Sui.SuiTypes.QuorumSignInfo
import Sui.SuiTypes.MultiSig
import Sui.EpochLog
import Sui.Framework.Config
import Sui.MoveArith
import Sui.ProRata
import Sui.SuiSystem.StakingPool
import Sui.SuiSystem.VotingPower
import Sui.SuiSystem.EpochRewards
import Sui.GreedyBudget
import Sui.Consensus.LeaderSchedule
import Sui.ByteCodec
import Sui.Framework.Bcs
import Sui.MountainRange
import Sui.Framework.EventStream
import Sui.Bridge.Limiter
import Sui.Core.SharedObjectVersions
import Sui.ModBias
import Sui.FisherYates
import Sui.Framework.Random
import Sui.MoveStd.Macros
import Sui.MoveStd.FixedPoint
import Sui.RoundUp
import Sui.SuiTypes.GasV2
import Sui.BinaryHeap
import Sui.Framework.PriorityQueue
import Sui.LinkedKeys
import Sui.Framework.LinkedTable
import Sui.Core.CongestionTracker
import Sui.Consensus.TransactionIntake
import Sui.Core.TransactionDenyConfig
import Sui.WeightedScan
import Sui.Consensus.RoundTracker
import Sui.Consensus.Ancestor
import Sui.Drawdown
import Sui.Framework.Balance
import Sui.SuiSystem.StakeSubsidy
import Sui.SuiSystem.StorageFund
import Sui.SuiSystem.ValidatorSet
import Sui.SuiSystem.SuiSystemState
import Sui.Framework.Table
import Sui.Framework.VecSet
import Sui.Framework.DenyList
import Sui.Framework.DenyListV2
import Sui.Holdings
import Sui.Framework.Coin
import Sui.AssocList
import Sui.Framework.VecMap
import Sui.SuiSystem.ValidatorPositions
import Sui.SuiSystem.MembershipInvariant
