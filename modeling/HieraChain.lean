import HieraChain.PBFTMessageCodec
import HieraChain.PBFTPacketCodec
import HieraChain.PBFTInvariants
import HieraChain.PBFTPrepareLock
import HieraChain.PBFTCheckBlock
import HieraChain.PBFTCommitCertificate
import HieraChain.PBFTViewChange
import HieraChain.PBFTBlockBinding
import HieraChain.PBFTAgreement
import HieraChain.PBFTVoteCount
import HieraChain.PBFTVoteOrder
import HieraChain.MissedTxsExchange
import HieraChain.MissedTxs
import HieraChain.UnstableSort
import HieraChain.TableHash
import HieraChain.StateHash
import HieraChain.Savepoint
import HieraChain.ReadYourWrites
import HieraChain.TxDAG
import HieraChain.P2PMessageRC2
import HieraChain.WorkingSealerManager
import HieraChain.PoolNonces
import HieraChain.RoleSeparation
import HieraChain.CommitteeDecisions
import HieraChain.BinLogRecovery
import HieraChain.BinLogDamage
import HieraChain.ChannelSession
import HieraChain.NonceWindow
import HieraChain.TreeBroadcast
import HieraChain.DagTransfer
import HieraChain.RotatingAgreement
import HieraChain.MerkleProofs
import HieraChain.ABICodec
import HieraChain.LinearCommit
import HieraChain.ContractManagers
import HieraChain.StateMigration
import HieraChain.EventPush
import HieraChain.SessionStream
import HieraChain.ResponseCallbacks
import HieraChain.VRFRotation
import HieraChain.AccountSavepoints
import HieraChain.ExecutiveAtomicity
import HieraChain.CachedStorageSync
import HieraChain.PBFTFastViewChange
import HieraChain.HieraShardTreeCrossLayer
import HieraChain.DownloadingBlockQueue
import HieraChain.TreeTopologyBounds
import HieraChain.SyncTreeTopology
import HieraChain.BlockHeaderHash
import HieraChain.MPTStateRollback
import HieraChain.ScalableStorageArchive
import HieraChain.Int64
import HieraChain.RspBlockReq
import HieraChain.BlockRequests
import HieraChain.BlockServing
import HieraChain.BlockingTxQueue
import HieraChain.CompressedSplit
import HieraChain.EntrySharing
import HieraChain.RLPAccess
import HieraChain.RLPTree
import HieraChain.RPBFTReqCache
import HieraChain.ReadWriteSetIntake
import HieraChain.DownloadDrain
import HieraChain.ABIParser
import HieraChain.ABISignature
import HieraChain.Median
import HieraChain.NodeTimeMaintenance
import HieraChain.RateLimiter
import HieraChain.WireNumbers
import HieraChain.DagTransferBalances
import HieraChain.ExecutiveGas
import HieraChain.ParallelExecution
