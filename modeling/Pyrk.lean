import Pyrk.MinableBijection
import Pyrk.ListReplay
import Pyrk.BlockIndexRuns
import Pyrk.AddrReload
import Pyrk.SpentIndexUndo
import Pyrk.ChainWork
import Pyrk.BestChain
import Pyrk.ScriptNum
import Pyrk.MoneySupply
import Pyrk.RejectedVotes
import Pyrk.SporkSignatures
import Pyrk.VersionBits
import Pyrk.OrphanVotes
import Pyrk.LockOutcome
import Pyrk.PartialMerkleProof
import Pyrk.MerkleGuard
import Pyrk.SimplifiedDiff
import Pyrk.PoSeBookkeeping
import Pyrk.CollateralViews
import Pyrk.EvoDB
import Pyrk.VoteIndex
import Pyrk.VoteTally
import Pyrk.PoolEvictions
import Pyrk.ChainedUpdates
import Pyrk.CompactRoundTrip
import Pyrk.SmsgRestart
import Pyrk.SmsgExpiry
import Pyrk.PrivateSendBalance
import Pyrk.PrivateSendSignatures
import Pyrk.CoinEncoding
import Pyrk.UndoneCoin
import Pyrk.PoolClear
import Pyrk.PackageScores
import Pyrk.IndexCoding
import Pyrk.SmsgDecrypt
import Pyrk.ChainForks
import Pyrk.BitSets
import Pyrk.VoteFileNodes
import Pyrk.SmsgSend
import Pyrk.SmsgBatch
import Pyrk.AddressTally
import Pyrk.CoinSelection
import Pyrk.VarIntRange
import Pyrk.SuperblockWinner
import Pyrk.LimitedMap
