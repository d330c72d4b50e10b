import MadNet.Engine.LockDiscipline
import MadNet.Engine.NextHeightUniqueness
import MadNet.Dynamics.History
import MadNet.Application.PoolConsistency
import MadNet.Trie.History
import MadNet.Engine.ValidatorSets
import MadNet.Monitor.Deposits
import MadNet.Bridge.Announcements
import MadNet.Dkg.Correctness
import MadNet.Engine.Thresholds
import MadNet.Consensus.VoteExclusion
import MadNet.Trie.InputSafety
import MadNet.Staking.Solvency
import MadNet.Staking.Rewards
import MadNet.Staking.PoolRuns
import MadNet.Bridge.Slashing
import MadNet.Accusation.MerkleProofLibrary
import MadNet.Bridge.Snapshots
import MadNet.Codec.MerkleProofs
import MadNet.Token.Reentrancy
import MadNet.Trie.BatchCodec
import MadNet.Crypto.Hash
import MadNet.Crypto.HashToG1Asm
import MadNet.Application.DataStores
import MadNet.Monitor.TransactionQueue
import MadNet.Application.InputPairing
import MadNet.Application.HashBinding
import MadNet.Engine.RoundVotes
