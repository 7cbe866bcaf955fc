import PlasmaEvm.Merkle.Padded
import PlasmaEvm.Control.Except
import PlasmaEvm.Data.Forall2
import PlasmaEvm.Common.Types
import PlasmaEvm.Core.Types.DeriveSha
import PlasmaEvm.Core.Types.Transaction
import PlasmaEvm.Core.Types.Receipt
import PlasmaEvm.Core.TxList
import PlasmaEvm.Core.TxPool
import PlasmaEvm.Core.TxPoolRequests
import PlasmaEvm.Core.TxPoolStamina
import PlasmaEvm.Tx.Types
import PlasmaEvm.Tx.Manager
import PlasmaEvm.Tx.ManagerQueues
import PlasmaEvm.Tx.ManagerNonces
import PlasmaEvm.Pls.ExitChallenge
import PlasmaEvm.Control.Replay
import PlasmaEvm.Miner.Worker
import PlasmaEvm.Pls.RequestEpoch
import PlasmaEvm.Core.StateProcessor
import PlasmaEvm.Miner.Commit
import PlasmaEvm.Miner.Epoch
import PlasmaEvm.Consensus.Clique.Snapshot
import PlasmaEvm.Consensus.Clique.Votes
import PlasmaEvm.Consensus.Clique.Recents
import PlasmaEvm.Control.UndoLog
import PlasmaEvm.Core.State.StateObject
import PlasmaEvm.Core.State.StateDB
import PlasmaEvm.Core.State.Revert
import PlasmaEvm.Core.ForkChoice
import PlasmaEvm.Data.BigEndian
import PlasmaEvm.Control.EStateM
import PlasmaEvm.Rlp.Types
import PlasmaEvm.Rlp.Encode
import PlasmaEvm.Rlp.Stream
import PlasmaEvm.Rlp.Decode
import PlasmaEvm.Rlp.Header
import PlasmaEvm.Rlp.Canonical
import PlasmaEvm.Data.CommonPrefix
import PlasmaEvm.Trie.Node
import PlasmaEvm.Trie.Ops
import PlasmaEvm.Trie.Hasher
import PlasmaEvm.Core.State.Balance
import PlasmaEvm.Core.StateTransition
import PlasmaEvm.Data.ListFilter
import PlasmaEvm.Miner.Resume
import PlasmaEvm.Pls.EpochPrepared
import PlasmaEvm.Rlp.Raw
import PlasmaEvm.Data.Bitset
import PlasmaEvm.Common.Bitutil
import PlasmaEvm.Common.Hexutil
import PlasmaEvm.Data.Digits
import PlasmaEvm.Core.Vm.Analysis
import PlasmaEvm.Core.Vm.Gas
import PlasmaEvm.Core.TxSortedMap
import PlasmaEvm.Core.Types.TxByPrice
import PlasmaEvm.Miner.Ordering
import PlasmaEvm.Data.Splice
import PlasmaEvm.Rlp.Encbuf
import PlasmaEvm.Trie.Encoding
import PlasmaEvm.Rlp.Output
import PlasmaEvm.Data.TwosComplement
import PlasmaEvm.Common.Math.Big
import PlasmaEvm.Core.Vm.Word
import PlasmaEvm.Core.Vm.Instructions
import PlasmaEvm.Core.State.Committed
import PlasmaEvm.Core.State.Storage
import PlasmaEvm.Core.Vm.GasSStore
import PlasmaEvm.Core.Vm.RefundCounter
import PlasmaEvm.Data.PrefixMap
import PlasmaEvm.Trie.Contents
import PlasmaEvm.Trie.Update
import PlasmaEvm.Trie.Correctness
import PlasmaEvm.Trie.Minimal
import PlasmaEvm.Trie.RootHash
import PlasmaEvm.Rlp.Split
import PlasmaEvm.Trie.Decode
import PlasmaEvm.Trie.Stored
import PlasmaEvm.Data.OptionMap
import PlasmaEvm.Trie.Commit
