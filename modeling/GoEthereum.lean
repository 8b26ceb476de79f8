import GoEthereum.Abi.Integers
import GoEthereum.Abi.Survive
import GoEthereum.Clique.Votes
import GoEthereum.Consensus.Fees
import GoEthereum.Core.WithoutHead
import GoEthereum.Filtermaps.RenderedRange
import GoEthereum.Pathdb.FlatState
import GoEthereum.Rawdb.FreezerLimits
import GoEthereum.Rlp.Accounting
import GoEthereum.Rlp.Buffer
import GoEthereum.Rlp.Split
import GoEthereum.State.CodeRevert
import GoEthereum.Trie.Blobs
import GoEthereum.Trie.Failure
import GoEthereum.Trie.RangeComplete
import GoEthereum.Types.Hashing
import GoEthereum.Types.Sender
import GoEthereum.Vm.Refund
