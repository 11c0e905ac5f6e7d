import Rollmint.Runtime
import Rollmint.Strconv
import Rollmint.Base64
import Rollmint.Merkle
import Rollmint.Types
import Rollmint.Block.PendingBlocks
import Rollmint.Block.Interleaving
import Rollmint.Block.ConcurrentRemove
import Rollmint.Block.SequentialRuns
import Rollmint.Block.Queue
import Rollmint.DA.NewDA
import Rollmint.Node.PrefixKV
import Rollmint.Node.Genesis
