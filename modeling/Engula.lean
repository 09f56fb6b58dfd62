import Engula.Bytes
import Engula.Router.State
import Engula.Router.Ownership
import Engula.Router.Leader
import Engula.Router.Watch
import Engula.Router.Names
import Engula.Router.CoShards
import Engula.Router.FindShard
import Engula.Sst.Block
import Engula.Sst.ReferenceFormat
import Engula.Sst.Builder
import Engula.Sst.Reader
import Engula.Sst.RoundTrip
import Engula.Sst.Layout
import Engula.Journal.Quorum
import Engula.Engine.KeySpace
import Engula.Engine.Capacity
import Engula.Engine.Refinement
import Engula.Luna.Codec
import Engula.Engine.RandomObjects
import Engula.Allocator.Balance
import Engula.Allocator.LeaderCount
import Engula.Migrate.Gc
import Engula.Node.Retry
import Engula.Allocator.Choice
