import GhostDag.Cbor.Access
import GhostDag.Consensus.Ancestry
import GhostDag.Consensus.Colours
import GhostDag.Consensus.ForkChoice
import GhostDag.Consensus.Parents
import GhostDag.Consensus.Topological
import GhostDag.Dag.IndexSets
import GhostDag.Framing.Order
import GhostDag.Framing.Withheld
import GhostDag.Graphene.Codec
import GhostDag.Graphene.Fallback
import GhostDag.Graphene.KnownTxs
import GhostDag.Graphene.Mining
import GhostDag.Graphene.PingPong
import GhostDag.Graphene.Pooled
import GhostDag.Graphene.Preconditions
import GhostDag.Graphene.Recovery
import GhostDag.Graphene.Termination
import GhostDag.Network.Completion
import GhostDag.Network.Eviction
import GhostDag.Network.Settled
import GhostDag.Node.Announce
import GhostDag.Node.Bodies
import GhostDag.Node.Eviction
import GhostDag.Node.Requests
import GhostDag.Node.Selection
import GhostDag.Topology.PointToPoint
