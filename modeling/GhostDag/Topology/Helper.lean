import GhostDag.Lib.Adjacency

/-!
# GhostDag.Topology.Helper

The connections between the nodes, as the constructor of
`GhostDagTopologyHelper` (`helpers/node-topology-helper.cc`) chooses them: the
miners are drawn and connected with each other, then every node draws peers
from a vector of candidates, which leave the vector when they reach their
maximum.

`m_nodesConnections` is a function, as `operator[]` makes empty entries where
there are none; the loops over the peers leave an entry for every node.  The
results of `rand()` are a sequence, of which `draws` have been used.  A
remainder modulo the size of an empty vector is no result.
-/

namespace GhostDag

/-! ## limits -/

/-- `m_minConnections` and `m_maxConnections`. -/
structure ConnectionLimits where
  minConnections : Nat → Nat
  maxConnections : Nat → Nat
  le : ∀ i, minConnections i ≤ maxConnections i

/-- `10 * m_minConnections[i]`, the bound on the draws of a node, as an `int`. -/
def ConnectionLimits.maxDraws (limits : ConnectionLimits) (i : Nat) : Nat :=
  (Int.bmod (10 * limits.minConnections i) (2 ^ 32)).toNat

/-- What the limits are made from: the limits for all nodes that are no
miners, where both are positive, and the outcomes of the two distributions. -/
structure LimitArgs where
  minConnectionsPerNode : Int
  maxConnectionsPerNode : Int
  le : 0 < minConnectionsPerNode → 0 < maxConnectionsPerNode →
    minConnectionsPerNode ≤ maxConnectionsPerNode
  connectionsDistribution : Nat → Int
  dist : Nat → Nat

namespace LimitArgs

/-- `connectionsDistributionIntervals`, from the second entry on. -/
def intervals : List Int := [4, 8, 12, 16, 25, 119]

/-- `index`: the first interval that ends above the number of connections, `0`
if there is none. -/
def intervalIndex (minConnections : Int) : Nat :=
  match intervals.findIdx? fun bound => minConnections < bound with
  | some k => k + 1
  | none => 0

/-- `minConnections` and `maxConnections` of a node that is no miner. -/
def ofNode (args : LimitArgs) (i : Nat) : Int × Int :=
  if 0 < args.minConnectionsPerNode ∧ 0 < args.maxConnectionsPerNode then
    (args.minConnectionsPerNode, args.maxConnectionsPerNode)
  else
    let minConnections := max 1 (args.connectionsDistribution i)
    (minConnections, minConnections + intervalIndex minConnections)

/-- The limits of a node: the least number is drawn between the two ends, for
a miner they are `700` and `800`. -/
def range (args : LimitArgs) (miners : List Nat) (i : Nat) : Nat × Nat :=
  if i ∈ miners then (700, 800)
  else
    let low := (args.ofNode i).1.toNat
    let high := (args.ofNode i).2.toNat
    (low + args.dist i % (high - low + 1), high)

/-- The bounds of a node are in order. -/
theorem ofNode_le (args : LimitArgs) (i : ℕ) : (args.ofNode i).1 ≤ (args.ofNode i).2 := by
  rw [ofNode]
  split
  · next hpos => exact args.le hpos.1 hpos.2
  · exact Int.le_add_of_nonneg_right (Int.natCast_nonneg _)

theorem range_le (args : LimitArgs) (miners : List ℕ) (i : ℕ) :
    (args.range miners i).1 ≤ (args.range miners i).2 := by
  have hle := Int.toNat_le_toNat (args.ofNode_le i)
  rw [range]
  generalize (args.ofNode i).1.toNat = low at hle ⊢
  generalize (args.ofNode i).2.toNat = high at hle ⊢
  split
  · decide
  · have hlt : args.dist i % (high - low + 1) < high - low + 1 := Nat.mod_lt _ (Nat.succ_pos _)
    dsimp only
    omega

/-- The limits that the constructor gives the nodes. -/
def limits (args : LimitArgs) (miners : List Nat) : ConnectionLimits where
  minConnections i := (args.range miners i).1
  maxConnections i := (args.range miners i).2
  le i := args.range_le miners i

end LimitArgs

/-! ## miners -/

/-- Draw the miners out of `nodes`. -/
def chooseMiners (rand : Nat → Nat) : Nat → List Nat → Nat → Option (List Nat)
  | 0, _, _ => some []
  | noMiners + 1, nodes, draws =>
      if nodes.length = 0 then none
      else do
        let index := rand draws % nodes.length
        let miners ← chooseMiners rand noMiners (nodes.eraseIdx index) (draws + 1)
        return nodes.getD index 0 :: miners

/-- Connect every miner to all others. -/
def interconnect (miners : List Nat) : Nat → List Nat :=
  miners.foldl (fun adj miner => miners.foldl (fun adj peer =>
    if miner ≠ peer then Adjacency.push adj miner peer else adj) adj) fun _ => []

/-! ## peers -/

/-- The state of the peer selection. -/
structure PeerSelection where
  nodes : List Nat
  nodesConnections : Nat → List Nat
  draws : Nat

namespace PeerSelection

/-- Node `i` draws a candidate, and connects to it unless it is `i` itself, a
peer already, or saturated. -/
def draw (limits : ConnectionLimits) (rand : Nat → Nat) (i : Nat) (s : PeerSelection) :
    Option PeerSelection :=
  if s.nodes.length = 0 then none
  else
    let index := rand s.draws % s.nodes.length
    let candidatePeer := s.nodes.getD index 0
    let s := { s with draws := s.draws + 1 }
    if candidatePeer = i then some s
    else if candidatePeer ∈ s.nodesConnections i then some s
    else if limits.maxConnections candidatePeer ≤ (s.nodesConnections candidatePeer).length then
      some s
    else
      let nodesConnections := Adjacency.connect s.nodesConnections i candidatePeer
      if (nodesConnections candidatePeer).length = limits.maxConnections candidatePeer then
        some { s with nodesConnections, nodes := s.nodes.eraseIdx index }
      else some { s with nodesConnections }

/-- Node `i` draws until it has its least number of connections, or `count`
has come up to its bound; what is left of that is counted down. -/
def drawPeers (limits : ConnectionLimits) (rand : Nat → Nat) (i : Nat) :
    Nat → PeerSelection → Option PeerSelection
  | 0, s => some s
  | left + 1, s =>
      if (s.nodesConnections i).length < limits.minConnections i then do
        drawPeers limits rand i left (← s.draw limits rand i)
      else some s

/-- The peers of node `i`. -/
def peersOf (limits : ConnectionLimits) (rand : Nat → Nat) (s : PeerSelection) (i : Nat) :
    Option PeerSelection :=
  s.drawPeers limits rand i (limits.maxDraws i)

/-- First the miners, then all nodes. -/
def selectPeers (limits : ConnectionLimits) (rand : Nat → Nat) (totalNoNodes : Nat)
    (miners : List Nat) (s : PeerSelection) : Option PeerSelection := do
  let s ← miners.foldlM (peersOf limits rand) s
  (List.range totalNoNodes).foldlM (peersOf limits rand) s

end PeerSelection

/-- The nodes, the miners among them, and who is connected. -/
structure GhostDagTopology where
  totalNoNodes : Nat
  miners : List Nat
  nodesConnections : Nat → List Nat

/-- The part of the constructor that makes the connections.  The limits may
depend on who the miners are. -/
def connectNodes (totalNoNodes noMiners : Nat) (limits : List Nat → ConnectionLimits)
    (rand : Nat → Nat) : Option GhostDagTopology :=
  if totalNoNodes < noMiners ∨ noMiners < 1 then none
  else do
    let miners ← chooseMiners rand noMiners (List.range totalNoNodes) 0
    let miners := miners.insertionSort (· ≤ ·)
    let s ← PeerSelection.selectPeers (limits miners) rand totalNoNodes miners
      { nodes := List.range totalNoNodes
        nodesConnections := interconnect miners
        draws := noMiners }
    return { totalNoNodes, miners, nodesConnections := s.nodesConnections }

end GhostDag
