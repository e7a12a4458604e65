import GhostDag.Graphene.Protocol
import GhostDag.Node.Handlers

/-!
# GhostDag.Graphene.Handlers

The node with Graphene (`node.cc`): the handlers of `GhostDag.Node.Handlers`,
and those that relay blocks by Graphene.

The events that `HandleInvRelayBlock`, `InvTimeoutExpired` and
`HandleGrapheneBlock` schedule are part of the state here, each one with the
time it is due, so that an `EventId` in a map can be compared with what the
simulator will run.  `none` is a run of the C++ code that does not return
normally, as before, an exception of the protocol included.
-/

namespace GhostDag

open Std (ExtTreeMap ExtTreeSet)

/-- What is set once for Graphene. -/
structure Graphene where
  grapheneEnabled : Bool
  /-- Whether asserts are compiled in. -/
  checked : Bool
  murmurHash3 : Nat → Nat → Nat
  /-- A bound on the rounds of the loop that lists a table. -/
  rounds : Nat
  arith : GrapheneProtocol.Arithmetic

/-- `m_graphene_recovery_timeout`, in seconds. -/
def recoveryTimeout : ℚ := 10

/-- The messages of a node, with those of Graphene. -/
inductive GrapheneMessage
  | invRelayBlock (blockHash : Nat)
  | reqRelayBlock (blockHash mempoolCount : Nat) (grapheneFailed : Bool)
  | block (b : WireBlock)
  | grapheneBlock (data : GrapheneProtocol.GrapheneBlock)
  | grapheneRecoveryRequest (data : GrapheneProtocol.RecoveryRequest)
  | grapheneRecoveryResponse (data : GrapheneProtocol.RecoveryResponse)
  | invTransactions (txHashes : List Nat)
  | reqTransactions (txHashes : List Nat)
  | transactions (txs : List Transaction)

abbrev GrapheneSends := List (Ipv4Address × GrapheneMessage)

/-- The block that a scheduled event is for, and when it is due. -/
abbrev Pending := List (Nat × ℚ)

/-- `Simulator::Cancel`, of the event that a map has for a block. -/
def Pending.cancel (events : Pending) (timeouts : ExtTreeMap Nat ℚ) (blockHash : Nat) : Pending :=
  match timeouts[blockHash]? with
  | some due => events.erase (blockHash, due)
  | none => events

/-- The state of a node, and the events it has scheduled for blocks. -/
structure GrapheneNode where
  node : Node
  grapheneState : ExtTreeMap Nat GrapheneProtocol.GrapheneState
  grapheneTimeouts : ExtTreeMap Nat ℚ
  grapheneSenders : ExtTreeMap Nat Ipv4Address
  /-- Calls of `InvTimeoutExpired` to come. -/
  invEvents : Pending
  /-- Calls of `GrapheneRecoveryTimeout` to come. -/
  recoveryEvents : Pending

namespace GrapheneNode

open Containers GrapheneProtocol

/-- A node when its application has started. -/
def init (c : Config) : GrapheneNode where
  node := Node.init c
  grapheneState := ∅
  grapheneTimeouts := ∅
  grapheneSenders := ∅
  invEvents := []
  recoveryEvents := []

/-! ## messages of the plain node -/

/-- `mempool_count`, which is left out, and read as 0, without Graphene. -/
def mempoolCount (G : Graphene) (n : Node) : Nat := if G.grapheneEnabled then n.mempool.size else 0

def liftMessage (count : Nat) : Message → GrapheneMessage
  | .invRelayBlock blockHash => .invRelayBlock blockHash
  | .reqRelayBlock blockHash => .reqRelayBlock blockHash count false
  | .block b => .block b
  | .invTransactions txHashes => .invTransactions txHashes
  | .reqTransactions txHashes => .reqTransactions txHashes
  | .transactions txs => .transactions txs

def lift (G : Graphene) (n : Node) (sends : Sends) : GrapheneSends :=
  sends.map fun s => (s.1, liftMessage (mempoolCount G n) s.2)

/-- The events that are scheduled with the requests for blocks. -/
def scheduled (due : ℚ) (sends : Sends) : Pending :=
  sends.filterMap fun s =>
    match s.2 with
    | .reqRelayBlock blockHash => some (blockHash, due)
    | _ => none

/-! ## blocks by announcement -/

/-- `HandleInvRelayBlock`. -/
def handleInvRelayBlock (G : Graphene) (c : Config) (now : ℚ) (g : GrapheneNode) (blockHash : Nat)
    (peer : Ipv4Address) : GrapheneNode × GrapheneSends :=
  let (node, sends) := g.node.handleInvRelayBlock c now blockHash peer
  ({ g with node, invEvents := g.invEvents ++ scheduled (now + c.invTimeout) sends },
    lift G g.node sends)

/-- `InvTimeoutExpired`, when it is due; it is not pending any more when it
runs. -/
def invTimeoutExpired (G : Graphene) (c : Config) (now : ℚ) (g : GrapheneNode) (blockHash : Nat)
    (due : ℚ) (pick : Nat) : GrapheneNode × GrapheneSends :=
  if (blockHash, due) ∈ g.invEvents then
    let (node, sends) := g.node.invTimeoutExpired c now blockHash pick
    ({ g with
      node
      invEvents := g.invEvents.erase (blockHash, due) ++ scheduled (now + c.invTimeout) sends },
      lift G g.node sends)
  else (g, [])

/-- `HandleReqRelayBlock`. -/
def handleReqRelayBlock (G : Graphene) (g : GrapheneNode) (blockHash : Nat) (grapheneFailed : Bool)
    (peer : Ipv4Address) (receiverMempoolCount : Nat) : Except Halt GrapheneSends :=
  match g.node.heldBlock blockHash with
  | none => return []
  | some b =>
      if G.grapheneEnabled && !grapheneFailed then do
        match ← buildSenderComponents G.checked G.murmurHash3 G.arith b.txs receiverMempoolCount with
        | some (bf, iblt) => return [(peer, .grapheneBlock (grapheneBlock blockHash b bf iblt))]
        | none => return [(peer, .block (encodeBlock b))]
      else return [(peer, .block (encodeBlock b))]

/-- `HandleBlock`. -/
def handleBlock (G : Graphene) (c : Config) (now : ℚ) (g : GrapheneNode) (newBlock : Block)
    (peer : Ipv4Address) : Option (GrapheneNode × GrapheneSends) :=
  if g.node.blockchain.hasBlock newBlock.id || g.node.blockchain.isOrphan newBlock.id then
    some (g, [])
  else do
    let (node, sends) ← g.node.handleBlock c now newBlock peer
    return ({ g with node, invEvents := g.invEvents.cancel g.node.invTimeouts newBlock.id },
      lift G g.node sends)

/-! ## blocks by Graphene -/

/-- `HandleGrapheneBlock`. -/
def handleGrapheneBlock (G : Graphene) (c : Config) (now : ℚ) (store : BlockBodyStore)
    (g : GrapheneNode) (data : GrapheneBlock) (peer : Ipv4Address) :
    Option (BlockBodyStore × GrapheneNode × GrapheneSends) :=
  if g.node.blockchain.hasBlock data.blockId || g.node.blockchain.isOrphan data.blockId then
    some (store, g, [])
  else if data.blockHash ∈ g.grapheneState then some (store, g, [])
  else do
    let (result, store) ← (processIncomingBlock G.checked G.murmurHash3 G.rounds G.arith store data
      g.node.mempool.getAllEntries g.node.mempool.size).toOption
    match result with
    | .success block =>
        let (g, sends) ← g.handleBlock G c now block peer
        return (store, g, sends)
    | .failure recoveryState recoveryRequest =>
        let due := now + recoveryTimeout
        return (store, { g with
          grapheneState := g.grapheneState.insert data.blockHash recoveryState
          grapheneSenders := g.grapheneSenders.insert data.blockHash peer
          grapheneTimeouts := g.grapheneTimeouts.insert data.blockHash due
          recoveryEvents := g.recoveryEvents ++ [(data.blockHash, due)] },
          [(peer, .grapheneRecoveryRequest recoveryRequest)])

/-- `HandleGrapheneRecoveryRequest`. -/
def handleGrapheneRecoveryRequest (G : Graphene) (g : GrapheneNode) (data : RecoveryRequest)
    (peer : Ipv4Address) : Except Halt GrapheneSends :=
  match g.node.heldBlock data.blockHash with
  | none => return []
  | some blk => do
      let resp ← recoveryResponse G.checked G.murmurHash3 blk data
      return [(peer, .grapheneRecoveryResponse resp)]

/-- The entries of a block in the three maps. -/
def eraseRecovery (g : GrapheneNode) (blockHash : Nat) : GrapheneNode :=
  { g with
    grapheneState := g.grapheneState.erase blockHash
    grapheneTimeouts := g.grapheneTimeouts.erase blockHash
    grapheneSenders := g.grapheneSenders.erase blockHash }

/-- The end of a recovery, with its event cancelled. -/
def endRecovery (g : GrapheneNode) (blockHash : Nat) : GrapheneNode :=
  { g.eraseRecovery blockHash with
    recoveryEvents := g.recoveryEvents.cancel g.grapheneTimeouts blockHash }

/-- A recovered transaction; the fee is the one in the pool. -/
def recoveredTx (hashFun : String → Nat) (p : Mempool) (txId : Nat) : Transaction where
  txId
  sizeBytes := 522
  fee := match p.find hashFun (idFromTxId txId) txId with
    | some it => it.item.fee
    | none => 0

/-- `HandleGrapheneRecoveryResponse`. -/
def handleGrapheneRecoveryResponse (G : Graphene) (c : Config) (now : ℚ) (store : BlockBodyStore)
    (g : GrapheneNode) (data : RecoveryResponse) (peer : Ipv4Address) :
    Option (BlockBodyStore × GrapheneNode × GrapheneSends) :=
  match g.grapheneState[data.blockHash]? with
  | none => some (store, g, [])
  | some state => do
      let result ← (processRecoveryResponse G.checked G.murmurHash3 G.rounds data state).toOption
      match result with
      | some blockTxIds =>
          let recoveredTxs := TxSet.ofList
            (blockTxIds.toList.map (recoveredTx c.hashFun g.node.mempool))
          let knownTxs ← blockTxIds.toList.foldlM TxIdSet.insert g.node.knownTxs
          let (txs, store) := BlockBodyStore.intern store state.header.blockId recoveredTxs
          let known := { g with node := { g.node with knownTxs } }
          let (g, sends) ← known.handleBlock G c now { header := state.header, txs } peer
          return (store, g.endRecovery data.blockHash, sends)
      | none =>
          return (store, g.endRecovery data.blockHash, [(peer, .reqRelayBlock data.blockHash 0 true)])

/-- `GrapheneRecoveryTimeout`, when it is due; it is not pending any more when
it runs. -/
def grapheneRecoveryTimeout (g : GrapheneNode) (blockHash : Nat) (due : ℚ) :
    GrapheneNode × GrapheneSends :=
  if (blockHash, due) ∈ g.recoveryEvents then
    let g := { g with recoveryEvents := g.recoveryEvents.erase (blockHash, due) }
    match g.grapheneState[blockHash]? with
    | none => (g, [])
    | some _ =>
        if g.node.blockchain.hasBlock blockHash || g.node.blockchain.isOrphan blockHash then
          (g.eraseRecovery blockHash, [])
        else match g.grapheneSenders[blockHash]? with
          | some sender => (g.eraseRecovery blockHash, [(sender, .reqRelayBlock blockHash 0 true)])
          | none => (g.eraseRecovery blockHash, [])
  else (g, [])

/-! ## events -/

/-- Graphene leaves an event as it is. -/
def leavesAsIs : Node.Event → Bool
  | .handleInvRelayBlock .. | .handleReqRelayBlock .. | .handleBlock .. | .invTimeoutExpired .. =>
      false
  | _ => true

abbrev PlainEvent := { event : Node.Event // leavesAsIs event = true }

/-- What can happen to a node.  An event that is scheduled for a block names
the time it is due, and only happens if it is pending. -/
inductive Event
  | plain (event : PlainEvent)
  | handleInvRelayBlock (blockHash : Nat) (peer : Ipv4Address)
  | handleReqRelayBlock (blockHash : Nat) (grapheneFailed : Bool) (peer : Ipv4Address)
      (receiverMempoolCount : Nat)
  | handleBlock (b : Block) (peer : Ipv4Address)
  | handleGrapheneBlock (data : GrapheneBlock) (peer : Ipv4Address)
  | handleGrapheneRecoveryRequest (data : RecoveryRequest) (peer : Ipv4Address)
  | handleGrapheneRecoveryResponse (data : RecoveryResponse) (peer : Ipv4Address)
  | grapheneRecoveryTimeout (blockHash : Nat) (due : ℚ)
  | invTimeoutExpired (blockHash : Nat) (due : ℚ) (pick : Nat)

/-- One event at time `now`, with the bodies that the process shares. -/
def step (G : Graphene) (c : Config) (now : ℚ) (store : BlockBodyStore) (g : GrapheneNode) :
    Event → Option (BlockBodyStore × GrapheneNode × GrapheneSends)
  | .plain event => do
      let (store, node, sends) ← g.node.step c now store event.1
      return (store, { g with node }, lift G g.node sends)
  | .handleInvRelayBlock blockHash peer =>
      some (store, g.handleInvRelayBlock G c now blockHash peer)
  | .handleReqRelayBlock blockHash grapheneFailed peer receiverMempoolCount => do
      let sends ← (g.handleReqRelayBlock G blockHash grapheneFailed peer receiverMempoolCount).toOption
      return (store, g, sends)
  | .handleBlock b peer => do
      let r ← g.handleBlock G c now b peer
      return (store, r)
  | .handleGrapheneBlock data peer => g.handleGrapheneBlock G c now store data peer
  | .handleGrapheneRecoveryRequest data peer => do
      let sends ← (g.handleGrapheneRecoveryRequest G data peer).toOption
      return (store, g, sends)
  | .handleGrapheneRecoveryResponse data peer =>
      g.handleGrapheneRecoveryResponse G c now store data peer
  | .grapheneRecoveryTimeout blockHash due => some (store, g.grapheneRecoveryTimeout blockHash due)
  | .invTimeoutExpired blockHash due pick =>
      some (store, g.invTimeoutExpired G c now blockHash due pick)

/-! ## runs -/

/-- An event, its time, and the bodies that the process shares then. -/
structure Input where
  now : ℚ
  store : BlockBodyStore
  event : Event

/-- The state after some inputs, and every message sent on the way. -/
def trace (G : Graphene) (c : Config) (inputs : List Input) : Option (GrapheneNode × GrapheneSends) :=
  inputs.foldlM
    (fun st i => (step G c i.now i.store st.1 i.event).map fun r => (r.2.1, st.2 ++ r.2.2))
    (init c, [])

variable {G : Graphene} {c : Config}

theorem trace_append {past : List Input} {i : Input} {st : GrapheneNode × GrapheneSends} :
    trace G c (past ++ [i]) = some st ↔ ∃ g sent store sends,
      trace G c past = some (g, sent) ∧
        step G c i.now i.store g i.event = some (store, st.1, sends) ∧ st.2 = sent ++ sends := by
  rw [trace, foldlM_append_singleton]
  constructor
  · intro h
    obtain ⟨⟨g, sent⟩, hpast, h⟩ := h
    obtain ⟨⟨store, g', sends⟩, hstep, rfl⟩ := Option.map_eq_some_iff.mp h
    exact ⟨g, sent, store, sends, hpast, hstep, rfl⟩
  · intro h
    obtain ⟨g, sent, store, sends, hpast, hstep, hsends⟩ := h
    exact ⟨(g, sent), hpast, Option.map_eq_some_iff.mpr ⟨_, hstep, Prod.ext rfl hsends.symm⟩⟩

/-- A step of the run over `inputs`: after `past`, in the state `g`, it comes
to `i`, sends messages and leaves `g'`. -/
structure Step (G : Graphene) (c : Config) (inputs past : List Input) (g : GrapheneNode) (i : Input)
    (g' : GrapheneNode) (sends : GrapheneSends) : Prop where
  inRun : past ++ [i] <+: inputs
  reached : ∃ sent, trace G c past = some (g, sent)
  handled : ∃ store, step G c i.now i.store g i.event = some (store, g', sends)

theorem Step.mono {inputs inputs' past : List Input} {g g' : GrapheneNode} {i : Input}
    {sends : GrapheneSends} (h : Step G c inputs past g i g' sends) (hle : inputs <+: inputs') :
    Step G c inputs' past g i g' sends := ⟨h.inRun.trans hle, h.reached, h.handled⟩

end GrapheneNode

end GhostDag
