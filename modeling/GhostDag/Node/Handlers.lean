import GhostDag.Dag.Blockchain
import GhostDag.Node.Mempool
import GhostDag.Node.Wire

/-!
# GhostDag.Node.Handlers

A node and a miner (`node.cc`, `miner.cc`) as functions on their state: one
definition per message handler and per timer, returning the new state and the
messages handed to `SendMessage`.

The time of the simulator is an argument, and so is every outcome of the
random generator.  Events of the metrics module, log lines and byte counts
are left out, and so is Graphene.  `none` is a run of the C++ code that does
not return normally.
-/

namespace GhostDag

open Std (ExtTreeMap ExtTreeSet)

/-- What is set once, before the application starts. -/
structure Config where
  /-- The ns-3 id of the node, a `uint32_t`. -/
  id : Nat
  id_lt : id < 2 ^ 32
  ghostdagK : Int32
  mempoolSize : Nat
  /-- The pool divides by its size. -/
  mempoolSize_pos : 0 < mempoolSize
  /-- It is an `int`. -/
  mempoolSize_lt : mempoolSize < 2 ^ 31
  txsPerBlock : Int
  txSelectionStrategy : Int
  peersAddresses : List Ipv4Address
  invTimeout : ℚ
  /-- `std::hash<std::string>`. -/
  hashFun : String → Nat

/-- `TxRequest`: the peers that announced a transaction, the one asked first,
and the deadline of that request. -/
structure TxRequest where
  announcers : List Ipv4Address := []
  deadline : ℚ := 0

/-- The state of a node.  A pending event is kept with what it will need: the
time it is due, or its argument. -/
structure Node where
  blockchain : Blockchain
  mempool : Mempool
  knownTxs : TxIdSet
  txsGenerated : Nat
  queueInv : ExtTreeMap Nat (List Ipv4Address)
  invTimeouts : ExtTreeMap Nat ℚ
  queueInvTx : ExtTreeMap Nat TxRequest
  txTimeoutQueue : List (ℚ × Nat)
  txTimeoutEvent : Option ℚ
  pendingInvTx : List Nat
  invBatchEvent : Option Ipv4Address

/-- Messages and whom they are sent to, in order. -/
abbrev Sends := List (Ipv4Address × Message)

/-- `int minerId = GetNode()->GetId()` as the code uses it: widened, with its
sign, to 64 bits. -/
def Config.minerId (c : Config) : Nat := if c.id < 2 ^ 31 then c.id else 2 ^ 64 - 2 ^ 32 + c.id

namespace Node

/-- A node when its application has started. -/
def init (c : Config) : Node where
  blockchain := Blockchain.init c.ghostdagK c.id
  mempool := Mempool.init c.mempoolSize
  knownTxs := ∅
  txsGenerated := 0
  queueInv := ∅
  invTimeouts := ∅
  queueInvTx := ∅
  txTimeoutQueue := []
  txTimeoutEvent := none
  pendingInvTx := []
  invBatchEvent := none

/-- `std::swap(v[0], v[idx])`, for an outcome `pick` of the generator. -/
def swapFront (v : List Ipv4Address) (pick : Nat) : List Ipv4Address :=
  match v[0]?, v[pick % v.length]? with
  | some a, some b => (v.set 0 b).set (pick % v.length) a
  | _, _ => v

/-! ## blocks -/

/-- `BroadcastInvBlock`. -/
def broadcastInvBlock (c : Config) (blockHash : Nat) (exclude : Ipv4Address) : Sends :=
  (c.peersAddresses.filter (· ≠ exclude)).map fun peer => (peer, .invRelayBlock blockHash)

/-- `HandleInvRelayBlock`. -/
def handleInvRelayBlock (c : Config) (now : ℚ) (n : Node) (blockHash : Nat) (peer : Ipv4Address) :
    Node × Sends :=
  if n.blockchain.hasBlock blockHash || n.blockchain.isOrphan blockHash then (n, [])
  else
    let announcers := n.queueInv.getD blockHash []
    let queueInv := n.queueInv.insert blockHash (announcers ++ [peer])
    if announcers.isEmpty then
      ({ n with queueInv, invTimeouts := n.invTimeouts.insert blockHash (now + c.invTimeout) },
        [(peer, .reqRelayBlock blockHash)])
    else ({ n with queueInv }, [])

/-- The block that a request is answered with. -/
def heldBlock (n : Node) (blockHash : Nat) : Option Block :=
  match n.blockchain.blocks[blockHash]? with
  | some b => some b
  | none => n.blockchain.orphans[blockHash]?

/-- `HandleReqRelayBlock`. -/
def handleReqRelayBlock (n : Node) (blockHash : Nat) (peer : Ipv4Address) : Sends :=
  match n.heldBlock blockHash with
  | some b => [(peer, .block (encodeBlock b))]
  | none => []

/-- Take a transaction out of the pool if it is there. -/
def evict (hashFun : String → Nat) (p : Mempool) (tx : Transaction) : Mempool :=
  match p.find hashFun (idFromTxId tx.txId) tx.txId with
  | some it => p.eraseTransaction it
  | none => p

/-- Take the transactions of the listed blocks out of the pool. -/
def evictBlocks (hashFun : String → Nat) (s : Blockchain) (ids : List Nat) (p : Mempool) :
    Option Mempool :=
  ids.foldlM (fun p id => do
    let blk ← s.blocks[id]?
    return blk.txs.list.foldl (evict hashFun) p) p

/-- The block that `HandleBlock` passes on. -/
def received (now : ℚ) (b : Block) (peer : Ipv4Address) : Block :=
  { b with timeReceived := now, receivedFrom := peer }

/-- `HandleBlock`. -/
def handleBlock (c : Config) (now : ℚ) (n : Node) (newBlock : Block) (peer : Ipv4Address) :
    Option (Node × Sends) :=
  if n.blockchain.hasBlock newBlock.id || n.blockchain.isOrphan newBlock.id then some (n, [])
  else do
    let knownTxs ← newBlock.txs.list.foldlM (fun known tx => known.insert tx.txId) n.knownTxs
    let wasBlue ← n.blockchain.snapshotBlueFlags
    let blockchain ← n.blockchain.addBlock (received now newBlock peer)
    let newly ← blockchain.newlyBlue wasBlue
    let mempool ← evictBlocks c.hashFun blockchain newly n.mempool
    return ({ n with
      blockchain, mempool, knownTxs
      invTimeouts := n.invTimeouts.erase newBlock.id
      queueInv := n.queueInv.erase newBlock.id }, broadcastInvBlock c newBlock.id peer)

/-- `InvTimeoutExpired`: drop the peer that was asked, and ask another one. -/
def invTimeoutExpired (c : Config) (now : ℚ) (n : Node) (blockHash pick : Nat) : Node × Sends :=
  match n.queueInv[blockHash]? with
  | none => (n, [])
  | some announcers =>
      match swapFront (announcers.drop 1) pick with
      | [] => ({ n with
          queueInv := n.queueInv.erase blockHash
          invTimeouts := n.invTimeouts.erase blockHash }, [])
      | next :: rest => ({ n with
          queueInv := n.queueInv.insert blockHash (next :: rest)
          invTimeouts := n.invTimeouts.insert blockHash (now + c.invTimeout) },
          [(next, .reqRelayBlock blockHash)])

/-! ## transactions -/

/-- `BroadcastInvTransactions`. -/
def broadcastInvTransactions (c : Config) (txIds : List Nat) (exclude : Ipv4Address) : Sends :=
  if txIds.isEmpty then []
  else (c.peersAddresses.filter (· ≠ exclude)).map fun peer => (peer, .invTransactions txIds)

/-- `FlushInvBatch`; its event is no longer pending when it runs. -/
def flushInvBatch (c : Config) (n : Node) (exclude : Ipv4Address) : Node × Sends :=
  ({ n with pendingInvTx := [], invBatchEvent := none },
    broadcastInvTransactions c n.pendingInvTx exclude)

/-- `ArmTxTimeoutTimer`. -/
def armTxTimeoutTimer (now : ℚ) (n : Node) : Node :=
  match n.txTimeoutQueue, n.txTimeoutEvent with
  | (deadline, _) :: _, none => { n with txTimeoutEvent := some (now + max (deadline - now) 0) }
  | _, _ => n

/-- One announced id: note the announcer, and ask for the transaction if it is
the first one.  The list is `wanted`. -/
def announce (c : Config) (now : ℚ) (peer : Ipv4Address) (st : Node × List Nat) (txId : Nat) :
    Node × List Nat :=
  let n := st.1
  if n.knownTxs.contains txId then st
  else
    let req := n.queueInvTx.getD txId {}
    let announcers := req.announcers ++ [peer]
    if req.announcers.isEmpty then
      let deadline := now + c.invTimeout
      ({ n with
        queueInvTx := n.queueInvTx.insert txId { announcers, deadline }
        txTimeoutQueue := n.txTimeoutQueue ++ [(deadline, txId)] }, st.2 ++ [txId])
    else ({ n with queueInvTx := n.queueInvTx.insert txId { req with announcers } }, st.2)

/-- `HandleInvTransactions`. -/
def handleInvTransactions (c : Config) (now : ℚ) (n : Node) (txIds : List Nat)
    (peer : Ipv4Address) : Node × Sends :=
  let (n, wanted) := txIds.foldl (announce c now peer) (n, [])
  if wanted.isEmpty then (n, []) else (n.armTxTimeoutTimer now, [(peer, .reqTransactions wanted)])

/-- `static_cast<uint32_t>(m_average_transaction_size)`. -/
def averageTransactionSize : Nat := 522

/-- `HandleReqTransactions`. -/
def handleReqTransactions (c : Config) (n : Node) (txIds : List Nat) (peer : Ipv4Address) : Sends :=
  let txs := txIds.filterMap fun txId =>
    (n.mempool.find c.hashFun (idFromTxId txId) txId).map fun it =>
      { txId := it.item.txId, sizeBytes := averageTransactionSize, fee := it.item.fee : Transaction }
  if txs.isEmpty then [] else [(peer, .transactions txs)]

/-- One received transaction; `draw` gives the fee drawn for one that comes
without. -/
def accept (c : Config) (draw : Nat → Nat) (n : Node) (tx : Transaction) : Option Node :=
  let n := { n with queueInvTx := n.queueInvTx.erase tx.txId }
  if n.knownTxs.contains tx.txId then some n
  else do
    let knownTxs ← n.knownTxs.insert tx.txId
    if c.mempoolSize ≤ n.mempool.size then return { n with knownTxs }
    else
      let fee := if 0 < tx.fee then tx.fee else draw tx.txId
      return { n with
        knownTxs
        mempool := n.mempool.insert c.hashFun (idFromTxId tx.txId) tx.txId fee
        pendingInvTx := n.pendingInvTx ++ [tx.txId] }

/-- Schedule `FlushInvBatch`, unless it is pending. -/
def scheduleInvBatch (n : Node) (exclude : Ipv4Address) : Node :=
  match n.invBatchEvent with
  | some _ => n
  | none => { n with invBatchEvent := some exclude }

/-- `HandleTransactions`. -/
def handleTransactions (c : Config) (draw : Nat → Nat) (n : Node) (txs : List Transaction)
    (peer : Ipv4Address) : Option Node := do
  let n ← txs.foldlM (accept c draw) n
  return if n.pendingInvTx.isEmpty then n else n.scheduleInvBatch peer

/-- The loop of `ProcessTxTimeouts`, to a given number of rounds; `pick` gives
the outcome of the generator in each. -/
def processQueue (c : Config) (now : ℚ) (pick : Nat → Nat) :
    Nat → Node × Sends → Option (Node × Sends)
  | 0, _ => none
  | rounds + 1, (n, sends) =>
      match n.txTimeoutQueue with
      | [] => some (n, sends)
      | (deadline, txId) :: queue =>
          if now < deadline then some (n, sends)
          else
            let n := { n with txTimeoutQueue := queue }
            match n.queueInvTx[txId]? with
            | none => processQueue c now pick rounds (n, sends)
            | some req =>
                if req.deadline ≠ deadline then processQueue c now pick rounds (n, sends)
                else match swapFront (req.announcers.drop 1) (pick rounds) with
                  | [] => processQueue c now pick rounds
                      ({ n with queueInvTx := n.queueInvTx.erase txId }, sends)
                  | next :: rest =>
                      let deadline := now + c.invTimeout
                      processQueue c now pick rounds
                        ({ n with
                          queueInvTx := n.queueInvTx.insert txId
                            { announcers := next :: rest, deadline }
                          txTimeoutQueue := queue ++ [(deadline, txId)] },
                          sends ++ [(next, .reqTransactions [txId])])

/-- `ProcessTxTimeouts`.  Every round takes an entry off the queue, or an
announcer off a request. -/
def processTxTimeouts (c : Config) (now : ℚ) (pick : Nat → Nat) (n : Node) :
    Option (Node × Sends) := do
  let rounds := n.txTimeoutQueue.length +
    (n.queueInvTx.toList.map fun e => e.2.announcers.length).sum + 1
  let (n, sends) ← processQueue c now pick rounds ({ n with txTimeoutEvent := none }, [])
  return (n.armTxTimeoutTimer now, sends)

/-- `GenerateTransaction`; `none` is the overflow of the `int` counter. -/
def generateTransaction (c : Config) (n : Node) (fee : Nat) : Option Node :=
  let txId := c.id <<< 32 ||| n.txsGenerated
  if n.mempool.size < c.mempoolSize then
    if n.txsGenerated + 1 < 2 ^ 31 then do
      let knownTxs ← n.knownTxs.insert txId
      let n' := { n with
        mempool := n.mempool.insert c.hashFun c.id txId fee
        knownTxs
        txsGenerated := n.txsGenerated + 1
        pendingInvTx := n.pendingInvTx ++ [txId] }
      return n'.scheduleInvBatch Ipv4Address.unset
    else none
  else some n

/-! ## mining -/

/-- The transaction that the strategy picks next. -/
def nextTransaction (c : Config) (p : Mempool) (pick : Nat × Nat) : Option HtabIterator :=
  if c.txSelectionStrategy = 0 then p.getRandomTransaction pick.1 pick.2
  else p.getSortedTransactionDescending

/-- Move one transaction from the pool to the selection. -/
def selectOne (c : Config) (pick : Nat → Nat × Nat) (st : TxSet × Mempool) (i : Nat) :
    TxSet × Mempool :=
  match nextTransaction c st.2 (pick i) with
  | some it =>
      (st.1.add { txId := it.item.txId, sizeBytes := 522, fee := it.item.fee },
        st.2.eraseTransaction it)
  | none => st

/-- `toSelect` of `SelectTransactions`: the size of the pool is converted to an
`int`, which keeps its low 32 bits. -/
def toSelect (c : Config) (p : Mempool) : Int := min c.txsPerBlock (Int.bmod p.size (2 ^ 32))

/-- `SelectTransactions`: the selection, and the pool without it. -/
def selectTransactions (c : Config) (pick : Nat → Nat × Nat) (p : Mempool) : TxSet × Mempool :=
  if c.txsPerBlock ≤ 0 ∨ p.size = 0 then (∅, p)
  else (List.range (toSelect c p).toNat).foldl (selectOne c pick) (∅, p)

/-- The id of the next mined block: the miner's id above its counter. -/
def minedId (c : Config) (n : Node) : Nat :=
  (c.minerId <<< 32) % 2 ^ 64 ||| n.blockchain.nextBlockId

/-- The block that `MineBlock` builds, around a given body. -/
def mined (c : Config) (now : ℚ) (n : Node) (txs : TxSet) : Block :=
  let header : BlockHeader :=
    { blockId := minedId c n, minerId := c.minerId, timeCreated := now
      parentHashes := n.blockchain.tips.toList }
  let b : Block := { header, txs, timeReceived := now }
  { b with sizeInBytes := b.getTotalSize }

/-- `m_blockchain.next_block_id++`. -/
def countBlock (s : Blockchain) : Blockchain := { s with nextBlockId := s.nextBlockId + 1 }

/-- `MineBlock`. -/
def mineBlock (c : Config) (now : ℚ) (pick : Nat → Nat × Nat) (store : BlockBodyStore) (n : Node) :
    Option (BlockBodyStore × Node × Sends) := do
  let (selected, mempool) := selectTransactions c pick n.mempool
  let (txs, store) := store.intern (minedId c n) selected
  let blockchain ← (countBlock n.blockchain).addBlock (mined c now n txs)
  return (store, { n with blockchain, mempool },
    broadcastInvBlock c (minedId c n) Ipv4Address.unset)

/-! ## events -/

/-- What can happen to a node.  A timer may go off at any time, pending or
not, except that `FlushInvBatch` needs the argument it was scheduled with. -/
inductive Event
  | handleInvRelayBlock (blockHash : Nat) (peer : Ipv4Address)
  | handleReqRelayBlock (blockHash : Nat) (peer : Ipv4Address)
  | handleBlock (b : Block) (peer : Ipv4Address)
  | handleInvTransactions (txIds : List Nat) (peer : Ipv4Address)
  | handleReqTransactions (txIds : List Nat) (peer : Ipv4Address)
  | handleTransactions (draw : Nat → Nat) (txs : List Transaction) (peer : Ipv4Address)
  | invTimeoutExpired (blockHash pick : Nat)
  | processTxTimeouts (pick : Nat → Nat)
  | flushInvBatch
  | generateTransaction (fee : Nat)
  | mineBlock (pick : Nat → Nat × Nat)

/-- One event at time `now`, with the bodies that the process shares. -/
def step (c : Config) (now : ℚ) (store : BlockBodyStore) (n : Node) :
    Event → Option (BlockBodyStore × Node × Sends)
  | .handleInvRelayBlock blockHash peer => some (store, handleInvRelayBlock c now n blockHash peer)
  | .handleReqRelayBlock blockHash peer => some (store, n, handleReqRelayBlock n blockHash peer)
  | .handleBlock b peer => do
      let r ← handleBlock c now n b peer
      return (store, r)
  | .handleInvTransactions txIds peer => some (store, handleInvTransactions c now n txIds peer)
  | .handleReqTransactions txIds peer => some (store, n, handleReqTransactions c n txIds peer)
  | .handleTransactions draw txs peer => do
      let n ← handleTransactions c draw n txs peer
      return (store, n, [])
  | .invTimeoutExpired blockHash pick => some (store, invTimeoutExpired c now n blockHash pick)
  | .processTxTimeouts pick => do
      let r ← processTxTimeouts c now pick n
      return (store, r)
  | .flushInvBatch =>
      match n.invBatchEvent with
      | some exclude => some (store, flushInvBatch c n exclude)
      | none => some (store, n, [])
  | .generateTransaction fee => do
      let n ← generateTransaction c n fee
      return (store, n, [])
  | .mineBlock pick => mineBlock c now pick store n

/-- `ProcessMessage`: the event that a message from `peer` amounts to. -/
def processMessage (store : BlockBodyStore) (draw : Nat → Nat) (peer : Ipv4Address) :
    Message → BlockBodyStore × Event
  | .invRelayBlock blockHash => (store, .handleInvRelayBlock blockHash peer)
  | .reqRelayBlock blockHash => (store, .handleReqRelayBlock blockHash peer)
  | .block w => ((decodeBlock store w).2, .handleBlock (decodeBlock store w).1 peer)
  | .invTransactions txIds => (store, .handleInvTransactions txIds peer)
  | .reqTransactions txIds => (store, .handleReqTransactions txIds peer)
  | .transactions txs => (store, .handleTransactions draw txs peer)

end Node

end GhostDag
