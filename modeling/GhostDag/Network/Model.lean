import GhostDag.Node.Handlers

/-!
# GhostDag.Network.Model

Several nodes in one process, exchanging messages.

Everything ever sent stays deliverable: a step hands any message sent so far
to any node with the address it was sent to, at any time and any number of
times, which covers every order of delivery.  Timers go off at any time.
`created` is a record of the blocks as their miners built them; no node reads
it.
-/

namespace GhostDag

open Std (ExtTreeMap)

/-- A message on its way. -/
structure Envelope (ι : Type) where
  sender : ι
  recipient : Ipv4Address
  msg : Message

/-- The nodes of a network. -/
structure Setup (ι : Type) where
  config : ι → Config
  address : ι → Ipv4Address
  /-- ns-3 ids are distinct. -/
  injective : Function.Injective fun i => (config i).id

structure Network (ι : Type) where
  nodes : ι → Node
  store : BlockBodyStore
  sent : List (Envelope ι)
  created : List Block

/-- What happens next. -/
inductive Action (ι : Type)
  /-- The `index`-th message ever sent reaches a node. -/
  | deliver (index : Nat) (recipient : ι) (draw : Nat → Nat)
  | timeout (i : ι) (blockHash pick : Nat)
  | txTimeouts (i : ι) (pick : Nat → Nat)
  | flush (i : ι)
  | generate (i : ι) (fee : Nat)
  | mine (i : ι) (pick : Nat → Nat × Nat)

namespace Network

variable {ι : Type} [DecidableEq ι]

/-- All nodes have started. -/
def init (setup : Setup ι) : Network ι where
  nodes i := Node.init (setup.config i)
  store := ∅
  sent := []
  created := []

/-- The block that an event creates. -/
def createdBy (c : Config) (now : ℚ) (store : BlockBodyStore) (n : Node) : Node.Event → List Block
  | .mineBlock pick =>
      [Node.mined c now n
        (store.intern (n.minedId c) (Node.selectTransactions c pick n.mempool).1).1]
  | _ => []

/-- Node `i` goes over to the state `n` and sends messages. -/
def put (g : Network ι) (i : ι) (n : Node) (sends : Sends) : Network ι :=
  { g with
    nodes := Function.update g.nodes i n
    sent := g.sent ++ sends.map fun s => { sender := i, recipient := s.1, msg := s.2 } }

/-- Node `i` handles an event; the store is the one it finds. -/
def act (setup : Setup ι) (now : ℚ) (g : Network ι) (i : ι) (store : BlockBodyStore)
    (event : Node.Event) : Option (Network ι) := do
  let (store', n, sends) ← (g.nodes i).step (setup.config i) now store event
  return { g.put i n sends with
    store := store'
    created := g.created ++ createdBy (setup.config i) now store (g.nodes i) event }

/-- The event that an action amounts to, the node it happens at, and the store
that the node finds.  A miner stops before its counter outgrows the lower half
of an id. -/
def event (setup : Setup ι) (g : Network ι) : Action ι → Option (ι × BlockBodyStore × Node.Event)
  | .deliver index i draw => do
      let e ← g.sent[index]?
      if e.recipient = setup.address i then
        return (i, Node.processMessage g.store draw (setup.address e.sender) e.msg)
      else none
  | .timeout i blockHash pick => some (i, g.store, .invTimeoutExpired blockHash pick)
  | .txTimeouts i pick => some (i, g.store, .processTxTimeouts pick)
  | .flush i => some (i, g.store, .flushInvBatch)
  | .generate i fee => some (i, g.store, .generateTransaction fee)
  | .mine i pick =>
      if (g.nodes i).blockchain.nextBlockId < 2 ^ 32 then some (i, g.store, .mineBlock pick)
      else none

/-- One action at time `now`. -/
def step (setup : Setup ι) (g : Network ι) (now : ℚ) (a : Action ι) : Option (Network ι) := do
  let (i, store, e) ← event setup g a
  act setup now g i store e

/-- The global states that some interleaving reaches. -/
inductive Reachable (setup : Setup ι) : Network ι → Prop
  | init : Reachable setup (init setup)
  | step {g g' : Network ι} {now : ℚ} {a : Action ι} :
      Reachable setup g → step setup g now a = some g' → Reachable setup g'

@[simp] theorem put_nodes_self (g : Network ι) (i : ι) (n : Node) (sends : Sends) :
    (g.put i n sends).nodes i = n := by simp [put]

theorem put_nodes_of_ne (g : Network ι) {i j : ι} (n : Node) (sends : Sends) (h : j ≠ i) :
    (g.put i n sends).nodes j = g.nodes j := by simp [put, h]

theorem mem_put_sent {g : Network ι} {i : ι} {n : Node} {sends : Sends} {e : Envelope ι} :
    e ∈ (g.put i n sends).sent ↔ e ∈ g.sent ∨ ∃ s ∈ sends, e = ⟨i, s.1, s.2⟩ := by
  simp [put, eq_comm]

/-- A node holds a block, as accepted or as an orphan. -/
def Holds (g : Network ι) (i : ι) (id : Nat) (b : Block) : Prop :=
  (g.nodes i).blockchain.blocks[id]? = some b ∨ (g.nodes i).blockchain.orphans[id]? = some b

end Network

end GhostDag
