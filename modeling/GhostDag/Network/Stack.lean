import GhostDag.Framing.Records
import GhostDag.Network.Ranges

/-!
# GhostDag.Network.Stack

The network down to its bytes: messages are written as payloads, framed, cut
by TCP, put together and read again.

Where `Network` keeps every message deliverable, here a message only arrives
when the bytes of its frame do.  The nodes are running from the first event to
the last; what TCP does is an argument, as in `Channels`.
-/

namespace GhostDag

/-- Why a run ends early. -/
inductive Stack.Halt
  /-- `NS_ABORT_MSG_IF`. -/
  | abort (a : Abort)
  /-- The size of a payload is not a `uint32_t` with room for a prefix. -/
  | tooLong
  /-- A payload has no message that a handler takes. -/
  | badPayload
  /-- A handler does not return normally. -/
  | handler
  /-- The event cannot happen in this state. -/
  | disabled

/-- The nodes, and what each of them has opened to its peers. -/
structure Stack (ι : Type) where
  nodes : ι → Node
  store : BlockBodyStore
  channels : ι → Channels

/-- What the generator draws and what TCP answers while a payload is dealt
with. -/
structure Chance where
  draw : Nat → Nat
  answers : List (List Answer)

namespace Stack

variable {ι : Type} [DecidableEq ι]

/-- What happens next. -/
inductive Event (ι : Type)
  /-- A node acts of its own accord. -/
  | own (i : ι) (e : Node.Event) (answers : List (List Answer))
  | connectionSucceeded (i : ι) (socket : Socket) (answers : List (List Answer))
  | sendReady (i : ι) (socket : Socket) (answers : List Answer)
  /-- Node `j` reads from a connection that node `i` has opened. -/
  | read (i : ι) (socket : Socket) (sizes : List Nat) (j : ι) (chances : List Chance)

/-- All nodes have started. -/
def init (setup : Setup ι) (mpiSize : Nat) : Stack ι where
  nodes i := Node.init (setup.config i)
  store := ∅
  channels i := Channels.init mpiSize (setup.config i).peersAddresses

/-- What a node may do without a message.  It stops to generate and to mine
before its counters outgrow an `int` and the lower half of an id. -/
def mayOccur (n : Node) : Node.Event → Bool
  | .invTimeoutExpired _ _ | .processTxTimeouts _ | .flushInvBatch => true
  | .generateTransaction _ => n.txsGenerated + 1 < 2 ^ 31
  | .mineBlock _ => n.blockchain.nextBlockId < 2 ^ 32
  | _ => false

/-- The channels of node `i` change. -/
def put (s : Stack ι) (i : ι) (channels : Channels) : Stack ι :=
  { s with channels := Function.update s.channels i channels }

@[simp] theorem put_channels_self (s : Stack ι) (i : ι) (channels : Channels) :
    (s.put i channels).channels i = channels := by simp [put]

theorem put_channels_of_ne (s : Stack ι) {i j : ι} (channels : Channels) (h : j ≠ i) :
    (s.put i channels).channels j = s.channels j := by simp [put, h]

/-- An event of the channels that a node has opened. -/
def transport (s : Stack ι) (i : ι) (e : Channels.Event) : Except Halt (Stack ι) := do
  let channels ← ((s.channels i).step e).mapError .abort
  return s.put i channels

/-- The calls of `SendMessage` for the messages of a handler. -/
def send (i : ι) : Stack ι → Sends → List (List Answer) → Except Halt (Stack ι)
  | s, [], _ => return s
  | s, (peer, msg) :: sends, answers => do
      if 2 ^ 32 - 16 ≤ msg.encode.length then throw .tooLong
      let s ← s.transport i (.sendSerialized peer msg.serialized (answers.headD []))
      send i s sends answers.tail

/-- Node `i` handles an event, with the store that it finds. -/
def act (setup : Setup ι) (now : ℚ) (s : Stack ι) (i : ι) (store : BlockBodyStore) (e : Node.Event)
    (answers : List (List Answer)) : Except Halt (Stack ι) :=
  match (s.nodes i).step (setup.config i) now store e with
  | none => throw .handler
  | some (store, n, sends) =>
      send i { s with nodes := Function.update s.nodes i n, store := store } sends answers

/-- Node `j` handles a payload from node `i`. -/
def receive (setup : Setup ι) (now : ℚ) (i j : ι) (s : Stack ι) (payload : Bytes) (chance : Chance) :
    Except Halt (Stack ι) :=
  match readPayload payload with
  | none => throw .badPayload
  | some none => return s
  | some (some msg) =>
      let (store, e) := Node.processMessage s.store chance.draw (setup.address i) msg
      act setup now s j store e chance.answers

/-- The payloads of a read, one after the other. -/
def receiveAll (setup : Setup ι) (now : ℚ) (i j : ι) :
    Stack ι → List Serialized → List Chance → Except Halt (Stack ι)
  | s, [], _ => return s
  | s, m :: ms, chances => do
      let s ← receive setup now i j s m.serialized (chances.headD { draw := fun _ => 0, answers := [] })
      receiveAll setup now i j s ms chances.tail

/-- One event at time `now`.  A read hands over its payloads when it has gone
through all packets; nothing that a handler does changes what is being read. -/
def step (setup : Setup ι) (s : Stack ι) (now : ℚ) : Event ι → Except Halt (Stack ι)
  | .own i e answers =>
      if mayOccur (s.nodes i) e then act setup now s i s.store e answers else throw .disabled
  | .connectionSucceeded i socket answers => s.transport i (.connectionSucceeded socket answers)
  | .sendReady i socket answers => s.transport i (.sendReady socket answers)
  | .read i socket sizes j chances =>
      match (s.channels i).connections[socket]? with
      | none => throw .disabled
      | some c =>
          if c.peer = setup.address j then do
            let s' ← s.transport i (.read socket sizes)
            receiveAll setup now i j s'
              (((s'.channels i).delivered c.peer).drop ((s.channels i).delivered c.peer).length) chances
          else throw .disabled

/-- The events of a run, each with the time at which it happens. -/
def run (setup : Setup ι) (mpiSize : Nat) (events : List (ℚ × Event ι)) : Except Halt (Stack ι) :=
  events.foldlM (fun s e => step setup s e.1 e.2) (init setup mpiSize)

/-- The fees in an event are those of a `uint32_t`. -/
def Event.InRange : Event ι → Prop
  | .own _ e _ => e.FeesInRange
  | .read _ _ _ _ chances => ∀ chance ∈ chances, ∀ t, chance.draw t < 2 ^ 32
  | _ => True

end Stack

end GhostDag
