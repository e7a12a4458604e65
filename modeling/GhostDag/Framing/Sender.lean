import GhostDag.Dag.Block
import GhostDag.Framing.Receiver

/-!
# GhostDag.Framing.Sender

The sending side of `node.cc`: messages wait for the connection, then for
space in the TCP send buffer.

What a function does to TCP is returned as a list of calls.  What TCP answers
is an argument.  Connections do not fail here, and closing a socket does not
take back what TCP has accepted.
-/

namespace GhostDag

open Std (ExtTreeMap)

/-- `Ptr<Socket>`. -/
abbrev Socket := Nat

/-- What TCP answers to one turn of the loop in `HandleSendReady`:
`GetTxAvailable`, and whether `Send` takes the packet. -/
structure Answer where
  available : UInt32
  accepted : Bool := true

/-- What a node does to its sockets. -/
inductive TcpCall
  | connect (socket : Socket) (peer : Ipv4Address)
  | send (socket : Socket) (packet : Packet)

/-- The members of a node that have to do with sending. -/
structure Transport where
  running : Bool
  /-- `MpiInterface::GetSize()`. -/
  mpiSize : Nat
  peersSockets : ExtTreeMap Ipv4Address Socket
  socketToPeer : ExtTreeMap Socket Ipv4Address
  pendingMessages : ExtTreeMap Ipv4Address (List Serialized)
  txQueue : ExtTreeMap Socket (List Packet)
  txFrameSeq : ExtTreeMap Socket UInt32
  /-- What the next `Socket::CreateSocket` returns. -/
  nextSocket : Socket

namespace Transport

/-- The loop of `HandleSendReady`: the queue afterwards, and the packets that
TCP took.  When the answers end there is no more space. -/
def drain : List Packet → List Answer → List Packet × List Packet
  | [], _ => ([], [])
  | queue, [] => (queue, [])
  | head :: queue, answer :: answers =>
      if answer.available = 0 ∨ !answer.accepted then (head :: queue, [])
      else if head.getSize ≤ answer.available.toNat then
        let (queue', sent) := drain queue answers
        (queue', head :: sent)
      else
        let (queue', sent) := drain
          (head.createFragment answer.available.toNat (head.getSize - answer.available.toNat) :: queue)
          answers
        (queue', head.createFragment 0 answer.available.toNat :: sent)

/-- `HandleSendReady`. -/
def handleSendReady (t : Transport) (socket : Socket) (answers : List Answer) :
    Transport × List TcpCall :=
  match t.txQueue[socket]? with
  | none => (t, [])
  | some queue =>
      let (queue', sent) := drain queue answers
      ({ t with txQueue := t.txQueue.insert socket queue' }, sent.map (.send socket))

/-- `EnqueueFrame`. -/
def enqueueFrame (t : Transport) (socket : Socket) (m : Serialized) (answers : List Answer) :
    Except Abort (Transport × List TcpCall) :=
  let seq := t.txFrameSeq[socket]?.getD 0
  let queue := t.txQueue[socket]?.getD []
  if !m.inlinePayload ∧ 1 < t.mpiSize ∧ mpiPayloadLimit < m.serialized.length then
    .error (.payloadExceedsMpiBuffer m.serialized.length)
  else
    let t := { t with
      txFrameSeq := t.txFrameSeq.insert socket (seq + 1)
      txQueue := t.txQueue.insert socket (queue ++ m.packets seq) }
    .ok (t.handleSendReady socket answers)

/-- `CreatePeerSocket`. -/
def createPeerSocket (t : Transport) (peer : Ipv4Address) : Transport × List TcpCall :=
  let socket := t.nextSocket
  ({ t with
      nextSocket := socket + 1
      socketToPeer := t.socketToPeer.insert socket peer
      peersSockets := t.peersSockets.insert peer socket
      pendingMessages := t.pendingMessages.insertIfNew peer [] },
    [.connect socket peer])

/-- `SendSerialized`. -/
def sendSerialized (t : Transport) (dest : Ipv4Address) (m : Serialized) (answers : List Answer) :
    Except Abort (Transport × List TcpCall) :=
  if !t.running then .ok (t, [])
  else match t.pendingMessages[dest]? with
    | some pending =>
        .ok ({ t with pendingMessages := t.pendingMessages.insert dest (pending ++ [m]) }, [])
    | none => match t.peersSockets[dest]? with
      | none =>
          let t := { t with pendingMessages := t.pendingMessages.insert dest [m] }
          .ok (t.createPeerSocket dest)
      | some socket => t.enqueueFrame socket m answers

/-- The loop of `HandleConnectionSucceeded`; each frame has answers of its
own. -/
def enqueuePending (socket : Socket) :
    Transport → List Serialized → List (List Answer) → Except Abort (Transport × List TcpCall)
  | t, [], _ => .ok (t, [])
  | t, m :: pending, answers => do
      let (t', calls) ← t.enqueueFrame socket m (answers.headD [])
      let (t'', calls') ← enqueuePending socket t' pending answers.tail
      return (t'', calls ++ calls')

/-- `HandleConnectionSucceeded`. -/
def handleConnectionSucceeded (t : Transport) (socket : Socket) (answers : List (List Answer)) :
    Except Abort (Transport × List TcpCall) :=
  match t.socketToPeer[socket]? with
  | none => .ok (t, [])
  | some peer => match t.pendingMessages[peer]? with
    | none => .ok (t, [])
    | some pending => do
        let (t', calls) ← enqueuePending socket t pending answers
        return ({ t' with pendingMessages := t'.pendingMessages.erase peer }, calls)

/-- `StartApplication`, as far as it opens the connections: the node knows
`peers` and has no socket yet. -/
def startApplication (mpiSize : Nat) (peers : List Ipv4Address) : Transport × List TcpCall :=
  peers.foldl (fun r peer =>
      let (t, calls) := r.1.createPeerSocket peer
      (t, r.2 ++ calls))
    ({ running := true
       mpiSize := mpiSize
       peersSockets := ∅
       socketToPeer := ∅
       pendingMessages := ∅
       txQueue := ∅
       txFrameSeq := ∅
       nextSocket := 0 }, [])

/-- `StopApplication`. -/
def stopApplication (t : Transport) : Transport :=
  { t with
    running := false
    peersSockets := ∅
    socketToPeer := ∅
    pendingMessages := ∅
    txQueue := ∅
    txFrameSeq := ∅ }

end Transport

end GhostDag
