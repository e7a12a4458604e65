import GhostDag.Framing.Sender

/-!
# GhostDag.Framing.Channel

One node and the connections that it opens to its peers, with what the peers
read from them.

TCP is a reliable stream of bytes, in order, that keeps byte tags on their
bytes: it takes as much as it says it takes, and hands over what it has taken
in pieces of any size.  `sent` and `delivered` are records of what happened;
no function of the source reads them.
-/

namespace GhostDag

open Std (ExtTreeMap)

/-- A connection, and the end of it at the peer. -/
structure Connection where
  peer : Ipv4Address
  /-- Accepted by `Send`, not yet read. -/
  inFlight : Packet := []
  /-- What the peer keeps for the socket in `m_rx_state`. -/
  rx : RxFrameState := {}
  /-- `m_running` of the peer. -/
  running : Bool := true

structure Channels where
  transport : Transport
  connections : ExtTreeMap Socket Connection
  /-- The calls of `SendSerialized` for a peer while the node was running. -/
  sent : Ipv4Address → List Serialized
  /-- What a peer passed on: payloads, each with the size of its frame. -/
  delivered : Ipv4Address → List Serialized
  /-- How often a peer logged a frame without payload. -/
  withoutPayload : Nat

namespace Channels

/-- What happens next. -/
inductive Event
  | sendSerialized (dest : Ipv4Address) (m : Serialized) (answers : List Answer)
  | connectionSucceeded (socket : Socket) (answers : List (List Answer))
  | sendReady (socket : Socket) (answers : List Answer)
  | stop
  /-- The peer has something to read. -/
  | read (socket : Socket) (sizes : List Nat)
  /-- `StopApplication` at the peer. -/
  | stopPeer (socket : Socket)

/-- What TCP does. -/
def tcp (connections : ExtTreeMap Socket Connection) : TcpCall → ExtTreeMap Socket Connection
  | .connect socket peer => connections.insert socket { peer := peer }
  | .send socket packet => match connections[socket]? with
      | none => connections
      | some c => connections.insert socket { c with inFlight := c.inFlight ++ packet }

/-- The node acts. -/
def act (g : Channels) (r : Transport × List TcpCall) : Channels :=
  { g with transport := r.1, connections := r.2.foldl tcp g.connections }

def init (mpiSize : Nat) (peers : List Ipv4Address) : Channels where
  transport := (Transport.startApplication mpiSize peers).1
  connections := (Transport.startApplication mpiSize peers).2.foldl tcp ∅
  sent _ := []
  delivered _ := []
  withoutPayload := 0

/-- The payloads among what a peer passed on. -/
def payloads (outs : List Outcome) : List Serialized :=
  outs.filterMap fun
    | .frame m => some m
    | .withoutPayload => none

def step (g : Channels) : Event → Except Abort Channels
  | .sendSerialized dest m answers => do
      let r ← g.transport.sendSerialized dest m answers
      let g' := g.act r
      if g.transport.running then
        return { g' with sent := Function.update g.sent dest (g.sent dest ++ [m]) }
      else return g'
  | .connectionSucceeded socket answers => do
      return g.act (← g.transport.handleConnectionSucceeded socket answers)
  | .sendReady socket answers => return g.act (g.transport.handleSendReady socket answers)
  | .stop => return { g with transport := g.transport.stopApplication }
  | .read socket sizes => match g.connections[socket]? with
      | none => return g
      | some c => do
          let (rx, inFlight, outs) ← handleRead c.running c.rx c.inFlight sizes
          return { g with
            connections := g.connections.insert socket { c with rx := rx, inFlight := inFlight }
            delivered :=
              Function.update g.delivered c.peer (g.delivered c.peer ++ payloads outs)
            withoutPayload := g.withoutPayload + outs.count .withoutPayload }
  | .stopPeer socket => match g.connections[socket]? with
      | none => return g
      | some c => return { g with
          connections := g.connections.insert socket { c with rx := {}, running := false } }

/-- The events of a run, one after the other. -/
def run (g : Channels) (events : List Event) : Except Abort Channels := events.foldlM step g

/-- Every payload that is sent can be framed. -/
def Event.Framable : Event → Prop
  | .sendSerialized _ m _ => m.Framable
  | _ => True

end Channels

end GhostDag
