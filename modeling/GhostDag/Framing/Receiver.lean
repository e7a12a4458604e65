import GhostDag.Framing.Frame
import GhostDag.Lib.Containers

/-!
# GhostDag.Framing.Receiver

`HandleRead` (`node.cc`): the bytes that TCP hands over, packet by packet,
are put together to frames, and the payload of each frame is passed on.

What becomes of a payload (`from_cbor`, `ProcessMessage`) is not part of this
module: `Outcome.frame` is the point where it is handed to the decoder.
-/

namespace GhostDag

open Std (ExtTreeMap)

/-- What ends the simulation with a message (`NS_ABORT_MSG_IF`). -/
inductive Abort
  /-- "corrupt frame stream", with the words of the prefix and the expected
  number. -/
  | corruptFrame (magic len payloadLen seq nextSeq : UInt32)
  /-- "Message payload of .. bytes exceeds the MPI buffer". -/
  | payloadExceedsMpiBuffer (size : Nat)
  deriving DecidableEq

/-- How a frame ends: its payload is passed on with the size of the frame, or
"received a frame without payload" is logged. -/
inductive Outcome
  | frame (payload : Serialized)
  | withoutPayload
  deriving DecidableEq

/-- What is known of the frame that is being received from a peer. -/
structure RxFrameState where
  /-- The first `prefix_have` bytes of `prefix`. -/
  prefixBytes : Bytes := []
  frameLen : UInt32 := 0
  /-- Inline payload bytes (0: payload in a tag). -/
  payloadLen : UInt32 := 0
  bodyRemaining : Nat := 0
  /-- Frame counter expected from this peer. -/
  nextSeq : UInt32 := 0
  payload : Bytes := []
  deriving DecidableEq

namespace RxFrameState

def prefixHave (st : RxFrameState) : Nat := st.prefixBytes.length

/-- `ResetFrame`. -/
def resetFrame (st : RxFrameState) : RxFrameState := { nextSeq := st.nextSeq }

/-- The complete prefix is checked and taken apart. -/
def readPrefix (st : RxFrameState) : Except Abort RxFrameState :=
  let magic := LittleEndian.decode st.prefixBytes
  let len := LittleEndian.decode (st.prefixBytes.drop 4)
  let payloadLen := LittleEndian.decode (st.prefixBytes.drop 8)
  let seq := LittleEndian.decode (st.prefixBytes.drop 12)
  if magic ≠ frameMagic ∨ len ≤ framePrefixSize ∨ payloadLen > len - framePrefixSize
      ∨ seq ≠ st.nextSeq then
    .error (.corruptFrame magic len payloadLen seq st.nextSeq)
  else
    .ok { st with
      nextSeq := seq + 1
      frameLen := len
      payloadLen := payloadLen
      payload := []
      bodyRemaining := (len - framePrefixSize).toNat }

/-- The body is complete at offset `pos` of the packet: the payload comes from
the frame, or from the tag on its last byte. -/
def endFrame (st : RxFrameState) (payloads : ExtTreeMap Nat Bytes) (pos : Nat) : Outcome :=
  if 0 < st.payloadLen then .frame { serialized := st.payload, wireBytes := st.frameLen }
  else match payloads[pos]? with
    | some payload => .frame { serialized := payload, wireBytes := st.frameLen }
    | none => .withoutPayload

/-- One turn of the loop over a packet: the new state and offset, and the
frame that ended, if one did. -/
def turn (packet : Packet) (payloads : ExtTreeMap Nat Bytes) (st : RxFrameState) (pos : Nat) :
    Except Abort (RxFrameState × Nat × List Outcome) :=
  if st.prefixHave < framePrefixSize.toNat then
    let take := min (framePrefixSize.toNat - st.prefixHave) (packet.getSize - pos)
    let st := { st with
      prefixBytes := st.prefixBytes ++ (packet.createFragment pos take).copyData }
    if st.prefixHave = framePrefixSize.toNat then
      return (← st.readPrefix, pos + take, [])
    else return (st, pos + take, [])
  else if st.payload.length < st.payloadLen.toNat then
    let take := min (st.payloadLen.toNat - st.payload.length) (packet.getSize - pos)
    return ({ st with
      payload := st.payload ++ (packet.createFragment pos take).copyData
      bodyRemaining := st.bodyRemaining - take }, pos + take, [])
  else
    let take := min st.bodyRemaining (packet.getSize - pos)
    let st := { st with bodyRemaining := st.bodyRemaining - take }
    if 0 < st.bodyRemaining then return (st, pos + take, [])
    else return (st.resetFrame, pos + take, [st.endFrame payloads (pos + take)])

/-- Every turn consumes bytes, or ends a frame. -/
theorem turn_lt {packet : Packet} {payloads : ExtTreeMap Nat Bytes} {st st' : RxFrameState}
    {pos pos' : Nat} {outs : List Outcome} (hpos : pos < packet.getSize)
    (h : st.turn packet payloads pos = .ok (st', pos', outs)) :
    2 * (packet.getSize - pos') + (if st'.prefixHave < framePrefixSize.toNat then 0 else 1)
      < 2 * (packet.getSize - pos) + (if st.prefixHave < framePrefixSize.toNat then 0 else 1) := by
  have hsize : framePrefixSize.toNat = 16 := rfl
  rw [hsize]
  simp only [turn] at h
  split at h
  case isTrue hhave =>
    rw [hsize] at h hhave
    have hpos' : pos' = pos + min (16 - st.prefixHave) (packet.getSize - pos) := by
      split at h
      · cases hread : RxFrameState.readPrefix _ with
        | error e => rw [hread] at h; cases h
        | ok st₁ => rw [hread] at h; cases h; rfl
      · cases h; rfl
    split <;> omega
  case isFalse hhave =>
    rw [hsize] at hhave
    rw [if_neg hhave]
    split at h
    case isTrue hpay =>
      cases h
      have hhave' : ¬ st.prefixBytes.length < 16 := hhave
      simp only [prefixHave, hhave', if_false]
      omega
    case isFalse hpay =>
      split at h
      case isTrue hbody =>
        cases h
        have hhave' : ¬ st.prefixBytes.length < 16 := hhave
        simp only [prefixHave, hhave', if_false]
        omega
      case isFalse hbody =>
        cases h
        simp only [prefixHave, resetFrame, List.length_nil, Nat.zero_lt_succ, if_true]
        omega

/-- The loop over one packet. -/
def readFrom (packet : Packet) (payloads : ExtTreeMap Nat Bytes) (st : RxFrameState) (pos : Nat) :
    Except Abort (RxFrameState × List Outcome) :=
  if _hpos : pos < packet.getSize then
    match _h : st.turn packet payloads pos with
    | .error e => .error e
    | .ok (st', pos', outs) => do
        let (st'', outs') ← readFrom packet payloads st' pos'
        return (st'', outs ++ outs')
  else return (st, [])
termination_by 2 * (packet.getSize - pos) + if st.prefixHave < framePrefixSize.toNat then 0 else 1
decreasing_by exact turn_lt ‹_› ‹_›

end RxFrameState

/-- One byte of a packet, at its offset, in the loop over the tags. -/
def Packet.addPayload (payloads : ExtTreeMap Nat Bytes) (item : Octet × Nat) :
    ExtTreeMap Nat Bytes :=
  match item.1.tag with
  | some payload => payloads.insert (item.2 + 1) payload
  | none => payloads

/-- Payload tags in a packet, keyed by the offset just past their byte. -/
def Packet.payloads (packet : Packet) : ExtTreeMap Nat Bytes :=
  packet.zipIdx.foldl addPayload ∅

/-- The loop over the packets that `RecvFrom` cuts from the bytes TCP holds in
order, until it returns none or an empty one. -/
def RxFrameState.readPackets (st : RxFrameState) (buffer : Packet) :
    List Nat → Except Abort (RxFrameState × Packet × List Outcome)
  | [] => return (st, buffer, [])
  | size :: sizes => do
      let packet := buffer.createFragment 0 size
      if packet.getSize = 0 then return (st, buffer, [])
      let (st', outs) ← st.readFrom packet packet.payloads 0
      let (st'', buffer', outs') ← st'.readPackets (buffer.drop size) sizes
      return (st'', buffer', outs ++ outs')

/-- `HandleRead`: the state for the socket, the bytes left in TCP, and what was
passed on. -/
def handleRead (running : Bool) (st : RxFrameState) (buffer : Packet) (sizes : List Nat) :
    Except Abort (RxFrameState × Packet × List Outcome) :=
  if !running then return (st, buffer, []) else st.readPackets buffer sizes

end GhostDag
