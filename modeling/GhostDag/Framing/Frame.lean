import GhostDag.Lib.LittleEndian

/-!
# GhostDag.Framing.Frame

Frames (`node.cc`): every message goes over a TCP connection as one frame of
exactly its modelled size, a prefix of 16 bytes followed by the payload and
zero padding, or by padding alone when the payload does not fit and rides as
a byte tag on the last byte.

A packet is the list of its bytes with their tags.  `memcpy` reads the words
of the prefix as on a little-endian host.
-/

namespace GhostDag

/-- The bytes of a `std::string`. -/
abbrev Bytes := List UInt8

/-- A byte of a packet, with the `GhostDagPayloadTag` it carries. -/
structure Octet where
  byte : UInt8
  tag : Option Bytes := none
  deriving DecidableEq

/-- `ns3::Packet`. -/
abbrev Packet := List Octet

namespace Packet

/-- `Create<Packet>(size)`: a zero area. -/
def create (size : Nat) : Packet := List.replicate size { byte := 0 }

def getSize (p : Packet) : Nat := p.length

def createFragment (p : Packet) (start length : Nat) : Packet := (p.drop start).take length

@[simp] theorem createFragment_zero (p : Packet) (n : Nat) : p.createFragment 0 n = p.take n := rfl

/-- The two fragments of a packet make it up. -/
theorem take_append_createFragment (p : Packet) (n : Nat) :
    p.take n ++ p.createFragment n (p.getSize - n) = p := by
  have hlen : (p.drop n).length ≤ p.getSize - n := by rw [List.length_drop, getSize]
  rw [createFragment, List.take_of_length_le hlen, List.take_append_drop]

/-- `CopyData` of the whole packet. -/
def copyData (p : Packet) : Bytes := p.map Octet.byte

/-- `AddByteTag`: the tag covers every byte there is. -/
def addByteTag (p : Packet) (payload : Bytes) : Packet :=
  p.map fun o => { o with tag := some payload }

/-- Bytes without tags. -/
def ofBytes (bs : Bytes) : Packet := bs.map fun b => { byte := b }

end Packet

/-- `FRAME_MAGIC`, "GDAG". -/
def frameMagic : UInt32 := 0x47444147

def framePrefixSize : UInt32 := 16

def mpiPayloadLimit : Nat := 2097152 - 65536

/-- `GhostDagFrameHeader`. -/
structure GhostDagFrameHeader where
  payload : Bytes
  frameLen : UInt32
  seq : UInt32

namespace GhostDagFrameHeader

def getSerializedSize (h : GhostDagFrameHeader) : UInt32 :=
  framePrefixSize + .ofNat h.payload.length

/-- The four words that `Serialize` writes before the payload. -/
def serializePrefix (h : GhostDagFrameHeader) : Bytes :=
  LittleEndian.encode frameMagic ++ (LittleEndian.encode h.frameLen
    ++ (LittleEndian.encode (.ofNat h.payload.length) ++ LittleEndian.encode h.seq))

def serialize (h : GhostDagFrameHeader) : Bytes := h.serializePrefix ++ h.payload

@[simp] theorem length_serializePrefix (h : GhostDagFrameHeader) :
    h.serializePrefix.length = 16 := rfl

end GhostDagFrameHeader

/-- `AddHeader`. -/
def Packet.addHeader (p : Packet) (h : GhostDagFrameHeader) : Packet :=
  Packet.ofBytes h.serialize ++ p

/-! ## the frame of a message -/

/-- A message as `SendSerialized` gets it: its CBOR encoding, and the size it
is modelled to have. -/
structure Serialized where
  serialized : Bytes
  wireBytes : UInt32
  deriving DecidableEq

namespace Serialized

/-- `wire_bytes` as `EnqueueFrame` uses it: room for the prefix and at least
one more byte. -/
def frameLen (m : Serialized) : UInt32 := max m.wireBytes (framePrefixSize + 1)

/-- `inline_payload`: the payload fits between the prefix and the end. -/
def inlinePayload (m : Serialized) : Bool :=
  framePrefixSize + .ofNat m.serialized.length ≤ m.frameLen

/-- The payload of the header. -/
def inlined (m : Serialized) : Bytes := if m.inlinePayload then m.serialized else []

/-- The header of the message's frame, when it is number `seq`. -/
def header (m : Serialized) (seq : UInt32) : GhostDagFrameHeader where
  payload := m.inlined
  frameLen := m.frameLen
  seq := seq

/-- The packets that `EnqueueFrame` makes of a message: one, or a body and a
tail of one byte with the tag. -/
def packets (m : Serialized) (seq : UInt32) : List Packet :=
  if m.inlinePayload then
    [(Packet.create (m.frameLen - (m.header seq).getSerializedSize).toNat).addHeader (m.header seq)]
  else
    [(Packet.create (m.frameLen - 1 - framePrefixSize).toNat).addHeader (m.header seq),
     (Packet.create 1).addByteTag m.serialized]

/-- The frame as the stream carries it. -/
def frame (m : Serialized) (seq : UInt32) : Packet := (m.packets seq).flatten

/-- A message as the other end hands it on: with the size of its frame. -/
def framed (m : Serialized) : Serialized := { m with wireBytes := m.frameLen }

/-- A payload that a frame can carry: not empty, and its size plus that of the
prefix is a `uint32_t`. -/
structure Framable (m : Serialized) : Prop where
  pos : 0 < m.serialized.length
  lt : m.serialized.length < 2 ^ 32 - 16

/-- What follows the header in the frame. -/
def padding (m : Serialized) : Packet :=
  if m.inlinePayload then Packet.create (m.frameLen.toNat - 16 - m.serialized.length)
  else Packet.create (m.frameLen.toNat - 17) ++ [{ byte := 0, tag := some m.serialized }]

end Serialized

/-- The frames of messages numbered from `seq` on, one after the other. -/
def frames (seq : UInt32) : List Serialized → Packet
  | [] => []
  | m :: ms => m.frame seq ++ frames (seq + 1) ms

/-- The number of a frame, counted from the one after `seq`. -/
theorem seq_succ (seq : UInt32) (n : Nat) : seq + 1 + .ofNat n = seq + .ofNat (n + 1) := by
  rw [UInt32.ofNat_add, add_comm (UInt32.ofNat n), ← add_assoc]
  rfl

theorem frames_append (seq : UInt32) (ms ms' : List Serialized) :
    frames seq (ms ++ ms') = frames seq ms ++ frames (seq + .ofNat ms.length) ms' := by
  induction ms generalizing seq with
  | nil => simp [frames]
  | cons m ms ih =>
      simp only [List.cons_append, frames, ih, List.length_cons, seq_succ, List.append_assoc]

namespace Serialized

variable {m : Serialized}

theorem toNat_frameLen (m : Serialized) : m.frameLen.toNat = max m.wireBytes.toNat 17 := by
  have hmax : m.frameLen = if m.wireBytes ≤ 17 then 17 else m.wireBytes := rfl
  rw [hmax]
  split <;> rename_i h <;> rw [UInt32.le_iff_toNat_le] at h
  · exact (max_eq_right h).symm
  · exact (max_eq_left (Nat.le_of_not_le h)).symm

theorem lt_frameLen (m : Serialized) : 16 < m.frameLen.toNat := by
  have h := m.toNat_frameLen
  omega

theorem Framable.inlinePayload_iff (h : m.Framable) :
    m.inlinePayload = true ↔ 16 + m.serialized.length ≤ m.frameLen.toNat := by
  have hlt := h.lt
  simp only [inlinePayload, decide_eq_true_eq, UInt32.le_iff_toNat_le, UInt32.toNat_add,
    UInt32.toNat_ofNat', framePrefixSize, UInt32.reduceToNat]
  omega

theorem Framable.length_inlined (h : m.Framable) :
    16 + m.inlined.length ≤ m.frameLen.toNat := by
  unfold inlined
  split
  · exact h.inlinePayload_iff.mp ‹_›
  · exact m.lt_frameLen.le

/-- The frame is its header and the padding. -/
theorem Framable.frame_eq (h : m.Framable) (seq : UInt32) :
    m.frame seq = Packet.ofBytes (m.header seq).serialize ++ m.padding := by
  have hlen := h.length_inlined
  by_cases hin : m.inlinePayload = true
  · have hlt := h.lt
    have hsize : (m.frameLen - (m.header seq).getSerializedSize).toNat
        = m.frameLen.toNat - 16 - m.serialized.length := by
      have hle := h.inlinePayload_iff.mp hin
      have hf := m.frameLen.toNat_lt
      simp only [GhostDagFrameHeader.getSerializedSize, header, inlined, hin, if_true,
        framePrefixSize, UInt32.toNat_sub, UInt32.toNat_add, UInt32.toNat_ofNat',
        UInt32.reduceToNat]
      omega
    simp [frame, packets, padding, Packet.addHeader, hin, hsize]
  · have hsize : (m.frameLen - 1 - framePrefixSize).toNat = m.frameLen.toNat - 17 := by
      have hf := m.frameLen.toNat_lt
      have hgt := m.lt_frameLen
      simp only [framePrefixSize, UInt32.toNat_sub, UInt32.reduceToNat]
      omega
    simp [frame, packets, padding, Packet.addHeader, Packet.addByteTag, Packet.create, hin, hsize]

theorem length_padding (m : Serialized) :
    m.padding.length = m.frameLen.toNat - 16 - m.inlined.length := by
  have hgt := m.lt_frameLen
  by_cases hin : m.inlinePayload = true
  · simp [padding, inlined, hin, Packet.create]
  · simp only [padding, inlined, hin, Packet.create, List.length_append, List.length_replicate,
      List.length_cons, List.length_nil, Bool.false_eq_true, if_false]
    omega

/-- **A frame has exactly the modelled size.** -/
theorem Framable.length_frame (h : m.Framable) (seq : UInt32) :
    (m.frame seq).length = m.frameLen.toNat := by
  have hlen := h.length_inlined
  simp only [h.frame_eq, List.length_append, Packet.ofBytes, List.length_map,
    GhostDagFrameHeader.serialize, GhostDagFrameHeader.length_serializePrefix, m.length_padding,
    header]
  omega

/-- A payload that does not fit rides on the last byte. -/
theorem Framable.getLast?_frame (h : m.Framable) (seq : UInt32) (hin : m.inlinePayload = false) :
    (m.frame seq).getLast? = some { byte := 0, tag := some m.serialized } := by
  simp [h.frame_eq, padding, hin]

end Serialized

end GhostDag
