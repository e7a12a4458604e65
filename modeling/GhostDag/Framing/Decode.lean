import GhostDag.Framing.Receiver

/-!
# GhostDag.Framing.Decode

What `HandleRead` makes of a stream of frames.

The state of the receiver is not found by running it: `Serialized.stateAt`
computes it from the frame and the number of bytes of it that were read.
Each turn of the loop takes `stateAt` to `stateAt` further on, or ends the
frame; hence the payloads passed on do not depend on how the stream was cut
into packets.
-/

namespace GhostDag

open Std (ExtTreeMap)

/-! ## pieces of a packet -/

namespace Packet

@[simp] theorem copyData_ofBytes (bs : Bytes) : (ofBytes bs).copyData = bs := by
  rw [copyData, ofBytes, List.map_map]
  exact List.map_id bs

theorem getElem?_addPayload (payloads : ExtTreeMap Nat Bytes) (o : Octet) (n i : Nat) :
    (addPayload payloads (o, n))[i + 1]?
      = if i = n then o.tag.or payloads[i + 1]? else payloads[i + 1]? := by
  unfold addPayload
  cases htag : o.tag with
  | none => simp
  | some payload =>
      rw [Containers.getElem?_insert]
      simp

theorem getElem?_foldl_addPayload (packet : Packet) (payloads : ExtTreeMap Nat Bytes)
    (n i : Nat) :
    ((packet.zipIdx n).foldl addPayload payloads)[i + 1]?
      = if n ≤ i then (packet[i - n]?.bind Octet.tag).or payloads[i + 1]?
        else payloads[i + 1]? := by
  induction packet generalizing payloads n with
  | nil => simp
  | cons o packet ih =>
      rw [List.zipIdx_cons, List.foldl_cons, ih, getElem?_addPayload]
      rcases lt_trichotomy i n with hlt | rfl | hgt
      · rw [if_neg (by omega), if_neg hlt.ne, if_neg (by omega)]
      · rw [if_neg (by omega), if_pos rfl, if_pos le_rfl]
        simp
      · have hsucc : i - n = i - (n + 1) + 1 := by omega
        rw [if_pos (Nat.succ_le_of_lt hgt), if_neg hgt.ne', if_pos hgt.le, hsucc, List.getElem?_cons_succ]

/-- The tag on the byte before an offset. -/
theorem getElem?_payloads (packet : Packet) (i : Nat) :
    packet.payloads[i + 1]? = packet[i]?.bind Octet.tag := by
  simp [payloads, getElem?_foldl_addPayload]

/-- A fragment of a packet that continues a stream is that part of the
stream. -/
theorem copyData_createFragment {packet : Packet} (rest p : Packet) {bs : Bytes} {pos k t : Nat}
    (hstream : packet.drop pos ++ rest = (ofBytes bs ++ p).drop k)
    (hpos : pos + t ≤ packet.getSize) (hk : k + t ≤ bs.length) :
    (packet.createFragment pos t).copyData = (bs.drop k).take t := by
  have hpos' : t ≤ (packet.drop pos).length := by
    rw [List.length_drop]; unfold getSize at hpos; omega
  have hk' : k ≤ (ofBytes bs).length := by simp only [ofBytes, List.length_map]; omega
  have ht : t ≤ ((ofBytes bs).drop k).length := by
    simp only [ofBytes, List.length_drop, List.length_map]; omega
  have htake : (packet.drop pos).take t = ((ofBytes bs).drop k).take t := by
    have hleft : (packet.drop pos ++ rest).take t = (packet.drop pos).take t :=
      List.take_append_of_le_length hpos'
    rw [← hleft, hstream, List.drop_append_of_le_length hk', List.take_append_of_le_length ht]
  rw [createFragment, htake, ofBytes, ← List.map_drop, ← List.map_take]
  exact copyData_ofBytes _

end Packet

/-! ## the state within a frame -/

namespace Serialized

/-- The receiver when it has read `k` bytes of the frame with number `seq`. -/
def stateAt (m : Serialized) (seq : UInt32) (k : Nat) : RxFrameState :=
  if k < 16 then
    { prefixBytes := (m.header seq).serializePrefix.take k
      nextSeq := seq }
  else
    { prefixBytes := (m.header seq).serializePrefix
      frameLen := m.frameLen
      payloadLen := .ofNat m.inlined.length
      bodyRemaining := m.frameLen.toNat - k
      nextSeq := seq + 1
      payload := m.inlined.take (k - 16) }

/-- The receiver can rest after `k` bytes of the frame: it is not complete, or
it ends with its payload, whose frame is ended by the byte that follows. -/
def Rests (m : Serialized) (k : Nat) : Prop :=
  k ≤ m.frameLen.toNat ∧ (k = m.frameLen.toNat → 16 + m.inlined.length = m.frameLen.toNat)

variable {m : Serialized}

@[simp] theorem stateAt_zero (m : Serialized) (seq : UInt32) :
    m.stateAt seq 0 = { nextSeq := seq } := by simp [stateAt]

theorem stateAt_of_le {k : Nat} (hk : 16 ≤ k) (m : Serialized) (seq : UInt32) :
    m.stateAt seq k =
      { prefixBytes := (m.header seq).serializePrefix
        frameLen := m.frameLen
        payloadLen := .ofNat m.inlined.length
        bodyRemaining := m.frameLen.toNat - k
        nextSeq := seq + 1
        payload := m.inlined.take (k - 16) } := if_neg (Nat.not_lt.mpr hk)

theorem Framable.toNat_ofNat_inlined (h : m.Framable) :
    (UInt32.ofNat m.inlined.length).toNat = m.inlined.length := by
  have hlen := h.length_inlined
  have hlt := m.frameLen.toNat_lt
  rw [UInt32.toNat_ofNat']
  omega

/-- **The prefix of a frame passes the check.** -/
theorem Framable.readPrefix (h : m.Framable) (seq : UInt32) :
    RxFrameState.readPrefix
      { prefixBytes := (m.header seq).serializePrefix, nextSeq := seq } = .ok (m.stateAt seq 16) := by
  have hmagic : LittleEndian.decode (m.header seq).serializePrefix = frameMagic :=
    LittleEndian.decode_encode_append _ _
  have hlen : LittleEndian.decode ((m.header seq).serializePrefix.drop 4) = m.frameLen :=
    LittleEndian.decode_encode_append _ _
  have hpayload : LittleEndian.decode ((m.header seq).serializePrefix.drop 8)
      = .ofNat m.inlined.length := LittleEndian.decode_encode_append _ _
  have hseq : LittleEndian.decode ((m.header seq).serializePrefix.drop 12) = seq :=
    LittleEndian.decode_encode _
  have hgt : ¬ m.frameLen ≤ framePrefixSize := by
    rw [UInt32.le_iff_toNat_le]
    exact Nat.not_le.mpr m.lt_frameLen
  have hsub : (m.frameLen - framePrefixSize).toNat = m.frameLen.toNat - 16 :=
    UInt32.toNat_sub_of_le _ _ (UInt32.le_iff_toNat_le.mpr m.lt_frameLen.le)
  have hfits : ¬ UInt32.ofNat m.inlined.length > m.frameLen - framePrefixSize := by
    have hlen' := h.length_inlined
    rw [gt_iff_lt, UInt32.lt_iff_toNat_lt, hsub, h.toNat_ofNat_inlined]
    omega
  simp only [RxFrameState.readPrefix, hmagic, hlen, hpayload, hseq]
  rw [if_neg (by simp [hgt, hfits])]
  simp [stateAt, hsub]

/-! ## one turn -/

section
variable {packet rest more : Packet} {payloads : ExtTreeMap Nat Bytes} {pos k : Nat}
  {seq : UInt32}

/-- A turn within the prefix. -/
theorem Framable.turn_prefix (h : m.Framable) (hk : k < 16) (hpos : pos < packet.getSize)
    (hstream : packet.drop pos ++ rest = (m.frame seq ++ more).drop k) :
    ∃ t, k + t ≤ 16 ∧ pos + t ≤ packet.getSize ∧
      (m.stateAt seq k).turn packet payloads pos = .ok (m.stateAt seq (k + t), pos + t, []) := by
  obtain ⟨t, ht⟩ : ∃ t, t = min (16 - k) (packet.getSize - pos) := ⟨_, rfl⟩
  refine ⟨t, by omega, by omega, ?_⟩
  have hread : (packet.createFragment pos t).copyData
      = ((m.header seq).serializePrefix.drop k).take t := by
    refine Packet.copyData_createFragment rest
      (Packet.ofBytes m.inlined ++ m.padding ++ more) ?_ (by omega) ?_
    · rw [hstream, h.frame_eq]
      simp [GhostDagFrameHeader.serialize, Packet.ofBytes, header]
    · rw [GhostDagFrameHeader.length_serializePrefix]; omega
  have hstate : m.stateAt seq k
      = { prefixBytes := (m.header seq).serializePrefix.take k, nextSeq := seq } := if_pos hk
  have hlen : ∀ n ≤ 16, ((m.header seq).serializePrefix.take n).length = n := by
    intro n hn
    rw [List.length_take, GhostDagFrameHeader.length_serializePrefix, min_eq_left hn]
  have h16 : framePrefixSize.toNat = 16 := rfl
  simp only [RxFrameState.turn, RxFrameState.prefixHave, hstate, h16, hlen k hk.le, hk, if_true,
    ← ht, hread, ← List.take_add, hlen (k + t) (by omega)]
  split
  case isTrue hfull =>
    have htake : (m.header seq).serializePrefix.take (k + t) = (m.header seq).serializePrefix :=
      List.take_of_length_le (by rw [GhostDagFrameHeader.length_serializePrefix, hfull])
    rw [htake, h.readPrefix, hfull]
    rfl
  case isFalse hpart =>
    rw [stateAt, if_pos (by omega)]
    rfl

/-- A turn within the inline payload. -/
theorem Framable.turn_payload (h : m.Framable) (hk : 16 ≤ k) (hk' : k < 16 + m.inlined.length)
    (hpos : pos < packet.getSize)
    (hstream : packet.drop pos ++ rest = (m.frame seq ++ more).drop k) :
    ∃ t, k + t ≤ 16 + m.inlined.length ∧ pos + t ≤ packet.getSize ∧
      (m.stateAt seq k).turn packet payloads pos = .ok (m.stateAt seq (k + t), pos + t, []) := by
  obtain ⟨t, ht⟩ : ∃ t, t = min (m.inlined.length - (k - 16)) (packet.getSize - pos) := ⟨_, rfl⟩
  refine ⟨t, by omega, by omega, ?_⟩
  have hserialize : (m.header seq).serialize.length = 16 + m.inlined.length := by
    rw [GhostDagFrameHeader.serialize, List.length_append,
      GhostDagFrameHeader.length_serializePrefix]
    rfl
  have hread : (packet.createFragment pos t).copyData = (m.inlined.drop (k - 16)).take t := by
    have hdrop : (m.header seq).serialize.drop k = m.inlined.drop (k - 16) := by
      rw [GhostDagFrameHeader.serialize, List.drop_append, List.drop_of_length_le hk]
      rfl
    rw [← hdrop]
    refine Packet.copyData_createFragment rest (m.padding ++ more) ?_ (by omega) (by omega)
    rw [hstream, h.frame_eq, List.append_assoc]
  have hhave : ¬ (m.header seq).serializePrefix.length < framePrefixSize.toNat := Nat.lt_irrefl _
  have hlen : (m.inlined.take (k - 16)).length = k - 16 := by
    rw [List.length_take]
    omega
  have hadd : k + t - 16 = k - 16 + t := by omega
  rw [stateAt_of_le hk, stateAt_of_le (by omega : 16 ≤ k + t)]
  simp only [RxFrameState.turn, RxFrameState.prefixHave, hhave, if_false, hlen,
    h.toNat_ofNat_inlined, ← ht, hread, ← List.take_add, hadd, Nat.sub_sub]
  rw [if_pos (by omega)]
  rfl

/-- The last byte of the frame tells the receiver the payload, if the frame
itself does not. -/
theorem Framable.endFrame (h : m.Framable) (st : RxFrameState) {t : Nat}
    (hrests : m.Rests k) (hpos : pos + t ≤ packet.getSize) (hend : k + t = m.frameLen.toNat)
    (hstream : packet.drop pos ++ rest = (m.frame seq ++ more).drop k)
    (hlen : st.frameLen = m.frameLen) (hpay : st.payload = m.inlined)
    (hpaylen : st.payloadLen = .ofNat m.inlined.length) :
    st.endFrame packet.payloads (pos + t) = .frame m.framed := by
  unfold RxFrameState.endFrame
  rw [hlen, hpay, hpaylen]
  cases hin : m.inlinePayload with
  | true =>
      have hinlined : m.inlined = m.serialized := if_pos hin
      have hpos : 0 < UInt32.ofNat m.inlined.length := by
        rw [UInt32.lt_iff_toNat_lt, h.toNat_ofNat_inlined, hinlined]
        exact h.pos
      rw [if_pos hpos, hinlined]
      rfl
  | false =>
      have hinlined : m.inlined = [] := if_neg (by simp [hin])
      have hlt := m.lt_frameLen
      have hlt' : k < m.frameLen.toNat := by
        refine lt_of_le_of_ne hrests.1 fun heq => ?_
        have := hrests.2 heq
        rw [hinlined, List.length_nil] at this
        omega
      obtain ⟨t, rfl⟩ : ∃ t', t = t' + 1 := ⟨t - 1, by omega⟩
      unfold Packet.getSize at hpos
      -- the byte before the offset is the last one of the frame
      have hbyte : packet[pos + t]? = some { byte := 0, tag := some m.serialized } := by
        have hframe := h.length_frame seq
        have hleft : (packet.drop pos ++ rest)[t]? = (packet.drop pos)[t]? :=
          List.getElem?_append_left (by rw [List.length_drop]; omega)
        rw [← List.getElem?_drop, ← hleft, hstream, List.getElem?_drop,
          List.getElem?_append_left (by omega), ← h.getLast?_frame seq hin,
          List.getLast?_eq_getElem?, hframe]
        congr 1
        omega
      rw [hinlined, if_neg (by decide), ← Nat.add_assoc, Packet.getElem?_payloads, hbyte]
      rfl

/-- A turn within the padding, or at the end of a frame without. -/
theorem Framable.turn_padding (h : m.Framable) (hk : 16 + m.inlined.length ≤ k)
    (hrests : m.Rests k) (hpos : pos < packet.getSize)
    (hstream : packet.drop pos ++ rest = (m.frame seq ++ more).drop k) :
    ∃ t, pos + t ≤ packet.getSize ∧
      ((k + t < m.frameLen.toNat ∧
          (m.stateAt seq k).turn packet packet.payloads pos
            = .ok (m.stateAt seq (k + t), pos + t, [])) ∨
        (k + t = m.frameLen.toNat ∧
          (m.stateAt seq k).turn packet packet.payloads pos
            = .ok ({ nextSeq := seq + 1 }, pos + t, [.frame m.framed]))) := by
  obtain ⟨t, ht⟩ : ∃ t, t = min (m.frameLen.toNat - k) (packet.getSize - pos) := ⟨_, rfl⟩
  refine ⟨t, by omega, ?_⟩
  have hhave : ¬ (m.header seq).serializePrefix.length < framePrefixSize.toNat := Nat.lt_irrefl _
  have htake : m.inlined.take (k - 16) = m.inlined := List.take_of_length_le (by omega)
  rw [stateAt_of_le (by omega : 16 ≤ k)]
  simp only [RxFrameState.turn, RxFrameState.prefixHave, hhave, if_false, htake,
    h.toNat_ofNat_inlined, Nat.lt_irrefl, ← ht]
  split
  case isTrue hbody =>
    refine .inl ⟨by omega, ?_⟩
    have htake' : m.inlined.take (k + t - 16) = m.inlined := List.take_of_length_le (by omega)
    rw [stateAt_of_le (by omega : 16 ≤ k + t), htake', Nat.sub_sub]
    rfl
  case isFalse hbody =>
    have hend : k + t = m.frameLen.toNat := by
      have := hrests.1
      omega
    refine .inr ⟨hend, ?_⟩
    rw [h.endFrame _ hrests (by omega) hend hstream rfl rfl rfl]
    rfl

/-- **One turn**: on within the frame, or, past the payload, to its end. -/
theorem Framable.turn (h : m.Framable) (hrests : m.Rests k) (hpos : pos < packet.getSize)
    (hstream : packet.drop pos ++ rest = (m.frame seq ++ more).drop k) :
    ∃ t, pos + t ≤ packet.getSize ∧
      ((m.Rests (k + t) ∧
          (m.stateAt seq k).turn packet packet.payloads pos
            = .ok (m.stateAt seq (k + t), pos + t, [])) ∨
        (16 + m.inlined.length ≤ k ∧ k + t = m.frameLen.toNat ∧
          (m.stateAt seq k).turn packet packet.payloads pos
            = .ok ({ nextSeq := seq + 1 }, pos + t, [.frame m.framed]))) := by
  have hlen := h.length_inlined
  have hlt := m.lt_frameLen
  rcases Nat.lt_or_ge k 16 with hk | hk
  · obtain ⟨t, hkt, ht, hturn⟩ := h.turn_prefix hk hpos hstream
    exact ⟨t, ht, .inl ⟨⟨by omega, by omega⟩, hturn⟩⟩
  · rcases Nat.lt_or_ge k (16 + m.inlined.length) with hk' | hk'
    · obtain ⟨t, hkt, ht, hturn⟩ := h.turn_payload hk hk' hpos hstream
      exact ⟨t, ht, .inl ⟨⟨by omega, by omega⟩, hturn⟩⟩
    · obtain ⟨t, ht, ⟨hkt, hturn⟩ | hend⟩ := h.turn_padding hk' hrests hpos hstream
      · exact ⟨t, ht, .inl ⟨⟨hkt.le, fun heq => absurd heq hkt.ne⟩, hturn⟩⟩
      · exact ⟨t, ht, .inr ⟨hk', hend⟩⟩

end

end Serialized

/-! ## a stream of frames -/

/-- The receiver is somewhere in the frame of the first of `ms`, or before it,
and `ahead` is what is left of the frames. -/
inductive Awaits (seq : UInt32) : List Serialized → RxFrameState → Packet → Prop
  | idle : Awaits seq [] { nextSeq := seq } []
  | within (m : Serialized) (ms : List Serialized) (k : Nat) (hrests : m.Rests k) :
      Awaits seq (m :: ms) (m.stateAt seq k) ((frames seq (m :: ms)).drop k)

namespace Awaits

variable {seq : UInt32} {ms : List Serialized} {st : RxFrameState} {ahead : Packet}

/-- Between two frames. -/
theorem start (seq : UInt32) (ms : List Serialized) :
    Awaits seq ms { nextSeq := seq } (frames seq ms) := by
  cases ms with
  | nil => exact .idle
  | cons m ms =>
      have hrests : m.Rests 0 := ⟨Nat.zero_le _, fun h => by
        have := m.lt_frameLen
        omega⟩
      have h : Awaits seq (m :: ms) _ _ := .within m ms 0 hrests
      rwa [Serialized.stateAt_zero, List.drop_zero] at h

/-- More frames may follow at any time. -/
theorem append (h : Awaits seq ms st ahead) (hms : ∀ m ∈ ms, m.Framable)
    (ms' : List Serialized) :
    Awaits seq (ms ++ ms') st (ahead ++ frames (seq + .ofNat ms.length) ms') := by
  cases h with
  | idle => simpa using start seq ms'
  | within m ms k hrests =>
      have hk : k ≤ (frames seq (m :: ms)).length := by
        rw [frames, List.length_append, (hms m (by simp)).length_frame]
        exact hrests.1.trans (Nat.le_add_right _ _)
      rw [← List.drop_append_of_le_length hk, ← frames_append]
      exact .within m (ms ++ ms') k hrests

end Awaits

/-- What the receiver passes on of intact frames. -/
def intact (ms : List Serialized) : List Outcome := ms.map fun m => .frame m.framed

theorem intact_append (ms ms' : List Serialized) : intact (ms ++ ms') = intact ms ++ intact ms' :=
  List.map_append

/-- The receiver has passed on the first few of `ms` and awaits the others. -/
def Delivers (seq : UInt32) (ms : List Serialized) (outs : List Outcome) (st : RxFrameState)
    (ahead : Packet) : Prop :=
  ∃ n ≤ ms.length, outs = intact (ms.take n) ∧ Awaits (seq + .ofNat n) (ms.drop n) st ahead

section
variable {seq : UInt32} {ms : List Serialized} {outs : List Outcome} {st : RxFrameState}
  {ahead : Packet}

theorem Awaits.delivers (h : Awaits seq ms st ahead) : Delivers seq ms [] st ahead :=
  ⟨0, Nat.zero_le _, rfl, by simpa using h⟩

/-- First `n` messages, then what is delivered from there. -/
theorem Delivers.prepend {n : Nat} (hn : n ≤ ms.length)
    (h : Delivers (seq + .ofNat n) (ms.drop n) outs st ahead) :
    Delivers seq ms (intact (ms.take n) ++ outs) st ahead := by
  obtain ⟨n', hn', rfl, hst⟩ := h
  rw [List.length_drop] at hn'
  refine ⟨n + n', by omega, by simp [intact, List.take_add], ?_⟩
  rwa [List.drop_drop, add_assoc, ← UInt32.ofNat_add] at hst

end

/-! ## what is passed on -/

namespace Serialized

/-- The frame ends with its payload: nothing is padded. -/
def Unpadded (m : Serialized) : Prop := 16 + m.inlined.length = m.frameLen.toNat

instance (m : Serialized) : Decidable m.Unpadded := inferInstanceAs (Decidable (_ = _))

/-- The size of the frames of some messages. -/
def totalLen (ms : List Serialized) : Nat := (ms.map fun m => m.frameLen.toNat).sum

/-- The messages that are passed on when the packets so far had `n` bytes.  An
unpadded frame needs a byte more. -/
def passed : List Serialized → Nat → List Serialized
  | [], _ => []
  | m :: ms, n =>
      if m.frameLen.toNat ≤ n ∧ ¬ (m.Unpadded ∧ n = m.frameLen.toNat) then
        m :: passed ms (n - m.frameLen.toNat)
      else []

theorem totalLen_cons (m : Serialized) (ms : List Serialized) :
    totalLen (m :: ms) = m.frameLen.toNat + totalLen ms := List.sum_cons

theorem length_frames {ms : List Serialized} (hms : ∀ m ∈ ms, m.Framable) (seq : UInt32) :
    (frames seq ms).length = totalLen ms := by
  induction ms generalizing seq with
  | nil => rfl
  | cons m ms ih =>
      rw [frames, List.length_append, (hms m List.mem_cons_self).length_frame, totalLen_cons,
        ih fun x hx => hms x (List.mem_cons_of_mem m hx)]

theorem isPrefix_passed (ms : List Serialized) (n : Nat) : passed ms n <+: ms := by
  induction ms generalizing n with
  | nil => exact List.prefix_rfl
  | cons m ms ih =>
      rw [passed]
      split
      · exact (List.prefix_cons_inj m).mpr (ih _)
      · exact List.nil_prefix

end Serialized

open Serialized

section
variable {packet rest : Packet} {seq : UInt32} {ms : List Serialized} {st : RxFrameState}
  {pos : Nat}

/-- **One turn**: the receiver goes on within a frame, or passes it on.  A frame
that ends with its payload is passed on only if more bytes follow. -/
theorem Awaits.turn (hms : ∀ m ∈ ms, m.Framable) (hpos : pos < packet.getSize)
    (h : Awaits seq ms st (packet.drop pos ++ rest)) :
    (∃ st' pos', pos' ≤ packet.getSize ∧ st.turn packet packet.payloads pos = .ok (st', pos', []) ∧
        Awaits seq ms st' (packet.drop pos' ++ rest)) ∨
      ∃ m ms' pos', ms = m :: ms' ∧ pos' ≤ packet.getSize ∧ (m.Unpadded → pos' < packet.getSize) ∧
        st.turn packet packet.payloads pos = .ok ({ nextSeq := seq + 1 }, pos', [.frame m.framed]) ∧
        packet.drop pos' ++ rest = frames (seq + 1) ms' := by
  generalize hahead : packet.drop pos ++ rest = ahead at h
  have hdrop : ∀ t, pos + t ≤ packet.getSize → packet.drop (pos + t) ++ rest = ahead.drop t := by
    intro t ht
    unfold Packet.getSize at ht
    rw [← hahead, List.drop_append_of_le_length (by rw [List.length_drop]; omega),
      List.drop_drop]
  cases h with
  | idle =>
      have := congrArg List.length hahead
      unfold Packet.getSize at hpos
      simp only [List.length_append, List.length_drop, List.length_nil] at this
      omega
  | within m ms k hrests =>
      have hm : m.Framable := hms m (by simp)
      obtain ⟨t, ht, ⟨hrests', hturn⟩ | ⟨hk, hend, hturn⟩⟩ := hm.turn hrests hpos hahead
      · refine .inl ⟨_, _, ht, hturn, ?_⟩
        rw [hdrop t ht, List.drop_drop]
        exact .within m ms (k + t) hrests'
      · refine .inr ⟨m, ms, _, rfl, ht, fun hun => ?_, hturn, ?_⟩
        · unfold Unpadded at hun
          omega
        · rw [hdrop t ht, List.drop_drop, hend, frames, ← hm.length_frame seq, List.drop_left]

theorem Awaits.length_le (hms : ∀ m ∈ ms, m.Framable) (h : Awaits seq ms st rest) :
    rest.length ≤ totalLen ms := by
  cases h with
  | idle => exact Nat.zero_le _
  | within m ms k _ =>
      rw [List.length_drop, length_frames hms]
      exact Nat.sub_le _ _

/-- Nothing is passed on without a byte. -/
theorem Awaits.passed_eq_nil (hms : ∀ m ∈ ms, m.Framable) (h : Awaits seq ms st rest) :
    passed ms (totalLen ms - rest.length) = [] := by
  cases h with
  | idle => rfl
  | within m ms k hrests =>
      have hlen := length_frames hms seq
      rw [totalLen_cons] at hlen
      have hk : totalLen (m :: ms) - ((frames seq (m :: ms)).drop k).length = k := by
        have := hrests.1
        rw [List.length_drop, hlen, totalLen_cons]
        omega
      rw [hk, passed, if_neg]
      rintro ⟨hle, hno⟩
      have heq : k = m.frameLen.toNat := le_antisymm hrests.1 hle
      exact hno ⟨hrests.2 heq, heq⟩

/-- **The loop over one packet**, wherever the packet was cut out of the
stream. -/
theorem Awaits.readFrom_passed (hms : ∀ m ∈ ms, m.Framable) (hpos : pos ≤ packet.getSize)
    (h : Awaits seq ms st (packet.drop pos ++ rest)) :
    ∃ st', st.readFrom packet packet.payloads pos =
        .ok (st', intact (passed ms (totalLen ms - rest.length))) ∧
      Awaits (seq + .ofNat (passed ms (totalLen ms - rest.length)).length)
        (ms.drop (passed ms (totalLen ms - rest.length)).length) st' rest := by
  generalize hp : packet.payloads = payloads
  induction st, pos using RxFrameState.readFrom.induct packet payloads generalizing seq ms with
  | case1 st pos hlt e hturn =>
      subst hp
      obtain ⟨st', pos', -, hok, -⟩ | ⟨m, ms', pos', -, -, -, hok, -⟩ := h.turn hms hlt <;>
      · rw [hturn] at hok
        cases hok
  | case2 st pos hlt st' pos' outs hturn ih =>
      subst hp
      have hread : ∀ {st'' outs'}, st'.readFrom packet packet.payloads pos' = .ok (st'', outs') →
          st.readFrom packet packet.payloads pos = .ok (st'', outs ++ outs') := by
        intro st'' outs' hread
        rw [RxFrameState.readFrom, dif_pos hlt]
        split
        · rw [hturn] at *
          cases ‹Except.ok _ = Except.error _›
        · rename_i hturn'
          rw [hturn] at hturn'
          cases hturn'
          rw [hread]
          rfl
      obtain ⟨st₁, pos₁, hpos₁, hok, hst⟩ | ⟨m, ms, pos₁, rfl, hpos₁, hmore, hok, hst⟩ :=
        h.turn hms hlt
      · rw [hturn] at hok
        cases hok
        obtain ⟨st'', hnext, hawaits⟩ := ih hms hpos₁ hst
        exact ⟨st'', hread hnext, hawaits⟩
      · rw [hturn] at hok
        cases hok
        have hms' : ∀ x ∈ ms, x.Framable := fun x hx => hms x (List.mem_cons_of_mem m hx)
        have hstart := Awaits.start (seq + 1) ms
        rw [← hst] at hstart
        obtain ⟨st'', hnext, hawaits⟩ := ih hms' hpos₁ hstart
        -- the bytes of the other frames are those behind the offset
        have hlen := congrArg List.length hst
        rw [length_frames hms', List.length_append, List.length_drop] at hlen
        have hpassed : passed (m :: ms) (totalLen (m :: ms) - rest.length) =
            m :: passed ms (totalLen ms - rest.length) := by
          have hsub : totalLen (m :: ms) - rest.length =
              m.frameLen.toNat + (totalLen ms - rest.length) := by
            rw [totalLen_cons]
            omega
          rw [hsub, passed, if_pos, Nat.add_sub_cancel_left]
          refine ⟨Nat.le_add_right _ _, fun hun => ?_⟩
          have := hmore hun.1
          unfold Packet.getSize at this
          omega
        rw [hpassed]
        refine ⟨st'', hread hnext, ?_⟩
        rw [List.length_cons, List.drop_succ_cons, ← seq_succ]
        exact hawaits
  | case3 st pos hge =>
      rw [List.drop_of_length_le (Nat.le_of_not_lt hge), List.nil_append] at h
      rw [h.passed_eq_nil hms]
      exact ⟨st, by rw [RxFrameState.readFrom, dif_neg hge]; rfl, by simpa using h⟩

theorem Awaits.readFrom (hms : ∀ m ∈ ms, m.Framable) (hpos : pos ≤ packet.getSize)
    (h : Awaits seq ms st (packet.drop pos ++ rest)) :
    ∃ st' outs, st.readFrom packet packet.payloads pos = .ok (st', outs) ∧
      Delivers seq ms outs st' rest := by
  obtain ⟨st', hread, hawaits⟩ := h.readFrom_passed hms hpos
  have hpre := isPrefix_passed ms (totalLen ms - rest.length)
  exact ⟨st', _, hread, _, hpre.length_le, by rw [← List.prefix_iff_eq_take.mp hpre], hawaits⟩

theorem Awaits.readPackets {buffer : Packet} (hms : ∀ m ∈ ms, m.Framable) (sizes : List Nat)
    (h : Awaits seq ms st (buffer ++ rest)) :
    ∃ st' buffer' outs, st.readPackets buffer sizes = .ok (st', buffer', outs) ∧
      Delivers seq ms outs st' (buffer' ++ rest) := by
  induction sizes generalizing seq ms st buffer with
  | nil => exact ⟨st, buffer, [], rfl, h.delivers⟩
  | cons size sizes ih =>
      rw [RxFrameState.readPackets]
      by_cases hempty : (buffer.createFragment 0 size).getSize = 0
      · exact ⟨st, buffer, [], by rw [if_pos hempty]; rfl, h.delivers⟩
      · have hcut : (buffer.createFragment 0 size).drop 0 ++ (buffer.drop size ++ rest)
            = buffer ++ rest := by
          rw [List.drop_zero, Packet.createFragment_zero, ← List.append_assoc,
            List.take_append_drop]
        rw [← hcut] at h
        obtain ⟨st', outs, hread, n, hn, hout, hst⟩ := h.readFrom hms (Nat.zero_le _)
        obtain ⟨st'', buffer', outs', hrest, hdel⟩ :=
          ih (fun m hm => hms m (List.mem_of_mem_drop hm)) hst
        refine ⟨st'', buffer', outs ++ outs', ?_, hout ▸ hdel.prepend hn⟩
        rw [if_neg hempty, hread]
        change (st'.readPackets (buffer.drop size) sizes >>= _) = _
        rw [hrest]
        rfl

/-- **`HandleRead` on a stream of frames**: nothing is corrupt, no payload is
missing, and what is passed on are the next messages, in order. -/
theorem Awaits.handleRead {buffer : Packet} (hms : ∀ m ∈ ms, m.Framable) (running : Bool)
    (sizes : List Nat) (h : Awaits seq ms st (buffer ++ rest)) :
    ∃ st' buffer' outs, handleRead running st buffer sizes = .ok (st', buffer', outs) ∧
      Delivers seq ms outs st' (buffer' ++ rest) := by
  cases running with
  | false => exact ⟨st, buffer, [], rfl, h.delivers⟩
  | true => exact h.readPackets hms sizes

end

end GhostDag
