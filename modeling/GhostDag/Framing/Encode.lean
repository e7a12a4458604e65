import GhostDag.Framing.Sender

/-!
# GhostDag.Framing.Encode

What the sending functions hand to TCP.

`Transport.Writes` says it once for `HandleSendReady`, `EnqueueFrame` and the
loop of `HandleConnectionSucceeded`: packets are taken from the front of the
queue of one socket, frames numbered on from the last one join its end, and
nothing else changes.
-/

namespace GhostDag

namespace Transport

/-- What waits in a socket's queue, as one stream. -/
def unsent (t : Transport) (s : Socket) : Packet := (t.txQueue[s]?.getD []).flatten

/-- The number of a socket's next frame. -/
def nextSeq (t : Transport) (s : Socket) : UInt32 := t.txFrameSeq[s]?.getD 0

/-- From `t` to `t'` the messages `ms` are enqueued on socket `s`, and `calls`
are made. -/
structure Writes (t t' : Transport) (s : Socket) (ms : List Serialized) (calls : List TcpCall) :
    Prop where
  stream : ∃ packets : List Packet, calls = packets.map (.send s) ∧
    t.unsent s ++ frames (t.nextSeq s) ms = packets.flatten ++ t'.unsent s
  seq : t'.nextSeq s = t.nextSeq s + .ofNat ms.length
  other : ∀ s' ≠ s, t'.txQueue[s']? = t.txQueue[s']? ∧ t'.txFrameSeq[s']? = t.txFrameSeq[s']?
  frame : t' = { t with txQueue := t'.txQueue, txFrameSeq := t'.txFrameSeq }

/-- **Splitting a packet loses nothing.** -/
theorem flatten_drain (queue : List Packet) (answers : List Answer) :
    (drain queue answers).2.flatten ++ (drain queue answers).1.flatten = queue.flatten := by
  fun_induction drain queue answers with
  | case1 | case2 | case3 => simp
  | case4 head queue answer answers hgo hle queue' sent hrest ih =>
      rw [hrest] at ih
      rw [List.flatten_cons, List.append_assoc, ih, List.flatten_cons]
  | case5 head queue answer answers hgo hgt queue' sent hrest ih =>
      rw [hrest] at ih
      rw [List.flatten_cons, List.append_assoc, ih, List.flatten_cons, ← List.append_assoc,
        Packet.createFragment_zero, Packet.take_append_createFragment, List.flatten_cons]

namespace Writes

variable {t t' t'' : Transport} {s : Socket} {ms ms' : List Serialized}
  {calls calls' : List TcpCall}

theorem refl (t : Transport) (s : Socket) : Writes t t s [] [] where
  stream := ⟨[], rfl, by simp [frames]⟩
  seq := by simp
  other _ _ := ⟨rfl, rfl⟩
  frame := rfl

theorem trans (h : Writes t t' s ms calls) (h' : Writes t' t'' s ms' calls') :
    Writes t t'' s (ms ++ ms') (calls ++ calls') where
  stream := by
    obtain ⟨packets, rfl, hstream⟩ := h.stream
    obtain ⟨packets', rfl, hstream'⟩ := h'.stream
    refine ⟨packets ++ packets', by simp, ?_⟩
    rw [frames_append, ← List.append_assoc, hstream, ← h.seq, List.append_assoc, hstream',
      List.flatten_append, List.append_assoc]
  seq := by rw [h'.seq, h.seq, add_assoc, ← UInt32.ofNat_add, List.length_append]
  other s' hs' := by
    obtain ⟨hu, hq⟩ := h.other s' hs'
    obtain ⟨hu', hq'⟩ := h'.other s' hs'
    exact ⟨hu'.trans hu, hq'.trans hq⟩
  frame := by
    rw [h'.frame, h.frame]

end Writes

theorem writes_handleSendReady (t : Transport) (s : Socket) (answers : List Answer) :
    Writes t (t.handleSendReady s answers).1 s [] (t.handleSendReady s answers).2 := by
  unfold handleSendReady
  split
  · exact .refl t s
  · rename_i queue hqueue
    have hother : ∀ s' ≠ s, (t.txQueue.insert s (drain queue answers).1)[s']? = t.txQueue[s']? := by
      intro s' hs'
      rw [Containers.getElem?_insert, if_neg hs']
    have hself : (t.txQueue.insert s (drain queue answers).1)[s]? = some (drain queue answers).1 := by
      rw [Containers.getElem?_insert, if_pos rfl]
    exact {
      stream := ⟨(drain queue answers).2, rfl, by
        simp only [unsent, hself, hqueue, Option.getD_some, frames, List.append_nil,
          flatten_drain]⟩
      seq := by simp [nextSeq]
      other := fun s' hs' => ⟨hother s' hs', rfl⟩
      frame := rfl }

/-- **One frame is enqueued**, unless it is too large for the MPI buffer. -/
theorem enqueueFrame_cases (t : Transport) (s : Socket) (m : Serialized) (answers : List Answer) :
    (∃ t' calls, t.enqueueFrame s m answers = .ok (t', calls) ∧ Writes t t' s [m] calls) ∨
      (1 < t.mpiSize ∧ mpiPayloadLimit < m.serialized.length ∧
        t.enqueueFrame s m answers = .error (.payloadExceedsMpiBuffer m.serialized.length)) := by
  simp only [enqueueFrame]
  split
  case isTrue h => exact .inr ⟨h.2.1, h.2.2, rfl⟩
  case isFalse h =>
    have hpush : Writes t { t with
        txFrameSeq := t.txFrameSeq.insert s (t.nextSeq s + 1)
        txQueue := t.txQueue.insert s (t.txQueue[s]?.getD [] ++ m.packets (t.nextSeq s)) } s [m] [] := {
      stream := ⟨[], rfl, by
        simp [unsent, nextSeq, frames, Serialized.frame]⟩
      seq := by simp [nextSeq]
      other := fun s' hs' => by simp [Containers.getElem?_insert, hs']
      frame := rfl }
    exact .inl ⟨_, _, rfl, hpush.trans (writes_handleSendReady _ s answers)⟩

/-- The messages that waited for the connection are enqueued in order. -/
theorem enqueuePending_cases (s : Socket) (t : Transport) (ms : List Serialized)
    (answers : List (List Answer)) :
    (∃ t' calls, enqueuePending s t ms answers = .ok (t', calls) ∧ Writes t t' s ms calls) ∨
      (∃ m ∈ ms, 1 < t.mpiSize ∧ mpiPayloadLimit < m.serialized.length ∧
        enqueuePending s t ms answers
          = .error (.payloadExceedsMpiBuffer m.serialized.length)) := by
  induction ms generalizing t answers with
  | nil => exact .inl ⟨t, [], rfl, .refl t s⟩
  | cons m ms ih =>
      rw [enqueuePending]
      obtain ⟨t', calls, hok, hw⟩ | ⟨hmpi, hlen, herr⟩ := enqueueFrame_cases t s m (answers.headD [])
      · rw [hok]
        have hmpi' : t'.mpiSize = t.mpiSize := by rw [hw.frame]
        obtain ⟨t'', calls', hok', hw'⟩ | ⟨m', hm', hmpi, hlen, herr⟩ := ih t' answers.tail
        · refine .inl ⟨t'', calls ++ calls', ?_, hw.trans hw'⟩
          change (enqueuePending s t' ms answers.tail >>= _) = _
          rw [hok']
          rfl
        · refine .inr ⟨m', List.mem_cons_of_mem m hm', hmpi' ▸ hmpi, hlen, ?_⟩
          change (enqueuePending s t' ms answers.tail >>= _) = _
          rw [herr]
          rfl
      · exact .inr ⟨m, List.mem_cons_self, hmpi, hlen, by rw [herr]; rfl⟩

end Transport

end GhostDag
