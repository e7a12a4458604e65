import GhostDag.Framing.Decode

/-!
# GhostDag.Framing.Withheld

When a frame that has been read to its last byte is passed on.

The loop of `HandleRead` copies the payload in one turn and passes it on in a
later one, and takes a turn only while there are unread bytes.  A frame that
ends with its payload is therefore withheld while the packet ends there too;
every other frame is passed on in the packet that completes it.
-/

namespace GhostDag

namespace Serialized

/-- The messages whose frames lie within the first `n` bytes. -/
def complete : List Serialized → Nat → List Serialized
  | [], _ => []
  | m :: ms, n =>
      if m.frameLen.toNat ≤ n then m :: complete ms (n - m.frameLen.toNat) else []

theorem isPrefix_complete (ms : List Serialized) (n : Nat) : complete ms n <+: ms := by
  induction ms generalizing n with
  | nil => exact List.prefix_rfl
  | cons m ms ih =>
      rw [complete]
      split
      · exact (List.prefix_cons_inj m).mpr (ih _)
      · exact List.nil_prefix

/-- The first `n` bytes end with an unpadded frame. -/
def EndsUnpadded (ms : List Serialized) (n : Nat) : Prop :=
  ∃ before m after, ms = before ++ m :: after ∧ m.Unpadded ∧ n = totalLen (before ++ [m])

/-- **A frame is withheld exactly at the end of an unpadded frame.** -/
theorem passed_eq_complete_iff (ms : List Serialized) (n : Nat) :
    passed ms n = complete ms n ↔ ¬ EndsUnpadded ms n := by
  induction ms generalizing n with
  | nil =>
      refine iff_of_true rfl ?_
      rintro ⟨before, m, after, heq, -⟩
      simp at heq
  | cons m ms ih =>
      -- the frame that ends is the first one, or one of the others
      have hcons : EndsUnpadded (m :: ms) n ↔ m.Unpadded ∧ n = m.frameLen.toNat ∨
          m.frameLen.toNat ≤ n ∧ EndsUnpadded ms (n - m.frameLen.toNat) := by
        constructor
        · rintro ⟨before, x, after, heq, hx, rfl⟩
          cases before with
          | nil =>
              obtain ⟨rfl, rfl⟩ := List.cons.inj heq
              exact .inl ⟨hx, by simp [totalLen]⟩
          | cons y before =>
              obtain ⟨rfl, rfl⟩ := List.cons.inj heq
              rw [List.cons_append, totalLen_cons]
              exact .inr ⟨Nat.le_add_right _ _, before, x, after, rfl, hx, Nat.add_sub_cancel_left _ _⟩
        · rintro (⟨hm, rfl⟩ | ⟨hle, before, x, after, rfl, hx, hn⟩)
          · exact ⟨[], m, ms, rfl, hm, by simp [totalLen]⟩
          · refine ⟨m :: before, x, after, rfl, hx, ?_⟩
            rw [List.cons_append, totalLen_cons, ← hn, Nat.add_sub_cancel' hle]
      rw [hcons, passed, complete]
      by_cases hle : m.frameLen.toNat ≤ n
      · by_cases hend : m.Unpadded ∧ n = m.frameLen.toNat
        · simp [hend]
        · simp [hle, hend, ih]
      · have hne : n ≠ m.frameLen.toNat := fun h => hle h.ge
        simp [hle, hne]

/-- Reading on passes on what follows. -/
theorem passed_split {ms : List Serialized} {r r' : Nat} (hle : r ≤ r') (hle' : r' ≤ totalLen ms) :
    passed ms (totalLen ms - r) = passed ms (totalLen ms - r') ++
      passed (ms.drop (passed ms (totalLen ms - r')).length)
        (totalLen (ms.drop (passed ms (totalLen ms - r')).length) - r) := by
  induction ms with
  | nil => rfl
  | cons m ms ih =>
      by_cases hpass : m.frameLen.toNat ≤ totalLen (m :: ms) - r' ∧
          ¬ (m.Unpadded ∧ totalLen (m :: ms) - r' = m.frameLen.toNat)
      · have hnow : passed (m :: ms) (totalLen (m :: ms) - r') =
            m :: passed ms (totalLen ms - r') := by
          rw [passed, if_pos hpass, totalLen_cons]
          congr 2
          omega
        have hlater : passed (m :: ms) (totalLen (m :: ms) - r) =
            m :: passed ms (totalLen ms - r) := by
          rw [passed, if_pos, totalLen_cons]
          · congr 2
            omega
          · refine ⟨by omega, fun hun => hpass.2 ⟨hun.1, ?_⟩⟩
            omega
        rw [totalLen_cons] at hpass hle'
        rw [hnow, hlater, List.length_cons, List.drop_succ_cons, List.cons_append, ← ih (by omega)]
      · have hnow : passed (m :: ms) (totalLen (m :: ms) - r') = [] := by rw [passed, if_neg hpass]
        rw [hnow, List.nil_append, List.length_nil, List.drop_zero]

end Serialized

open Serialized

/-! ## packet by packet -/

/-- `HandleRead` is called for one packet after the other. -/
def receive : RxFrameState → List Packet → Except Abort (RxFrameState × List Outcome)
  | st, [] => .ok (st, [])
  | st, packet :: packets => do
      let (st', _, outs) ← handleRead true st packet [packet.getSize]
      let (st'', outs') ← receive st' packets
      return (st'', outs ++ outs')

theorem handleRead_packet (st : RxFrameState) (packet : Packet) :
    handleRead true st packet [packet.getSize] =
      (st.readFrom packet packet.payloads 0).map fun r => (r.1, [], r.2) := by
  have hcut : packet.createFragment 0 packet.getSize = packet := List.take_length
  have hdrop : packet.drop packet.getSize = [] := List.drop_length
  change st.readPackets packet [packet.getSize] = _
  rw [RxFrameState.readPackets, hcut, hdrop]
  split
  · next hempty =>
      rw [RxFrameState.readFrom, dif_neg (by omega), List.eq_nil_of_length_eq_zero hempty]
      rfl
  · cases st.readFrom packet packet.payloads 0 with
    | error e => rfl
    | ok r =>
        change Except.ok (r.1, [], r.2 ++ []) = Except.ok (r.1, [], r.2)
        rw [List.append_nil]

/-- **What is passed on depends on the number of bytes read.** -/
theorem Awaits.receive_passed {seq : UInt32} {ms : List Serialized} {st : RxFrameState}
    {packets : List Packet} {rest : Packet} (hms : ∀ m ∈ ms, m.Framable)
    (h : Awaits seq ms st (packets.flatten ++ rest)) :
    ∃ st', receive st packets = .ok (st', intact (passed ms (totalLen ms - rest.length))) := by
  induction packets generalizing seq ms st with
  | nil =>
      have hnil : passed ms (totalLen ms - rest.length) = [] := Awaits.passed_eq_nil hms h
      exact ⟨st, by rw [hnil]; rfl⟩
  | cons packet packets ih =>
      rw [List.flatten_cons, List.append_assoc] at h
      have hle := h.length_le hms
      rw [List.length_append] at hle
      have hrest : rest.length ≤ (packets.flatten ++ rest).length := by simp
      have hsplit := passed_split hrest ((Nat.le_add_left _ _).trans hle)
      have hdrop : Awaits seq ms st (packet.drop 0 ++ (packets.flatten ++ rest)) := h
      obtain ⟨st₁, hread, hawaits⟩ := hdrop.readFrom_passed hms (Nat.zero_le _)
      obtain ⟨st', hrest⟩ := ih (fun m hm => hms m (List.mem_of_mem_drop hm)) hawaits
      refine ⟨st', ?_⟩
      rw [receive, handleRead_packet, hread]
      change (receive st₁ packets >>= _) = _
      rw [hrest, hsplit, intact_append]
      rfl

/-- No frame is withheld: what has been passed on are the complete frames. -/
def Prompt (ms : List Serialized) (packets : List Packet) : Prop :=
  ∃ st, receive {} packets = .ok (st, intact (complete ms packets.flatten.length))

/-- **When no frame is withheld**: after every packet all complete frames have
been passed on, exactly if no packet ends where an unpadded frame ends. -/
theorem prompt_iff {ms : List Serialized} (hms : ∀ m ∈ ms, m.Framable) {packets : List Packet}
    (hstream : packets.flatten <+: frames 0 ms) :
    (∀ past, past <+: packets → Prompt ms past) ↔
      ∀ past, past <+: packets → ¬ EndsUnpadded ms past.flatten.length := by
  refine forall₂_congr fun past hpast => ?_
  obtain ⟨later, rfl⟩ := hpast
  obtain ⟨rest, hrest⟩ := hstream
  have hawaits := Awaits.start 0 ms
  rw [← hrest, List.flatten_append, List.append_assoc] at hawaits
  obtain ⟨st, hrun⟩ := hawaits.receive_passed hms
  have hlen : totalLen ms - (later.flatten ++ rest).length = past.flatten.length := by
    rw [← length_frames hms 0, ← hrest]
    simp
  rw [hlen] at hrun
  rw [← passed_eq_complete_iff, Prompt, hrun]
  constructor
  · rintro ⟨st', heq⟩
    have hcount := congrArg List.length (Prod.mk.inj (Except.ok.inj heq)).2
    simp only [intact, List.length_map] at hcount
    -- both are front parts of the messages
    rw [List.prefix_iff_eq_take.mp (isPrefix_passed ms past.flatten.length), hcount,
      ← List.prefix_iff_eq_take.mp (isPrefix_complete ms past.flatten.length)]
  · intro heq
    exact ⟨st, by rw [heq]⟩

/-! ## packets that end with a frame -/

/-- A padded frame and one whose payload rides on its last byte. -/
def twoMessages : List Serialized :=
  [{ serialized := [1, 2], wireBytes := 20 }, { serialized := [3, 4, 5], wireBytes := 17 }]

/-- Three packets, the second of which ends with the first frame. -/
def threePackets : List Packet :=
  [(frames 0 twoMessages).take 5, ((frames 0 twoMessages).drop 5).take 15,
    (frames 0 twoMessages).drop 20]

/-- Neither frame is withheld. -/
theorem prompt_twoMessages :
    Prompt twoMessages (threePackets.take 1) ∧ Prompt twoMessages threePackets := by
  have hms : ∀ m ∈ twoMessages, m.Framable := by
    unfold twoMessages
    rw [List.forall_mem_cons, List.forall_mem_singleton]
    exact ⟨⟨by decide, by decide⟩, by decide, by decide⟩
  have hpadded : ∀ m ∈ twoMessages, ¬ m.Unpadded := by decide
  have hall : ∀ past, past <+: threePackets → Prompt twoMessages past := by
    refine (prompt_iff hms ⟨[], by decide⟩).mpr fun past _ h => ?_
    obtain ⟨before, m, after, heq, hun, -⟩ := h
    exact hpadded m (heq ▸ List.mem_append_right before List.mem_cons_self) hun
  exact ⟨hall _ ⟨_, List.take_append_drop 1 threePackets⟩, hall _ List.prefix_rfl⟩

/-- A message that fills its frame. -/
def filling : Serialized := { serialized := [1, 2, 3, 4], wireBytes := 20 }

/-- **The frame has been read to its last byte, and nothing is passed on.** -/
theorem not_prompt_filling :
    (receive {} [filling.frame 0]).toOption.map Prod.snd = some [] ∧
      complete [filling] (filling.frame 0).length = [filling] ∧
      ¬ Prompt [filling] [filling.frame 0] := by
  have hrun : (receive {} [filling.frame 0]).toOption.map Prod.snd = some [] := by decide +kernel
  have hcomplete : complete [filling] (filling.frame 0).length = [filling] := by decide +kernel
  refine ⟨hrun, hcomplete, ?_⟩
  rintro ⟨st, hst⟩
  rw [List.flatten_cons, List.flatten_nil, List.append_nil, hcomplete] at hst
  rw [hst] at hrun
  exact List.cons_ne_nil _ _ (Option.some.inj hrun)

end GhostDag
