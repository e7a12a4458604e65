import GhostDag.Framing.Order
import GhostDag.Lib.Loops

/-!
# GhostDag.Framing.Records

What one event leaves in the records of the channels: which messages it adds
to those sent, and that only a read adds to those delivered.
-/

namespace GhostDag

open Loops (bind_eq_ok)

namespace Transport

variable {t t' : Transport} {r : Transport × List TcpCall}

theorem Writes.running {s : Socket} {ms : List Serialized} {calls : List TcpCall}
    (h : Writes t t' s ms calls) : t'.running = t.running := by
  rw [h.frame]

theorem running_sendSerialized {dest : Ipv4Address} {m : Serialized} {answers : List Answer}
    (h : t.sendSerialized dest m answers = .ok r) : r.1.running = t.running := by
  unfold sendSerialized at h
  split at h
  · cases h
    rfl
  · split at h
    · cases h
      rfl
    · split at h
      · cases h
        rfl
      · next socket _ =>
          obtain ⟨t', calls, hok, hw⟩ | ⟨-, -, herr⟩ := t.enqueueFrame_cases socket m answers
          · cases hok.symm.trans h
            exact hw.running
          · cases herr.symm.trans h

theorem running_handleConnectionSucceeded {socket : Socket} {answers : List (List Answer)}
    (h : t.handleConnectionSucceeded socket answers = .ok r) : r.1.running = t.running := by
  unfold handleConnectionSucceeded at h
  split at h
  · cases h
    rfl
  · split at h
    · cases h
      rfl
    · next pending _ =>
        obtain ⟨⟨t', calls⟩, hpending, heq⟩ := bind_eq_ok h
        cases heq
        obtain ⟨t'', calls', hok, hw⟩ | ⟨_, -, -, -, herr⟩ :=
          enqueuePending_cases socket t pending answers
        · cases hok.symm.trans hpending
          exact hw.running
        · cases herr.symm.trans hpending

end Transport

namespace Channels

variable {g g' : Channels} {e : Event}

/-- The messages that an event sends to a peer. -/
def Event.sends : Event → Ipv4Address → List Serialized
  | .sendSerialized dest m _, peer => if peer = dest then [m] else []
  | _, _ => []

/-- The socket that an event reads from. -/
def Event.reads : Event → Option Socket
  | .read socket _ => some socket
  | _ => none

/-- **The messages sent**, by a node that runs. -/
theorem sent_step (hrun : g.transport.running = true) (h : g.step e = .ok g') (peer : Ipv4Address) :
    g'.sent peer = g.sent peer ++ e.sends peer := by
  cases e with
  | sendSerialized dest m answers =>
      obtain ⟨r, -, heq⟩ := bind_eq_ok h
      rw [if_pos hrun] at heq
      cases heq
      by_cases hpeer : peer = dest <;> simp [Event.sends, hpeer]
  | connectionSucceeded socket answers =>
      obtain ⟨r, -, heq⟩ := bind_eq_ok h
      cases heq
      exact (List.append_nil _).symm
  | sendReady socket answers =>
      cases h
      exact (List.append_nil _).symm
  | stop =>
      cases h
      exact (List.append_nil _).symm
  | read socket sizes =>
      rw [step] at h
      split at h
      · cases h
        exact (List.append_nil _).symm
      · obtain ⟨r, -, heq⟩ := bind_eq_ok h
        cases heq
        exact (List.append_nil _).symm
  | stopPeer socket =>
      rw [step] at h
      split at h <;> cases h <;> exact (List.append_nil _).symm

/-- Without a read nothing is delivered. -/
theorem delivered_step (hread : e.reads = none) (h : g.step e = .ok g') :
    g'.delivered = g.delivered := by
  cases e with
  | sendSerialized dest m answers =>
      obtain ⟨r, -, heq⟩ := bind_eq_ok h
      dsimp only at heq
      split at heq <;> cases heq <;> rfl
  | connectionSucceeded socket answers =>
      obtain ⟨r, -, heq⟩ := bind_eq_ok h
      cases heq
      rfl
  | sendReady socket answers =>
      cases h
      rfl
  | stop =>
      cases h
      rfl
  | read socket sizes => cases hread
  | stopPeer socket =>
      rw [step] at h
      split at h <;> cases h <;> rfl

/-- A read delivers to the peer of its connection. -/
theorem delivered_read {s : Socket} {c : Connection} (hc : g.connections[s]? = some c)
    {sizes : List ℕ} (h : g.step (.read s sizes) = .ok g') :
    ∃ ms, g'.delivered = Function.update g.delivered c.peer (g.delivered c.peer ++ ms) := by
  rw [step, hc] at h
  obtain ⟨⟨rx, inFlight, outs⟩, -, heq⟩ := bind_eq_ok h
  cases heq
  exact ⟨payloads outs, rfl⟩

theorem running_init (mpiSize : ℕ) (peers : List Ipv4Address) :
    (init mpiSize peers).transport.running = true := by
  have hall : ∀ r : Transport × List TcpCall, (peers.foldl (fun r peer =>
      ((r.1.createPeerSocket peer).1, r.2 ++ (r.1.createPeerSocket peer).2)) r).1.running =
        r.1.running := by
    induction peers with
    | nil => exact fun r => rfl
    | cons peer peers ih => exact fun r => ih _
  exact hall _

theorem running_step (hstop : e ≠ .stop) (h : g.step e = .ok g') :
    g'.transport.running = g.transport.running := by
  cases e with
  | sendSerialized dest m answers =>
      obtain ⟨r, hr, heq⟩ := bind_eq_ok h
      have hrunning := Transport.running_sendSerialized hr
      dsimp only at heq
      split at heq <;> cases heq <;> exact hrunning
  | connectionSucceeded socket answers =>
      obtain ⟨r, hr, heq⟩ := bind_eq_ok h
      cases heq
      exact Transport.running_handleConnectionSucceeded hr
  | sendReady socket answers =>
      cases h
      exact (g.transport.writes_handleSendReady socket answers).running
  | stop => exact absurd rfl hstop
  | read socket sizes =>
      rw [step] at h
      split at h
      · cases h
        rfl
      · obtain ⟨r, -, heq⟩ := bind_eq_ok h
        cases heq
        rfl
  | stopPeer socket =>
      rw [step] at h
      split at h <;> cases h <;> rfl

end Channels

end GhostDag
