import GhostDag.Graphene.Fetch

/-!
# GhostDag.Graphene.Fallback

Requests for blocks that the node has.

A request is sent by four handlers.  `HandleInvRelayBlock` and
`GrapheneRecoveryTimeout` look whether the block is held, `InvTimeoutExpired`
relies on the announcers of a held block being gone, and
`HandleGrapheneRecoveryResponse` does nothing of the kind: a block can arrive
on another way while it is being recovered, and is asked for once more when
the recovery fails (`requestsUnheld_iff`).
-/

namespace GhostDag

open Std (ExtTreeMap ExtTreeSet)
open Containers

namespace GrapheneNode

open GrapheneProtocol

variable {G : Graphene} {c : Config} {now : ℚ} {g g' : GrapheneNode}

/-- **No `REQ_RELAY_BLOCK` of a run names a block that is held.**  The chain is
that of the state in which the event is handled; the handlers that send such a
message leave it as it is. -/
def RequestsUnheld (G : Graphene) (c : Config) (inputs : List Input) : Prop :=
  ∀ past g i g' sends, Step G c inputs past g i g' sends →
    ∀ s ∈ sends, ∀ blockHash count grapheneFailed,
      s.2 = .reqRelayBlock blockHash count grapheneFailed → ¬ g.node.blockchain.Held blockHash

/-- No recovery of a held block fails. -/
def NoHeldFailure (G : Graphene) (c : Config) (inputs : List Input) : Prop :=
  ∀ past g i g' sends, Step G c inputs past g i g' sends →
    ∀ data peer state, i.event = .handleGrapheneRecoveryResponse data peer →
      g.grapheneState[data.blockHash]? = some state →
      processRecoveryResponse G.checked G.murmurHash3 G.rounds data state = .ok none →
      ¬ g.node.blockchain.Held data.blockHash

theorem OnlySays.fallback {event : Event} {sends : GrapheneSends} (h : OnlySays G g event sends)
    {s : Ipv4Address × GrapheneMessage} (hs : s ∈ sends) {blockHash count : ℕ}
    {grapheneFailed : Bool} (heq : s.2 = .reqRelayBlock blockHash count grapheneFailed) :
    Fallback G g event blockHash := by
  have hsays := h s hs
  rw [heq] at hsays
  cases hsays with
  | fallback hfallback => exact hfallback

/-- **A request names a block that is not held**, or is a fallback. -/
theorem InvStep.unheld {event : Event} {sends : GrapheneSends} (h : InvStep G c now g event g' sends)
    (hentries : ∀ blockHash, InvEntry g blockHash) {s : Ipv4Address × GrapheneMessage}
    (hs : s ∈ sends) {blockHash count : ℕ} {grapheneFailed : Bool}
    (heq : s.2 = .reqRelayBlock blockHash count grapheneFailed) :
    ¬ g.node.blockchain.Held blockHash ∨ Fallback G g event blockHash := by
  cases h with
  | same _ hsends => exact .inr (hsends.fallback hs heq)
  | block _ hblock => cases (mem_sends_handleBlock hblock hs).symm.trans heq
  | announced =>
      obtain ⟨rfl, hunheld⟩ := mem_sends_handleInvRelayBlock hs
      exact .inl ((GrapheneMessage.reqRelayBlock.inj heq).1 ▸ hunheld)
  | @expired expiredHash due pick =>
      obtain ⟨hmsg, hmem⟩ := mem_sends_invTimeoutExpired hs
      obtain ⟨rfl, -⟩ := GrapheneMessage.reqRelayBlock.inj (hmsg.symm.trans heq)
      left
      cases hentries expiredHash with
      | idle hnone =>
          obtain ⟨l, hl⟩ := mem_iff_exists.mp hmem
          exact absurd (hnone.symm.trans hl).symm (Option.some_ne_none l)
      | asked _ _ _ _ hunheld => exact hunheld
  | mined _ _ _ hsends => exact .inr (hsends.fallback hs heq)

/-- The request that follows a failed recovery. -/
theorem sends_of_failed {store store' : BlockBodyStore} {data : RecoveryResponse}
    {peer : Ipv4Address} {state : GrapheneState} {sends : GrapheneSends}
    (hstate : g.grapheneState[data.blockHash]? = some state)
    (hfailed : processRecoveryResponse G.checked G.murmurHash3 G.rounds data state = .ok none)
    (h : step G c now store g (.handleGrapheneRecoveryResponse data peer) =
      some (store', g', sends)) :
    sends = [(peer, .reqRelayBlock data.blockHash 0 true)] := by
  rw [step, handleGrapheneRecoveryResponse, hstate] at h
  dsimp only at h
  rw [hfailed] at h
  exact (congrArg (fun r => r.2.2) (Option.some.inj h)).symm

/-- **Held blocks are never asked for exactly when no recovery of a held block
fails**, in runs in which no mined block was announced before. -/
theorem requestsUnheld_iff {inputs : List Input} (hfresh : MinedFresh G c inputs) :
    RequestsUnheld G c inputs ↔ NoHeldFailure G c inputs := by
  constructor
  · intro h past g i g' sends hstep data peer state hevent hstate hfailed
    obtain ⟨store, hhandled⟩ := hstep.handled
    rw [hevent] at hhandled
    have hsends := sends_of_failed hstate hfailed hhandled
    exact h past g i g' sends hstep _ (hsends ▸ List.mem_singleton_self _) _ _ _ rfl
  · intro h past g i g' sends hstep s hs blockHash count grapheneFailed heq
    obtain ⟨sent, hreached⟩ := hstep.reached
    obtain ⟨store, hhandled⟩ := hstep.handled
    have hpast := (List.prefix_append past [i]).trans hstep.inRun
    have hentries := (fetching_trace (hfresh.mono hpast) hreached).invEntries
    obtain hunheld | hfallback := (inv_step hhandled).unheld hentries hs heq
    · exact hunheld
    · generalize hevent : i.event = event at hfallback
      cases hfallback with
      | failed hstate hfailed => exact h past g i g' sends hstep _ _ _ hevent hstate hfailed
      | expired hunheld => exact hunheld

/-! ## a block that arrives while it is recovered -/

/-- The answer to the request for recovery, which cannot be decoded either. -/
def collidingResponse : RecoveryResponse where
  blockHash := colliding.id
  txChecksum := txChecksum colliding.txs
  iblt := collidingTable 3
  missing := []

/-- The failure of the recovery. -/
def lateFailure : Input := ⟨1203, ∅, .handleGrapheneRecoveryResponse collidingResponse 1⟩

/-- When the recovery fails and the block has not arrived, it is asked for
rightly. -/
theorem requestsUnheld_late :
    RequestsUnheld relaying Node.twoPeers (lateMessage ++ [lateFailure]) := by
  have hunheld : (trace relaying Node.twoPeers lateMessage).map (fun st =>
      decide (st.1.node.blockchain.Held colliding.id)) = some false := by
    decide +kernel
  have hfresh : MinedFresh relaying Node.twoPeers (lateMessage ++ [lateFailure]) :=
    minedFresh_cons fun i hi pick => by fin_cases hi <;> nofun
  refine (requestsUnheld_iff hfresh).mpr ?_
  intro past g i g' sends hstep data peer state hevent _ _
  obtain heq | hbefore := List.prefix_concat_iff.mp hstep.inRun
  · obtain ⟨rfl, hlast⟩ := List.append_inj' heq rfl
    obtain rfl := List.singleton_inj.mp hlast
    obtain ⟨rfl, -⟩ := Event.handleGrapheneRecoveryResponse.inj hevent
    obtain ⟨sent, hreached⟩ := hstep.reached
    rw [hreached] at hunheld
    exact of_decide_eq_false (Option.some.inj hunheld)
  · have hi : i ∈ lateMessage := hbefore.subset (by simp)
    fin_cases hi <;> cases hevent

/-- The second peer sends the block before that. -/
def arrival : Input := ⟨1202, ∅, .handleBlock colliding 2⟩

/-- Whether the last request is for a block that is held. -/
def askedAgain : Option Bool := do
  let (g, _) ← trace relaying Node.twoPeers (lateMessage ++ [arrival])
  let (_, _, sends) ←
    step relaying Node.twoPeers lateFailure.now lateFailure.store g lateFailure.event
  return decide (g.node.blockchain.Held colliding.id) && sends.any fun s =>
    match s.2 with
    | .reqRelayBlock blockHash _ _ => blockHash == colliding.id
    | _ => false

/-- **A block that has arrived is asked for again.** -/
theorem not_requestsUnheld :
    MinedFresh relaying Node.twoPeers (lateMessage ++ [arrival] ++ [lateFailure]) ∧
      ¬ RequestsUnheld relaying Node.twoPeers (lateMessage ++ [arrival] ++ [lateFailure]) := by
  refine ⟨minedFresh_cons fun i hi pick => by fin_cases hi <;> nofun, fun h => ?_⟩
  have hasked : askedAgain = some true := by decide +kernel
  unfold askedAgain at hasked
  obtain ⟨⟨g, sent⟩, hreached, hasked⟩ := Option.bind_eq_some_iff.mp hasked
  obtain ⟨⟨store, g', sends⟩, hhandled, hasked⟩ := Option.bind_eq_some_iff.mp hasked
  obtain ⟨hheld, hany⟩ := Bool.and_eq_true_iff.mp (Option.some.inj hasked)
  obtain ⟨⟨dest, msg⟩, hs, hmsg⟩ := List.any_eq_true.mp hany
  have hstep : Step relaying Node.twoPeers (lateMessage ++ [arrival] ++ [lateFailure])
      (lateMessage ++ [arrival]) g lateFailure g' sends :=
    ⟨List.prefix_rfl, ⟨sent, hreached⟩, ⟨store, hhandled⟩⟩
  cases msg with
  | reqRelayBlock blockHash count grapheneFailed =>
      obtain rfl : blockHash = colliding.id := beq_iff_eq.mp hmsg
      exact h _ g lateFailure g' sends hstep _ hs _ count grapheneFailed rfl (of_decide_eq_true hheld)
  | _ => exact Bool.false_ne_true hmsg

end GrapheneNode

end GhostDag
