import GhostDag.Graphene.Frames
import GhostDag.Graphene.Relay
import GhostDag.Node.Eviction
import GhostDag.Node.Retries

/-!
# GhostDag.Graphene.KnownTxs

Requests for transactions that the node knows.

`HandleTransactions` closes the request of what it receives.  A transaction
that comes in a block becomes known as well, and its request stays open, so
that `ProcessTxTimeouts` asks the next announcer for it: the requests are for
unknown transactions exactly when no known one is due (`requestsUnknown_iff`).
-/

namespace GhostDag

open Std (ExtTreeMap ExtTreeSet)

namespace GrapheneNode

open GrapheneProtocol

variable {G : Graphene} {c : Config} {now : ℚ} {g g' : GrapheneNode}

/-- **No `REQ_TRANSACTIONS` of a run lists a known transaction.**  The known
ones are those of the state in which the event is handled; the handlers that
send such a message leave them as they are. -/
def RequestsUnknown (G : Graphene) (c : Config) (inputs : List Input) : Prop :=
  ∀ past g i g' sends, Step G c inputs past g i g' sends →
    ∀ s ∈ sends, ∀ txIds, s.2 = .reqTransactions txIds →
      ∀ t ∈ txIds, g.node.knownTxs.contains t = false

/-- Whenever the time-outs are processed, no open request that is due is for a
known transaction. -/
def NoKnownRetry (G : Graphene) (c : Config) (inputs : List Input) : Prop :=
  ∀ past g i g' sends, Step G c inputs past g i g' sends →
    ∀ pick, i.event = .plain ⟨.processTxTimeouts pick, rfl⟩ →
      ∀ t, Node.Due i.now g.node t → g.node.knownTxs.contains t = false

/-- Lifting keeps the requests for transactions. -/
theorem reqTransactions_mem_lift {n : Node} {sent : Sends} {t : ℕ} :
    (∃ s ∈ lift G n sent, ∃ txIds, s.2 = .reqTransactions txIds ∧ t ∈ txIds) ↔
      Node.Asked sent t := by
  constructor
  · intro h
    obtain ⟨s, hs, txIds, heq, ht⟩ := h
    obtain ⟨s', hs', rfl⟩ := List.mem_map.mp hs
    obtain ⟨peer, msg⟩ := s'
    cases msg with
    | reqTransactions txIds' =>
        obtain rfl := GrapheneMessage.reqTransactions.inj heq
        exact ⟨_, hs', _, rfl, ht⟩
    | _ => cases heq
  · intro h
    obtain ⟨⟨peer, msg⟩, hs, txIds, rfl, ht⟩ := h
    exact ⟨_, List.mem_map_of_mem hs, txIds, rfl, ht⟩

/-- Only the plain events ask for transactions. -/
theorem InvStep.plain_of_reqTransactions {event : Event} {sends : GrapheneSends}
    (h : InvStep G c now g event g' sends) {s : Ipv4Address × GrapheneMessage} (hs : s ∈ sends)
    {txIds : List ℕ} (heq : s.2 = .reqTransactions txIds) : ∃ plain, event = .plain plain := by
  cases h with
  | same _ hsends =>
      have hsays := hsends s hs
      rw [heq] at hsays
      cases hsays with
      | asked hplain => exact ⟨_, hplain⟩
  | block _ hblock => cases (mem_sends_handleBlock hblock hs).symm.trans heq
  | announced =>
      obtain ⟨rfl, -⟩ := mem_sends_handleInvRelayBlock hs
      cases heq
  | expired => cases (mem_sends_invTimeoutExpired hs).1.symm.trans heq
  | mined => exact ⟨_, rfl⟩

/-- **What a step asks for**: transactions that were announced and are not
known, or open requests that are due. -/
theorem asked_step {now : ℚ} {store store' : BlockBodyStore} {event : Event}
    {sends : GrapheneSends} (h : step G c now store g event = some (store', g', sends))
    {s : Ipv4Address × GrapheneMessage} (hs : s ∈ sends) {txIds : List ℕ}
    (heq : s.2 = .reqTransactions txIds) {t : ℕ} (ht : t ∈ txIds) :
    g.node.knownTxs.contains t = false ∨
      ∃ pick, event = .plain ⟨.processTxTimeouts pick, rfl⟩ ∧ Node.Due now g.node t := by
  obtain ⟨⟨event, hleft⟩, rfl⟩ := (inv_step h).plain_of_reqTransactions hs heq
  obtain ⟨⟨store₁, node, sent⟩, hstep, hret⟩ := Option.bind_eq_some_iff.mp h
  obtain ⟨-, rfl⟩ := Prod.mk.inj (congrArg Prod.snd (Option.some.inj hret))
  have hasked : Node.Asked sent t := reqTransactions_mem_lift.mp ⟨s, hs, txIds, heq, ht⟩
  obtain ⟨-, -, hsent⟩ := Node.plain_step hleft hstep
  obtain ⟨s', hs', txIds', heq', ht'⟩ := id hasked
  generalize hmsg : s'.2 = msg at heq'
  have hsays := hsent s' hs'
  rw [hmsg, heq'] at hsays
  cases hsays with
  | asked =>
      obtain ⟨-, rfl⟩ := Prod.mk.inj (congrArg Prod.snd (Option.some.inj hstep))
      exact .inl (Node.unknown_of_handleInvTransactions hasked)
  | retried =>
      obtain ⟨r, hr, hnode⟩ := Option.bind_eq_some_iff.mp hstep
      obtain ⟨-, rfl⟩ := Prod.mk.inj (congrArg Prod.snd (Option.some.inj hnode))
      exact .inr ⟨_, rfl, (Node.asked_processTxTimeouts_iff hr t).mp hasked⟩

/-- **Known transactions are never asked for exactly when none is due** at any
time at which the time-outs are processed. -/
theorem requestsUnknown_iff (G : Graphene) (c : Config) (inputs : List Input) :
    RequestsUnknown G c inputs ↔ NoKnownRetry G c inputs := by
  constructor
  · intro h past g i g' sends hstep pick hevent t hdue
    obtain ⟨store', hhandled⟩ := hstep.handled
    rw [hevent] at hhandled
    obtain ⟨⟨store₁, node, sent⟩, hnode, hret⟩ := Option.bind_eq_some_iff.mp hhandled
    obtain ⟨r, hr, heq⟩ := Option.bind_eq_some_iff.mp hnode
    obtain ⟨-, rfl⟩ := Prod.mk.inj (congrArg Prod.snd (Option.some.inj heq))
    obtain ⟨rfl, rfl⟩ := Prod.mk.inj (congrArg Prod.snd (Option.some.inj hret))
    obtain ⟨s, hs, txIds, hmsg, ht⟩ := reqTransactions_mem_lift.mpr
      ((Node.asked_processTxTimeouts_iff hr t).mpr hdue)
    exact h past g i _ _ hstep s hs txIds hmsg t ht
  · intro h past g i g' sends hstep s hs txIds heq t ht
    obtain ⟨store', hhandled⟩ := hstep.handled
    obtain hunknown | ⟨pick, hevent, hdue⟩ := asked_step hhandled hs heq ht
    · exact hunknown
    · exact h past g i g' sends hstep pick hevent t hdue

/-! ## a transaction that comes in a block -/

/-- A node without Graphene. -/
def plainRelay : Graphene where
  grapheneEnabled := false
  checked := false
  murmurHash3 := (· + ·)
  rounds := 1
  arith := smallest

/-- Two peers announce a transaction, and it comes in a block. -/
def knownByBlock : List Input :=
  [⟨0, ∅, .plain ⟨.handleInvTransactions [7 * 2 ^ 32] 1, rfl⟩⟩,
    ⟨1, ∅, .plain ⟨.handleInvTransactions [7 * 2 ^ 32] 2, rfl⟩⟩,
    ⟨2, ∅, .handleBlock (Node.overGenesis 7 [Node.txOf7 0 1]) 1⟩]

/-- The first deadline passes. -/
def deadline : Input := ⟨1200, ∅, .plain ⟨.processTxTimeouts fun _ => 0, rfl⟩⟩

/-- Whether a known transaction is asked for then. -/
def askedKnown : Option Bool := do
  let (g, _) ← trace plainRelay Node.twoPeers knownByBlock
  let (_, _, sends) ← step plainRelay Node.twoPeers deadline.now deadline.store g deadline.event
  return g.node.knownTxs.contains (7 * 2 ^ 32) && sends.any fun s =>
    match s.2 with
    | .reqTransactions txIds => txIds.contains (7 * 2 ^ 32)
    | _ => false

/-- **A transaction that came in a block is asked for.** -/
theorem not_requestsUnknown :
    ¬ RequestsUnknown plainRelay Node.twoPeers (knownByBlock ++ [deadline]) := by
  intro h
  have hasked : askedKnown = some true := by decide +kernel
  unfold askedKnown at hasked
  obtain ⟨⟨g, sent⟩, hreached, hasked⟩ := Option.bind_eq_some_iff.mp hasked
  obtain ⟨⟨store, g', sends⟩, hhandled, hasked⟩ := Option.bind_eq_some_iff.mp hasked
  obtain ⟨hknown, hany⟩ := Bool.and_eq_true_iff.mp (Option.some.inj hasked)
  obtain ⟨⟨dest, msg⟩, hs, hmsg⟩ := List.any_eq_true.mp hany
  have hstep : Step plainRelay Node.twoPeers (knownByBlock ++ [deadline]) knownByBlock g deadline g'
      sends := ⟨List.prefix_rfl, ⟨sent, hreached⟩, ⟨store, hhandled⟩⟩
  cases msg with
  | reqTransactions txIds =>
      have hunknown := h _ g deadline g' sends hstep _ hs txIds rfl _ (List.contains_iff_mem.mp hmsg)
      exact Bool.false_ne_true (hunknown.symm.trans hknown)
  | _ => exact Bool.false_ne_true hmsg

end GrapheneNode

end GhostDag
