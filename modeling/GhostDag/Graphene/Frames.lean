import GhostDag.Graphene.Handlers
import GhostDag.Lib.Loops
import GhostDag.Node.Steps
import GhostDag.Node.Traffic

/-!
# GhostDag.Graphene.Frames

What an event does to the bookkeeping of blocks, and which messages it can
send.

The announcers of blocks and their timers change in three handlers only, and
the three maps of Graphene in three others.  Every other event leaves both as
they are, but for a mined block.  A request for a block or a transaction is
sent by few handlers too (`plain_step`).
-/

namespace GhostDag

open Std (ExtTreeMap ExtTreeSet)
open Containers

namespace Node

variable {c : Config} {now : ℚ} {n n' : Node}

/-- `n'` has the announcers and the timers of `n`. -/
structure SameFetch (n n' : Node) : Prop where
  queueInv : n'.queueInv = n.queueInv
  invTimeouts : n'.invTimeouts = n.invTimeouts

theorem SameFetch.refl (n : Node) : SameFetch n n := ⟨rfl, rfl⟩

theorem SameFetch.trans {n'' : Node} (h : SameFetch n n') (h' : SameFetch n' n'') :
    SameFetch n n'' :=
  ⟨h'.queueInv.trans h.queueInv, h'.invTimeouts.trans h.invTimeouts⟩

/-- The messages that an event sends, but for those about blocks to fetch. -/
inductive Sent : Event → Message → Prop
  | asked {txIds wanted : List Nat} {peer : Ipv4Address} :
      Sent (.handleInvTransactions txIds peer) (.reqTransactions wanted)
  | answered {txIds : List Nat} {peer : Ipv4Address} {txs : List Transaction} :
      Sent (.handleReqTransactions txIds peer) (.transactions txs)
  | retried {pick : Nat → Nat} {txIds : List Nat} :
      Sent (.processTxTimeouts pick) (.reqTransactions txIds)
  | flushed {txIds : List Nat} : Sent .flushInvBatch (.invTransactions txIds)
  | mined {pick : Nat → Nat × Nat} {blockHash : Nat} :
      Sent (.mineBlock pick) (.invRelayBlock blockHash)

theorem not_sent_reqRelayBlock {event : Event} {blockHash : ℕ} :
    ¬ Sent event (.reqRelayBlock blockHash) := nofun

theorem Requeues.sameFetch (h : Requeues n n') : SameFetch n n' := by
  obtain ⟨_, _, _, rfl⟩ := h
  exact ⟨rfl, rfl⟩

theorem sameFetch_accept {draw : ℕ → ℕ} {tx : Transaction} (h : accept c draw n tx = some n') :
    SameFetch n n' := by
  obtain ⟨-, rfl⟩ | ⟨-, _, -, ⟨-, rfl⟩ | ⟨-, rfl⟩⟩ := accept_cases h <;> exact ⟨rfl, rfl⟩

theorem sameFetch_handleTransactions {draw : ℕ → ℕ} {txs : List Transaction} {peer : Ipv4Address}
    (h : handleTransactions c draw n txs peer = some n') : SameFetch n n' := by
  obtain ⟨m, hm, hcases⟩ := handleTransactions_cases h
  have hall : SameFetch n m := foldlM_keeps (P := SameFetch n)
    (fun _ _ _ _ hkept hacc => hkept.trans (sameFetch_accept hacc)) (.refl n) hm
  obtain ⟨-, rfl⟩ | ⟨-, rfl⟩ := hcases
  · exact hall
  · exact ⟨hall.queueInv, hall.invTimeouts⟩

theorem sameFetch_generateTransaction {fee : ℕ} (h : generateTransaction c n fee = some n') :
    SameFetch n n' := by
  obtain ⟨-, rfl⟩ | ⟨-, -, _, -, rfl⟩ := generateTransaction_cases h <;> exact ⟨rfl, rfl⟩

/-- The chain that a plain event leaves: a mined block is added. -/
def Extends (c : Config) (n : Node) (event : Event) (chain : Blockchain) : Prop :=
  chain = n.blockchain ∨
    ∃ pick b, event = .mineBlock pick ∧ b.id = minedId c n ∧
      (countBlock n.blockchain).addBlock b = some chain

/-- **A plain event** leaves the bookkeeping of blocks as it is. -/
theorem plain_step {store store' : BlockBodyStore} {event : Event} {sends : Sends}
    (hplain : GrapheneNode.leavesAsIs event = true)
    (h : step c now store n event = some (store', n', sends)) :
    SameFetch n n' ∧ Extends c n event n'.blockchain ∧ ∀ s ∈ sends, Sent event s.2 := by
  have hchain : Extends c n event n'.blockchain := by
    obtain hsame | ⟨call, hcall, hadd⟩ := blockchain_step h
    · exact .inl hsame
    · cases hcall with
      | handleBlock => cases hplain
      | mineBlock => exact .inr ⟨_, _, rfl, rfl, hadd⟩
  have hsnd : ∀ {m : Node} {sent : Sends}, (m, sent) = (n', sends) → SameFetch n m →
      (∀ s ∈ sent, Sent event s.2) →
      SameFetch n n' ∧ Extends c n event n'.blockchain ∧ ∀ s ∈ sends, Sent event s.2 := by
    intro m sent heq hsame hsent
    obtain ⟨rfl, rfl⟩ := Prod.mk.inj heq
    exact ⟨hsame, hchain, hsent⟩
  cases event with
  | handleInvRelayBlock => cases hplain
  | handleReqRelayBlock => cases hplain
  | handleBlock => cases hplain
  | invTimeoutExpired => cases hplain
  | handleInvTransactions txIds peer =>
      obtain ⟨hsame, hsent⟩ := requeues_handleInvTransactions txIds peer
      refine hsnd (congrArg Prod.snd (Option.some.inj h)) hsame.sameFetch fun s hs => ?_
      obtain ⟨wanted, hs⟩ := hsent s hs
      exact hs ▸ .asked
  | handleReqTransactions txIds peer =>
      refine hsnd (congrArg Prod.snd (Option.some.inj h)) (.refl n) fun s hs => ?_
      unfold handleReqTransactions at hs
      dsimp only at hs
      split at hs
      · exact absurd hs List.not_mem_nil
      · rw [List.mem_singleton.mp hs]
        exact .answered
  | handleTransactions draw txs peer =>
      obtain ⟨m, hm, heq⟩ := Option.bind_eq_some_iff.mp h
      exact hsnd (congrArg Prod.snd (Option.some.inj heq)) (sameFetch_handleTransactions hm)
        fun s hs => absurd hs List.not_mem_nil
  | processTxTimeouts pick =>
      obtain ⟨r, hr, heq⟩ := Option.bind_eq_some_iff.mp h
      obtain ⟨hsame, hsent⟩ := requeues_processTxTimeouts hr
      refine hsnd (congrArg Prod.snd (Option.some.inj heq)) hsame.sameFetch fun s hs => ?_
      obtain ⟨txIds, hs⟩ := hsent s hs
      exact hs ▸ .retried
  | flushInvBatch =>
      rw [step] at h
      split at h
      · refine hsnd (congrArg Prod.snd (Option.some.inj h)) ⟨rfl, rfl⟩ fun s hs => ?_
        unfold flushInvBatch broadcastInvTransactions at hs
        split at hs
        · exact absurd hs List.not_mem_nil
        · obtain ⟨peer, -, rfl⟩ := List.mem_map.mp hs
          exact .flushed
      · exact hsnd (congrArg Prod.snd (Option.some.inj h)) (.refl n)
          fun s hs => absurd hs List.not_mem_nil
  | generateTransaction fee =>
      obtain ⟨m, hm, heq⟩ := Option.bind_eq_some_iff.mp h
      exact hsnd (congrArg Prod.snd (Option.some.inj heq)) (sameFetch_generateTransaction hm)
        fun s hs => absurd hs List.not_mem_nil
  | mineBlock pick =>
      obtain ⟨chain, -, heq⟩ := Option.bind_eq_some_iff.mp h
      refine hsnd (congrArg Prod.snd (Option.some.inj heq)) ⟨rfl, rfl⟩ fun s hs => ?_
      obtain ⟨peer, -, rfl⟩ := List.mem_map.mp hs
      exact .mined

end Node

namespace GrapheneNode

open GrapheneProtocol

variable {G : Graphene} {c : Config} {now : ℚ} {g g' : GrapheneNode}

/-! ## announced blocks -/

/-- `g'` has the chain, the announcers and the timers of `g`. -/
structure SameInv (g g' : GrapheneNode) : Prop where
  blockchain : g'.node.blockchain = g.node.blockchain
  fetch : Node.SameFetch g.node g'.node
  invEvents : g'.invEvents = g.invEvents

theorem SameInv.refl (g : GrapheneNode) : SameInv g g := ⟨rfl, .refl _, rfl⟩

/-- A request that gives up on Graphene: after a recovery that failed, or
when a recovery takes too long and the block is not there yet. -/
inductive Fallback (G : Graphene) (g : GrapheneNode) : Event → Nat → Prop
  | failed {data : RecoveryResponse} {peer : Ipv4Address} {state : GrapheneState} :
      g.grapheneState[data.blockHash]? = some state →
      processRecoveryResponse G.checked G.murmurHash3 G.rounds data state = .ok none →
      Fallback G g (.handleGrapheneRecoveryResponse data peer) data.blockHash
  | expired {blockHash : Nat} {due : ℚ} :
      ¬ g.node.blockchain.Held blockHash →
      Fallback G g (.grapheneRecoveryTimeout blockHash due) blockHash

/-- What an event can send, but for the requests of announced blocks. -/
inductive Says (G : Graphene) (g : GrapheneNode) (event : Event) : GrapheneMessage → Prop
  | fallback {blockHash count : Nat} : Fallback G g event blockHash →
      Says G g event (.reqRelayBlock blockHash count true)
  | asked {plain : PlainEvent} {txIds : List Nat} : event = .plain plain →
      Says G g event (.reqTransactions txIds)
  | invRelayBlock {blockHash : Nat} : Says G g event (.invRelayBlock blockHash)
  | block {b : WireBlock} : Says G g event (.block b)
  | grapheneBlock {data : GrapheneBlock} : Says G g event (.grapheneBlock data)
  | recoveryRequest {data : RecoveryRequest} : Says G g event (.grapheneRecoveryRequest data)
  | recoveryResponse {data : RecoveryResponse} : Says G g event (.grapheneRecoveryResponse data)
  | invTransactions {txIds : List Nat} : Says G g event (.invTransactions txIds)
  | transactions {txs : List Transaction} : Says G g event (.transactions txs)

/-- Every message is one of these. -/
def OnlySays (G : Graphene) (g : GrapheneNode) (event : Event) (sends : GrapheneSends) : Prop :=
  ∀ s ∈ sends, Says G g event s.2

/-- What an event can do to the announcers of blocks and their timers. -/
inductive InvStep (G : Graphene) (c : Config) (now : ℚ) (g : GrapheneNode) :
    Event → GrapheneNode → GrapheneSends → Prop
  | same {event : Event} {g' : GrapheneNode} {sends : GrapheneSends} :
      SameInv g g' → OnlySays G g event sends → InvStep G c now g event g' sends
  | block {event : Event} {g₁ g₂ g' : GrapheneNode} {b : Block} {peer : Ipv4Address}
      {sends : GrapheneSends} :
      SameInv g g₁ → g₁.handleBlock G c now b peer = some (g₂, sends) → SameInv g₂ g' →
      InvStep G c now g event g' sends
  | announced {blockHash : Nat} {peer : Ipv4Address} :
      InvStep G c now g (.handleInvRelayBlock blockHash peer)
        (g.handleInvRelayBlock G c now blockHash peer).1
        (g.handleInvRelayBlock G c now blockHash peer).2
  | expired {blockHash : Nat} {due : ℚ} {pick : Nat} :
      InvStep G c now g (.invTimeoutExpired blockHash due pick)
        (g.invTimeoutExpired G c now blockHash due pick).1
        (g.invTimeoutExpired G c now blockHash due pick).2
  | mined {pick : Nat → Nat × Nat} {node : Node} {b : Block} {sends : GrapheneSends} :
      Node.SameFetch g.node node → b.id = Node.minedId c g.node →
      (Node.countBlock g.node.blockchain).addBlock b = some node.blockchain →
      OnlySays G g (.plain ⟨.mineBlock pick, rfl⟩) sends →
      InvStep G c now g (.plain ⟨.mineBlock pick, rfl⟩) { g with node } sends

theorem onlySays_nil (event : Event) : OnlySays G g event [] :=
  fun _ hs => absurd hs List.not_mem_nil

theorem onlySays_singleton {event : Event} {peer : Ipv4Address} {msg : GrapheneMessage}
    (h : Says G g event msg) : OnlySays G g event [(peer, msg)] := by
  intro s hs
  rw [List.mem_singleton.mp hs]
  exact h

/-- Messages of the plain node that ask for no block. -/
theorem onlySays_lift {n : Node} {plain : PlainEvent} {sends : Sends}
    (h : ∀ s ∈ sends, ∀ blockHash, s.2 ≠ .reqRelayBlock blockHash) :
    OnlySays G g (.plain plain) (lift G n sends) := by
  intro s hs
  obtain ⟨s', hs', rfl⟩ := List.mem_map.mp hs
  obtain ⟨peer, msg⟩ := s'
  cases msg with
  | reqRelayBlock blockHash => exact absurd rfl (h _ hs' blockHash)
  | reqTransactions txIds => exact .asked rfl
  | invRelayBlock => exact .invRelayBlock
  | block => exact .block
  | invTransactions => exact .invTransactions
  | transactions => exact .transactions

/-- What `HandleBlock` does here: a block that is held is dropped. -/
theorem handleBlock_cases {b : Block} {peer : Ipv4Address} {sends : GrapheneSends}
    (h : g.handleBlock G c now b peer = some (g', sends)) :
    g' = g ∧ sends = [] ∨
    ¬ g.node.blockchain.Held b.id ∧ ∃ node chain, g' = { g with
        node, invEvents := g.invEvents.cancel g.node.invTimeouts b.id } ∧
      sends = lift G g.node (Node.broadcastInvBlock c b.id peer) ∧
      g.node.blockchain.addBlock (Node.received now b peer) = some chain ∧
      node.blockchain = chain ∧ node.queueInv = g.node.queueInv.erase b.id ∧
      node.invTimeouts = g.node.invTimeouts.erase b.id := by
  unfold handleBlock at h
  split at h
  · obtain ⟨rfl, rfl⟩ := Prod.mk.inj (Option.some.inj h)
    exact .inl ⟨rfl, rfl⟩
  · next hnew =>
      obtain ⟨⟨node, sent⟩, hnode, heq⟩ := Option.bind_eq_some_iff.mp h
      obtain ⟨rfl, rfl⟩ := Prod.mk.inj (Option.some.inj heq)
      obtain ⟨hheld, -⟩ | ⟨-, known, wasBlue, chain, newly, pool, -, -, hadd, -, -, heq⟩ :=
        Node.handleBlock_cases hnode
      · exact absurd hheld hnew
      · obtain ⟨rfl, rfl⟩ := Prod.mk.inj heq
        exact .inr ⟨fun hheld => hnew (Blockchain.held_iff.mpr hheld), _, chain, rfl, rfl, hadd, rfl,
          rfl, rfl⟩

theorem onlySays_handleReqRelayBlock {event : Event} {blockHash count : ℕ}
    {grapheneFailed : Bool} {peer : Ipv4Address} {sends : GrapheneSends}
    (h : (g.handleReqRelayBlock G blockHash grapheneFailed peer count).toOption = some sends) :
    OnlySays G g event sends := by
  unfold handleReqRelayBlock at h
  split at h
  · obtain rfl := Option.some.inj h
    exact onlySays_nil event
  · split at h
    · next b _ _ =>
        cases hcomp : buildSenderComponents G.checked G.murmurHash3 G.arith b.txs count with
        | error e =>
            rw [hcomp] at h
            cases h
        | ok components =>
            rw [hcomp] at h
            cases components with
            | none =>
                obtain rfl := Option.some.inj h
                exact onlySays_singleton .block
            | some components =>
                obtain rfl := Option.some.inj h
                exact onlySays_singleton .grapheneBlock
    · obtain rfl := Option.some.inj h
      exact onlySays_singleton .block

theorem onlySays_handleGrapheneRecoveryRequest {event : Event} {data : RecoveryRequest}
    {peer : Ipv4Address} {sends : GrapheneSends}
    (h : (g.handleGrapheneRecoveryRequest G data peer).toOption = some sends) :
    OnlySays G g event sends := by
  unfold handleGrapheneRecoveryRequest at h
  split at h
  · obtain rfl := Option.some.inj h
    exact onlySays_nil event
  · next b _ =>
      cases hresp : recoveryResponse G.checked G.murmurHash3 b data with
      | error e =>
          rw [hresp] at h
          cases h
      | ok resp =>
          rw [hresp] at h
          obtain rfl := Option.some.inj h
          exact onlySays_singleton .recoveryResponse

theorem inv_handleGrapheneBlock {store store' : BlockBodyStore} {data : GrapheneBlock}
    {peer : Ipv4Address} {sends : GrapheneSends} {event : Event}
    (h : g.handleGrapheneBlock G c now store data peer = some (store', g', sends)) :
    InvStep G c now g event g' sends := by
  unfold handleGrapheneBlock at h
  split at h
  · obtain ⟨rfl, rfl⟩ := Prod.mk.inj (congrArg Prod.snd (Option.some.inj h))
    exact .same (.refl g) (onlySays_nil event)
  · split at h
    · obtain ⟨rfl, rfl⟩ := Prod.mk.inj (congrArg Prod.snd (Option.some.inj h))
      exact .same (.refl g) (onlySays_nil event)
    · obtain ⟨⟨result, store₁⟩, -, h⟩ := Option.bind_eq_some_iff.mp h
      cases result with
      | success block =>
          obtain ⟨⟨g₂, sent⟩, hblock, heq⟩ := Option.bind_eq_some_iff.mp h
          obtain ⟨rfl, rfl⟩ := Prod.mk.inj (congrArg Prod.snd (Option.some.inj heq))
          exact .block (.refl g) hblock (.refl _)
      | failure state request =>
          obtain ⟨rfl, rfl⟩ := Prod.mk.inj (congrArg Prod.snd (Option.some.inj h))
          exact .same ⟨rfl, .refl _, rfl⟩ (onlySays_singleton .recoveryRequest)

theorem inv_handleGrapheneRecoveryResponse {store store' : BlockBodyStore}
    {data : RecoveryResponse} {peer : Ipv4Address} {sends : GrapheneSends}
    (h : g.handleGrapheneRecoveryResponse G c now store data peer = some (store', g', sends)) :
    InvStep G c now g (.handleGrapheneRecoveryResponse data peer) g' sends := by
  unfold handleGrapheneRecoveryResponse at h
  split at h
  · obtain ⟨rfl, rfl⟩ := Prod.mk.inj (congrArg Prod.snd (Option.some.inj h))
    exact .same (.refl g) (onlySays_nil _)
  · next state hstate =>
      obtain ⟨result, hresult, h⟩ := Option.bind_eq_some_iff.mp h
      cases result with
      | some blockTxIds =>
          obtain ⟨known, -, h⟩ := Option.bind_eq_some_iff.mp h
          obtain ⟨⟨g₂, sent⟩, hblock, heq⟩ := Option.bind_eq_some_iff.mp h
          obtain ⟨rfl, rfl⟩ := Prod.mk.inj (congrArg Prod.snd (Option.some.inj heq))
          have hknown : SameInv g { g with node := { g.node with knownTxs := known } } :=
            ⟨rfl, ⟨rfl, rfl⟩, rfl⟩
          exact .block hknown hblock ⟨rfl, .refl _, rfl⟩
      | none =>
          obtain ⟨rfl, rfl⟩ := Prod.mk.inj (congrArg Prod.snd (Option.some.inj h))
          have hfailed := Loops.toOption_eq_some.mp hresult
          exact .same ⟨rfl, .refl _, rfl⟩ (onlySays_singleton (.fallback (.failed hstate hfailed)))

theorem inv_grapheneRecoveryTimeout (blockHash : ℕ) (due : ℚ) :
    InvStep G c now g (.grapheneRecoveryTimeout blockHash due)
      (g.grapheneRecoveryTimeout blockHash due).1 (g.grapheneRecoveryTimeout blockHash due).2 := by
  unfold grapheneRecoveryTimeout
  split
  · dsimp only
    split
    · exact .same ⟨rfl, .refl _, rfl⟩ (onlySays_nil _)
    · split
      · exact .same ⟨rfl, .refl _, rfl⟩ (onlySays_nil _)
      · next hnew =>
          have hunheld : ¬ g.node.blockchain.Held blockHash :=
            fun hheld => hnew (Blockchain.held_iff.mpr hheld)
          split
          · exact .same ⟨rfl, .refl _, rfl⟩ (onlySays_singleton (.fallback (.expired hunheld)))
          · exact .same ⟨rfl, .refl _, rfl⟩ (onlySays_nil _)
  · exact .same (.refl g) (onlySays_nil _)

/-! ## messages -/

theorem mem_sends_handleBlock {b : Block} {peer : Ipv4Address} {sends : GrapheneSends}
    (h : g.handleBlock G c now b peer = some (g', sends)) {s : Ipv4Address × GrapheneMessage}
    (hs : s ∈ sends) : s.2 = .invRelayBlock b.id := by
  obtain ⟨-, rfl⟩ | ⟨-, node, chain, -, rfl, -⟩ := handleBlock_cases h
  · exact absurd hs List.not_mem_nil
  · obtain ⟨s', hs', rfl⟩ := List.mem_map.mp hs
    obtain ⟨dest, -, rfl⟩ := List.mem_map.mp hs'
    rfl

/-- An announcement is answered by a request for a block that is not held. -/
theorem mem_sends_handleInvRelayBlock {blockHash : ℕ} {peer : Ipv4Address}
    {s : Ipv4Address × GrapheneMessage}
    (hs : s ∈ (g.handleInvRelayBlock G c now blockHash peer).2) :
    s = (peer, .reqRelayBlock blockHash (mempoolCount G g.node) false) ∧
      ¬ g.node.blockchain.Held blockHash := by
  unfold handleInvRelayBlock at hs
  obtain ⟨-, hnode⟩ | ⟨hnew, ⟨-, hnode⟩ | ⟨-, hnode⟩⟩ :=
    Node.handleInvRelayBlock_cases c now g.node blockHash peer
  · rw [hnode] at hs
    exact absurd hs List.not_mem_nil
  · rw [hnode] at hs
    exact ⟨List.mem_singleton.mp hs, hnew⟩
  · rw [hnode] at hs
    exact absurd hs List.not_mem_nil

/-- A time-out is followed by a request for a block that was asked for. -/
theorem mem_sends_invTimeoutExpired {blockHash pick : ℕ} {due : ℚ}
    {s : Ipv4Address × GrapheneMessage}
    (hs : s ∈ (g.invTimeoutExpired G c now blockHash due pick).2) :
    s.2 = .reqRelayBlock blockHash (mempoolCount G g.node) false ∧ blockHash ∈ g.node.queueInv := by
  unfold invTimeoutExpired at hs
  split at hs
  · obtain ⟨-, hnode⟩ | ⟨announcers, hqueue, ⟨-, hnode⟩ | ⟨next, rest, -, hnode⟩⟩ :=
      Node.invTimeoutExpired_cases c now g.node blockHash pick
    · rw [hnode] at hs
      exact absurd hs List.not_mem_nil
    · rw [hnode] at hs
      exact absurd hs List.not_mem_nil
    · rw [hnode] at hs
      exact ⟨congrArg Prod.snd (List.mem_singleton.mp hs), mem_of_getElem? hqueue⟩
  · exact absurd hs List.not_mem_nil

/-! ## steps -/

/-- **What a step does to announced blocks.** -/
theorem inv_step {store store' : BlockBodyStore} {event : Event} {sends : GrapheneSends}
    (h : step G c now store g event = some (store', g', sends)) :
    InvStep G c now g event g' sends := by
  cases event with
  | plain event =>
      obtain ⟨⟨store₁, node, sent⟩, hstep, heq⟩ := Option.bind_eq_some_iff.mp h
      obtain ⟨rfl, rfl⟩ := Prod.mk.inj (congrArg Prod.snd (Option.some.inj heq))
      obtain ⟨hsame, hchain, hsent⟩ := Node.plain_step event.2 hstep
      have hsays : OnlySays G g (.plain event) (lift G g.node sent) :=
        onlySays_lift fun s hs blockHash heq => Node.not_sent_reqRelayBlock (heq ▸ hsent s hs)
      obtain hchain | ⟨pick, b, hmine, hid, hadd⟩ := hchain
      · exact .same ⟨hchain, hsame, rfl⟩ hsays
      · obtain ⟨event, hplain⟩ := event
        obtain rfl : event = .mineBlock pick := hmine
        exact .mined hsame hid hadd hsays
  | handleInvRelayBlock blockHash peer =>
      obtain ⟨rfl, rfl⟩ := Prod.mk.inj (congrArg Prod.snd (Option.some.inj h))
      exact .announced
  | handleReqRelayBlock blockHash grapheneFailed peer count =>
      obtain ⟨sent, hsent, heq⟩ := Option.bind_eq_some_iff.mp h
      obtain ⟨rfl, rfl⟩ := Prod.mk.inj (congrArg Prod.snd (Option.some.inj heq))
      exact .same (.refl g) (onlySays_handleReqRelayBlock hsent)
  | handleBlock b peer =>
      obtain ⟨r, hr, heq⟩ := Option.bind_eq_some_iff.mp h
      obtain ⟨rfl, rfl⟩ := Prod.mk.inj (congrArg Prod.snd (Option.some.inj heq))
      exact .block (.refl g) hr (.refl _)
  | handleGrapheneBlock data peer => exact inv_handleGrapheneBlock h
  | handleGrapheneRecoveryRequest data peer =>
      obtain ⟨sent, hsent, heq⟩ := Option.bind_eq_some_iff.mp h
      obtain ⟨rfl, rfl⟩ := Prod.mk.inj (congrArg Prod.snd (Option.some.inj heq))
      exact .same (.refl g) (onlySays_handleGrapheneRecoveryRequest hsent)
  | handleGrapheneRecoveryResponse data peer => exact inv_handleGrapheneRecoveryResponse h
  | grapheneRecoveryTimeout blockHash due =>
      obtain ⟨rfl, rfl⟩ := Prod.mk.inj (congrArg Prod.snd (Option.some.inj h))
      exact inv_grapheneRecoveryTimeout blockHash due
  | invTimeoutExpired blockHash due pick =>
      obtain ⟨rfl, rfl⟩ := Prod.mk.inj (congrArg Prod.snd (Option.some.inj h))
      exact .expired

end GrapheneNode

end GhostDag
