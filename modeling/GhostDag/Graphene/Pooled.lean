import GhostDag.Graphene.Fetch
import GhostDag.Node.PoolSteps

/-!
# GhostDag.Graphene.Pooled

The transaction pool of a node over its runs.

The pool itself would take a transaction twice, and any number of them.  What
keeps it in bounds are the guards of the handlers, the ids that the node knows
and, for its own transactions, the counter that they are numbered by
(`pooled_trace`).
-/

namespace GhostDag

open Relation (ReflTransGen)

namespace GrapheneNode

open GrapheneProtocol Node

variable {G : Graphene} {c : Config} {g g' : GrapheneNode}

/-! ## the ids that come in -/

/-- The transaction ids that an event hands to the node: those of the messages
and of the blocks that it handles, a block that is reconstructed included. -/
inductive Carries (G : Graphene) (c : Config) (i : Input) (g : GrapheneNode) : Nat → Prop
  | transactions {draw : Nat → Nat} {txs : List Transaction} {peer : Ipv4Address}
      {tx : Transaction} :
      i.event = .plain ⟨.handleTransactions draw txs peer, rfl⟩ → tx ∈ txs →
      Carries G c i g tx.txId
  | block {b : Block} {peer : Ipv4Address} {tx : Transaction} :
      i.event = .handleBlock b peer → tx ∈ b.txs.list → Carries G c i g tx.txId
  | reconstructed {data : GrapheneBlock} {peer : Ipv4Address} {b : Block}
      {store : BlockBodyStore} {tx : Transaction} :
      i.event = .handleGrapheneBlock data peer →
      processIncomingBlock G.checked G.murmurHash3 G.rounds G.arith i.store data
        g.node.mempool.getAllEntries g.node.mempool.size = .ok (.success b, store) →
      tx ∈ b.txs.list → Carries G c i g tx.txId
  | recovered {data : RecoveryResponse} {peer : Ipv4Address} {state : GrapheneState}
      {blockTxIds : Std.ExtTreeSet Nat} {t : Nat} :
      i.event = .handleGrapheneRecoveryResponse data peer →
      g.grapheneState[data.blockHash]? = some state →
      processRecoveryResponse G.checked G.murmurHash3 G.rounds data state = .ok (some blockTxIds) →
      t ∈ blockTxIds ∨ (∃ tx ∈ (i.store.intern state.header.blockId (TxSet.ofList
        (blockTxIds.toList.map (recoveredTx c.hashFun g.node.mempool)))).1.list, tx.txId = t) →
      Carries G c i g t

/-- No event of the run carries a transaction id of the node that it has yet
to generate. -/
def CarriesGenerated (G : Graphene) (c : Config) (inputs : List Input) : Prop :=
  ∀ past g i g' sends, Step G c inputs past g i g' sends → OwnGenerated c g.node (Carries G c i g)

theorem CarriesGenerated.mono {inputs inputs' : List Input} (h : CarriesGenerated G c inputs')
    (hle : inputs <+: inputs') : CarriesGenerated G c inputs :=
  fun past g i g' sends hstep => h past g i g' sends (hstep.mono hle)

/-! ## steps -/

theorem poolRun_handleBlock {now : ℚ} {b : Block} {peer : Ipv4Address} {sends : GrapheneSends}
    {carried : ℕ → Prop} (htxs : ∀ tx ∈ b.txs.list, carried tx.txId)
    (h : g.handleBlock G c now b peer = some (g', sends)) : PoolRun c carried g.node g'.node := by
  unfold handleBlock at h
  split at h
  · obtain ⟨rfl, -⟩ := Prod.mk.inj (Option.some.inj h)
    exact .refl
  · obtain ⟨r, hnode, heq⟩ := Option.bind_eq_some_iff.mp h
    obtain ⟨rfl, -⟩ := Prod.mk.inj (Option.some.inj heq)
    exact Node.poolRun_handleBlock htxs hnode

/-- An event that Graphene leaves as it is. -/
theorem poolRun_plain {i : Input} {event : PlainEvent} (hi : i.event = .plain event)
    {store' : BlockBodyStore} {n : Node} {sends : Sends}
    (h : Node.step c i.now i.store g.node event.1 = some (store', n, sends)) :
    PoolRun c (Carries G c i g) g.node n := by
  obtain ⟨event, hplain⟩ := event
  cases event with
  | handleInvRelayBlock => cases hplain
  | handleReqRelayBlock => cases hplain
  | handleBlock => cases hplain
  | invTimeoutExpired => cases hplain
  | handleInvTransactions txIds peer =>
      have hnode : (Node.handleInvTransactions c i.now g.node txIds peer).1 = n :=
        congrArg (fun r => r.2.1) (Option.some.inj h)
      exact hnode ▸ (requeues_handleInvTransactions txIds peer).1.sameLedger.poolRun
  | handleReqTransactions txIds peer =>
      obtain ⟨rfl, -⟩ := Prod.mk.inj (congrArg Prod.snd (Option.some.inj h))
      exact .refl
  | handleTransactions draw txs peer =>
      obtain ⟨m, hm, heq⟩ := Option.bind_eq_some_iff.mp h
      obtain ⟨rfl, -⟩ := Prod.mk.inj (congrArg Prod.snd (Option.some.inj heq))
      exact poolRun_handleTransactions (fun tx htx => .transactions hi htx) hm
  | processTxTimeouts pick =>
      obtain ⟨r, hr, heq⟩ := Option.bind_eq_some_iff.mp h
      obtain ⟨rfl, -⟩ := Prod.mk.inj (congrArg Prod.snd (Option.some.inj heq))
      exact (requeues_processTxTimeouts hr).1.sameLedger.poolRun
  | flushInvBatch =>
      have hsame : SameLedger g.node n := by
        rw [Node.step] at h
        split at h <;> obtain ⟨rfl, -⟩ := Prod.mk.inj (congrArg Prod.snd (Option.some.inj h))
        · exact ⟨rfl, rfl, rfl, rfl⟩
        · exact .refl _
      exact hsame.poolRun
  | generateTransaction fee =>
      obtain ⟨m, hm, heq⟩ := Option.bind_eq_some_iff.mp h
      obtain ⟨rfl, -⟩ := Prod.mk.inj (congrArg Prod.snd (Option.some.inj heq))
      exact poolRun_generateTransaction hm
  | mineBlock pick => exact poolRun_mineBlock h

theorem poolRun_handleGrapheneBlock {i : Input} {data : GrapheneBlock} {peer : Ipv4Address}
    (hi : i.event = .handleGrapheneBlock data peer) {store' : BlockBodyStore}
    {sends : GrapheneSends}
    (h : g.handleGrapheneBlock G c i.now i.store data peer = some (store', g', sends)) :
    PoolRun c (Carries G c i g) g.node g'.node := by
  unfold handleGrapheneBlock at h
  split at h
  · obtain ⟨rfl, -⟩ := Prod.mk.inj (congrArg Prod.snd (Option.some.inj h))
    exact .refl
  · split at h
    · obtain ⟨rfl, -⟩ := Prod.mk.inj (congrArg Prod.snd (Option.some.inj h))
      exact .refl
    · obtain ⟨⟨result, store₁⟩, hresult, h⟩ := Option.bind_eq_some_iff.mp h
      cases result with
      | success b =>
          obtain ⟨⟨g₂, sent⟩, hblock, heq⟩ := Option.bind_eq_some_iff.mp h
          obtain ⟨rfl, -⟩ := Prod.mk.inj (congrArg Prod.snd (Option.some.inj heq))
          have hok := Loops.toOption_eq_some.mp hresult
          exact poolRun_handleBlock (fun tx htx => .reconstructed hi hok htx) hblock
      | failure state request =>
          obtain ⟨rfl, -⟩ := Prod.mk.inj (congrArg Prod.snd (Option.some.inj h))
          exact .refl

theorem poolRun_handleGrapheneRecoveryResponse {i : Input} {data : RecoveryResponse}
    {peer : Ipv4Address} (hi : i.event = .handleGrapheneRecoveryResponse data peer)
    {store' : BlockBodyStore} {sends : GrapheneSends}
    (h : g.handleGrapheneRecoveryResponse G c i.now i.store data peer = some (store', g', sends)) :
    PoolRun c (Carries G c i g) g.node g'.node := by
  unfold handleGrapheneRecoveryResponse at h
  split at h
  · obtain ⟨rfl, -⟩ := Prod.mk.inj (congrArg Prod.snd (Option.some.inj h))
    exact .refl
  · next state hstate =>
      obtain ⟨result, hresult, h⟩ := Option.bind_eq_some_iff.mp h
      have hok := Loops.toOption_eq_some.mp hresult
      cases result with
      | some blockTxIds =>
          obtain ⟨known, hknown, h⟩ := Option.bind_eq_some_iff.mp h
          obtain ⟨⟨g₂, sent⟩, hblock, heq⟩ := Option.bind_eq_some_iff.mp h
          obtain ⟨rfl, -⟩ := Prod.mk.inj (congrArg Prod.snd (Option.some.inj heq))
          have hlearns : Learns (Carries G c i g) g.node.knownTxs known :=
            learns_foldlM_insert (fun t ht => .recovered hi hstate hok
              (.inl (Std.ExtTreeSet.mem_toList.mp ht))) hknown
          have hlearn : PoolStep c (Carries G c i g) g.node { g.node with knownTxs := known } :=
            .sheds .refl hlearns rfl
          exact .head hlearn (poolRun_handleBlock
            (fun tx htx => .recovered hi hstate hok (.inr ⟨tx, htx, rfl⟩)) hblock)
      | none =>
          obtain ⟨rfl, -⟩ := Prod.mk.inj (congrArg Prod.snd (Option.some.inj h))
          exact .refl

/-- **An event is a run of steps of the pool**, with the ids that it
carries. -/
theorem poolRun_step {i : Input} {store' : BlockBodyStore} {sends : GrapheneSends}
    (h : step G c i.now i.store g i.event = some (store', g', sends)) :
    PoolRun c (Carries G c i g) g.node g'.node := by
  generalize hi : i.event = event at h
  cases event with
  | plain event =>
      obtain ⟨⟨store₁, node, sent⟩, hstep, heq⟩ := Option.bind_eq_some_iff.mp h
      obtain ⟨rfl, -⟩ := Prod.mk.inj (congrArg Prod.snd (Option.some.inj heq))
      exact poolRun_plain hi hstep
  | handleInvRelayBlock blockHash peer =>
      obtain ⟨rfl, -⟩ := Prod.mk.inj (congrArg Prod.snd (Option.some.inj h))
      exact (fetches_handleInvRelayBlock blockHash peer).sameLedger.poolRun
  | handleReqRelayBlock blockHash grapheneFailed peer count =>
      obtain ⟨sent, -, heq⟩ := Option.bind_eq_some_iff.mp h
      obtain ⟨rfl, -⟩ := Prod.mk.inj (congrArg Prod.snd (Option.some.inj heq))
      exact .refl
  | handleBlock b peer =>
      obtain ⟨r, hr, heq⟩ := Option.bind_eq_some_iff.mp h
      obtain ⟨rfl, rfl⟩ := Prod.mk.inj (congrArg Prod.snd (Option.some.inj heq))
      exact poolRun_handleBlock (fun tx htx => .block hi htx) hr
  | handleGrapheneBlock data peer => exact poolRun_handleGrapheneBlock hi h
  | handleGrapheneRecoveryRequest data peer =>
      obtain ⟨sent, -, heq⟩ := Option.bind_eq_some_iff.mp h
      obtain ⟨rfl, -⟩ := Prod.mk.inj (congrArg Prod.snd (Option.some.inj heq))
      exact .refl
  | handleGrapheneRecoveryResponse data peer => exact poolRun_handleGrapheneRecoveryResponse hi h
  | grapheneRecoveryTimeout blockHash due =>
      obtain ⟨rfl, -⟩ := Prod.mk.inj (congrArg Prod.snd (Option.some.inj h))
      have hnode : (g.grapheneRecoveryTimeout blockHash due).1.node = g.node := by
        unfold grapheneRecoveryTimeout
        split
        · dsimp only
          split
          · rfl
          · split
            · rfl
            · split <;> rfl
        · rfl
      exact hnode ▸ .refl
  | invTimeoutExpired blockHash due pick =>
      obtain ⟨rfl, -⟩ := Prod.mk.inj (congrArg Prod.snd (Option.some.inj h))
      unfold invTimeoutExpired
      split
      · exact (fetches_invTimeoutExpired blockHash pick).sameLedger.poolRun
      · exact .refl

/-! ## runs -/

/-- A run leaves the guards of the pool in place. -/
theorem poolInv_trace {inputs : List Input} (hhonest : CarriesGenerated G c inputs)
    {st : GrapheneNode × GrapheneSends} (hrun : trace G c inputs = some st) :
    PoolInv c st.1.node := by
  induction inputs using List.reverseRecOn generalizing st with
  | nil =>
      obtain rfl := Option.some.inj hrun
      exact poolInv_init c
  | append_singleton past i ih =>
      obtain ⟨g, sent, store, sends, hpast, hstep, -⟩ := trace_append.mp hrun
      have hown := hhonest past g i st.1 sends
        ⟨List.prefix_rfl, ⟨sent, hpast⟩, ⟨store, hstep⟩⟩
      exact ((poolRun_step hstep).inv
        (ih (hhonest.mono (List.prefix_append past [i])) hpast) hown).1

/-- What was known and not pooled some time during a run is not pooled at its
end. -/
theorem not_contains_trace {past rest : List Input}
    (hhonest : CarriesGenerated G c (past ++ rest)) {st st' : GrapheneNode × GrapheneSends}
    (hpast : trace G c past = some st) (hrun : trace G c (past ++ rest) = some st') {t : ℕ}
    (hknown : st.1.node.knownTxs.contains t = true) (hout : ¬ st.1.node.mempool.Contains t) :
    st'.1.node.knownTxs.contains t = true ∧ ¬ st'.1.node.mempool.Contains t := by
  induction rest using List.reverseRecOn generalizing st' with
  | nil =>
      rw [List.append_nil] at hrun
      obtain rfl := Option.some.inj (hpast.symm.trans hrun)
      exact ⟨hknown, hout⟩
  | append_singleton rest i ih =>
      rw [← List.append_assoc] at hrun hhonest
      obtain ⟨g, sent, store, sends, hmid, hstep, -⟩ := trace_append.mp hrun
      have hbefore := hhonest.mono (List.prefix_append (past ++ rest) [i])
      obtain ⟨hknown', hout'⟩ := ih hbefore hmid
      have hown := hhonest _ g i st'.1 sends ⟨List.prefix_rfl, ⟨sent, hmid⟩, ⟨store, hstep⟩⟩
      obtain ⟨-, -, hkept⟩ := (poolRun_step hstep).inv (poolInv_trace hbefore hmid) hown
      exact ⟨(hkept t hknown').1, (hkept t hknown').2 hout'⟩

/-- **The pool of a node**: no id occurs twice, the capacity is kept, and what
is pooled is known and can be found. -/
structure Pooled (c : Config) (n : Node) : Prop where
  once : (n.mempool.located.map fun l => l.2.txId).Nodup
  size_eq : n.mempool.size = n.mempool.located.length
  size_le : n.mempool.size ≤ c.mempoolSize
  known : ∀ t, n.mempool.Contains t → n.knownTxs.contains t = true
  find_iff : ∀ t, (n.mempool.find c.hashFun (idFromTxId t) t).isSome = true ↔ n.mempool.Contains t

/-- **In every run** the pool is guarded, and an id that was known and not
pooled does not enter it any more. -/
theorem pooled_trace {inputs : List Input} (hhonest : CarriesGenerated G c inputs)
    {g : GrapheneNode} {sent : GrapheneSends} (hrun : trace G c inputs = some (g, sent)) :
    Pooled c g.node ∧ ∀ past g₀ sent₀, past <+: inputs → trace G c past = some (g₀, sent₀) →
      ∀ t, g₀.node.knownTxs.contains t = true → ¬ g₀.node.mempool.Contains t →
        ¬ g.node.mempool.Contains t := by
  obtain ⟨hpool, hknown, -⟩ := poolInv_trace hhonest hrun
  refine ⟨⟨hpool.nodup_txIds, hpool.linked.count, hpool.size_le, hknown, fun t => ?_⟩,
    fun past g₀ sent₀ hpast hrun₀ t hknown₀ hout => ?_⟩
  · rw [← Option.ne_none_iff_isSome, Ne, hpool.wf.find_eq_none_iff, not_not]
  · obtain ⟨rest, rfl⟩ := hpast
    exact (not_contains_trace hhonest hrun₀ hrun hknown₀ hout).2

/-! ## a transaction that comes twice, and in a block -/

/-- The node generates a transaction and receives one, twice; that one comes
in a block, and then once more. -/
def comesAgain : List Input :=
  [⟨0, ∅, .plain ⟨.generateTransaction 4, rfl⟩⟩,
    ⟨1, ∅, .plain ⟨.handleTransactions (fun _ => 3) [txOf7 0 1, txOf7 0 2] 1, rfl⟩⟩,
    ⟨2, ∅, .handleBlock (overGenesis 7 [txOf7 0 1]) 1⟩,
    ⟨3, ∅, .plain ⟨.handleTransactions (fun _ => 3) [txOf7 0 1] 2, rfl⟩⟩]

/-- None of them is the node's own. -/
theorem carriesGenerated_comesAgain : CarriesGenerated relaying twoPeers comesAgain := by
  intro past g i g' sends hstep t hcarried hown
  have hi : i ∈ comesAgain :=
    hstep.inRun.subset (List.mem_append_right past (List.mem_singleton_self i))
  exfalso
  unfold comesAgain at hi
  cases hcarried with
  | transactions hevent htx =>
      fin_cases hi <;> cases hevent
      all_goals fin_cases htx <;> exact absurd hown (by decide)
  | block hevent htx =>
      fin_cases hi <;> cases hevent
      rw [show (overGenesis 7 [txOf7 0 1]).txs.list = [txOf7 0 1] by decide] at htx
      exact absurd (List.mem_singleton.mp htx ▸ hown) (by decide)
  | reconstructed hevent => fin_cases hi <;> cases hevent
  | recovered hevent => fin_cases hi <;> cases hevent

/-- It stays out of the pool, where the generated one is. -/
theorem pooled_comesAgain : ∃ g sent, trace relaying twoPeers comesAgain = some (g, sent) ∧
    g.node.mempool.size = 1 ∧ Pooled twoPeers g.node ∧
      ∀ past g₀ sent₀, past <+: comesAgain → trace relaying twoPeers past = some (g₀, sent₀) →
        ∀ t, g₀.node.knownTxs.contains t = true → ¬ g₀.node.mempool.Contains t →
          ¬ g.node.mempool.Contains t := by
  have hrun : (trace relaying twoPeers comesAgain).map (fun st =>
      decide (st.1.node.mempool.size = 1)) = some true := by
    decide +kernel
  obtain ⟨⟨g, sent⟩, hrun, hsize⟩ := Option.map_eq_some_iff.mp hrun
  exact ⟨g, sent, hrun, of_decide_eq_true hsize, pooled_trace carriesGenerated_comesAgain hrun⟩

end GrapheneNode

end GhostDag
