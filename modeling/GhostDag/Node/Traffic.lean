import GhostDag.Dag.Calls
import GhostDag.Node.Ledger

/-!
# GhostDag.Node.Traffic

Which events touch the chain, and which send blocks.  Only `HandleBlock` and
`MineBlock` call `AddBlock`, and only `HandleReqRelayBlock` sends a `BLOCK`
message, with a block that the node holds; every other event is quiet.
-/

namespace GhostDag

open Blockchain Containers

namespace Node

variable {c : Config} {n n' : Node} {now : ℚ}

/-- No message is a `BLOCK`. -/
def NoBlocks (sends : Sends) : Prop := ∀ s ∈ sends, ∀ w, s.2 ≠ .block w

theorem noBlocks_nil : NoBlocks [] := fun _ hs => absurd hs List.not_mem_nil

theorem noBlocks_singleton {peer : Ipv4Address} {msg : Message} (h : ∀ w, msg ≠ .block w) :
    NoBlocks [(peer, msg)] := by
  intro s hs
  rw [List.mem_singleton.mp hs]
  exact h

theorem NoBlocks.append {sends sends' : Sends} (h : NoBlocks sends) (h' : NoBlocks sends') :
    NoBlocks (sends ++ sends') :=
  fun s hs => (List.mem_append.mp hs).elim (h s) (h' s)

/-- A message to several peers. -/
theorem noBlocks_map {peers : List Ipv4Address} {msg : Message} (h : ∀ w, msg ≠ .block w) :
    NoBlocks (peers.map fun peer => (peer, msg)) := by
  intro s hs
  obtain ⟨peer, -, rfl⟩ := List.mem_map.mp hs
  exact h

theorem noBlocks_broadcastInvBlock (c : Config) (blockHash : ℕ) (exclude : Ipv4Address) :
    NoBlocks (broadcastInvBlock c blockHash exclude) := noBlocks_map fun _ h => by cases h

/-- The chain is untouched, and no block is sent. -/
structure Quiet (n n' : Node) (sends : Sends) : Prop where
  blockchain : n'.blockchain = n.blockchain
  noBlocks : NoBlocks sends

/-! ## quiet events -/

theorem Fetches.quiet {r : Node × Sends} (h : Fetches n r) : Quiet n r.1 r.2 := by
  refine ⟨h.sameLedger.blockchain, fun s hs w heq => ?_⟩
  obtain ⟨blockHash, hmsg⟩ := h.2 s hs
  cases hmsg.symm.trans heq

/-- Handlers that only ask for transactions. -/
theorem Requeues.quiet (h : Requeues n n') {sends : Sends}
    (hsends : ∀ s ∈ sends, ∃ txIds, s.2 = .reqTransactions txIds) : Quiet n n' sends := by
  refine ⟨h.sameLedger.blockchain, fun s hs w heq => ?_⟩
  obtain ⟨txIds, hmsg⟩ := hsends s hs
  cases hmsg.symm.trans heq

theorem quiet_handleInvRelayBlock (blockHash : ℕ) (peer : Ipv4Address) :
    Quiet n (handleInvRelayBlock c now n blockHash peer).1
      (handleInvRelayBlock c now n blockHash peer).2 :=
  (fetches_handleInvRelayBlock blockHash peer).quiet

theorem quiet_invTimeoutExpired (blockHash pick : ℕ) :
    Quiet n (invTimeoutExpired c now n blockHash pick).1
      (invTimeoutExpired c now n blockHash pick).2 :=
  (fetches_invTimeoutExpired blockHash pick).quiet

theorem quiet_handleInvTransactions (txIds : List ℕ) (peer : Ipv4Address) :
    Quiet n (handleInvTransactions c now n txIds peer).1
      (handleInvTransactions c now n txIds peer).2 :=
  (requeues_handleInvTransactions txIds peer).1.quiet (requeues_handleInvTransactions txIds peer).2

theorem quiet_handleReqTransactions (txIds : List ℕ) (peer : Ipv4Address) :
    Quiet n n (handleReqTransactions c n txIds peer) := by
  refine ⟨rfl, ?_⟩
  unfold handleReqTransactions
  dsimp only
  split
  · exact noBlocks_nil
  · exact noBlocks_singleton fun _ h => by cases h

theorem blockchain_accept {draw : ℕ → ℕ} {tx : Transaction} (h : accept c draw n tx = some n') :
    n'.blockchain = n.blockchain := by
  obtain ⟨-, rfl⟩ | ⟨-, known, -, ⟨-, rfl⟩ | ⟨-, rfl⟩⟩ := accept_cases h <;> rfl

theorem blockchain_handleTransactions {draw : ℕ → ℕ} {txs : List Transaction} {peer : Ipv4Address}
    (h : handleTransactions c draw n txs peer = some n') : n'.blockchain = n.blockchain := by
  obtain ⟨m, hrun, hcases⟩ := handleTransactions_cases h
  have hall : m.blockchain = n.blockchain :=
    foldlM_keeps (P := fun m => m.blockchain = n.blockchain)
      (fun _ _ _ _ hsame hacc => (blockchain_accept hacc).trans hsame) rfl hrun
  obtain ⟨-, rfl⟩ | ⟨-, rfl⟩ := hcases
  · exact hall
  · exact hall

theorem blockchain_generateTransaction {fee : ℕ} (h : generateTransaction c n fee = some n') :
    n'.blockchain = n.blockchain := by
  obtain ⟨-, rfl⟩ | ⟨-, -, known, -, rfl⟩ := generateTransaction_cases h <;> rfl

theorem quiet_processTxTimeouts {pick : ℕ → ℕ} {r : Node × Sends}
    (h : processTxTimeouts c now pick n = some r) : Quiet n r.1 r.2 :=
  (requeues_processTxTimeouts h).1.quiet (requeues_processTxTimeouts h).2

theorem quiet_flushInvBatch (exclude : Ipv4Address) :
    Quiet n (flushInvBatch c n exclude).1 (flushInvBatch c n exclude).2 := by
  refine ⟨rfl, ?_⟩
  unfold flushInvBatch broadcastInvTransactions
  dsimp only
  split
  · exact noBlocks_nil
  · exact noBlocks_map fun _ h => by cases h

/-! ## blocks going out and coming in -/

/-- A request is answered with a block that is held. -/
theorem eq_of_mem_handleReqRelayBlock {blockHash : ℕ} {peer : Ipv4Address} {w : WireBlock}
    {s : Ipv4Address × Message} (hs : s ∈ handleReqRelayBlock n blockHash peer)
    (hw : s.2 = .block w) : ∃ b, w = encodeBlock b ∧
      (n.blockchain.blocks[blockHash]? = some b ∨ n.blockchain.orphans[blockHash]? = some b) := by
  unfold handleReqRelayBlock at hs
  split at hs
  · next b hb =>
      rw [List.mem_singleton.mp hs] at hw
      refine ⟨b, (Message.block.inj hw).symm, ?_⟩
      unfold heldBlock at hb
      split at hb
      · next b' hb' => exact .inl (hb ▸ hb')
      · exact .inr hb
  · exact absurd hs List.not_mem_nil

/-- **`HandleBlock`** drops a block that is held and calls `AddBlock` with any
other. -/
theorem blockchain_handleBlock {b : Block} {peer : Ipv4Address} {r : Node × Sends}
    (h : handleBlock c now n b peer = some r) :
    NoBlocks r.2 ∧ ((n.blockchain.hasBlock b.id || n.blockchain.isOrphan b.id) = true ∧
        r.1.blockchain = n.blockchain ∨
      (n.blockchain.hasBlock b.id || n.blockchain.isOrphan b.id) = false ∧
        n.blockchain.addBlock (received now b peer) = some r.1.blockchain) := by
  obtain ⟨hheld, rfl⟩ | ⟨hnew, known, wasBlue, chain, newly, pool, -, -, hadd, -, -, rfl⟩ :=
    handleBlock_cases h
  · exact ⟨noBlocks_nil, .inl ⟨hheld, rfl⟩⟩
  · exact ⟨noBlocks_broadcastInvBlock c _ _, .inr ⟨hnew, hadd⟩⟩

/-- **`MineBlock`** interns the body and calls `AddBlock` with the new
block. -/
theorem blockchain_mineBlock {pick : ℕ → ℕ × ℕ} {store store' : BlockBodyStore} {sends : Sends}
    (h : mineBlock c now pick store n = some (store', n', sends)) :
    NoBlocks sends ∧
      store' = (store.intern (minedId c n) (selectTransactions c pick n.mempool).1).2 ∧
      (countBlock n.blockchain).addBlock (mined c now n (store.intern (minedId c n)
        (selectTransactions c pick n.mempool).1).1) = some n'.blockchain := by
  obtain ⟨chain, hadd, heq⟩ := mineBlock_cases h
  cases heq
  exact ⟨noBlocks_broadcastInvBlock c _ _, rfl, hadd⟩

/-- The call of `AddBlock` in an event's handler: its chain and its block. -/
inductive AddsBlock (c : Config) (now : ℚ) (store : BlockBodyStore) (n : Node) : Event → Call → Prop
  | handleBlock {b : Block} {peer : Ipv4Address} :
      (n.blockchain.hasBlock b.id || n.blockchain.isOrphan b.id) = false →
      AddsBlock c now store n (.handleBlock b peer) (n.blockchain, received now b peer)
  | mineBlock {pick : ℕ → ℕ × ℕ} :
      AddsBlock c now store n (.mineBlock pick) (countBlock n.blockchain,
        mined c now n (store.intern (minedId c n) (selectTransactions c pick n.mempool).1).1)

/-- **The chain changes through that call only.** -/
theorem blockchain_step {store store' : BlockBodyStore} {event : Event} {sends : Sends}
    (h : step c now store n event = some (store', n', sends)) :
    n'.blockchain = n.blockchain ∨
      ∃ call, AddsBlock c now store n event call ∧ call.1.addBlock call.2 = some n'.blockchain := by
  have hquiet : ∀ {r : Node × Sends}, some (store, r) = some (store', n', sends) →
      Quiet n r.1 r.2 → n'.blockchain = n.blockchain ∨ ∃ call, AddsBlock c now store n event call ∧
        call.1.addBlock call.2 = some n'.blockchain := by
    intro r heq hq
    obtain ⟨rfl, rfl⟩ := Prod.mk.injEq .. ▸ Option.some.inj heq
    exact .inl hq.blockchain
  cases event with
  | handleInvRelayBlock blockHash peer =>
      exact hquiet h (quiet_handleInvRelayBlock blockHash peer)
  | handleReqRelayBlock blockHash peer =>
      cases h
      exact .inl rfl
  | handleBlock b peer =>
      obtain ⟨r, hb, hr⟩ := Option.bind_eq_some_iff.mp h
      cases hr
      obtain ⟨-, ⟨-, hsame⟩ | ⟨hnew, hadd⟩⟩ := blockchain_handleBlock hb
      · exact .inl hsame
      · exact .inr ⟨_, .handleBlock hnew, hadd⟩
  | handleInvTransactions txIds peer => exact hquiet h (quiet_handleInvTransactions txIds peer)
  | handleReqTransactions txIds peer => exact hquiet h (quiet_handleReqTransactions txIds peer)
  | handleTransactions draw txs peer =>
      obtain ⟨m, htxs, hm⟩ := Option.bind_eq_some_iff.mp h
      cases hm
      exact .inl (blockchain_handleTransactions htxs)
  | invTimeoutExpired blockHash pick => exact hquiet h (quiet_invTimeoutExpired blockHash pick)
  | processTxTimeouts pick =>
      obtain ⟨r, htimeouts, hr⟩ := Option.bind_eq_some_iff.mp h
      exact hquiet hr (quiet_processTxTimeouts htimeouts)
  | flushInvBatch =>
      rw [step] at h
      split at h
      · exact hquiet h (quiet_flushInvBatch _)
      · cases h
        exact .inl rfl
  | generateTransaction fee =>
      obtain ⟨m, hgen, hm⟩ := Option.bind_eq_some_iff.mp h
      cases hm
      exact .inl (blockchain_generateTransaction hgen)
  | mineBlock pick => exact .inr ⟨_, .mineBlock, (blockchain_mineBlock h).2.2⟩

/-- The selection is a set by transaction id. -/
theorem keyed_selectTransactions (c : Config) (pick : ℕ → ℕ × ℕ) (p : Mempool) :
    (selectTransactions c pick p).1.Keyed := by
  have hstep : ∀ (st : TxSet × Mempool) (i : ℕ), st.1.Keyed → (selectOne c pick st i).1.Keyed := by
    intro st i h
    unfold selectOne
    split
    · exact h.add _
    · exact h
  have hfold : ∀ (l : List ℕ) (st : TxSet × Mempool), st.1.Keyed →
      (l.foldl (selectOne c pick) st).1.Keyed := by
    intro l
    induction l with
    | nil => exact fun st h => h
    | cons i l ih => exact fun st h => ih _ (hstep st i h)
  unfold selectTransactions
  split
  · exact TxSet.keyed_empty
  · exact hfold _ _ TxSet.keyed_empty

end Node

end GhostDag
