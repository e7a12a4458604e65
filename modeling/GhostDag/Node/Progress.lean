import GhostDag.Node.PoolSteps
import GhostDag.Node.Timeouts

/-!
# GhostDag.Node.Progress

Every handler returns: `std::map::at` finds what it looks for, `TxIdSet` has
the row, and the loops end.  The one thing that a node does wrong of its own
accord is to overflow the counter of the transactions it generates.
-/

namespace GhostDag

open Containers Blockchain

namespace Node

variable {c : Config} {now : ℚ} {n n' : Node}

/-! ## the known transactions -/

/-- `node + 1` is a `uint32_t`, so there are never `2 ^ 32` rows. -/
def Roomy (n : Node) : Prop := n.knownTxs.bits.length < 2 ^ 32

theorem roomy_init (c : Config) : Roomy (init c) := Nat.two_pow_pos 32

/-- The row of the id is not the last one. -/
def Placed (t : ℕ) : Prop := idFromTxId t ≠ 2 ^ 32 - 1

theorem Roomy.exists_insert (h : Roomy n) {t : ℕ} (ht : Placed t) :
    ∃ known, n.knownTxs.insert t = some known ∧ known.bits.length < 2 ^ 32 := by
  obtain ⟨known, hins⟩ := TxIdSet.exists_insert ((TxIdSet.inRange_iff h t).mpr ht)
  exact ⟨known, hins, TxIdSet.length_of_insert h hins⟩

theorem SameLedger.roomy (h : SameLedger n n') (hn : Roomy n) : Roomy n' := by
  rwa [Roomy, h.knownTxs]

theorem roomy_accept {draw : ℕ → ℕ} {tx : Transaction} (h : Roomy n)
    (hacc : accept c draw n tx = some n') : Roomy n' := by
  obtain ⟨-, rfl⟩ | ⟨-, known, hins, ⟨-, rfl⟩ | ⟨-, rfl⟩⟩ := accept_cases hacc
  · exact h
  · exact TxIdSet.length_of_insert h hins
  · exact TxIdSet.length_of_insert h hins

/-- **Rows are never lost**, over every event. -/
theorem roomy_step {store : BlockBodyStore} {event : Event} {r : BlockBodyStore × Node × Sends}
    (h : Roomy n) (hrun : step c now store n event = some r) : Roomy r.2.1 := by
  cases event with
  | handleInvRelayBlock blockHash peer =>
      cases hrun
      exact (fetches_handleInvRelayBlock blockHash peer).sameLedger.roomy h
  | handleReqRelayBlock blockHash peer =>
      cases hrun
      exact h
  | handleBlock b peer =>
      obtain ⟨r', hb, hr⟩ := Option.bind_eq_some_iff.mp hrun
      cases hr
      obtain ⟨-, rfl⟩ | ⟨-, known, _, chain, newly, pool, hknown, -, -, -, -, rfl⟩ :=
        handleBlock_cases hb
      · exact h
      · exact foldlM_keeps (P := fun known : TxIdSet => known.bits.length < 2 ^ 32)
          (fun _ _ _ _ hlen hins => TxIdSet.length_of_insert hlen hins) h hknown
  | handleInvTransactions txIds peer =>
      cases hrun
      exact (requeues_handleInvTransactions txIds peer).1.sameLedger.roomy h
  | handleReqTransactions txIds peer =>
      cases hrun
      exact h
  | handleTransactions draw txs peer =>
      obtain ⟨m, htxs, hm⟩ := Option.bind_eq_some_iff.mp hrun
      cases hm
      obtain ⟨m, hm, hcases⟩ := handleTransactions_cases htxs
      have hroomy : Roomy m :=
        foldlM_keeps (P := Roomy) (fun _ _ _ _ hk hacc => roomy_accept hk hacc) h hm
      obtain ⟨-, rfl⟩ | ⟨-, rfl⟩ := hcases
      · exact hroomy
      · exact hroomy
  | invTimeoutExpired blockHash pick =>
      cases hrun
      exact (fetches_invTimeoutExpired blockHash pick).sameLedger.roomy h
  | processTxTimeouts pick =>
      obtain ⟨r', htimeouts, hr⟩ := Option.bind_eq_some_iff.mp hrun
      cases hr
      exact (requeues_processTxTimeouts htimeouts).1.sameLedger.roomy h
  | flushInvBatch =>
      rw [step] at hrun
      split at hrun
      · cases hrun
        exact h
      · cases hrun
        exact h
  | generateTransaction fee =>
      obtain ⟨m, hgen, hm⟩ := Option.bind_eq_some_iff.mp hrun
      cases hm
      obtain ⟨-, rfl⟩ | ⟨-, -, known, hins, rfl⟩ := generateTransaction_cases hgen
      · exact h
      · exact TxIdSet.length_of_insert h hins
  | mineBlock pick =>
      obtain ⟨chain, -, rfl⟩ := mineBlock_cases hrun
      exact h

/-! ## the handlers -/

theorem exists_accept (h : Roomy n) {tx : Transaction} (htx : Placed tx.txId) (draw : ℕ → ℕ) :
    ∃ n', accept c draw n tx = some n' := by
  obtain ⟨known, hins, -⟩ := h.exists_insert htx
  unfold accept
  dsimp only
  split
  · exact ⟨_, rfl⟩
  · rw [hins]
    dsimp only [Option.bind_eq_bind, Option.bind_some]
    split
    · exact ⟨_, rfl⟩
    · exact ⟨_, rfl⟩

theorem exists_handleTransactions (h : Roomy n) {txs : List Transaction}
    (htxs : ∀ tx ∈ txs, Placed tx.txId) (draw : ℕ → ℕ) (peer : Ipv4Address) :
    ∃ n', handleTransactions c draw n txs peer = some n' := by
  obtain ⟨m, hm, -⟩ := exists_foldlM (f := accept c draw) (P := Roomy) (fun tx htx n hn => by
    obtain ⟨n', hacc⟩ := exists_accept hn (htxs tx htx) draw
    exact ⟨n', hacc, roomy_accept hn hacc⟩) h
  exact ⟨_, Option.bind_eq_some_iff.mpr ⟨m, hm, rfl⟩⟩

/-- **`HandleBlock`** returns, whether the block is accepted or an orphan. -/
theorem exists_handleBlock {P : Block → Prop} (h : Roomy n) (hchain : Sound P n.blockchain)
    (hpool : n.mempool.Wf c.hashFun) {b : Block} (htxs : ∀ tx ∈ b.txs.list, Placed tx.txId)
    (peer : Ipv4Address) : ∃ r, handleBlock c now n b peer = some r := by
  rw [handleBlock]
  split
  · exact ⟨_, rfl⟩
  · next hguard =>
      have hnew := held_eq_false_iff.mp (Bool.eq_false_iff.mpr hguard)
      obtain ⟨known, hknown, -⟩ := exists_foldlM
        (f := fun (known : TxIdSet) (tx : Transaction) => known.insert tx.txId)
        (P := fun known => known.bits.length < 2 ^ 32) (fun tx htx known hlen => by
          obtain ⟨known', hins⟩ :=
            TxIdSet.exists_insert ((TxIdSet.inRange_iff hlen tx.txId).mpr (htxs tx htx))
          exact ⟨known', hins, TxIdSet.length_of_insert hlen hins⟩) h
      obtain ⟨chain, hadd⟩ : ∃ s', Added (fun _ => True) n.blockchain (received now b peer) s' :=
        (hchain.mono fun _ _ => trivial).exists_addBlock trivial hnew.1 hnew.2
      obtain ⟨newly, hnewly, hmem⟩ := hchain.exists_newlyBlue hadd.sound hadd.continues
      have hblocks : ∀ id ∈ newly, id ∈ chain.blocks := fun id hid => by
        obtain ⟨b', hb', -⟩ := isBlueAt_iff.mp ((hmem id).mp hid).1
        exact mem_of_getElem? hb'
      obtain ⟨pool, hevict, -⟩ := exists_evictBlocks chain hblocks hpool
      rw [hknown, hchain.snapshotBlueFlags_eq]
      dsimp only [Option.bind_eq_bind, Option.bind_some]
      rw [hadd.run]
      dsimp only [Option.bind_some]
      rw [hnewly]
      dsimp only [Option.bind_some]
      rw [hevict]
      exact ⟨_, rfl⟩

/-- **`MineBlock`** returns, with an id that is not held. -/
theorem exists_mineBlock {P : Block → Prop} (hchain : Sound P n.blockchain)
    (hnew : minedId c n ∉ n.blockchain.blocks ∧ minedId c n ∉ n.blockchain.orphans)
    (pick : ℕ → ℕ × ℕ) (store : BlockBodyStore) : ∃ r, mineBlock c now pick store n = some r := by
  have hcount : Sound (fun _ => True) (countBlock n.blockchain) :=
    (hchain.mono fun _ _ => trivial).setNextBlockId _
  obtain ⟨chain, hadd⟩ : ∃ s', Added (fun _ => True) (countBlock n.blockchain) (mined c now n
      (store.intern (minedId c n) (selectTransactions c pick n.mempool).1).1) s' :=
    hcount.exists_addBlock trivial hnew.1 hnew.2
  exact ⟨_, Option.bind_eq_some_iff.mpr ⟨chain, hadd.run, rfl⟩⟩

/-- The next transaction that the node generates overflows its counter. -/
def Overflows (c : Config) (n : Node) : Prop :=
  n.mempool.size < c.mempoolSize ∧ 2 ^ 31 ≤ n.txsGenerated + 1

/-- **`GenerateTransaction`** overflows its counter, or returns. -/
theorem generateTransaction_eq_none_iff (h : Roomy n) (hid : c.id ≠ 2 ^ 32 - 1) (fee : ℕ) :
    generateTransaction c n fee = none ↔ Overflows c n := by
  unfold generateTransaction Overflows
  dsimp only
  by_cases hroom : n.mempool.size < c.mempoolSize
  · rw [if_pos hroom]
    by_cases hlt : n.txsGenerated + 1 < 2 ^ 31
    · have hplaced : Placed (nextTxId c n) := by
        rw [Placed, idFromTxId_nextTxId (by omega)]
        exact hid
      obtain ⟨known, hins, -⟩ := h.exists_insert hplaced
      rw [nextTxId] at hins
      rw [if_pos hlt, hins]
      exact iff_of_false (fun heq => by cases heq) fun hover => by omega
    · rw [if_neg hlt]
      exact iff_of_true rfl ⟨hroom, not_lt.mp hlt⟩
  · rw [if_neg hroom]
    exact iff_of_false (fun heq => by cases heq) fun hover => hroom hover.1

end Node

end GhostDag
