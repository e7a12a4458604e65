import GhostDag.Node.Circulation
import GhostDag.Node.Payload

/-!
# GhostDag.Node.Ranges

The numbers of a node stay within their C++ types.  The model counts with
natural numbers; a fee comes into a pool with an event, and what leaves in a
message or in a block is what the pool holds.
-/

namespace GhostDag

open Std (ExtTreeMap)
open Containers

namespace Mempool

/-- Every pooled fee is a `uint32_t`. -/
def FeesInRange (p : Mempool) : Prop := ∀ i x, p.Stores i x → x.fee < 2 ^ 32

variable {hashFun : String → ℕ} {capacity : ℕ} {p p' : Mempool}

theorem feesInRange_init (n : ℕ) : (init n).FeesInRange :=
  fun i x hx => absurd ⟨i, x, hx, rfl⟩ (not_contains_init n x.txId)

theorem FeesInRange.sheds (h : p.FeesInRange) (hguard : p.Guarded hashFun capacity)
    (hsheds : p.Sheds p') : p'.FeesInRange := by
  induction hsheds with
  | refl => exact h
  | tail hrun hstep ih =>
      obtain ⟨hmid, -⟩ := hguard.sheds hrun
      obtain ⟨it, hit, rfl⟩ := hstep
      exact fun i x hx => ih i x ((hmid.wf.stores_erase hit i x).mp hx).1

theorem FeesInRange.insert (h : p.FeesInRange) (hwf : p.Wf hashFun) {minerId t fee : ℕ}
    (hfee : fee < 2 ^ 32) : (p.insert hashFun minerId t fee).FeesInRange := by
  intro i x hx
  obtain hx | ⟨-, rfl⟩ := (hwf.stores_insert minerId t fee i x).mp hx
  · exact h i x hx
  · exact hfee

end Mempool

namespace Node

variable {c : Config} {now : ℚ} {n n' : Node}

/-- The fees that an event brings. -/
def Event.FeesInRange : Event → Prop
  | .handleTransactions draw txs _ => (∀ t, draw t < 2 ^ 32) ∧ ∀ tx ∈ txs, tx.fee < 2 ^ 32
  | .generateTransaction fee => fee < 2 ^ 32
  | _ => True

/-! ## the pool -/

theorem feesInRange_accept {draw : ℕ → ℕ} {tx : Transaction} (h : n.mempool.FeesInRange)
    (hinv : PoolInv c n) (hdraw : ∀ t, draw t < 2 ^ 32) (htx : tx.fee < 2 ^ 32)
    (hacc : accept c draw n tx = some n') : n'.mempool.FeesInRange := by
  obtain ⟨-, rfl⟩ | ⟨-, known, -, ⟨-, rfl⟩ | ⟨-, rfl⟩⟩ := accept_cases hacc
  · exact h
  · exact h
  · refine h.insert hinv.pool.wf ?_
    split
    · exact htx
    · exact hdraw tx.txId

theorem feesInRange_handleTransactions {draw : ℕ → ℕ} {txs : List Transaction}
    {peer : Ipv4Address} (h : n.mempool.FeesInRange) (hinv : PoolInv c n)
    (hdraw : ∀ t, draw t < 2 ^ 32) (htxs : ∀ tx ∈ txs, tx.fee < 2 ^ 32)
    (hown : OwnGenerated c n fun t => ∃ tx ∈ txs, tx.txId = t)
    (hrun : handleTransactions c draw n txs peer = some n') : n'.mempool.FeesInRange := by
  obtain ⟨m, hm, hcases⟩ := handleTransactions_cases hrun
  obtain ⟨-, -, hfees⟩ : PoolInv c m ∧ (OwnGenerated c m fun t => ∃ tx ∈ txs, tx.txId = t) ∧
      m.mempool.FeesInRange := by
    refine foldlM_keeps (P := fun m : Node => PoolInv c m ∧
      (OwnGenerated c m fun t => ∃ tx ∈ txs, tx.txId = t) ∧ m.mempool.FeesInRange)
      (fun tx htx k k' hk hacc => ?_) ⟨hinv, hown, h⟩ hm
    obtain ⟨hkinv, hkown, hkfees⟩ := hk
    have hstep : PoolStep c (fun t => ∃ tx ∈ txs, tx.txId = t) k k' :=
      poolStep_accept ⟨tx, htx, rfl⟩ hacc
    obtain ⟨hinv', hle, -⟩ := hstep.inv hkinv hkown
    exact ⟨hinv', fun t ht hid => (hkown t ht hid).trans_le hle,
      feesInRange_accept hkfees hkinv hdraw (htxs tx htx) hacc⟩
  obtain ⟨-, rfl⟩ | ⟨-, rfl⟩ := hcases
  · exact hfees
  · exact hfees

theorem SameLedger.feesInRange (h : SameLedger n n') (hfees : n.mempool.FeesInRange) :
    n'.mempool.FeesInRange := by
  rwa [h.mempool]

/-- **Pooled fees stay in range**, over every event. -/
theorem feesInRange_step {store : BlockBodyStore} {event : Event}
    {r : BlockBodyStore × Node × Sends} (h : n.mempool.FeesInRange) (hinv : PoolInv c n)
    (he : event.FeesInRange) (hown : OwnGenerated c n (· ∈ event.txIds))
    (hrun : step c now store n event = some r) : r.2.1.mempool.FeesInRange := by
  cases event with
  | handleInvRelayBlock blockHash peer =>
      cases hrun
      exact (fetches_handleInvRelayBlock blockHash peer).sameLedger.feesInRange h
  | handleReqRelayBlock blockHash peer =>
      cases hrun
      exact h
  | handleBlock b peer =>
      obtain ⟨r', hb, hr⟩ := Option.bind_eq_some_iff.mp hrun
      cases hr
      obtain ⟨-, rfl⟩ | ⟨-, known, _, chain, newly, pool, -, -, -, -, hevict, rfl⟩ :=
        handleBlock_cases hb
      · exact h
      · exact h.sheds hinv.pool (sheds_evictBlocks hevict)
  | handleInvTransactions txIds peer =>
      cases hrun
      exact (requeues_handleInvTransactions txIds peer).1.sameLedger.feesInRange h
  | handleReqTransactions txIds peer =>
      cases hrun
      exact h
  | handleTransactions draw txs peer =>
      obtain ⟨m, htxs, hm⟩ := Option.bind_eq_some_iff.mp hrun
      cases hm
      refine feesInRange_handleTransactions h hinv he.1 he.2 ?_ htxs
      rintro t ⟨tx, htx, rfl⟩ hid
      exact hown _ (List.mem_map_of_mem htx) hid
  | invTimeoutExpired blockHash pick =>
      cases hrun
      exact (fetches_invTimeoutExpired blockHash pick).sameLedger.feesInRange h
  | processTxTimeouts pick =>
      obtain ⟨r', htimeouts, hr⟩ := Option.bind_eq_some_iff.mp hrun
      cases hr
      exact (requeues_processTxTimeouts htimeouts).1.sameLedger.feesInRange h
  | flushInvBatch =>
      rw [step] at hrun
      split at hrun
      · cases hrun
        exact h
      · cases hrun
        exact h
  | generateTransaction fee =>
      obtain ⟨m, hgen, hm⟩ := Option.bind_eq_some_iff.mp hrun
      cases hm
      obtain ⟨-, rfl⟩ | ⟨-, -, known, -, rfl⟩ := generateTransaction_cases hgen
      · exact h
      · exact h.insert hinv.pool.wf he
  | mineBlock pick =>
      obtain ⟨chain, -, rfl⟩ := mineBlock_cases hrun
      exact h.sheds hinv.pool (sheds_selectTransactions pick n.mempool)

/-! ## what leaves the pool -/

/-- A transaction as a pooled item becomes one. -/
def FromPool (p : Mempool) (tx : Transaction) : Prop :=
  tx.sizeBytes = 522 ∧ ∃ i x, p.Stores i x ∧ x.txId = tx.txId ∧ x.fee = tx.fee

theorem FromPool.inRange {p : Mempool} {tx : Transaction} (h : FromPool p tx)
    (hfees : p.FeesInRange) (hids : ∀ t, p.Contains t → t < 2 ^ 64) : tx.InRange := by
  obtain ⟨hsize, i, x, hx, hid, hfee⟩ := h
  exact ⟨hids _ ⟨i, x, hx, hid⟩, by rw [hsize]; decide, hfee ▸ hfees i x hx⟩

/-- **Transactions are sent out of the pool.** -/
theorem fromPool_of_sends {store : BlockBodyStore} {event : Event}
    {r : BlockBodyStore × Node × Sends} (hrun : step c now store n event = some r)
    {peer : Ipv4Address} {txs : List Transaction} (hs : (peer, Message.transactions txs) ∈ r.2.2) :
    ∀ tx ∈ txs, FromPool n.mempool tx := by
  have hfetches : ∀ {r' : Node × Sends}, Fetches n r' → (peer, Message.transactions txs) ∉ r'.2 := by
    intro r' h hs
    obtain ⟨_, hmsg⟩ := h.2 _ hs
    cases hmsg
  have hnone : ∀ {sends : Sends}, (∀ s ∈ sends, ∃ txIds, s.2 = .reqTransactions txIds) →
      (peer, Message.transactions txs) ∉ sends := by
    intro sends h hs
    obtain ⟨_, hmsg⟩ := h _ hs
    cases hmsg
  have hbroadcast : ∀ id exclude, (peer, Message.transactions txs) ∉ broadcastInvBlock c id exclude := by
    intro id exclude hs
    obtain ⟨p, -, heq⟩ := List.mem_map.mp hs
    cases heq
  cases event with
  | handleInvRelayBlock blockHash peer' =>
      cases hrun
      exact absurd hs (hfetches (fetches_handleInvRelayBlock blockHash peer'))
  | handleReqRelayBlock blockHash peer' =>
      cases hrun
      change _ ∈ handleReqRelayBlock n blockHash peer' at hs
      unfold handleReqRelayBlock at hs
      split at hs
      · cases List.mem_singleton.mp hs
      · exact absurd hs List.not_mem_nil
  | handleBlock b peer' =>
      obtain ⟨r', hb, hr⟩ := Option.bind_eq_some_iff.mp hrun
      cases hr
      obtain ⟨-, rfl⟩ | ⟨-, known, _, chain, newly, pool, -, -, -, -, -, rfl⟩ := handleBlock_cases hb
      · exact absurd hs List.not_mem_nil
      · exact absurd hs (hbroadcast _ _)
  | handleInvTransactions txIds peer' =>
      cases hrun
      exact absurd hs (hnone (requeues_handleInvTransactions txIds peer').2)
  | handleReqTransactions txIds peer' =>
      cases hrun
      change _ ∈ handleReqTransactions c n txIds peer' at hs
      unfold handleReqTransactions at hs
      dsimp only at hs
      split at hs
      · exact absurd hs List.not_mem_nil
      · cases List.mem_singleton.mp hs
        intro tx htx
        obtain ⟨t, -, hfind⟩ := List.mem_filterMap.mp htx
        obtain ⟨it, hit, rfl⟩ := Option.map_eq_some_iff.mp hfind
        exact ⟨rfl, _, _, (Mempool.stores_of_find hit).1, rfl, rfl⟩
  | handleTransactions draw txs' peer' =>
      obtain ⟨m, -, hm⟩ := Option.bind_eq_some_iff.mp hrun
      cases hm
      exact absurd hs List.not_mem_nil
  | invTimeoutExpired blockHash pick =>
      cases hrun
      exact absurd hs (hfetches (fetches_invTimeoutExpired blockHash pick))
  | processTxTimeouts pick =>
      obtain ⟨r', htimeouts, hr⟩ := Option.bind_eq_some_iff.mp hrun
      cases hr
      exact absurd hs (hnone (requeues_processTxTimeouts htimeouts).2)
  | flushInvBatch =>
      rw [step] at hrun
      split at hrun
      · cases hrun
        unfold flushInvBatch broadcastInvTransactions at hs
        dsimp only at hs
        split at hs
        · exact absurd hs List.not_mem_nil
        · obtain ⟨p, -, heq⟩ := List.mem_map.mp hs
          cases heq
      · cases hrun
        exact absurd hs List.not_mem_nil
  | generateTransaction fee =>
      obtain ⟨m, -, hm⟩ := Option.bind_eq_some_iff.mp hrun
      cases hm
      exact absurd hs List.not_mem_nil
  | mineBlock pick =>
      obtain ⟨chain, -, rfl⟩ := mineBlock_cases hrun
      exact absurd hs (hbroadcast _ _)

/-- **Transactions are selected out of the pool.** -/
theorem fromPool_selectTransactions {p : Mempool} (h : p.Wf c.hashFun) (pick : ℕ → ℕ × ℕ) :
    ∀ tx ∈ (selectTransactions c pick p).1.list, FromPool p tx := by
  have hgen : ∀ (l : List ℕ) (st : TxSet × Mempool), st.2.Wf c.hashFun →
      (∀ i x, st.2.Stores i x → p.Stores i x) → (∀ tx ∈ st.1.list, FromPool p tx) →
      ∀ tx ∈ (l.foldl (selectOne c pick) st).1.list, FromPool p tx := by
    intro l
    induction l with
    | nil => exact fun st _ _ htxs => htxs
    | cons i l ih =>
        intro st hwf hsub htxs
        rw [List.foldl_cons]
        unfold selectOne
        split
        · next it hit =>
            have hst := stores_of_nextTransaction hit
            refine ih _ (hwf.erase hst) (fun k x hx => hsub k x ((hwf.stores_erase hst k x).mp hx).1)
              fun tx htx => ?_
            obtain ⟨t, ht⟩ := TxSet.mem_list.mp htx
            rw [TxSet.getElem?_add] at ht
            split at ht
            · cases ht
              exact ⟨rfl, _, _, hsub _ _ hst, rfl, rfl⟩
            · exact htxs tx (TxSet.mem_list.mpr ⟨t, ht⟩)
        · exact ih st hwf hsub htxs
  have hempty : ∀ tx ∈ TxSet.list ∅, FromPool p tx := fun tx htx => by
    obtain ⟨t, ht⟩ := TxSet.mem_list.mp htx
    simp at ht
  unfold selectTransactions
  split
  · exact hempty
  · exact hgen _ (∅, p) h (fun _ _ hx => hx) hempty

/-! ## ids -/

theorem minerId_lt (c : Config) : c.minerId < 2 ^ 64 := by
  have hid := c.id_lt
  rw [Config.minerId]
  split <;> omega

theorem minedId_lt (hn : n.blockchain.nextBlockId < 2 ^ 32) : n.minedId c < 2 ^ 64 := by
  have hid := c.id_lt
  rw [minedId_eq hn]
  omega

theorem nextTxId_lt (hn : n.txsGenerated < 2 ^ 32) : nextTxId c n < 2 ^ 64 := by
  have hid := c.id_lt
  rw [nextTxId_eq hn]
  omega

end Node

end GhostDag
