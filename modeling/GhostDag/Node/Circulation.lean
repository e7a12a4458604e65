import GhostDag.Node.PoolSteps
import GhostDag.Node.Traffic

/-!
# GhostDag.Node.Circulation

Where transaction ids come from, as one node sees it: every id that it pools,
announces, asks for or sends was there before, came with the event, or is its
own next one (`within_step`).
-/

namespace GhostDag

open Std (ExtTreeMap)
open Containers

/-- The transaction ids that a message mentions. -/
def Message.txIds : Message → List ℕ
  | .invRelayBlock _ | .reqRelayBlock _ => []
  | .block w => w.transactions.map Transaction.txId
  | .invTransactions txIds | .reqTransactions txIds => txIds
  | .transactions txs => txs.map Transaction.txId

namespace Node

variable {c : Config} {now : ℚ} {n n' : Node} {P : ℕ → Prop}

/-- The transaction ids that an event brings. -/
def Event.txIds : Event → List ℕ
  | .handleBlock b _ => b.txs.list.map Transaction.txId
  | .handleInvTransactions txIds _ | .handleReqTransactions txIds _ => txIds
  | .handleTransactions _ txs _ => txs.map Transaction.txId
  | _ => []

/-- Every transaction id of the node's has the property `P`. -/
structure Within (P : ℕ → Prop) (n : Node) : Prop where
  pool : ∀ t, n.mempool.Contains t → P t
  pending : ∀ t ∈ n.pendingInvTx, P t
  queued : ∀ t ∈ n.queueInvTx, P t
  timeouts : ∀ e ∈ n.txTimeoutQueue, P e.2

theorem within_init (P : ℕ → Prop) (c : Config) : Within P (init c) where
  pool t ht := absurd ht (Mempool.not_contains_init _ t)
  pending _ ht := absurd ht List.not_mem_nil
  queued _ ht := absurd ht ExtTreeMap.not_mem_empty
  timeouts _ he := absurd he List.not_mem_nil

theorem Within.mono {Q : ℕ → Prop} (h : Within P n) (hPQ : ∀ t, P t → Q t) : Within Q n where
  pool t ht := hPQ t (h.pool t ht)
  pending t ht := hPQ t (h.pending t ht)
  queued t ht := hPQ t (h.queued t ht)
  timeouts e he := hPQ e.2 (h.timeouts e he)

/-- Messages about transactions, with ids of the property `P`. -/
def SendsWithin (P : ℕ → Prop) (sends : Sends) : Prop :=
  ∀ s ∈ sends, (∃ w, s.2 = .block w) ∨ ∀ t ∈ s.2.txIds, P t

theorem sendsWithin_nil : SendsWithin P [] := fun _ hs => absurd hs List.not_mem_nil

theorem sendsWithin_singleton {peer : Ipv4Address} {msg : Message} (h : ∀ t ∈ msg.txIds, P t) :
    SendsWithin P [(peer, msg)] := by
  intro s hs
  rw [List.mem_singleton.mp hs]
  exact .inr h

theorem SendsWithin.append {sends sends' : Sends} (h : SendsWithin P sends)
    (h' : SendsWithin P sends') : SendsWithin P (sends ++ sends') :=
  fun s hs => (List.mem_append.mp hs).elim (h s) (h' s)

theorem sendsWithin_broadcastInvBlock (c : Config) (id : ℕ) (exclude : Ipv4Address) :
    SendsWithin P (broadcastInvBlock c id exclude) := by
  intro s hs
  obtain ⟨p, -, rfl⟩ := List.mem_map.mp hs
  exact .inr fun t ht => absurd ht List.not_mem_nil

/-! ## the pool -/

/-- What a step pools was carried, or generated. -/
theorem PoolStep.contains {carried : ℕ → Prop} (hstep : PoolStep c carried n n')
    (h : PoolInv c n) {t : ℕ} (ht : n'.mempool.Contains t) :
    n.mempool.Contains t ∨ carried t ∨
      t = nextTxId c n ∧ n'.txsGenerated = n.txsGenerated + 1 := by
  cases hstep with
  | sheds hsheds =>
      obtain ⟨-, hsub⟩ := h.pool.sheds hsheds
      exact .inl (hsub t ht)
  | accepts hcarried _ _ _ hpool =>
      rw [hpool, h.pool.wf.contains_insert] at ht
      obtain ht | rfl := ht
      · exact .inl ht
      · exact .inr (.inl hcarried)
  | generates hlt _ _ hpool hgen =>
      rw [hpool, ← idFromTxId_nextTxId (c := c) (n := n) (by omega),
        h.pool.wf.contains_insert] at ht
      obtain ht | rfl := ht
      · exact .inl ht
      · exact .inr (.inr ⟨rfl, hgen⟩)

/-- What a run of steps pools, when nothing is generated in it. -/
theorem PoolRun.contains {carried : ℕ → Prop} (hrun : PoolRun c carried n n') (h : PoolInv c n)
    (hown : OwnGenerated c n carried) (hgen : n'.txsGenerated = n.txsGenerated) {t : ℕ}
    (ht : n'.mempool.Contains t) : n.mempool.Contains t ∨ carried t := by
  induction hrun with
  | refl => exact .inl ht
  | tail hrun hstep ih =>
      obtain ⟨hmid, hle, -⟩ := PoolRun.inv hrun h hown
      have hown' : OwnGenerated c _ carried := fun t ht hid => (hown t ht hid).trans_le hle
      obtain ⟨-, hle', -⟩ := hstep.inv hmid hown'
      obtain ht | ht | ⟨-, hone⟩ := hstep.contains hmid ht
      · exact ih (by omega) ht
      · exact .inr ht
      · omega

/-! ## the requests -/

theorem within_armTxTimeoutTimer (h : Within P n) : Within P (n.armTxTimeoutTimer now) := by
  obtain ⟨event, heq⟩ := armTxTimeoutTimer_eq now n
  rw [heq]
  exact ⟨h.pool, h.pending, h.queued, h.timeouts⟩

theorem within_announce {peer : Ipv4Address} {st : Node × List ℕ} {t : ℕ} (ht : P t)
    (h : Within P st.1 ∧ ∀ u ∈ st.2, P u) :
    Within P (announce c now peer st t).1 ∧ ∀ u ∈ (announce c now peer st t).2, P u := by
  obtain ⟨hn, hwanted⟩ := h
  have hqueued : ∀ {req : TxRequest}, ∀ u ∈ st.1.queueInvTx.insert t req, P u := by
    intro req u hu
    obtain rfl | hu := mem_insert.mp hu
    · exact ht
    · exact hn.queued u hu
  unfold announce
  dsimp only
  split
  · exact ⟨hn, hwanted⟩
  · split
    · refine ⟨⟨hn.pool, hn.pending, hqueued, fun e he => ?_⟩, fun u hu => ?_⟩
      · obtain he | he := List.mem_append.mp he
        · exact hn.timeouts e he
        · rw [List.mem_singleton.mp he]
          exact ht
      · obtain hu | hu := List.mem_append.mp hu
        · exact hwanted u hu
        · rw [List.mem_singleton.mp hu]
          exact ht
    · exact ⟨⟨hn.pool, hn.pending, hqueued, hn.timeouts⟩, hwanted⟩

theorem within_handleInvTransactions {txIds : List ℕ} {peer : Ipv4Address} (h : Within P n)
    (hids : ∀ t ∈ txIds, P t) :
    Within P (handleInvTransactions c now n txIds peer).1 ∧
      SendsWithin P (handleInvTransactions c now n txIds peer).2 := by
  have hfold : ∀ (l : List ℕ) (st : Node × List ℕ), (∀ t ∈ l, P t) →
      (Within P st.1 ∧ ∀ u ∈ st.2, P u) → Within P (l.foldl (announce c now peer) st).1 ∧
        ∀ u ∈ (l.foldl (announce c now peer) st).2, P u := by
    intro l
    induction l with
    | nil => exact fun st _ hst => hst
    | cons t l ih =>
        intro st hl hst
        obtain ⟨ht, hl⟩ := List.forall_mem_cons.mp hl
        exact ih _ hl (within_announce ht hst)
  obtain ⟨hn, hwanted⟩ := hfold txIds (n, []) hids ⟨h, fun u hu => absurd hu List.not_mem_nil⟩
  unfold handleInvTransactions
  generalize txIds.foldl (announce c now peer) (n, []) = st at hn hwanted
  dsimp only
  split
  · exact ⟨hn, sendsWithin_nil⟩
  · exact ⟨within_armTxTimeoutTimer hn, sendsWithin_singleton hwanted⟩

theorem Round.within {st st' : Node × Sends} (hround : Round c now st st')
    (h : Within P st.1 ∧ SendsWithin P st.2) : Within P st'.1 ∧ SendsWithin P st'.2 := by
  obtain ⟨hn, hsends⟩ := h
  cases hround with
  | stale hq =>
      exact ⟨⟨hn.pool, hn.pending, hn.queued,
        fun e he => hn.timeouts e (hq ▸ List.mem_cons_of_mem _ he)⟩, hsends⟩
  | giveUp hq =>
      exact ⟨⟨hn.pool, hn.pending, fun t ht => hn.queued t (mem_erase.mp ht).2,
        fun e he => hn.timeouts e (hq ▸ List.mem_cons_of_mem _ he)⟩, hsends⟩
  | @retry n sends deadline txId queue req next rest hq _ hreq =>
      have ht : P txId := hn.queued txId (mem_of_getElem? hreq)
      refine ⟨⟨hn.pool, hn.pending, fun u hu => ?_, fun e he => ?_⟩,
        hsends.append (sendsWithin_singleton fun u hu => List.mem_singleton.mp hu ▸ ht)⟩
      · obtain rfl | hu := mem_insert.mp hu
        · exact ht
        · exact hn.queued u hu
      · obtain he | he := List.mem_append.mp he
        · exact hn.timeouts e (hq ▸ List.mem_cons_of_mem _ he)
        · rw [List.mem_singleton.mp he]
          exact ht

theorem within_processTxTimeouts {pick : ℕ → ℕ} {r : Node × Sends} (h : Within P n)
    (hrun : processTxTimeouts c now pick n = some r) : Within P r.1 ∧ SendsWithin P r.2 := by
  obtain ⟨st, hrounds, -, rfl⟩ := rounds_of_processTxTimeouts hrun
  have hloop : Within P st.1 ∧ SendsWithin P st.2 := by
    clear hrun
    induction hrounds with
    | refl => exact ⟨⟨h.pool, h.pending, h.queued, h.timeouts⟩, sendsWithin_nil⟩
    | tail _ hround ih => exact hround.within ih
  exact ⟨within_armTxTimeoutTimer hloop.1, hloop.2⟩

theorem within_handleReqTransactions {txIds : List ℕ} {peer : Ipv4Address} (h : Within P n) :
    SendsWithin P (handleReqTransactions c n txIds peer) := by
  unfold handleReqTransactions
  dsimp only
  split
  · exact sendsWithin_nil
  · refine sendsWithin_singleton fun t ht => ?_
    obtain ⟨tx, htx, rfl⟩ := List.mem_map.mp ht
    obtain ⟨u, -, hfind⟩ := List.mem_filterMap.mp htx
    obtain ⟨it, hit, rfl⟩ := Option.map_eq_some_iff.mp hfind
    exact h.pool _ ⟨_, _, (Mempool.stores_of_find hit).1, rfl⟩

/-! ## transactions -/

/-- Accepting a transaction, its pool apart. -/
theorem accept_lists {draw : ℕ → ℕ} {tx : Transaction} (htx : P tx.txId)
    (hacc : accept c draw n tx = some n')
    (h : (∀ t ∈ n.pendingInvTx, P t) ∧ (∀ t ∈ n.queueInvTx, P t) ∧ ∀ e ∈ n.txTimeoutQueue, P e.2) :
    (∀ t ∈ n'.pendingInvTx, P t) ∧ (∀ t ∈ n'.queueInvTx, P t) ∧
      ∀ e ∈ n'.txTimeoutQueue, P e.2 := by
  obtain ⟨hpending, hqueued, htimeouts⟩ := h
  have herase : ∀ t ∈ n.queueInvTx.erase tx.txId, P t := fun t ht => hqueued t (mem_erase.mp ht).2
  obtain ⟨-, rfl⟩ | ⟨-, known, -, ⟨-, rfl⟩ | ⟨-, rfl⟩⟩ := accept_cases hacc
  · exact ⟨hpending, herase, htimeouts⟩
  · exact ⟨hpending, herase, htimeouts⟩
  · refine ⟨fun t ht => ?_, herase, htimeouts⟩
    obtain ht | ht := List.mem_append.mp ht
    · exact hpending t ht
    · rw [List.mem_singleton.mp ht]
      exact htx

theorem txsGenerated_accept {draw : ℕ → ℕ} {tx : Transaction}
    (hacc : accept c draw n tx = some n') : n'.txsGenerated = n.txsGenerated := by
  obtain ⟨-, rfl⟩ | ⟨-, known, -, ⟨-, rfl⟩ | ⟨-, rfl⟩⟩ := accept_cases hacc <;> rfl

theorem within_handleTransactions {draw : ℕ → ℕ} {txs : List Transaction} {peer : Ipv4Address}
    (h : Within P n) (hinv : PoolInv c n) (htxs : ∀ tx ∈ txs, P tx.txId)
    (hown : OwnGenerated c n fun t => ∃ tx ∈ txs, tx.txId = t)
    (hrun : handleTransactions c draw n txs peer = some n') : Within P n' := by
  have hpool : PoolRun c (fun t => ∃ tx ∈ txs, tx.txId = t) n n' :=
    poolRun_handleTransactions (fun tx htx => ⟨tx, htx, rfl⟩) hrun
  obtain ⟨m, hm, hcases⟩ := handleTransactions_cases hrun
  have hlists : (∀ t ∈ m.pendingInvTx, P t) ∧ (∀ t ∈ m.queueInvTx, P t) ∧
      ∀ e ∈ m.txTimeoutQueue, P e.2 :=
    foldlM_keeps (P := fun m : Node => (∀ t ∈ m.pendingInvTx, P t) ∧ (∀ t ∈ m.queueInvTx, P t) ∧
        ∀ e ∈ m.txTimeoutQueue, P e.2)
      (fun tx htx _ _ hm hacc => accept_lists (htxs tx htx) hacc hm)
      ⟨h.pending, h.queued, h.timeouts⟩ hm
  have hgen : m.txsGenerated = n.txsGenerated :=
    foldlM_keeps (P := fun m : Node => m.txsGenerated = n.txsGenerated)
      (fun _ _ _ _ hsame hacc => (txsGenerated_accept hacc).trans hsame) rfl hm
  have hafter : n'.txsGenerated = n.txsGenerated ∧ n'.pendingInvTx = m.pendingInvTx ∧
      n'.queueInvTx = m.queueInvTx ∧ n'.txTimeoutQueue = m.txTimeoutQueue := by
    obtain ⟨-, rfl⟩ | ⟨-, rfl⟩ := hcases
    · exact ⟨hgen, rfl, rfl, rfl⟩
    · exact ⟨hgen, rfl, rfl, rfl⟩
  obtain ⟨hgen', hpending, hqueued, htimeouts⟩ := hafter
  refine ⟨fun t ht => ?_, hpending ▸ hlists.1, hqueued ▸ hlists.2.1, htimeouts ▸ hlists.2.2⟩
  obtain ht | ⟨tx, htx, rfl⟩ := PoolRun.contains hpool hinv hown hgen' ht
  · exact h.pool t ht
  · exact htxs tx htx

theorem within_generateTransaction {fee : ℕ} (h : Within P n) (hinv : PoolInv c n)
    (hnext : n'.txsGenerated = n.txsGenerated + 1 → n.txsGenerated + 1 < 2 ^ 31 → P (nextTxId c n))
    (hrun : generateTransaction c n fee = some n') : Within P n' := by
  obtain ⟨-, rfl⟩ | ⟨-, hlt, known, -, rfl⟩ := generateTransaction_cases hrun
  · exact h
  · refine ⟨fun t ht => ?_, fun t ht => ?_, h.queued, h.timeouts⟩
    · change (n.mempool.insert c.hashFun c.id (nextTxId c n) fee).Contains t at ht
      rw [← idFromTxId_nextTxId (c := c) (n := n) (by omega), hinv.pool.wf.contains_insert] at ht
      obtain ht | rfl := ht
      · exact h.pool t ht
      · exact hnext rfl hlt
    · obtain ht | ht := List.mem_append.mp ht
      · exact h.pending t ht
      · rw [List.mem_singleton.mp ht]
        exact hnext rfl hlt

/-- An event that only takes items out of the pool. -/
theorem within_of_sheds (h : Within P n) (hinv : PoolInv c n)
    (hsheds : n.mempool.Sheds n'.mempool) (hpending : n'.pendingInvTx = n.pendingInvTx)
    (hqueued : n'.queueInvTx = n.queueInvTx) (htimeouts : n'.txTimeoutQueue = n.txTimeoutQueue) :
    Within P n' where
  pool t ht := h.pool t ((hinv.pool.sheds hsheds).2 t ht)
  pending := hpending ▸ h.pending
  queued := hqueued ▸ h.queued
  timeouts := htimeouts ▸ h.timeouts

/-- An event that fetches blocks. -/
theorem within_fetches {r : Node × Sends} (h : Within P n) (hfetches : Fetches n r) :
    Within P r.1 ∧ SendsWithin P r.2 := by
  obtain ⟨⟨_, _, heq⟩, hsends⟩ := hfetches
  rw [heq]
  refine ⟨⟨h.pool, h.pending, h.queued, h.timeouts⟩, fun s hs => .inr fun t ht => ?_⟩
  obtain ⟨id, hmsg⟩ := hsends s hs
  rw [hmsg] at ht
  exact absurd ht List.not_mem_nil

/-! ## events -/

/-- **Transaction ids come with an event, or from the node itself.** -/
theorem within_step {store : BlockBodyStore} {event : Event} {r : BlockBodyStore × Node × Sends}
    (h : Within P n) (hinv : PoolInv c n) (hids : ∀ t ∈ event.txIds, P t)
    (hown : OwnGenerated c n (· ∈ event.txIds))
    (hnext : ∀ fee, event = .generateTransaction fee →
      r.2.1.txsGenerated = n.txsGenerated + 1 → n.txsGenerated + 1 < 2 ^ 31 → P (nextTxId c n))
    (hrun : step c now store n event = some r) : Within P r.2.1 ∧ SendsWithin P r.2.2 := by
  cases event with
  | handleInvRelayBlock blockHash peer =>
      cases hrun
      exact within_fetches h (fetches_handleInvRelayBlock blockHash peer)
  | handleReqRelayBlock blockHash peer =>
      cases hrun
      refine ⟨h, fun s hs => .inl ?_⟩
      change s ∈ handleReqRelayBlock n blockHash peer at hs
      unfold handleReqRelayBlock at hs
      split at hs
      · exact ⟨_, congrArg Prod.snd (List.mem_singleton.mp hs)⟩
      · exact absurd hs List.not_mem_nil
  | handleBlock b peer =>
      obtain ⟨r', hb, hr⟩ := Option.bind_eq_some_iff.mp hrun
      cases hr
      obtain ⟨-, rfl⟩ | ⟨-, known, _, chain, newly, pool, -, -, -, -, hevict, rfl⟩ :=
        handleBlock_cases hb
      · exact ⟨h, sendsWithin_nil⟩
      · exact ⟨within_of_sheds h hinv (sheds_evictBlocks hevict) rfl rfl rfl,
          sendsWithin_broadcastInvBlock c b.id peer⟩
  | handleInvTransactions txIds peer =>
      cases hrun
      exact within_handleInvTransactions h hids
  | handleReqTransactions txIds peer =>
      cases hrun
      exact ⟨h, within_handleReqTransactions h⟩
  | handleTransactions draw txs peer =>
      obtain ⟨m, htxs, hm⟩ := Option.bind_eq_some_iff.mp hrun
      cases hm
      refine ⟨within_handleTransactions h hinv (fun tx htx => hids _ (List.mem_map_of_mem htx)) ?_
        htxs, sendsWithin_nil⟩
      rintro t ⟨tx, htx, rfl⟩ hid
      exact hown _ (List.mem_map_of_mem htx) hid
  | invTimeoutExpired blockHash pick =>
      cases hrun
      exact within_fetches h (fetches_invTimeoutExpired blockHash pick)
  | processTxTimeouts pick =>
      obtain ⟨r', htimeouts, hr⟩ := Option.bind_eq_some_iff.mp hrun
      cases hr
      exact within_processTxTimeouts h htimeouts
  | flushInvBatch =>
      rw [step] at hrun
      split at hrun
      · cases hrun
        refine ⟨⟨h.pool, fun t ht => absurd ht List.not_mem_nil, h.queued, h.timeouts⟩, ?_⟩
        unfold flushInvBatch broadcastInvTransactions
        dsimp only
        split
        · exact sendsWithin_nil
        · intro s hs
          obtain ⟨p, -, rfl⟩ := List.mem_map.mp hs
          exact .inr h.pending
      · cases hrun
        exact ⟨h, sendsWithin_nil⟩
  | generateTransaction fee =>
      obtain ⟨m, hgen, hm⟩ := Option.bind_eq_some_iff.mp hrun
      cases hm
      exact ⟨within_generateTransaction h hinv (hnext fee rfl) hgen, sendsWithin_nil⟩
  | mineBlock pick =>
      obtain ⟨chain, -, rfl⟩ := mineBlock_cases hrun
      exact ⟨within_of_sheds h hinv (sheds_selectTransactions pick n.mempool) rfl rfl rfl,
        sendsWithin_broadcastInvBlock c (minedId c n) Ipv4Address.unset⟩

/-- **Every event is a run of pool steps** with the ids that it brings. -/
theorem poolRun_step {store : BlockBodyStore} {event : Event} {r : BlockBodyStore × Node × Sends}
    (hrun : step c now store n event = some r) : PoolRun c (· ∈ event.txIds) n r.2.1 := by
  cases event with
  | handleInvRelayBlock blockHash peer =>
      cases hrun
      exact (fetches_handleInvRelayBlock blockHash peer).sameLedger.poolRun
  | handleReqRelayBlock blockHash peer =>
      cases hrun
      exact .refl
  | handleBlock b peer =>
      obtain ⟨r', hb, hr⟩ := Option.bind_eq_some_iff.mp hrun
      cases hr
      exact poolRun_handleBlock (fun tx htx => List.mem_map_of_mem htx) hb
  | handleInvTransactions txIds peer =>
      cases hrun
      exact (requeues_handleInvTransactions txIds peer).1.sameLedger.poolRun
  | handleReqTransactions txIds peer =>
      cases hrun
      exact .refl
  | handleTransactions draw txs peer =>
      obtain ⟨m, htxs, hm⟩ := Option.bind_eq_some_iff.mp hrun
      cases hm
      exact poolRun_handleTransactions (fun tx htx => List.mem_map_of_mem htx) htxs
  | invTimeoutExpired blockHash pick =>
      cases hrun
      exact (fetches_invTimeoutExpired blockHash pick).sameLedger.poolRun
  | processTxTimeouts pick =>
      obtain ⟨r', htimeouts, hr⟩ := Option.bind_eq_some_iff.mp hrun
      cases hr
      exact (requeues_processTxTimeouts htimeouts).1.sameLedger.poolRun
  | flushInvBatch =>
      rw [step] at hrun
      split at hrun
      · next exclude _ =>
          cases hrun
          have hflush : SameLedger n (flushInvBatch c n exclude).1 := ⟨rfl, rfl, rfl, rfl⟩
          exact hflush.poolRun
      · cases hrun
        exact .refl
  | generateTransaction fee =>
      obtain ⟨m, hgen, hm⟩ := Option.bind_eq_some_iff.mp hrun
      cases hm
      exact poolRun_generateTransaction hgen
  | mineBlock pick => exact poolRun_mineBlock hrun

end Node

end GhostDag
