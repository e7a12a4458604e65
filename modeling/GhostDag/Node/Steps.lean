import GhostDag.Dag.Held
import GhostDag.Node.Timeouts

/-!
# GhostDag.Node.Steps

What each handler does, once: the cases it distinguishes, the fields it
changes and the messages it sends.  What a handler leaves alone is read off
here, whatever the fields in question are.
-/

namespace GhostDag

open Std (ExtTreeMap ExtTreeSet)
open Containers

namespace Node

variable {c : Config} {now : ℚ} {n n' : Node}

/-! ## blocks -/

/-- An announcement does nothing for a block that is held; the first one is
followed by a request, and another one notes one more announcer. -/
theorem handleInvRelayBlock_cases (c : Config) (now : ℚ) (n : Node) (blockHash : ℕ)
    (peer : Ipv4Address) :
    n.blockchain.Held blockHash ∧ handleInvRelayBlock c now n blockHash peer = (n, []) ∨
    ¬ n.blockchain.Held blockHash ∧ (n.queueInv.getD blockHash [] = [] ∧
        handleInvRelayBlock c now n blockHash peer = ({ n with
          queueInv := n.queueInv.insert blockHash [peer]
          invTimeouts := n.invTimeouts.insert blockHash (now + c.invTimeout) },
          [(peer, .reqRelayBlock blockHash)]) ∨
      n.queueInv.getD blockHash [] ≠ [] ∧
        handleInvRelayBlock c now n blockHash peer = ({ n with
          queueInv := n.queueInv.insert blockHash (n.queueInv.getD blockHash [] ++ [peer]) }, [])) := by
  unfold handleInvRelayBlock
  split
  · next hheld => exact .inl ⟨Blockchain.held_iff.mp hheld, rfl⟩
  · next hnew =>
      refine .inr ⟨fun hheld => hnew (Blockchain.held_iff.mpr hheld), ?_⟩
      dsimp only
      split
      · next hempty =>
          have hnil := List.isEmpty_iff.mp hempty
          exact .inl ⟨hnil, by rw [hnil, List.nil_append]⟩
      · next hsome => exact .inr ⟨fun hnil => hsome (List.isEmpty_iff.mpr hnil), rfl⟩

/-- A time-out gives up, or asks one of the other announcers. -/
theorem invTimeoutExpired_cases (c : Config) (now : ℚ) (n : Node) (blockHash pick : ℕ) :
    n.queueInv[blockHash]? = none ∧ invTimeoutExpired c now n blockHash pick = (n, []) ∨
    ∃ announcers, n.queueInv[blockHash]? = some announcers ∧
      (announcers.drop 1 = [] ∧ invTimeoutExpired c now n blockHash pick = ({ n with
          queueInv := n.queueInv.erase blockHash
          invTimeouts := n.invTimeouts.erase blockHash }, []) ∨
      ∃ next rest, (next :: rest).Perm (announcers.drop 1) ∧
        invTimeoutExpired c now n blockHash pick = ({ n with
          queueInv := n.queueInv.insert blockHash (next :: rest)
          invTimeouts := n.invTimeouts.insert blockHash (now + c.invTimeout) },
          [(next, .reqRelayBlock blockHash)])) := by
  unfold invTimeoutExpired
  cases hget : n.queueInv[blockHash]? with
  | none => exact .inl ⟨rfl, rfl⟩
  | some announcers =>
      refine .inr ⟨announcers, rfl, ?_⟩
      have hperm := swapFront_perm (announcers.drop 1) pick
      dsimp only
      cases hswap : swapFront (announcers.drop 1) pick with
      | nil => exact .inl ⟨List.nil_perm.mp (hswap ▸ hperm), rfl⟩
      | cons next rest => exact .inr ⟨next, rest, hswap ▸ hperm, rfl⟩

/-- What `HandleInvRelayBlock` and `InvTimeoutExpired` have in common: they
keep to the announcers of blocks, and send requests for blocks. -/
def Fetches (n : Node) (r : Node × Sends) : Prop :=
  (∃ queueInv invTimeouts, r.1 = { n with queueInv, invTimeouts }) ∧
    ∀ s ∈ r.2, ∃ blockHash, s.2 = .reqRelayBlock blockHash

theorem fetches_handleInvRelayBlock (blockHash : ℕ) (peer : Ipv4Address) :
    Fetches n (handleInvRelayBlock c now n blockHash peer) := by
  obtain ⟨-, heq⟩ | ⟨-, ⟨-, heq⟩ | ⟨-, heq⟩⟩ := handleInvRelayBlock_cases c now n blockHash peer
  · exact heq ▸ ⟨⟨_, _, rfl⟩, fun _ hs => absurd hs List.not_mem_nil⟩
  · exact heq ▸ ⟨⟨_, _, rfl⟩, fun _ hs => ⟨_, congrArg Prod.snd (List.mem_singleton.mp hs)⟩⟩
  · exact heq ▸ ⟨⟨_, _, rfl⟩, fun _ hs => absurd hs List.not_mem_nil⟩

theorem fetches_invTimeoutExpired (blockHash pick : ℕ) :
    Fetches n (invTimeoutExpired c now n blockHash pick) := by
  obtain ⟨-, heq⟩ | ⟨_, -, ⟨-, heq⟩ | ⟨_, _, -, heq⟩⟩ := invTimeoutExpired_cases c now n blockHash pick
  · exact heq ▸ ⟨⟨_, _, rfl⟩, fun _ hs => absurd hs List.not_mem_nil⟩
  · exact heq ▸ ⟨⟨_, _, rfl⟩, fun _ hs => absurd hs List.not_mem_nil⟩
  · exact heq ▸ ⟨⟨_, _, rfl⟩, fun _ hs => ⟨_, congrArg Prod.snd (List.mem_singleton.mp hs)⟩⟩

/-- `HandleBlock` drops a block that is held, and adds another. -/
theorem handleBlock_cases {b : Block} {peer : Ipv4Address} {r : Node × Sends}
    (h : handleBlock c now n b peer = some r) :
    (n.blockchain.hasBlock b.id || n.blockchain.isOrphan b.id) = true ∧ r = (n, []) ∨
    (n.blockchain.hasBlock b.id || n.blockchain.isOrphan b.id) = false ∧
      ∃ knownTxs wasBlue blockchain newly mempool,
        b.txs.list.foldlM (fun known tx => known.insert tx.txId) n.knownTxs = some knownTxs ∧
        n.blockchain.snapshotBlueFlags = some wasBlue ∧
        n.blockchain.addBlock (received now b peer) = some blockchain ∧
        blockchain.newlyBlue wasBlue = some newly ∧
        evictBlocks c.hashFun blockchain newly n.mempool = some mempool ∧
        r = ({ n with
          blockchain, mempool, knownTxs
          invTimeouts := n.invTimeouts.erase b.id
          queueInv := n.queueInv.erase b.id }, broadcastInvBlock c b.id peer) := by
  unfold Node.handleBlock at h
  split at h
  · next hheld => exact .inl ⟨hheld, (Option.some.inj h).symm⟩
  · next hnew =>
      obtain ⟨knownTxs, hknown, h⟩ := Option.bind_eq_some_iff.mp h
      obtain ⟨wasBlue, hblue, h⟩ := Option.bind_eq_some_iff.mp h
      obtain ⟨blockchain, hadd, h⟩ := Option.bind_eq_some_iff.mp h
      obtain ⟨newly, hnewly, h⟩ := Option.bind_eq_some_iff.mp h
      obtain ⟨mempool, hevict, h⟩ := Option.bind_eq_some_iff.mp h
      exact .inr ⟨Bool.eq_false_iff.mpr hnew, knownTxs, wasBlue, blockchain, newly, mempool, hknown,
        hblue, hadd, hnewly, hevict, (Option.some.inj h).symm⟩

/-- `MineBlock` interns the body that it has selected, and adds the block. -/
theorem mineBlock_cases {pick : ℕ → ℕ × ℕ} {store : BlockBodyStore}
    {r : BlockBodyStore × Node × Sends} (h : mineBlock c now pick store n = some r) :
    ∃ blockchain,
      (countBlock n.blockchain).addBlock (mined c now n (store.intern (minedId c n)
        (selectTransactions c pick n.mempool).1).1) = some blockchain ∧
      r = ((store.intern (minedId c n) (selectTransactions c pick n.mempool).1).2,
        { n with blockchain, mempool := (selectTransactions c pick n.mempool).2 },
        broadcastInvBlock c (minedId c n) Ipv4Address.unset) := by
  obtain ⟨blockchain, hadd, heq⟩ := Option.bind_eq_some_iff.mp h
  exact ⟨blockchain, hadd, (Option.some.inj heq).symm⟩

/-! ## timers -/

theorem armTxTimeoutTimer_eq (now : ℚ) (n : Node) :
    ∃ txTimeoutEvent, n.armTxTimeoutTimer now = { n with txTimeoutEvent } := by
  unfold armTxTimeoutTimer
  split
  · exact ⟨_, rfl⟩
  · exact ⟨n.txTimeoutEvent, rfl⟩

/-- The batch is scheduled with the given address, unless it is scheduled
already. -/
theorem scheduleInvBatch_eq (n : Node) (peer : Ipv4Address) :
    n.scheduleInvBatch peer = { n with invBatchEvent := some (n.invBatchEvent.getD peer) } := by
  unfold scheduleInvBatch
  split
  · next exclude hevent => rw [hevent, Option.getD_some, ← hevent]
  · next hevent => rw [hevent, Option.getD_none]

/-! ## requests for transactions -/

/-- `n'` differs from `n` in the requests for transactions and their
timer. -/
def Requeues (n n' : Node) : Prop :=
  ∃ queueInvTx txTimeoutQueue txTimeoutEvent,
    n' = { n with queueInvTx, txTimeoutQueue, txTimeoutEvent }

theorem Requeues.refl (n : Node) : Requeues n n := ⟨_, _, _, rfl⟩

theorem Requeues.trans {n'' : Node} (h : Requeues n n') (h' : Requeues n' n'') : Requeues n n'' := by
  obtain ⟨_, _, _, rfl⟩ := h
  obtain ⟨_, _, _, rfl⟩ := h'
  exact ⟨_, _, _, rfl⟩

theorem requeues_armTxTimeoutTimer (now : ℚ) (n : Node) : Requeues n (n.armTxTimeoutTimer now) := by
  obtain ⟨event, heq⟩ := armTxTimeoutTimer_eq now n
  exact ⟨_, _, _, heq⟩

theorem requeues_announce (peer : Ipv4Address) (st : Node × List ℕ) (txId : ℕ) :
    Requeues st.1 (announce c now peer st txId).1 := by
  unfold announce
  dsimp only
  split
  · exact .refl _
  · split <;> exact ⟨_, _, _, rfl⟩

/-- `HandleInvTransactions` asks the announcer, if anybody. -/
theorem requeues_handleInvTransactions (txIds : List ℕ) (peer : Ipv4Address) :
    Requeues n (handleInvTransactions c now n txIds peer).1 ∧
      ∀ s ∈ (handleInvTransactions c now n txIds peer).2, ∃ wanted, s.2 = .reqTransactions wanted := by
  have hfold : ∀ (l : List ℕ) (st : Node × List ℕ),
      Requeues st.1 (l.foldl (announce c now peer) st).1 := by
    intro l
    induction l with
    | nil => exact fun st => .refl _
    | cons txId l ih => exact fun st => (requeues_announce peer st txId).trans (ih _)
  have hall := hfold txIds (n, [])
  unfold handleInvTransactions
  generalize txIds.foldl (announce c now peer) (n, []) = st at hall
  dsimp only
  split
  · exact ⟨hall, fun _ hs => absurd hs List.not_mem_nil⟩
  · exact ⟨hall.trans (requeues_armTxTimeoutTimer now st.1),
      fun _ hs => ⟨_, congrArg Prod.snd (List.mem_singleton.mp hs)⟩⟩

theorem Round.requeues {st st' : Node × Sends} (h : Round c now st st') : Requeues st.1 st'.1 := by
  cases h <;> exact ⟨_, _, _, rfl⟩

/-- A round only sends requests for transactions. -/
theorem Round.sent {st st' : Node × Sends} (h : Round c now st st') :
    ∀ s ∈ st'.2, s ∈ st.2 ∨ ∃ txIds, s.2 = .reqTransactions txIds := by
  cases h with
  | stale => exact fun s hs => .inl hs
  | giveUp => exact fun s hs => .inl hs
  | retry =>
      intro s hs
      obtain hs | hs := List.mem_append.mp hs
      · exact .inl hs
      · exact .inr ⟨_, congrArg Prod.snd (List.mem_singleton.mp hs)⟩

theorem requeues_processTxTimeouts {pick : ℕ → ℕ} {r : Node × Sends}
    (h : processTxTimeouts c now pick n = some r) :
    Requeues n r.1 ∧ ∀ s ∈ r.2, ∃ txIds, s.2 = .reqTransactions txIds := by
  obtain ⟨st, hrounds, -, rfl⟩ := rounds_of_processTxTimeouts h
  have hloop : Requeues n st.1 ∧ ∀ s ∈ st.2, ∃ txIds, s.2 = .reqTransactions txIds := by
    clear h
    induction hrounds with
    | refl => exact ⟨⟨_, _, _, rfl⟩, fun s hs => absurd hs List.not_mem_nil⟩
    | tail _ hround ih =>
        obtain ⟨hnode, hsent⟩ := ih
        exact ⟨hnode.trans hround.requeues, fun s hs => (hround.sent s hs).elim (hsent s) id⟩
  exact ⟨hloop.1.trans (requeues_armTxTimeoutTimer now st.1), hloop.2⟩

/-! ## transactions -/

/-- A received transaction closes its request.  If it is new it becomes known,
and it is pooled and joins the batch while there is room. -/
theorem accept_cases {draw : ℕ → ℕ} {tx : Transaction} (h : accept c draw n tx = some n') :
    n.knownTxs.contains tx.txId = true ∧
      n' = { n with queueInvTx := n.queueInvTx.erase tx.txId } ∨
    n.knownTxs.contains tx.txId = false ∧ ∃ knownTxs, n.knownTxs.insert tx.txId = some knownTxs ∧
      (c.mempoolSize ≤ n.mempool.size ∧
          n' = { n with queueInvTx := n.queueInvTx.erase tx.txId, knownTxs } ∨
        n.mempool.size < c.mempoolSize ∧ n' = { n with
          queueInvTx := n.queueInvTx.erase tx.txId
          knownTxs
          mempool := n.mempool.insert c.hashFun (idFromTxId tx.txId) tx.txId
            (if 0 < tx.fee then tx.fee else draw tx.txId)
          pendingInvTx := n.pendingInvTx ++ [tx.txId] }) := by
  unfold accept at h
  dsimp only at h
  split at h
  · next hknown => exact .inl ⟨hknown, (Option.some.inj h).symm⟩
  · next hnew =>
      obtain ⟨knownTxs, hins, h⟩ := Option.bind_eq_some_iff.mp h
      refine .inr ⟨Bool.eq_false_iff.mpr hnew, knownTxs, hins, ?_⟩
      split at h
      · next hfull => exact .inl ⟨hfull, (Option.some.inj h).symm⟩
      · next hroom => exact .inr ⟨not_le.mp hroom, (Option.some.inj h).symm⟩

/-- The batch is scheduled when something waits in it. -/
theorem handleTransactions_cases {draw : ℕ → ℕ} {txs : List Transaction} {peer : Ipv4Address}
    (h : handleTransactions c draw n txs peer = some n') :
    ∃ m, txs.foldlM (accept c draw) n = some m ∧
      (m.pendingInvTx = [] ∧ n' = m ∨ m.pendingInvTx ≠ [] ∧
        n' = { m with invBatchEvent := some (m.invBatchEvent.getD peer) }) := by
  obtain ⟨m, hm, heq⟩ := Option.bind_eq_some_iff.mp h
  refine ⟨m, hm, ?_⟩
  rw [← Option.some.inj heq]
  split
  · next hempty => exact .inl ⟨List.isEmpty_iff.mp hempty, rfl⟩
  · next hsome =>
      exact .inr ⟨fun hnil => hsome (List.isEmpty_iff.mpr hnil), scheduleInvBatch_eq m peer⟩

/-- A transaction is generated while there is room. -/
theorem generateTransaction_cases {fee : ℕ} (h : generateTransaction c n fee = some n') :
    c.mempoolSize ≤ n.mempool.size ∧ n' = n ∨
    n.mempool.size < c.mempoolSize ∧ n.txsGenerated + 1 < 2 ^ 31 ∧
      ∃ knownTxs, n.knownTxs.insert (c.id <<< 32 ||| n.txsGenerated) = some knownTxs ∧
        n' = { n with
          mempool := n.mempool.insert c.hashFun c.id (c.id <<< 32 ||| n.txsGenerated) fee
          knownTxs
          txsGenerated := n.txsGenerated + 1
          pendingInvTx := n.pendingInvTx ++ [c.id <<< 32 ||| n.txsGenerated]
          invBatchEvent := some (n.invBatchEvent.getD Ipv4Address.unset) } := by
  unfold generateTransaction at h
  dsimp only at h
  split at h
  · next hroom =>
      split at h
      · next hlt =>
          obtain ⟨knownTxs, hins, heq⟩ := Option.bind_eq_some_iff.mp h
          refine .inr ⟨hroom, hlt, knownTxs, hins, ?_⟩
          rw [← Option.some.inj heq, scheduleInvBatch_eq]
      · exact absurd h.symm (Option.some_ne_none n')
  · next hfull => exact .inl ⟨not_lt.mp hfull, (Option.some.inj h).symm⟩

end Node

end GhostDag
