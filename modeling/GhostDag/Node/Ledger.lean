import GhostDag.Dag.Flags
import GhostDag.Node.Pool
import GhostDag.Node.Steps

/-!
# GhostDag.Node.Ledger

What a node knows, and how its events change it.

`Ledger c n` is the invariant of a node's chain and pool when the ids it is
handed are honest: nobody else uses a block id or a transaction id that the
node has yet to give out.  Every event keeps it, and for each event that
touches the chain or the pool there is one lemma saying what becomes of both.
-/

namespace GhostDag

open Std (ExtTreeMap ExtTreeSet)
open Containers Blockchain

namespace Node

/-! ## ids -/

variable {c : Config} {n n' : Node}

theorem minedId_eq (hn : n.blockchain.nextBlockId < 2 ^ 32) :
    minedId c n = c.id * 2 ^ 32 + n.blockchain.nextBlockId := by
  have hupper : (c.minerId <<< 32) % 2 ^ 64 = c.id <<< 32 := by
    have hid := c.id_lt
    rw [Config.minerId, Nat.shiftLeft_eq, Nat.shiftLeft_eq]
    split <;> omega
  rw [minedId, hupper, ← Nat.shiftLeft_add_eq_or_of_lt hn, Nat.shiftLeft_eq]

/-- The id of the transaction to be generated next. -/
def nextTxId (c : Config) (n : Node) : Nat := c.id <<< 32 ||| n.txsGenerated

theorem nextTxId_eq (hn : n.txsGenerated < 2 ^ 32) :
    nextTxId c n = c.id * 2 ^ 32 + n.txsGenerated := by
  rw [nextTxId, ← Nat.shiftLeft_add_eq_or_of_lt hn, Nat.shiftLeft_eq]

theorem idFromTxId_nextTxId (hn : n.txsGenerated < 2 ^ 32) :
    idFromTxId (nextTxId c n) = c.id := by
  have hid := c.id_lt
  rw [nextTxId_eq hn, idFromTxId]
  omega

theorem seqOfTxId_nextTxId (hn : n.txsGenerated < 2 ^ 32) :
    seqOfTxId (nextTxId c n) = n.txsGenerated := by
  rw [nextTxId_eq hn, seqOfTxId]
  omega

/-! ## honest ids -/

/-- The node has given out every id of its own that the block mentions. -/
def HonestIds (c : Config) (n : Node) (b : Block) : Prop :=
  ∀ x ∈ b.id :: b.parents, x / 2 ^ 32 = c.id → x % 2 ^ 32 < n.blockchain.nextBlockId

/-- The node has generated every transaction of its own in the list. -/
def HonestTxs (c : Config) (n : Node) (txs : List Transaction) : Prop :=
  ∀ tx ∈ txs, idFromTxId tx.txId = c.id → seqOfTxId tx.txId < n.txsGenerated

/-- The blocks that a node may hold. -/
structure Vouched (c : Config) (n : Node) (b : Block) : Prop where
  ids : HonestIds c n b
  txs : HonestTxs c n b.txs.list
  known : ∀ tx ∈ b.txs.list, n.knownTxs.contains tx.txId = true

/-- **The invariant of a node.** -/
structure Ledger (c : Config) (n : Node) : Prop where
  chain : Sound (Vouched c n) n.blockchain
  next_pos : 0 < n.blockchain.nextBlockId
  pool : n.mempool.Wf c.hashFun
  known : ∀ t, n.mempool.Contains t → n.knownTxs.contains t = true
  fresh : ∀ t, n.mempool.Contains t → idFromTxId t = c.id → seqOfTxId t < n.txsGenerated

/-- **Blue blocks' transactions are not pooled.** -/
def BlueEvicted (n : Node) : Prop :=
  ∀ (id : ℕ) (b : Block), n.blockchain.blocks[id]? = some b → b.isBlue = true →
    ∀ tx ∈ b.txs.list, ¬ n.mempool.Contains tx.txId

/-- `n'` has counters no lower and knows no less. -/
structure Later (n n' : Node) : Prop where
  nextBlockId : n.blockchain.nextBlockId ≤ n'.blockchain.nextBlockId
  txsGenerated : n.txsGenerated ≤ n'.txsGenerated
  knownTxs : ∀ t, n.knownTxs.contains t = true → n'.knownTxs.contains t = true

theorem Vouched.later (h : Later n n') {b : Block} (hb : Vouched c n b) : Vouched c n' b where
  ids x hx hown := (hb.ids x hx hown).trans_le h.nextBlockId
  txs tx htx hown := (hb.txs tx htx hown).trans_le h.txsGenerated
  known tx htx := h.knownTxs _ (hb.known tx htx)

theorem ledger_init (c : Config) : Ledger c (Node.init c) where
  chain := .init _ _ _
  next_pos := Nat.one_pos
  pool := Mempool.wf_init c.mempoolSize_pos
  known t ht := absurd ht (Mempool.not_contains_init _ t)
  fresh t ht := absurd ht (Mempool.not_contains_init _ t)

theorem blueEvicted_init (c : Config) : BlueEvicted (Node.init c) :=
  fun _ _ _ _ tx _ => Mempool.not_contains_init _ tx.txId

namespace Ledger

/-- The transactions of accepted blocks are vouched for. -/
theorem accepted (h : Ledger c n) {id : ℕ} {b : Block} (hb : n.blockchain.blocks[id]? = some b)
    {tx : Transaction} (htx : tx ∈ b.txs.list) : n.knownTxs.contains tx.txId = true ∧
      (idFromTxId tx.txId = c.id → seqOfTxId tx.txId < n.txsGenerated) := by
  obtain ⟨-, hgen | ⟨b₀, hb₀, hbody⟩⟩ := h.chain.accepted hb
  · rw [hgen.txs] at htx
    exact absurd htx (by simp [TxSet.list, genesis])
  · rw [hbody.txs] at htx
    exact ⟨hb₀.known tx htx, hb₀.txs tx htx⟩

/-- The next mined id is held nowhere, and no block refers to it. -/
theorem minedId_fresh (h : Ledger c n) (hn : n.blockchain.nextBlockId < 2 ^ 32) :
    minedId c n ∉ n.blockchain.blocks ∧ minedId c n ∉ n.blockchain.orphans ∧
      ∀ (oid : ℕ) (ob : Block), n.blockchain.orphans[oid]? = some ob →
        minedId c n ∉ ob.parents := by
  have hid := minedId_eq (c := c) hn
  have hown : minedId c n / 2 ^ 32 = c.id := by omega
  have hlow : ¬ minedId c n % 2 ^ 32 < n.blockchain.nextBlockId := by omega
  have hpos := h.next_pos
  refine ⟨fun hmem => ?_, fun hmem => ?_, fun oid ob hob hmem => ?_⟩
  · obtain ⟨b, hb⟩ := mem_iff_exists.mp hmem
    obtain ⟨hbid, hgen | ⟨b₀, hb₀, hbody⟩⟩ := h.chain.accepted hb
    · have hzero : minedId c n = 0 := by
        rw [← hbid, hgen.id]
        rfl
      omega
    · refine hlow (hb₀.ids _ ?_ hown)
      rw [← hbid, hbody.id]
      exact List.mem_cons_self
  · obtain ⟨ob, hob⟩ := mem_iff_exists.mp hmem
    obtain ⟨hP, hobid⟩ := h.chain.orphan hob
    exact hlow (hP.ids _ (hobid ▸ List.mem_cons_self) hown)
  · exact hlow ((h.chain.orphan hob).1.ids _ (List.mem_cons_of_mem _ hmem) hown)

end Ledger

/-! ## events that leave chain and pool alone -/

/-- `n'` has the chain, the pool, the known ids and the counter of `n`. -/
structure SameLedger (n n' : Node) : Prop where
  blockchain : n'.blockchain = n.blockchain
  mempool : n'.mempool = n.mempool
  knownTxs : n'.knownTxs = n.knownTxs
  txsGenerated : n'.txsGenerated = n.txsGenerated

namespace SameLedger

theorem refl (n : Node) : SameLedger n n := ⟨rfl, rfl, rfl, rfl⟩

theorem trans {n'' : Node} (h : SameLedger n n') (h' : SameLedger n' n'') : SameLedger n n'' where
  blockchain := h'.blockchain.trans h.blockchain
  mempool := h'.mempool.trans h.mempool
  knownTxs := h'.knownTxs.trans h.knownTxs
  txsGenerated := h'.txsGenerated.trans h.txsGenerated

theorem later (h : SameLedger n n') : Later n n' where
  nextBlockId := by rw [h.blockchain]
  txsGenerated := by rw [h.txsGenerated]
  knownTxs t ht := by rwa [h.knownTxs]

theorem ledger (h : SameLedger n n') (hl : Ledger c n) : Ledger c n' where
  chain := by
    rw [h.blockchain]
    exact hl.chain.mono fun b hb => hb.later h.later
  next_pos := by rw [h.blockchain]; exact hl.next_pos
  pool := by rw [h.mempool]; exact hl.pool
  known := by rw [h.mempool, h.knownTxs]; exact hl.known
  fresh := by rw [h.mempool, h.txsGenerated]; exact hl.fresh

theorem blueEvicted_iff (h : SameLedger n n') : BlueEvicted n' ↔ BlueEvicted n := by
  rw [BlueEvicted, BlueEvicted, h.blockchain, h.mempool]

end SameLedger

theorem Fetches.sameLedger {r : Node × Sends} (h : Fetches n r) : SameLedger n r.1 := by
  obtain ⟨⟨_, _, heq⟩, -⟩ := h
  rw [heq]
  exact ⟨rfl, rfl, rfl, rfl⟩

theorem Requeues.sameLedger (h : Requeues n n') : SameLedger n n' := by
  obtain ⟨_, _, _, rfl⟩ := h
  exact ⟨rfl, rfl, rfl, rfl⟩

/-! ## HandleBlock -/

theorem contains_foldlM_insert {known known' : TxIdSet} {txs : List Transaction}
    (h : txs.foldlM (fun known tx => known.insert tx.txId) known = some known') :
    (∀ t, known.contains t = true → known'.contains t = true) ∧
      ∀ tx ∈ txs, known'.contains tx.txId = true := by
  induction txs generalizing known with
  | nil =>
      obtain rfl := Option.some.inj h
      exact ⟨fun _ ht => ht, fun _ htx => absurd htx List.not_mem_nil⟩
  | cons tx txs ih =>
      rw [List.foldlM_cons] at h
      obtain ⟨known₁, hins, hrest⟩ := Option.bind_eq_some_iff.mp h
      obtain ⟨hold, hnew⟩ := ih hrest
      refine ⟨fun t ht => hold t (TxIdSet.contains_of_insert hins ht), fun x hx => ?_⟩
      obtain rfl | hx := List.mem_cons.mp hx
      · exact hold _ (TxIdSet.contains_insert_self hins)
      · exact hnew x hx

/-- **`HandleBlock`** keeps the invariant, and evicts what has turned blue. -/
theorem Ledger.handleBlock (h : Ledger c n) {now : ℚ} {b : Block} {peer : Ipv4Address}
    {r : Node × Sends} (hids : HonestIds c n b) (htxs : HonestTxs c n b.txs.list)
    (hrun : handleBlock c now n b peer = some r) :
    Ledger c r.1 ∧ (BlueEvicted n → BlueEvicted r.1) := by
  obtain ⟨-, rfl⟩ | ⟨hguard, known, wasBlue, chain, newly, pool, hknown, hwas, hrunAdd, hrunNewly,
      hrunEvict, rfl⟩ := handleBlock_cases hrun
  · exact ⟨h, fun hev => hev⟩
  · have hnew := held_eq_false_iff.mp hguard
    obtain ⟨hold, hall⟩ := contains_foldlM_insert hknown
    have hlater : Later n { n with knownTxs := known } := ⟨le_rfl, le_rfl, hold⟩
    have hvouch : Vouched c { n with knownTxs := known } (received now b peer) :=
      ⟨hids, htxs, hall⟩
    obtain ⟨chain', hadd⟩ :=
      (h.chain.mono fun b hb => hb.later hlater).exists_addBlock hvouch hnew.1 hnew.2
    obtain rfl := Option.some.inj (hadd.run.symm.trans hrunAdd)
    obtain ⟨newly', hnewly, hmem⟩ := h.chain.exists_newlyBlue hadd.sound hadd.continues
    obtain rfl := Option.some.inj (h.chain.snapshotBlueFlags_eq.symm.trans hwas)
    obtain rfl := Option.some.inj (hnewly.symm.trans hrunNewly)
    have hblocks : ∀ id ∈ newly', id ∈ chain'.blocks := fun id hid => by
      obtain ⟨b', hb', -⟩ := isBlueAt_iff.mp ((hmem id).mp hid).1
      exact mem_of_getElem? hb'
    obtain ⟨pool', hevict, hwf, hcont⟩ := exists_evictBlocks chain' hblocks h.pool
    obtain rfl := Option.some.inj (hevict.symm.trans hrunEvict)
    have hnext := hadd.continues.nextBlockId
    refine ⟨⟨?_, ?_, hwf, ?_, ?_⟩, fun hev id b' hb' hblue tx htx hpooled => ?_⟩
    · refine hadd.sound.mono fun b hb => Vouched.later ?_ hb
      exact ⟨hnext.ge, le_rfl, fun _ ht => ht⟩
    · exact hnext ▸ h.next_pos
    · exact fun t ht => hold t (h.known t ((hcont t).mp ht).1)
    · exact fun t ht => h.fresh t ((hcont t).mp ht).1
    · obtain ⟨hpooled, hkept⟩ := (hcont tx.txId).mp hpooled
      cases hwas : n.blockchain.isBlueAt id with
      | false =>
          have hid := (hmem id).mpr ⟨isBlueAt_iff.mpr ⟨b', hb', hblue⟩, hwas⟩
          exact hkept id hid b' hb' tx htx rfl
      | true =>
          obtain ⟨b₀, hb₀, hblue₀⟩ := isBlueAt_iff.mp hwas
          rw [(hadd.old id b₀ b' hb₀ hb').txs] at htx
          exact hev id b₀ hb₀ hblue₀ tx htx hpooled

/-! ## HandleTransactions and GenerateTransaction -/

/-- Pooling a transaction that no accepted block contains. -/
theorem Ledger.insert (h : Ledger c n) (hlater : Later n n')
    (hchain : n'.blockchain = n.blockchain) {t fee : ℕ}
    (hpool : n'.mempool = n.mempool.insert c.hashFun (idFromTxId t) t fee)
    (hnew : ¬ n.mempool.Contains t) (hknown : n'.knownTxs.contains t = true)
    (hfresh : idFromTxId t = c.id → seqOfTxId t < n'.txsGenerated)
    (hblocks : ∀ (id : ℕ) (b : Block), n.blockchain.blocks[id]? = some b →
      ∀ tx ∈ b.txs.list, tx.txId ≠ t) :
    Ledger c n' ∧ (BlueEvicted n → BlueEvicted n') := by
  have hcont : ∀ u, n'.mempool.Contains u ↔ n.mempool.Contains u ∨ u = t := fun u => by
    rw [hpool, h.pool.contains_insert]
  constructor
  · constructor
    case chain =>
      rw [hchain]
      exact h.chain.mono fun b hb => hb.later hlater
    case next_pos => rw [hchain]; exact h.next_pos
    case pool => rw [hpool]; exact h.pool.insert hnew fee
    case known =>
      intro u hu
      obtain hu | rfl := (hcont u).mp hu
      · exact hlater.knownTxs u (h.known u hu)
      · exact hknown
    case fresh =>
      intro u hu hown
      obtain hu | rfl := (hcont u).mp hu
      · exact (h.fresh u hu hown).trans_le hlater.txsGenerated
      · exact hfresh hown
  · intro hev id b hb hblue tx htx hpooled
    rw [hchain] at hb
    obtain hpooled | heq := (hcont tx.txId).mp hpooled
    · exact hev id b hb hblue tx htx hpooled
    · exact hblocks id b hb tx htx heq

/-- One received transaction: it is pooled only if the node has never seen
it. -/
theorem Ledger.accept (h : Ledger c n) {draw : ℕ → ℕ} {tx : Transaction}
    (htx : HonestTxs c n [tx]) (hrun : accept c draw n tx = some n') :
    Ledger c n' ∧ n'.txsGenerated = n.txsGenerated ∧ (BlueEvicted n → BlueEvicted n') := by
  obtain ⟨-, rfl⟩ | ⟨hunknown, known, hins, ⟨-, rfl⟩ | ⟨-, rfl⟩⟩ := accept_cases hrun
  · have hsame : SameLedger n { n with queueInvTx := n.queueInvTx.erase tx.txId } :=
      ⟨rfl, rfl, rfl, rfl⟩
    exact ⟨hsame.ledger h, rfl, hsame.blueEvicted_iff.mpr⟩
  · have hold := fun t => TxIdSet.contains_of_insert (u := t) hins
    have hlater : Later n { n with
      queueInvTx := n.queueInvTx.erase tx.txId, knownTxs := known } := ⟨le_rfl, le_rfl, hold⟩
    exact ⟨⟨h.chain.mono fun b hb => hb.later hlater, h.next_pos, h.pool,
      fun t ht => hold t (h.known t ht), h.fresh⟩, rfl, fun hev => hev⟩
  · have hunknown := Bool.eq_false_iff.mp hunknown
    have hlater : Later n { n with
        queueInvTx := n.queueInvTx.erase tx.txId
        knownTxs := known
        mempool := n.mempool.insert c.hashFun (idFromTxId tx.txId) tx.txId
          (if 0 < tx.fee then tx.fee else draw tx.txId)
        pendingInvTx := n.pendingInvTx ++ [tx.txId] } :=
      ⟨le_rfl, le_rfl, fun t => TxIdSet.contains_of_insert hins⟩
    have hres := h.insert hlater rfl rfl (fun hmem => hunknown (h.known _ hmem))
      (TxIdSet.contains_insert_self hins) (htx tx List.mem_cons_self)
      fun id b hb tx' htx' heq => hunknown (heq ▸ (h.accepted hb htx').1)
    exact ⟨hres.1, rfl, hres.2⟩

/-- **`HandleTransactions`** keeps the invariant and pools nothing that a
block contains. -/
theorem Ledger.handleTransactions (h : Ledger c n) {draw : ℕ → ℕ} {txs : List Transaction}
    {peer : Ipv4Address} (htxs : HonestTxs c n txs)
    (hrun : handleTransactions c draw n txs peer = some n') :
    Ledger c n' ∧ (BlueEvicted n → BlueEvicted n') := by
  have hfold : ∀ (l : List Transaction) (m m' : Node), Ledger c m → HonestTxs c m l →
      l.foldlM (Node.accept c draw) m = some m' →
      Ledger c m' ∧ (BlueEvicted m → BlueEvicted m') := by
    intro l
    induction l with
    | nil =>
        intro m m' hm _ hrun
        obtain rfl := Option.some.inj hrun
        exact ⟨hm, fun hev => hev⟩
    | cons tx l ih =>
        intro m m' hm hl hrun
        rw [List.foldlM_cons] at hrun
        obtain ⟨m₁, hstep, hrest⟩ := Option.bind_eq_some_iff.mp hrun
        obtain ⟨hm₁, hgen, hev₁⟩ :=
          hm.accept (fun x hx => hl x (List.mem_singleton.mp hx ▸ List.mem_cons_self)) hstep
        have hl₁ : HonestTxs c m₁ l := fun x hx hown =>
          hgen ▸ hl x (List.mem_cons_of_mem tx hx) hown
        obtain ⟨hm', hev'⟩ := ih m₁ m' hm₁ hl₁ hrest
        exact ⟨hm', hev' ∘ hev₁⟩
  obtain ⟨m, hall, ⟨-, rfl⟩ | ⟨-, rfl⟩⟩ := handleTransactions_cases hrun
  · exact hfold txs n n' h htxs hall
  · obtain ⟨hm, hev⟩ := hfold txs n m h htxs hall
    have hsame : SameLedger m { m with invBatchEvent := some (m.invBatchEvent.getD peer) } :=
      ⟨rfl, rfl, rfl, rfl⟩
    exact ⟨hsame.ledger hm, hsame.blueEvicted_iff.mpr ∘ hev⟩

/-- **`GenerateTransaction`** keeps the invariant: the new id is in no block
yet. -/
theorem Ledger.generateTransaction (h : Ledger c n) {fee : ℕ}
    (hrun : generateTransaction c n fee = some n') :
    Ledger c n' ∧ (BlueEvicted n → BlueEvicted n') := by
  obtain ⟨-, rfl⟩ | ⟨-, hlt, known, hins, rfl⟩ := generateTransaction_cases hrun
  · exact ⟨h, fun hev => hev⟩
  · have hgen : n.txsGenerated < 2 ^ 32 := by omega
    have hid := idFromTxId_nextTxId (c := c) hgen
    have hseq := seqOfTxId_nextTxId (c := c) hgen
    set m : Node := { n with
      mempool := n.mempool.insert c.hashFun c.id (nextTxId c n) fee
      knownTxs := known
      txsGenerated := n.txsGenerated + 1
      pendingInvTx := n.pendingInvTx ++ [nextTxId c n]
      invBatchEvent := some (n.invBatchEvent.getD Ipv4Address.unset) }
    have hlater : Later n m := ⟨le_rfl, Nat.le_succ _, fun t => TxIdSet.contains_of_insert hins⟩
    have hpool : m.mempool =
        n.mempool.insert c.hashFun (idFromTxId (nextTxId c n)) (nextTxId c n) fee := by
      rw [hid]
    have hblocks : ∀ (id : ℕ) (b : Block), n.blockchain.blocks[id]? = some b →
        ∀ tx ∈ b.txs.list, tx.txId ≠ nextTxId c n := by
      intro id b hb tx htx heq
      have hlt := (h.accepted hb htx).2
      rw [heq] at hlt
      exact (hlt hid).ne hseq
    exact h.insert hlater rfl hpool (fun hmem => (h.fresh _ hmem hid).ne hseq)
      (TxIdSet.contains_insert_self hins) (fun _ => hseq ▸ Nat.lt_succ_self _) hblocks

end Node

end GhostDag
