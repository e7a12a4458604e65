import GhostDag.Node.Ledger
import GhostDag.Node.PoolIndex

/-!
# GhostDag.Node.PoolSteps

What happens to the transaction pool, whatever the event: items are erased, an
unknown transaction is accepted, or one is generated (`PoolStep`).  Every
handler is a run of such steps, and each of them keeps the guards of the pool
(`PoolInv`): nothing is pooled twice or beyond the capacity, and what is
pooled is known.

Unlike `Ledger`, this says nothing about the chain, so that the ids of blocks
may be anything.
-/

namespace GhostDag

open Relation (ReflTransGen)

namespace Mempool

/-! ## erasing -/

/-- `p'` is what remains of `p` when items are erased one after another. -/
def Sheds (p p' : Mempool) : Prop :=
  ReflTransGen (fun p p' => ∃ it, p.Stores it.index it.item ∧ p' = p.eraseTransaction it) p p'

/-- The capacity is kept, and each item is where it should be. -/
structure Guarded (hashFun : String → Nat) (capacity : Nat) (p : Mempool) : Prop where
  wf : p.Wf hashFun
  linked : p.Linked hashFun
  size_le : p.size ≤ capacity

variable {hashFun : String → ℕ} {capacity : ℕ} {p p' : Mempool}

theorem guarded_init {n : ℕ} (hn : 0 < n) : Guarded hashFun n (init n) where
  wf := wf_init hn
  linked := linked_init hn
  size_le := Nat.zero_le n

namespace Guarded

/-- Erasing one item. -/
theorem eraseTransaction (h : Guarded hashFun capacity p) {it : HtabIterator}
    (hit : p.Stores it.index it.item) : Guarded hashFun capacity (p.eraseTransaction it) where
  wf := h.wf.erase hit
  linked := (h.linked.drops_eraseTransaction hit).linked h.linked
  size_le := (Nat.sub_le p.itemCount 1).trans h.size_le

/-- **Erasing** keeps a pool guarded, and adds nothing. -/
theorem sheds (h : Guarded hashFun capacity p) (hsheds : p.Sheds p') :
    Guarded hashFun capacity p' ∧ ∀ t, p'.Contains t → p.Contains t := by
  induction hsheds with
  | refl => exact ⟨h, fun _ ht => ht⟩
  | tail _ hstep ih =>
      obtain ⟨hmid, hsub⟩ := ih
      obtain ⟨it, hit, rfl⟩ := hstep
      exact ⟨hmid.eraseTransaction hit, fun t ht => hsub t ((hmid.wf.contains_erase hit t).mp ht).1⟩

/-- Pooling a new transaction while there is room. -/
theorem insert (h : Guarded hashFun capacity p) (hroom : p.size < capacity) {t : ℕ}
    (hnew : ¬ p.Contains t) (fee : ℕ) :
    Guarded hashFun capacity (p.insert hashFun (idFromTxId t) t fee) where
  wf := h.wf.insert hnew fee
  linked := h.linked.insert (idFromTxId t) t fee
  size_le := hroom

/-- **No transaction id occurs twice.** -/
theorem nodup_txIds (h : Guarded hashFun capacity p) :
    (p.located.map fun l => l.2.txId).Nodup := by
  refine List.Nodup.map_on (fun l hl l' hl' heq => ?_) h.linked.nodup
  have hst : p.Stores l.1 l.2 := mem_located.mp hl
  have hst' : p.Stores l'.1 l'.2 := mem_located.mp hl'
  have hitem := h.wf.distinct _ _ _ _ hst hst' heq
  have hindex : l.1 = l'.1 := by
    rw [(h.wf.keyed _ _ hst).2, (h.wf.keyed _ _ hst').2, hitem]
  exact Prod.ext hindex hitem

end Guarded

end Mempool

namespace Node

open Mempool (Sheds Guarded)

variable {c : Config} {now : ℚ} {n n' : Node} {carried : ℕ → Prop}

/-! ## what sheds items -/

theorem sheds_evict (hashFun : String → ℕ) (p : Mempool) (tx : Transaction) :
    p.Sheds (evict hashFun p tx) := by
  unfold evict
  split
  · next it hit => exact .single ⟨it, (Mempool.stores_of_find hit).1, rfl⟩
  · exact .refl

theorem sheds_evictBlocks {hashFun : String → ℕ} {s : Blockchain} {ids : List ℕ} {p p' : Mempool}
    (h : evictBlocks hashFun s ids p = some p') : p.Sheds p' := by
  have hblock : ∀ (txs : List Transaction) (p : Mempool), p.Sheds (txs.foldl (evict hashFun) p) := by
    intro txs
    induction txs with
    | nil => exact fun p => .refl
    | cons tx txs ih => exact fun p => (sheds_evict hashFun p tx).trans (ih _)
  refine Containers.foldlM_keeps (P := fun q => p.Sheds q) (fun id _ q q' hq hrun => ?_) .refl h
  obtain ⟨b, -, hevict⟩ := Option.bind_eq_some_iff.mp hrun
  exact Option.some.inj hevict ▸ hq.trans (hblock b.txs.list q)

theorem sheds_selectTransactions (pick : ℕ → ℕ × ℕ) (p : Mempool) :
    p.Sheds (selectTransactions c pick p).2 := by
  have hone : ∀ (st : TxSet × Mempool) (i : ℕ), st.2.Sheds (selectOne c pick st i).2 := by
    intro st i
    unfold selectOne
    split
    · next it hit => exact .single ⟨it, stores_of_nextTransaction hit, rfl⟩
    · exact .refl
  have hall : ∀ (l : List ℕ) (st : TxSet × Mempool), st.2.Sheds (l.foldl (selectOne c pick) st).2 := by
    intro l
    induction l with
    | nil => exact fun st => .refl
    | cons i l ih => exact fun st => (hone st i).trans (ih _)
  unfold selectTransactions
  split
  · exact .refl
  · exact hall _ (∅, p)

/-! ## one step -/

/-- `known'` is `known` with some of the ids carried. -/
structure Learns (carried : ℕ → Prop) (known known' : TxIdSet) : Prop where
  old : ∀ u, known.contains u = true → known'.contains u = true
  new : ∀ u, known'.contains u = true → known.contains u = true ∨
    ∃ t, carried t ∧ idFromTxId u = idFromTxId t ∧ seqOfTxId u = seqOfTxId t

theorem Learns.refl (carried : ℕ → Prop) (known : TxIdSet) : Learns carried known known :=
  ⟨fun _ hu => hu, fun _ hu => .inl hu⟩

/-- Inserting ids one after another. -/
theorem learns_foldlM_insert {ids : List ℕ} {known known' : TxIdSet} (hids : ∀ t ∈ ids, carried t)
    (h : ids.foldlM TxIdSet.insert known = some known') : Learns carried known known' := by
  refine Containers.foldlM_keeps (P := Learns carried known) (fun t ht k k' hk hins => ?_)
    (.refl carried known) h
  refine ⟨fun u hu => TxIdSet.contains_of_insert hins (hk.old u hu), fun u hu => ?_⟩
  obtain hsame | hu := (TxIdSet.contains_insert hins u).mp hu
  · exact .inr ⟨t, hids t ht, hsame⟩
  · exact hk.new u hu

/-- **What can happen to the pool**, with the ids that the event carries. -/
inductive PoolStep (c : Config) (carried : ℕ → Prop) (n n' : Node) : Prop
  | sheds : n.mempool.Sheds n'.mempool → Learns carried n.knownTxs n'.knownTxs →
      n'.txsGenerated = n.txsGenerated → PoolStep c carried n n'
  | accepts {t fee : ℕ} : carried t → n.knownTxs.contains t = false →
      n.knownTxs.insert t = some n'.knownTxs → n.mempool.size < c.mempoolSize →
      n'.mempool = n.mempool.insert c.hashFun (idFromTxId t) t fee →
      n'.txsGenerated = n.txsGenerated → PoolStep c carried n n'
  | generates {fee : ℕ} : n.txsGenerated + 1 < 2 ^ 31 →
      n.knownTxs.insert (nextTxId c n) = some n'.knownTxs → n.mempool.size < c.mempoolSize →
      n'.mempool = n.mempool.insert c.hashFun c.id (nextTxId c n) fee →
      n'.txsGenerated = n.txsGenerated + 1 → PoolStep c carried n n'

/-- An event is any number of such steps. -/
def PoolRun (c : Config) (carried : ℕ → Prop) : Node → Node → Prop :=
  ReflTransGen (PoolStep c carried)

theorem SameLedger.poolRun (h : SameLedger n n') : PoolRun c carried n n' := by
  refine .single (.sheds ?_ ?_ h.txsGenerated)
  · exact h.mempool ▸ .refl
  · exact h.knownTxs ▸ .refl carried n.knownTxs

/-! ## the handlers -/

theorem poolStep_accept {draw : ℕ → ℕ} {tx : Transaction} (htx : carried tx.txId)
    (h : accept c draw n tx = some n') : PoolStep c carried n n' := by
  obtain ⟨-, rfl⟩ | ⟨hunknown, known, hins, ⟨-, rfl⟩ | ⟨hroom, rfl⟩⟩ := accept_cases h
  · exact .sheds .refl (.refl carried _) rfl
  · have hlearns : Learns carried n.knownTxs known := by
      have honly : ∀ t ∈ [tx.txId], carried t := fun t ht => List.mem_singleton.mp ht ▸ htx
      refine learns_foldlM_insert honly ?_
      rw [List.foldlM_cons, hins]
      rfl
    exact .sheds .refl hlearns rfl
  · exact .accepts htx hunknown hins hroom rfl rfl

theorem poolRun_handleTransactions {draw : ℕ → ℕ} {txs : List Transaction} {peer : Ipv4Address}
    (htxs : ∀ tx ∈ txs, carried tx.txId) (h : handleTransactions c draw n txs peer = some n') :
    PoolRun c carried n n' := by
  obtain ⟨m, hm, hcases⟩ := handleTransactions_cases h
  have hall : PoolRun c carried n m := Containers.foldlM_keeps (P := PoolRun c carried n)
    (fun tx htx _ _ hkept hacc => hkept.tail (poolStep_accept (htxs tx htx) hacc)) .refl hm
  obtain ⟨-, rfl⟩ | ⟨-, rfl⟩ := hcases
  · exact hall
  · exact hall.trans (SameLedger.poolRun ⟨rfl, rfl, rfl, rfl⟩)

theorem poolRun_generateTransaction {fee : ℕ} (h : generateTransaction c n fee = some n') :
    PoolRun c carried n n' := by
  obtain ⟨-, rfl⟩ | ⟨hroom, hlt, known, hins, rfl⟩ := generateTransaction_cases h
  · exact .refl
  · exact .single (.generates hlt hins hroom rfl rfl)

theorem poolRun_handleBlock {b : Block} {peer : Ipv4Address} {r : Node × Sends}
    (htxs : ∀ tx ∈ b.txs.list, carried tx.txId) (h : handleBlock c now n b peer = some r) :
    PoolRun c carried n r.1 := by
  obtain ⟨-, rfl⟩ | ⟨-, known, _, chain, newly, pool, hknown, -, -, -, hevict, rfl⟩ :=
    handleBlock_cases h
  · exact .refl
  · have hids : (b.txs.list.map Transaction.txId).foldlM TxIdSet.insert n.knownTxs = some known := by
      rw [List.foldlM_map]
      exact hknown
    have hlearns : Learns carried n.knownTxs known := learns_foldlM_insert (fun t ht => by
      obtain ⟨tx, htx, rfl⟩ := List.mem_map.mp ht
      exact htxs tx htx) hids
    exact .single (.sheds (sheds_evictBlocks hevict) hlearns rfl)

theorem poolRun_mineBlock {pick : ℕ → ℕ × ℕ} {store : BlockBodyStore}
    {r : BlockBodyStore × Node × Sends} (h : mineBlock c now pick store n = some r) :
    PoolRun c carried n r.2.1 := by
  obtain ⟨chain, -, rfl⟩ := mineBlock_cases h
  exact .single (.sheds (sheds_selectTransactions pick n.mempool) (.refl carried _) rfl)

/-! ## the invariant -/

/-- **The guards of the pool**, and what the node knows of its own
transactions. -/
structure PoolInv (c : Config) (n : Node) : Prop where
  pool : n.mempool.Guarded c.hashFun c.mempoolSize
  known : ∀ t, n.mempool.Contains t → n.knownTxs.contains t = true
  fresh : ∀ t, n.knownTxs.contains t = true → idFromTxId t = c.id → seqOfTxId t < n.txsGenerated

/-- The node has generated what it is said to have generated. -/
def OwnGenerated (c : Config) (n : Node) (carried : ℕ → Prop) : Prop :=
  ∀ t, carried t → idFromTxId t = c.id → seqOfTxId t < n.txsGenerated

theorem poolInv_init (c : Config) : PoolInv c (init c) where
  pool := Mempool.guarded_init c.mempoolSize_pos
  known t ht := absurd ht (Mempool.not_contains_init _ t)
  fresh t ht := by
    rw [init, TxIdSet.contains_eq] at ht
    exact absurd ht Bool.false_ne_true

/-- Pooling `t`, which becomes known. -/
theorem PoolInv.insert (h : PoolInv c n) {t fee : ℕ} (hunknown : n.knownTxs.contains t = false)
    (hins : n.knownTxs.insert t = some n'.knownTxs) (hroom : n.mempool.size < c.mempoolSize)
    (hpool : n'.mempool = n.mempool.insert c.hashFun (idFromTxId t) t fee)
    (hle : n.txsGenerated ≤ n'.txsGenerated)
    (hown : idFromTxId t = c.id → seqOfTxId t < n'.txsGenerated) :
    PoolInv c n' ∧ ∀ u, n.knownTxs.contains u = true → ¬ n.mempool.Contains u →
      ¬ n'.mempool.Contains u := by
  have hnew : ¬ n.mempool.Contains t := fun ht =>
    Bool.false_ne_true (hunknown.symm.trans (h.known t ht))
  have hcont : ∀ u, n'.mempool.Contains u ↔ n.mempool.Contains u ∨ u = t := fun u => by
    rw [hpool, h.pool.wf.contains_insert]
  refine ⟨⟨?_, fun u hu => ?_, fun u hu hid => ?_⟩, fun u hu hout hin => ?_⟩
  · exact hpool ▸ h.pool.insert hroom hnew fee
  · obtain hu | rfl := (hcont u).mp hu
    · exact TxIdSet.contains_of_insert hins (h.known u hu)
    · exact TxIdSet.contains_insert_self hins
  · obtain ⟨hid', hseq⟩ | hu := (TxIdSet.contains_insert hins u).mp hu
    · exact hseq ▸ hown (hid' ▸ hid)
    · exact (h.fresh u hu hid).trans_le hle
  · obtain hin | rfl := (hcont u).mp hin
    · exact hout hin
    · exact Bool.false_ne_true (hunknown.symm.trans hu)

/-- **One step** keeps the guards, and pools nothing that was known and not
pooled. -/
theorem PoolStep.inv (hstep : PoolStep c carried n n') (h : PoolInv c n)
    (hown : OwnGenerated c n carried) :
    PoolInv c n' ∧ n.txsGenerated ≤ n'.txsGenerated ∧
      ∀ u, n.knownTxs.contains u = true → n'.knownTxs.contains u = true ∧
        (¬ n.mempool.Contains u → ¬ n'.mempool.Contains u) := by
  cases hstep with
  | sheds hsheds hlearns hgen =>
      obtain ⟨hpool, hsub⟩ := h.pool.sheds hsheds
      refine ⟨⟨hpool, fun t ht => hlearns.old t (h.known t (hsub t ht)), fun t ht hid => ?_⟩,
        hgen.ge, fun u hu => ⟨hlearns.old u hu, fun hout hin => hout (hsub u hin)⟩⟩
      rw [hgen]
      obtain ht | ⟨t', ht', hid', hseq⟩ := hlearns.new t ht
      · exact h.fresh t ht hid
      · exact hseq ▸ hown t' ht' (hid' ▸ hid)
  | accepts ht hunknown hins hroom hpool hgen =>
      obtain ⟨hinv, hkept⟩ := h.insert hunknown hins hroom hpool hgen.ge (hgen ▸ hown _ ht)
      exact ⟨hinv, hgen.ge, fun u hu => ⟨TxIdSet.contains_of_insert hins hu, hkept u hu⟩⟩
  | generates hlt hins hroom hpool hgen =>
      have hlt : n.txsGenerated < 2 ^ 32 := by omega
      have hid := idFromTxId_nextTxId (c := c) hlt
      have hseq := seqOfTxId_nextTxId (c := c) hlt
      have hle : n.txsGenerated ≤ n'.txsGenerated := hgen ▸ Nat.le_succ _
      -- its own ids that are known have been given out before
      have hunknown : n.knownTxs.contains (nextTxId c n) = false :=
        Bool.eq_false_iff.mpr fun hknown => (h.fresh _ hknown hid).ne hseq
      rw [← hid] at hpool
      obtain ⟨hinv, hkept⟩ := h.insert hunknown hins hroom hpool hle
        fun _ => by rw [hseq, hgen]; exact Nat.lt_succ_self _
      exact ⟨hinv, hle, fun u hu => ⟨TxIdSet.contains_of_insert hins hu, hkept u hu⟩⟩

/-- **Any number of steps.** -/
theorem PoolRun.inv (hrun : PoolRun c carried n n') (h : PoolInv c n)
    (hown : OwnGenerated c n carried) :
    PoolInv c n' ∧ n.txsGenerated ≤ n'.txsGenerated ∧
      ∀ u, n.knownTxs.contains u = true → n'.knownTxs.contains u = true ∧
        (¬ n.mempool.Contains u → ¬ n'.mempool.Contains u) := by
  induction hrun with
  | refl => exact ⟨h, le_rfl, fun u hu => ⟨hu, fun hout => hout⟩⟩
  | tail _ hstep ih =>
      obtain ⟨hmid, hle, hkept⟩ := ih
      obtain ⟨hinv, hle', hkept'⟩ := hstep.inv hmid fun t ht hid => (hown t ht hid).trans_le hle
      refine ⟨hinv, hle.trans hle', fun u hu => ?_⟩
      obtain ⟨hu₁, hout₁⟩ := hkept u hu
      obtain ⟨hu₂, hout₂⟩ := hkept' u hu₁
      exact ⟨hu₂, fun hout => hout₂ (hout₁ hout)⟩

end Node

end GhostDag
