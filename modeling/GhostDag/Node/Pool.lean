import GhostDag.Node.Handlers

/-!
# GhostDag.Node.Pool

What the handlers do to the transaction pool: eviction takes out exactly the
transactions of the listed blocks (`exists_evictBlocks`), and selection moves
transactions from the pool into the block (`selects_selectTransactions`).
-/

namespace GhostDag

open Std (ExtTreeMap ExtTreeSet)
open Containers

namespace Node

variable {hashFun : String → ℕ} {p : Mempool} {c : Config}

/-! ## eviction -/

theorem wf_evict (h : p.Wf hashFun) (tx : Transaction) : (evict hashFun p tx).Wf hashFun := by
  unfold evict
  split
  · next it hit => exact h.erase (Mempool.stores_of_find hit).1
  · exact h

theorem contains_evict (h : p.Wf hashFun) (tx : Transaction) (u : ℕ) :
    (evict hashFun p tx).Contains u ↔ p.Contains u ∧ u ≠ tx.txId := by
  unfold evict
  split
  · next it hit =>
      obtain ⟨hst, hid⟩ := Mempool.stores_of_find hit
      rw [h.contains_erase hst, hid]
  · next hnone =>
      have hno := h.find_eq_none_iff.mp hnone
      refine ⟨fun hu => ⟨hu, ?_⟩, fun hu => hu.1⟩
      rintro rfl
      exact hno hu

theorem foldl_evict (h : p.Wf hashFun) (txs : List Transaction) :
    (txs.foldl (evict hashFun) p).Wf hashFun ∧
      ∀ u, (txs.foldl (evict hashFun) p).Contains u ↔
        p.Contains u ∧ ∀ tx ∈ txs, u ≠ tx.txId := by
  induction txs generalizing p with
  | nil => exact ⟨h, fun u => by simp⟩
  | cons tx txs ih =>
      obtain ⟨hwf, hmem⟩ := ih (wf_evict h tx)
      refine ⟨hwf, fun u => ?_⟩
      rw [List.foldl_cons, hmem, contains_evict h, and_assoc, List.forall_mem_cons]

/-- **Eviction** leaves what is in none of the listed blocks. -/
theorem exists_evictBlocks (s : Blockchain) {ids : List ℕ} (hids : ∀ id ∈ ids, id ∈ s.blocks)
    (h : p.Wf hashFun) :
    ∃ p', evictBlocks hashFun s ids p = some p' ∧ p'.Wf hashFun ∧
      ∀ u, p'.Contains u ↔ p.Contains u ∧ ∀ id ∈ ids, ∀ b, s.blocks[id]? = some b →
        ∀ tx ∈ b.txs.list, u ≠ tx.txId := by
  induction ids generalizing p with
  | nil => exact ⟨p, rfl, h, fun u => by simp⟩
  | cons id ids ih =>
      obtain ⟨b, hb⟩ := mem_iff_exists.mp (hids id List.mem_cons_self)
      obtain ⟨hwf, hmem⟩ := foldl_evict h b.txs.list
      obtain ⟨p', hrun, hwf', hmem'⟩ := ih (fun x hx => hids x (List.mem_cons_of_mem id hx)) hwf
      refine ⟨p', ?_, hwf', fun u => ?_⟩
      · rw [evictBlocks, List.foldlM_cons, hb]
        exact hrun
      · rw [hmem', hmem, and_assoc, List.forall_mem_cons]
        simp only [hb, Option.some.injEq, forall_eq']

/-! ## selection -/

/-- Selecting `txs` out of `p` leaves `p'`. -/
structure Selects (hashFun : String → ℕ) (p : Mempool) (txs : TxSet) (p' : Mempool) : Prop where
  keyed : txs.Keyed
  wf : p'.Wf hashFun
  pooled : ∀ u ∈ txs, p.Contains u
  contains_iff : ∀ u, p'.Contains u ↔ p.Contains u ∧ u ∉ txs

theorem Selects.refl (h : p.Wf hashFun) : Selects hashFun p ∅ p where
  keyed := TxSet.keyed_empty
  wf := h
  pooled u hu := by simp at hu
  contains_iff u := by simp

theorem stores_of_nextTransaction {pick : ℕ × ℕ} {it : HtabIterator}
    (h : nextTransaction c p pick = some it) : p.Stores it.index it.item := by
  unfold nextTransaction at h
  split at h
  · exact Mempool.stores_of_getRandomTransaction h
  · exact Mempool.stores_of_getSortedTransactionDescending h

/-- One transaction more. -/
theorem Selects.selectOne {txs : TxSet} {p' : Mempool} (h : Selects c.hashFun p txs p')
    (pick : ℕ → ℕ × ℕ) (i : ℕ) :
    Selects c.hashFun p (selectOne c pick (txs, p') i).1 (selectOne c pick (txs, p') i).2 := by
  unfold Node.selectOne
  split
  · next it hit =>
      have hst := stores_of_nextTransaction hit
      have hcont : p'.Contains it.item.txId := ⟨_, _, hst, rfl⟩
      have hmem : ∀ u, u ∈ txs.add ⟨it.item.txId, 522, it.item.fee⟩ ↔
          u = it.item.txId ∨ u ∈ txs := by
        intro u
        rw [TxSet.add, ExtTreeMap.mem_insertIfNew, Std.compare_eq_iff_eq, eq_comm]
      constructor
      case keyed => exact h.keyed.add _
      case wf => exact h.wf.erase hst
      case pooled =>
        intro u hu
        obtain rfl | hu := (hmem u).mp hu
        · exact ((h.contains_iff _).mp hcont).1
        · exact h.pooled u hu
      case contains_iff =>
        intro u
        rw [h.wf.contains_erase hst, h.contains_iff, hmem]
        tauto
  · exact h

/-- **What `SelectTransactions` returns** has left the pool, and nothing else
has. -/
theorem selects_selectTransactions (h : p.Wf c.hashFun) (pick : ℕ → ℕ × ℕ) :
    Selects c.hashFun p (selectTransactions c pick p).1 (selectTransactions c pick p).2 := by
  unfold selectTransactions
  split
  · exact .refl h
  · have hgen : ∀ (l : List ℕ) (st : TxSet × Mempool), Selects c.hashFun p st.1 st.2 →
        Selects c.hashFun p (l.foldl (selectOne c pick) st).1
          (l.foldl (selectOne c pick) st).2 := by
      intro l
      induction l with
      | nil => exact fun st hst => hst
      | cons i l ih => exact fun st hst => ih _ (hst.selectOne pick i)
    exact hgen _ _ (.refl h)

end Node

end GhostDag
