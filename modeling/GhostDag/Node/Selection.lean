import GhostDag.Node.Pool
import GhostDag.Node.PoolIndex
import GhostDag.Node.PoolSteps
import GhostDag.Node.Wire

/-!
# GhostDag.Node.Selection

What random probing and `SelectTransactions` take out of the pool.

Probing finds an item in every pool that has one (`probing_complete`).  So
each round of `SelectTransactions` moves one transaction, and the selection
and the rest of the pool make up the old pool (`selectTransactions_conserves`).
-/

namespace GhostDag

open Std (ExtTreeMap ExtTreeSet)
open Containers

namespace Mempool

variable {hashFun : String → ℕ} {p : Mempool}

/-! ## random probing -/

/-- **Probing finds an item** in a pool that is not empty. -/
theorem Linked.exists_getRandomTransaction (h : Linked hashFun p) (hn : p.arrSize < 2 ^ 31)
    (hne : p.contents ≠ 0) (index j : ℕ) :
    ∃ it, p.getRandomTransaction index j = some it ∧ p.Stores it.index it.item := by
  cases hfound : p.getRandomTransaction index j with
  | some it => exact ⟨it, rfl, stores_of_getRandomTransaction hfound⟩
  | none =>
      rw [getRandomTransaction_eq] at hfound
      refine absurd (h.contents_eq_zero fun k hk => ?_) hne
      exact bucket_eq_nil_of_findSome? hfound k ((mem_probes_iff h.arrSize_pos hn _ k).mpr hk)

/-- **Random probing never misses**: the loops search the buckets that `probes`
and `eraseProbes` list, and each of these indices is one of the table. -/
theorem probing_complete {n : ℕ} (hn : 1 ≤ n) (hn' : n < 2 ^ 31) {calls : List Call}
    (hrun : run hashFun (init n) calls = some p) :
    (∀ index j, 0 < p.itemCount →
      ∃ it, p.getRandomTransaction index j = some it ∧ p.Stores it.index it.item) ∧
    (∀ index j, p.getRandomTransaction index j = none → p.itemCount = 0) ∧
    (∀ index j, p.itemCount = 0 → p.getRandomTransaction index j = none) ∧
    (∀ draw size, size < 2 ^ 31 → ∃ removed, removed.card = min size p.itemCount ∧
      p.contents = removed + (p.eraseRandomTransactions draw size).contents ∧
      (p.eraseRandomTransactions draw size).itemCount = p.itemCount - min size p.itemCount) ∧
    (∀ index, ∀ i ∈ p.probes index, i < n) ∧
    (∀ draw round index,
      ∀ i ∈ (p.eraseRandomTransactions draw round).eraseProbes index, i < n) ∧
    (∀ draw round, (p.eraseRandomTransactions draw round).htabItems.length = n) ∧
    (∀ index j, p.getRandomTransaction index j = (p.probes index).findSome? (p.pickIn · j)) ∧
    ∀ draw size, p.eraseRandomTransactions draw size =
      (List.range (intRounds size)).foldl (fun p i =>
        p.eraseFound ((p.eraseProbes (draw i).1).findSome? (p.pickIn · (draw i).2))) p := by
  obtain ⟨h, harr⟩ := (linked_init hn).run hn' hrun
  have harr : p.arrSize = n := harr
  have hlt : p.arrSize < 2 ^ 31 := harr ▸ hn'
  have hcount := h.card_contents
  have hfinds : ∀ index j, 0 < p.itemCount →
      ∃ it, p.getRandomTransaction index j = some it ∧ p.Stores it.index it.item := by
    intro index j hpos
    exact h.exists_getRandomTransaction hlt (Multiset.card_pos.mp (hcount ▸ hpos)) index j
  refine ⟨hfinds, fun index j hnone => ?_, fun index j hzero => ?_, fun draw size hsize => ?_,
    fun index i hi => ?_, fun draw round index i hi => ?_, fun draw round => ?_,
    getRandomTransaction_eq p,
    fun draw size => by simp only [eraseRandomTransactions, eraseRandom_eq]⟩
  · by_contra hpos
    obtain ⟨it, hit, -⟩ := hfinds index j (Nat.pos_of_ne_zero hpos)
    exact Option.some_ne_none it (hit.symm.trans hnone)
  · rw [Option.eq_none_iff_forall_ne_some]
    intro it hit
    have hmem := mem_contents.mpr ⟨_, _, stores_of_getRandomTransaction hit, rfl⟩
    rw [Multiset.card_eq_zero.mp (hcount.trans hzero)] at hmem
    exact Multiset.notMem_zero _ hmem
  · obtain ⟨hlinked, removed, hlose⟩ := h.eraseRandomTransactions hlt draw size
    have hcard := hlose.card_removed
    rw [intRounds, if_pos hsize, hcount] at hcard
    have hsum := congrArg Multiset.card hlose.contents_eq
    rw [Multiset.card_add, hcard, hcount, hlinked.card_contents] at hsum
    exact ⟨removed, hcard, hlose.contents_eq, by omega⟩
  · exact harr ▸ (mem_probes_iff h.arrSize_pos hlt index i).mp hi
  · obtain ⟨hlinked, removed, hlose⟩ := h.eraseRandomTransactions hlt draw round
    have harr' := hlose.arrSize.trans harr
    exact harr' ▸ (mem_eraseProbes_iff hlinked.arrSize_pos (harr' ▸ hn') index i).mp hi
  · obtain ⟨hlinked, removed, hlose⟩ := h.eraseRandomTransactions hlt draw round
    exact hlinked.length.trans (hlose.arrSize.trans harr)

/-- Three buckets, one item. -/
theorem probing_complete_one :
    ∃ p, run String.length (init 3) [.insert 1 100 50] = some p ∧
      ∃ it, p.getRandomTransaction 2 7 = some it ∧ p.Stores it.index it.item := by
  refine ⟨_, rfl, ?_⟩
  have hcomplete := @probing_complete String.length _ 3 (by decide) (by decide)
    [.insert 1 100 50] rfl
  exact hcomplete.1 2 7 (by decide)

end Mempool

/-! ## SelectTransactions -/

namespace TxSet

theorem nodup_list {txs : TxSet} (h : txs.Keyed) : txs.list.Nodup := by
  refine List.Nodup.of_map Transaction.txId ?_
  have hkeys : txs.list.map Transaction.txId = txs.keys := by
    rw [list, List.map_map, ← ExtTreeMap.map_fst_toList_eq_keys]
    refine List.map_congr_left fun entry hentry => ?_
    exact h entry.1 entry.2 (mem_toList.mp hentry)
  rw [hkeys]
  exact nodup_of_pairwise_lt (pairwise_keys txs)

/-- A transaction with a new id is one more. -/
theorem list_add_perm {txs : TxSet} (h : txs.Keyed) {tx : Transaction} (hnew : tx.txId ∉ txs) :
    (txs.add tx).list.Perm (tx :: txs.list) := by
  have hnot : tx ∉ txs.list := fun hmem => hnew (mem_of_getElem? (h.mem_list_iff.mp hmem))
  refine (List.perm_ext_iff_of_nodup (nodup_list (h.add tx))
    (List.nodup_cons.mpr ⟨hnot, nodup_list h⟩)).mpr fun y => ?_
  rw [(h.add tx).mem_list_iff, List.mem_cons, h.mem_list_iff, getElem?_add]
  by_cases hid : tx.txId = y.txId
  · have hnone : txs[y.txId]? = none := getElem?_eq_none_of_notMem (hid ▸ hnew)
    rw [if_pos ⟨hid, hnew⟩, hnone, Option.some_inj]
    simp [eq_comm]
  · rw [if_neg fun hyes => hid hyes.1]
    refine (or_iff_right ?_).symm
    rintro rfl
    exact hid rfl

end TxSet

/-- A pooled transaction as `SelectTransactions` puts it into a block. -/
def PoolEntry.transaction (e : PoolEntry) : Transaction :=
  { txId := e.txId, sizeBytes := 522, fee := e.fee }

namespace Node

open Mempool (Linked)

variable {c : Config} {p : Mempool} {taken : Multiset PoolEntry} {st : TxSet × Mempool}

/-- Selection has taken `taken` out of `p`, and is at the selection and the
pool `st`. -/
structure Taken (c : Config) (p : Mempool) (taken : Multiset PoolEntry) (st : TxSet × Mempool) :
    Prop where
  linked : Linked c.hashFun st.2
  arrSize : st.2.arrSize = p.arrSize
  contents : p.contents = taken + st.2.contents
  keyed : st.1.Keyed
  list : (st.1.list : Multiset Transaction) = taken.map PoolEntry.transaction
  fee_le : c.txSelectionStrategy ≠ 0 → ∀ t ∈ taken, ∀ e ∈ st.2.contents, e.fee ≤ t.fee

theorem Taken.start (h : Linked c.hashFun p) : Taken c p 0 (∅, p) where
  linked := h
  arrSize := rfl
  contents := (zero_add _).symm
  keyed := TxSet.keyed_empty
  list := rfl
  fee_le _ t ht := absurd ht (Multiset.notMem_zero t)

/-- Something is left unless all is taken. -/
theorem Taken.contents_ne_zero (h : Taken c p taken st) (hlt : taken.card < p.contents.card) :
    st.2.contents ≠ 0 := by
  intro hnone
  rw [h.contents, hnone, add_zero] at hlt
  exact lt_irrefl _ hlt

/-- Both strategies find a transaction, the rational one one of maximal fee. -/
theorem exists_nextTransaction (h : Linked c.hashFun p) (hn : p.arrSize < 2 ^ 31)
    (hne : p.contents ≠ 0) (pick : ℕ × ℕ) :
    ∃ it, nextTransaction c p pick = some it ∧ p.Stores it.index it.item ∧
      (c.txSelectionStrategy ≠ 0 → ∀ e ∈ p.contents, e.fee ≤ it.item.fee) := by
  unfold nextTransaction
  split
  · next hrandom =>
      obtain ⟨it, hit, hst⟩ := h.exists_getRandomTransaction hn hne pick.1 pick.2
      exact ⟨it, hit, hst, fun hrational => absurd hrandom hrational⟩
  · obtain ⟨it, hit, hst, hmax⟩ := h.getSortedTransactionDescending hne
    exact ⟨it, hit, hst, fun _ => hmax⟩

/-- **One round** moves one transaction. -/
theorem Taken.selectOne (h : Taken c p taken st) (hn : p.arrSize < 2 ^ 31)
    (hids : (p.contents.map PoolEntry.txId).Nodup) (hne : st.2.contents ≠ 0) (pick : ℕ → ℕ × ℕ)
    (i : ℕ) : ∃ e, Taken c p (e ::ₘ taken) (selectOne c pick st i) := by
  obtain ⟨it, hit, hst, hmax⟩ := exists_nextTransaction h.linked (h.arrSize ▸ hn) hne (pick i)
  have d := h.linked.drops_eraseTransaction hst
  have hrest : st.2.contents = it.item.entry ::ₘ (st.2.eraseTransaction it).contents :=
    d.contents_eq
  refine ⟨it.item.entry, ?_⟩
  have hnew : it.item.txId ∉ st.1 := by
    intro hmem
    obtain ⟨tx, htx⟩ := mem_iff_exists.mp hmem
    have hlist : tx ∈ (st.1.list : Multiset Transaction) :=
      Multiset.mem_coe.mpr (TxSet.mem_list.mpr ⟨_, htx⟩)
    rw [h.list, Multiset.mem_map] at hlist
    obtain ⟨e, he, rfl⟩ := hlist
    rw [h.contents, hrest, Multiset.map_add, Multiset.map_cons] at hids
    refine Multiset.disjoint_left.mp (Multiset.nodup_add.mp hids).2.2
      (Multiset.mem_map_of_mem PoolEntry.txId he) ?_
    rw [show e.txId = it.item.txId from h.keyed _ _ htx]
    exact Multiset.mem_cons_self _ _
  rw [Node.selectOne, hit]
  constructor
  case linked => exact d.linked h.linked
  case arrSize => exact h.arrSize
  case contents => rw [h.contents, hrest, Multiset.add_cons, Multiset.cons_add]
  case keyed => exact h.keyed.add _
  case list =>
    rw [Multiset.map_cons, ← h.list, Multiset.cons_coe, Multiset.coe_eq_coe]
    exact TxSet.list_add_perm h.keyed hnew
  case fee_le =>
    intro hrational t ht e he
    have he' : e ∈ st.2.contents := hrest ▸ Multiset.mem_cons_of_mem he
    obtain rfl | ht := Multiset.mem_cons.mp ht
    · exact hmax hrational e he'
    · exact h.fee_le hrational t ht e he'

/-- The selection and the pool after some rounds. -/
def selecting (c : Config) (pick : ℕ → ℕ × ℕ) (p : Mempool) (rounds : ℕ) : TxSet × Mempool :=
  (List.range rounds).foldl (selectOne c pick) (∅, p)

/-- **As many rounds as there are transactions** move one each. -/
theorem exists_taken_selecting (h : Linked c.hashFun p) (hn : p.arrSize < 2 ^ 31)
    (hids : (p.contents.map PoolEntry.txId).Nodup) (pick : ℕ → ℕ × ℕ) {rounds : ℕ}
    (hrounds : rounds ≤ p.contents.card) :
    ∃ taken, taken.card = rounds ∧ Taken c p taken (selecting c pick p rounds) := by
  induction rounds with
  | zero => exact ⟨0, Multiset.card_zero, .start h⟩
  | succ rounds ih =>
      obtain ⟨taken, hcard, htaken⟩ := ih (by omega)
      have hne : (selecting c pick p rounds).2.contents ≠ 0 :=
        htaken.contents_ne_zero (hcard.trans_lt hrounds)
      obtain ⟨e, hstep⟩ := htaken.selectOne hn hids hne pick rounds
      refine ⟨e ::ₘ taken, by rw [Multiset.card_cons, hcard], ?_⟩
      rw [selecting, List.range_succ, List.foldl_append]
      exact hstep

/-- A round of the loop, without a result where the rational strategy reads
`rbegin()` of an empty multimap or an iterator of no bucket. -/
def readOne (c : Config) (pick : ℕ → ℕ × ℕ) (st : TxSet × Mempool) (i : ℕ) :
    Option (TxSet × Mempool) :=
  if c.txSelectionStrategy ≠ 0 ∧ st.2.getSortedTransactionDescending.isNone then none
  else some (selectOne c pick st i)

theorem readOne_eq {pick : ℕ → ℕ × ℕ} {i : ℕ} (h : (nextTransaction c st.2 (pick i)).isSome) :
    readOne c pick st i = some (selectOne c pick st i) := by
  refine if_neg fun hread => ?_
  rw [nextTransaction, if_neg hread.1, Option.isNone_iff_eq_none.mp hread.2] at h
  exact Bool.false_ne_true h

/-- Rounds that all find a transaction read nothing else. -/
theorem foldlM_readOne {pick : ℕ → ℕ × ℕ} {rounds : ℕ}
    (h : ∀ i < rounds, (nextTransaction c (selecting c pick p i).2 (pick i)).isSome) :
    (List.range rounds).foldlM (readOne c pick) (∅, p) = some (selecting c pick p rounds) := by
  induction rounds with
  | zero => rfl
  | succ rounds ih =>
      have hround : readOne c pick (selecting c pick p rounds) rounds =
          some (selecting c pick p (rounds + 1)) := by
        rw [readOne_eq (h rounds (Nat.lt_succ_self _)), selecting, selecting, List.range_succ,
          List.foldl_append]
        rfl
      rw [List.range_succ, List.foldlM_append, ih fun i hi => h i (hi.trans (Nat.lt_succ_self _))]
      change (readOne c pick (selecting c pick p rounds) rounds >>= pure) = _
      rw [hround]
      rfl

theorem bmod_natCast_le (x m : ℕ) : Int.bmod x m ≤ x := by
  have hle : (x : ℤ) % m ≤ x := by exact_mod_cast Nat.mod_le x m
  rw [Int.bmod_def]
  split <;> omega

theorem bmod_natCast_of_lt {x m : ℕ} (h : 2 * x < m) : Int.bmod x m = x :=
  Int.bmod_eq_of_le (by omega) (by omega)

/-- The conversion to `int` never makes the size larger. -/
theorem toSelect_le (c : Config) (p : Mempool) : (toSelect c p).toNat ≤ p.size := by
  have hle : toSelect c p ≤ p.size := (min_le_right _ _).trans (bmod_natCast_le _ _)
  omega

theorem toSelect_of_lt (hsize : p.size < 2 ^ 31) :
    (toSelect c p).toNat = min (max c.txsPerBlock 0).toNat p.size := by
  have hfits : 2 * p.size < 2 ^ 32 := by omega
  have hselect : toSelect c p = min c.txsPerBlock p.size :=
    congrArg (min c.txsPerBlock) (bmod_natCast_of_lt hfits)
  omega

/-- The rounds that `SelectTransactions` makes. -/
def selectionRounds (c : Config) (p : Mempool) : ℕ :=
  if c.txsPerBlock ≤ 0 ∨ p.size = 0 then 0 else (toSelect c p).toNat

theorem selectTransactions_eq (c : Config) (pick : ℕ → ℕ × ℕ) (p : Mempool) :
    selectTransactions c pick p = selecting c pick p (selectionRounds c p) := by
  rw [selectTransactions, selectionRounds]
  split <;> rfl

theorem selectionRounds_le (c : Config) (p : Mempool) : selectionRounds c p ≤ p.size := by
  rw [selectionRounds]
  split
  · exact Nat.zero_le _
  · exact toSelect_le c p

theorem selectionRounds_of_lt (hsize : p.size < 2 ^ 31) :
    selectionRounds c p = min (max c.txsPerBlock 0).toNat p.size := by
  rw [selectionRounds]
  split
  · omega
  · exact toSelect_of_lt hsize

/-- **`SelectTransactions` conserves the mempool.**  The selected transactions,
as many as asked for and there are, and what is pooled afterwards make up the
old pool; no round finds the pool empty, so the loop that reads it gives this
result; and the rational strategy leaves no higher fee behind. -/
theorem selectTransactions_conserves {n : ℕ} (hn : 1 ≤ n) (hn' : n < 2 ^ 31)
    {calls : List Mempool.Call} (hrun : Mempool.run c.hashFun (Mempool.init n) calls = some p)
    (hids : (p.contents.map PoolEntry.txId).Nodup) (pick : ℕ → ℕ × ℕ) :
    ∃ taken : Multiset PoolEntry,
      ((selectTransactions c pick p).1.list : Multiset Transaction) =
        taken.map PoolEntry.transaction ∧
      p.contents = taken + (selectTransactions c pick p).2.contents ∧
      (selectTransactions c pick p).2.Linked c.hashFun ∧
      (p.size < 2 ^ 31 → (selectTransactions c pick p).1.list.length =
        min (max c.txsPerBlock 0).toNat p.size) ∧
      (∀ i < selectionRounds c p, (selecting c pick p i).2.multimapItems ≠ [] ∧
        (nextTransaction c (selecting c pick p i).2 (pick i)).isSome) ∧
      (List.range (selectionRounds c p)).foldlM (readOne c pick) (∅, p) =
        some (selectTransactions c pick p) ∧
      (c.txSelectionStrategy ≠ 0 → ∀ tx ∈ (selectTransactions c pick p).1.list,
        ∀ e ∈ (selectTransactions c pick p).2.contents, e.fee ≤ tx.fee) := by
  obtain ⟨h, harr⟩ := (Mempool.linked_init hn).run hn' hrun
  have hlt : p.arrSize < 2 ^ 31 := harr.trans_lt hn'
  have hle : selectionRounds c p ≤ p.contents.card := h.card_contents ▸ selectionRounds_le c p
  obtain ⟨taken, hcard, htaken⟩ := exists_taken_selecting h hlt hids pick hle
  have hfinds : ∀ i < selectionRounds c p, (selecting c pick p i).2.multimapItems ≠ [] ∧
      (nextTransaction c (selecting c pick p i).2 (pick i)).isSome := by
    intro i hi
    obtain ⟨before, hbefore, hst⟩ := exists_taken_selecting h hlt hids pick (hi.le.trans hle)
    have hne : (selecting c pick p i).2.contents ≠ 0 :=
      hst.contents_ne_zero (hbefore.trans_lt (hi.trans_le hle))
    obtain ⟨it, hit, -⟩ := exists_nextTransaction hst.linked (hst.arrSize ▸ hlt) hne (pick i)
    exact ⟨hst.linked.multimapItems_ne_nil hne, hit ▸ rfl⟩
  rw [selectTransactions_eq]
  refine ⟨taken, htaken.list, htaken.contents, htaken.linked, fun hsize => ?_, hfinds,
    foldlM_readOne fun i hi => (hfinds i hi).2, fun hrational tx htx e he => ?_⟩
  · rw [← Multiset.coe_card, htaken.list, Multiset.card_map, hcard, selectionRounds_of_lt hsize]
  · have hmem : tx ∈ ((selecting c pick p (selectionRounds c p)).1.list : Multiset Transaction) := htx
    rw [htaken.list, Multiset.mem_map] at hmem
    obtain ⟨t, ht, rfl⟩ := hmem
    exact htaken.fee_le hrational t ht e he

/-- A miner of the two highest fees. -/
def twoHighest : Config where
  id := 6
  id_lt := by decide
  ghostdagK := 1
  mempoolSize := 4
  mempoolSize_pos := by decide
  mempoolSize_lt := by decide
  txsPerBlock := 2
  txSelectionStrategy := 1
  peersAddresses := [1]
  invTimeout := 1200
  hashFun := String.length

/-- Three pooled transactions. -/
theorem selectTransactions_conserves_three :
    ∃ p, Mempool.run twoHighest.hashFun (Mempool.init 4)
        [.insert 1 100 5, .insert 1 101 9, .insert 2 102 7] = some p ∧
      (selectTransactions twoHighest (fun _ => (0, 0)) p).1.list.length = 2 := by
  refine ⟨_, rfl, ?_⟩
  obtain ⟨taken, -, -, -, hlength, -⟩ := @selectTransactions_conserves twoHighest _ 4 (by decide)
    (by decide) [.insert 1 100 5, .insert 1 101 9, .insert 2 102 7] rfl (by decide) fun _ => (0, 0)
  exact hlength (by decide)

/-- The pool of a node never grows past that. -/
theorem PoolInv.selectionRounds_eq {n : Node} (h : PoolInv c n) :
    selectionRounds c n.mempool = min (max c.txsPerBlock 0).toNat n.mempool.size :=
  selectionRounds_of_lt (h.pool.size_le.trans_lt c.mempoolSize_lt)

end Node

end GhostDag
