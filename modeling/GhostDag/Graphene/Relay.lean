import GhostDag.Graphene.Decoding

/-!
# GhostDag.Graphene.Relay

The first protocol of Graphene against full relay.

As long as the tests of the difference table are truthful, reconstruction
ends, and when the listing succeeds the receiver hands on the block that the
full message would have given (`protocol1_agrees`).
-/

namespace GhostDag

open Std (ExtTreeSet)
open Containers

/-! ## blocks with the same ids -/

namespace TxSet

theorem txChecksum_eq (txs : TxSet) :
    txChecksum txs = GrapheneProtocol.idChecksum (GrapheneProtocol.txIdsFromBlock txs) := by
  rw [txChecksum, GrapheneProtocol.idChecksum, GrapheneProtocol.txIdsFromBlock, List.foldl_map]

theorem size_eq_length (txs : TxSet) :
    txs.size = (GrapheneProtocol.txIdsFromBlock txs).length := by
  rw [GrapheneProtocol.txIdsFromBlock, TxSet.list, List.length_map, List.length_map,
    Std.ExtTreeMap.length_toList]

theorem idSet_ofList (l : List Transaction) :
    (ofList l).idSet = (l.map Transaction.txId).toFinset := by
  ext x
  rw [idSet, List.mem_toFinset, List.mem_toFinset, List.mem_map, List.mem_map]
  have hget : ∀ t : ℕ, (ofList l)[t]? = l.find? fun tx => tx.txId = t := by
    intro t
    rw [ofList, getElem?_foldl_add]
    simp
  constructor
  · rintro ⟨tx, htx, rfl⟩
    rw [mem_list] at htx
    obtain ⟨t, ht⟩ := htx
    rw [hget] at ht
    exact ⟨tx, List.mem_of_find?_eq_some ht, rfl⟩
  · rintro ⟨tx, htx, rfl⟩
    obtain ⟨y, hy⟩ : ∃ y, (l.find? fun tx' => tx'.txId = tx.txId) = some y := by
      rw [← Option.isSome_iff_exists, List.find?_isSome]
      exact ⟨tx, htx, by simp⟩
    have hyid : y.txId = tx.txId := by simpa using List.find?_some hy
    exact ⟨y, mem_list.mpr ⟨tx.txId, (hget _).trans hy⟩, hyid⟩

/-- Blocks of the same ids list them alike. -/
theorem Keyed.txIds_congr {txs txs' : TxSet} (h : txs.Keyed) (h' : txs'.Keyed)
    (hids : txs.idSet = txs'.idSet) :
    GrapheneProtocol.txIdsFromBlock txs = GrapheneProtocol.txIdsFromBlock txs' := by
  refine eq_of_pairwise_lt h.pairwise_txIds h'.pairwise_txIds fun x => ?_
  have := Finset.ext_iff.mp hids x
  rwa [idSet, idSet, List.mem_toFinset, List.mem_toFinset] at this

/-- The body table cannot tell such blocks apart. -/
theorem Keyed.alike {txs txs' : TxSet} (h : txs.Keyed) (h' : txs'.Keyed)
    (hids : txs.idSet = txs'.idSet) : BlockBodyStore.Alike txs txs' := by
  have hlist := h.txIds_congr h' hids
  constructor
  · rw [size_eq_length, size_eq_length, hlist]
  · rw [txChecksum_eq, txChecksum_eq, hlist]

end TxSet

/-- Nor does it give them bodies of different ids. -/
theorem BlockBodyStore.idSet_intern_congr (table : BlockBodyStore) (blockId : ℕ) {txs txs' : TxSet}
    (h : txs.Keyed) (h' : txs'.Keyed) (hids : txs.idSet = txs'.idSet) :
    (table.intern blockId txs).1.idSet = (table.intern blockId txs').1.idSet := by
  obtain ⟨hsize, hsum⟩ := h.alike h' hids
  rw [intern_fst, intern_fst]
  cases table[blockId]? with
  | none => exact hids
  | some body =>
      have hiff : Alike body txs ↔ Alike body txs' := by rw [Alike, Alike, hsize, hsum]
      by_cases hbody : Alike body txs
      · dsimp only
        rw [if_pos hbody, if_pos (hiff.mp hbody)]
      · dsimp only
        rw [if_neg hbody, if_neg fun h => hbody (hiff.mpr h)]
        exact hids

namespace GrapheneProtocol

variable {murmurHash3 : ℕ → ℕ → ℕ}

/-- A set with the ids of a block lists them as the block does. -/
theorem toList_eq_txIds {ids : ExtTreeSet ℕ} {txs : TxSet} (h : txs.Keyed)
    (hmem : ∀ x, x ∈ ids ↔ x ∈ txs.idSet) : ids.toList = txIdsFromBlock txs := by
  refine eq_of_pairwise_lt (pairwise_toList ids) h.pairwise_txIds fun x => ?_
  rw [ExtTreeSet.mem_toList, hmem, TxSet.idSet, List.mem_toFinset, txIdsFromBlock]

/-! ## reconstruction -/

/-- The signed difference of a block and a set of candidates. -/
noncomputable abbrev symDiff (txs : TxSet) (ids : ExtTreeSet ℕ) : ℕ →₀ ℤ :=
  ofIds txs.idSet - ofIds (idFinset ids)

/-- A table of a block that can be compared with one of the receiver. -/
structure TableOf (murmurHash3 : ℕ → ℕ → ℕ) (iblt : Iblt) (txs : TxSet) : Prop where
  shaped : iblt.WellShaped
  encodes : iblt.Encodes murmurHash3 (ofIds txs.idSet)
  size_lt : iblt.hashTable.length < 2 ^ 24

/-- What listing the difference of a block and the receiver's candidates gives. -/
theorem TableOf.listEntries {iblt diff : Iblt} {txs : TxSet} (h : TableOf murmurHash3 iblt txs)
    {ids : ExtTreeSet ℕ} (hdiff : differenceTable false murmurHash3 iblt ids = .ok diff)
    (htrue : diff.Truthful murmurHash3 (symDiff txs ids)) (rounds : ℕ) :
    (diff.listEntries false murmurHash3 rounds [] [] = .error .rounds ∧
        rounds ≤ (symDiff txs ids).support.card) ∨
      ∃ ok positive negative E, diff.listEntries false murmurHash3 rounds [] [] =
        .ok (ok, positive, negative) ∧
        Iblt.Lists (symDiff txs ids) ok positive negative E := by
  obtain ⟨d, hd, hshape, hencodes⟩ := differenceTable_spec h.encodes h.shaped h.size_lt ids
  rw [hdiff, Except.ok.injEq] at hd
  subst hd
  have hshaped := hshape.wellShaped h.shaped
  exact Iblt.listEntries_spec (Nat.zero_lt_of_lt hshaped.numHashes) hshaped.bucketsPerHash_pos
    hencodes htrue rounds

/-- The transactions that are rebuilt from ids. -/
theorem keyed_rebuilt (ids : ExtTreeSet ℕ) :
    (TxSet.ofList (ids.toList.map fun id => { txId := id, sizeBytes := 522 })).Keyed :=
  TxSet.keyed_ofList _

theorem idSet_rebuilt (ids : ExtTreeSet ℕ) :
    (TxSet.ofList (ids.toList.map fun id => { txId := id, sizeBytes := 522 })).idSet =
      idFinset ids := by
  rw [TxSet.idSet_ofList, List.map_map, idFinset]
  congr 1
  exact List.map_id' _

/-- `ReconstructBlock` once the difference is there. -/
theorem reconstructBlock_eq {bf : BloomFilter} {mempool : List (ℕ × ℕ)} {iblt diff : Iblt}
    {checked : Bool}
    (hdiff : differenceTable checked murmurHash3 iblt (buildCandidateSet bf mempool) = .ok diff)
    (rounds txCount : ℕ) :
    reconstructBlock checked murmurHash3 rounds bf iblt txCount mempool =
      (diff.listEntries checked murmurHash3 rounds [] [] >>= fun r =>
        if r.1 then
          let outTxs := TxSet.ofList ((adjust (buildCandidateSet bf mempool) r.2.2 r.2.1).toList.map
            fun id => { txId := id, sizeBytes := 522 })
          return (if outTxs.size = txCount then .success else .failRecoverable, outTxs)
        else return (.failRecoverable, ∅)) := by
  unfold reconstructBlock
  dsimp only
  rw [hdiff]
  rfl

/-- `ReconstructBlock` by what is listed. -/
theorem TableOf.reconstructBlock {iblt diff : Iblt} {b : Block} {bf : BloomFilter}
    {mempool : List (ℕ × ℕ)} (hkeyed : b.txs.Keyed) (h : TableOf murmurHash3 iblt b.txs)
    (hdiff : differenceTable false murmurHash3 iblt (buildCandidateSet bf mempool) = .ok diff)
    (htrue : diff.Truthful murmurHash3 (symDiff b.txs (buildCandidateSet bf mempool)))
    (rounds : ℕ) :
    (diff.listEntries false murmurHash3 rounds [] [] = .error .rounds ∧
        rounds ≤ (symDiff b.txs (buildCandidateSet bf mempool)).support.card ∧
        reconstructBlock false murmurHash3 rounds bf iblt b.txCount mempool = .error .rounds) ∨
      (∃ positive negative, diff.listEntries false murmurHash3 rounds [] [] =
          .ok (false, positive, negative) ∧
        reconstructBlock false murmurHash3 rounds bf iblt b.txCount mempool =
          .ok (.failRecoverable, ∅)) ∨
      ∃ positive negative E txs, diff.listEntries false murmurHash3 rounds [] [] =
          .ok (true, positive, negative) ∧
        Iblt.Lists (symDiff b.txs (buildCandidateSet bf mempool)) true positive negative E ∧
        reconstructBlock false murmurHash3 rounds bf iblt b.txCount mempool =
          .ok (.success, txs) ∧ txs.Keyed ∧ txs.idSet = b.txs.idSet := by
  have hrun := reconstructBlock_eq hdiff rounds b.txCount
  obtain ⟨hlist, hle⟩ | ⟨ok, positive, negative, E, hlist, hlists⟩ :=
    h.listEntries hdiff htrue rounds
  · rw [hrun, hlist]
    exact .inl ⟨rfl, hle, rfl⟩
  · cases ok with
    | false =>
        rw [hrun, hlist]
        exact .inr (.inl ⟨positive, negative, rfl, rfl⟩)
    | true =>
        let ids := adjust (buildCandidateSet bf mempool) negative positive
        have hids : idFinset ids = b.txs.idSet := by
          ext x
          rw [mem_idFinset, mem_adjust_of_lists hlists]
        have hrebuilt := (idSet_rebuilt ids).trans hids
        have hsize : (TxSet.ofList (ids.toList.map fun id =>
            { txId := id, sizeBytes := 522 })).size = b.txCount :=
          ((keyed_rebuilt ids).alike hkeyed hrebuilt).1
        refine .inr (.inr ⟨positive, negative, E, _, hlist, hlists, ?_, keyed_rebuilt ids, hrebuilt⟩)
        rw [hrun, hlist]
        change Except.ok (if _ = b.txCount then _ else _, _) = _
        rw [if_pos hsize]

/-! ## the first protocol -/

/-- A block that is reconstructed is handed on. -/
theorem processIncomingBlock_success (data : GrapheneBlock) {checked : Bool} {rounds : ℕ}
    {arith : Arithmetic} {store : BlockBodyStore} {mempool : List (ℕ × ℕ)} {mempoolSize : ℕ}
    {txs : TxSet}
    (hrun : reconstructBlock checked murmurHash3 rounds data.bloomFilter data.iblt data.txCount
      mempool = .ok (.success, txs)) (hsum : txChecksum txs = data.txChecksum) :
    ∃ block, processIncomingBlock checked murmurHash3 rounds arith store data mempool mempoolSize =
        .ok (.success block, (store.intern data.blockId txs).2) ∧
      block.header = data.header ∧ block.txs = (store.intern data.blockId txs).1 := by
  let block : Block := { header := data.header, txs := (store.intern data.blockId txs).1 }
  refine ⟨{ block with sizeInBytes := block.getTotalSize }, ?_, rfl, rfl⟩
  unfold processIncomingBlock
  rw [hrun]
  change (if txChecksum txs = data.txChecksum then _ else _) = _
  rw [if_pos hsum]
  rfl

/-- A failure leaves the state that the recovery starts from. -/
theorem processIncomingBlock_failure (data : GrapheneBlock) {checked : Bool} {rounds : ℕ}
    {arith : Arithmetic} {store : BlockBodyStore} {mempool : List (ℕ × ℕ)} {mempoolSize : ℕ}
    {status : DecodeStatus} {txs : TxSet} {diff : Iblt}
    (hrun : reconstructBlock checked murmurHash3 rounds data.bloomFilter data.iblt data.txCount
      mempool = .ok (status, txs)) (hstatus : status ≠ .success)
    (hdiff : differenceTable checked murmurHash3 data.iblt
      (buildCandidateSet data.bloomFilter mempool) = .ok diff) :
    processIncomingBlock checked murmurHash3 rounds arith store data mempool mempoolSize =
      .ok (.failure
        { header := data.header, txCount := data.txCount
          candidateIds := buildCandidateSet data.bloomFilter mempool, diff1 := some diff
          waitingProtocol2 := true }
        (buildRecoveryBloom arith data.blockHash
          (buildCandidateSet data.bloomFilter mempool).toList mempoolSize data.txCount data.fpr),
        store) := by
  unfold processIncomingBlock
  rw [hrun]
  change (if status = .success then _ else _) = _
  rw [if_neg hstatus, hdiff]
  rfl

/-- **Graphene agrees with full relay.**  The receiver's loop ends; and if the
difference is listed, it lists what is missing and what is too much, and the
block that is handed on has the header and the ids that the full message would
have given. -/
theorem protocol1_agrees {arith : Arithmetic} {b : Block} {m : ℕ} {bf : BloomFilter}
    {iblt diff : Iblt} {mempool : List (ℕ × ℕ)} (hkeyed : b.txs.Keyed)
    (hbuild : buildSenderComponents false murmurHash3 arith b.txs m = .ok (some (bf, iblt)))
    (hsize : iblt.hashTable.length < 2 ^ 24)
    (hdiff : differenceTable false murmurHash3 iblt (buildCandidateSet bf mempool) = .ok diff)
    (htrue : diff.Truthful murmurHash3 (symDiff b.txs (buildCandidateSet bf mempool))) :
    (∃ bound, ∀ rounds > bound,
      (∃ r, reconstructBlock false murmurHash3 rounds bf iblt b.txCount mempool = .ok r) ∧
      ∀ blockHash store mempoolSize, ∃ r, processIncomingBlock false murmurHash3 rounds arith store
        (grapheneBlock blockHash b bf iblt) mempool mempoolSize = .ok r) ∧
    (∀ rounds positive negative,
      diff.listEntries false murmurHash3 rounds [] [] = .ok (true, positive, negative) →
      (∀ x, x ∈ positive.keys ↔ x ∈ b.txs.idSet ∧ x ∉ buildCandidateSet bf mempool) ∧
      (∀ x, x ∈ negative.keys ↔ x ∈ buildCandidateSet bf mempool ∧ x ∉ b.txs.idSet) ∧
      (∃ txs, reconstructBlock false murmurHash3 rounds bf iblt b.txCount mempool =
        .ok (.success, txs) ∧ txs.idSet = b.txs.idSet) ∧
      ∀ blockHash store mempoolSize, ∃ block store',
        processIncomingBlock false murmurHash3 rounds arith store
          (grapheneBlock blockHash b bf iblt) mempool mempoolSize = .ok (.success block, store') ∧
        block.header = (decodeBlock store (encodeBlock b)).1.header ∧
        block.txs.idSet = (decodeBlock store (encodeBlock b)).1.txs.idSet) ∧
    ∀ rounds blockHash store mempoolSize,
      processIncomingBlock false murmurHash3 rounds arith store
        (grapheneBlock blockHash b bf iblt) mempool mempoolSize ≠ .error .checksum := by
  obtain ⟨hshaped, hencodes⟩ := buildSenderComponents_spec hkeyed hbuild
  have hcases := (TableOf.mk hshaped hencodes hsize).reconstructBlock hkeyed hdiff htrue
  -- a run of `ProcessIncomingBlock`, by the run of `ReconstructBlock` in it
  have hsuccess : ∀ rounds txs blockHash store mempoolSize,
      reconstructBlock false murmurHash3 rounds bf iblt b.txCount mempool = .ok (.success, txs) →
      txs.Keyed → txs.idSet = b.txs.idSet → ∃ block store',
        processIncomingBlock false murmurHash3 rounds arith store
          (grapheneBlock blockHash b bf iblt) mempool mempoolSize = .ok (.success block, store') ∧
        block.header = (decodeBlock store (encodeBlock b)).1.header ∧
        block.txs.idSet = (decodeBlock store (encodeBlock b)).1.txs.idSet := by
    intro rounds txs blockHash store mempoolSize hrun hkeyed' hids
    obtain ⟨block, hblock, hheader, htxs⟩ := processIncomingBlock_success
      (grapheneBlock blockHash b bf iblt) hrun (hkeyed'.alike hkeyed hids).2
    refine ⟨block, _, hblock, hheader, ?_⟩
    rw [htxs, store.idSet_intern_congr _ hkeyed' hkeyed hids, decodeBlock, encodeBlock]
    dsimp only
    rw [hkeyed.ofList_list]
    rfl
  have hfailure : ∀ rounds blockHash store mempoolSize,
      reconstructBlock false murmurHash3 rounds bf iblt b.txCount mempool =
        .ok (.failRecoverable, ∅) → ∃ r, processIncomingBlock false murmurHash3 rounds arith store
          (grapheneBlock blockHash b bf iblt) mempool mempoolSize = .ok r :=
    fun rounds blockHash store mempoolSize hrun => ⟨_, processIncomingBlock_failure
      (grapheneBlock blockHash b bf iblt) hrun (by decide) hdiff⟩
  refine ⟨⟨(symDiff b.txs (buildCandidateSet bf mempool)).support.card, fun rounds hrounds => ?_⟩,
    fun rounds positive negative hlist => ?_, fun rounds blockHash store mempoolSize => ?_⟩
  · obtain ⟨-, hle, -⟩ | ⟨-, -, -, hrun⟩ | ⟨-, -, -, txs, -, -, hrun, hkeyed', hids⟩ :=
      hcases rounds
    · exact absurd hle (not_le.mpr hrounds)
    · exact ⟨⟨_, hrun⟩, fun blockHash store mempoolSize => hfailure _ _ _ _ hrun⟩
    · refine ⟨⟨_, hrun⟩, fun blockHash store mempoolSize => ?_⟩
      obtain ⟨block, store', hblock, -⟩ := hsuccess _ _ blockHash store mempoolSize hrun hkeyed' hids
      exact ⟨_, hblock⟩
  · obtain ⟨herr, -, -⟩ | ⟨_, _, hfail, -⟩ | ⟨_, _, E, txs, hok, hlists, hrun, hkeyed', hids⟩ :=
      hcases rounds
    · rw [hlist] at herr
      cases herr
    · rw [hlist] at hfail
      cases hfail
    · rw [hlist] at hok
      cases hok
      refine ⟨fun x => ?_, fun x => ?_, ⟨txs, hrun, hids⟩,
        fun blockHash store mempoolSize => hsuccess _ _ _ _ _ hrun hkeyed' hids⟩
      · rw [(lists_difference hlists x).1, mem_idFinset]
      · rw [(lists_difference hlists x).2, mem_idFinset]
  · obtain ⟨-, -, hrun⟩ | ⟨-, -, -, hrun⟩ | ⟨-, -, -, txs, -, -, hrun, hkeyed', hids⟩ :=
      hcases rounds
    · intro hsum
      have herr : processIncomingBlock false murmurHash3 rounds arith store
          (grapheneBlock blockHash b bf iblt) mempool mempoolSize = .error .rounds := by
        unfold processIncomingBlock
        dsimp only [grapheneBlock]
        rw [hrun]
        rfl
      rw [herr] at hsum
      cases hsum
    · obtain ⟨r, hr⟩ := hfailure rounds blockHash store mempoolSize hrun
      rw [hr]
      intro h
      cases h
    · obtain ⟨block, store', hblock, -⟩ := hsuccess _ _ blockHash store mempoolSize hrun hkeyed' hids
      rw [hblock]
      intro h
      cases h

/-! ## a block with one transaction missing -/

/-- The tests are truthful when the receiver lacks one transaction. -/
theorem TableOf.truthful_of_missing {iblt diff : Iblt} {txs : TxSet} {ids : ExtTreeSet ℕ} {x : ℕ}
    (h : TableOf murmurHash3 iblt txs)
    (hdiff : differenceTable false murmurHash3 iblt ids = .ok diff)
    (hone : symDiff txs ids = Finsupp.single x 1) :
    diff.Truthful murmurHash3 (symDiff txs ids) := by
  obtain ⟨d, hd, hshape, hencodes⟩ := differenceTable_spec h.encodes h.shaped h.size_lt ids
  rw [hdiff, Except.ok.injEq] at hd
  subst hd
  rw [symDiff] at hone ⊢
  rw [hone] at hencodes ⊢
  exact Iblt.truthful_single (.inl rfl) hencodes (hshape.wellShaped h.shaped).bucketsPerHash_pos

/-- Two transactions. -/
def twoTxs : TxSet := TxSet.ofList [{ txId := 7, sizeBytes := 100 }, { txId := 9, sizeBytes := 100 }]

/-- The smallest tables, and filters that everything passes. -/
def smallest : Arithmetic where
  symDiffSearch _ _ := 1
  ceilCBbound _ := 2
  senderBloom _ _ _ _ := { contains := fun _ => true }
  recoverySearch _ _ _ _ := (1, 1, { contains := fun _ => true })

/-- The table of the two, for one choice of hash functions. -/
def twoTable : Iblt := (lookupTable false (· + ·) 2 [7, 9]).toOption.getD ⟨0, 0, []⟩

/-- What the receiver subtracts to, who has the second of them. -/
def twoDiff : Iblt := (differenceTable false (· + ·) twoTable {9}).toOption.getD ⟨0, 0, []⟩

theorem buildSenderComponents_two :
    buildSenderComponents false (· + ·) smallest twoTxs 1 =
      .ok (some ({ contains := fun _ => true }, twoTable)) := by
  have hids : txIdsFromBlock twoTxs = [7, 9] := by decide +kernel
  have hcells : nIbltCells smallest twoTxs.size 1 = 2 := rfl
  have htable : lookupTable false (· + ·) 2 [7, 9] = .ok twoTable := by decide +kernel
  have hmissing : ¬ maxGuaranteedMissing < twoTxs.size - 1 := by decide +kernel
  unfold buildSenderComponents
  dsimp only
  rw [if_neg hmissing, hids, hcells, htable]
  rfl

theorem tableOf_two : TableOf (· + ·) twoTable twoTxs := by
  obtain ⟨hshaped, hencodes⟩ := buildSenderComponents_spec (TxSet.keyed_ofList _)
    buildSenderComponents_two
  exact ⟨hshaped, hencodes, by decide +kernel⟩

theorem symDiff_two : symDiff twoTxs {9} = Finsupp.single 7 1 := by
  have hids : twoTxs.idSet = {7, 9} := by decide +kernel
  have hnine : idFinset {9} = {9} := by decide +kernel
  rw [symDiff, hids, hnine, ofIds, ofIds, Finset.sum_pair (by decide), Finset.sum_singleton,
    add_sub_cancel_right]

theorem protocol1_agrees_two :
    ∃ txs, reconstructBlock false (· + ·) 3 { contains := fun _ => true } twoTable 2 [(0, 9)] =
      .ok (.success, txs) ∧ txs.idSet = {7, 9} := by
  have hcandidates : buildCandidateSet { contains := fun _ => true } [(0, 9)] = {9} := by
    decide +kernel
  have hdiff : differenceTable false (· + ·) twoTable {9} = .ok twoDiff := by decide +kernel
  have htrue := tableOf_two.truthful_of_missing hdiff symDiff_two
  have hlist : twoDiff.listEntries false (· + ·) 3 [] [] = .ok (true, [(7, u64ToVec 7)], []) := by
    decide +kernel
  obtain ⟨txs, hrun, hids⟩ := ((protocol1_agrees (b := { txs := twoTxs }) (m := 1)
    (TxSet.keyed_ofList _) buildSenderComponents_two tableOf_two.size_lt (hcandidates ▸ hdiff)
    (hcandidates ▸ htrue)).2.1 3 _ _ hlist).2.2.1
  have hcount : ({ txs := twoTxs } : Block).txCount = 2 := by decide +kernel
  rw [hcount] at hrun
  exact ⟨txs, hrun, hids.trans (by decide +kernel)⟩

end GrapheneProtocol

end GhostDag
