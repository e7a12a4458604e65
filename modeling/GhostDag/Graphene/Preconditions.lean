import GhostDag.Graphene.Relay

/-!
# GhostDag.Graphene.Preconditions

The asserts of the table, over a whole exchange of Graphene messages.

The sizes always fit, but a value has eight bytes and the tables are made for
twelve, so an exchange meets every assert exactly when it inserts nothing
(`preconditions_iff`).
-/

namespace GhostDag

open Std (ExtTreeSet)
open Containers

namespace GrapheneProtocol

/-- One exchange about a block: the sender's answer to a request, what the
receiver makes of it, and the second protocol if the first one fails.  The
table that `HandleReqRelayBlock` declares first is part of it. -/
def exchange (checked : Bool) (murmurHash3 : Nat → Nat → Nat) (rounds : Nat) (arith : Arithmetic)
    (store : BlockBodyStore) (blockHash : Nat) (b : Block) (receiverMempoolCount : Nat)
    (mempool : List (Nat × Nat)) (mempoolSize : Nat) : Except Halt Unit := do
  let _ ← Iblt.make checked 1 ibltValueSize 1 2
  match ← buildSenderComponents checked murmurHash3 arith b.txs receiverMempoolCount with
  | none => return ()
  | some (bf, iblt) =>
      let (result, _) ← processIncomingBlock checked murmurHash3 rounds arith store
        (grapheneBlock blockHash b bf iblt) mempool mempoolSize
      match result with
      | .success _ => return ()
      | .failure state request =>
          let response ← recoveryResponse checked murmurHash3 b request
          let _ ← processRecoveryResponse checked murmurHash3 rounds response state
          return ()

variable {murmurHash3 : ℕ → ℕ → ℕ}

/-! ## tables that fit -/

theorem make_checked {n valueSize k : ℕ} {hedge : ℚ} (hk : 1 < k)
    (hn : 0 < Iblt.nEntries n hedge k ∧ k ∣ Iblt.nEntries n hedge k) :
    Iblt.make true n valueSize hedge k =
      .ok ⟨valueSize, k, List.replicate (Iblt.nEntries n hedge k) {}⟩ := by
  unfold Iblt.make
  rw [require, if_neg (fun h => h.2 hk)]
  change (do require true (0 < Iblt.nEntries n hedge k ∧ k ∣ Iblt.nEntries n hedge k); _) = _
  rw [require, if_neg (fun h => h.2 hn)]
  rfl

/-- A table without keys. -/
def emptyTable (n k : ℕ) : Iblt := ⟨ibltValueSize, k, List.replicate n {}⟩

/-- A sender's table passes the asserts of the constructor. -/
theorem lookupTable_checked {nItems : ℕ} (hpos : 0 < nItems) (ids : List ℕ) :
    lookupTable true murmurHash3 nItems ids = buildIbltFromIds true murmurHash3 (emptyTable
      (Iblt.nEntries nItems (CIbltParams.lookup nItems).overhead
        (CIbltParams.lookup nItems).numhashes) (CIbltParams.lookup nItems).numhashes) ids := by
  unfold lookupTable
  dsimp only
  rw [make_checked (CIbltParams.one_lt_numhashes nItems)
    (Iblt.nEntries_spec (Iblt.le_round_mul hpos (CIbltParams.le_overhead nItems))
      (CIbltParams.one_lt_numhashes nItems))]
  rfl

/-- So does a receiver's table beside one without keys, and the subtraction. -/
theorem differenceTable_checked {n k : ℕ} (hk : 1 < k) (hn : 0 < n) (hdvd : k ∣ n)
    (hlt : n < 2 ^ 24) (ids : ExtTreeSet ℕ) :
    differenceTable true murmurHash3 (emptyTable n k) ids =
      (buildIbltFromIds true murmurHash3 (emptyTable n k) ids.toList >>=
        (emptyTable n k).sub true) := by
  have hsize : (emptyTable n k).hashTableSize = n := List.length_replicate
  have hentries := Iblt.nEntries_of_dvd hlt hdvd
  rw [differenceTable, hsize]
  change (Iblt.make true n ibltValueSize 1 k >>= _) = _
  rw [make_checked hk ⟨hentries.symm ▸ hn, hentries.symm ▸ hdvd⟩, hentries]
  rfl

/-- **A value of eight bytes does not fit.** -/
theorem buildIbltFromIds_halts {n k : ℕ} {ids : List ℕ} (hids : ids ≠ []) :
    buildIbltFromIds true murmurHash3 (emptyTable n k) ids = .error .precondition := by
  obtain ⟨id, ids, rfl⟩ := List.exists_cons_of_ne_nil hids
  have hsize : ¬ (u64ToVec id).length = (emptyTable n k).valueSize := by
    rw [u64ToVec, List.length_map, List.length_range]
    change ¬ 8 = ibltValueSize
    decide
  rw [buildIbltFromIds, List.foldlM_cons, Iblt.insert, Iblt._insert, require,
    if_pos ⟨rfl, hsize⟩]
  rfl

/-! ## exchanges that insert nothing -/

theorem sub_emptyTable (n k : ℕ) :
    (emptyTable n k).sub true (emptyTable n k) = .ok (emptyTable n k) := by
  have hzip : (List.replicate n ({} : HashTableEntry)).zipWith
      (fun e1 (e2 : HashTableEntry) =>
        e1.accumulate (-e2.count) e2.keySum e2.keyCheck e2.valueSum)
      (List.replicate n {}) = List.replicate n {} := by
    rw [List.zipWith_replicate, Nat.min_self]
    rfl
  rw [Iblt.sub, require, require, if_neg fun h => h.2 rfl, if_neg fun h => h.2 rfl]
  dsimp only [bind, Except.bind]
  rw [if_neg (lt_irrefl _)]
  exact congrArg (fun l => Except.ok (Iblt.mk ibltValueSize k l)) hzip

/-- There is nothing to peel. -/
theorem idle_emptyTable (n k : ℕ) : Iblt.Idle murmurHash3 (emptyTable n k) :=
  fun _ he => (List.mem_replicate.mp he).2 ▸ rfl

theorem listEntries_emptyTable (n k rounds : ℕ) :
    (emptyTable n k).listEntries true murmurHash3 (rounds + 1) [] [] = .ok (true, [], []) := by
  rw [Iblt.listEntries, Iblt.peel, Iblt.scan_of_idle (idle_emptyTable n k)]
  change Except.ok (((emptyTable n k).hashTable.take _).all HashTableEntry.empty, [], []) = _
  rw [emptyTable, List.take_replicate, List.all_replicate]
  split <;> rfl

/-- An empty block is rebuilt from no candidates. -/
theorem reconstructBlock_empty {n k rounds : ℕ} (hk : 1 < k) (hn : 0 < n) (hdvd : k ∣ n)
    (hlt : n < 2 ^ 24) {bf : BloomFilter} {mempool : List (ℕ × ℕ)}
    (hnone : (buildCandidateSet bf mempool).toList = []) :
    reconstructBlock true murmurHash3 (rounds + 1) bf (emptyTable n k) 0 mempool =
      .ok (.success, ∅) := by
  have hdiff : differenceTable true murmurHash3 (emptyTable n k) (buildCandidateSet bf mempool) =
      .ok (emptyTable n k) := by
    rw [differenceTable_checked hk hn hdvd hlt, hnone]
    exact sub_emptyTable n k
  unfold reconstructBlock
  dsimp only
  rw [hdiff]
  change ((emptyTable n k).listEntries true murmurHash3 (rounds + 1) [] [] >>= _) = _
  rw [listEntries_emptyTable]
  change Except.ok (if (TxSet.ofList ((buildCandidateSet bf mempool).toList.map _)).size = 0
    then _ else _, TxSet.ofList ((buildCandidateSet bf mempool).toList.map _)) = _
  rw [hnone]
  rfl

/-! ## the exchange -/

theorem mem_buildCandidateSet {bf : BloomFilter} {mempool : List (ℕ × ℕ)} {x : ℕ} :
    x ∈ buildCandidateSet bf mempool ↔ ∃ entry ∈ mempool, bf.contains entry.2 = true ∧ entry.2 = x := by
  have hgen : ∀ (l : List (ℕ × ℕ)) (s : ExtTreeSet ℕ),
      x ∈ l.foldl (fun candidates entry =>
        if bf.contains entry.2 then candidates.insert entry.2 else candidates) s ↔
        x ∈ s ∨ ∃ entry ∈ l, bf.contains entry.2 = true ∧ entry.2 = x := by
    intro l
    induction l with
    | nil => simp
    | cons entry l ih =>
        intro s
        rw [List.foldl_cons, ih]
        by_cases hpass : bf.contains entry.2 = true
        · rw [if_pos hpass, mem_set_insert]
          simp only [List.mem_cons, exists_eq_or_imp, hpass, true_and, @eq_comm _ x]
          tauto
        · rw [if_neg hpass]
          simp [hpass]
  rw [buildCandidateSet, hgen]
  simp

/-- Below an empty block the search for the optimal difference throws. -/
theorem senderSymDiff_zero (arith : Arithmetic) (m : ℕ) : senderSymDiff arith 0 m = 1 := by
  have hnone : optimalSymDiff arith 0 m = none := by
    unfold optimalSymDiff
    dsimp only
    split
    · rfl
    · next hlt =>
        rw [if_pos (by rw [largeMemPoolSize]; omega)]
  rw [senderSymDiff, hnone]
  split
  · rfl
  · rw [Nat.zero_sub]
    rfl

/-- The sender's table of an empty block: thirty entries. -/
theorem buildSenderComponents_empty {arith : Arithmetic} (hbound : arith.ceilCBbound 1 = 9)
    {txs : TxSet} (hempty : txs.size = 0) (m : ℕ) :
    buildSenderComponents true murmurHash3 arith txs m =
      .ok (some (arith.senderBloom 0 m 1 [], emptyTable 30 6)) := by
  have hids : txIdsFromBlock txs = [] := by
    rw [← List.length_eq_zero_iff, ← TxSet.size_eq_length, hempty]
  have hcells : nIbltCells arith 0 m = 9 := by
    rw [nIbltCells, senderSymDiff_zero, hbound]
    rfl
  have htable : lookupTable true murmurHash3 9 [] = .ok (emptyTable 30 6) := by
    have hentries : Iblt.nEntries 9 (CIbltParams.lookup 9).overhead
        (CIbltParams.lookup 9).numhashes = 30 := by decide +kernel
    rw [lookupTable_checked (by decide), hentries]
    rfl
  unfold buildSenderComponents
  dsimp only
  rw [hempty, hids, hcells, htable, if_neg (by rw [Nat.zero_sub]; exact Nat.not_lt_zero _),
    senderSymDiff_zero]
  rfl

/-- The table that is declared first passes the asserts. -/
theorem make_placeholder : Iblt.make true 1 ibltValueSize 1 2 = .ok (emptyTable 2 2) := by
  decide +kernel

section Exchange

variable {rounds : ℕ} {arith : Arithmetic} {store : BlockBodyStore} {blockHash : ℕ} {b : Block}
  {m : ℕ} {mempool : List (ℕ × ℕ)} {mempoolSize : ℕ}

theorem exchange_givesUp (h : maxGuaranteedMissing < b.txCount - m) :
    exchange true murmurHash3 rounds arith store blockHash b m mempool mempoolSize = .ok () := by
  have hbuild : buildSenderComponents true murmurHash3 arith b.txs m = .ok none := by
    unfold buildSenderComponents
    dsimp only
    exact if_pos h
  rw [exchange, make_placeholder, hbuild]
  rfl

/-- The first transaction of a block halts the sender. -/
theorem exchange_halts_of_tx (h : ¬ maxGuaranteedMissing < b.txCount - m) (hb : b.txCount ≠ 0) :
    exchange true murmurHash3 rounds arith store blockHash b m mempool mempoolSize =
      .error .precondition := by
  have hids : txIdsFromBlock b.txs ≠ [] := by
    rw [Ne, ← List.length_eq_zero_iff, ← TxSet.size_eq_length]
    exact hb
  have hbuild : buildSenderComponents true murmurHash3 arith b.txs m = .error .precondition := by
    unfold buildSenderComponents
    dsimp only
    rw [lookupTable_checked (nIbltCells_pos arith b.txs.size m), buildIbltFromIds_halts hids]
    exact if_neg h
  rw [exchange, make_placeholder, hbuild]
  rfl

/-- The first candidate for an empty block halts the receiver. -/
theorem exchange_halts_of_candidate (hbound : arith.ceilCBbound 1 = 9) (hb : b.txCount = 0)
    {entry : ℕ × ℕ} (hentry : entry ∈ mempool)
    (hpass : (arith.senderBloom 0 m 1 []).contains entry.2 = true) :
    exchange true murmurHash3 rounds arith store blockHash b m mempool mempoolSize =
      .error .precondition := by
  have hids : (buildCandidateSet (arith.senderBloom 0 m 1 []) mempool).toList ≠ [] := by
    intro hnil
    have hmem := ExtTreeSet.mem_toList.mpr
      (mem_buildCandidateSet.mpr ⟨entry, hentry, hpass, rfl⟩)
    rw [hnil] at hmem
    exact List.not_mem_nil hmem
  have hrun : reconstructBlock true murmurHash3 rounds (arith.senderBloom 0 m 1 [])
      (emptyTable 30 6) b.txCount mempool = .error .precondition := by
    unfold reconstructBlock
    dsimp only
    rw [differenceTable_checked (by decide) (by decide) (by decide) (by decide),
      buildIbltFromIds_halts hids]
    rfl
  rw [exchange, make_placeholder, buildSenderComponents_empty hbound hb]
  change (processIncomingBlock true murmurHash3 rounds arith store
    (grapheneBlock blockHash b (arith.senderBloom 0 m 1 []) (emptyTable 30 6)) mempool mempoolSize
    >>= _) = _
  rw [processIncomingBlock]
  change ((reconstructBlock true murmurHash3 rounds (arith.senderBloom 0 m 1 []) (emptyTable 30 6)
    b.txCount mempool >>= _) >>= _) = _
  rw [hrun]
  rfl

/-- An empty block is relayed if nothing is a candidate. -/
theorem exchange_empty (hbound : arith.ceilCBbound 1 = 9) (hb : b.txCount = 0)
    (hnone : ∀ entry ∈ mempool, (arith.senderBloom 0 m 1 []).contains entry.2 = false) :
    exchange true murmurHash3 rounds arith store blockHash b m mempool mempoolSize ≠
      .error .precondition := by
  have hcandidates : (buildCandidateSet (arith.senderBloom 0 m 1 []) mempool).toList = [] := by
    refine List.eq_nil_iff_forall_not_mem.mpr fun x hx => ?_
    obtain ⟨entry, hentry, hpass, -⟩ := mem_buildCandidateSet.mp (ExtTreeSet.mem_toList.mp hx)
    rw [hnone entry hentry] at hpass
    cases hpass
  have hids : txIdsFromBlock b.txs = [] := by
    rw [← List.length_eq_zero_iff, ← TxSet.size_eq_length]
    exact hb
  rw [exchange, make_placeholder, buildSenderComponents_empty hbound hb]
  change (processIncomingBlock true murmurHash3 rounds arith store
    (grapheneBlock blockHash b (arith.senderBloom 0 m 1 []) (emptyTable 30 6)) mempool mempoolSize
    >>= _) ≠ _
  cases rounds with
  | zero =>
      have hrun : reconstructBlock true murmurHash3 0 (arith.senderBloom 0 m 1 [])
          (emptyTable 30 6) b.txCount mempool = .error .rounds := by
        unfold reconstructBlock
        dsimp only
        rw [differenceTable_checked (by decide) (by decide) (by decide) (by decide), hcandidates]
        change ((emptyTable 30 6).sub true (emptyTable 30 6) >>= _) = _
        rw [sub_emptyTable]
        rfl
      rw [processIncomingBlock]
      change ((reconstructBlock true murmurHash3 0 (arith.senderBloom 0 m 1 []) (emptyTable 30 6)
        b.txCount mempool >>= _) >>= _) ≠ _
      rw [hrun]
      intro h
      cases h
  | succ rounds =>
      have hrun : reconstructBlock true murmurHash3 (rounds + 1) (arith.senderBloom 0 m 1 [])
          (emptyTable 30 6) b.txCount mempool = .ok (.success, ∅) := by
        rw [hb]
        exact reconstructBlock_empty (by decide) (by decide) (by decide) (by decide) hcandidates
      have hsum : txChecksum ∅ = txChecksum b.txs := by
        rw [TxSet.txChecksum_eq b.txs, hids]
        rfl
      obtain ⟨block, hblock, -⟩ := processIncomingBlock_success
        (grapheneBlock blockHash b (arith.senderBloom 0 m 1 []) (emptyTable 30 6)) hrun hsum
      rw [hblock]
      intro h
      cases h

/-- **The asserts hold throughout an exchange exactly when nothing is inserted**:
the sender gives up, or the block is empty and no id of the receiver passes
the filter.  The hypothesis is the value of the double expression
`CBbound(1, fpr, 1.0 / 240.0)`, 8.04, rounded up. -/
theorem preconditions_iff (hbound : arith.ceilCBbound 1 = 9) :
    (∀ rounds, exchange true murmurHash3 rounds arith store blockHash b m mempool mempoolSize ≠
      .error .precondition) ↔
    maxGuaranteedMissing < b.txCount - m ∨
      b.txCount = 0 ∧ ∀ entry ∈ mempool, (arith.senderBloom 0 m 1 []).contains entry.2 = false := by
  constructor
  · intro h
    by_cases hgive : maxGuaranteedMissing < b.txCount - m
    · exact .inl hgive
    · have hb : b.txCount = 0 := by
        by_contra hb
        exact h 0 (exchange_halts_of_tx hgive hb)
      refine .inr ⟨hb, fun entry hentry => ?_⟩
      by_contra hpass
      exact h 0 (exchange_halts_of_candidate hbound hb hentry (by simpa using hpass))
  · rintro (hgive | ⟨hb, hnone⟩) rounds
    · rw [exchange_givesUp hgive]
      intro h
      cases h
    · exact exchange_empty hbound hb hnone

end Exchange

/-- Tables of thirty entries, as the code makes them for one id, and filters
that only the inserted ids pass. -/
def nineCells : Arithmetic :=
  { smallest with
    ceilCBbound := fun _ => 9
    senderBloom := fun _ _ _ ids => { contains := ids.contains } }

/-- As many transactions as the sender gives up on. -/
def seventeenTxs : TxSet :=
  TxSet.ofList ((List.range 17).map fun i => { txId := i, sizeBytes := 100 })

/-- An empty block for a receiver whose two ids do not pass the filter, and a
block that the sender gives up on. -/
theorem preconditions_hold_empty : nineCells.ceilCBbound 1 = 9 ∧
    (∀ rounds, exchange true (· + ·) rounds nineCells ∅ 0 {} 2 [(0, 3), (0, 9)] 2 ≠
      .error .precondition) ∧
    ∀ rounds, exchange true (· + ·) rounds nineCells ∅ 0 { txs := seventeenTxs } 0 [] 0 ≠
      .error .precondition :=
  ⟨rfl, (preconditions_iff rfl).mpr (.inr ⟨by decide, by decide⟩),
    (preconditions_iff rfl).mpr (.inl (by decide))⟩

/-- Two transactions, and a receiver that has one. -/
theorem not_preconditions : ¬ ∀ rounds,
    exchange true (· + ·) rounds nineCells ∅ 0 { txs := twoTxs } 1 [(0, 9)] 1 ≠
      .error .precondition := by
  intro h
  exact h 0 (exchange_halts_of_tx (by decide) (by decide))

end GrapheneProtocol

end GhostDag
