import GhostDag.Graphene.Peeling
import GhostDag.Graphene.Protocol
import GhostDag.Node.Bodies

/-!
# GhostDag.Graphene.Decoding

What a difference table says of two sets of ids.

The table of a sender and that of a receiver have one shape
(`differenceTable_spec`), so their difference stands for the signed difference
of the two sets, and a listing that succeeds turns one set into the other
(`mem_adjust`).
-/

namespace GhostDag

open Std (ExtTreeMap ExtTreeSet)
open Containers

/-! ## sizes -/

namespace Iblt

/-- The tables that the constructor is meant to make. -/
structure WellShaped (t : Iblt) : Prop where
  numHashes : 1 < t.numHashes
  pos : 0 < t.hashTable.length
  dvd : t.numHashes ∣ t.hashTable.length

theorem WellShaped.bucketsPerHash_pos {t : Iblt} (h : t.WellShaped) : 0 < t.bucketsPerHash :=
  Nat.div_pos (Nat.le_of_dvd h.pos h.dvd) (Nat.zero_lt_of_lt h.numHashes)

theorem SameShape.wellShaped {t t' : Iblt} (h : SameShape t t') (ht : t.WellShaped) :
    t'.WellShaped where
  numHashes := h.numHashes ▸ ht.numHashes
  pos := h.length ▸ ht.pos
  dvd := by
    rw [h.numHashes, h.length]
    exact ht.dvd

/-- Padding goes up to the next multiple. -/
theorem padEntries_spec {k : ℕ} (hk : 0 < k) (rounds n : ℕ) (hn : k - n % k ≤ rounds ∨ k ∣ n) :
    k ∣ padEntries k rounds n ∧ n ≤ padEntries k rounds n := by
  induction rounds generalizing n with
  | zero =>
      obtain h | h := hn
      · have := Nat.mod_lt n hk
        omega
      · exact ⟨h, le_rfl⟩
  | succ rounds ih =>
      rw [padEntries]
      split
      · next heq => exact ⟨Dvd.intro _ heq, le_rfl⟩
      · next hne =>
          have hndvd : ¬ k ∣ n := fun h => hne (Nat.mul_div_cancel' h)
          have hnext : k - (n + 1) % k ≤ rounds ∨ k ∣ n + 1 := by
            by_cases hlast : n % k + 1 = k
            · exact .inr (Nat.dvd_of_mod_eq_zero (by
                rw [← Nat.mod_add_mod, hlast, Nat.mod_self]))
            · refine .inl ?_
              have hlt := Nat.mod_lt n hk
              rw [← Nat.mod_add_mod, Nat.mod_eq_of_lt (by omega)]
              have := hn.resolve_right hndvd
              omega
          obtain ⟨hdvd, hle⟩ := ih (n + 1) hnext
          exact ⟨hdvd, by omega⟩

theorem padEntries_of_dvd {k n : ℕ} (rounds : ℕ) (h : k ∣ n) : padEntries k rounds n = n := by
  cases rounds with
  | zero => rfl
  | succ rounds => rw [padEntries, if_pos (Nat.mul_div_cancel' h)]

/-- **A table of a given size**: a size below `2 ^ 24` survives its passage
through a `float`. -/
theorem nEntries_of_dvd {k n : ℕ} (hn : n < 2 ^ 24) (h : k ∣ n) : nEntries n 1 k = n := by
  rw [nEntries, mul_one, Binary32.round_natCast hn, Binary32.round_natCast hn]
  rw [Int.floor_natCast, Int.toNat_natCast]
  exact padEntries_of_dvd k h

/-- A table has entries if the `float` product is above one. -/
theorem nEntries_spec {k n : ℕ} {hedge : ℚ} (hone : 108 / 100 ≤ Binary32.round n * hedge)
    (hk : 1 < k) : 0 < nEntries n hedge k ∧ k ∣ nEntries n hedge k := by
  have hfloor : (1 : ℤ) ≤ ⌊Binary32.round (Binary32.round n * hedge)⌋ := by
    have := Binary32.le_round (x := Binary32.round n * hedge) (by linarith)
    rw [Int.le_floor]
    push_cast
    linarith
  obtain ⟨hdvd, hle⟩ := padEntries_spec (Nat.zero_lt_of_lt hk) k
    ⌊Binary32.round (Binary32.round n * hedge)⌋.toNat (.inl (Nat.sub_le _ _))
  refine ⟨?_, hdvd⟩
  rw [nEntries]
  omega

/-- The product with an overhead that is looked up. -/
theorem le_round_mul {n : ℕ} {hedge : ℚ} (hn : 0 < n) (hhedge : 109 / 100 ≤ hedge) :
    108 / 100 ≤ Binary32.round n * hedge := by
  have hn' : (1 : ℚ) ≤ n := by exact_mod_cast hn
  have hround := Binary32.le_round (x := (n : ℚ)) (by linarith)
  nlinarith

/-- The product with one. -/
theorem le_round_mul_one {n : ℕ} (hn : 1 < n) : 108 / 100 ≤ Binary32.round n * 1 := by
  have hn' : (2 : ℚ) ≤ n := by exact_mod_cast hn
  have hround := Binary32.le_round (x := (n : ℚ)) (by linarith)
  linarith

/-- What the constructor makes, with the asserts compiled out. -/
theorem make_eq (n valueSize k : ℕ) (hedge : ℚ) :
    make false n valueSize hedge k =
      .ok ⟨valueSize, k, List.replicate (nEntries n hedge k) {}⟩ := rfl

end Iblt

/-! ## sets of ids as signed multisets -/

/-- Every id of a set once. -/
noncomputable def ofIds (ids : Finset ℕ) : ℕ →₀ ℤ := ∑ x ∈ ids, Finsupp.single x 1

theorem ofIds_apply (ids : Finset ℕ) (x : ℕ) : ofIds ids x = if x ∈ ids then 1 else 0 := by
  rw [ofIds, Finsupp.finsetSum_apply]
  simp only [Finsupp.single_apply, Finset.sum_ite_eq']

theorem ofIds_toFinset {l : List ℕ} (h : l.Nodup) :
    ofIds l.toFinset = (l.map fun x => Finsupp.single x 1).sum :=
  List.sum_toFinset _ h

/-- The signed difference of two sets. -/
theorem ofIds_sub_eq_one {S T : Finset ℕ} {x : ℕ} : (ofIds S - ofIds T) x = 1 ↔ x ∈ S ∧ x ∉ T := by
  rw [Finsupp.sub_apply, ofIds_apply, ofIds_apply]
  by_cases hS : x ∈ S <;> by_cases hT : x ∈ T <;> simp [hS, hT]

theorem ofIds_sub_eq_neg_one {S T : Finset ℕ} {x : ℕ} :
    (ofIds S - ofIds T) x = -1 ↔ x ∈ T ∧ x ∉ S := by
  rw [Finsupp.sub_apply, ofIds_apply, ofIds_apply]
  by_cases hS : x ∈ S <;> by_cases hT : x ∈ T <;> simp [hS, hT]

/-- The members of an ordered set. -/
def idFinset (ids : ExtTreeSet ℕ) : Finset ℕ := ids.toList.toFinset

theorem mem_idFinset {ids : ExtTreeSet ℕ} {x : ℕ} : x ∈ idFinset ids ↔ x ∈ ids := by
  rw [idFinset, List.mem_toFinset, ExtTreeSet.mem_toList]

/-- The ids of a block, in ascending order. -/
theorem TxSet.Keyed.pairwise_txIds {txs : TxSet} (h : txs.Keyed) :
    (GrapheneProtocol.txIdsFromBlock txs).Pairwise (· < ·) := by
  have hkeys : GrapheneProtocol.txIdsFromBlock txs = txs.keys := by
    rw [GrapheneProtocol.txIdsFromBlock, TxSet.list, List.map_map,
      ← ExtTreeMap.map_fst_toList_eq_keys]
    refine List.map_congr_left fun entry hentry => ?_
    exact h entry.1 entry.2 (mem_toList.mp hentry)
  rw [hkeys]
  exact pairwise_keys txs

/-! ## tables of sets -/

namespace GrapheneProtocol

variable {murmurHash3 : ℕ → ℕ → ℕ}

/-- A loop of insertions. -/
theorem buildIbltFromIds_spec {t : Iblt} {D : ℕ →₀ ℤ} (h : t.Encodes murmurHash3 D)
    (hb : 0 < t.bucketsPerHash) (ids : List ℕ) :
    ∃ t', buildIbltFromIds false murmurHash3 t ids = .ok t' ∧ t.SameShape t' ∧
      t'.Encodes murmurHash3 (D + (ids.map fun x => Finsupp.single x 1).sum) := by
  induction ids generalizing t D with
  | nil => exact ⟨t, rfl, ⟨rfl, rfl⟩, by simpa using h⟩
  | cons id ids ih =>
      obtain ⟨u, hu, hshape, hencodes⟩ := h.insert hb 1 (.inl rfl) id fun _ => u64ToVec id
      obtain ⟨t', ht', hshape', hencodes'⟩ := ih hencodes (hshape.bucketsPerHash ▸ hb)
      refine ⟨t', ?_, hshape.trans hshape', ?_⟩
      · rw [buildIbltFromIds, List.foldlM_cons, Iblt.insert, hu]
        exact ht'
      · rw [List.map_cons, List.sum_cons, ← add_assoc]
        exact hencodes'

/-- **The table of a set**, of a size at hand. -/
theorem table_spec (murmurHash3 : ℕ → ℕ → ℕ) {n k : ℕ} (valueSize : ℕ) {hedge : ℚ} (hk : 1 < k)
    (hpos : 0 < Iblt.nEntries n hedge k) (hdvd : k ∣ Iblt.nEntries n hedge k) {ids : List ℕ}
    (hids : ids.Nodup) :
    ∃ t t', Iblt.make false n valueSize hedge k = .ok t ∧
      buildIbltFromIds false murmurHash3 t ids = .ok t' ∧ t'.WellShaped ∧ t'.numHashes = k ∧
      t'.hashTable.length = Iblt.nEntries n hedge k ∧
      t'.Encodes murmurHash3 (ofIds ids.toFinset) := by
  have hshaped : Iblt.WellShaped
      ⟨valueSize, k, List.replicate (Iblt.nEntries n hedge k) {}⟩ := by
    refine ⟨hk, ?_, ?_⟩
    · exact List.length_replicate.symm ▸ hpos
    · exact List.length_replicate.symm ▸ hdvd
  obtain ⟨t', ht', hshape, hencodes⟩ := buildIbltFromIds_spec
    (Iblt.encodes_replicate murmurHash3) hshaped.bucketsPerHash_pos ids
  refine ⟨_, t', Iblt.make_eq n valueSize k hedge, ht', hshape.wellShaped hshaped, hshape.numHashes,
    hshape.length.trans List.length_replicate, ?_⟩
  rwa [zero_add, ← ofIds_toFinset hids] at hencodes

/-- The receiver's own table beside one of the sender's, whose size need not
survive the passage through a `float`. -/
theorem exists_own {t : Iblt} (ht : t.WellShaped) (ids : ExtTreeSet ℕ) :
    ∃ own : Iblt, (own.WellShaped ∧ own.numHashes = t.numHashes ∧
        own.hashTable.length = Iblt.nEntries t.hashTable.length 1 t.numHashes ∧
        own.Encodes murmurHash3 (ofIds (idFinset ids))) ∧
      differenceTable false murmurHash3 t ids = t.sub false own := by
  have htwo : 1 < t.hashTable.length := ht.numHashes.trans_le (Nat.le_of_dvd ht.pos ht.dvd)
  obtain ⟨hpos, hdvd⟩ := Iblt.nEntries_spec (Iblt.le_round_mul_one htwo) ht.numHashes
  obtain ⟨own, own', hown, hown', hspec⟩ :=
    table_spec murmurHash3 ibltValueSize ht.numHashes hpos hdvd
      (nodup_of_pairwise_lt (pairwise_toList ids))
  refine ⟨own', hspec, ?_⟩
  rw [differenceTable, Iblt.hashTableSize, hown]
  change (do let own ← buildIbltFromIds false murmurHash3 own ids.toList; t.sub false own) = _
  rw [hown']
  rfl

/-- **The difference of a table and the receiver's own**, if they have one
size. -/
theorem exists_differenceTable {t : Iblt} (ht : t.WellShaped)
    (hsize : Iblt.nEntries t.hashTable.length 1 t.numHashes = t.hashTable.length)
    (ids : ExtTreeSet ℕ) :
    ∃ d, differenceTable false murmurHash3 t ids = .ok d ∧ t.SameShape d ∧
      Iblt.tableSums d.hashTable = Iblt.tableSums t.hashTable -
        Finsupp.linearCombination ℤ (Iblt.cell murmurHash3 t.numHashes t.bucketsPerHash)
          (ofIds (idFinset ids)) := by
  obtain ⟨own, ⟨-, hhashes, hlength, hencodes⟩, hdiff⟩ := exists_own ht ids
  rw [hsize] at hlength
  have hbuckets : own.bucketsPerHash = t.bucketsPerHash :=
    Iblt.SameShape.bucketsPerHash ⟨hhashes, hlength⟩
  rw [Iblt.Encodes, hhashes, hbuckets] at hencodes
  refine ⟨_, hdiff.trans (Iblt.sub_eq hlength.ge), ⟨rfl, ?_⟩, ?_⟩
  · rw [List.length_zipWith, hlength, Nat.min_self]
  · rw [Iblt.tableSums_zipWith hlength.symm, hencodes]

/-- A receiver's table that comes out shorter makes no difference. -/
theorem differenceTable_eq_error {t : Iblt} (ht : t.WellShaped)
    (hshort : Iblt.nEntries t.hashTable.length 1 t.numHashes < t.hashTable.length)
    (ids : ExtTreeSet ℕ) :
    differenceTable false murmurHash3 t ids = .error .outOfBounds := by
  obtain ⟨own, ⟨-, -, hlength, -⟩, hdiff⟩ := exists_own ht ids
  rw [hdiff, Iblt.sub_eq_error (hlength.trans_lt hshort)]

/-- So if the first table stands for some keys, the difference stands for what
is left of them. -/
theorem differenceTable_spec {t : Iblt} {D : ℕ →₀ ℤ} (h : t.Encodes murmurHash3 D)
    (ht : t.WellShaped) (hsize : t.hashTable.length < 2 ^ 24) (ids : ExtTreeSet ℕ) :
    ∃ d, differenceTable false murmurHash3 t ids = .ok d ∧ t.SameShape d ∧
      d.Encodes murmurHash3 (D - ofIds (idFinset ids)) := by
  obtain ⟨d, hd, hshape, hsums⟩ :=
    exists_differenceTable ht (Iblt.nEntries_of_dvd hsize ht.dvd) ids
  refine ⟨d, hd, hshape, ?_⟩
  rw [Iblt.Encodes, hshape.numHashes, hshape.bucketsPerHash, hsums, h, map_sub]

/-- The difference has entries in every partition. -/
theorem differenceTable_wellShaped {t d : Iblt} (ht : t.WellShaped) {ids : ExtTreeSet ℕ}
    (hd : differenceTable false murmurHash3 t ids = .ok d) : d.WellShaped := by
  obtain ⟨own, -, hdiff⟩ := exists_own ht ids
  rw [hdiff] at hd
  obtain hlt | hle := Nat.lt_or_ge own.hashTable.length t.hashTable.length
  · cases (Iblt.sub_eq_error hlt).symm.trans hd
  · obtain rfl := Except.ok.inj ((Iblt.sub_eq hle).symm.trans hd)
    refine ⟨ht.numHashes, ?_, ?_⟩
    · rw [List.length_zipWith, Nat.min_eq_left hle]
      exact ht.pos
    · rw [List.length_zipWith, Nat.min_eq_left hle]
      exact ht.dvd

/-- A difference stands for what is left of the keys, up to the size that
survives the passage through a `float`. -/
theorem encodes_differenceTable {t d : Iblt} {D : ℕ →₀ ℤ} (h : t.Encodes murmurHash3 D)
    (ht : t.WellShaped) {ids : ExtTreeSet ℕ} (hd : differenceTable false murmurHash3 t ids = .ok d)
    (hlarge : 2 ^ 24 ≤ t.hashTable.length → d.Encodes murmurHash3 (D - ofIds (idFinset ids))) :
    d.Encodes murmurHash3 (D - ofIds (idFinset ids)) := by
  by_cases hsize : t.hashTable.length < 2 ^ 24
  · obtain ⟨d', hd', -, hencodes⟩ := differenceTable_spec h ht hsize ids
    obtain rfl := Except.ok.inj (hd.symm.trans hd')
    exact hencodes
  · exact hlarge (not_lt.mp hsize)

/-- **The table of a block**, of a size that is looked up. -/
theorem lookupTable_spec (murmurHash3 : ℕ → ℕ → ℕ) {nItems : ℕ} (hpos : 0 < nItems) {txs : TxSet}
    (hkeyed : txs.Keyed) :
    ∃ t, lookupTable false murmurHash3 nItems (txIdsFromBlock txs) = .ok t ∧ t.WellShaped ∧
      t.Encodes murmurHash3 (ofIds txs.idSet) ∧
      t.numHashes = (CIbltParams.lookup nItems).numhashes ∧
      t.hashTable.length = Iblt.nEntries nItems (CIbltParams.lookup nItems).overhead
        (CIbltParams.lookup nItems).numhashes := by
  have hhashes := CIbltParams.one_lt_numhashes nItems
  obtain ⟨hn, hdvd⟩ := Iblt.nEntries_spec
    (Iblt.le_round_mul hpos (CIbltParams.le_overhead nItems)) hhashes
  obtain ⟨t, t', ht, ht', hshaped, hnum, hlength, hencodes⟩ :=
    table_spec murmurHash3 ibltValueSize hhashes hn hdvd
      (nodup_of_pairwise_lt hkeyed.pairwise_txIds)
  refine ⟨t', ?_, hshaped, hencodes, hnum, hlength⟩
  unfold lookupTable
  dsimp only
  rw [ht]
  exact ht'

/-- **What the sender sends**: the table of the block. -/
theorem buildSenderComponents_spec {arith : Arithmetic} {txs : TxSet} {m : ℕ} {bf : BloomFilter}
    {iblt : Iblt} (hkeyed : txs.Keyed)
    (h : buildSenderComponents false murmurHash3 arith txs m = .ok (some (bf, iblt))) :
    iblt.WellShaped ∧ iblt.Encodes murmurHash3 (ofIds txs.idSet) := by
  obtain ⟨t, ht, hshaped, hencodes, -⟩ := lookupTable_spec murmurHash3
    (nIbltCells_pos arith txs.size m) hkeyed
  unfold buildSenderComponents at h
  dsimp only at h
  split at h
  · cases h
  · rw [ht] at h
    cases h
    exact ⟨hshaped, hencodes⟩

/-- The second table of the sender. -/
theorem secondIblt_spec (murmurHash3 : ℕ → ℕ → ℕ) (blk : Block) (receiverBloom : BloomFilter)
    {yStar b : Int32} (hkeyed : blk.txs.Keyed) (hpos : 0 < (b + yStar).toInt) :
    ∃ iblt, secondIblt false murmurHash3 blk receiverBloom yStar b =
        .ok (iblt, (txIdsFromBlock blk.txs).filter fun id => !receiverBloom.contains id) ∧
      iblt.WellShaped ∧ iblt.Encodes murmurHash3 (ofIds blk.txs.idSet) := by
  have hcount : 0 < itemCount b yStar := by
    have := Int32.toInt_lt (b + yStar)
    rw [itemCount]
    omega
  obtain ⟨t, ht, hshaped, hencodes, -⟩ := lookupTable_spec murmurHash3 hcount hkeyed
  refine ⟨t, ?_, hshaped, hencodes⟩
  unfold secondIblt
  rw [ht]
  rfl

/-! ## decoding -/

theorem mem_adjust {ids : ExtTreeSet ℕ} {negative positive : Listing} {x : ℕ} :
    x ∈ adjust ids negative positive ↔ (x ∈ ids ∧ x ∉ negative.keys) ∨ x ∈ positive.keys := by
  rw [adjust, mem_foldl_set_insert, ← List.foldl_map, mem_foldl_set_erase]
  simp only [Listing.keys, List.mem_map, @eq_comm _ x]

/-- A listing that succeeds: the positive keys are missing from the second
set, and the negative ones are too much in it. -/
theorem lists_difference {S T : Finset ℕ} {positive negative : Listing} {E : ℕ →₀ ℤ}
    (h : Iblt.Lists (ofIds S - ofIds T) true positive negative E) (x : ℕ) :
    (x ∈ positive.keys ↔ x ∈ S ∧ x ∉ T) ∧ (x ∈ negative.keys ↔ x ∈ T ∧ x ∉ S) := by
  have hE : E x = 0 := by rw [h.eq_zero rfl, Finsupp.coe_zero, Pi.zero_apply]
  constructor
  · rw [h.mem_positive, ofIds_sub_eq_one, and_iff_left hE]
  · rw [h.mem_negative, ofIds_sub_eq_neg_one, and_iff_left hE]

/-- **A listing that succeeds turns one set into the other.** -/
theorem mem_adjust_of_lists {S : Finset ℕ} {ids : ExtTreeSet ℕ} {positive negative : Listing}
    {E : ℕ →₀ ℤ} (h : Iblt.Lists (ofIds S - ofIds (idFinset ids)) true positive negative E) (x : ℕ) :
    x ∈ adjust ids negative positive ↔ x ∈ S := by
  obtain ⟨hpos, hneg⟩ := lists_difference h x
  rw [mem_adjust, hpos, hneg, mem_idFinset]
  tauto

end GrapheneProtocol

end GhostDag
