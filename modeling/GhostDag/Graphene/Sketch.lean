import GhostDag.Graphene.Iblt
import GhostDag.Lib.XorWord

/-!
# GhostDag.Graphene.Sketch

What a table stands for: a signed multiset of keys.

The three sums of an entry live in a commutative group, a key contributes one
element of it to each entry it falls into (`Iblt.cell`), and the table is the
linear combination of its keys (`Iblt.Encodes`).  Insertion adds a key, and
subtracting two tables subtracts what they stand for, so that common keys
cancel.
-/

namespace GhostDag

/-- Where the three sums of an entry live. -/
abbrev Sums := ℤ × XorWord × XorWord

namespace HashTableEntry

def sums (e : HashTableEntry) : Sums := (e.count, ⟨e.keySum⟩, ⟨e.keyCheck⟩)

theorem sums_accumulate (e : HashTableEntry) (count : ℤ) (keySum keyCheck : ℕ) (v : ValueBytes) :
    (e.accumulate count keySum keyCheck v).sums = e.sums + (count, ⟨keySum⟩, ⟨keyCheck⟩) := by
  unfold accumulate
  dsimp only
  split <;> rfl

theorem empty_iff (e : HashTableEntry) : e.empty = true ↔ e.sums = 0 := by
  simp [empty, sums, Prod.ext_iff, XorWord.ext_iff, and_assoc]

end HashTableEntry

namespace Iblt

/-! ## tables as functions -/

/-- The sums of every entry; past the end they are zero. -/
def tableSums (l : List HashTableEntry) (j : ℕ) : Sums := (l[j]?.map HashTableEntry.sums).getD 0

theorem tableSums_of_getElem? {l : List HashTableEntry} {j : ℕ} {e : HashTableEntry}
    (h : l[j]? = some e) : tableSums l j = e.sums := by
  rw [tableSums, h]
  rfl

theorem tableSums_replicate (n : ℕ) : tableSums (List.replicate n {}) = 0 := by
  funext j
  rw [tableSums, List.getElem?_replicate]
  split <;> rfl

theorem tableSums_modify {l : List HashTableEntry} {i : ℕ} (hi : i < l.length)
    {f : HashTableEntry → HashTableEntry} {d : Sums} (hf : ∀ e, (f e).sums = e.sums + d) :
    tableSums (l.modify i f) = tableSums l + Pi.single i d := by
  funext j
  rw [tableSums, List.getElem?_modify, Pi.add_apply, tableSums]
  by_cases hj : i = j
  · subst hj
    rw [List.getElem?_eq_getElem hi, Pi.single_eq_same]
    simp [hf]
  · rw [Pi.single_eq_of_ne (Ne.symm hj), add_zero]
    simp [hj]

theorem tableSums_zipWith {l l' : List HashTableEntry} (hlen : l.length = l'.length) :
    tableSums (l.zipWith
      (fun e1 e2 => e1.accumulate (-e2.count) e2.keySum e2.keyCheck e2.valueSum) l') =
      tableSums l - tableSums l' := by
  funext j
  rw [Pi.sub_apply, tableSums, tableSums, tableSums, List.getElem?_zipWith]
  by_cases hj : j < l.length
  · rw [List.getElem?_eq_getElem hj, List.getElem?_eq_getElem (hlen ▸ hj)]
    simp only [Option.map_some, Option.getD_some, HashTableEntry.sums_accumulate]
    rw [sub_eq_add_neg]
    rfl
  · rw [List.getElem?_eq_none (not_lt.mp hj), List.getElem?_eq_none (hlen ▸ not_lt.mp hj)]
    rfl

/-! ## what a key contributes -/

section Cells

variable (murmurHash3 : ℕ → ℕ → ℕ) (numHashes buckets : ℕ)

/-- The entry of a key in a partition. -/
def slot (i k : ℕ) : ℕ := i * buckets + murmurHash3 i k % buckets

/-- The key falls into the entry. -/
def Holds (k j : ℕ) : Prop := ∃ i < numHashes, slot murmurHash3 buckets i k = j

/-- What a key adds to the entries. -/
noncomputable def cell (k : ℕ) : ℕ → Sums :=
  ∑ i ∈ Finset.range numHashes,
    Pi.single (slot murmurHash3 buckets i k) ((1, ⟨k⟩, ⟨murmurHash3 nHashCheck k⟩) : Sums)

variable {murmurHash3 numHashes buckets}

theorem slot_injective (hb : 0 < buckets) {i i' k : ℕ}
    (h : slot murmurHash3 buckets i k = slot murmurHash3 buckets i' k) : i = i' := by
  have hdiv : ∀ i, slot murmurHash3 buckets i k / buckets = i := by
    intro i
    rw [slot, Nat.add_comm, Nat.add_mul_div_right _ _ hb, Nat.div_eq_of_lt (Nat.mod_lt _ hb),
      Nat.zero_add]
  rw [← hdiv i, h, hdiv]

theorem slot_lt (hb : 0 < buckets) {i : ℕ} (hi : i < numHashes) (k : ℕ) :
    slot murmurHash3 buckets i k < numHashes * buckets := by
  have hmod := Nat.mod_lt (murmurHash3 i k) hb
  have hmul := Nat.mul_le_mul_right buckets (Nat.succ_le_of_lt hi)
  rw [slot]
  rw [Nat.succ_mul] at hmul
  omega

/-- **A key falls into an entry once or not at all.** -/
theorem cell_apply (hb : 0 < buckets) (k j : ℕ) [Decidable (Holds murmurHash3 numHashes buckets k j)] :
    cell murmurHash3 numHashes buckets k j =
      if Holds murmurHash3 numHashes buckets k j then (1, ⟨k⟩, ⟨murmurHash3 nHashCheck k⟩) else 0 := by
  rw [cell, Finset.sum_apply]
  split
  · next h =>
      obtain ⟨i, hi, rfl⟩ := h
      rw [Finset.sum_eq_single_of_mem i (Finset.mem_range.mpr hi)]
      · exact Pi.single_eq_same _ _
      · intro i' _ hne
        exact Pi.single_eq_of_ne (fun heq => hne (slot_injective hb heq.symm)) _
  · next h =>
      refine Finset.sum_eq_zero fun i hi => Pi.single_eq_of_ne (fun heq => h ?_) _
      exact ⟨i, Finset.mem_range.mp hi, heq.symm⟩

end Cells

/-! ## tables as signed multisets -/

variable {murmurHash3 : ℕ → ℕ → ℕ}

/-- **The table stands for `D`**: a key counts as often as `D` says. -/
def Encodes (murmurHash3 : ℕ → ℕ → ℕ) (t : Iblt) (D : ℕ →₀ ℤ) : Prop :=
  tableSums t.hashTable =
    Finsupp.linearCombination ℤ (cell murmurHash3 t.numHashes t.bucketsPerHash) D

/-- Tables whose keys fall into the same entries. -/
structure SameShape (t t' : Iblt) : Prop where
  numHashes : t'.numHashes = t.numHashes
  length : t'.hashTable.length = t.hashTable.length

theorem SameShape.bucketsPerHash {t t' : Iblt} (h : SameShape t t') :
    t'.bucketsPerHash = t.bucketsPerHash := by
  rw [Iblt.bucketsPerHash, Iblt.bucketsPerHash, h.length, h.numHashes]

theorem SameShape.trans {t t' t'' : Iblt} (h : SameShape t t') (h' : SameShape t' t'') :
    SameShape t t'' := ⟨h'.numHashes.trans h.numHashes, h'.length.trans h.length⟩

theorem length_insertLoop (t : Iblt) (plusOrMinus : ℤ) (k : ℕ) (v : List HashTableEntry → ValueBytes) :
    (t.insertLoop murmurHash3 plusOrMinus k v).length = t.hashTable.length := by
  have hgen : ∀ (l : List ℕ) (table : List HashTableEntry),
      (l.foldl (fun table i => table.modify (t.index murmurHash3 i k) fun e =>
        e.accumulate plusOrMinus k (murmurHash3 nHashCheck k) (v table)) table).length =
        table.length := by
    intro l
    induction l with
    | nil => exact fun table => rfl
    | cons i l ih =>
        intro table
        rw [List.foldl_cons, ih, List.length_modify]
  exact hgen _ _

theorem slot_lt_length {t : Iblt} (hb : 0 < t.bucketsPerHash) {i : ℕ} (hi : i < t.numHashes) (k : ℕ) :
    slot murmurHash3 t.bucketsPerHash i k < t.hashTable.length :=
  (slot_lt hb hi k).trans_le (Nat.mul_div_le _ _)

/-- The loop of `_insert` adds the contribution of the key. -/
theorem tableSums_insertLoop {t : Iblt} (hb : 0 < t.bucketsPerHash) {plusOrMinus : ℤ}
    (hsign : plusOrMinus = 1 ∨ plusOrMinus = -1) (k : ℕ) (v : List HashTableEntry → ValueBytes) :
    tableSums (t.insertLoop murmurHash3 plusOrMinus k v) = tableSums t.hashTable +
      plusOrMinus • cell murmurHash3 t.numHashes t.bucketsPerHash k := by
  have hsmul : plusOrMinus • ((1, ⟨k⟩, ⟨murmurHash3 nHashCheck k⟩) : Sums) =
      (plusOrMinus, ⟨k⟩, ⟨murmurHash3 nHashCheck k⟩) := by
    obtain rfl | rfl := hsign
    · exact one_zsmul _
    · exact neg_one_zsmul _
  have hgen : ∀ m ≤ t.numHashes,
      let l := (List.range m).foldl (fun table i => table.modify (t.index murmurHash3 i k) fun e =>
        e.accumulate plusOrMinus k (murmurHash3 nHashCheck k) (v table)) t.hashTable
      l.length = t.hashTable.length ∧ tableSums l = tableSums t.hashTable +
        plusOrMinus • cell murmurHash3 m t.bucketsPerHash k := by
    intro m
    induction m with
    | zero => exact fun _ => ⟨rfl, by simp [cell]⟩
    | succ m ih =>
        intro hm
        obtain ⟨hlen, hsums⟩ := ih (Nat.le_of_succ_le hm)
        rw [List.range_succ, List.foldl_append, List.foldl_cons, List.foldl_nil]
        refine ⟨by rw [List.length_modify, hlen], ?_⟩
        rw [tableSums_modify (d := (plusOrMinus, ⟨k⟩, ⟨murmurHash3 nHashCheck k⟩)) ?_ fun e =>
          e.sums_accumulate _ _ _ _]
        · rw [hsums, cell, cell, Finset.sum_range_succ, smul_add, ← Pi.single_smul, hsmul, add_assoc]
          rfl
        · rw [hlen]
          exact slot_lt_length hb hm k
  exact (hgen t.numHashes le_rfl).2

/-! ## what the operations do -/

theorem encodes_replicate (murmurHash3 : ℕ → ℕ → ℕ) {valueSize numHashes n : ℕ} :
    Encodes murmurHash3 ⟨valueSize, numHashes, List.replicate n {}⟩ 0 := by
  rw [Encodes, tableSums_replicate, map_zero]

/-- **Insertion and erasure** add a key, with its sign. -/
theorem Encodes.insert {t : Iblt} {D : ℕ →₀ ℤ} (h : Encodes murmurHash3 t D)
    (hb : 0 < t.bucketsPerHash) (plusOrMinus : ℤ) (hsign : plusOrMinus = 1 ∨ plusOrMinus = -1)
    (k : ℕ) (v : List HashTableEntry → ValueBytes) :
    ∃ t', t._insert false murmurHash3 plusOrMinus k v = .ok t' ∧ SameShape t t' ∧
      Encodes murmurHash3 t' (D + Finsupp.single k plusOrMinus) := by
  have hshape : SameShape t { t with hashTable := t.insertLoop murmurHash3 plusOrMinus k v } :=
    ⟨rfl, length_insertLoop t plusOrMinus k v⟩
  refine ⟨_, rfl, hshape, ?_⟩
  rw [Encodes, hshape.bucketsPerHash, tableSums_insertLoop hb hsign, h, map_add,
    Finsupp.linearCombination_single]

/-- **Subtraction** leaves the difference. -/
theorem Encodes.sub {t t' : Iblt} {D D' : ℕ →₀ ℤ} (h : Encodes murmurHash3 t D)
    (h' : Encodes murmurHash3 t' D') (hshape : SameShape t t') :
    ∃ d, t.sub false t' = .ok d ∧ SameShape t d ∧ Encodes murmurHash3 d (D - D') := by
  have hd : SameShape t { t with
      hashTable := t.hashTable.zipWith
        (fun e1 e2 => e1.accumulate (-e2.count) e2.keySum e2.keyCheck e2.valueSum)
        t'.hashTable } := by
    refine ⟨rfl, ?_⟩
    rw [List.length_zipWith, hshape.length, Nat.min_self]
  refine ⟨_, sub_eq hshape.length.ge, hd, ?_⟩
  rw [Encodes, hd.bucketsPerHash, tableSums_zipWith hshape.length.symm, h, h', map_sub,
    hshape.bucketsPerHash, hshape.numHashes]

/-- The entry of a table that stands for `D`. -/
theorem Encodes.sums_eq {t : Iblt} {D : ℕ →₀ ℤ} (h : Encodes murmurHash3 t D) {j : ℕ}
    {e : HashTableEntry} (he : t.hashTable[j]? = some e) :
    e.sums = ∑ k ∈ D.support, D k • cell murmurHash3 t.numHashes t.bucketsPerHash k j := by
  rw [← tableSums_of_getElem? he, h, Finsupp.linearCombination_apply, Finsupp.sum, Finset.sum_apply]
  rfl

/-- The sums of an entry with one key in it. -/
theorem Encodes.sums_of_unique {t : Iblt} {D : ℕ →₀ ℤ} (h : Encodes murmurHash3 t D)
    (hb : 0 < t.bucketsPerHash) {j x : ℕ} {e : HashTableEntry} (he : t.hashTable[j]? = some e)
    (hx : x ∈ D.support) (hold : Holds murmurHash3 t.numHashes t.bucketsPerHash x j)
    (hone : ∀ y ∈ D.support, Holds murmurHash3 t.numHashes t.bucketsPerHash y j → y = x) :
    e.sums = D x • ((1, ⟨x⟩, ⟨murmurHash3 nHashCheck x⟩) : Sums) := by
  classical
  rw [h.sums_eq he, Finset.sum_eq_single_of_mem x hx, cell_apply hb, if_pos hold]
  intro y hy hne
  rw [cell_apply hb, if_neg fun hold' => hne (hone y hy hold'), smul_zero]

/-- A key falls into an entry of the first partition. -/
theorem exists_holds_lt (murmurHash3 : ℕ → ℕ → ℕ) {t : Iblt} (hk : 0 < t.numHashes)
    (hb : 0 < t.bucketsPerHash) (x : ℕ) :
    ∃ j < t.bucketsPerHash, Holds murmurHash3 t.numHashes t.bucketsPerHash x j := by
  refine ⟨slot murmurHash3 t.bucketsPerHash 0 x, ?_, 0, hk, rfl⟩
  rw [slot, Nat.zero_mul, Nat.zero_add]
  exact Nat.mod_lt _ hb

end Iblt

end GhostDag
