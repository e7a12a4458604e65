import GhostDag.Dag.BitSet
import GhostDag.Lib.Containers

/-!
# GhostDag.Node.TxIdSet

The set of transaction ids a node has ever seen (`TxIdSet` of `node.h`): one
row of bits per generating node, one bit per sequence number, as ids are
`node_id << 32 | sequence`.

Row numbers are 32-bit: for the last one `node + 1` wraps to `0`, the rows
are dropped and the code goes on to index an empty vector, which is `none`
here.
-/

namespace GhostDag

open Containers

/-- `IdFromTxId`. -/
def idFromTxId (txId : Nat) : Nat := txId / 2 ^ 32 % 2 ^ 32

/-- `static_cast<uint32_t>(tx_id)`. -/
def seqOfTxId (txId : Nat) : Nat := txId % 2 ^ 32

/-- `TxIdSet::m_bits`. -/
structure TxIdSet where
  bits : List (List (BitVec 64)) := []
  deriving DecidableEq

namespace TxIdSet

instance : EmptyCollection TxIdSet := ⟨{}⟩

/-- `m_bits[node]`, empty past the end. -/
def row (s : TxIdSet) (node : Nat) : List (BitVec 64) := s.bits.getD node []

def contains (s : TxIdSet) (txId : Nat) : Bool :=
  decide (idFromTxId txId < s.bits.length) &&
    (⟨s.row (idFromTxId txId)⟩ : BitSet).test (seqOfTxId txId)

/-- `std::vector::resize` of the rows. -/
def resize (bits : List (List (BitVec 64))) (n : Nat) : List (List (BitVec 64)) :=
  (bits ++ List.replicate (n - bits.length) []).take n

/-- Make room for word `w` of a row, at least doubling it when it grows. -/
def growRow (v : List (BitVec 64)) (w : Nat) : List (BitVec 64) :=
  if v.length ≤ w then BitSet.grow v (max (w + 1) (v.length * 2)) else v

/-- Set a bit of a row. -/
def setBit (v : List (BitVec 64)) (seq : Nat) : List (BitVec 64) :=
  (growRow v (BitSet.wordIdx seq)).modify (BitSet.wordIdx seq) (· ||| 1#64 <<< BitSet.bitIdx seq)

def insert (s : TxIdSet) (txId : Nat) : Option TxIdSet :=
  let node := idFromTxId txId
  let bits := if s.bits.length ≤ node then resize s.bits ((node + 1) % 2 ^ 32) else s.bits
  if node < bits.length then some ⟨bits.modify node (setBit · (seqOfTxId txId))⟩ else none

/-! ## membership -/

theorem wordIdx_lt_length_growRow (v : List (BitVec 64)) (i : ℕ) :
    BitSet.wordIdx i < (growRow v (BitSet.wordIdx i)).length := by
  unfold growRow
  split
  · rw [BitSet.length_grow]
    omega
  · omega

theorem test_setBit (v : List (BitVec 64)) (i j : ℕ) :
    (⟨setBit v i⟩ : BitSet).test j = (decide (j = i) || (⟨v⟩ : BitSet).test j) := by
  rw [setBit, BitSet.test_modify (wordIdx_lt_length_growRow v i), growRow]
  split
  · rw [BitSet.test_grow]
  · rfl

/-- Growing adds empty rows only. -/
theorem row_resize (bits : List (List (BitVec 64))) {n : ℕ} (hn : bits.length ≤ n) (i : ℕ) :
    (resize bits n).getD i [] = bits.getD i [] := by
  have hlen : (bits ++ List.replicate (n - bits.length) ([] : List (BitVec 64))).length ≤ n := by
    rw [List.length_append, List.length_replicate]
    omega
  rw [resize, List.take_of_length_le hlen, List.getD_eq_getElem?_getD, List.getD_eq_getElem?_getD]
  by_cases hi : i < bits.length
  · rw [List.getElem?_append_left hi]
  · rw [List.getElem?_append_right (Nat.le_of_not_lt hi),
      List.getElem?_eq_none (Nat.le_of_not_lt hi), List.getElem?_replicate]
    split <;> rfl

/-- Membership is a bit of a row, rows past the end being empty. -/
theorem contains_eq (s : TxIdSet) (t : ℕ) :
    s.contains t = (⟨s.row (idFromTxId t)⟩ : BitSet).test (seqOfTxId t) := by
  rw [contains]
  by_cases h : idFromTxId t < s.bits.length
  · rw [decide_eq_true h, Bool.true_and]
  · rw [decide_eq_false h, Bool.false_and, row, List.getD_eq_getElem?_getD,
      List.getElem?_eq_none (Nat.le_of_not_lt h)]
    rfl

/-- The rows once `insert` has made room for `txId`. -/
def rowsFor (s : TxIdSet) (txId : Nat) : List (List (BitVec 64)) :=
  if s.bits.length ≤ idFromTxId txId then resize s.bits ((idFromTxId txId + 1) % 2 ^ 32) else s.bits

theorem length_resize (bits : List (List (BitVec 64))) (n : ℕ) : (resize bits n).length = n := by
  rw [resize, List.length_take, List.length_append, List.length_replicate]
  omega

theorem insert_eq (s : TxIdSet) (t : ℕ) : s.insert t =
    if idFromTxId t < (s.rowsFor t).length then
      some ⟨(s.rowsFor t).modify (idFromTxId t) (setBit · (seqOfTxId t))⟩
    else none := rfl

/-- Had the row number wrapped, no row would be left. -/
theorem getD_rowsFor {s : TxIdSet} {t : ℕ} (hlt : idFromTxId t < (s.rowsFor t).length) (i : ℕ) :
    (s.rowsFor t).getD i [] = s.row i := by
  unfold rowsFor at hlt ⊢
  split at hlt
  · next hle =>
      rw [length_resize] at hlt
      rw [if_pos hle]
      exact row_resize s.bits (by omega) i
  · next hgt => rw [if_neg hgt, row]

/-- **`insert` adds the ids with the same 64-bit value** and keeps the others. -/
theorem contains_insert {s s' : TxIdSet} {t : ℕ} (h : s.insert t = some s') (u : ℕ) :
    s'.contains u = true ↔
      (idFromTxId u = idFromTxId t ∧ seqOfTxId u = seqOfTxId t) ∨ s.contains u = true := by
  rw [insert_eq] at h
  split at h
  · next hlt =>
      obtain rfl := Option.some.inj h
      have hmod := getD_modify (s.rowsFor t) (setBit · (seqOfTxId t)) [] hlt (idFromTxId u)
      simp only [getD_rowsFor hlt] at hmod
      rw [contains_eq, contains_eq, row, hmod]
      by_cases hnode : idFromTxId u = idFromTxId t
      · rw [if_pos hnode, test_setBit, Bool.or_eq_true, decide_eq_true_eq, hnode]
        simp only [true_and]
      · rw [if_neg hnode]
        simp only [hnode, false_and, false_or]
  · exact absurd h.symm (Option.some_ne_none s')

theorem contains_insert_self {s s' : TxIdSet} {t : ℕ} (h : s.insert t = some s') :
    s'.contains t = true := (contains_insert h t).mpr (.inl ⟨rfl, rfl⟩)

theorem contains_of_insert {s s' : TxIdSet} {t u : ℕ} (h : s.insert t = some s')
    (hu : s.contains u = true) : s'.contains u = true := (contains_insert h u).mpr (.inr hu)

/-! ## a set of ids -/

/-- Insert ids one after another into a new set. -/
def insertAll (ids : List Nat) : Option TxIdSet := ids.foldlM insert ∅

/-- The row and the word that `insert` goes on to index are there. -/
structure InRange (s : TxIdSet) (txId : Nat) : Prop where
  row : idFromTxId txId < (s.rowsFor txId).length
  word : BitSet.wordIdx (seqOfTxId txId) <
    (growRow ((s.rowsFor txId).getD (idFromTxId txId) []) (BitSet.wordIdx (seqOfTxId txId))).length

/-- Inserting `ids` has made `s`, a set of 64-bit ids that holds exactly them;
every index on the way was in range, and no id was lost again. -/
structure SetOf (ids : List Nat) (s : TxIdSet) : Prop where
  run : insertAll ids = some s
  inRange : ∀ (l l' : List Nat) (t : Nat) (s₁ : TxIdSet), ids = l ++ t :: l' →
    insertAll l = some s₁ → s₁.InRange t
  contains_iff : ∀ x < 2 ^ 64, s.contains x = true ↔ x ∈ ids
  keeps : ∀ (l l' : List Nat) (s₁ : TxIdSet), ids = l ++ l' → insertAll l = some s₁ →
    ∀ x, s₁.contains x = true → s.contains x = true

/-- An id is its two halves. -/
theorem eq_of_halves {t u : ℕ} (ht : t < 2 ^ 64) (hu : u < 2 ^ 64)
    (hid : idFromTxId t = idFromTxId u) (hseq : seqOfTxId t = seqOfTxId u) : t = u := by
  unfold idFromTxId at hid
  unfold seqOfTxId at hseq
  omega

/-- There is room for every row but the last of `2 ^ 32`. -/
theorem inRange_iff {s : TxIdSet} (h : s.bits.length < 2 ^ 32) (t : ℕ) :
    s.InRange t ↔ idFromTxId t ≠ 2 ^ 32 - 1 := by
  have hlt : idFromTxId t < 2 ^ 32 := Nat.mod_lt _ (by decide)
  have hrow : idFromTxId t < (s.rowsFor t).length ↔ idFromTxId t ≠ 2 ^ 32 - 1 := by
    rw [rowsFor]
    split
    · next hle =>
        rw [length_resize]
        by_cases hlast : idFromTxId t = 2 ^ 32 - 1
        · rw [hlast]
          decide
        · rw [Nat.mod_eq_of_lt (by omega)]
          omega
    · omega
  exact ⟨fun hr => hrow.mp hr.row, fun hne => ⟨hrow.mpr hne, wordIdx_lt_length_growRow _ _⟩⟩

/-- `insert` succeeds when its indices are in range. -/
theorem exists_insert {s : TxIdSet} {t : ℕ} (ht : s.InRange t) : ∃ s', s.insert t = some s' :=
  ⟨_, by rw [insert_eq, if_pos ht.row]⟩

/-- There are never `2 ^ 32` rows. -/
theorem length_of_insert {s s' : TxIdSet} (h : s.bits.length < 2 ^ 32) {t : ℕ}
    (hins : s.insert t = some s') : s'.bits.length < 2 ^ 32 := by
  rw [insert_eq] at hins
  split at hins
  · obtain rfl := Option.some.inj hins
    rw [List.length_modify, rowsFor]
    split
    · rw [length_resize]
      exact Nat.mod_lt _ (by decide)
    · exact h
  · exact absurd hins.symm (Option.some_ne_none s')

theorem length_of_insertAll {ids : List ℕ} {s : TxIdSet} (h : insertAll ids = some s) :
    s.bits.length < 2 ^ 32 :=
  foldlM_keeps (P := fun s : TxIdSet => s.bits.length < 2 ^ 32)
    (fun _ _ _ _ hlen hins => length_of_insert hlen hins) (by decide) h

theorem insertAll_append (l l' : List ℕ) :
    insertAll (l ++ l') = (insertAll l).bind fun s => l'.foldlM insert s :=
  List.foldlM_append

theorem contains_foldlM_insert {ids : List ℕ} {s s' : TxIdSet}
    (h : ids.foldlM insert s = some s') {x : ℕ} (hx : s.contains x = true) :
    s'.contains x = true :=
  foldlM_keeps (P := fun s => s.contains x = true)
    (fun _ _ _ _ hmem hins => contains_of_insert hins hmem) hx h

/-- Ids outside the last row go in, and nothing else is found afterwards. -/
theorem exists_insertAll {ids : List ℕ} (hids : ∀ t ∈ ids, t < 2 ^ 64)
    (hrow : ∀ t ∈ ids, idFromTxId t ≠ 2 ^ 32 - 1) :
    ∃ s, insertAll ids = some s ∧ ∀ x < 2 ^ 64, s.contains x = true ↔ x ∈ ids := by
  induction ids using List.reverseRecOn with
  | nil => exact ⟨∅, rfl, fun x _ => iff_of_false Bool.false_ne_true List.not_mem_nil⟩
  | append_singleton ids t ih =>
      rw [List.forall_mem_append, List.forall_mem_singleton] at hids hrow
      obtain ⟨s, hs, hmem⟩ := ih hids.1 hrow.1
      obtain ⟨s', hins⟩ := exists_insert ((inRange_iff (length_of_insertAll hs) t).mpr hrow.2)
      refine ⟨s', ?_, fun x hx => ?_⟩
      · rw [insertAll_append, hs, Option.bind_some, List.foldlM_cons, hins]
        rfl
      · rw [contains_insert hins, hmem x hx, List.mem_append, List.mem_singleton, or_comm]
        refine or_congr_right ⟨fun hsame => eq_of_halves hx hids.2 hsame.1 hsame.2, ?_⟩
        rintro rfl
        exact ⟨rfl, rfl⟩

/-- **`TxIdSet` is a set of 64-bit ids exactly as long as no id of the last row
is inserted.** -/
theorem exists_setOf_iff {ids : List ℕ} (hids : ∀ t ∈ ids, t < 2 ^ 64) :
    (∃ s, SetOf ids s) ↔ ∀ t ∈ ids, idFromTxId t ≠ 2 ^ 32 - 1 := by
  constructor
  · rintro ⟨s, hset⟩ t ht
    obtain ⟨l, l', hsplit⟩ := List.append_of_mem ht
    obtain ⟨s₁, hs₁, -⟩ : ∃ s₁, insertAll l = some s₁ ∧ (t :: l').foldlM insert s₁ = some s := by
      have hrun := hset.run
      rw [hsplit, insertAll_append] at hrun
      exact Option.bind_eq_some_iff.mp hrun
    exact (inRange_iff (length_of_insertAll hs₁) t).mp (hset.inRange l l' t s₁ hsplit hs₁)
  · intro hrow
    obtain ⟨s, hs, hmem⟩ := exists_insertAll hids hrow
    refine ⟨s, hs, fun l l' t s₁ hsplit hrun => ?_, hmem, fun l l' s₁ hsplit hrun x hx => ?_⟩
    · refine (inRange_iff (length_of_insertAll hrun) t).mpr (hrow t ?_)
      exact hsplit ▸ List.mem_append_right l List.mem_cons_self
    · rw [hsplit, insertAll_append, hrun] at hs
      exact contains_foldlM_insert hs hx

/-- Two rows. -/
theorem exists_setOf_iff_two :
    (∃ s, SetOf [2 ^ 64 - 2 ^ 33, 5] s) ↔
      ∀ t ∈ [2 ^ 64 - 2 ^ 33, 5], idFromTxId t ≠ 2 ^ 32 - 1 :=
  exists_setOf_iff (by decide)

/-- **An id of the last row drops all rows.** -/
theorem not_setOf_last : ¬ ∃ s, SetOf [2 ^ 64 - 2 ^ 32] s := by
  rintro ⟨s, hset⟩
  have hrow := (hset.inRange [] [] (2 ^ 64 - 2 ^ 32) ∅ rfl rfl).row
  exact absurd hrow (by decide)

end TxIdSet

end GhostDag
