import GhostDag.Dag.Block
import GhostDag.Lib.Containers

/-!
# GhostDag.Node.Wire

Messages between nodes, and the block bodies that the nodes of one process
share (`BlockBodyStore` of `dag.cc`).

A block travels as its header and its transactions in order; everything a
node derives (scores, flags, times of arrival) stays behind.  The CBOR
encoding of a message is taken to be lossless, and Graphene to be off, so
that a request carries nothing but the block's id.
-/

namespace GhostDag

open Std (ExtTreeMap ExtTreeSet)
open Containers

/-! ## shared bodies -/

/-- `BodyTable()`. -/
abbrev BlockBodyStore := ExtTreeMap Nat TxSet

/-- `TxChecksum`: the exclusive or of the transaction ids. -/
def txChecksum (txs : TxSet) : Nat := txs.list.foldl (fun c tx => c ^^^ tx.txId) 0

/-- `BlockBodyStore::Intern`: the body to use, and the table afterwards. -/
def BlockBodyStore.intern (table : BlockBodyStore) (blockId : Nat) (txs : TxSet) :
    TxSet × BlockBodyStore :=
  match table[blockId]? with
  | some body =>
      if body.size = txs.size ∧ txChecksum body = txChecksum txs then (body, table)
      else (txs, table)
  | none => (txs, table.insert blockId txs)

/-! ## messages -/

/-- The `block` object of a `BLOCK` message. -/
structure WireBlock where
  blockId : Nat
  minerId : Nat
  timeCreated : ℚ
  parentHashes : List Nat
  transactions : List Transaction
  deriving DecidableEq

/-- The messages a node handles when Graphene is off.  A `block_hash` is the
decimal form of a block id, and stands here as the id. -/
inductive Message
  | invRelayBlock (blockHash : Nat)
  | reqRelayBlock (blockHash : Nat)
  | block (b : WireBlock)
  | invTransactions (txHashes : List Nat)
  | reqTransactions (txHashes : List Nat)
  | transactions (txs : List Transaction)
  deriving DecidableEq

/-- The message that `HandleReqRelayBlock` builds from a block. -/
def encodeBlock (b : Block) : WireBlock where
  blockId := b.header.blockId
  minerId := b.header.minerId
  timeCreated := b.header.timeCreated
  parentHashes := b.header.parentHashes
  transactions := b.txs.list

/-- The block that `ProcessMessage` builds from a message, its body interned. -/
def decodeBlock (table : BlockBodyStore) (w : WireBlock) : Block × BlockBodyStore :=
  let (txs, table) := table.intern w.blockId (TxSet.ofList w.transactions)
  ({ header := { blockId := w.blockId, minerId := w.minerId, timeCreated := w.timeCreated,
                 parentHashes := w.parentHashes }
     txs }, table)

/-! ## sets of transactions -/

/-- Every transaction is stored under its own id. -/
def TxSet.Keyed (txs : TxSet) : Prop :=
  ∀ (t : ℕ) (tx : Transaction), txs[t]? = some tx → tx.txId = t

namespace TxSet

theorem keyed_empty : Keyed ∅ := fun t tx h => by simp at h

theorem getElem?_add (txs : TxSet) (tx : Transaction) (t : ℕ) :
    (txs.add tx)[t]? = if tx.txId = t ∧ tx.txId ∉ txs then some tx else txs[t]? := by
  rw [add, ExtTreeMap.getElem?_insertIfNew]
  simp only [Std.compare_eq_iff_eq]

theorem Keyed.add {txs : TxSet} (h : txs.Keyed) (tx : Transaction) : (txs.add tx).Keyed := by
  intro t tx' hget
  rw [getElem?_add] at hget
  split at hget
  · next hnew => exact (Option.some.inj hget) ▸ hnew.1
  · exact h t tx' hget

theorem mem_list {txs : TxSet} {tx : Transaction} : tx ∈ txs.list ↔ ∃ t : ℕ, txs[t]? = some tx := by
  simp [list, ExtTreeMap.mem_toList_iff_getElem?_eq_some]

/-- Of the transactions with one id, the first one inserted is kept. -/
theorem getElem?_foldl_add (l : List Transaction) (txs : TxSet) (t : ℕ) :
    (l.foldl add txs)[t]? = txs[t]?.or (l.find? fun tx => tx.txId = t) := by
  induction l generalizing txs with
  | nil => simp
  | cons tx l ih =>
      rw [List.foldl_cons, ih, getElem?_add]
      by_cases ht : tx.txId = t
      · rw [List.find?_cons_of_pos (by simpa using ht)]
        cases hget : txs[t]? with
        | some old =>
            have hmem : tx.txId ∈ txs := ht ▸ mem_of_getElem? hget
            simp [hmem]
        | none =>
            have hnot : tx.txId ∉ txs := by
              rw [ht]
              intro hmem
              obtain ⟨old, hold⟩ := mem_iff_exists.mp hmem
              exact Option.some_ne_none old (hold.symm.trans hget)
            rw [if_pos ⟨ht, hnot⟩]
            rfl
      · rw [List.find?_cons_of_neg (by simpa using ht)]
        simp [ht]

theorem keyed_foldl_add (l : List Transaction) {txs : TxSet} (h : txs.Keyed) :
    (l.foldl add txs).Keyed := by
  induction l generalizing txs with
  | nil => exact h
  | cons tx l ih => exact ih (h.add tx)

theorem keyed_ofList (l : List Transaction) : (ofList l).Keyed := keyed_foldl_add l keyed_empty

theorem Keyed.mem_list_iff {txs : TxSet} (h : txs.Keyed) {tx : Transaction} :
    tx ∈ txs.list ↔ txs[tx.txId]? = some tx := by
  rw [mem_list]
  constructor
  · rintro ⟨t, ht⟩
    rwa [h t tx ht]
  · exact fun ht => ⟨_, ht⟩

/-- **A set read off in order and built again is the same set.** -/
theorem Keyed.ofList_list {txs : TxSet} (h : txs.Keyed) : ofList txs.list = txs := by
  apply ExtTreeMap.ext_getElem?
  intro t
  have hfind : (ofList txs.list)[t]? = txs.list.find? fun tx => tx.txId = t := by
    rw [ofList, getElem?_foldl_add]
    simp
  rw [hfind]
  cases hget : txs[t]? with
  | some tx =>
      obtain ⟨y, hy⟩ : ∃ y, (txs.list.find? fun tx => tx.txId = t) = some y := by
        rw [← Option.isSome_iff_exists, List.find?_isSome]
        exact ⟨tx, mem_list.mpr ⟨t, hget⟩, by simpa using h t tx hget⟩
      have hyt : y.txId = t := by simpa using List.find?_some hy
      have hyget := h.mem_list_iff.mp (List.mem_of_find?_eq_some hy)
      rw [hyt, hget, Option.some.injEq] at hyget
      rw [hy, hyget]
  | none =>
      rw [List.find?_eq_none]
      intro y hy hyt
      have hyget := h.mem_list_iff.mp hy
      rw [show y.txId = t by simpa using hyt, hget] at hyget
      exact Option.some_ne_none y hyget.symm

end TxSet

/-- **Decoding undoes encoding**, up to what stays behind, when the store
holds that very body. -/
theorem decodeBlock_encodeBlock {table : BlockBodyStore} {b : Block}
    (hstore : table[b.id]? = some b.txs) (hkeyed : b.txs.Keyed) :
    (decodeBlock table (encodeBlock b)).1.header = b.header ∧
      (decodeBlock table (encodeBlock b)).1.txs = b.txs ∧
      (decodeBlock table (encodeBlock b)).2 = table := by
  have hintern : table.intern b.header.blockId (TxSet.ofList b.txs.list) = (b.txs, table) := by
    rw [hkeyed.ofList_list, BlockBodyStore.intern]
    rw [Block.id] at hstore
    rw [hstore]
    exact if_pos ⟨rfl, rfl⟩
  simp only [decodeBlock, encodeBlock, hintern, and_self]

end GhostDag
