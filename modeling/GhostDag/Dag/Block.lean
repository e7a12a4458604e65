import Mathlib

/-!
# GhostDag.Dag.Block

Transactions, transaction sets, block headers and blocks (`dag.h`).

Ids, sizes and fees are naturals: the code compares them for equality and
order only.  Times are the finite `double`s, which embed in `ℚ`.
-/

namespace GhostDag

open Std

/-- `ns3::Ipv4Address`, compared by its 32-bit value. -/
abbrev Ipv4Address := Nat

/-- The value of a default-constructed `Ipv4Address` (102.102.102.102). -/
def Ipv4Address.unset : Ipv4Address := 0x66666666

structure Transaction where
  txId : Nat
  sizeBytes : Nat
  fee : Nat := 0
  deriving DecidableEq, Repr

/-- `std::set<Transaction>`: `operator<` looks at `tx_id` alone, so the set
holds one transaction per id. -/
abbrev TxSet := ExtTreeMap Nat Transaction

namespace TxSet

/-- `std::set::insert`: an element that is already there is kept. -/
def add (txs : TxSet) (tx : Transaction) : TxSet := txs.insertIfNew tx.txId tx

/-- The transactions in iteration order. -/
def list (txs : TxSet) : List Transaction := txs.toList.map Prod.snd

/-- Insert a sequence of transactions, first one first. -/
def ofList (l : List Transaction) : TxSet := l.foldl add ∅

/-- The set of transaction ids. -/
def ids (txs : TxSet) : List Nat := txs.keys

end TxSet

structure BlockHeader where
  blockId : Nat := 0
  minerId : Nat := 0
  timeCreated : ℚ := 0
  parentHashes : List Nat := []
  deriving DecidableEq, Repr

/-- `BlockHeader::GetSizeInBytes`. -/
def BlockHeader.getSizeInBytes (h : BlockHeader) : Nat :=
  80 + (if 253 ≤ h.parentHashes.length then 3 else 1) + h.parentHashes.length * 32

/-- `uint64_t(-1)`, the `selected_parent` of a block that has none. -/
def noParent : Nat := 2 ^ 64 - 1

structure Block where
  header : BlockHeader := {}
  txs : TxSet := ∅
  sizeInBytes : Nat := 0
  timeReceived : ℚ := 0
  receivedFrom : Ipv4Address := Ipv4Address.unset
  blueScore : Nat := 0
  isBlue : Bool := false
  selectedParent : Nat := noParent

namespace Block

def txCount (b : Block) : Nat := b.txs.size

/-- `Block::GetTotalSize`. -/
def getTotalSize (b : Block) : Nat := b.header.getSizeInBytes + b.txCount * 4

/-- `block_id`. -/
def id (b : Block) : Nat := b.header.blockId

/-- Assign `is_blue`. -/
def paint (b : Block) (flag : Bool) : Block := { b with isBlue := flag }

/-- `parent_hashes`. -/
def parents (b : Block) : List Nat := b.header.parentHashes

end Block

end GhostDag
