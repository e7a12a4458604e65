import GhostDag.Lib.Binary32

/-!
# GhostDag.Graphene.Iblt

The invertible Bloom lookup table of the vendored library
(`thirdparty/iblt.h`).

A key goes into one entry of each of `numHashes` partitions, and an entry
keeps a count and the exclusive ors of its keys, of their check hashes and of
their values.  `MurmurHash3` is an argument, as a function of the seed and of
the key.  A count is an unbounded integer here: a table would have to hold
`2 ^ 31` keys to overflow an `int32_t`.

The asserts of the library stop a run when `checked` is on, and are compiled
out when it is off.
-/

namespace GhostDag

/-- `std::vector<uint8_t>`. -/
abbrev ValueBytes := List UInt8

/-- Why a run stops short. -/
inductive Halt
  /-- A precondition of the table does not hold. -/
  | precondition
  /-- Two checksums of transactions differ. -/
  | checksum
  /-- The rounds of a loop have run out. -/
  | rounds
  /-- A read past the end of a table, which has no meaning in C++. -/
  | outOfBounds
  deriving DecidableEq

/-- An assert. -/
def require (checked : Bool) (p : Prop) [Decidable p] : Except Halt Unit :=
  if checked = true ∧ ¬ p then .error .precondition else .ok ()

/-- `iblt_detail::N_HASHCHECK`. -/
def nHashCheck : Nat := 11

/-- `IBLT::HashTableEntry`. -/
structure HashTableEntry where
  count : Int := 0
  keySum : Nat := 0
  keyCheck : Nat := 0
  valueSum : ValueBytes := []
  deriving DecidableEq

namespace HashTableEntry

def isPure (murmurHash3 : Nat → Nat → Nat) (e : HashTableEntry) : Bool :=
  (e.count == 1 || e.count == -1) && e.keyCheck == murmurHash3 nHashCheck e.keySum

def empty (e : HashTableEntry) : Bool := e.count == 0 && e.keySum == 0 && e.keyCheck == 0

/-- Exclusive or of bytes, the shorter one padded with zeros. -/
def xorBytes : ValueBytes → ValueBytes → ValueBytes
  | s, [] => s
  | [], v => v
  | a :: s, b :: v => (a ^^^ b) :: xorBytes s v

def addValue (e : HashTableEntry) (v : ValueBytes) : HashTableEntry :=
  { e with valueSum := xorBytes e.valueSum v }

/-- The sums of an entry, and then its value: dropped when the entry has
become empty. -/
def accumulate (e : HashTableEntry) (count : Int) (keySum keyCheck : Nat) (v : ValueBytes) :
    HashTableEntry :=
  let e := { e with
    count := e.count + count
    keySum := e.keySum ^^^ keySum
    keyCheck := e.keyCheck ^^^ keyCheck }
  if e.empty then { e with valueSum := [] } else e.addValue v

end HashTableEntry

/-- `IBLT`. -/
structure Iblt where
  valueSize : Nat
  numHashes : Nat
  hashTable : List HashTableEntry
  deriving DecidableEq

/-- A `std::set` of keys with their values, in ascending order. -/
abbrev Listing := List (Nat × ValueBytes)

namespace Listing

/-- The order of `std::pair`. -/
def le (a b : Nat × ValueBytes) : Prop := a.1 < b.1 ∨ a.1 = b.1 ∧ a.2 ≤ b.2

instance : DecidableRel le := fun _ _ => inferInstanceAs (Decidable (_ ∨ _ ∧ _))

/-- `std::set::emplace`. -/
def emplace (l : Listing) (x : Nat × ValueBytes) : Listing :=
  if x ∈ l then l else l.orderedInsert le x

theorem mem_emplace {l : Listing} {x y : Nat × ValueBytes} : y ∈ l.emplace x ↔ y = x ∨ y ∈ l := by
  unfold emplace
  split
  · next hmem => exact ⟨.inr, fun h => h.elim (fun heq => heq ▸ hmem) id⟩
  · exact List.mem_orderedInsert le

end Listing

namespace Iblt

/-- The loop of the constructor: up to the next multiple of `numHashes`. -/
def padEntries (numHashes : Nat) : Nat → Nat → Nat
  | 0, nEntries => nEntries
  | rounds + 1, nEntries =>
      if numHashes * (nEntries / numHashes) = nEntries then nEntries
      else padEntries numHashes rounds (nEntries + 1)

/-- The number of entries of a new table; the products are of `float`s. -/
def nEntries (expectedNumEntries : Nat) (hedge : ℚ) (numHashes : Nat) : Nat :=
  padEntries numHashes numHashes
    ⌊Binary32.round (Binary32.round expectedNumEntries * hedge)⌋.toNat

/-- `IBLT::IBLT`.  That there is an entry for each partition is no assert of
the code, but its bucket arithmetic divides by it. -/
def make (checked : Bool) (expectedNumEntries valueSize : Nat) (hedge : ℚ) (numHashes : Nat) :
    Except Halt Iblt := do
  require checked (1 < numHashes)
  let n := nEntries expectedNumEntries hedge numHashes
  require checked (0 < n ∧ numHashes ∣ n)
  return { valueSize, numHashes, hashTable := List.replicate n {} }

def hashTableSize (t : Iblt) : Nat := t.hashTable.length

def bucketsPerHash (t : Iblt) : Nat := t.hashTable.length / t.numHashes

/-- The entry of a key in a partition. -/
def index (murmurHash3 : Nat → Nat → Nat) (t : Iblt) (i k : Nat) : Nat :=
  i * t.bucketsPerHash + murmurHash3 i k % t.bucketsPerHash

/-- The loop of `_insert`.  The value is a reference, and read again in each
round. -/
def insertLoop (murmurHash3 : Nat → Nat → Nat) (t : Iblt) (plusOrMinus : Int) (k : Nat)
    (v : List HashTableEntry → ValueBytes) : List HashTableEntry :=
  (List.range t.numHashes).foldl
    (fun table i => table.modify (t.index murmurHash3 i k) fun e =>
      e.accumulate plusOrMinus k (murmurHash3 nHashCheck k) (v table))
    t.hashTable

/-- `IBLT::_insert`. -/
def _insert (checked : Bool) (murmurHash3 : Nat → Nat → Nat) (t : Iblt) (plusOrMinus : Int)
    (k : Nat) (v : List HashTableEntry → ValueBytes) : Except Halt Iblt := do
  require checked ((v t.hashTable).length = t.valueSize)
  return { t with hashTable := t.insertLoop murmurHash3 plusOrMinus k v }

/-- `IBLT::insert`. -/
def insert (checked : Bool) (murmurHash3 : Nat → Nat → Nat) (t : Iblt) (k : Nat) (v : ValueBytes) :
    Except Halt Iblt := t._insert checked murmurHash3 1 k fun _ => v

/-- `IBLT::erase`. -/
def erase (checked : Bool) (murmurHash3 : Nat → Nat → Nat) (t : Iblt) (k : Nat) (v : ValueBytes) :
    Except Halt Iblt := t._insert checked murmurHash3 (-1) k fun _ => v

/-- `IBLT::operator-`.  It goes over the entries of `t`, and with the asserts
compiled out it reads past the end of a shorter table. -/
def sub (checked : Bool) (t other : Iblt) : Except Halt Iblt := do
  require checked (t.valueSize = other.valueSize)
  require checked (t.hashTable.length = other.hashTable.length)
  if other.hashTable.length < t.hashTable.length then throw .outOfBounds
  else return { t with
    hashTable := t.hashTable.zipWith
      (fun e1 e2 => e1.accumulate (-e2.count) e2.keySum e2.keyCheck e2.valueSum) other.hashTable }

/-- Without the asserts only the length counts. -/
theorem sub_eq {t other : Iblt} (h : t.hashTable.length ≤ other.hashTable.length) :
    t.sub false other = .ok { t with
      hashTable := t.hashTable.zipWith
        (fun e1 e2 => e1.accumulate (-e2.count) e2.keySum e2.keyCheck e2.valueSum)
        other.hashTable } :=
  if_neg h.not_gt

theorem sub_eq_error {t other : Iblt} (h : other.hashTable.length < t.hashTable.length) :
    t.sub false other = .error .outOfBounds :=
  if_pos h

/-! ## peeling -/

/-- The state of `listEntries`. -/
structure Peeled where
  table : Iblt
  positive : Listing
  negative : Listing
  nErased : Nat

/-- `valueSum` of entry `i`, by reference. -/
def valueSumAt (i : Nat) (table : List HashTableEntry) : ValueBytes :=
  (table[i]?.map HashTableEntry.valueSum).getD []

/-- One entry of the scan: a pure one is listed and taken out.  The value that
is taken out is the `valueSum` of the very entry that changes. -/
def peelAt (checked : Bool) (murmurHash3 : Nat → Nat → Nat) (st : Peeled) (i : Nat) :
    Except Halt Peeled :=
  match st.table.hashTable[i]? with
  | none => .ok st
  | some e =>
      if e.isPure murmurHash3 then do
        let table ← st.table._insert checked murmurHash3 (-e.count) e.keySum (valueSumAt i)
        return {
          table
          positive := if e.count = 1 then st.positive.emplace (e.keySum, e.valueSum) else st.positive
          negative := if e.count = 1 then st.negative else st.negative.emplace (e.keySum, e.valueSum)
          nErased := st.nErased + 1 }
      else .ok st

/-- One pass over the table. -/
def scan (checked : Bool) (murmurHash3 : Nat → Nat → Nat) (st : Peeled) : Except Halt Peeled :=
  (List.range st.table.hashTable.length).foldlM (peelAt checked murmurHash3) { st with nErased := 0 }

/-- Pass after pass, to a given number, until one finds nothing. -/
def peel (checked : Bool) (murmurHash3 : Nat → Nat → Nat) : Nat → Peeled → Except Halt Peeled
  | 0, _ => .error .rounds
  | rounds + 1, st => do
      let st ← scan checked murmurHash3 st
      if st.nErased = 0 then return st else peel checked murmurHash3 rounds st

/-- `IBLT::listEntries`: what it returns, and the two sets.  Success is that
the first partition has been emptied. -/
def listEntries (checked : Bool) (murmurHash3 : Nat → Nat → Nat) (rounds : Nat) (t : Iblt)
    (positive negative : Listing) : Except Halt (Bool × Listing × Listing) := do
  let st ← peel checked murmurHash3 rounds { table := t, positive, negative, nErased := 0 }
  return ((st.table.hashTable.take (st.table.hashTable.length / t.numHashes)).all
    HashTableEntry.empty, st.positive, st.negative)

end Iblt

end GhostDag
