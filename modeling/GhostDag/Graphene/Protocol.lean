import GhostDag.Graphene.Iblt
import GhostDag.Graphene.Params
import GhostDag.Node.Wire

/-!
# GhostDag.Graphene.Protocol

Graphene block relay (`graphene.cc`): what a sender puts into a message, and
what a receiver makes of it.

A Bloom filter is the question it answers, and whatever the code computes in
floating point to size a filter or a table is an argument (`Arithmetic`).
Filters and tables travel as they are.  The wire sizes are left out.
-/

namespace GhostDag

open Std (ExtTreeSet)

/-- `bloom_filter`. -/
structure BloomFilter where
  contains : Nat → Bool
  /-- `effective_fpp()`. -/
  effectiveFpp : ℚ := 0

namespace GrapheneProtocol

/-- `IBLT_VALUE_SIZE`. -/
def ibltValueSize : Nat := 12

/-- `IBLT_CELL_MINIMUM`. -/
def ibltCellMinimum : Nat := 2

/-- `GRAPHENE_MAX_GUARANTEED_MISSING`. -/
def maxGuaranteedMissing : Nat := 16

/-- `LARGE_MEM_POOL_SIZE`. -/
def largeMemPoolSize : Nat := 10000000

/-- The outcomes of the floating point computations. -/
structure Arithmetic where
  /-- The search of `OptimalSymDiff`, of the block size and the pool size. -/
  symDiffSearch : Nat → Nat → Nat
  /-- `(int)ceil(CBbound(a, fpr, 1.0 / 240.0))`, which does not look at `fpr`. -/
  ceilCBbound : Nat → Int
  /-- The filter of the sender for the block size, the pool size and the
  symmetric difference, with the ids in it. -/
  senderBloom : Nat → Nat → Nat → List Nat → BloomFilter
  /-- `best_b` and `y_star` of `BuildRecoveryBloom`, and its filter. -/
  recoverySearch : List Nat → Nat → Nat → ℚ → Int32 × Int32 × BloomFilter

/-! ## messages and results -/

/-- A `GRAPHENE_BLOCK` message. -/
structure GrapheneBlock where
  blockHash : Nat
  blockId : Nat
  minerId : Nat
  timeCreated : ℚ
  parentHashes : List Nat
  txCount : Nat
  bloomFilter : BloomFilter
  iblt : Iblt
  txChecksum : Nat
  fpr : ℚ

/-- A `GRAPHENE_RECOVERY_REQUEST` message. -/
structure RecoveryRequest where
  blockHash : Nat
  b : Int32
  yStar : Int32
  receiverBloom : BloomFilter

/-- A `GRAPHENE_RECOVERY_RESPONSE` message. -/
structure RecoveryResponse where
  blockHash : Nat
  txChecksum : Nat
  iblt : Iblt
  missing : List Nat

/-- `GrapheneState`. -/
structure GrapheneState where
  header : BlockHeader
  txCount : Nat
  candidateIds : ExtTreeSet Nat
  diff1 : Option Iblt
  waitingProtocol2 : Bool

/-- `IncomingBlockResult`: a block, or what the recovery starts from. -/
inductive IncomingBlockResult
  | success (block : Block)
  | failure (recoveryState : GrapheneState) (recoveryRequest : RecoveryRequest)

/-- `DecodeStatus`. -/
inductive DecodeStatus
  | success
  | failRecoverable
  | failFatal
  deriving DecidableEq

/-! ## sets of ids -/

/-- `U64ToVec`: eight bytes, the lowest first. -/
def u64ToVec (v : Nat) : ValueBytes := (List.range 8).map fun i => UInt8.ofNat (v >>> (i * 8))

/-- `TxIdsFromBlock`. -/
def txIdsFromBlock (txs : TxSet) : List Nat := txs.list.map Transaction.txId

/-- `BuildCandidateSet`. -/
def buildCandidateSet (bf : BloomFilter) (mempool : List (Nat × Nat)) : ExtTreeSet Nat :=
  mempool.foldl
    (fun candidates entry =>
      if bf.contains entry.2 then candidates.insert entry.2 else candidates) ∅

/-- The exclusive or of ids. -/
def idChecksum (ids : List Nat) : Nat := ids.foldl (· ^^^ ·) 0

/-- Take the keys of one listing out of a set, and put those of another in. -/
def adjust (ids : ExtTreeSet Nat) (negative positive : Listing) : ExtTreeSet Nat :=
  positive.foldl (fun ids pos => ids.insert pos.1) (negative.foldl (fun ids neg => ids.erase neg.1) ids)

/-- The ids that the sender has added to a set of candidates. -/
def addMissing (Z : ExtTreeSet Nat) (missing : List Nat) : ExtTreeSet Nat :=
  missing.foldl (fun Z id => Z.insert id) Z

/-! ## sizes -/

/-- `OptimalSymDiff`; `none` is the exception.  Below an empty block the
difference wraps around. -/
def optimalSymDiff (arith : Arithmetic) (nBlockTxs nReceiverPoolTx : Nat) : Option Nat :=
  let nBlockAndReceiverPoolTx := (nBlockTxs + (2 ^ 64 - 1)) % 2 ^ 64
  if nReceiverPoolTx ≤ nBlockAndReceiverPoolTx then none
  else if largeMemPoolSize < nReceiverPoolTx then none
  else some (arith.symDiffSearch nBlockTxs nReceiverPoolTx)

/-- `optSymDiff` of `BuildSenderComponents`, for a block of `n` and a pool of
`m` transactions. -/
def senderSymDiff (arith : Arithmetic) (n m : Nat) : Nat :=
  if n < m then (optimalSymDiff arith n m).getD 1 else max (n - m) 1

/-- `nIbltCells`. -/
def nIbltCells (arith : Arithmetic) (n m : Nat) : Nat :=
  max ibltCellMinimum (arith.ceilCBbound (senderSymDiff arith n m)).toNat

theorem nIbltCells_pos (arith : Arithmetic) (n m : Nat) : 0 < nIbltCells arith n m :=
  lt_max_of_lt_left (by decide)

/-- `b + y_star`, an `int`, as a `size_t`. -/
def itemCount (b yStar : Int32) : Nat := ((b + yStar).toInt % 2 ^ 64).toNat

section Tables

variable (checked : Bool) (murmurHash3 : Nat → Nat → Nat)

/-- `BuildIBLTFromIds`, and the loops like it. -/
def buildIbltFromIds (iblt : Iblt) (ids : List Nat) : Except Halt Iblt :=
  ids.foldlM (fun iblt id => iblt.insert checked murmurHash3 id (u64ToVec id)) iblt

/-- The table of some ids, of the size looked up for a number of items. -/
def lookupTable (nItems : Nat) (ids : List Nat) : Except Halt Iblt := do
  let params := CIbltParams.lookup nItems
  let iblt ← Iblt.make checked nItems ibltValueSize params.overhead params.numhashes
  buildIbltFromIds checked murmurHash3 iblt ids

/-- What the receiver does with a table in four places: build its own one of
the same size, and subtract. -/
def differenceTable (iblt : Iblt) (ids : ExtTreeSet Nat) : Except Halt Iblt := do
  let own ← Iblt.make checked iblt.hashTableSize ibltValueSize 1 iblt.numHashes
  let own ← buildIbltFromIds checked murmurHash3 own ids.toList
  iblt.sub checked own

/-! ## the sender -/

/-- `BuildSenderComponents`; `none` is its `false`. -/
def buildSenderComponents (arith : Arithmetic) (blockTxs : TxSet) (receiverMempoolCount : Nat) :
    Except Halt (Option (BloomFilter × Iblt)) := do
  let n := blockTxs.size
  let m := receiverMempoolCount
  if maxGuaranteedMissing < n - m then return none
  let ids := txIdsFromBlock blockTxs
  let iblt ← lookupTable checked murmurHash3 (nIbltCells arith n m) ids
  return some (arith.senderBloom n m (senderSymDiff arith n m) ids, iblt)

/-- The message that `HandleReqRelayBlock` builds around the components. -/
def grapheneBlock (blockHash : Nat) (b : Block) (bf : BloomFilter) (iblt : Iblt) :
    GrapheneBlock where
  blockHash
  blockId := b.header.blockId
  minerId := b.header.minerId
  timeCreated := b.header.timeCreated
  parentHashes := b.header.parentHashes
  txCount := b.txCount
  bloomFilter := bf
  iblt
  txChecksum := txChecksum b.txs
  fpr := bf.effectiveFpp

/-- `SecondIBLT`: the table, and the ids that the filter lacks. -/
def secondIblt (blk : Block) (receiverBloom : BloomFilter) (yStar b : Int32) :
    Except Halt (Iblt × List Nat) := do
  let iblt ← lookupTable checked murmurHash3 (itemCount b yStar) (txIdsFromBlock blk.txs)
  return (iblt, (txIdsFromBlock blk.txs).filter fun id => !receiverBloom.contains id)

/-- The answer of `HandleGrapheneRecoveryRequest`. -/
def recoveryResponse (blk : Block) (request : RecoveryRequest) : Except Halt RecoveryResponse := do
  let (iblt, missing) ← secondIblt checked murmurHash3 blk request.receiverBloom request.yStar
    request.b
  return { blockHash := request.blockHash, txChecksum := txChecksum blk.txs, iblt, missing }

/-! ## the receiver, first protocol -/

variable (rounds : Nat)

/-- `ReconstructBlock`. -/
def reconstructBlock (bf : BloomFilter) (senderIblt : Iblt) (txCount : Nat)
    (mempoolEntries : List (Nat × Nat)) : Except Halt (DecodeStatus × TxSet) := do
  let candidates := buildCandidateSet bf mempoolEntries
  let diff ← differenceTable checked murmurHash3 senderIblt candidates
  let (ok, positive, negative) ← diff.listEntries checked murmurHash3 rounds [] []
  if ok then
    let outTxs := TxSet.ofList
      ((adjust candidates negative positive).toList.map fun id => { txId := id, sizeBytes := 522 })
    return (if outTxs.size = txCount then .success else .failRecoverable, outTxs)
  else return (.failRecoverable, ∅)

/-- `BuildRecoveryBloom`, as the request that carries its outcome. -/
def buildRecoveryBloom (arith : Arithmetic) (blockHash : Nat) (Z : List Nat) (m n : Nat)
    (senderFpr : ℚ) : RecoveryRequest :=
  let (bestB, yStar, receiverBloom) := arith.recoverySearch Z m n senderFpr
  { blockHash, b := max (Int32.ofNat ibltCellMinimum) bestB, yStar, receiverBloom }

/-- The header in a message. -/
def GrapheneBlock.header (data : GrapheneBlock) : BlockHeader where
  blockId := data.blockId
  minerId := data.minerId
  timeCreated := data.timeCreated
  parentHashes := data.parentHashes

/-- `ProcessIncomingBlock`. -/
def processIncomingBlock (arith : Arithmetic) (store : BlockBodyStore) (data : GrapheneBlock)
    (mempool : List (Nat × Nat)) (mempoolSize : Nat) :
    Except Halt (IncomingBlockResult × BlockBodyStore) := do
  let (status, recoveredTxs) ← reconstructBlock checked murmurHash3 rounds data.bloomFilter
    data.iblt data.txCount mempool
  if status = .success then
    let (txs, store) := store.intern data.blockId recoveredTxs
    let block : Block := { header := data.header, txs }
    if txChecksum recoveredTxs = data.txChecksum then
      return (.success { block with sizeInBytes := block.getTotalSize }, store)
    else throw .checksum
  else
    let candidateIds := buildCandidateSet data.bloomFilter mempool
    let diff1 ← differenceTable checked murmurHash3 data.iblt candidateIds
    return (.failure
      { header := data.header, txCount := data.txCount, candidateIds, diff1 := some diff1,
        waitingProtocol2 := true }
      (buildRecoveryBloom arith data.blockHash candidateIds.toList mempoolSize data.txCount
        data.fpr), store)

/-! ## the receiver, second protocol -/

/-- `ReconstructRecoveryBlock`: the set it is given keeps the missing ids even
when nothing is decoded. -/
def reconstructRecoveryBlock (data : RecoveryResponse) (Z : ExtTreeSet Nat) :
    Except Halt (DecodeStatus × ExtTreeSet Nat) := do
  let Z := addMissing Z data.missing
  let diff ← differenceTable checked murmurHash3 data.iblt Z
  let (ok, positive, negative) ← diff.listEntries checked murmurHash3 rounds [] []
  return if ok then (.success, adjust Z negative positive) else (.failFatal, Z)

/-- What the calls of `TryPingPong` share. -/
structure PingPong where
  first : Iblt
  second : Iblt
  inBlock : ExtTreeSet Nat
  notInBlock : ExtTreeSet Nat

namespace PingPong

/-- A listed id of the block is taken out of both tables. -/
def strikePositive (st : PingPong) (x : Nat × ValueBytes) : Except Halt PingPong := do
  let second ← st.second.erase checked murmurHash3 x.1 x.2
  let first ← st.first.erase checked murmurHash3 x.1 x.2
  return { st with first, second, inBlock := st.inBlock.insert x.1 }

/-- A listed id outside the block is put into both tables. -/
def strikeNegative (st : PingPong) (x : Nat × ValueBytes) : Except Halt PingPong := do
  let second ← st.second.insert checked murmurHash3 x.1 x.2
  let first ← st.first.insert checked murmurHash3 x.1 x.2
  return { st with first, second, notInBlock := st.notInBlock.insert x.1 }

/-- The two loops over what was listed. -/
def strike (st : PingPong) (positive negative : Listing) : Except Halt PingPong := do
  let st ← positive.foldlM (strikePositive checked murmurHash3) st
  negative.foldlM (strikeNegative checked murmurHash3) st

/-- The two tables change places. -/
def swap (st : PingPong) : PingPong := { st with first := st.second, second := st.first }

end PingPong

/-- `TryPingPong`, to a given depth of calls. -/
def tryPingPong : Nat → PingPong → Nat → Except Halt (DecodeStatus × PingPong)
  | 0, _, _ => .error .rounds
  | calls + 1, st, depth =>
      if st.first.hashTableSize < depth then return (.failFatal, st)
      else do
        let (secondOk, positive, negative) ← st.second.listEntries checked murmurHash3 rounds [] []
        if positive.isEmpty && negative.isEmpty then
          let (firstOk, positive, negative) ←
            st.first.listEntries checked murmurHash3 rounds positive negative
          if positive.isEmpty && negative.isEmpty then
            return (if firstOk && secondOk then .success else .failRecoverable, st)
          else
            let st ← st.strike checked murmurHash3 positive negative
            tryPingPong calls st (depth + 1)
        else
          let st ← st.strike checked murmurHash3 positive negative
          tryPingPong calls st.swap (depth + 1)

/-- `ProcessRecoveryResponse`; `none` is a failure.  The calls of `TryPingPong`
end when they are more than the larger table has entries. -/
def processRecoveryResponse (data : RecoveryResponse) (state : GrapheneState) :
    Except Halt (Option (ExtTreeSet Nat)) := do
  let (status, Z) ← reconstructRecoveryBlock checked murmurHash3 rounds data state.candidateIds
  if status = .success then
    if idChecksum Z.toList = data.txChecksum then return some Z else throw .checksum
  else match state.diff1 with
    | none => return none
    | some diff1 =>
        let diff2 ← differenceTable checked murmurHash3 data.iblt Z
        let (status, st) ← tryPingPong checked murmurHash3 rounds
          (max diff1.hashTableSize diff2.hashTableSize + 2)
          { first := diff1, second := diff2, inBlock := ∅, notInBlock := ∅ } 0
        let blockTxids := st.notInBlock.toList.foldl (fun ids id => ids.erase id)
          (st.inBlock.toList.foldl (fun ids id => ids.insert id) Z)
        return if status = .success ∧ blockTxids.size = state.txCount ∧
            idChecksum blockTxids.toList = data.txChecksum then some blockTxids
          else none

end Tables

end GrapheneProtocol

end GhostDag
