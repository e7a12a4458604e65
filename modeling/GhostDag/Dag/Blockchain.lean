import GhostDag.Dag.BitSet
import GhostDag.Dag.Block
import GhostDag.Lib.Best
import GhostDag.Lib.Kahn
import GhostDag.Lib.Search

/-!
# GhostDag.Dag.Blockchain

The consensus object of `dag.cc`: accepted blocks with their cached past and
blue sets over insertion indices, orphans, tips, and the recursive pair
`AddBlock` / `ProcessOrphans`.

`none` is a run of the C++ code that does not return normally: a throwing
`at`, or, for the functions with a fuel argument, a recursion deeper than the
fuel.  Reads through `operator[]` use `getD`; `GhostDag.Dag.Rep` shows the
indices to be in range.  Insertion indices are naturals (the source's
`uint32_t` would wrap at `2 ^ 32` blocks, beyond any memory).
-/

namespace GhostDag

open Std

structure Blockchain where
  ghostdagK : Int32
  nextBlockId : Nat
  nodeIdMetric : Nat
  tips : ExtTreeSet Nat
  children : ExtTreeMap Nat (ExtTreeSet Nat)
  blocks : ExtTreeMap Nat Block
  orphans : ExtTreeMap Nat Block
  idxOf : ExtTreeMap Nat Nat
  idOf : List Nat
  past : List BitSet
  blue : List BitSet

namespace Blockchain

/-- The block every chain starts from. -/
def genesis : Block :=
  { header := { blockId := 0, minerId := 2 ^ 64 - 1, timeCreated := 0 }
    blueScore := 1
    isBlue := true }

/-- `Blockchain::Blockchain`. -/
def init (k : Int32) (nodeId : Nat) : Blockchain where
  ghostdagK := k
  nextBlockId := 1
  nodeIdMetric := nodeId
  tips := {0}
  children := ∅
  blocks := (∅ : ExtTreeMap Nat Block).insert 0 genesis
  orphans := ∅
  idxOf := (∅ : ExtTreeMap Nat Nat).insert 0 0
  idOf := [0]
  past := [∅]
  blue := [(∅ : BitSet).set 0]

/-- `(uint64_t)ghostdag_k`. -/
def anticoneLimit (s : Blockchain) : Nat := (s.ghostdagK.toInt % 2 ^ 64).toNat

/-- `id_of_[i]`. -/
def idAt (s : Blockchain) (i : Nat) : Nat := s.idOf.getD i 0

/-- `past_[i]`. -/
def pastAt (s : Blockchain) (i : Nat) : BitSet := s.past.getD i ∅

/-- `blue_[i]`. -/
def blueAt (s : Blockchain) (i : Nat) : BitSet := s.blue.getD i ∅

def hasBlock (s : Blockchain) (id : Nat) : Bool := s.blocks.contains id

def isOrphan (s : Blockchain) (id : Nat) : Bool := s.orphans.contains id

def isRed (s : Blockchain) (id : Nat) : Bool :=
  match s.blocks[id]? with
  | some b => !b.isBlue
  | none => false

def getDagWidth (s : Blockchain) : Nat := s.tips.size

/-- The children of a block in iteration order; none if it has no entry. -/
def childList (s : Blockchain) (id : Nat) : List Nat :=
  match s.children[id]? with
  | some cs => cs.toList
  | none => []

/-! ## set views -/

/-- The ids behind a set of indices. -/
def idsOf (s : Blockchain) (is : BitSet) : ExtTreeSet Nat :=
  is.forEach.foldl (fun ids i => ids.insert (s.idAt i)) ∅

def getPast (s : Blockchain) (id : Nat) : ExtTreeSet Nat :=
  match s.idxOf[id]? with
  | some i => s.idsOf (s.pastAt i)
  | none => ∅

def blueSet (s : Blockchain) (id : Nat) : ExtTreeSet Nat :=
  match s.idxOf[id]? with
  | some i => s.idsOf (s.blueAt i)
  | none => ∅

def inBlueSet (s : Blockchain) (id member : Nat) : Bool :=
  match s.idxOf[id]?, s.idxOf[member]? with
  | some b, some m => (s.blueAt b).test m
  | _, _ => false

def inPast (s : Blockchain) (id ancestor : Nat) : Bool :=
  match s.idxOf[id]?, s.idxOf[ancestor]? with
  | some b, some a => (s.pastAt b).test a
  | _, _ => false

/-- `Blockchain::GetFuture`; every block is dequeued at most once. -/
def getFuture (s : Blockchain) (id : Nat) : Option (ExtTreeSet Nat) :=
  let cs := s.childList id
  Search.loop s.childList (s.blocks.size + 1) (ExtTreeSet.ofList cs) cs

/-! ## the greedy pass -/

/-- `idx_of_.find(id) != end && subset.test(...)`. -/
def inSubset (s : Blockchain) (subset : BitSet) (id : Nat) : Bool :=
  match s.idxOf[id]? with
  | some i => subset.test i
  | none => false

/-- `Blockchain::TopologicalSort`. -/
def topologicalSort (s : Blockchain) (subset : BitSet) : Option (List Nat) := do
  let ids := (subset.forEach.map s.idAt).insertionSort (· ≤ ·)
  let indeg ← ids.foldlM (fun m b => do
    let blk ← s.blocks[b]?
    return m.insert b (blk.parents.countP (s.inSubset subset))) ∅
  Kahn.drain Kahn.fifo (fun cur => (s.childList cur).filter (s.inSubset subset))
    (ids.length + 1) indeg (Kahn.sources indeg) []

/-- The callback of `GreedyBlueSet`: count the blue blocks that do not have
the candidate `ci` in their past, stopping once past the limit. -/
def countAnticone (s : Blockchain) (ci : Nat) (n : Nat) (b : Nat) : Nat × Bool :=
  if (s.pastAt b).test ci then (n, true) else (n + 1, !(s.anticoneLimit < n + 1))

/-- One candidate of the greedy pass. -/
def greedyStep (s : Blockchain) (blue : BitSet) (candidate : Nat) : Option BitSet := do
  let ci ← s.idxOf[candidate]?
  let anticoneBlues := blue.forEachAndNot (s.pastAt ci) (s.countAnticone ci) 0
  return if anticoneBlues ≤ s.anticoneLimit then blue.set ci else blue

/-- `Blockchain::GreedyBlueSet`. -/
def greedyBlueSet (s : Blockchain) (idx spIdx : Nat) (past : BitSet) : Option BitSet := do
  let mergeSet := (past.andNot (s.pastAt spIdx)).reset spIdx
  let order ← s.topologicalSort mergeSet
  let blue ← order.foldlM s.greedyStep (s.blueAt spIdx)
  return blue.set idx

/-! ## tips and colour flags -/

/-- The scan for the highest blue score, lowest id on ties, that both
`SelectTip` (over the tips) and `AddBlock` (over the parents) perform. -/
def bestByScore (s : Blockchain) (ids : List Nat) : Option (Option Nat) := do
  let best ← ids.foldlM (fun best t => do
    let blk ← s.blocks[t]?
    return Best.step best (blk.blueScore, t)) none
  return best.map Prod.snd

/-- `Blockchain::SelectTip`. -/
def selectTip (s : Blockchain) : Option (Option Nat) := s.bestByScore s.tips.toList

/-- Re-evaluate `is_blue` of every accepted block against the selected tip. -/
def recolour (s : Blockchain) : Option Blockchain := do
  match ← s.selectTip with
  | none => return s
  | some tip =>
      let tipIdx ← s.idxOf[tip]?
      let blocks ← s.blocks.toList.foldlM (fun m e => do
        let i ← s.idxOf[e.1]?
        return m.insert e.1 (e.2.paint ((s.blueAt tipIdx).test i))) s.blocks
      return { s with blocks }

/-! ## AddBlock -/

/-- Assign the next index to a block and store it. -/
def register (s : Blockchain) (nb : Block) : Blockchain :=
  { s with
    blocks := s.blocks.insert nb.id nb
    idxOf := s.idxOf.insert nb.id s.idOf.length
    idOf := s.idOf ++ [nb.id] }

/-- The past of a block: its parents and their pasts. -/
def pastOf (s : Blockchain) (parents : List Nat) : Option BitSet :=
  parents.foldlM (fun past p => do
    let pi ← s.idxOf[p]?
    return (past.or (s.pastAt pi)).set pi) ∅

/-- Record the past of the newest block, the edges into it, and the tips. -/
def link (s : Blockchain) (nb : Block) (past : BitSet) : Blockchain :=
  { s with
    past := s.past ++ [past]
    children := nb.parents.foldl (fun ch p => ch.insert p ((ch.getD p ∅).insert nb.id)) s.children
    tips := (nb.parents.foldl (fun tips p => tips.erase p) s.tips).insert nb.id }

/-- The blue set and the selected parent of the newest block, whose index is
`idx`; a block without parents keeps the `selected_parent` it came with. -/
def newBlue (s : Blockchain) (nb : Block) (idx : Nat) (past : BitSet) :
    Option (BitSet × Nat) := do
  match ← s.bestByScore nb.parents with
  | some sp =>
      let spIdx ← s.idxOf[sp]?
      let blue ← s.greedyBlueSet idx spIdx past
      return (blue, sp)
  | none => return ((∅ : BitSet).set idx, nb.selectedParent)

/-- Colour the newest block. -/
def colour (s : Blockchain) (nb : Block) (idx : Nat) (past : BitSet) : Option Blockchain := do
  let (blue, selectedParent) ← s.newBlue nb idx past
  return { s with
    blocks := s.blocks.insert nb.id
      { nb with selectedParent, blueScore := past.countAnd blue + 1 }
    blue := s.blue ++ [blue] }

/-- The insertion half of `AddBlock`: everything between the orphan check and
the final `ProcessOrphans`. -/
def insertBlock (s : Blockchain) (nb : Block) : Option Blockchain := do
  let s₁ := s.register nb
  let past ← s₁.pastOf nb.parents
  let s₂ ← (s₁.link nb past).colour nb s.idOf.length past
  s₂.recolour

/-- The parents of the block are all accepted. -/
def canAdd (s : Blockchain) (nb : Block) : Bool := nb.parents.all s.hasBlock

/-- The snapshot of orphans whose parents are all accepted. -/
def readyOrphans (s : Blockchain) : List Nat :=
  (s.orphans.toList.filter fun e => s.canAdd e.2).map Prod.fst

/-- `orphans[block_id] = new_block`. -/
def insertOrphan (s : Blockchain) (nb : Block) : Blockchain :=
  { s with orphans := s.orphans.insert nb.id nb }

/-- `orphans.erase(oid)`. -/
def eraseOrphan (s : Blockchain) (oid : Nat) : Blockchain :=
  { s with orphans := s.orphans.erase oid }

/-- One id of the snapshot: add the orphan, unless a nested call has taken it
meanwhile.  The flag is `progress`. -/
def releaseOne (add : Blockchain → Block → Option Blockchain) (st : Blockchain × Bool)
    (oid : Nat) : Option (Blockchain × Bool) :=
  match st.1.orphans[oid]? with
  | none => some st
  | some ob => do
      let s' ← add (st.1.eraseOrphan oid) ob
      return (s', true)

mutual

/-- `Blockchain::AddBlock`, to a given recursion depth. -/
def addBlockFuel : Nat → Blockchain → Block → Option Blockchain
  | 0, _, _ => none
  | fuel + 1, s, nb =>
      if s.canAdd nb then do
        let s' ← s.insertBlock nb
        processOrphansFuel fuel s'
      else some (s.insertOrphan nb)

/-- `Blockchain::ProcessOrphans`: rounds over a snapshot of the ready orphans
until a round makes no progress. -/
def processOrphansFuel : Nat → Blockchain → Option Blockchain
  | 0, _ => none
  | fuel + 1, s => do
      let (s', progress) ← s.readyOrphans.foldlM (releaseOne (addBlockFuel fuel)) (s, false)
      if progress then processOrphansFuel fuel s' else return s'

end

/-- `Blockchain::AddBlock`.  Every nested call removes an orphan first, so
the recursion is no deeper than this (`Holding.exists_addBlock`). -/
def addBlock (s : Blockchain) (nb : Block) : Option Blockchain :=
  addBlockFuel (2 * s.orphans.size + 4) s nb

/-- A sequence of `AddBlock` calls on a fresh chain. -/
def deliver (k : Int32) (nodeId : Nat) (bs : List Block) : Option Blockchain :=
  bs.foldlM addBlock (init k nodeId)

/-! ## ordering, clusters and flag snapshots -/

/-- The comparator of `ComputeGHOSTDAGOrdering`: `a` has lower priority than
`b`. -/
def lowerPriority (s : Blockchain) (a b : Nat) : Bool :=
  match s.blocks[a]?, s.blocks[b]? with
  | some ba, some bb =>
      if ba.blueScore ≠ bb.blueScore then ba.blueScore < bb.blueScore
      else if ba.header.timeCreated ≠ bb.header.timeCreated then
        bb.header.timeCreated < ba.header.timeCreated
      else b < a
  | _, _ => false

/-- `std::priority_queue::top` and `pop`: take out an element no other has a
higher priority than. -/
def popTop (s : Blockchain) : List Nat → Option (Nat × List Nat)
  | [] => none
  | a :: q =>
      let top := q.foldl (fun top b => if s.lowerPriority top b then b else top) a
      some (top, (a :: q).erase top)

/-- `Blockchain::ComputeGHOSTDAGOrdering`. -/
def computeGhostdagOrdering (s : Blockchain) : Option (List Nat) :=
  let indeg := s.blocks.map fun _ b => b.parents.countP s.hasBlock
  Kahn.drain s.popTop s.childList (s.blocks.size + 1) indeg (Kahn.sources indeg) []

/-- The inner loop of `IsKCluster`: count the members unrelated to `b`,
giving up at an unknown member or past the limit. -/
def clusterLoop (s : Blockchain) (b bi : Nat) : List Nat → Nat → Bool
  | [], _ => true
  | x :: xs, ac =>
      if x = b then s.clusterLoop b bi xs ac
      else match s.idxOf[x]? with
        | none => false
        | some xi =>
            if !(s.pastAt bi).test xi && !(s.pastAt xi).test bi then
              if s.anticoneLimit < ac + 1 then false else s.clusterLoop b bi xs (ac + 1)
            else s.clusterLoop b bi xs ac

/-- `Blockchain::IsKCluster`. -/
def isKCluster (s : Blockchain) (blueSet : ExtTreeSet Nat) : Bool :=
  blueSet.toList.all fun b =>
    match s.idxOf[b]? with
    | none => false
    | some bi => s.clusterLoop b bi blueSet.toList 0

/-- `Blockchain::SnapshotBlueFlags`. -/
def snapshotBlueFlags (s : Blockchain) : Option (List Bool) :=
  s.idOf.mapM fun id => do
    let b ← s.blocks[id]?
    return b.isBlue

/-- `Blockchain::NewlyBlue`: the ids, ascending, of the blocks that are blue
and were not in the snapshot. -/
def newlyBlue (s : Blockchain) (before : List Bool) : Option (List Nat) := do
  let flags ← s.snapshotBlueFlags
  let out := (s.idOf.zipIdx.zip flags).filter fun e => !before.getD e.1.2 false && e.2
  return (out.map fun e => e.1.1).insertionSort (· ≤ ·)

end Blockchain

end GhostDag
