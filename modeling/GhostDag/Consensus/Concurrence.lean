import GhostDag.Consensus.Agreement
import GhostDag.Dag.Sound

/-!
# GhostDag.Consensus.Concurrence

Two chains whose copies of a block came by different ways: when it was
received, and from whom, is each chain's own.  What a chain derives from its
blocks depends on their headers alone, so two chains with the same accepted
blocks concur in everything they derive (`Rep.concur`), and any two chains in
what is fixed when a block is accepted (`Rep.sameRecord`).
-/

namespace GhostDag

open Std (ExtTreeMap ExtTreeSet)
open Containers Blockchain

/-- The same block under the same scores. -/
structure SameRecord (b b' : Block) : Prop extends SameBody b b' where
  blueScore : b'.blueScore = b.blueScore
  selectedParent : b'.selectedParent = b.selectedParent

/-- Two chains show the same DAG under the same colouring: the accepted
blocks with their scores, selected parents and colour flags, the tips, and
every query. -/
structure Concur (s s' : Blockchain) : Prop where
  accepted : ∀ id, id ∈ s.blocks ↔ id ∈ s'.blocks
  record : ∀ (id : ℕ) (b b' : Block), s.blocks[id]? = some b → s'.blocks[id]? = some b' →
    SameRecord b b' ∧ b'.isBlue = b.isBlue
  tips : s.tips = s'.tips
  children : s.children = s'.children
  getPast : ∀ id, s.getPast id = s'.getPast id
  getFuture : ∀ id, ∃ future, s.getFuture id = some future ∧ s'.getFuture id = some future
  blueSet : ∀ id, s.blueSet id = s'.blueSet id
  selectTip : ∃ t, s.selectTip = some (some t) ∧ s'.selectTip = some (some t)
  ordering : ∃ order, s.computeGhostdagOrdering = some order ∧
    s'.computeGhostdagOrdering = some order

variable {W W' : ℕ → Block} {G : ParentGraph ℕ} {s s' : Blockchain}

namespace Coloured

/-- **A block that two chains have accepted** has one past, one blue set, one
score and one selected parent, whatever else either chain holds. -/
theorem sameRecord (h : Coloured W G s) (h' : Coloured W' G s')
    (hk : s.anticoneLimit = s'.anticoneLimit) {id : ℕ} {b b' : Block}
    (hb : s.blocks[id]? = some b) (hb' : s'.blocks[id]? = some b')
    (hW : SameBody (W id) (W' id))
    (hroot : G.parents id = [] → (W' id).selectedParent = (W id).selectedParent) :
    SameRecord b b' := by
  have hid := (h.world id (mem_of_getElem? hb)).1
  have hid' := (h'.world id (mem_of_getElem? hb')).1
  rw [h.block id b hb, h'.block id b' hb', stored, stored, hid, hid', hk]
  refine ⟨⟨hW.header, hW.txs⟩, rfl, ?_⟩
  change (selectedParent G s'.anticoneLimit id).getD _ = (selectedParent G s'.anticoneLimit id).getD _
  cases hsp : selectedParent G s'.anticoneLimit id with
  | some sp => rfl
  | none =>
      rw [Option.getD_none, Option.getD_none]
      refine hroot (of_not_not fun hne => ?_)
      obtain ⟨sp, hsome⟩ := exists_selectedParent (k := s'.anticoneLimit) hne
      exact Option.some_ne_none sp (hsome.symm.trans hsp)

theorem getPast_eq (h : Coloured W G s) (h' : Coloured W' G s') {id : ℕ}
    (hmem : id ∈ s.blocks ↔ id ∈ s'.blocks) : s.getPast id = s'.getPast id := by
  apply ExtTreeSet.ext_mem
  intro a
  rw [h.mem_getPast_iff, h'.mem_getPast_iff, hmem]

theorem blueSet_eq (h : Coloured W G s) (h' : Coloured W' G s')
    (hk : s.anticoneLimit = s'.anticoneLimit) {id : ℕ} (hmem : id ∈ s.blocks ↔ id ∈ s'.blocks) :
    s.blueSet id = s'.blueSet id := by
  apply ExtTreeSet.ext_mem
  intro a
  rw [h.mem_blueSet_iff, h'.mem_blueSet_iff, hmem, hk]

theorem getFuture_eq (h : Coloured W G s) (h' : Coloured W' G s')
    (hmem : ∀ id, id ∈ s.blocks ↔ id ∈ s'.blocks) (id : ℕ) :
    ∃ future, s.getFuture id = some future ∧ s'.getFuture id = some future := by
  obtain ⟨future, hf, hfut⟩ := h.exists_getFuture id
  obtain ⟨future', hf', hfut'⟩ := h'.exists_getFuture id
  refine ⟨future, hf, ?_⟩
  rw [hf', Option.some.injEq]
  apply ExtTreeSet.ext_mem
  intro a
  rw [hfut, hfut', hmem]

end Coloured

namespace Rep

/-- **Same accepted blocks, same DAG and same colouring**: the two chains
concur, although their copies of a block differ in what each has noted of its
arrival. -/
theorem concur (h : Rep W G s) (h' : Rep W' G s') (hk : s.anticoneLimit = s'.anticoneLimit)
    (hmem : ∀ id, id ∈ s.blocks ↔ id ∈ s'.blocks)
    (hW : ∀ id ∈ s.blocks, SameBody (W id) (W' id))
    (hroot : ∀ id ∈ s.blocks, G.parents id = [] →
      (W' id).selectedParent = (W id).selectedParent) : Concur s s' := by
  have htips := h.tips_eq h' hmem
  have hrecord : ∀ (id : ℕ) (b b' : Block), s.blocks[id]? = some b → s'.blocks[id]? = some b' →
      SameRecord b b' := fun id b b' hb hb' =>
    have hid := mem_of_getElem? hb
    h.toColoured.sameRecord h'.toColoured hk hb hb' (hW id hid) (hroot id hid)
  obtain ⟨t, ht, -⟩ := h.exists_bestTip h.nonempty
  have ht' : bestTip G s' = some t := by rw [← ht, bestTip, bestTip, hk, htips]
  constructor
  case accepted => exact hmem
  case record =>
    intro id b b' hb hb'
    refine ⟨hrecord id b b' hb hb', ?_⟩
    rw [Bool.eq_iff_iff, h.flag id b hb t ht, h'.flag id b' hb' t ht', hk]
  case tips => exact htips
  case children => exact h.children_eq h' hmem
  case getPast => exact fun id => h.toColoured.getPast_eq h'.toColoured (hmem id)
  case getFuture => exact h.toColoured.getFuture_eq h'.toColoured hmem
  case blueSet => exact fun id => h.toColoured.blueSet_eq h'.toColoured hk (hmem id)
  case selectTip =>
    exact ⟨t, ht ▸ h.selectTip_eq, ht' ▸ h'.selectTip_eq⟩
  case ordering =>
    obtain ⟨order, hord⟩ := h.exists_computeGhostdagOrdering
    refine ⟨order, hord, ?_⟩
    have hpop : s'.popTop = s.popTop := by
      refine Coloured.popTop_congr fun id => ?_
      by_cases hid : id ∈ s.blocks
      · obtain ⟨b, hb⟩ := mem_iff_exists.mp hid
        obtain ⟨b', hb'⟩ := mem_iff_exists.mp ((hmem id).mp hid)
        have hsame := hrecord id b b' hb hb'
        rw [hb, hb', Option.map_some, Option.map_some, hsame.blueScore, hsame.header]
      · rw [getElem?_eq_none_of_notMem hid, getElem?_eq_none_of_notMem (mt (hmem id).mpr hid)]
    have hkeys : s'.blocks.keys = s.blocks.keys := by
      apply eq_of_pairwise_lt (pairwise_keys _) (pairwise_keys _)
      intro id
      rw [ExtTreeMap.mem_keys, ExtTreeMap.mem_keys, hmem]
    rw [h'.computeGhostdagOrdering_eq, ← hord, h.computeGhostdagOrdering_eq, hpop, hkeys]

end Rep

end GhostDag
