import GhostDag.Dag.Views

/-!
# GhostDag.Consensus.Agreement

Two chains that store the same blocks of the same DAG look the same to every
caller, although their insertion indices differ (`Rep.sameView`).  Which
blocks are stored does not depend on the order of delivery, so two nodes that
have been handed the same blocks agree (`exists_sameView_of_perm`).
-/

namespace GhostDag

open Std (ExtTreeMap ExtTreeSet)
open Containers Blockchain

/-- What two chains show to their callers is the same: the accepted blocks
with their scores, selected parents and colour flags, the orphans, the tips,
and every query. -/
structure SameView (s s' : Blockchain) : Prop where
  blocks : s.blocks = s'.blocks
  orphans : s.orphans = s'.orphans
  tips : s.tips = s'.tips
  children : s.children = s'.children
  getPast : ∀ id, s.getPast id = s'.getPast id
  getFuture : ∀ id, ∃ future, s.getFuture id = some future ∧ s'.getFuture id = some future
  blueSet : ∀ id, s.blueSet id = s'.blueSet id
  selectTip : ∃ t, s.selectTip = some (some t) ∧ s'.selectTip = some (some t)
  ordering : ∃ order, s.computeGhostdagOrdering = some order ∧
    s'.computeGhostdagOrdering = some order

variable {W W' : ℕ → Block} {G : ParentGraph ℕ} {s s' : Blockchain}

namespace Rep

theorem tips_eq (h : Rep W G s) (h' : Rep W' G s') (hmem : ∀ id, id ∈ s.blocks ↔ id ∈ s'.blocks) :
    s.tips = s'.tips := by
  apply ExtTreeSet.ext_mem
  intro id
  rw [h.tips, h'.tips]
  simp only [hmem]

theorem children_eq (h : Rep W G s) (h' : Rep W' G s')
    (hmem : ∀ id, id ∈ s.blocks ↔ id ∈ s'.blocks) : s.children = s'.children := by
  have hchild : ∀ p c, c ∈ s.childList p ↔ c ∈ s'.childList p := by
    intro p c
    rw [h.children, h'.children, hmem]
  apply ExtTreeMap.ext_getElem?
  intro p
  have hkey : p ∈ s.children ↔ p ∈ s'.children := by
    rw [h.childKeys, h'.childKeys]
    simp only [hmem]
  by_cases hp : p ∈ s.children
  · obtain ⟨cs, hcs⟩ := mem_iff_exists.mp hp
    obtain ⟨cs', hcs'⟩ := mem_iff_exists.mp (hkey.mp hp)
    rw [hcs, hcs']
    congr 1
    apply ExtTreeSet.ext_mem
    intro c
    have := hchild p c
    rwa [childList, childList, hcs, hcs', ExtTreeSet.mem_toList, ExtTreeSet.mem_toList] at this
  · rw [getElem?_eq_none_of_notMem hp, getElem?_eq_none_of_notMem (mt hkey.mpr hp)]

/-- The stored records agree, colour flags included: both chains select the
same tip. -/
theorem blocks_eq (h : Rep W G s) (h' : Rep W G s') (hk : s.anticoneLimit = s'.anticoneLimit)
    (hmem : ∀ id, id ∈ s.blocks ↔ id ∈ s'.blocks) : s.blocks = s'.blocks := by
  obtain ⟨t, ht, -⟩ := h.exists_bestTip h.nonempty
  have ht' : bestTip G s' = some t := by
    rw [← ht, bestTip, bestTip, hk, h.tips_eq h' hmem]
  apply ExtTreeMap.ext_getElem?
  intro id
  by_cases hid : id ∈ s.blocks
  · obtain ⟨b, hb⟩ := mem_iff_exists.mp hid
    obtain ⟨b', hb'⟩ := mem_iff_exists.mp ((hmem id).mp hid)
    have hflag : b.isBlue = b'.isBlue := by
      rw [Bool.eq_iff_iff, h.flag id b hb t ht, h'.flag id b' hb' t ht', hk]
    rw [hb, hb', h.block id b hb, h'.block id b' hb', hk, hflag]
  · rw [getElem?_eq_none_of_notMem hid, getElem?_eq_none_of_notMem (mt (hmem id).mpr hid)]

/-- **Same blocks, same view.** -/
theorem sameView (h : Rep W G s) (h' : Rep W G s') (hk : s.anticoneLimit = s'.anticoneLimit)
    (hmem : ∀ id, id ∈ s.blocks ↔ id ∈ s'.blocks) (horph : s.orphans = s'.orphans) :
    SameView s s' := by
  have hblocks := h.blocks_eq h' hk hmem
  have htips := h.tips_eq h' hmem
  have hchildren := h.children_eq h' hmem
  have hlist : s.childList = s'.childList := by
    funext p
    rw [childList, childList, hchildren]
  constructor
  case blocks => exact hblocks
  case orphans => exact horph
  case tips => exact htips
  case children => exact hchildren
  case getPast =>
    intro id
    apply ExtTreeSet.ext_mem
    intro a
    rw [h.mem_getPast_iff, h'.mem_getPast_iff, hmem]
  case getFuture =>
    intro id
    obtain ⟨future, hf, -⟩ := h.exists_getFuture id
    refine ⟨future, hf, ?_⟩
    rw [← hf, getFuture, getFuture, hlist, hblocks]
  case blueSet =>
    intro id
    apply ExtTreeSet.ext_mem
    intro a
    rw [h.mem_blueSet_iff, h'.mem_blueSet_iff, hmem, hk]
  case selectTip =>
    obtain ⟨t, ht, -⟩ := h.exists_bestTip h.nonempty
    refine ⟨t, ht ▸ h.selectTip_eq, ?_⟩
    rw [h'.selectTip_eq, ← ht, bestTip, bestTip, hk, htips]
  case ordering =>
    obtain ⟨order, hord⟩ := h.exists_computeGhostdagOrdering
    refine ⟨order, hord, ?_⟩
    have hpop : s'.popTop = s.popTop := Coloured.popTop_congr fun id => by rw [hblocks]
    rw [h'.computeGhostdagOrdering_eq, ← hord, h.computeGhostdagOrdering_eq, hpop, hblocks]

end Rep

/-! ## deliveries -/

variable {d d' : Delivery} {k : Int32} {n n' : ℕ}

theorem Accepted.iff_of_perm {bs bs' : List Block} (h : bs.Perm bs') (id : ℕ) :
    Accepted bs id ↔ Accepted bs' id :=
  ⟨Accepted.mono fun _ hb => h.mem_iff.mp hb, Accepted.mono fun _ hb => h.mem_iff.mpr hb⟩

namespace Delivered

/-- The orphans are the delivered blocks that are not accepted. -/
theorem getElem?_orphans (h : Delivered d k n d.blocks s) {id : ℕ} {b : Block} :
    s.orphans[id]? = some b ↔ b ∈ d.blocks ∧ b.id = id ∧ ¬ Accepted d.blocks id := by
  have hacc := h.holding.mem_blocks_iff h.ready
  constructor
  · intro hb
    obtain ⟨hbd, hid⟩ := h.holding.orphan id b hb
    refine ⟨hbd, hid, fun ha => ?_⟩
    exact h.holding.disjoint id ((hacc id).mpr ha) (mem_of_getElem? hb)
  · rintro ⟨hbd, rfl, hno⟩
    have hmem : b.id ∈ s.blocks ∨ b.id ∈ s.orphans :=
      (h.holding.mem_iff b.id).mpr (.inr (List.mem_toFinset.mpr (List.mem_map_of_mem hbd)))
    obtain ⟨ob, hob⟩ := mem_iff_exists.mp (hmem.resolve_left (mt (hacc b.id).mp hno))
    obtain ⟨hobd, hobid⟩ := h.holding.orphan b.id ob hob
    rw [hob, ← d.block_id hobd, hobid, d.block_id hbd]

end Delivered

/-- **Arrival order does not matter**: the same blocks in any two orders,
handed to the chains of any two nodes, leave the same accepted blocks with
the same colouring, the same orphans, tips, selected tip and ordering. -/
theorem exists_sameView_of_perm (d d' : Delivery) (hperm : d.blocks.Perm d'.blocks) (k : Int32)
    (nodeId nodeId' : ℕ) :
    ∃ s s', deliver k nodeId d.blocks = some s ∧ deliver k nodeId' d'.blocks = some s' ∧
      SameView s s' := by
  obtain ⟨s, hs⟩ := d.exists_delivered k nodeId
  obtain ⟨s', hs'⟩ := d'.exists_delivered k nodeId'
  -- the second run, read over the first one's DAG
  obtain ⟨t, ht⟩ := d.exists_delivered_of_subset k nodeId' (fun b hb => hperm.mem_iff.mpr hb)
    d'.nodup
  obtain rfl : s' = t := Option.some.inj (hs'.run.symm.trans ht.run)
  have hmem : ∀ id, id ∈ s.blocks ↔ id ∈ s'.blocks := by
    intro id
    rw [hs.holding.mem_blocks_iff hs.ready, hs'.holding.mem_blocks_iff hs'.ready,
      Accepted.iff_of_perm hperm]
  have horph : s.orphans = s'.orphans := by
    apply ExtTreeMap.ext_getElem?
    intro id
    apply Option.ext
    intro b
    rw [hs.getElem?_orphans, hs'.getElem?_orphans, hperm.mem_iff, Accepted.iff_of_perm hperm]
  have hk : s.anticoneLimit = s'.anticoneLimit := by
    rw [anticoneLimit, anticoneLimit, hs.ghostdagK, hs'.ghostdagK]
  exact ⟨s, s', hs.run, hs'.run, hs.holding.rep.sameView ht.holding.rep hk hmem horph⟩

/-- A block delivered before its parent, and after it, on two nodes. -/
theorem sameView_swap :
    ∃ s s', deliver 3 0 [.bare 2 [1], .bare 1 [0]] = some s ∧
      deliver 3 1 [.bare 1 [0], .bare 2 [1]] = some s' ∧ SameView s s' :=
  exists_sameView_of_perm ⟨[.bare 2 [1], .bare 1 [0]], by decide, by decide⟩
    ⟨[.bare 1 [0], .bare 2 [1]], by decide, by decide⟩ (List.Perm.swap _ _ _) 3 0 1

end GhostDag
