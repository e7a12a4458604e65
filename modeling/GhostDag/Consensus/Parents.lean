import GhostDag.Consensus.Agreement
import GhostDag.Consensus.BlueSets
import GhostDag.Consensus.Ordering

/-!
# GhostDag.Consensus.Parents

What of a list of parents matters.

Pasts, children, tips and selected parents use the list as a set.  The
in-degrees of the two topological sorts count its entries, while a finished
parent lowers them by one only; so a block that lists an accepted parent twice
is never served, and it is missing from the ordering and from later greedy
passes, with everything above it.

Replacing the lists by lists of the same parents therefore changes nothing as
long as the same parents are repeated (`Rep.sameOutputs`); and if none were,
it changes nothing only if none are (`exists_sameOutputs_iff`).
-/

namespace GhostDag

open Std (ExtTreeMap ExtTreeSet)
open Containers Blockchain

/-- The block with another list of parents. -/
def Block.withParents (b : Block) (parents : List ℕ) : Block :=
  { b with header := { b.header with parentHashes := parents } }

/-- `b'` is `b` but for the order of its parents, and how often it lists
each. -/
structure SameParents (b b' : Block) : Prop where
  eq : b' = b.withParents b'.parents
  mem_iff : ∀ p, p ∈ b'.parents ↔ p ∈ b.parents

namespace Delivery

/-- The blocks of `d'` are those of `d`, one by one, with the same parents. -/
def SameParentSets (d d' : Delivery) : Prop := List.Forall₂ SameParents d.blocks d'.blocks

/-- The accepted blocks list the same parents more than once. -/
def SameRepeats (d d' : Delivery) : Prop :=
  ∀ b ∈ d.blocks, ∀ b' ∈ d'.blocks, b'.id = b.id → Accepted d.blocks b.id →
    ∀ p, List.Duplicate p b'.parents ↔ List.Duplicate p b.parents

/-- No accepted block lists a parent more than once. -/
def DistinctParents (d : Delivery) : Prop :=
  ∀ b ∈ d.blocks, Accepted d.blocks b.id → b.parents.Nodup

end Delivery

/-- What the two chains show of the accepted blocks, the lists of parents
aside, is the same. -/
structure SameOutputs (s s' : Blockchain) : Prop where
  accepted : ∀ id, id ∈ s'.blocks ↔ id ∈ s.blocks
  orphans : ∀ id, id ∈ s'.orphans ↔ id ∈ s.orphans
  tips : s'.tips = s.tips
  getPast : ∀ id, s'.getPast id = s.getPast id
  blueSet : ∀ id, s'.blueSet id = s.blueSet id
  colouring : ∀ (id : ℕ) (b b' : Block), s.blocks[id]? = some b → s'.blocks[id]? = some b' →
    b'.blueScore = b.blueScore ∧ b'.selectedParent = b.selectedParent ∧ b'.isBlue = b.isBlue
  selectTip : ∃ t, s.selectTip = some (some t) ∧ s'.selectTip = some (some t)
  ordering : ∃ order, s.computeGhostdagOrdering = some order ∧
    s'.computeGhostdagOrdering = some order

/-! ## two chains -/

namespace Rep

variable {W W' : ℕ → Block} {G G' : ParentGraph ℕ} {s s' : Blockchain}

/-- **Lists of the same parents with the same repetitions look the same.** -/
theorem sameOutputs (h : Rep W G s) (h' : Rep W' G' s') (hk : s'.anticoneLimit = s.anticoneLimit)
    (hmem : ∀ id, id ∈ s'.blocks ↔ id ∈ s.blocks) (horph : ∀ id, id ∈ s'.orphans ↔ id ∈ s.orphans)
    (hG : Resembles G G' (· ∈ s.blocks))
    (hW : ∀ id ∈ s.blocks, W' id = (W id).withParents (W' id).parents) : SameOutputs s s' := by
  have htips : s'.tips = s.tips := by
    apply ExtTreeSet.ext_mem
    intro id
    rw [h.tips, h'.tips, hmem]
    refine and_congr_right fun _ => ⟨fun hno c hc => ?_, fun hno c hc => ?_⟩
    · rw [← hG.mem_iff c hc]
      exact hno c ((hmem c).mpr hc)
    · rw [hG.mem_iff c ((hmem c).mp hc)]
      exact hno c ((hmem c).mp hc)
  have hbest : bestTip G' s' = bestTip G s := by
    rw [bestTip, bestTip, htips, hk]
    exact Best.pick_congr fun t ht =>
      hG.score_eq (h.mem_blocks_of_mem_tips (ExtTreeSet.mem_toList.mp ht))
  obtain ⟨t, ht, htm⟩ := h.exists_bestTip h.nonempty
  have hcolour : ∀ (id : ℕ) (b b' : Block), s.blocks[id]? = some b → s'.blocks[id]? = some b' →
      b'.blueScore = b.blueScore ∧ b'.selectedParent = b.selectedParent ∧
        b'.isBlue = b.isBlue := by
    intro id b b' hb hb'
    have hid := mem_of_getElem? hb
    refine ⟨?_, ?_, ?_⟩
    · rw [h.blueScore_eq hb, h'.blueScore_eq hb', hk, hG.score_eq hid]
    · rw [h.block id b hb, h'.block id b' hb', hW id hid]
      have hid' : ((W id).withParents (W' id).parents).id = id := (h.world id hid).1
      simp only [stored, hid', (h.world id hid).1, hk, hG.selectedParent_eq hid]
      rfl
    · rw [Bool.eq_iff_iff, h.flag id b hb t ht, h'.flag id b' hb' t (hbest.trans ht), hk,
        hG.blue_eq (h.mem_blocks_of_mem_tips htm)]
  have hpop : s'.popTop = s.popTop := by
    refine Coloured.popTop_congr fun id => ?_
    by_cases hid : id ∈ s.blocks
    · obtain ⟨b, hb⟩ := mem_iff_exists.mp hid
      obtain ⟨b', hb'⟩ := mem_iff_exists.mp ((hmem id).mpr hid)
      have htime : b'.header.timeCreated = b.header.timeCreated := by
        rw [h.block id b hb, h'.block id b' hb', hW id hid]
        rfl
      rw [hb, hb', Option.map_some, Option.map_some, (hcolour id b b' hb hb').1, htime]
    · rw [getElem?_eq_none_of_notMem hid, getElem?_eq_none_of_notMem (mt (hmem id).mp hid)]
  constructor
  case accepted => exact hmem
  case orphans => exact horph
  case tips => exact htips
  case getPast =>
    intro id
    apply ExtTreeSet.ext_mem
    intro a
    rw [h.mem_getPast_iff, h'.mem_getPast_iff, hmem]
    exact and_congr_right fun hid => by rw [hG.past_eq hid]
  case blueSet =>
    intro id
    apply ExtTreeSet.ext_mem
    intro a
    rw [h.mem_blueSet_iff, h'.mem_blueSet_iff, hmem, hk]
    exact and_congr_right fun hid => by rw [hG.blue_eq hid]
  case colouring => exact hcolour
  case selectTip => exact ⟨t, ht ▸ h.selectTip_eq, hbest.trans ht ▸ h'.selectTip_eq⟩
  case ordering =>
    obtain ⟨order, hord⟩ := h.exists_computeGhostdagOrdering
    have hkeys : s'.blocks.keys = s.blocks.keys :=
      eq_of_pairwise_lt (pairwise_keys _) (pairwise_keys _) fun id => by
        rw [ExtTreeMap.mem_keys, ExtTreeMap.mem_keys, hmem]
    refine ⟨order, hord, ?_⟩
    rw [h'.computeGhostdagOrdering_eq, ← hord, h.computeGhostdagOrdering_eq, hpop, hkeys]
    exact Kahn.order_congr (Coloured.lawful_popTop s) (nodup_of_pairwise_lt (pairwise_keys _))
      (fun c hc => hG.mem_iff c (ExtTreeMap.mem_keys.mp hc))
      fun c hc => hG.repeats c (ExtTreeMap.mem_keys.mp hc)

/-- **A block that is served lists no parent twice.** -/
theorem nodup_of_mem_ordering (h : Rep W G s) {order : List ℕ}
    (hrun : s.computeGhostdagOrdering = some order) {id : ℕ} (hid : id ∈ order) :
    (G.parents id).Nodup := by
  have hkeys := nodup_of_pairwise_lt (pairwise_keys s.blocks)
  rw [h.computeGhostdagOrdering_eq] at hrun
  obtain ⟨hmem, hnd, -⟩ :=
    (Kahn.mem_order_iff_reached (Coloured.lawful_popTop s) G.parents hkeys hrun id).mp hid
  rwa [List.filter_eq_self.mpr] at hnd
  intro p hp
  have hacc := h.closed id (ExtTreeMap.mem_keys.mp (List.mem_toFinset.mp hmem)) p hp
  simpa using ExtTreeMap.mem_keys.mpr hacc

end Rep

/-! ## two deliveries -/

theorem SameParents.symm {b b' : Block} (h : SameParents b b') : SameParents b' b := by
  refine ⟨?_, fun p => (h.mem_iff p).symm⟩
  rw [h.eq]
  rfl

theorem SameParents.id_eq {b b' : Block} (h : SameParents b b') : b'.id = b.id := by
  rw [h.eq]
  rfl

theorem exists_of_forall₂ {bs bs' : List Block} (h : List.Forall₂ SameParents bs bs') :
    ∀ b ∈ bs, ∃ b' ∈ bs', SameParents b b' := by
  induction h with
  | nil => exact fun _ hb => absurd hb List.not_mem_nil
  | @cons b b' bs bs' hhead _ ih =>
      intro x hx
      obtain rfl | hx := List.mem_cons.mp hx
      · exact ⟨b', List.mem_cons_self, hhead⟩
      · obtain ⟨x', hx', hsame⟩ := ih x hx
        exact ⟨x', List.mem_cons_of_mem b' hx', hsame⟩

namespace Delivery.SameParentSets

variable {d d' : Delivery}

theorem symm (h : d.SameParentSets d') : d'.SameParentSets d :=
  List.Forall₂.flip (h.imp fun _ _ => SameParents.symm)

theorem exists_block (h : d.SameParentSets d') {b : Block} (hb : b ∈ d.blocks) :
    ∃ b' ∈ d'.blocks, SameParents b b' := exists_of_forall₂ h b hb

theorem accepted (h : d.SameParentSets d') {id : ℕ} (hid : Accepted d.blocks id) :
    Accepted d'.blocks id := by
  induction hid with
  | genesis => exact .genesis
  | @step b hb _ ih =>
      obtain ⟨b', hb', hsame⟩ := h.exists_block hb
      rw [← hsame.id_eq]
      exact .step hb' fun p hp => ih p ((hsame.mem_iff p).mp hp)

theorem accepted_iff (h : d.SameParentSets d') (id : ℕ) :
    Accepted d'.blocks id ↔ Accepted d.blocks id := ⟨h.symm.accepted, h.accepted⟩

/-- The block of an id, in both deliveries. -/
theorem block (h : d.SameParentSets d') {id : ℕ} (hid : Accepted d.blocks id) :
    SameParents (d.block id) (d'.block id) := by
  cases hid with
  | genesis => exact ⟨rfl, fun _ => Iff.rfl⟩
  | @step b hb =>
      obtain ⟨b', hb', hsame⟩ := h.exists_block hb
      rw [d.block_id hb, ← hsame.id_eq, d'.block_id hb']
      exact hsame

theorem resembles (h : d.SameParentSets d') (hrep : d.SameRepeats d') {P : ℕ → Prop}
    (hP : ∀ b, P b → Accepted d.blocks b) (hclosed : ∀ b, P b → ∀ p ∈ d.graph.parents b, P p) :
    Resembles d.graph d'.graph P where
  closed := hclosed
  mem_iff id hid p := by
    have hacc := hP id hid
    rw [d.parents_of_accepted hacc, d'.parents_of_accepted (h.accepted hacc)]
    exact (h.block hacc).mem_iff p
  repeats id hid p := by
    have hacc := hP id hid
    rw [d.parents_of_accepted hacc, d'.parents_of_accepted (h.accepted hacc)]
    cases hacc with
    | genesis => rfl
    | @step b hb hpar =>
        obtain ⟨b', hb', hsame⟩ := h.exists_block hb
        have hrepb := hrep b hb b' hb' hsame.id_eq (.step hb hpar) p
        rwa [← d.block_id hb, ← d'.block_id hb', hsame.id_eq] at hrepb

end Delivery.SameParentSets

theorem Delivered.mem_orphans_of_sameParents {d d' : Delivery} {k : Int32} {n n' : ℕ}
    {s s' : Blockchain} (hs : Delivered d k n d.blocks s) (hs' : Delivered d' k n' d'.blocks s')
    (h : d.SameParentSets d') {id : ℕ} (hid : id ∈ s.orphans) : id ∈ s'.orphans := by
  obtain ⟨b, hb⟩ := mem_iff_exists.mp hid
  obtain ⟨hbd, rfl, hno⟩ := hs.getElem?_orphans.mp hb
  obtain ⟨b', hb', hsame⟩ := h.exists_block hbd
  refine mem_of_getElem? (hs'.getElem?_orphans.mpr ⟨hb', hsame.id_eq, ?_⟩)
  rwa [h.accepted_iff]

/-- **When only the set of parents matters.**  Replacing the lists of parents
by lists of the same parents changes nothing a chain shows if the same parents
are repeated; and if no accepted block repeats a parent, it changes nothing
exactly if no accepted block repeats one afterwards. -/
theorem exists_sameOutputs_iff (d d' : Delivery) (h : d.SameParentSets d') (k : Int32)
    (nodeId : ℕ) :
    ∃ s s', deliver k nodeId d.blocks = some s ∧ deliver k nodeId d'.blocks = some s' ∧
      (d.SameRepeats d' → SameOutputs s s') ∧
      (d.DistinctParents → (SameOutputs s s' ↔ d'.DistinctParents)) := by
  obtain ⟨s, hs⟩ := d.exists_delivered k nodeId
  obtain ⟨s', hs'⟩ := d'.exists_delivered k nodeId
  have hrep := hs.holding.rep
  have hrep' := hs'.holding.rep
  have hacc := hs.holding.mem_blocks_iff hs.ready
  have hacc' := hs'.holding.mem_blocks_iff hs'.ready
  have hk : s'.anticoneLimit = s.anticoneLimit := by
    rw [anticoneLimit, anticoneLimit, hs.ghostdagK, hs'.ghostdagK]
  have hmem : ∀ id, id ∈ s'.blocks ↔ id ∈ s.blocks := fun id => by
    rw [hacc, hacc', h.accepted_iff]
  have horph : ∀ id, id ∈ s'.orphans ↔ id ∈ s.orphans := fun id =>
    ⟨hs'.mem_orphans_of_sameParents hs h.symm, hs.mem_orphans_of_sameParents hs' h⟩
  have hsame : d.SameRepeats d' → SameOutputs s s' := fun hsr =>
    hrep.sameOutputs hrep' hk hmem horph
      (h.resembles hsr (fun id hid => (hacc id).mp hid) hrep.closed)
      fun id hid => (h.block ((hacc id).mp hid)).eq
  refine ⟨s, s', hs.run, hs'.run, hsame, fun hnd => ⟨fun hout b' hb' hb'acc => ?_, fun hnd' => ?_⟩⟩
  · obtain ⟨order, hord, hord'⟩ := hout.ordering
    have hdistinct : s.DistinctParents := by
      intro id b hb
      have hid := (hacc id).mp (mem_of_getElem? hb)
      rw [hrep.parents id b hb, d.parents_of_accepted hid]
      cases hid with
      | genesis => exact List.nodup_nil
      | @step b₀ hb₀ hpar =>
          rw [d.block_id hb₀]
          exact hnd b₀ hb₀ (.step hb₀ hpar)
    have hserved : b'.id ∈ order :=
      ((hrep.priorityOrder hdistinct hord).mem_iff b'.id).mpr
        ((hacc b'.id).mpr ((h.accepted_iff b'.id).mp hb'acc))
    rw [← d'.block_id hb', ← d'.parents_of_accepted hb'acc]
    exact hrep'.nodup_of_mem_ordering hord' hserved
  · refine hsame fun b hb b' hb' hid hbacc p => ?_
    have hb'acc : Accepted d'.blocks b'.id := hid ▸ h.accepted hbacc
    exact iff_of_false (List.nodup_iff_forall_not_duplicate.mp (hnd' b' hb' hb'acc) p)
      (List.nodup_iff_forall_not_duplicate.mp (hnd b hb hbacc) p)

/-! ## lists of the same parents -/

/-- Two blocks, and one that merges them. -/
def merging (parents : List ℕ) : Delivery where
  blocks := [.bare 1 [0], .bare 2 [0], .bare 3 parents]
  nodup := by simp [Block.bare, Block.id]
  fresh := by simp [Block.bare, Block.id]

/-- The order of the two does not matter. -/
theorem sameOutputs_merging :
    ∃ s s', deliver 3 0 (merging [1, 2]).blocks = some s ∧
      deliver 3 0 (merging [2, 1]).blocks = some s' ∧ SameOutputs s s' := by
  have hsame : (merging [1, 2]).SameParentSets (merging [2, 1]) :=
    .cons ⟨rfl, fun _ => Iff.rfl⟩ (.cons ⟨rfl, fun _ => Iff.rfl⟩
      (.cons ⟨rfl, fun _ => (List.Perm.swap 1 2 []).mem_iff⟩ .nil))
  have hnd : ∀ b ∈ (merging [1, 2]).blocks, b.parents.Nodup := by decide
  have hnd' : ∀ b ∈ (merging [2, 1]).blocks, b.parents.Nodup := by decide
  obtain ⟨s, s', hs, hs', -, hiff⟩ := exists_sameOutputs_iff _ _ hsame 3 0
  exact ⟨s, s', hs, hs', (hiff fun b hb _ => hnd b hb).mpr fun b hb _ => hnd' b hb⟩

/-- A block over genesis, which it lists a number of times. -/
def overGenesisNaming (parents : List ℕ) : Delivery where
  blocks := [.bare 1 parents]
  nodup := List.nodup_singleton _
  fresh := by simp [Block.bare, Block.id]

theorem ordering_overGenesisNaming :
    (deliver 3 0 (overGenesisNaming [0]).blocks).bind computeGhostdagOrdering = some [0, 1] ∧
      (deliver 3 0 (overGenesisNaming [0, 0]).blocks).bind computeGhostdagOrdering = some [0] := by
  decide +kernel

/-- **A block that lists its parent twice is missing from the ordering.** -/
theorem not_sameOutputs_repeated :
    (overGenesisNaming [0]).SameParentSets (overGenesisNaming [0, 0]) ∧
      ∃ s s', deliver 3 0 (overGenesisNaming [0]).blocks = some s ∧
        deliver 3 0 (overGenesisNaming [0, 0]).blocks = some s' ∧ ¬ SameOutputs s s' := by
  obtain ⟨hord, hord'⟩ := ordering_overGenesisNaming
  obtain ⟨s, hs, hord⟩ := Option.bind_eq_some_iff.mp hord
  obtain ⟨s', hs', hord'⟩ := Option.bind_eq_some_iff.mp hord'
  refine ⟨.cons ⟨rfl, fun p => ?_⟩ .nil, s, s', hs, hs', fun hsame => ?_⟩
  · simp [Block.bare, Block.parents]
  · obtain ⟨order, heq, heq'⟩ := hsame.ordering
    rw [hord] at heq
    rw [hord', ← heq] at heq'
    exact absurd heq' (by decide)

end GhostDag
