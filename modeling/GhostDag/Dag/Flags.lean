import GhostDag.Dag.Sound

/-!
# GhostDag.Dag.Flags

Colour flags between two states of a chain, and what a block over all the
tips does to them.

Snapshots are indexed by insertion order, which later states only extend, so
`NewlyBlue` compares the flags of the same block (`exists_newlyBlue`).  For a
block that references every tip, its blue set can be computed before the
block is there (`mergesBlue`); after `AddBlock` that is what the flags say
(`Sound.exists_addBlock_tips`).
-/

namespace GhostDag

open Std (ExtTreeMap ExtTreeSet)
open Containers

namespace Blockchain

/-- `blocks[id].is_blue`, false for an id that is not accepted. -/
def isBlueAt (s : Blockchain) (id : Nat) : Bool :=
  match s.blocks[id]? with
  | some b => b.isBlue
  | none => false

/-- The blue set that a block over all the tips would get, its own index set
in it, evaluated before the block is there. -/
def tipsBlueSet (s : Blockchain) : Option BitSet := do
  match ← s.selectTip with
  | none => return ∅
  | some tip =>
      let tipIdx ← s.idxOf[tip]?
      let past ← s.pastOf s.tips.toList
      s.greedyBlueSet s.idOf.length tipIdx past

/-- The accepted block would be blue under a block over all the tips. -/
def mergesBlue (s : Blockchain) (id : Nat) : Bool :=
  match s.tipsBlueSet, s.idxOf[id]? with
  | some blue, some i => blue.test i
  | _, _ => false

end Blockchain

open Blockchain

variable {W W' : ℕ → Block} {G G' : ParentGraph ℕ} {s s' : Blockchain} {nb : Block}

theorem isBlueAt_iff {id : ℕ} :
    s.isBlueAt id = true ↔ ∃ b, s.blocks[id]? = some b ∧ b.isBlue = true := by
  unfold isBlueAt
  cases s.blocks[id]? with
  | none => simp
  | some b => simp

theorem isBlueAt_eq_false_of_notMem {id : ℕ} (h : id ∉ s.blocks) : s.isBlueAt id = false := by
  rw [isBlueAt, getElem?_eq_none_of_notMem h]

namespace Links

/-! ## snapshots -/

theorem snapshotBlueFlags_eq (h : Links G s) :
    s.snapshotBlueFlags = some (s.idOf.map s.isBlueAt) := by
  apply mapM_eq_some
  intro id hid
  obtain ⟨b, hb⟩ := mem_iff_exists.mp ((h.mem_blocks id).mpr hid)
  rw [isBlueAt, hb]
  rfl

/-- The flag in an earlier snapshot, at the index of a block of now. -/
theorem getD_snapshot (h : Links G s) (h' : Links G' s') (hpre : s.idOf <+: s'.idOf) {i id : ℕ}
    (hi : s'.idOf[i]? = some id) : (s.idOf.map s.isBlueAt).getD i false = s.isBlueAt id := by
  obtain ⟨rest, hrest⟩ := hpre
  rw [List.getD_eq_getElem?_getD, List.getElem?_map]
  cases hold : s.idOf[i]? with
  | some x =>
      have hx : s'.idOf[i]? = some x := by
        rw [← hrest, List.getElem?_append_left (List.getElem?_eq_some_iff.mp hold).1, hold]
      rw [hi, Option.some.injEq] at hx
      rw [hx]
      rfl
  | none =>
      -- a block of now beyond the snapshot was not accepted then
      have hnot : id ∉ s.blocks := by
        intro hid
        obtain ⟨j, -, hj⟩ := h.exists_idx hid
        have hj' : s'.idOf[j]? = some id := by
          rw [← hrest, List.getElem?_append_left (List.getElem?_eq_some_iff.mp hj).1, hj]
        rw [idx_unique h'.nodup hi hj', hj] at hold
        exact Option.some_ne_none id hold
      rw [isBlueAt_eq_false_of_notMem hnot]
      rfl

/-- **`NewlyBlue` against an earlier snapshot** lists the blocks that are blue
now and were not then. -/
theorem exists_newlyBlue (h : Links G s) (h' : Links G' s') (hpre : s.idOf <+: s'.idOf) :
    ∃ ids, s'.newlyBlue (s.idOf.map s.isBlueAt) = some ids ∧
      ∀ id, id ∈ ids ↔ s'.isBlueAt id = true ∧ s.isBlueAt id = false := by
  refine ⟨_, by rw [newlyBlue, h'.snapshotBlueFlags_eq]; rfl, fun id => ?_⟩
  rw [List.mem_insertionSort, List.mem_map]
  constructor
  · rintro ⟨e, he, rfl⟩
    obtain ⟨hmem, hflags⟩ := List.mem_filter.mp he
    obtain ⟨i, hi⟩ := List.mem_iff_getElem?.mp hmem
    obtain ⟨hzip, hmap⟩ := List.getElem?_zip_eq_some.mp hi
    rw [List.getElem?_zipIdx, Nat.zero_add] at hzip
    obtain ⟨id, hid, hpair⟩ := Option.map_eq_some_iff.mp hzip
    rw [List.getElem?_map, hid] at hmap
    obtain ⟨⟨id', i'⟩, flag⟩ := e
    obtain ⟨rfl, rfl⟩ := Prod.mk.injEq .. ▸ hpair
    obtain rfl : s'.isBlueAt id = flag := Option.some.inj hmap
    simp only [h.getD_snapshot h' hpre hid, Bool.and_eq_true, Bool.not_eq_true'] at hflags
    exact ⟨hflags.2, hflags.1⟩
  · rintro ⟨hnow, hthen⟩
    obtain ⟨b, hb, -⟩ := isBlueAt_iff.mp hnow
    obtain ⟨i, -, hi⟩ := h'.exists_idx (mem_of_getElem? hb)
    refine ⟨((id, i), s'.isBlueAt id), List.mem_filter.mpr ⟨?_, ?_⟩, rfl⟩
    · refine List.mem_iff_getElem?.mpr ⟨i, List.getElem?_zip_eq_some.mpr ⟨?_, ?_⟩⟩
      · rw [List.getElem?_zipIdx, hi, Nat.zero_add]
        rfl
      · rw [List.getElem?_map, hi]
        rfl
    · simp only [h.getD_snapshot h' hpre hi, hthen, hnow]
      rfl

/-- Every block has one index, so `NewlyBlue` lists no id twice. -/
theorem pairwise_newlyBlue (h : Links G s) {before : List Bool} {ids : List ℕ}
    (hrun : s.newlyBlue before = some ids) : ids.Pairwise (· < ·) := by
  rw [newlyBlue, h.snapshotBlueFlags_eq] at hrun
  rw [← Option.some.inj hrun]
  refine pairwise_insertionSort ?_
  have hids : ((s.idOf.zipIdx.zip (s.idOf.map s.isBlueAt)).map fun e => e.1.1) = s.idOf := by
    change (s.idOf.zipIdx.zip (s.idOf.map s.isBlueAt)).map (Prod.fst ∘ Prod.fst) = s.idOf
    rw [← List.map_map, List.map_fst_zip (by simp), List.zipIdx_map_fst]
  refine List.Nodup.sublist (List.filter_sublist.map _) ?_
  rw [hids]
  exact h.nodup

/-! ## a block over all the tips -/

theorem pastOf_register {ps : List ℕ} (hps : ∀ p ∈ ps, p ≠ nb.id) :
    (s.register nb).pastOf ps = s.pastOf ps := by
  refine foldlM_congr (fun p hp past => ?_) ∅
  rw [show (s.register nb).idxOf[p]? = s.idxOf[p]? by
    rw [register, getElem?_insert, if_neg (hps p hp)]]
  rfl

end Links

/-- **The blue set over the tips can be computed beforehand.** -/
theorem Rep.mergesBlue_iff (h : Rep W G s) {id x : ℕ} (hpar : G.parents id = s.tips.toList)
    (hid : id ∉ s.blocks) (hx : x ∈ s.blocks) :
    s.mergesBlue x = true ↔ x ∈ GhostDag.blue G s.anticoneLimit id := by
  obtain ⟨t, ht, htips⟩ := h.exists_bestTip h.nonempty
  obtain ⟨ti, htidx, hti⟩ := h.exists_idx (h.mem_blocks_of_mem_tips htips)
  have hsel : selectedParent G s.anticoneLimit id = some t := by
    rw [selectedParent, hpar]
    exact ht
  obtain ⟨past, hpast, hden⟩ : ∃ past, s.pastOf s.tips.toList = some past ∧
      Denotes s.idOf past (G.past id) := by
    have hmem : ∀ p ∈ s.tips.toList, p ∈ s.blocks := fun p hp =>
      h.mem_blocks_of_mem_tips (ExtTreeSet.mem_toList.mp hp)
    have hfresh : (Block.bare id []).id ∉ s.blocks := hid
    obtain ⟨past, hfold, hden⟩ := h.toLinks.exists_pastOf hfresh hmem Denotes.empty
    refine ⟨past, ?_, hden.congr (by rw [Finset.empty_union, G.past_eq id, hpar])⟩
    have hne : ∀ p ∈ s.tips.toList, p ≠ (Block.bare id []).id := by
      rintro p hp rfl
      exact hid (hmem _ hp)
    exact (Links.pastOf_register hne).symm.trans hfold
  obtain ⟨bl, hrun, hbl⟩ := h.toLinks.exists_mergeBlue s.idOf.length hti hden (h.blue ti t hti)
  have hset : s.tipsBlueSet = some (bl.set s.idOf.length) := by
    rw [tipsBlueSet, h.selectTip_eq, ht]
    simp only [Option.bind_eq_bind, Option.bind_some, htidx, hpast, hrun]
  obtain ⟨i, hidx, hi⟩ := h.exists_idx hx
  have hne : ¬ i = s.idOf.length := Nat.ne_of_lt (List.getElem?_eq_some_iff.mp hi).1
  have hxid : x ≠ id := fun e => hid (e ▸ hx)
  have htest : s.mergesBlue x = bl.test i := by
    rw [mergesBlue, hset, hidx]
    exact (BitSet.test_set bl _ i).trans (by rw [decide_eq_false hne, Bool.false_or])
  rw [htest, hbl.test_iff hi, blue_of_selectedParent hsel, Finset.mem_insert]
  exact (or_iff_right hxid).symm

namespace Holding

variable {d : Delivery} {ids : Finset ℕ}

/-- **Adding a block over all the tips** that no orphan waits for: it becomes
the only tip, orphans stay, and the flags are those computed beforehand. -/
theorem exists_addBlock_tips (h : Holding d ids s) (hready : s.readyOrphans = [])
    (hnb : nb ∈ d.blocks) (hid : nb.id ∉ ids) (hpar : nb.parents = s.tips.toList)
    (horph : ∀ (oid : ℕ) (ob : Block), s.orphans[oid]? = some ob → nb.id ∉ ob.parents) :
    ∃ s', s.addBlock nb = some s' ∧ Holding d (insert nb.id ids) s' ∧ s'.readyOrphans = [] ∧
      Extends s s' ∧ s'.orphans = s.orphans ∧ (∀ t, t ∈ s'.tips ↔ t = nb.id) ∧
      ∀ x ∈ s.blocks, s'.isBlueAt x = s.mergesBlue x := by
  have hcan : s.canAdd nb = true := canAdd_iff.mpr fun p hp =>
    h.rep.mem_blocks_of_mem_tips (ExtTreeSet.mem_toList.mp (hpar ▸ hp))
  obtain ⟨s', hins, hhold, hext, horph'⟩ := h.exists_insertBlock hnb hid hcan
  have hfresh : nb.id ∉ s.blocks := fun hb =>
    ((h.mem_iff nb.id).mp (.inl hb)).elim (d.id_ne_zero hnb) hid
  have hblocks : ∀ id, id ∈ s'.blocks ↔ id ∈ s.blocks ∨ id = nb.id := by
    intro id
    have hnow := hhold.mem_iff id
    have hthen := h.mem_iff id
    have hdisj := hhold.disjoint id
    rw [horph'] at hnow hdisj
    rw [Finset.mem_insert] at hnow
    constructor
    · intro hb
      have := hdisj hb
      tauto
    · rintro (hb | rfl)
      · exact hext.blocks id hb
      · have hnot : nb.id ∉ s.orphans := fun ho =>
          ((h.mem_iff nb.id).mp (.inr ho)).elim (d.id_ne_zero hnb) hid
        tauto
  have hnone : s'.readyOrphans = [] := by
    rw [List.eq_nil_iff_forall_not_mem] at hready ⊢
    intro oid hoid
    obtain ⟨ob, hob, hready'⟩ := mem_readyOrphans.mp hoid
    rw [horph'] at hob
    refine hready oid (mem_readyOrphans.mpr ⟨ob, hob, canAdd_iff.mpr fun p hp => ?_⟩)
    obtain hp' | rfl := (hblocks p).mp (canAdd_iff.mp hready' p hp)
    · exact hp'
    · exact absurd hp (horph oid ob hob)
  have hparents : d.graph.parents nb.id = s.tips.toList := by
    rw [d.parents_of_mem hnb fun p hp => h.accepted (canAdd_iff.mp hcan p hp), hpar]
  have htips : ∀ t, t ∈ s'.tips ↔ t = nb.id := by
    intro t
    rw [hhold.rep.tips, hblocks]
    constructor
    · rintro ⟨ht | ht, hno⟩
      · -- an old block is a parent of the new one, or has a child of its own
        exfalso
        by_cases hmem : t ∈ s.tips
        · refine hno nb.id ((hblocks _).mpr (.inr rfl)) ?_
          rw [hparents]
          exact ExtTreeSet.mem_toList.mpr hmem
        · exact hmem ((h.rep.tips t).mpr ⟨ht, fun c hc => hno c (hext.blocks c hc)⟩)
      · exact ht
    · rintro rfl
      refine ⟨.inr rfl, fun c hc hp => ?_⟩
      obtain hc | rfl := (hblocks c).mp hc
      · exact hfresh (h.rep.closed c hc nb.id hp)
      · exact d.graph.notMem_past_self nb.id (d.graph.mem_past_of_mem_parents hp)
  refine ⟨s', ?_, hhold, hnone, hext, horph', htips, fun x hx => ?_⟩
  · rw [addBlock, addBlockFuel, if_pos hcan, hins, Option.bind_eq_bind, Option.bind_some,
      processOrphansFuel, hnone]
    rfl
  · obtain ⟨t, ht, htmem⟩ := hhold.rep.exists_bestTip hhold.rep.nonempty
    obtain rfl := (htips t).mp htmem
    obtain ⟨b, hb⟩ := mem_iff_exists.mp (hext.blocks x hx)
    have hlim : s'.anticoneLimit = s.anticoneLimit := by
      rw [anticoneLimit, anticoneLimit, hext.ghostdagK]
    rw [Bool.eq_iff_iff, h.rep.mergesBlue_iff hparents hfresh hx, ← hlim,
      ← hhold.rep.flag x b hb _ ht, isBlueAt, hb]

end Holding

/-- What a call of `AddBlock` makes of a chain when the block references all
the tips and no orphan waits for it. -/
structure Merged (P : Block → Prop) (s : Blockchain) (nb : Block) (s' : Blockchain) : Prop
    extends Added P s nb s' where
  orphans : s'.orphans = s.orphans
  mem_blocks : ∀ id, id ∈ s'.blocks ↔ id ∈ s.blocks ∨ id = nb.id
  mem_tips : ∀ t, t ∈ s'.tips ↔ t = nb.id
  flags : ∀ x ∈ s.blocks, s'.isBlueAt x = s.mergesBlue x

namespace Sound

variable {P Q : Block → Prop}

theorem snapshotBlueFlags_eq (h : Sound P s) :
    s.snapshotBlueFlags = some (s.idOf.map s.isBlueAt) := by
  obtain ⟨d, -, hhold, -⟩ := h
  exact hhold.rep.snapshotBlueFlags_eq

theorem exists_newlyBlue (h : Sound P s) (h' : Sound Q s') (hcont : Continues s s') :
    ∃ ids, s'.newlyBlue (s.idOf.map s.isBlueAt) = some ids ∧
      ∀ id, id ∈ ids ↔ s'.isBlueAt id = true ∧ s.isBlueAt id = false := by
  obtain ⟨d, -, hhold, -⟩ := h
  obtain ⟨d', -, hhold', -⟩ := h'
  exact hhold.rep.toLinks.exists_newlyBlue hhold'.rep.toLinks hcont.idOf

/-- **A block over all the tips.** -/
theorem exists_addBlock_tips (h : Sound P s) (hP : P nb) (hb : nb.id ∉ s.blocks)
    (ho : nb.id ∉ s.orphans) (hpar : nb.parents = s.tips.toList)
    (horph : ∀ (oid : ℕ) (ob : Block), s.orphans[oid]? = some ob → nb.id ∉ ob.parents) :
    ∃ s', Merged P s nb s' := by
  obtain ⟨s', hadd⟩ := h.exists_addBlock hP hb ho
  obtain ⟨d, ids, hd, hhold, hnb, hids, -⟩ := h.exists_delivery hP hb ho
  obtain ⟨-, -, -, hready⟩ := h
  obtain ⟨s'', hrun, hhold', -, -, horph', htips, hflags⟩ :=
    hhold.exists_addBlock_tips hready hnb hids hpar horph
  obtain rfl : s' = s'' := Option.some.inj (hadd.run.symm.trans hrun)
  refine ⟨s', hadd, horph', fun id => ?_, htips, hflags⟩
  have hheld := hadd.held_iff id
  have hdisj := hhold'.disjoint id
  rw [horph'] at hheld hdisj
  constructor
  · intro hid
    have := hdisj hid
    tauto
  · rintro (hid | rfl)
    · exact hadd.continues.blocks id hid
    · tauto

end Sound

end GhostDag
