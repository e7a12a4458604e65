import GhostDag.Dag.Rep

/-!
# GhostDag.Dag.Insert

Tips, colour flags, and the whole insertion half of `AddBlock`.

Scores grow along edges, so the highest score among all stored blocks is
found among the tips (`isBest_bestTip`); in particular there always is a
selected tip.  `exists_insertBlock` is the step of the representation
invariant: inserting a fresh block whose parents are stored succeeds and
keeps `Rep`, with the same `W` and `G`.
-/

namespace GhostDag

open Std (ExtTreeMap ExtTreeSet)
open Containers Blockchain

variable {W : ℕ → Block} {G : ParentGraph ℕ} {s : Blockchain} {nb : Block}

/-! ## tips -/

namespace Coloured

/-- **Every stored block is a tip or an ancestor of one.** -/
theorem exists_tip (h : Coloured W G s) {b : ℕ} (hb : b ∈ s.blocks) :
    ∃ t ∈ s.tips, b = t ∨ b ∈ G.past t := by
  -- the highest-scored block at or above `b` has no stored child
  set S : Finset ℕ := s.blocks.keys.toFinset.filter fun x => b = x ∨ b ∈ G.past x with hS
  have hmem : ∀ x, x ∈ S ↔ x ∈ s.blocks ∧ (b = x ∨ b ∈ G.past x) := by
    intro x
    rw [hS, Finset.mem_filter, List.mem_toFinset, ExtTreeMap.mem_keys]
  obtain ⟨t, ht, hmax⟩ := S.exists_max_image (score G s.anticoneLimit)
    ⟨b, (hmem b).mpr ⟨hb, .inl rfl⟩⟩
  obtain ⟨htb, hanc⟩ := (hmem t).mp ht
  refine ⟨t, (h.tips t).mpr ⟨htb, fun c hc hp => ?_⟩, hanc⟩
  have hbc : b ∈ G.past c := by
    obtain rfl | hbt := hanc
    · exact G.mem_past_of_mem_parents hp
    · exact G.past_subset_of_mem_past (G.mem_past_of_mem_parents hp) hbt
  have hle := hmax c ((hmem c).mpr ⟨hc, .inr hbc⟩)
  have hlt := score_lt_of_mem_parents (k := s.anticoneLimit) hp
  omega

theorem mem_blocks_of_mem_tips (h : Coloured W G s) {t : ℕ} (ht : t ∈ s.tips) : t ∈ s.blocks :=
  ((h.tips t).mp ht).1

theorem selectTip_eq (h : Coloured W G s) : s.selectTip = some (bestTip G s) :=
  bestByScore_eq fun _ ht =>
    h.exists_blueScore (h.mem_blocks_of_mem_tips (ExtTreeSet.mem_toList.mp ht))

theorem exists_bestTip (h : Coloured W G s) (h0 : 0 ∈ s.blocks) :
    ∃ t, bestTip G s = some t ∧ t ∈ s.tips := by
  obtain ⟨t₀, ht₀, -⟩ := h.exists_tip h0
  have hne : s.tips.toList ≠ [] := List.ne_nil_of_mem (ExtTreeSet.mem_toList.mpr ht₀)
  obtain ⟨t, ht, hbest⟩ := Best.exists_pick_eq_some (score G s.anticoneLimit) hne
  exact ⟨t, ht, ExtTreeSet.mem_toList.mp hbest.1⟩

/-- **The selected tip is the best of all stored blocks**, not of the tips
only. -/
theorem isBest_bestTip (h : Coloured W G s) {t : ℕ} (ht : bestTip G s = some t) :
    Best.IsBest (score G s.anticoneLimit) s.blocks.keys t := by
  have hbest := Best.pick_eq_some_iff.mp ht
  have htips : t ∈ s.tips := ExtTreeSet.mem_toList.mp hbest.1
  refine ⟨ExtTreeMap.mem_keys.mpr (h.mem_blocks_of_mem_tips htips), fun b hb => ?_⟩
  obtain ⟨u, hu, hanc⟩ := h.exists_tip (ExtTreeMap.mem_keys.mp hb)
  have hut := hbest.2 u (ExtTreeSet.mem_toList.mpr hu)
  obtain rfl | hbu := hanc
  · exact hut
  · have hlt := score_lt_of_mem_past (k := s.anticoneLimit) hbu
    have hle := hbest.score_le (ExtTreeSet.mem_toList.mpr hu)
    exact .inl (by omega)

/-! ## colour flags -/

/-- **Re-evaluating the flags** turns the invariant without flags into the
full one. -/
theorem exists_recolour (h : Coloured W G s) (h0 : 0 ∈ s.blocks) :
    ∃ s', s.recolour = some s' ∧ Rep W G s' ∧
      (∃ blocks, s' = { s with blocks }) ∧ ∀ id, id ∈ s'.blocks ↔ id ∈ s.blocks := by
  obtain ⟨t, ht, htips⟩ := h.exists_bestTip h0
  obtain ⟨ti, htidx, hti⟩ := h.exists_idx (h.mem_blocks_of_mem_tips htips)
  have hbl := h.blue ti t hti
  set B := GhostDag.blue G s.anticoneLimit t with hB
  set blocks := s.blocks.toList.foldl
    (fun m e => m.insert e.1 (e.2.paint (decide (e.1 ∈ B)))) s.blocks with hblocks
  have hentry : ∀ e ∈ s.blocks.toList, s.blocks[e.1]? = some e.2 := fun e he =>
    ExtTreeMap.mem_toList_iff_getElem?_eq_some.mp he
  have hfold : s.blocks.toList.foldlM (fun m e => do
        let i ← s.idxOf[e.1]?
        return m.insert e.1 (e.2.paint ((s.blueAt ti).test i))) s.blocks =
      some blocks := by
    apply foldlM_eq_some
    intro e he m
    obtain ⟨i, hidx, hi⟩ := h.exists_idx (mem_of_getElem? (hentry e he))
    have htest : (s.blueAt ti).test i = decide (e.1 ∈ B) := by
      rw [Bool.eq_iff_iff, hbl.test_iff hi, decide_eq_true_eq]
    rw [hidx, ← htest]
    rfl
  have hget : ∀ id : ℕ, blocks[id]? =
      if id ∈ s.blocks then some (stored G s.anticoneLimit (decide (id ∈ B)) (W id)) else none := by
    intro id
    have hkeys : id ∈ s.blocks.toList.map Prod.fst ↔ id ∈ s.blocks := by
      rw [ExtTreeMap.map_fst_toList_eq_keys, ExtTreeMap.mem_keys]
    have hval : ∀ e ∈ s.blocks.toList, e.2.paint (decide (e.1 ∈ B)) =
        stored G s.anticoneLimit (decide (e.1 ∈ B)) (W e.1) := by
      intro e he
      rw [h.block e.1 e.2 (hentry e he)]
      rfl
    rw [hblocks, getElem?_foldl_insert _ _ Prod.fst _
      (fun id => stored G s.anticoneLimit (decide (id ∈ B)) (W id)) hval id]
    simp only [hkeys]
    split
    · rfl
    · next hid => exact getElem?_eq_none_of_notMem hid
  have hmem : ∀ id, id ∈ blocks ↔ id ∈ s.blocks := by
    intro id
    rw [mem_iff_exists, hget]
    split
    · next hid => simp [hid]
    · next hid => simp [hid]
  have hstored : ∀ (id : ℕ) (b : Block), blocks[id]? = some b →
      id ∈ s.blocks ∧ b = stored G s.anticoneLimit (decide (id ∈ B)) (W id) := by
    intro id b hb
    rw [hget] at hb
    split at hb
    · next hid => exact ⟨hid, (Option.some.inj hb).symm⟩
    · exact absurd hb.symm (Option.some_ne_none b)
  refine ⟨{ s with blocks }, ?_, ?_, ⟨blocks, rfl⟩, hmem⟩
  · simp only [recolour, h.selectTip_eq, ht, Option.bind_eq_bind, Option.bind_some, htidx]
    simp only [Option.bind_eq_bind] at hfold
    rw [hfold]
    rfl
  constructor
  case toColoured =>
    constructor
    case toLinks =>
      refine h.toLinks.of_eq rfl rfl rfl rfl hmem fun id b hb => ?_
      obtain ⟨hid, rfl⟩ := hstored id b hb
      exact (h.world id hid).2
    case length_blue => exact h.length_blue
    case blue => exact h.blue
    case tips =>
      intro id
      simp only [hmem]
      exact h.tips id
    case childKeys =>
      intro p
      simp only [hmem]
      exact h.childKeys p
    case world => exact fun id hid => h.world id ((hmem id).mp hid)
    case block =>
      intro id b hb
      obtain ⟨-, rfl⟩ := hstored id b hb
      rfl
  case nonempty => exact (hmem 0).mpr h0
  case flag =>
    intro id b hb t' ht'
    have heq : t' = t := Option.some.inj (ht'.symm.trans ht)
    obtain ⟨-, rfl⟩ := hstored id b hb
    rw [heq]
    exact decide_eq_true_iff

end Coloured

/-! ## the insertion step -/

namespace Rep

/-- **Insertion keeps the invariant.** -/
theorem exists_insertBlock (h : Rep W G s) (hfresh : nb.id ∉ s.blocks) (hW : W nb.id = nb)
    (hpar : G.parents nb.id = nb.parents) (hmem : ∀ p ∈ nb.parents, p ∈ s.blocks) :
    ∃ s', s.insertBlock nb = some s' ∧ Rep W G s' ∧ Grown s s' nb.id := by
  obtain ⟨past, hpast, hden⟩ := h.toLinks.exists_pastOf hfresh hmem Denotes.empty
  have hden' : Denotes s.idOf past (G.past nb.id) :=
    hden.congr (by rw [Finset.empty_union, G.past_eq nb.id, hpar])
  obtain ⟨s₁, hcol, hs₁, hg⟩ := h.toColoured.exists_colour hfresh hW hpar hmem hden'
  have h0 : 0 ∈ s₁.blocks := by
    rw [hs₁.mem_blocks, hg.idOf]
    exact List.mem_append_left _ ((h.mem_blocks 0).mp h.nonempty)
  obtain ⟨s₂, hrec, hs₂, ⟨blocks, rfl⟩, -⟩ := hs₁.exists_recolour h0
  refine ⟨_, ?_, hs₂, ⟨hg.ghostdagK, hg.nextBlockId, hg.nodeIdMetric, hg.orphans, hg.idOf⟩⟩
  have hpast' : (s.register nb).pastOf nb.parents = some past := hpast
  simp only [insertBlock, hpast', hcol, hrec, Option.bind_eq_bind, Option.bind_some]

end Rep

/-- **A new chain** represents the genesis block alone. -/
theorem rep_init (hW : W 0 = genesis) (hG : G.parents 0 = []) (k : Int32) (nodeId : ℕ) :
    Rep W G (init k nodeId) := by
  have hkeys : ∀ id, id ∈ (init k nodeId).blocks ↔ id = 0 := by
    intro id
    rw [init, mem_insert]
    simp
  have hget : ∀ (id : ℕ) (b : Block), (init k nodeId).blocks[id]? = some b →
      id = 0 ∧ b = genesis := by
    intro id b hb
    rw [init, getElem?_insert] at hb
    split at hb
    · next hid => exact ⟨hid, (Option.some.inj hb).symm⟩
    · simp at hb
  have hidOf : ∀ i id : ℕ, (init k nodeId).idOf[i]? = some id ↔ i = 0 ∧ id = 0 := by
    intro i id
    rw [init, List.getElem?_singleton]
    split
    · next hi => simp [hi, eq_comm]
    · next hi => simp [hi]
  have hblue0 : ∀ k', GhostDag.blue G k' 0 = {0} := fun k' => blue_of_parents_eq_nil hG
  have hsel0 : ∀ k', selectedParent G k' 0 = none := fun k' => by
    rw [selectedParent, hG, Best.pick_nil]
  have hone : Denotes [0] ((∅ : BitSet).set 0) {0} := Denotes.empty.set (by simp) rfl
  constructor
  case toColoured =>
    constructor
    case toLinks =>
      constructor
      case idx_iff =>
        intro id i
        rw [hidOf, init, getElem?_insert]
        split
        · next hid => simp [hid, eq_comm]
        · next hid => simp [hid]
      case mem_blocks =>
        intro id
        rw [hkeys, init, List.mem_singleton]
      case parents =>
        intro id b hb
        obtain ⟨rfl, rfl⟩ := hget id b hb
        rw [hG]
        rfl
      case closed =>
        intro id hid p hp
        rw [(hkeys id).mp hid, hG] at hp
        exact absurd hp List.not_mem_nil
      case children =>
        intro p c
        rw [hkeys]
        constructor
        · intro hc
          simp [init, childList] at hc
        · rintro ⟨rfl, hp⟩
          rw [hG] at hp
          exact absurd hp List.not_mem_nil
      case length_past => rfl
      case past =>
        intro i id hi
        obtain ⟨rfl, rfl⟩ := (hidOf i id).mp hi
        rw [G.past_eq_empty_iff.mpr hG]
        exact Denotes.empty
    case length_blue => rfl
    case blue =>
      intro i id hi
      obtain ⟨rfl, rfl⟩ := (hidOf i id).mp hi
      rw [hblue0]
      exact hone
    case tips =>
      intro id
      have htips : id ∈ (init k nodeId).tips ↔ id = 0 := mem_set_singleton
      rw [htips, hkeys]
      simp only [hkeys, forall_eq, hG, List.not_mem_nil, not_false_eq_true, and_true]
    case childKeys =>
      intro p
      simp only [hkeys, exists_eq_left, hG, List.not_mem_nil, iff_false]
      rw [init]
      simp
    case world =>
      intro id hid
      rw [(hkeys id).mp hid, hW, hG]
      exact ⟨rfl, rfl⟩
    case block =>
      intro id b hb
      obtain ⟨rfl, rfl⟩ := hget id b hb
      rw [hW, stored]
      have hid : genesis.id = 0 := rfl
      rw [hid, score, hblue0, hsel0]
      rfl
  case nonempty => exact (hkeys 0).mpr rfl
  case flag =>
    intro id b hb t ht
    obtain ⟨rfl, rfl⟩ := hget id b hb
    have hmem := (Best.pick_eq_some_iff.mp ht).1
    have ht0 : t = 0 := mem_set_singleton.mp (ExtTreeSet.mem_toList.mp hmem)
    rw [ht0, hblue0]
    simp [genesis]

end GhostDag
