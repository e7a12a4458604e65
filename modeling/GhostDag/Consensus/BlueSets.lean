import GhostDag.Consensus.Orphans

/-!
# GhostDag.Consensus.BlueSets

What the chain guarantees about the blue sets of accepted blocks, stated on
the stored blocks and the queries `GetPast` and `BlueSet` alone.

* `exists_blueStructure` — selected parents, inheritance, scores, and that
  nothing of this changes under later calls;
* `exists_noFalseReds` — inside a `k`-cluster nothing is red;
* `exists_blueWidth` — at most `k + 1` blue blocks side by side;
* `exists_isKCluster_iff` — when all blue sets are `k`-clusters.
-/

namespace GhostDag

open Std (ExtTreeMap ExtTreeSet)
open Containers Blockchain

namespace Blockchain

/-- `c` is reached from `b` along selected parents. -/
def SelectedChain (s : Blockchain) (b c : ℕ) : Prop :=
  Relation.ReflTransGen (fun c sp => ∃ blk : Block, s.blocks[c]? = some blk ∧
    blk.parents ≠ [] ∧ blk.selectedParent = sp) b c

/-- At most `k` of the blocks `x` with `P x`. -/
def AtMost (k : ℤ) (P : ℕ → Prop) : Prop := ∀ T : Finset ℕ, (∀ x ∈ T, P x) → (T.card : ℤ) ≤ k

/-- Every member of `P` has at most `k` others in its anticone. -/
def KCluster (s : Blockchain) (k : ℤ) (P : ℕ → Prop) : Prop :=
  ∀ b, P b → AtMost k fun x => P x ∧ s.Unrelated b x

/-- The shape of the blue set of `id`, an accepted block stored as `b`. -/
structure BlueStructure (s : Blockchain) (id : ℕ) (b : Block) : Prop where
  /-- The selected parent scores highest, the lowest id winning ties. -/
  selectedParent : b.selectedParent ∈ b.parents ∧ ∃ sp : Block,
    s.blocks[b.selectedParent]? = some sp ∧ ∀ p ∈ b.parents, ∃ pb : Block,
      s.blocks[p]? = some pb ∧ (pb.blueScore < sp.blueScore ∨
        (pb.blueScore = sp.blueScore ∧ b.selectedParent ≤ p))
  self : id ∈ s.blueSet id
  subset : ∀ x ∈ s.blueSet id, x = id ∨ x ∈ s.getPast id
  /-- On the selected parent and its past the colouring is inherited. -/
  inherited : ∀ x, x = b.selectedParent ∨ x ∈ s.getPast b.selectedParent →
    (x ∈ s.blueSet id ↔ x ∈ s.blueSet b.selectedParent)
  chain : ∀ c, s.SelectedChain id c → c ∈ s.blueSet id
  score : b.blueScore = (s.blueSet id).size
  score_parents : ∀ p ∈ b.parents, ∃ pb : Block,
    s.blocks[p]? = some pb ∧ pb.blueScore < b.blueScore
  score_past : ∀ a ∈ s.getPast id, ∃ ab : Block,
    s.blocks[a]? = some ab ∧ ab.blueScore < b.blueScore

/-- What `s` says about the blocks it has accepted, `s'` says too. -/
structure Frozen (s s' : Blockchain) : Prop where
  past : ∀ id ∈ s.blocks, s'.getPast id = s.getPast id
  blue : ∀ id ∈ s.blocks, s'.blueSet id = s.blueSet id
  fields : ∀ (id : ℕ) (b : Block), s.blocks[id]? = some b → ∃ b' : Block,
    s'.blocks[id]? = some b' ∧ b'.blueScore = b.blueScore ∧ b'.selectedParent = b.selectedParent

end Blockchain

variable {W : ℕ → Block} {G : ParentGraph ℕ} {s s' : Blockchain}

/-! ## structure -/

namespace Coloured

theorem parents_eq (h : Coloured W G s) {id : ℕ} {b : Block} (hb : s.blocks[id]? = some b) :
    b.parents = G.parents id := h.toLinks.parents id b hb

theorem blueScore_eq (h : Coloured W G s) {id : ℕ} {b : Block} (hb : s.blocks[id]? = some b) :
    b.blueScore = GhostDag.score G s.anticoneLimit id := by
  obtain ⟨b', hb', hscore⟩ := h.exists_blueScore (mem_of_getElem? hb)
  rw [hb, Option.some.injEq] at hb'
  rw [hb', hscore]

theorem selectedParent_eq (h : Coloured W G s) {id : ℕ} {b : Block} (hb : s.blocks[id]? = some b)
    (hne : b.parents ≠ []) :
    GhostDag.selectedParent G s.anticoneLimit id = some b.selectedParent := by
  obtain ⟨sp, hsp⟩ := exists_selectedParent (k := s.anticoneLimit) (h.parents_eq hb ▸ hne)
  rw [h.block id b hb, stored, (h.world id (mem_of_getElem? hb)).1, hsp]
  rfl

theorem onChain_of_selectedChain (h : Coloured W G s) {b c : ℕ} (hc : s.SelectedChain b c) :
    OnChain G s.anticoneLimit b c := by
  induction hc with
  | refl => exact .self
  | tail _ hstep ih =>
      obtain ⟨blk, hblk, hne, rfl⟩ := hstep
      exact ih.next (h.selectedParent_eq hblk hne)

/-- **The structure of blue sets.** -/
theorem blueStructure (h : Coloured W G s) {id : ℕ} {b : Block} (hb : s.blocks[id]? = some b)
    (hne : b.parents ≠ []) : s.BlueStructure id b := by
  have hid : id ∈ s.blocks := mem_of_getElem? hb
  have hsel := h.selectedParent_eq hb hne
  have hbest := selectedParent_eq_some_iff.mp hsel
  have hspmem : b.selectedParent ∈ s.blocks := h.closed id hid _ hbest.1
  have hmem : ∀ p ∈ b.parents, p ∈ s.blocks := fun p hp =>
    h.closed id hid p (h.parents_eq hb ▸ hp)
  constructor
  case selectedParent =>
    obtain ⟨sp, hsp, hspscore⟩ := h.exists_blueScore hspmem
    refine ⟨h.parents_eq hb ▸ hbest.1, sp, hsp, fun p hp => ?_⟩
    obtain ⟨pb, hpb, hpscore⟩ := h.exists_blueScore (hmem p hp)
    refine ⟨pb, hpb, ?_⟩
    rw [hspscore, hpscore]
    exact hbest.2 p (h.parents_eq hb ▸ hp)
  case self => exact h.mem_blueSet_iff.mpr ⟨hid, self_mem_blue id⟩
  case subset =>
    intro x hx
    obtain rfl | hx := Finset.mem_insert.mp (blue_subset id (h.mem_blueSet_iff.mp hx).2)
    · exact .inl rfl
    · exact .inr (h.mem_getPast_iff.mpr ⟨hid, hx⟩)
  case inherited =>
    intro x hx
    have hx' : x = b.selectedParent ∨ x ∈ G.past b.selectedParent :=
      hx.imp_right fun hx => (h.mem_getPast_iff.mp hx).2
    rw [h.mem_blueSet_iff, h.mem_blueSet_iff, blue_iff_of_mem_chain hsel hx']
    simp only [hid, hspmem, true_and]
  case chain =>
    intro c hc
    exact h.mem_blueSet_iff.mpr ⟨hid, (h.onChain_of_selectedChain hc).mem_blue⟩
  case score => rw [h.blueScore_eq hb, h.size_blueSet hid]
  case score_parents =>
    intro p hp
    obtain ⟨pb, hpb, hscore⟩ := h.exists_blueScore (hmem p hp)
    refine ⟨pb, hpb, ?_⟩
    rw [hscore, h.blueScore_eq hb]
    exact score_lt_of_mem_parents (h.parents_eq hb ▸ hp)
  case score_past =>
    intro a ha
    have hpast := (h.mem_getPast_iff.mp ha).2
    obtain ⟨ab, hab, hscore⟩ := h.exists_blueScore (h.mem_blocks_of_mem_past hid hpast)
    refine ⟨ab, hab, ?_⟩
    rw [hscore, h.blueScore_eq hb]
    exact score_lt_of_mem_past hpast

/-- Two chains over one DAG say the same about common blocks. -/
theorem frozen (h : Coloured W G s) (h' : Coloured W G s') (hk : s'.anticoneLimit = s.anticoneLimit)
    (hsub : ∀ id ∈ s.blocks, id ∈ s'.blocks) : Frozen s s' where
  past id hid := by
    apply ExtTreeSet.ext_mem
    intro a
    rw [h.mem_getPast_iff, h'.mem_getPast_iff]
    simp only [hid, hsub id hid]
  blue id hid := by
    apply ExtTreeSet.ext_mem
    intro a
    rw [h.mem_blueSet_iff, h'.mem_blueSet_iff, hk]
    simp only [hid, hsub id hid]
  fields id b hb := by
    obtain ⟨b', hb'⟩ := mem_iff_exists.mp (hsub id (mem_of_getElem? hb))
    refine ⟨b', hb', ?_, ?_⟩
    · rw [h.blueScore_eq hb, h'.blueScore_eq hb', hk]
    · rw [h.block id b hb, h'.block id b' hb', hk]
      rfl

/-! ## clusters and antichains -/

/-- Counting unrelated blocks of a finite set, on either side. -/
theorem atMost_unrelated_iff (h : Coloured W G s) {S : Finset ℕ} (hS : ∀ x ∈ S, x ∈ s.blocks)
    {b : ℕ} (hb : b ∈ s.blocks) (k : ℤ) :
    AtMost k (fun x => x ∈ S ∧ s.Unrelated b x) ↔
      ((Greedy.conflicts G.Unrelated S b).card : ℤ) ≤ k := by
  have hiff : ∀ x, (x ∈ S ∧ s.Unrelated b x) ↔ x ∈ Greedy.conflicts G.Unrelated S b := by
    intro x
    rw [Greedy.mem_conflicts]
    exact and_congr_right fun hx => h.unrelated_iff hb (hS x hx)
  constructor
  · exact fun hat => hat _ fun x hx => (hiff x).mpr hx
  · intro hle T hT
    have hsub : T ⊆ Greedy.conflicts G.Unrelated S b := fun x hx => (hiff x).mp (hT x hx)
    exact (Int.ofNat_le.mpr (Finset.card_le_card hsub)).trans hle

theorem kCluster_iff (h : Coloured W G s) {S : Finset ℕ} (hS : ∀ x ∈ S, x ∈ s.blocks) {k : ℤ}
    (hk : (s.anticoneLimit : ℤ) = k) :
    s.KCluster k (· ∈ S) ↔ Greedy.Cluster G.Unrelated s.anticoneLimit S := by
  have hone : ∀ b ∈ S, (AtMost k (fun x => x ∈ S ∧ s.Unrelated b x) ↔
      (Greedy.conflicts G.Unrelated S b).card ≤ s.anticoneLimit) := by
    intro b hb
    rw [h.atMost_unrelated_iff hS (hS b hb), ← hk, Int.ofNat_le]
  constructor
  · exact fun hc b hb => (hone b hb).mp (hc b hb)
  · exact fun hc b hb => (hone b hb).mpr (hc b hb)

theorem mem_blocks_of_mem_blueSet (h : Coloured W G s) {x id : ℕ} (hx : x ∈ s.blueSet id) :
    x ∈ s.blocks := by
  obtain ⟨hid, hx⟩ := h.mem_blueSet_iff.mp hx
  exact h.mem_blocks_of_mem_blue hid hx

end Coloured

/-! ## deliveries -/

variable {d : Delivery} {k : Int32} {n : ℕ}

namespace Delivered

/-- Parent lists of accepted blocks are repetition-free if those of the
delivered blocks are. -/
theorem nodup_parents (h : Delivered d k n d.blocks s) (hnd : ∀ b ∈ d.blocks, b.parents.Nodup)
    {id : ℕ} (hid : id ∈ s.blocks) : (d.graph.parents id).Nodup := by
  obtain rfl | hmem := (h.holding.mem_iff id).mp (.inl hid)
  · rw [d.parents_zero]
    exact List.nodup_nil
  · obtain ⟨b, hb, rfl⟩ := h.holding.delivered id hmem
    rw [← (h.holding.rep.world b.id hid).2, d.block_id hb]
    exact hnd b hb

/-- Inside a past of few conflicts everything is blue. -/
theorem blueSet_eq_of_cluster (h : Delivered d k n d.blocks s)
    (hnd : ∀ b ∈ d.blocks, b.parents.Nodup) {id : ℕ} (hid : id ∈ s.blocks)
    (hc : Greedy.Cluster d.graph.Unrelated s.anticoneLimit (d.graph.past id)) :
    (∀ x, x ∈ s.blueSet id ↔ x = id ∨ x ∈ s.getPast id) ∧
      ∃ b : Block, s.blocks[id]? = some b ∧ b.blueScore = (s.getPast id).size + 1 := by
  have hrep := h.holding.rep
  have hblue : blue d.graph s.anticoneLimit id = insert id (d.graph.past id) :=
    blue_eq_of_cluster (fun x hx => h.nodup_parents hnd (hrep.mem_blocks_of_mem_past hid hx)) hc
  constructor
  · intro x
    rw [hrep.mem_blueSet_iff, hrep.mem_getPast_iff, hblue, Finset.mem_insert]
    simp only [hid, true_and]
  · obtain ⟨b, hb, hscore⟩ := hrep.exists_blueScore hid
    refine ⟨b, hb, ?_⟩
    have hnodup := nodup_of_pairwise_lt (pairwise_toList (s.getPast id))
    have hpast : (s.getPast id).toList.toFinset = d.graph.past id := by
      ext x
      rw [List.mem_toFinset, ExtTreeSet.mem_toList, hrep.mem_getPast_iff]
      simp only [hid, true_and]
    rw [hscore, score, hblue, Finset.card_insert_of_notMem (d.graph.notMem_past_self id),
      ← ExtTreeSet.length_toList, ← List.toFinset_card_of_nodup hnodup, hpast]

/-- A past that is a `k`-cluster has few conflicts, whatever the sign of
`k`: no set is small enough for a negative bound. -/
theorem cluster_of_kCluster (h : Delivered d k n d.blocks s) {id : ℕ} (hid : id ∈ s.blocks)
    (hc : s.KCluster k.toInt (· ∈ s.getPast id)) :
    Greedy.Cluster d.graph.Unrelated s.anticoneLimit (d.graph.past id) := by
  have hrep := h.holding.rep
  have hmem : (· ∈ s.getPast id) = (· ∈ d.graph.past id) := by
    funext x
    rw [hrep.mem_getPast_iff]
    simp only [hid, true_and]
  rw [hmem] at hc
  by_cases hk : 0 ≤ k.toInt
  · exact (hrep.kCluster_iff (fun x hx => hrep.mem_blocks_of_mem_past hid hx)
      (h.anticoneLimit_eq hk)).mp hc
  · intro b hb
    have hneg := hc b hb ∅ fun x hx => absurd hx (Finset.notMem_empty x)
    exact absurd hneg hk

/-- On a chain there are no conflicts. -/
theorem cluster_of_linear (h : Delivered d k n d.blocks s)
    (hlinear : ∀ a ∈ s.blocks, ∀ b ∈ s.blocks, ¬ s.Unrelated a b) {id : ℕ} (hid : id ∈ s.blocks) :
    Greedy.Cluster d.graph.Unrelated s.anticoneLimit (d.graph.past id) := by
  have hrep := h.holding.rep
  intro b hb
  have hbm := hrep.mem_blocks_of_mem_past hid hb
  have hempty : Greedy.conflicts d.graph.Unrelated (d.graph.past id) b = ∅ := by
    rw [Finset.eq_empty_iff_forall_notMem]
    intro x hx
    obtain ⟨hxp, hun⟩ := Greedy.mem_conflicts.mp hx
    have hxm := hrep.mem_blocks_of_mem_past hid hxp
    exact hlinear b hbm x hxm ((hrep.unrelated_iff hbm hxm).mpr hun)
  rw [hempty]
  exact Nat.zero_le _

/-- On a chain the selected tip has every other block in its past. -/
theorem mem_getPast_bestTip_of_linear (h : Delivered d k n d.blocks s)
    (hlinear : ∀ a ∈ s.blocks, ∀ b ∈ s.blocks, ¬ s.Unrelated a b) {t : ℕ}
    (ht : bestTip d.graph s = some t) (htm : t ∈ s.blocks) {id : ℕ} (hid : id ∈ s.blocks)
    (hne : id ≠ t) : id ∈ s.getPast t := by
  have hrep := h.holding.rep
  have hno := hlinear id hid t htm
  rw [hrep.unrelated_iff hid htm, ParentGraph.Unrelated] at hno
  have htid : t ∉ d.graph.past id := by
    intro hp
    have hlt := score_lt_of_mem_past (k := s.anticoneLimit) hp
    have hle := (hrep.isBest_bestTip ht).score_le (ExtTreeMap.mem_keys.mpr hid)
    omega
  have hidt : id ∈ d.graph.past t := by
    by_contra hp
    exact hno ⟨hne, hp, htid⟩
  exact hrep.mem_getPast_iff.mpr ⟨htm, hidt⟩

theorem isBlue_of_linear (h : Delivered d k n d.blocks s) (hnd : ∀ b ∈ d.blocks, b.parents.Nodup)
    (hlinear : ∀ a ∈ s.blocks, ∀ b ∈ s.blocks, ¬ s.Unrelated a b) {id : ℕ} {b : Block}
    (hb : s.blocks[id]? = some b) : b.isBlue = true := by
  have hrep := h.holding.rep
  obtain ⟨t, ht, htips⟩ := hrep.exists_bestTip hrep.nonempty
  have htm := hrep.mem_blocks_of_mem_tips htips
  have hall := (h.blueSet_eq_of_cluster hnd htm (h.cluster_of_linear hlinear htm)).1
  have hblue : id ∈ s.blueSet t := by
    rw [hall, or_iff_not_imp_left]
    exact h.mem_getPast_bestTip_of_linear hlinear ht htm (mem_of_getElem? hb)
  exact (hrep.flag id b hb t ht).mpr (hrep.mem_blueSet_iff.mp hblue).2

/-- Where no block has more than `k` others in its anticone, a block is blue
for all its descendants. -/
theorem mem_blueSet_of_ancestor (h : Delivered d k n d.blocks s)
    (hnd : ∀ b ∈ d.blocks, b.parents.Nodup) (hc : s.KCluster k.toInt (· ∈ s.blocks)) {t x : ℕ}
    (ht : t ∈ s.blocks) (hx : s.Ancestor x t) : x ∈ s.blueSet t := by
  have hrep := h.holding.rep
  have hacc : ∀ y, y ∈ s.getPast t → y ∈ s.blocks := fun y hy =>
    hrep.mem_blocks_of_mem_past ht (hrep.mem_getPast_iff.mp hy).2
  have hcl : s.KCluster k.toInt (· ∈ s.getPast t) := by
    intro b hb T hT
    exact hc b (hacc b hb) T fun y hy => ⟨hacc y (hT y hy).1, (hT y hy).2⟩
  have hpast : x ∈ s.getPast t := hrep.mem_getPast_iff.mpr ⟨ht, (hrep.ancestor_iff.mp hx).2⟩
  exact ((h.blueSet_eq_of_cluster hnd ht (h.cluster_of_kCluster ht hcl)).1 x).mpr (.inr hpast)

end Delivered

/-- **Blue-set structure**: in every reachable chain, of every accepted block
with parents. -/
theorem exists_blueStructure (d : Delivery) (k : Int32) (nodeId : ℕ) :
    ∃ s, deliver k nodeId d.blocks = some s ∧
      (∀ (id : ℕ) (b : Block), s.blocks[id]? = some b → b.parents ≠ [] → s.BlueStructure id b) ∧
      ∀ i, ∃ s₀, deliver k nodeId (d.take i).blocks = some s₀ ∧
        (d.blocks.drop i).foldlM addBlock s₀ = some s ∧ Frozen s₀ s := by
  obtain ⟨s, hs⟩ := d.exists_delivered k nodeId
  refine ⟨s, hs.run, fun id b hb hne => hs.holding.rep.blueStructure hb hne, fun i => ?_⟩
  obtain ⟨s₀, hs₀, hlater, hcont⟩ := hs.exists_earlier i
  have hk : s.anticoneLimit = s₀.anticoneLimit := by
    rw [anticoneLimit, anticoneLimit, hcont.ghostdagK]
  exact ⟨s₀, hs₀.run, hlater, hs₀.holding.rep.frozen hs.holding.rep.toColoured hk hcont.blocks⟩

/-- **No false reds**: where the past of an accepted block is a `k`-cluster,
all of it is blue for the block.  So on a chain everything is blue for every
`k`, and where no block has more than `k` others in its anticone, nothing
below a tip is red for that tip. -/
theorem exists_noFalseReds (d : Delivery) (hnd : ∀ b ∈ d.blocks, b.parents.Nodup) (k : Int32)
    (nodeId : ℕ) :
    ∃ s, deliver k nodeId d.blocks = some s ∧
      (∀ id ∈ s.blocks, s.KCluster k.toInt (· ∈ s.getPast id) →
        (∀ x, x ∈ s.blueSet id ↔ x = id ∨ x ∈ s.getPast id) ∧
          ∃ b : Block, s.blocks[id]? = some b ∧ b.blueScore = (s.getPast id).size + 1) ∧
      ((∀ a ∈ s.blocks, ∀ b ∈ s.blocks, ¬ s.Unrelated a b) →
        (∀ id ∈ s.blocks, ∀ x, x ∈ s.blueSet id ↔ x = id ∨ x ∈ s.getPast id) ∧
          ∀ (id : ℕ) (b : Block), s.blocks[id]? = some b → b.isBlue = true) ∧
      (s.KCluster k.toInt (· ∈ s.blocks) →
        (∀ t ∈ s.tips, ∀ x, s.Ancestor x t → x ∈ s.blueSet t) ∧
          ∀ t, s.selectTip = some (some t) → ∀ x, s.Ancestor x t → s.isRed x = false) := by
  obtain ⟨s, hs⟩ := d.exists_delivered k nodeId
  have hrep := hs.holding.rep
  refine ⟨s, hs.run, fun id hid hc => ?_, fun hlinear => ⟨fun id hid => ?_, fun id b hb => ?_⟩,
    fun hc => ⟨fun t ht x hx => ?_, fun t ht x hx => ?_⟩⟩
  · exact hs.blueSet_eq_of_cluster hnd hid (hs.cluster_of_kCluster hid hc)
  · exact (hs.blueSet_eq_of_cluster hnd hid (hs.cluster_of_linear hlinear hid)).1
  · exact hs.isBlue_of_linear hnd hlinear hb
  · exact hs.mem_blueSet_of_ancestor hnd hc (hrep.mem_blocks_of_mem_tips ht) hx
  · have htip : bestTip d.graph s = some t :=
      Option.some.inj (hrep.selectTip_eq.symm.trans ht)
    obtain ⟨htm, hpast⟩ := hrep.ancestor_iff.mp hx
    have hxblue := (hrep.mem_blueSet_iff.mp (hs.mem_blueSet_of_ancestor hnd hc htm hx)).2
    obtain ⟨b, hb⟩ := mem_iff_exists.mp (hrep.mem_blocks_of_mem_past htm hpast)
    rw [isRed, hb]
    simp only [(hrep.flag x b hb t htip).mpr hxblue, Bool.not_true]

/-- A fork of two and the block that merges it. -/
def diamond : Delivery where
  blocks := [.bare 1 [0], .bare 2 [0], .bare 3 [1, 2]]
  nodup := by decide
  fresh := by decide

theorem noFalseReds_diamond :
    ∃ s, deliver 3 0 diamond.blocks = some s ∧
      (∀ id ∈ s.blocks, s.KCluster (3 : Int32).toInt (· ∈ s.getPast id) →
        (∀ x, x ∈ s.blueSet id ↔ x = id ∨ x ∈ s.getPast id) ∧
          ∃ b : Block, s.blocks[id]? = some b ∧ b.blueScore = (s.getPast id).size + 1) ∧
      ((∀ a ∈ s.blocks, ∀ b ∈ s.blocks, ¬ s.Unrelated a b) →
        (∀ id ∈ s.blocks, ∀ x, x ∈ s.blueSet id ↔ x = id ∨ x ∈ s.getPast id) ∧
          ∀ (id : ℕ) (b : Block), s.blocks[id]? = some b → b.isBlue = true) ∧
      (s.KCluster (3 : Int32).toInt (· ∈ s.blocks) →
        (∀ t ∈ s.tips, ∀ x, s.Ancestor x t → x ∈ s.blueSet t) ∧
          ∀ t, s.selectTip = some (some t) → ∀ x, s.Ancestor x t → s.isRed x = false) :=
  exists_noFalseReds diamond (by decide) 3 0

/-- **Blue width**: pairwise unrelated members of a blue set number at most
`k + 1`; in particular children of genesis do. -/
theorem exists_blueWidth (d : Delivery) (k : Int32) (hk : 0 ≤ k.toInt) (nodeId : ℕ) :
    ∃ s, deliver k nodeId d.blocks = some s ∧
      (∀ id ∈ s.blocks, ∀ A : Finset ℕ, (∀ x ∈ A, x ∈ s.blueSet id) →
        (∀ x ∈ A, ∀ y ∈ A, x ≠ y → s.Unrelated x y) → (A.card : ℤ) ≤ k.toInt + 1) ∧
      ∀ id ∈ s.blocks, AtMost (k.toInt + 1) fun x => x ∈ s.blueSet id ∧
        ∃ b : Block, s.blocks[x]? = some b ∧ b.parents = [0] := by
  obtain ⟨s, hs⟩ := d.exists_delivered k nodeId
  have hrep := hs.holding.rep
  have hwidth : ∀ id ∈ s.blocks, ∀ A : Finset ℕ, (∀ x ∈ A, x ∈ s.blueSet id) →
      (∀ x ∈ A, ∀ y ∈ A, x ≠ y → s.Unrelated x y) → (A.card : ℤ) ≤ k.toInt + 1 := by
    intro id hid A hA hr
    have hmem : ∀ x ∈ A, x ∈ s.blocks := fun x hx => hrep.mem_blocks_of_mem_blueSet (hA x hx)
    have hle := card_le_of_antichain (fun x hx => (hrep.mem_blueSet_iff.mp (hA x hx)).2)
      fun x hx y hy hne => (hrep.unrelated_iff (hmem x hx) (hmem y hy)).mp (hr x hx y hy hne)
    have hlim := hs.anticoneLimit_eq hk
    omega
  refine ⟨s, hs.run, hwidth, fun id hid A hA => hwidth id hid A (fun x hx => (hA x hx).1) ?_⟩
  -- a child of genesis has only genesis in its past
  have hpast : ∀ x ∈ A, ∀ y ∈ A, ¬ s.Ancestor x y := by
    intro x hx y hy hanc
    obtain ⟨-, bx, hbx, hpx⟩ := hA x hx
    obtain ⟨-, bY, hby, hpy⟩ := hA y hy
    obtain ⟨p, hp, hxp⟩ := d.graph.anc_iff.mp (d.graph.mem_past_iff.mp (hrep.ancestor_iff.mp hanc).2)
    rw [← hrep.parents_eq hby, hpy, List.mem_singleton] at hp
    subst hp
    obtain rfl | hxp := hxp
    · have := (hrep.parents_eq hbx).symm.trans hpx
      rw [d.parents_zero] at this
      exact List.cons_ne_nil _ _ this.symm
    · obtain ⟨p, hp, -⟩ := d.graph.anc_iff.mp hxp
      rw [d.parents_zero] at hp
      exact List.not_mem_nil hp
  exact fun x hx y hy hne => ⟨hne, hpast x hx y hy, hpast y hy x hx⟩

theorem blueWidth_diamond :
    ∃ s, deliver 0 0 diamond.blocks = some s ∧
      (∀ id ∈ s.blocks, ∀ A : Finset ℕ, (∀ x ∈ A, x ∈ s.blueSet id) →
        (∀ x ∈ A, ∀ y ∈ A, x ≠ y → s.Unrelated x y) → (A.card : ℤ) ≤ (0 : Int32).toInt + 1) ∧
      ∀ id ∈ s.blocks, AtMost ((0 : Int32).toInt + 1) fun x => x ∈ s.blueSet id ∧
        ∃ b : Block, s.blocks[x]? = some b ∧ b.parents = [0] :=
  exists_blueWidth diamond 0 (by decide) 0

/-- **When every blue set is a `k`-cluster**: exactly when, in the greedy
pass of every accepted block, each admitted candidate leaves the blocks that
are already blue and unrelated to it within the bound. -/
theorem exists_isKCluster_iff (d : Delivery) (k : Int32) (hk : 0 ≤ k.toInt) (nodeId : ℕ) :
    ∃ s, deliver k nodeId d.blocks = some s ∧
      ((∀ id ∈ s.blocks, s.KCluster k.toInt (· ∈ s.blueSet id) ∧
          s.isKCluster (s.blueSet id) = true) ↔
        ∀ id, Accepted d.blocks id → MergeFits d.graph k.toInt.toNat id) := by
  obtain ⟨s, hs⟩ := d.exists_delivered k nodeId
  have hrep := hs.holding.rep
  have hlim : s.anticoneLimit = k.toInt.toNat := by
    have := hs.anticoneLimit_eq hk
    omega
  have hacc := hs.holding.mem_blocks_iff hs.ready
  have hone : ∀ id ∈ s.blocks, (s.KCluster k.toInt (· ∈ s.blueSet id) ∧
      s.isKCluster (s.blueSet id) = true) ↔
        ∀ c, OnChain d.graph s.anticoneLimit id c → MergeFits d.graph s.anticoneLimit c := by
    intro id hid
    have hmem : ∀ x, x ∈ s.blueSet id ↔ x ∈ blue d.graph s.anticoneLimit id := by
      intro x
      rw [hrep.mem_blueSet_iff]
      simp only [hid, true_and]
    have hsub : ∀ x ∈ blue d.graph s.anticoneLimit id, x ∈ s.blocks := fun x hx =>
      hrep.mem_blocks_of_mem_blue hid hx
    have hfun : (· ∈ s.blueSet id) = (· ∈ blue d.graph s.anticoneLimit id) := by
      funext x
      rw [hmem]
    rw [hfun, hrep.kCluster_iff hsub (hs.anticoneLimit_eq hk), hrep.isKCluster_iff hmem hsub,
      and_self, cluster_blue_iff_onChain]
  rw [hlim] at hone
  refine ⟨s, hs.run, ?_⟩
  constructor
  · exact fun hall id hid => (hone id ((hacc id).mpr hid)).mp (hall id ((hacc id).mpr hid)) id .self
  · intro hall id hid
    refine (hone id hid).mpr fun c hc => hall c ((hacc c).mp ?_)
    obtain rfl | hp := hc.eq_or_mem_past
    · exact hid
    · exact hrep.mem_blocks_of_mem_past hid hp

theorem isKCluster_iff_diamond :
    ∃ s, deliver 3 0 diamond.blocks = some s ∧
      ((∀ id ∈ s.blocks, s.KCluster (3 : Int32).toInt (· ∈ s.blueSet id) ∧
          s.isKCluster (s.blueSet id) = true) ↔
        ∀ id, Accepted diamond.blocks id →
          MergeFits diamond.graph (3 : Int32).toInt.toNat id) ∧
      ∀ id ∈ s.blocks, s.isKCluster (s.blueSet id) = true := by
  obtain ⟨s, hrun, hiff⟩ := exists_isKCluster_iff diamond 3 (by decide) 0
  obtain ⟨t, ht⟩ := diamond.exists_delivered 3 0
  obtain rfl : s = t := Option.some.inj (hrun.symm.trans ht.run)
  have hacc := ht.holding.mem_blocks_iff ht.ready
  have hids : ∀ id ∈ s.blocks, id ∈ ({0, 1, 2, 3} : Finset ℕ) := by
    intro id hid
    cases (hacc id).mp hid with
    | genesis => decide
    | step hb => fin_cases hb <;> decide
  refine ⟨s, hrun, hiff, fun id hid => (hiff.mpr (fun id hid => ?_) id hid).2⟩
  have hin := (hacc id).mpr hid
  -- four blocks are too few for more conflicts
  refine mergeFits_of_cluster (Greedy.cluster_of_card_le diamond.graph.not_unrelated_self
    ((Finset.card_le_card (t := {0, 1, 2, 3}) fun x hx => hids x ?_).trans (by decide)))
  obtain rfl | hx := Finset.mem_insert.mp hx
  · exact hin
  · exact ht.holding.rep.mem_blocks_of_mem_past hin hx

/-- Block 6 merges 4 onto the chain 1, 2 beside the chain 3, 5: each candidate
fits when its turn comes, and 4 ends up with four blue blocks in its
anticone. -/
def overfull : Delivery where
  blocks := [.bare 1 [0], .bare 2 [1], .bare 3 [0], .bare 4 [0], .bare 5 [3], .bare 6 [2, 4, 5]]
  nodup := by decide
  fresh := by decide

/-- **Blue sets need not be `k`-clusters**: for `k = 3` the blue set of
block 6 is not one. -/
theorem overfull_not_isKCluster :
    (∀ b ∈ overfull.blocks, b.parents.Nodup) ∧
      ∃ s, deliver 3 0 overfull.blocks = some s ∧ 6 ∈ s.blocks ∧
        s.isKCluster (s.blueSet 6) = false ∧
        ¬ s.KCluster (3 : Int32).toInt (· ∈ s.blueSet 6) := by
  have heval : (deliver 3 0 overfull.blocks).map
      (fun s => (s.blocks.contains 6, s.isKCluster (s.blueSet 6))) = some (true, false) := by
    decide +kernel
  obtain ⟨s, hs⟩ := overfull.exists_delivered 3 0
  have hrep := hs.holding.rep
  rw [hs.run, Option.map_some, Option.some.injEq, Prod.mk.injEq] at heval
  have hmem : 6 ∈ s.blocks := ExtTreeMap.contains_iff_mem.mp heval.1
  refine ⟨by decide, s, hs.run, hmem, heval.2, fun hc => ?_⟩
  have hblue : ∀ x, x ∈ s.blueSet 6 ↔ x ∈ blue overfull.graph s.anticoneLimit 6 := by
    intro x
    rw [hrep.mem_blueSet_iff]
    simp only [hmem, true_and]
  have hsub : ∀ x ∈ blue overfull.graph s.anticoneLimit 6, x ∈ s.blocks := fun x hx =>
    hrep.mem_blocks_of_mem_blue hmem hx
  have hfun : (· ∈ s.blueSet 6) = (· ∈ blue overfull.graph s.anticoneLimit 6) := by
    funext x
    rw [hblue]
  rw [hfun, hrep.kCluster_iff hsub (hs.anticoneLimit_eq (by decide)),
    ← hrep.isKCluster_iff hblue hsub, heval.2] at hc
  exact Bool.false_ne_true hc

end GhostDag
