import GhostDag.Consensus.Concurrence
import GhostDag.Network.Steps

/-!
# GhostDag.Network.Consensus

Consensus across the network, whatever the interleaving.  The blocks that the
miners have created form one DAG (`Consistent.graph`), and the chain of every
node is a part of it (`Consistent.exists_rep`).  Two nodes that colour with
the same `k` therefore agree on every block that both have accepted, and once
they have accepted the same blocks they concur in tip, colours and ordering.
-/

namespace GhostDag

open Std (ExtTreeMap ExtTreeSet)
open Containers Blockchain

namespace Network

variable {ι : Type} {setup : Setup ι} {g g' : Network ι}

/-! ## the DAG of the created blocks -/

namespace Consistent

/-- The created blocks, as a delivery. -/
def delivery (h : Consistent setup g) : Delivery where
  blocks := g.created
  nodup := h.nodup
  fresh hmem := by
    obtain ⟨m, hm, hid⟩ := List.mem_map.mp hmem
    exact h.id_ne_zero hm hid

/-- The DAG of the created blocks. -/
noncomputable def graph (h : Consistent setup g) : ParentGraph ℕ := h.delivery.graph

/-- Blocks that have their bodies from the created ones are acceptable along
with them. -/
theorem accepted_of_genuine {bs : List Block} (hbs : ∀ b ∈ bs, Genuine g.created b) {id : ℕ}
    (hacc : Accepted bs id) : Accepted g.created id := by
  induction hacc with
  | genesis => exact .genesis
  | @step b hb _ ih =>
      obtain ⟨m, hm, hbody⟩ := hbs b hb
      rw [hbody.id]
      exact .step hm fun p hp => ih p (hbody.parents ▸ hp)

/-- A block of a delivery of such blocks has the body it was created with. -/
theorem sameBody_of_genuine (h : Consistent setup g) {d : Delivery}
    (hd : ∀ b ∈ d.blocks, Genuine g.created b) {b : Block} (hb : b ∈ d.blocks) :
    SameBody (h.delivery.block b.id) (d.block b.id) := by
  obtain ⟨m, hm, hbody⟩ := hd b hb
  have hmblock : h.delivery.block m.id = m := h.delivery.block_id hm
  rw [d.block_id hb, hbody.id, hmblock]
  exact hbody

/-- **The chain of every node is a part of the one DAG.** -/
theorem exists_rep (h : Consistent setup g) (i : ι) :
    ∃ W, Rep W h.graph (g.nodes i).blockchain ∧ W 0 = genesis ∧
      ∀ id ∈ (g.nodes i).blockchain.blocks,
        Accepted g.created id ∧ SameBody (h.delivery.block id) (W id) := by
  obtain ⟨d, hd, hhold, -⟩ := h.chain i
  have hacc : ∀ id ∈ (g.nodes i).blockchain.blocks, Accepted g.created id :=
    fun id hid => accepted_of_genuine hd (hhold.accepted hid)
  have hbody : ∀ id ∈ (g.nodes i).blockchain.blocks,
      SameBody (h.delivery.block id) (d.block id) := by
    intro id hid
    obtain rfl | hmem := (hhold.mem_iff id).mp (.inl hid)
    · exact .refl _
    · obtain ⟨b, hb, rfl⟩ := hhold.delivered id hmem
      exact h.sameBody_of_genuine hd hb
  refine ⟨d.block, hhold.rep.congr (fun _ _ => rfl) fun id hid => ?_, d.block_zero,
    fun id hid => ⟨hacc id hid, hbody id hid⟩⟩
  rw [graph, h.delivery.parents_of_accepted (hacc id hid),
    d.parents_of_accepted (hhold.accepted hid), (hbody id hid).parents]

end Consistent

/-! ## what miners create -/

/-- Every created block has parents, and is acceptable: its ancestors have all
been created, down to genesis. -/
def Rooted (created : List Block) : Prop :=
  ∀ m ∈ created, m.parents ≠ [] ∧ Accepted created m.id

/-- A miner builds on its tips. -/
theorem Rooted.mined (h : Rooted g.created) (hc : Consistent setup g) {i : ι} {nb : Block}
    (hpar : nb.parents = (g.nodes i).blockchain.tips.toList) : Rooted (g.created ++ [nb]) := by
  have hsub : ∀ b ∈ g.created, b ∈ g.created ++ [nb] := fun b hb => List.mem_append_left _ hb
  obtain ⟨W, hrep, -, hacc⟩ := hc.exists_rep i
  intro m hm
  obtain hm | hm := List.mem_append.mp hm
  · exact ⟨(h m hm).1, (h m hm).2.mono hsub⟩
  · obtain rfl := List.mem_singleton.mp hm
    rw [hpar]
    constructor
    · obtain ⟨t, -, ht⟩ := hrep.exists_bestTip hrep.nonempty
      exact List.ne_nil_of_mem (ExtTreeSet.mem_toList.mpr ht)
    · refine .step (List.mem_append_right _ hm) fun p hp => ?_
      rw [hpar, ExtTreeSet.mem_toList] at hp
      exact (hacc p (hrep.mem_blocks_of_mem_tips hp)).1.mono hsub

variable [DecidableEq ι]

theorem Reachable.rooted (h : Reachable setup g) : Rooted g.created := by
  induction h with
  | init => exact fun m hm => absurd hm List.not_mem_nil
  | step hreach hrun ih =>
      obtain ⟨i, store, e, r, -, -, rfl⟩ := step_cases hrun
      cases e with
      | mineBlock pick => exact ih.mined hreach.consistent rfl
      | _ =>
          change Rooted (_ ++ [])
          rwa [List.append_nil]

/-! ## consensus -/

/-- Two chains as parts of one DAG, with the same bodies. -/
structure Parts (s s' : Blockchain) (G : ParentGraph ℕ) (W W' : ℕ → Block) : Prop where
  rep : Rep W G s
  rep' : Rep W' G s'
  limit : s.anticoneLimit = s'.anticoneLimit
  body : ∀ id ∈ s.blocks, id ∈ s'.blocks → SameBody (W id) (W' id)
  root : ∀ id ∈ s.blocks, G.parents id = [] → (W' id).selectedParent = (W id).selectedParent

theorem Reachable.exists_parts (h : Reachable setup g) {i j : ι}
    (hk : (setup.config i).ghostdagK = (setup.config j).ghostdagK) :
    ∃ G W W', Parts (g.nodes i).blockchain (g.nodes j).blockchain G W W' := by
  obtain ⟨W, hrep, hW0, hW⟩ := h.consistent.exists_rep i
  obtain ⟨W', hrep', hW0', hW'⟩ := h.consistent.exists_rep j
  refine ⟨_, W, W', hrep, hrep', ?_,
    fun id hid hid' => (hW id hid).2.symm.trans (hW' id hid').2, fun id hid hnil => ?_⟩
  · rw [anticoneLimit, anticoneLimit, h.ghostdagK, h.ghostdagK, hk]
  -- only genesis is without parents
  · have hacc := (hW id hid).1
    have hpar : h.consistent.graph.parents id = _ := h.consistent.delivery.parents_of_accepted hacc
    cases hacc with
    | genesis => rw [hW0, hW0']
    | @step b hb _ =>
        rw [h.consistent.delivery.block_id hb] at hpar
        exact absurd (hpar.symm.trans hnil) (h.rooted b hb).1

/-- Chains with the same accepted blocks concur. -/
theorem Parts.concur {s s' : Blockchain} {G : ParentGraph ℕ} {W W' : ℕ → Block}
    (h : Parts s s' G W W') (hmem : ∀ id, id ∈ s.blocks ↔ id ∈ s'.blocks) : Concur s s' :=
  h.rep.concur h.rep' h.limit hmem (fun id hid => h.body id hid ((hmem id).mp hid)) h.root

/-- What two nodes agree on, however much of the DAG each of them has seen. -/
structure Consensus (s s' : Blockchain) : Prop where
  record : ∀ (id : ℕ) (b b' : Block), s.blocks[id]? = some b → s'.blocks[id]? = some b' →
    SameRecord b b'
  getPast : ∀ id ∈ s.blocks, id ∈ s'.blocks → s.getPast id = s'.getPast id
  blueSet : ∀ id ∈ s.blocks, id ∈ s'.blocks → s.blueSet id = s'.blueSet id
  concur : (∀ id, id ∈ s.blocks ↔ id ∈ s'.blocks) → Concur s s'

/-- **Network consensus**: two nodes with the same `k` agree on every block
that both have accepted, and on everything once they have accepted the same
blocks. -/
theorem Reachable.consensus (h : Reachable setup g) {i j : ι}
    (hk : (setup.config i).ghostdagK = (setup.config j).ghostdagK) :
    Consensus (g.nodes i).blockchain (g.nodes j).blockchain := by
  obtain ⟨G, W, W', hparts⟩ := h.exists_parts hk
  have hcol := hparts.rep.toColoured
  have hcol' := hparts.rep'.toColoured
  constructor
  case record =>
    intro id b b' hb hb'
    have hid := mem_of_getElem? hb
    exact hcol.sameRecord hcol' hparts.limit hb hb' (hparts.body id hid (mem_of_getElem? hb'))
      (hparts.root id hid)
  case getPast => exact fun id hid hid' => hcol.getPast_eq hcol' (iff_of_true hid hid')
  case blueSet =>
    exact fun id hid hid' => hcol.blueSet_eq hcol' hparts.limit (iff_of_true hid hid')
  case concur => exact hparts.concur

/-- At the end of an exchange, with a block relayed. -/
theorem consensus_relayed : ∃ g, relayed g = true ∧
    Consensus (g.nodes false).blockchain (g.nodes true).blockchain := by
  obtain ⟨g, hrun, hrelayed⟩ := Option.map_eq_some_iff.mp relayed_pair
  exact ⟨g, hrelayed, (Reachable.init.of_foldlM hrun).consensus rfl⟩

end Network

end GhostDag
