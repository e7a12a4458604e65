import GhostDag.Consensus.BlueSets
import GhostDag.Graphene.Fetch
import GhostDag.Node.Ledger

/-!
# GhostDag.Graphene.Mining

`MineBlock` lists the tips as parents.  That covers every accepted block, so
the new block has all of them in its past and is the only tip left; and the
scan over its parents is the scan of `SelectTip`, so its selected parent is
the block that was selected before.
-/

namespace GhostDag

open Std (ExtTreeMap ExtTreeSet)
open Containers Blockchain

namespace Blockchain

/-- From `s` to `s'`, the block `id` has been accepted on top of everything
that was accepted before. -/
structure MergesAll (s : Blockchain) (id : ℕ) (s' : Blockchain) : Prop where
  accepted : id ∈ s'.blocks
  not_orphan : id ∉ s'.orphans
  mem_tips_iff : ∀ t, t ∈ s'.tips ↔ t = id
  selectTip : s'.selectTip = some (some id)
  mem_getPast_iff : ∀ a, a ∈ s'.getPast id ↔ a ∈ s.blocks
  selectedParent : ∃ b t, s'.blocks[id]? = some b ∧ s.selectTip = some (some t) ∧
    b.selectedParent = t
  blueScore_lt : ∀ (b : Block) (a : ℕ) (ba : Block), s'.blocks[id]? = some b →
    s'.blocks[a]? = some ba → a ≠ id → ba.blueScore < b.blueScore
  orphans : s'.orphans = s.orphans

end Blockchain

/-! ## the chain -/

/-- A block whose parents are the tips has every accepted block in its past. -/
theorem Rep.mem_past_of_tips {W : ℕ → Block} {G : ParentGraph ℕ} {s : Blockchain} (h : Rep W G s)
    {id : ℕ} (hpar : G.parents id = s.tips.toList) (a : ℕ) : a ∈ G.past id ↔ a ∈ s.blocks := by
  have hmem : ∀ t, t ∈ G.parents id ↔ t ∈ s.tips := fun t => by
    rw [hpar, ExtTreeSet.mem_toList]
  constructor
  · intro ha
    obtain ⟨t, ht, rfl | hanc⟩ := G.anc_iff.mp (G.mem_past_iff.mp ha)
    · exact h.mem_blocks_of_mem_tips ((hmem _).mp ht)
    · exact h.mem_blocks_of_mem_past (h.mem_blocks_of_mem_tips ((hmem t).mp ht))
        (G.mem_past_iff.mpr hanc)
  · intro ha
    obtain ⟨t, ht, hanc⟩ := h.exists_tip ha
    have htp := G.mem_past_of_mem_parents ((hmem t).mpr ht)
    obtain rfl | hanc := hanc
    · exact htp
    · exact G.past_subset_of_mem_past htp hanc

/-- **A fresh block over all the tips that no orphan waits for merges the
whole chain.** -/
theorem Sound.exists_mergesAll {P : Block → Prop} {s : Blockchain} {nb : Block} (h : Sound P s)
    (hP : P nb) (hnew : ¬ s.Held nb.id) (hpar : nb.parents = s.tips.toList)
    (horph : ∀ (oid : ℕ) (ob : Block), s.orphans[oid]? = some ob → nb.id ∉ ob.parents) :
    ∃ s', s.addBlock nb = some s' ∧ MergesAll s nb.id s' := by
  obtain ⟨hb, ho⟩ := not_or.mp hnew
  obtain ⟨s', hmerged⟩ := h.exists_addBlock_tips hP hb ho hpar horph
  obtain ⟨d, ids, -, hhold, hnb, hids, -⟩ := h.exists_delivery hP hb ho
  obtain ⟨-, -, -, hready⟩ := h
  obtain ⟨s'', hrun, hhold', -, -, -, -, -⟩ :=
    hhold.exists_addBlock_tips hready hnb hids hpar horph
  obtain rfl : s' = s'' := Option.some.inj (hmerged.run.symm.trans hrun)
  have hrep := hhold.rep
  have hrep' := hhold'.rep
  have hk : s'.anticoneLimit = s.anticoneLimit := by
    rw [anticoneLimit, anticoneLimit, hmerged.continues.ghostdagK]
  have hacc : nb.id ∈ s'.blocks := (hmerged.mem_blocks nb.id).mpr (.inr rfl)
  obtain ⟨b, hbget⟩ := mem_iff_exists.mp hacc
  have hparents : d.graph.parents nb.id = s.tips.toList := by
    rw [← hrep'.parents nb.id b hbget, (hmerged.new b hbget).parents, hpar]
  obtain ⟨t', ht', htips'⟩ := hrep'.exists_bestTip hrep'.nonempty
  obtain rfl := (hmerged.mem_tips t').mp htips'
  obtain ⟨t, ht, -⟩ := hrep.exists_bestTip hrep.nonempty
  refine ⟨s', hmerged.run, hacc, hhold'.disjoint nb.id hacc, hmerged.mem_tips, ht' ▸ hrep'.selectTip_eq,
    fun a => ?_, ⟨b, t, hbget, ht ▸ hrep.selectTip_eq, ?_⟩, fun b' a ba hb' hba hne => ?_,
    hmerged.orphans⟩
  · rw [hrep'.mem_getPast_iff, and_iff_right hacc, hrep.mem_past_of_tips hparents]
  · -- the parents are scanned as the tips are
    have hsel : GhostDag.selectedParent d.graph s'.anticoneLimit nb.id = some t := by
      rw [GhostDag.selectedParent, hparents, hk]
      exact ht
    rw [hrep'.block nb.id b hbget, stored, (hrep'.world nb.id hacc).1, hsel]
    rfl
  · rw [hrep'.blueScore_eq hb', hrep'.blueScore_eq hba]
    refine score_lt_of_mem_past ((hrep.mem_past_of_tips hparents a).mpr ?_)
    exact ((hmerged.mem_blocks a).mp (mem_of_getElem? hba)).resolve_right hne

namespace GrapheneNode

open GrapheneProtocol

variable {G : Graphene} {c : Config} {now : ℚ} {g g' : GrapheneNode}

/-! ## runs -/

/-- Whenever the node mined, nothing was held under the new id. -/
def MinesFreshIds (G : Graphene) (c : Config) (inputs : List Input) : Prop :=
  ∀ past g i g' sends, Step G c inputs past g i g' sends →
    ∀ pick hplain, i.event = .plain ⟨.mineBlock pick, hplain⟩ →
      ¬ g.node.blockchain.Held (Node.minedId c g.node)

theorem MinesFreshIds.mono {inputs inputs' : List Input} (h : MinesFreshIds G c inputs')
    (hle : inputs <+: inputs') : MinesFreshIds G c inputs :=
  fun past g i g' sends hstep => h past g i g' sends (hstep.mono hle)

/-- The chain stays sound across `HandleBlock`, whatever the block. -/
theorem sound_handleBlock (h : Sound (fun _ => True) g.node.blockchain) {b : Block}
    {peer : Ipv4Address} {sends : GrapheneSends}
    (hrun : g.handleBlock G c now b peer = some (g', sends)) :
    Sound (fun _ => True) g'.node.blockchain := by
  obtain ⟨rfl, -⟩ | ⟨hnew, node, chain, rfl, -, hadd, rfl, -, -⟩ := handleBlock_cases hrun
  · exact h
  · obtain ⟨hb, ho⟩ := not_or.mp hnew
    obtain ⟨s', hadded⟩ : ∃ s', Added (fun _ => True) g.node.blockchain
      (Node.received now b peer) s' := h.exists_addBlock trivial hb ho
    obtain rfl := Option.some.inj (hadded.run.symm.trans hadd)
    exact hadded.sound

/-- **One event** keeps the chain sound, unless it mines under an id that is
held. -/
theorem InvStep.sound {event : Event} {sends : GrapheneSends}
    (h : InvStep G c now g event g' sends) (hs : Sound (fun _ => True) g.node.blockchain)
    (hfresh : ∀ pick, event = .plain ⟨.mineBlock pick, rfl⟩ →
      ¬ g.node.blockchain.Held (Node.minedId c g.node)) :
    Sound (fun _ => True) g'.node.blockchain := by
  cases h with
  | same hsame => exact hsame.blockchain ▸ hs
  | block hpre hrun hpost =>
      exact hpost.blockchain ▸ sound_handleBlock (hpre.blockchain ▸ hs) hrun
  | @announced blockHash peer =>
      have hchain : (g.handleInvRelayBlock G c now blockHash peer).1.node.blockchain =
          g.node.blockchain := (Node.fetches_handleInvRelayBlock blockHash peer).sameLedger.blockchain
      exact hchain ▸ hs
  | @expired blockHash due pick =>
      have hchain : (g.invTimeoutExpired G c now blockHash due pick).1.node.blockchain =
          g.node.blockchain := by
        unfold invTimeoutExpired
        split
        · exact (Node.fetches_invTimeoutExpired blockHash pick).sameLedger.blockchain
        · rfl
      exact hchain ▸ hs
  | @mined pick node b _ _ hid hadd =>
      obtain ⟨hb, ho⟩ := not_or.mp (hfresh pick rfl)
      obtain ⟨s', hadded⟩ : ∃ s', Added (fun _ => True)
        { g.node.blockchain with nextBlockId := g.node.blockchain.nextBlockId + 1 } b s' :=
        (hs.setNextBlockId _).exists_addBlock trivial (hid ▸ hb) (hid ▸ ho)
      obtain rfl := Option.some.inj (hadded.run.symm.trans hadd)
      exact hadded.sound

theorem sound_trace {inputs : List Input} (hfresh : MinesFreshIds G c inputs)
    {st : GrapheneNode × GrapheneSends} (hrun : trace G c inputs = some st) :
    Sound (fun _ => True) st.1.node.blockchain := by
  induction inputs using List.reverseRecOn generalizing st with
  | nil =>
      obtain rfl := Option.some.inj hrun
      exact .init _ _ _
  | append_singleton past i ih =>
      obtain ⟨g, sent, store, sends, hpast, hstep, -⟩ := trace_append.mp hrun
      refine (inv_step hstep).sound (ih (hfresh.mono (List.prefix_append past [i])) hpast) ?_
      have hin : Step G c (past ++ [i]) past g i st.1 sends :=
        ⟨List.prefix_rfl, ⟨sent, hpast⟩, ⟨store, hstep⟩⟩
      exact fun pick => hfresh past g i st.1 sends hin pick rfl

/-- **Mining merges the whole visible DAG**: in every state that a miner can
reach under fresh ids, whatever is selected for the body, a block mined under a
fresh id that no orphan refers to is accepted on top of everything. -/
theorem exists_mergesAll_mineBlock {inputs : List Input} (hfresh : MinesFreshIds G c inputs)
    {sent : GrapheneSends} (hrun : trace G c inputs = some (g, sent))
    (hnew : ¬ g.node.blockchain.Held (Node.minedId c g.node))
    (horph : ∀ (oid : ℕ) (ob : Block), g.node.blockchain.orphans[oid]? = some ob →
      Node.minedId c g.node ∉ ob.parents)
    (now : ℚ) (store : BlockBodyStore) (pick : ℕ → ℕ × ℕ) :
    ∃ store' g' sends, step G c now store g (.plain ⟨.mineBlock pick, rfl⟩) =
        some (store', g', sends) ∧
      MergesAll g.node.blockchain (Node.minedId c g.node) g'.node.blockchain := by
  have hs := (sound_trace hfresh hrun).setNextBlockId (g.node.blockchain.nextBlockId + 1)
  let b := Node.mined c now g.node (store.intern (Node.minedId c g.node)
    (Node.selectTransactions c pick g.node.mempool).1).1
  have hpar : b.parents = g.node.blockchain.tips.toList := rfl
  have hheld : ¬ g.node.blockchain.Held b.id := hnew
  obtain ⟨s', hadd, hmerges⟩ := hs.exists_mergesAll trivial hheld hpar horph
  have hstep : ∃ r, step G c now store g (.plain ⟨.mineBlock pick, rfl⟩) = some r ∧
      r.2.1.node.blockchain = s' := by
    rw [step, Node.step, Node.mineBlock]
    simp only [Option.bind_eq_bind, Option.bind_eq_some_iff]
    exact ⟨_, ⟨_, ⟨s', hadd, rfl⟩, rfl⟩, rfl⟩
  obtain ⟨⟨store', g', sends⟩, hstep, rfl⟩ := hstep
  exact ⟨store', g', sends, hstep, hmerges.accepted, hmerges.not_orphan, hmerges.mem_tips_iff,
    hmerges.selectTip, hmerges.mem_getPast_iff, hmerges.selectedParent, hmerges.blueScore_lt,
    hmerges.orphans⟩

/-! ## two tips and an orphan -/

/-- Two blocks over genesis arrive, and one whose parent is missing. -/
def twoTips : List Input :=
  [⟨0, ∅, .handleBlock (Node.overGenesis 7 []) 1⟩, ⟨1, ∅, .handleBlock (Node.overGenesis 8 []) 1⟩,
    ⟨2, ∅, .handleBlock (.bare 9 [10]) 2⟩]

/-- Nothing is mined. -/
theorem minesFreshIds_twoTips : MinesFreshIds relaying Node.twoPeers twoTips := by
  intro past g i g' sends hstep pick hplain hmine
  have hi : i ∈ twoTips :=
    hstep.inRun.subset (List.mem_append_right past (List.mem_singleton_self i))
  exfalso
  unfold twoTips at hi
  fin_cases hi <;> cases hmine

/-- Mining merges the two. -/
theorem exists_mergesAll_twoTips : ∃ g sent, trace relaying Node.twoPeers twoTips = some (g, sent) ∧
    g.node.blockchain.tips.size = 2 ∧ g.node.blockchain.orphans.size = 1 ∧
      ∃ store' g' sends, step relaying Node.twoPeers 3 ∅ g
          (.plain ⟨.mineBlock fun _ => (0, 0), rfl⟩) = some (store', g', sends) ∧
        MergesAll g.node.blockchain (Node.minedId Node.twoPeers g.node) g'.node.blockchain := by
  have hrun : (trace relaying Node.twoPeers twoTips).map (fun st =>
      decide (st.1.node.blockchain.tips.size = 2 ∧ st.1.node.blockchain.orphans.size = 1 ∧
        (st.1.node.blockchain.hasBlock (Node.minedId Node.twoPeers st.1.node) ||
          st.1.node.blockchain.isOrphan (Node.minedId Node.twoPeers st.1.node)) = false ∧
        ∀ e ∈ st.1.node.blockchain.orphans.toList,
          Node.minedId Node.twoPeers st.1.node ∉ e.2.parents)) = some true := by
    decide +kernel
  obtain ⟨⟨g, sent⟩, hrun, heq⟩ := Option.map_eq_some_iff.mp hrun
  obtain ⟨htips, horphans, hnew, hparents⟩ := of_decide_eq_true heq
  refine ⟨g, sent, hrun, htips, horphans, ?_⟩
  exact exists_mergesAll_mineBlock minesFreshIds_twoTips hrun
    (fun hheld => Bool.false_ne_true (hnew.symm.trans (Blockchain.held_iff.mpr hheld)))
    (fun oid ob hob => hparents (oid, ob) (ExtTreeMap.mem_toList_iff_getElem?_eq_some.mpr hob))
    3 ∅ fun _ => (0, 0)

/-- A block with the next id of the miner waits for its parent; the miner uses
the id itself, on top of another block; and then the parent arrives. -/
def forgedId : List Input :=
  [⟨0, ∅, .handleBlock (.bare 5 [0]) 1⟩, ⟨1, ∅, .handleBlock (.bare (5 * 2 ^ 32 + 1) [6]) 1⟩,
    ⟨2, ∅, .plain ⟨.mineBlock fun i => (i, i), rfl⟩⟩, ⟨3, ∅, .handleBlock (.bare 6 [0]) 1⟩]

/-- **A forged id replaces the miner's own block**, and what that had merged is
missing from the past of the next one. -/
theorem not_mergesAll_forgedId : ∃ g sent, trace relaying Node.twoPeers forgedId = some (g, sent) ∧
    ¬ g.node.blockchain.Held (Node.minedId Node.twoPeers g.node) ∧
    (∀ (oid : ℕ) (ob : Block), g.node.blockchain.orphans[oid]? = some ob →
      Node.minedId Node.twoPeers g.node ∉ ob.parents) ∧
    ∃ store' g' sends, step relaying Node.twoPeers 4 ∅ g (.plain ⟨.mineBlock fun _ => (0, 0), rfl⟩) =
        some (store', g', sends) ∧
      ¬ MergesAll g.node.blockchain (Node.minedId Node.twoPeers g.node) g'.node.blockchain := by
  have hrun : ((trace relaying Node.twoPeers forgedId).bind fun st =>
      (step relaying Node.twoPeers 4 ∅ st.1 (.plain ⟨.mineBlock fun _ => (0, 0), rfl⟩)).map fun r =>
        decide ((st.1.node.blockchain.hasBlock (Node.minedId Node.twoPeers st.1.node) ||
            st.1.node.blockchain.isOrphan (Node.minedId Node.twoPeers st.1.node)) = false ∧
          st.1.node.blockchain.orphans.toList = [] ∧ 5 ∈ st.1.node.blockchain.blocks ∧
          5 ∉ r.2.1.node.blockchain.getPast (Node.minedId Node.twoPeers st.1.node))) = some true := by
    decide +kernel
  obtain ⟨⟨g, sent⟩, hrun, hstep⟩ := Option.bind_eq_some_iff.mp hrun
  obtain ⟨⟨store', g', sends⟩, hstep, heq⟩ := Option.map_eq_some_iff.mp hstep
  obtain ⟨hnew, hnone, hmem, hmissing⟩ := of_decide_eq_true heq
  refine ⟨g, sent, hrun, fun hheld => ?_, fun oid ob hob => ?_, store', g', sends, hstep,
    fun h => hmissing ((h.mem_getPast_iff 5).mpr hmem)⟩
  · exact Bool.false_ne_true (hnew.symm.trans (Blockchain.held_iff.mpr hheld))
  · have hin := ExtTreeMap.mem_toList_iff_getElem?_eq_some.mpr hob
    rw [hnone] at hin
    exact absurd hin List.not_mem_nil

end GrapheneNode

end GhostDag
