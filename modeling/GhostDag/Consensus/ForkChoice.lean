import GhostDag.Consensus.BlueSets

/-!
# GhostDag.Consensus.ForkChoice

The selected tip is the best of all accepted blocks, and it only ever moves
to a better block that has just been accepted.
-/

namespace GhostDag

open Std (ExtTreeMap ExtTreeSet)
open Containers Blockchain

namespace Blockchain

/-- What `tips` and `SelectTip` mean. -/
structure ForkChoice (s : Blockchain) : Prop where
  /-- The tips are the accepted blocks without an accepted child. -/
  tips : ∀ t, t ∈ s.tips ↔ t ∈ s.blocks ∧ ∀ (c : ℕ) (b : Block), s.blocks[c]? = some b →
    t ∉ b.parents
  nonempty : ∃ t, t ∈ s.tips
  covered : ∀ id ∈ s.blocks, ∃ t ∈ s.tips, id = t ∨ s.Ancestor id t
  /-- `SelectTip` returns the best of *all* accepted blocks. -/
  best : ∃ (t : ℕ) (tb : Block), s.selectTip = some (some t) ∧ s.blocks[t]? = some tb ∧
    ∀ (id : ℕ) (b : Block), s.blocks[id]? = some b →
      b.blueScore < tb.blueScore ∨ (b.blueScore = tb.blueScore ∧ t ≤ id)

/-- The selected tip of `s'` scores at least what that of `s` scores, and is
the same block or one that `s` had not accepted. -/
structure Advances (s s' : Blockchain) : Prop where
  tip : ∃ (t t' : ℕ) (tb tb' : Block), s.selectTip = some (some t) ∧
    s'.selectTip = some (some t') ∧ s.blocks[t]? = some tb ∧ s'.blocks[t']? = some tb' ∧
    tb.blueScore ≤ tb'.blueScore ∧ (t' = t ∨ (t' ∉ s.blocks ∧ t' ∈ s'.blocks))

end Blockchain

variable {W : ℕ → Block} {G : ParentGraph ℕ} {s s' : Blockchain}

namespace Rep

theorem forkChoice (h : Rep W G s) : s.ForkChoice := by
  obtain ⟨t, ht, htips⟩ := h.exists_bestTip h.nonempty
  constructor
  case tips =>
    intro id
    rw [h.tips]
    refine and_congr_right fun _ => ⟨fun hno c b hb => ?_, fun hno c hc => ?_⟩
    · rw [h.parents_eq hb]
      exact hno c (mem_of_getElem? hb)
    · obtain ⟨b, hb⟩ := mem_iff_exists.mp hc
      rw [← h.parents_eq hb]
      exact hno c b hb
  case nonempty => exact ⟨t, htips⟩
  case covered =>
    intro id hid
    obtain ⟨u, hu, hanc⟩ := h.exists_tip hid
    exact ⟨u, hu, hanc.imp_right fun hp =>
      h.ancestor_iff.mpr ⟨h.mem_blocks_of_mem_tips hu, hp⟩⟩
  case best =>
    obtain ⟨tb, htb, hscore⟩ := h.exists_blueScore (h.mem_blocks_of_mem_tips htips)
    refine ⟨t, tb, ht ▸ h.selectTip_eq, htb, fun id b hb => ?_⟩
    rw [hscore, h.blueScore_eq hb]
    exact (h.isBest_bestTip ht).2 id (ExtTreeMap.mem_keys.mpr (mem_of_getElem? hb))

/-- **Fork choice is monotone** from a chain to any that stores more blocks
of the same DAG. -/
theorem advances (h : Rep W G s) (h' : Rep W G s') (hk : s'.anticoneLimit = s.anticoneLimit)
    (hsub : ∀ id ∈ s.blocks, id ∈ s'.blocks) : Advances s s' := by
  obtain ⟨t, ht, htips⟩ := h.exists_bestTip h.nonempty
  obtain ⟨t', ht', htips'⟩ := h'.exists_bestTip h'.nonempty
  have htm := h.mem_blocks_of_mem_tips htips
  have htm' := h'.mem_blocks_of_mem_tips htips'
  obtain ⟨tb, htb, hscore⟩ := h.exists_blueScore htm
  obtain ⟨tb', htb', hscore'⟩ := h'.exists_blueScore htm'
  have hbest' := h'.isBest_bestTip ht'
  rw [hk] at hbest' hscore'
  refine ⟨t, t', tb, tb', ht ▸ h.selectTip_eq, ht' ▸ h'.selectTip_eq, htb, htb', ?_, ?_⟩
  · rw [hscore, hscore']
    exact hbest'.score_le (ExtTreeMap.mem_keys.mpr (hsub t htm))
  · by_cases hold : t' ∈ s.blocks
    · have hbest := hbest'.mono (ExtTreeMap.mem_keys.mpr hold) fun b hb =>
        ExtTreeMap.mem_keys.mpr (hsub b (ExtTreeMap.mem_keys.mp hb))
      exact .inl (hbest.unique (h.isBest_bestTip ht))
    · exact .inr ⟨hold, htm'⟩

end Rep

/-- **Fork choice** in every reachable chain, and across every call of
`AddBlock`. -/
theorem exists_forkChoice (d : Delivery) (k : Int32) (nodeId : ℕ) :
    ∃ s, deliver k nodeId d.blocks = some s ∧ s.ForkChoice ∧
      ∀ (i : ℕ) (nb : Block), d.blocks[i]? = some nb →
        ∃ s₀ s₁, deliver k nodeId (d.take i).blocks = some s₀ ∧ s₀.addBlock nb = some s₁ ∧
          Advances s₀ s₁ := by
  obtain ⟨s, hs⟩ := d.exists_delivered k nodeId
  refine ⟨s, hs.run, hs.holding.rep.forkChoice, fun i nb hnb => ?_⟩
  obtain ⟨s₀, hs₀⟩ := d.exists_delivered_take k nodeId i
  obtain ⟨s₁, hadd, hs₁, hcont⟩ := d.exists_delivered_succ k nodeId hs₀ hnb
  have hk : s₁.anticoneLimit = s₀.anticoneLimit := by
    rw [anticoneLimit, anticoneLimit, hcont.ghostdagK]
  exact ⟨s₀, s₁, hs₀.run, hadd, hs₀.holding.rep.advances hs₁.holding.rep hk hcont.blocks⟩

end GhostDag
