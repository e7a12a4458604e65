import GhostDag.Consensus.Orphans
import GhostDag.Dag.Flags

/-!
# GhostDag.Consensus.Colours

The colour flags of the accepted blocks are those of the selected tip after
every call of `AddBlock`, whatever the call has released; and `NewlyBlue`
tells exactly which blocks have become blue since a snapshot.
-/

namespace GhostDag

open Std (ExtTreeMap ExtTreeSet)
open Containers Blockchain

namespace Blockchain

/-- The flags say what is in the blue set of the selected tip. -/
def ExactFlags (s : Blockchain) : Prop :=
  ∃ t, s.selectTip = some (some t) ∧ ∀ (id : ℕ) (b : Block), s.blocks[id]? = some b →
    (b.isBlue = true ↔ id ∈ s.blueSet t)

/-- In `s'`, `NewlyBlue` on a snapshot of `s` lists what is blue now and was
absent or red then, in ascending order. -/
def ExactDelta (s s' : Blockchain) : Prop :=
  ∃ before ids, s.snapshotBlueFlags = some before ∧ s'.newlyBlue before = some ids ∧
    ids.Pairwise (· < ·) ∧
    ∀ id, id ∈ ids ↔ (∃ b, s'.blocks[id]? = some b ∧ b.isBlue = true) ∧
      ¬ ∃ b, s.blocks[id]? = some b ∧ b.isBlue = true

end Blockchain

variable {W W' : ℕ → Block} {G G' : ParentGraph ℕ} {s s' : Blockchain}

theorem Rep.exactFlags (h : Rep W G s) : s.ExactFlags := by
  obtain ⟨t, ht, htips⟩ := h.exists_bestTip h.nonempty
  refine ⟨t, ht ▸ h.selectTip_eq, fun id b hb => ?_⟩
  rw [h.flag id b hb t ht, h.mem_blueSet_iff, and_iff_right (h.mem_blocks_of_mem_tips htips)]

theorem Links.exactDelta (h : Links G s) (h' : Links G' s') (hpre : s.idOf <+: s'.idOf) :
    ExactDelta s s' := by
  obtain ⟨ids, hids, hmem⟩ := h.exists_newlyBlue h' hpre
  refine ⟨_, ids, h.snapshotBlueFlags_eq, hids, h'.pairwise_newlyBlue hids, fun id => ?_⟩
  rw [hmem, isBlueAt_iff, ← Bool.not_eq_true, isBlueAt_iff]

/-- **Colour flags and their deltas are exact** in every reachable chain, and
from every state on the way to it. -/
theorem exists_exactFlags (d : Delivery) (k : Int32) (nodeId : ℕ) :
    ∃ s, deliver k nodeId d.blocks = some s ∧ s.ExactFlags ∧
      ∀ i, ∃ s₀, deliver k nodeId (d.take i).blocks = some s₀ ∧ s₀.ExactFlags ∧
        (d.blocks.drop i).foldlM addBlock s₀ = some s ∧ ExactDelta s₀ s := by
  obtain ⟨s, hs⟩ := d.exists_delivered k nodeId
  refine ⟨s, hs.run, hs.holding.rep.exactFlags, fun i => ?_⟩
  obtain ⟨s₀, hs₀, hlater, hcont⟩ := hs.exists_earlier i
  exact ⟨s₀, hs₀.run, hs₀.holding.rep.exactFlags, hlater,
    hs₀.holding.rep.toLinks.exactDelta hs.holding.rep.toLinks hcont.idOf⟩

end GhostDag
