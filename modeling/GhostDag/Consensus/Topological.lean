import GhostDag.Consensus.Ordering

/-!
# GhostDag.Consensus.Topological

`TopologicalSort` over a subset of the accepted blocks outputs each of them
once, after its parents in the subset, and depends on nothing but the ids and
the parent lists of these blocks.
-/

namespace GhostDag

open Std (ExtTreeMap ExtTreeSet)
open Containers Blockchain

namespace Blockchain

/-- All indices of `m` are indices of accepted blocks. -/
def Indexes (s : Blockchain) (m : BitSet) : Prop := ∀ i, m.test i = true → i < s.idOf.length

/-- The id of a block whose index is in `m`. -/
def Selected (s : Blockchain) (m : BitSet) (id : ℕ) : Prop :=
  ∃ i, m.test i = true ∧ s.idOf[i]? = some id

/-- Every selected block once, after its selected parents. -/
structure TopologicalOrder (s : Blockchain) (m : BitSet) (order : List ℕ) : Prop where
  nodup : order.Nodup
  mem_iff : ∀ id, id ∈ order ↔ s.Selected m id
  parents : ∀ (l r : List ℕ) (x : ℕ), order = l ++ x :: r →
    ∀ b, s.blocks[x]? = some b → ∀ p ∈ b.parents, s.Selected m p → p ∈ l

/-- The blocks selected in `s` and in `s'` have the same ids and the same
parent lists. -/
structure SameSelection (s s' : Blockchain) (m m' : BitSet) : Prop where
  mem_iff : ∀ id, s'.Selected m' id ↔ s.Selected m id
  parents : ∀ (id : ℕ) (b b' : Block), s.Selected m id → s.blocks[id]? = some b →
    s'.blocks[id]? = some b' → b'.parents = b.parents

end Blockchain

namespace Links

variable {G G' : ParentGraph ℕ} {s s' : Blockchain} {m m' : BitSet}

/-- A bit set over the indices denotes the ids that it selects. -/
theorem exists_denotes (h : Links G s) (hm : s.Indexes m) :
    ∃ S, Denotes s.idOf m S ∧ ∀ id, id ∈ S ↔ s.Selected m id := by
  have hmem : ∀ id, id ∈ (m.forEach.map s.idAt).toFinset ↔ s.Selected m id := by
    intro id
    rw [List.mem_toFinset, List.mem_map]
    constructor
    · rintro ⟨i, hi, rfl⟩
      rw [BitSet.mem_forEach] at hi
      refine ⟨i, hi, ?_⟩
      rw [idAt, List.getD_eq_getElem _ _ (hm i hi), List.getElem?_eq_getElem (hm i hi)]
    · rintro ⟨i, hi, hid⟩
      exact ⟨i, (BitSet.mem_forEach m i).mpr hi, Denotes.getD_eq hid⟩
  refine ⟨_, ⟨fun i => ⟨fun hi => ?_, ?_⟩, fun a ha => ?_⟩, hmem⟩
  · have hid := List.getElem?_eq_getElem (hm i hi)
    exact ⟨_, (hmem _).mpr ⟨i, hi, hid⟩, hid⟩
  · rintro ⟨a, ha, hia⟩
    obtain ⟨j, hj, hja⟩ := (hmem a).mp ha
    rwa [idx_unique h.nodup hia hja]
  · obtain ⟨i, -, hi⟩ := (hmem a).mp ha
    exact List.mem_of_getElem? hi

/-- **`TopologicalSort` is complete** where no parent is listed twice. -/
theorem topologicalOrder (h : Links G s) (hnd : s.DistinctParents) (hm : s.Indexes m)
    {order : List ℕ} (hrun : s.topologicalSort m = some order) : s.TopologicalOrder m order := by
  obtain ⟨S, hden, hS⟩ := h.exists_denotes hm
  have hsort : (S.sort (· ≤ ·)).Nodup := S.sort_nodup (· ≤ ·)
  have hmem : ∀ id, id ∈ S.sort (· ≤ ·) ↔ s.Selected m id := fun id => by
    rw [Finset.mem_sort, hS]
  rw [h.topologicalSort_eq hden] at hrun
  constructor
  case nodup => exact Kahn.order_nodup Kahn.lawful_fifo G.parents hsort hrun
  case mem_iff =>
    intro id
    have hdistinct : ∀ c ∈ S.sort (· ≤ ·), (G.parents c).Nodup := by
      intro c hc
      obtain ⟨b, hb⟩ := mem_iff_exists.mp
        ((h.mem_blocks c).mpr (hden.mem c ((Finset.mem_sort (· ≤ ·)).mp hc)))
      exact h.parents c b hb ▸ hnd c b hb
    rw [Kahn.mem_order_iff Kahn.lawful_fifo G.parents hsort G.wf hdistinct hrun, hmem]
  case parents =>
    intro l r x hout b hb p hp hsel
    refine (Kahn.ready_of_order Kahn.lawful_fifo G.parents hsort hrun hout).parents p ?_ ?_
    · exact h.parents x b hb ▸ hp
    · exact List.mem_toFinset.mpr ((hmem p).mpr hsel)

/-- **Indices, and the blocks outside the subset, play no part.** -/
theorem topologicalSort_congr (h : Links G s) (h' : Links G' s') (hm : s.Indexes m)
    (hm' : s'.Indexes m') (hsame : s.SameSelection s' m m') :
    s'.topologicalSort m' = s.topologicalSort m := by
  obtain ⟨S, hden, hS⟩ := h.exists_denotes hm
  obtain ⟨S', hden', hS'⟩ := h'.exists_denotes hm'
  obtain rfl : S' = S := Finset.ext fun id => by rw [hS, hS', hsame.mem_iff]
  have hparents : ∀ c ∈ S'.sort (· ≤ ·), G'.parents c = G.parents c := by
    intro c hc
    rw [Finset.mem_sort] at hc
    obtain ⟨b, hb⟩ := mem_iff_exists.mp ((h.mem_blocks c).mpr (hden.mem c hc))
    obtain ⟨b', hb'⟩ := mem_iff_exists.mp ((h'.mem_blocks c).mpr (hden'.mem c hc))
    rw [← h.parents c b hb, ← h'.parents c b' hb']
    exact hsame.parents c b b' ((hS c).mp hc) hb hb'
  rw [h.topologicalSort_eq hden, h'.topologicalSort_eq hden']
  exact Kahn.order_congr Kahn.lawful_fifo (S'.sort_nodup (· ≤ ·))
    (fun c hc p => by rw [hparents c hc]) fun c hc p => by rw [hparents c hc]

theorem exists_topologicalSort (h : Links G s) (hm : s.Indexes m) :
    ∃ order, s.topologicalSort m = some order := by
  obtain ⟨S, hden, -⟩ := h.exists_denotes hm
  obtain ⟨-, order, hrun, -⟩ :=
    Kahn.exists_order Kahn.lawful_fifo G.parents (S.sort_nodup (· ≤ ·))
  exact ⟨order, (h.topologicalSort_eq hden).trans hrun⟩

end Links

/-- **`TopologicalSort` terminates on every subset of the accepted blocks of
every reachable chain.**  Where no parent is listed twice its result is
complete, and every reachable chain in which the same blocks are selected
returns the same one. -/
theorem exists_topologicalOrder (d : Delivery) (k : Int32) (nodeId : ℕ) :
    ∃ s, deliver k nodeId d.blocks = some s ∧ ∀ m, s.Indexes m →
      ∃ order, s.topologicalSort m = some order ∧
        (s.DistinctParents → s.TopologicalOrder m order) ∧
        ∀ (d' : Delivery) (k' : Int32) (nodeId' : ℕ) (s' : Blockchain) (m' : BitSet),
          deliver k' nodeId' d'.blocks = some s' → s'.Indexes m' → s.SameSelection s' m m' →
            s'.topologicalSort m' = some order := by
  obtain ⟨s, hs⟩ := d.exists_delivered k nodeId
  refine ⟨s, hs.run, fun m hm => ?_⟩
  have hlinks := hs.holding.rep.toLinks
  obtain ⟨order, hrun⟩ := hlinks.exists_topologicalSort hm
  refine ⟨order, hrun, fun hnd => hlinks.topologicalOrder hnd hm hrun, ?_⟩
  intro d' k' nodeId' s' m' hrun' hm' hsame
  obtain ⟨s₁, hs'⟩ := d'.exists_delivered k' nodeId'
  obtain rfl := Option.some.inj (hs'.run.symm.trans hrun')
  rw [hlinks.topologicalSort_congr hs'.holding.rep.toLinks hm hm' hsame, hrun]

end GhostDag
