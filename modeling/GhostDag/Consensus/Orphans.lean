import GhostDag.Consensus.Agreement

/-!
# GhostDag.Consensus.Orphans

No delivered block is lost or duplicated.  After every sequence of `AddBlock`
calls the accepted blocks are the least set that contains genesis and every
delivered block whose parents are in it, the orphans are the delivered blocks
outside it, and every accepted block has one index.
-/

namespace GhostDag

open Std (ExtTreeMap ExtTreeSet)
open Containers Blockchain

/-- `s` has sorted the delivered blocks `bs` into accepted ones and orphans. -/
structure Sorted (bs : List Block) (s : Blockchain) : Prop where
  /-- The accepted blocks are the least fixed point. -/
  accepted : ∀ id, id ∈ s.blocks ↔ Accepted bs id
  /-- The orphans are the other delivered blocks, each under its id. -/
  orphans : ∀ (id : ℕ) (b : Block),
    s.orphans[id]? = some b ↔ b ∈ bs ∧ b.id = id ∧ ¬ Accepted bs id
  /-- No block is both. -/
  disjoint : ∀ id, ¬ (id ∈ s.blocks ∧ id ∈ s.orphans)
  /-- An accepted block is stored as it was delivered, up to the fields that
  `AddBlock` computes. -/
  stored : ∀ (id : ℕ) (b : Block), s.blocks[id]? = some b → id ≠ 0 → ∃ b' ∈ bs, b'.id = id ∧
    b = { b' with
      blueScore := b.blueScore, isBlue := b.isBlue, selectedParent := b.selectedParent }
  /-- Accepted blocks are indexed exactly once, by the two inverse tables. -/
  indexed : ∀ id, id ∈ s.blocks ↔ s.idOf.count id = 1
  notIndexed : ∀ id, id ∉ s.blocks ↔ s.idOf.count id = 0
  inverse : ∀ id i : ℕ, s.idxOf[id]? = some i ↔ s.idOf[i]? = some id
  /-- Every orphan waits for a parent. -/
  waiting : ∀ (id : ℕ) (b : Block), s.orphans[id]? = some b → ∃ p ∈ b.parents, p ∉ s.blocks

variable {d : Delivery} {k : Int32} {n : ℕ} {s : Blockchain}

theorem Delivered.sorted (h : Delivered d k n d.blocks s) : Sorted d.blocks s := by
  have hrep := h.holding.rep
  have hcount : ∀ id, s.idOf.count id = if id ∈ s.blocks then 1 else 0 := by
    intro id
    split
    · next hid => exact List.count_eq_one_of_mem hrep.nodup ((hrep.mem_blocks id).mp hid)
    · next hid => exact List.count_eq_zero_of_not_mem (mt (hrep.mem_blocks id).mpr hid)
  constructor
  case accepted => exact h.holding.mem_blocks_iff h.ready
  case orphans => exact fun id b => h.getElem?_orphans
  case disjoint => exact fun id hid => h.holding.disjoint id hid.1 hid.2
  case stored =>
    intro id b hb hne
    have hid : id ∈ s.blocks := mem_of_getElem? hb
    obtain ⟨b', hb', rfl⟩ := h.holding.delivered id
      (((h.holding.mem_iff id).mp (.inl hid)).resolve_left hne)
    refine ⟨b', hb', rfl, ?_⟩
    have hstored := hrep.block b'.id b hb
    rw [d.block_id hb'] at hstored
    rw [hstored]
    rfl
  case indexed =>
    intro id
    rw [hcount]
    split <;> simp [*]
  case notIndexed =>
    intro id
    rw [hcount]
    split <;> simp [*]
  case inverse => exact hrep.idx_iff
  case waiting =>
    intro id b hb
    by_contra hno
    have hall : ∀ p ∈ b.parents, p ∈ s.blocks := fun p hp => by
      by_contra hp'
      exact hno ⟨p, hp, hp'⟩
    have hready := mem_readyOrphans.mpr ⟨b, hb, canAdd_iff.mpr hall⟩
    rw [h.ready] at hready
    exact List.not_mem_nil hready

/-- **Orphan completeness.**  Every sequence of `AddBlock` calls with fresh,
distinct ids returns, in a state that has sorted the delivered blocks; and
there the next such call returns as well, with the same result for every
sufficient recursion depth. -/
theorem exists_sorted (d : Delivery) (k : Int32) (nodeId : ℕ) :
    ∃ s, deliver k nodeId d.blocks = some s ∧ Sorted d.blocks s ∧
      ∀ nb : Block, nb.id ≠ 0 → nb.id ∉ d.blocks.map Block.id →
        ∃ s', ∀ fuel, 2 * s.orphans.size + 4 ≤ fuel → addBlockFuel fuel s nb = some s' := by
  obtain ⟨s, hs⟩ := d.exists_delivered k nodeId
  refine ⟨s, hs.run, hs.sorted, fun nb hne hnew => ?_⟩
  obtain ⟨t, ht⟩ := (d.append nb hnew hne).exists_delivered_of_subset k nodeId
    (fun b hb => List.mem_append_left _ hb) d.nodup
  obtain rfl : s = t := Option.some.inj (hs.run.symm.trans ht.run)
  obtain ⟨s', -, hfuel, -⟩ := ht.holding.exists_addBlock ht.ready
    (List.mem_append_right _ (List.mem_singleton_self nb)) (by rwa [List.mem_toFinset])
  exact ⟨s', hfuel⟩

end GhostDag
