import GhostDag.Dag.Blockchain

/-!
# GhostDag.Dag.Held

What a call of `AddBlock` can make a chain hold, whatever the chain and the
block: that block and nothing else (`holdsAtMost_addBlock`).
-/

namespace GhostDag

open Std (ExtTreeMap)
open Containers

namespace Blockchain

variable {s s' : Blockchain} {nb : Block}

/-- A block is accepted or an orphan. -/
def Held (s : Blockchain) (id : ℕ) : Prop := id ∈ s.blocks ∨ id ∈ s.orphans

instance (s : Blockchain) (id : ℕ) : Decidable (s.Held id) :=
  inferInstanceAs (Decidable (_ ∨ _))

theorem held_iff {id : ℕ} : (s.hasBlock id || s.isOrphan id) = true ↔ s.Held id := by
  rw [hasBlock, isOrphan, Bool.or_eq_true, ExtTreeMap.contains_iff_mem, ExtTreeMap.contains_iff_mem,
    Held]

/-- Orphans are stored under their own ids. -/
def OrphansKeyed (s : Blockchain) : Prop :=
  ∀ (id : ℕ) (b : Block), s.orphans[id]? = some b → b.id = id

/-- `s'` holds what `s` holds, and ids of `new`, at most. -/
structure HoldsAtMost (s : Blockchain) (new : ℕ → Prop) (s' : Blockchain) : Prop where
  keyed : OrphansKeyed s'
  held : ∀ id, s'.Held id → s.Held id ∨ new id

theorem orphansKeyed_init (k : Int32) (nodeId : ℕ) : OrphansKeyed (init k nodeId) := by
  intro id b h
  simp [init] at h

/-! ## accepting -/

theorem mem_blocks_recolour (h : s.recolour = some s') :
    s'.orphans = s.orphans ∧ ∀ id ∈ s'.blocks, id ∈ s.blocks := by
  obtain ⟨tip, -, h⟩ := Option.bind_eq_some_iff.mp h
  cases tip with
  | none =>
      obtain rfl := Option.some.inj h
      exact ⟨rfl, fun _ hid => hid⟩
  | some tip =>
      obtain ⟨tipIdx, -, h⟩ := Option.bind_eq_some_iff.mp h
      obtain ⟨blocks, hfold, h⟩ := Option.bind_eq_some_iff.mp h
      obtain rfl := Option.some.inj h
      -- a round writes under an id that is there already
      refine ⟨rfl, foldlM_keeps (P := fun m => ∀ id ∈ m, id ∈ s.blocks) ?_ (fun _ hid => hid) hfold⟩
      intro e he m m' hm hstep id hid
      obtain ⟨i, -, heq⟩ := Option.bind_eq_some_iff.mp hstep
      obtain rfl := Option.some.inj heq
      obtain rfl | hid := mem_insert.mp hid
      · exact mem_of_getElem? (mem_toList.mp he)
      · exact hm id hid

theorem mem_blocks_insertBlock (h : s.insertBlock nb = some s') :
    s'.orphans = s.orphans ∧ ∀ id ∈ s'.blocks, id ∈ s.blocks ∨ id = nb.id := by
  obtain ⟨past, -, h⟩ := Option.bind_eq_some_iff.mp h
  obtain ⟨s₂, hcolour, hrecolour⟩ := Option.bind_eq_some_iff.mp h
  obtain ⟨⟨blue, selectedParent⟩, -, heq⟩ := Option.bind_eq_some_iff.mp hcolour
  obtain rfl := Option.some.inj heq
  obtain ⟨horphans, hblocks⟩ := mem_blocks_recolour hrecolour
  refine ⟨horphans, fun id hid => ?_⟩
  have hmem := hblocks id hid
  simp only [link, register] at hmem
  rw [mem_insert, mem_insert] at hmem
  tauto

/-! ## the recursion -/

theorem holdsAtMost_insertOrphan (h : OrphansKeyed s) :
    HoldsAtMost s (· = nb.id) (s.insertOrphan nb) where
  keyed id b hb := by
    rw [insertOrphan, getElem?_insert] at hb
    split at hb
    · next heq => exact Option.some.inj hb ▸ heq.symm
    · exact h id b hb
  held id hid := by
    rw [Held, insertOrphan, mem_insert] at hid
    rw [Held]
    tauto

theorem HoldsAtMost.eraseOrphan_keyed {new : ℕ → Prop} (h : HoldsAtMost s new s') (oid : ℕ) :
    OrphansKeyed (s'.eraseOrphan oid) := by
  intro id b hb
  rw [eraseOrphan, getElem?_erase] at hb
  split at hb
  · exact absurd hb.symm (Option.some_ne_none b)
  · exact h.keyed id b hb

theorem held_of_eraseOrphan {oid id : ℕ} (h : (s.eraseOrphan oid).Held id) : s.Held id := by
  rw [Held, eraseOrphan, mem_erase] at h
  exact h.imp_right And.right

/-- Releasing an orphan moves a block from one map to the other. -/
theorem HoldsAtMost.releaseOne {addBlock : Blockchain → Block → Option Blockchain}
    (hadd : ∀ s nb s', OrphansKeyed s → addBlock s nb = some s' → HoldsAtMost s (· = nb.id) s')
    {st st' : Blockchain × Bool} {oid : ℕ} (h : HoldsAtMost s (fun _ => False) st.1)
    (hrun : releaseOne addBlock st oid = some st') : HoldsAtMost s (fun _ => False) st'.1 := by
  rw [Blockchain.releaseOne] at hrun
  split at hrun
  · obtain rfl := Option.some.inj hrun
    exact h
  · next ob hob =>
      obtain ⟨s₂, hs₂, heq⟩ := Option.bind_eq_some_iff.mp hrun
      obtain rfl := Option.some.inj heq
      obtain ⟨hkeyed, hheld⟩ := hadd _ _ _ (h.eraseOrphan_keyed oid) hs₂
      refine ⟨hkeyed, fun id hid => h.held id ?_⟩
      obtain hid | rfl := hheld id hid
      · exact held_of_eraseOrphan hid
      · rw [h.keyed oid ob hob]
        exact .inr (mem_of_getElem? hob)

theorem holdsAtMost_fuel (fuel : ℕ) :
    (∀ s nb s', OrphansKeyed s → addBlockFuel fuel s nb = some s' →
      HoldsAtMost s (· = nb.id) s') ∧
    ∀ s s', OrphansKeyed s → processOrphansFuel fuel s = some s' →
      HoldsAtMost s (fun _ => False) s' := by
  induction fuel with
  | zero =>
      constructor
      · intro s nb s' _ h
        rw [addBlockFuel] at h
        exact absurd h.symm (Option.some_ne_none s')
      · intro s s' _ h
        rw [processOrphansFuel] at h
        exact absurd h.symm (Option.some_ne_none s')
  | succ fuel ih =>
      constructor
      · intro s nb s' hs h
        rw [addBlockFuel] at h
        split at h
        · obtain ⟨s₁, hins, hproc⟩ := Option.bind_eq_some_iff.mp h
          obtain ⟨horphans, hblocks⟩ := mem_blocks_insertBlock hins
          obtain ⟨hkeyed, hheld⟩ := ih.2 s₁ s' (fun id b hb => hs id b (horphans ▸ hb)) hproc
          refine ⟨hkeyed, fun id hid => ?_⟩
          obtain hid | hid := (hheld id hid).resolve_right not_false
          · exact (hblocks id hid).imp_left .inl
          · exact .inl (.inr (horphans ▸ hid))
        · obtain rfl := Option.some.inj h
          exact holdsAtMost_insertOrphan hs
      · intro s s' hs h
        rw [processOrphansFuel] at h
        obtain ⟨⟨s₁, progress⟩, hfold, h⟩ := Option.bind_eq_some_iff.mp h
        have hround : HoldsAtMost s (fun _ => False) s₁ :=
          foldlM_keeps (P := fun st => HoldsAtMost s (fun _ => False) st.1)
            (fun _ _ _ _ hst hstep => hst.releaseOne ih.1 hstep) ⟨hs, fun _ hid => .inl hid⟩ hfold
        cases progress with
        | false =>
            obtain rfl := Option.some.inj h
            exact hround
        | true =>
            obtain ⟨hkeyed, hheld⟩ := ih.2 s₁ s' hround.keyed h
            exact ⟨hkeyed, fun id hid =>
              hround.held id ((hheld id hid).resolve_right not_false)⟩

/-- **`AddBlock` makes a chain hold the block, and nothing else.** -/
theorem holdsAtMost_addBlock (hs : OrphansKeyed s) (h : s.addBlock nb = some s') :
    HoldsAtMost s (· = nb.id) s' := (holdsAtMost_fuel _).1 s nb s' hs h

end Blockchain

end GhostDag
