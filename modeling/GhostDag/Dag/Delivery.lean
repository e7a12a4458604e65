import GhostDag.Dag.Insert

/-!
# GhostDag.Dag.Delivery

A delivery: blocks to be handed to `AddBlock` one by one, with fresh, pairwise
distinct ids.  Its accepted ids are the least set that contains genesis and
every delivered block whose parents are all in the set (`Accepted`); they form
a DAG (`Delivery.graph`), which does not depend on the order of delivery.
-/

namespace GhostDag

open Blockchain

/-- Blocks in arrival order; `0` is the id of the genesis block. -/
structure Delivery where
  blocks : List Block
  nodup : (blocks.map Block.id).Nodup
  fresh : 0 ∉ blocks.map Block.id

/-- A block with nothing but an id and parents. -/
def Block.bare (id : ℕ) (parents : List ℕ) : Block :=
  { header := { blockId := id, parentHashes := parents } }

/-- The least set of ids with genesis and every block of `bs` whose parents
are all in it. -/
inductive Accepted (bs : List Block) : ℕ → Prop
  | genesis : Accepted bs 0
  | step {b : Block} : b ∈ bs → (∀ p ∈ b.parents, Accepted bs p) → Accepted bs b.id

theorem Accepted.mono {bs bs' : List Block} (hsub : ∀ b ∈ bs, b ∈ bs') {id : ℕ}
    (h : Accepted bs id) : Accepted bs' id := by
  induction h with
  | genesis => exact .genesis
  | step hb _ ih => exact .step (hsub _ hb) ih

namespace Delivery

/-- The beginning of a delivery. -/
def take (d : Delivery) (n : ℕ) : Delivery where
  blocks := d.blocks.take n
  nodup := d.nodup.sublist ((List.take_sublist n d.blocks).map Block.id)
  fresh h := d.fresh (((List.take_sublist n d.blocks).map Block.id).subset h)

/-- A delivery with one more block. -/
def append (d : Delivery) (nb : Block) (hid : nb.id ∉ d.blocks.map Block.id) (h0 : nb.id ≠ 0) :
    Delivery where
  blocks := d.blocks ++ [nb]
  nodup := by
    rw [List.map_append, List.map_singleton]
    exact d.nodup.append (List.nodup_singleton _) (by simpa using hid)
  fresh := by
    rw [List.map_append, List.mem_append, List.map_singleton, List.mem_singleton]
    exact not_or.mpr ⟨d.fresh, h0.symm⟩

variable (d : Delivery)

/-- The block with a given id, as it was delivered. -/
def block (id : ℕ) : Block := ((genesis :: d.blocks).find? (·.id = id)).getD genesis

@[simp] theorem block_zero : d.block 0 = genesis := rfl

theorem id_ne_zero {b : Block} (hb : b ∈ d.blocks) : b.id ≠ 0 :=
  fun h => d.fresh (h ▸ List.mem_map_of_mem hb)

theorem block_id {b : Block} (hb : b ∈ d.blocks) : d.block b.id = b := by
  have hgen : ∀ l : List Block, (l.map Block.id).Nodup → b ∈ l →
      l.find? (·.id = b.id) = some b := by
    intro l
    induction l with
    | nil => exact fun _ h => absurd h List.not_mem_nil
    | cons a l ih =>
        intro hnd hmem
        obtain ⟨ha, hnd⟩ := List.nodup_cons.mp hnd
        obtain rfl | hmem := List.mem_cons.mp hmem
        · simp
        · have hne : a.id ≠ b.id := fun e => ha (e ▸ List.mem_map_of_mem hmem)
          rw [List.find?_cons_of_neg (by simpa using hne), ih hnd hmem]
  have hgenesis : ¬ genesis.id = b.id := fun e => d.id_ne_zero hb e.symm
  rw [block, List.find?_cons_of_neg (by simpa using hgenesis), hgen _ d.nodup hb]
  rfl

open Classical in
/-- The DAG of the accepted blocks. -/
noncomputable def graph : ParentGraph ℕ where
  parents id := if Accepted d.blocks id then (d.block id).parents else []
  wf := by
    have hacc : ∀ id, Accepted d.blocks id →
        Acc (fun p id => p ∈ if Accepted d.blocks id then (d.block id).parents else []) id := by
      intro id h
      induction h with
      | genesis =>
          constructor
          intro p hp
          rw [if_pos .genesis, block_zero] at hp
          exact absurd hp List.not_mem_nil
      | @step b hb hpar ih =>
          constructor
          intro p hp
          rw [if_pos (.step hb hpar), d.block_id hb] at hp
          exact ih p hp
    constructor
    intro id
    by_cases h : Accepted d.blocks id
    · exact hacc id h
    · constructor
      intro p hp
      rw [if_neg h] at hp
      exact absurd hp List.not_mem_nil

theorem parents_of_accepted {id : ℕ} (h : Accepted d.blocks id) :
    d.graph.parents id = (d.block id).parents := if_pos h

@[simp] theorem parents_zero : d.graph.parents 0 = [] := d.parents_of_accepted .genesis

theorem parents_of_mem {b : Block} (hb : b ∈ d.blocks)
    (h : ∀ p ∈ b.parents, Accepted d.blocks p) : d.graph.parents b.id = b.parents := by
  rw [d.parents_of_accepted (.step hb h), d.block_id hb]

end Delivery

end GhostDag
