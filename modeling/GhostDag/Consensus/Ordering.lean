import GhostDag.Dag.Views

/-!
# GhostDag.Consensus.Ordering

`ComputeGHOSTDAGOrdering` is a topological sort that serves, at every
position, the block of highest priority among those it may emit: the highest
blue score, the earliest creation time on ties, the lowest id last.
-/

namespace GhostDag

open Std (ExtTreeMap ExtTreeSet)
open Containers Blockchain

namespace Blockchain

/-- No accepted block lists a parent twice. -/
def DistinctParents (s : Blockchain) : Prop :=
  ∀ (id : ℕ) (b : Block), s.blocks[id]? = some b → b.parents.Nodup

/-- `x` is accepted, not among the emitted blocks `l`, and its parents are. -/
structure Emittable (s : Blockchain) (l : List ℕ) (x : ℕ) : Prop where
  mem : x ∈ s.blocks
  notMem : x ∉ l
  parents : ∀ b, s.blocks[x]? = some b → ∀ p ∈ b.parents, p ∈ l

/-- `x` is emitted before `y` when both may be. -/
def Precedes (s : Blockchain) (x y : ℕ) : Prop :=
  ∀ bx by', s.blocks[x]? = some bx → s.blocks[y]? = some by' →
    by'.blueScore < bx.blueScore ∨ (by'.blueScore = bx.blueScore ∧
      (bx.header.timeCreated < by'.header.timeCreated ∨
        (bx.header.timeCreated = by'.header.timeCreated ∧ x ≤ y)))

/-- Every accepted block once, after its parents, and by priority. -/
structure PriorityOrder (s : Blockchain) (order : List ℕ) : Prop where
  nodup : order.Nodup
  mem_iff : ∀ id, id ∈ order ↔ id ∈ s.blocks
  parents : ∀ (l r : List ℕ) (x : ℕ), order = l ++ x :: r →
    ∀ b, s.blocks[x]? = some b → ∀ p ∈ b.parents, p ∈ l
  best : ∀ (l r : List ℕ) (x : ℕ), order = l ++ x :: r →
    s.Emittable l x ∧ ∀ y, s.Emittable l y → s.Precedes x y

/-- What the comparator of the priority queue compares before ids: the blue
score, then the creation time, earlier ones counting for more. -/
def priority (s : Blockchain) (id : ℕ) : ℕ ×ₗ ℚᵒᵈ :=
  match s.blocks[id]? with
  | some b => toLex (b.blueScore, OrderDual.toDual b.header.timeCreated)
  | none => toLex (0, OrderDual.toDual 0)

theorem priority_eq {s : Blockchain} {id : ℕ} {b : Block} (h : s.blocks[id]? = some b) :
    s.priority id = toLex (b.blueScore, OrderDual.toDual b.header.timeCreated) := by
  rw [priority, h]

theorem lowerPriority_iff {s : Blockchain} {a b : ℕ} (ha : a ∈ s.blocks) (hb : b ∈ s.blocks) :
    s.lowerPriority a b = true ↔
      s.priority a < s.priority b ∨ (s.priority b = s.priority a ∧ b < a) := by
  obtain ⟨ba, hba⟩ := mem_iff_exists.mp ha
  obtain ⟨bb, hbb⟩ := mem_iff_exists.mp hb
  rw [lowerPriority, hba, hbb, priority_eq hba, priority_eq hbb, Prod.Lex.toLex_lt_toLex,
    EmbeddingLike.apply_eq_iff_eq, Prod.mk.injEq, EmbeddingLike.apply_eq_iff_eq,
    OrderDual.toDual_lt_toDual]
  dsimp only
  by_cases hscore : ba.blueScore = bb.blueScore
  · by_cases htime : ba.header.timeCreated = bb.header.timeCreated
    · simp [hscore, htime]
    · simp [hscore, htime, Ne.symm htime]
  · simp [hscore, Ne.symm hscore]

/-- **The priority queue takes out the element of highest priority.** -/
theorem isBest_of_popTop {s : Blockchain} {q q' : List ℕ} {x : ℕ} (hq : ∀ a ∈ q, a ∈ s.blocks)
    (h : s.popTop q = some (x, q')) : Best.IsBest s.priority q x := by
  cases q with
  | nil => exact absurd h.symm (Option.some_ne_none _)
  | cons a q =>
      rw [popTop, Option.some.injEq, Prod.mk.injEq] at h
      have hfold : ∀ (l : List ℕ) (top : ℕ), top ∈ s.blocks → (∀ b ∈ l, b ∈ s.blocks) →
          (l.map fun b => (s.priority b, b)).foldl Best.step (some (s.priority top, top)) =
            some (s.priority (l.foldl (fun top b => if s.lowerPriority top b then b else top) top),
              l.foldl (fun top b => if s.lowerPriority top b then b else top) top) := by
        intro l
        induction l with
        | nil => exact fun _ _ _ => rfl
        | cons b l ih =>
            intro top htop hl
            have hb := hl b List.mem_cons_self
            have hl := fun c hc => hl c (List.mem_cons_of_mem b hc)
            rw [List.map_cons, List.foldl_cons, List.foldl_cons, Best.step]
            by_cases hlow : s.lowerPriority top b = true
            · rw [if_pos ((lowerPriority_iff htop hb).mp hlow), if_pos hlow]
              exact ih b hb hl
            · rw [if_neg (mt (lowerPriority_iff htop hb).mpr hlow), if_neg hlow]
              exact ih top htop hl
      obtain ⟨y, hy, hbest⟩ := Best.foldl_step_some s.priority q a
      rw [hfold q a (hq a List.mem_cons_self) fun b hb => hq b (List.mem_cons_of_mem a hb), h.1,
        Option.some.injEq, Prod.mk.injEq] at hy
      exact hy.2 ▸ hbest

theorem precedes_of_isBest {s : Blockchain} {q : List ℕ} {x y : ℕ}
    (h : Best.IsBest s.priority q x) (hy : y ∈ q) : s.Precedes x y := by
  intro bx by' hbx hby
  have hbest := h.2 y hy
  rw [priority_eq hbx, priority_eq hby, Prod.Lex.toLex_lt_toLex, EmbeddingLike.apply_eq_iff_eq,
    Prod.mk.injEq, EmbeddingLike.apply_eq_iff_eq, OrderDual.toDual_lt_toDual] at hbest
  tauto

end Blockchain

variable {W : ℕ → Block} {G : ParentGraph ℕ} {s : Blockchain}

/-- Among accepted blocks with distinct parents, the ready nodes of Kahn's
algorithm are the blocks that may be emitted. -/
theorem Links.ready_iff (h : Links G s) (hnd : s.DistinctParents) (l : List ℕ) (x : ℕ) :
    Kahn.Ready s.blocks.keys.toFinset G.parents l x ↔ s.Emittable l x := by
  have hmem : ∀ y, y ∈ s.blocks.keys.toFinset ↔ y ∈ s.blocks := fun y => by
    rw [List.mem_toFinset, ExtTreeMap.mem_keys]
  constructor
  · intro hr
    refine ⟨(hmem x).mp hr.mem, hr.notMem, fun b hb p hp => ?_⟩
    rw [h.parents x b hb] at hp
    exact hr.parents p hp ((hmem p).mpr (h.closed x ((hmem x).mp hr.mem) p hp))
  · intro he
    obtain ⟨b, hb⟩ := mem_iff_exists.mp he.mem
    have hpar := h.parents x b hb
    refine ⟨(hmem x).mpr he.mem, he.notMem, (hpar ▸ hnd x b hb).filter _, fun p hp _ => ?_⟩
    exact he.parents b hb p (hpar ▸ hp)

theorem Coloured.priorityOrder (h : Coloured W G s) (hnd : s.DistinctParents) {order : List ℕ}
    (hrun : s.computeGhostdagOrdering = some order) : s.PriorityOrder order := by
  have hkeys := nodup_of_pairwise_lt (pairwise_keys s.blocks)
  rw [h.computeGhostdagOrdering_eq] at hrun
  have hpick := Coloured.lawful_popTop s
  have hbest : ∀ (l r : List ℕ) (x : ℕ), order = l ++ x :: r →
      s.Emittable l x ∧ ∀ y, s.Emittable l y → s.Precedes x y := by
    intro l r x hout
    obtain ⟨q, q', hq, hready⟩ := Kahn.exists_pick_of_order hpick G.parents hkeys hrun hout
    simp only [h.ready_iff hnd] at hready
    have htop := isBest_of_popTop (fun a ha => ((hready a).mp ha).mem) hq
    exact ⟨(hready x).mp htop.1, fun y hy => precedes_of_isBest htop ((hready y).mpr hy)⟩
  constructor
  · exact Kahn.order_nodup hpick G.parents hkeys hrun
  · intro id
    have hdistinct : ∀ c ∈ s.blocks.keys, (G.parents c).Nodup := by
      intro c hc
      obtain ⟨b, hb⟩ := mem_iff_exists.mp (ExtTreeMap.mem_keys.mp hc)
      exact h.parents c b hb ▸ hnd c b hb
    rw [Kahn.mem_order_iff hpick G.parents hkeys G.wf hdistinct hrun, ExtTreeMap.mem_keys]
  · exact fun l r x hout => (hbest l r x hout).1.parents
  · exact hbest

/-- **The GHOSTDAG ordering is a priority topological sort** in every
reachable chain whose blocks list no parent twice; it terminates in any. -/
theorem exists_priorityOrder (d : Delivery) (k : Int32) (nodeId : ℕ) :
    ∃ s order, deliver k nodeId d.blocks = some s ∧ s.computeGhostdagOrdering = some order ∧
      (s.DistinctParents → s.PriorityOrder order) := by
  obtain ⟨s, hs⟩ := d.exists_delivered k nodeId
  have hrep := hs.holding.rep
  obtain ⟨order, hrun⟩ := hrep.exists_computeGhostdagOrdering
  exact ⟨s, order, hs.run, hrun, fun hnd => hrep.priorityOrder hnd hrun⟩

end GhostDag
