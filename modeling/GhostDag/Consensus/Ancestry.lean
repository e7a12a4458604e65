import GhostDag.Consensus.BlueSets

/-!
# GhostDag.Consensus.Ancestry

One relation behind three representations: the cached bit sets of `GetPast`
and `InPast`, the search over the children map of `GetFuture`, and the
counting loop of `IsKCluster` all speak of reachability along parent
references.
-/

namespace GhostDag

open Std (ExtTreeMap ExtTreeSet)
open Containers Blockchain

namespace Blockchain

/-- The ancestry queries of `s` agree with the graph. -/
structure AncestryViews (s : Blockchain) : Prop where
  inPast : ∀ a ∈ s.blocks, ∀ b ∈ s.blocks, (s.inPast b a = true ↔ s.Ancestor a b)
  getPast : ∀ b ∈ s.blocks, ∀ a, a ∈ s.getPast b ↔ a ∈ s.blocks ∧ s.Ancestor a b
  getFuture : ∀ a ∈ s.blocks, ∃ future, s.getFuture a = some future ∧
    ∀ b, b ∈ future ↔ b ∈ s.blocks ∧ a ∈ s.getPast b
  irrefl : ∀ a, ¬ s.Ancestor a a
  trans : ∀ a b c, s.Ancestor a b → s.Ancestor b c → s.Ancestor a c

/-- `IsKCluster` decides whether the members of a set are accepted and have at
most `k` others in their anticone. -/
def DecidesClusters (s : Blockchain) (k : ℤ) : Prop :=
  ∀ S : ExtTreeSet ℕ, s.isKCluster S = true ↔
    (∀ x, x ∈ S → x ∈ s.blocks) ∧ s.KCluster k (· ∈ S)

end Blockchain

variable {W : ℕ → Block} {G : ParentGraph ℕ} {s : Blockchain}

theorem Links.ancestryViews (h : Links G s) : s.AncestryViews where
  inPast a _ b _ := by rw [h.inPast_iff, h.ancestor_iff]
  getPast b hb a := by
    rw [h.mem_getPast_iff, h.ancestor_iff, and_iff_right hb]
    exact ⟨fun ha => ⟨h.mem_blocks_of_mem_past hb ha, ha⟩, And.right⟩
  getFuture a _ := by
    obtain ⟨future, hrun, hmem⟩ := h.exists_getFuture a
    refine ⟨future, hrun, fun b => ?_⟩
    rw [hmem, h.mem_getPast_iff]
    tauto
  irrefl a ha := G.notMem_past_self a (h.ancestor_iff.mp ha).2
  trans _ _ _ hab hbc := Relation.TransGen.trans hab hbc

/-- A set with a member that is not accepted is refused. -/
theorem Links.isKCluster_mem (h : Links G s) {S : ExtTreeSet ℕ} (hS : s.isKCluster S = true)
    {x : ℕ} (hx : x ∈ S) : x ∈ s.blocks := by
  have hloop := List.all_eq_true.mp hS x (ExtTreeSet.mem_toList.mpr hx)
  cases hidx : s.idxOf[x]? with
  | none =>
      rw [hidx] at hloop
      exact absurd hloop Bool.false_ne_true
  | some i => exact h.mem_blocks_of_idx hidx

theorem Coloured.decidesClusters (h : Coloured W G s) {k : ℤ} (hk : (s.anticoneLimit : ℤ) = k) :
    s.DecidesClusters k := by
  intro S
  have hmem : ∀ x, x ∈ S ↔ x ∈ S.toList.toFinset := fun x => by
    rw [List.mem_toFinset, ExtTreeSet.mem_toList]
  have hiff : (∀ x ∈ S.toList.toFinset, x ∈ s.blocks) →
      (s.isKCluster S = true ↔ s.KCluster k (· ∈ S)) := by
    intro hacc
    simp only [hmem]
    rw [h.isKCluster_iff hmem hacc, h.kCluster_iff hacc hk]
  constructor
  · intro hS
    have hacc : ∀ x, x ∈ S → x ∈ s.blocks := fun x hx => h.isKCluster_mem hS hx
    exact ⟨hacc, (hiff fun x hx => hacc x ((hmem x).mpr hx)).mp hS⟩
  · rintro ⟨hacc, hS⟩
    exact (hiff fun x hx => hacc x ((hmem x).mpr hx)).mpr hS

/-- **Ancestry views agree with the graph** in every reachable chain.  The
bound of `IsKCluster` is `k` read as an unsigned number, which is `k` unless
`k` is negative. -/
theorem exists_ancestryViews (d : Delivery) (k : Int32) (nodeId : ℕ) :
    ∃ s, deliver k nodeId d.blocks = some s ∧ s.AncestryViews ∧
      s.DecidesClusters s.anticoneLimit ∧ (0 ≤ k.toInt → s.DecidesClusters k.toInt) := by
  obtain ⟨s, hs⟩ := d.exists_delivered k nodeId
  have hrep := hs.holding.rep
  exact ⟨s, hs.run, hrep.toLinks.ancestryViews, hrep.decidesClusters rfl,
    fun hk => hrep.decidesClusters (hs.anticoneLimit_eq hk)⟩

end GhostDag
