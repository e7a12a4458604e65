import Mathlib

/-!
# GhostDag.Lib.ParentGraph

Nodes that list their parents, with no infinite ascent: the shape of any
append-only DAG.  `past b` is the finite set of ancestors of `b`
(`mem_past_iff`), and ancestry is a strict partial order.
-/

/-- A node type with parent lists along which one cannot ascend for ever. -/
structure ParentGraph (α : Type*) where
  parents : α → List α
  wf : WellFounded fun p b => p ∈ parents b

namespace ParentGraph

variable {α : Type*} (G : ParentGraph α)

/-- `a` is reached from `b` by one or more parent references. -/
def Anc (a b : α) : Prop := Relation.TransGen (fun p b => p ∈ G.parents b) a b

theorem anc_iff {a b : α} : G.Anc a b ↔ ∃ p ∈ G.parents b, a = p ∨ G.Anc a p := by
  constructor
  · intro h
    rcases Relation.TransGen.tail'_iff.mp h with ⟨p, hap, hpb⟩
    rcases Relation.reflTransGen_iff_eq_or_transGen.mp hap with rfl | h
    · exact ⟨p, hpb, .inl rfl⟩
    · exact ⟨p, hpb, .inr h⟩
  · rintro ⟨p, hp, rfl | h⟩
    · exact .single hp
    · exact h.tail hp

theorem anc_of_mem_parents {p b : α} (h : p ∈ G.parents b) : G.Anc p b := .single h

theorem Anc.trans {G : ParentGraph α} {a b c : α} (hab : G.Anc a b) (hbc : G.Anc b c) :
    G.Anc a c := Relation.TransGen.trans hab hbc

theorem wf_anc : WellFounded G.Anc := G.wf.transGen

theorem Anc.irrefl (a : α) : ¬ G.Anc a a := fun h => G.wf_anc.irrefl.irrefl a h

variable [DecidableEq α]

/-- The ancestors of `b`. -/
noncomputable def past : α → Finset α :=
  G.wf.fix fun b ih =>
    (G.parents b).toFinset ∪ (G.parents b).attach.toFinset.biUnion fun p => ih p.1 p.2

theorem past_eq (b : α) :
    G.past b = (G.parents b).toFinset ∪ (G.parents b).toFinset.biUnion G.past := by
  have hfix : G.past b = (G.parents b).toFinset ∪
      (G.parents b).attach.toFinset.biUnion fun p => G.past p.1 := G.wf.fix_eq _ b
  rw [hfix]
  congr 1
  ext a
  simp

/-- **`past` is ancestry.** -/
theorem mem_past_iff {a b : α} : a ∈ G.past b ↔ G.Anc a b := by
  induction b using G.wf.induction generalizing a with
  | _ b ih =>
    rw [past_eq, anc_iff]
    simp only [Finset.mem_union, List.mem_toFinset, Finset.mem_biUnion]
    constructor
    · rintro (h | ⟨p, hp, ha⟩)
      · exact ⟨a, h, .inl rfl⟩
      · exact ⟨p, hp, .inr ((ih p hp).mp ha)⟩
    · rintro ⟨p, hp, rfl | h⟩
      · exact .inl hp
      · exact .inr ⟨p, hp, (ih p hp).mpr h⟩

theorem mem_past_of_mem_parents {p b : α} (h : p ∈ G.parents b) : p ∈ G.past b :=
  G.mem_past_iff.mpr (G.anc_of_mem_parents h)

theorem notMem_past_self (b : α) : b ∉ G.past b :=
  fun h => Anc.irrefl G b (G.mem_past_iff.mp h)

theorem past_subset_of_mem_past {a b : α} (h : a ∈ G.past b) : G.past a ⊆ G.past b :=
  fun _ hx => G.mem_past_iff.mpr ((G.mem_past_iff.mp hx).trans (G.mem_past_iff.mp h))

theorem past_eq_empty_iff {b : α} : G.past b = ∅ ↔ G.parents b = [] := by
  constructor
  · intro h
    rw [List.eq_nil_iff_forall_not_mem]
    intro p hp
    have := G.mem_past_of_mem_parents hp
    rw [h] at this
    exact Finset.notMem_empty p this
  · intro h
    rw [past_eq, h]
    rfl

/-- Distinct nodes neither of which is an ancestor of the other. -/
def Unrelated (a b : α) : Prop := a ≠ b ∧ a ∉ G.past b ∧ b ∉ G.past a

noncomputable instance : DecidableRel G.Unrelated := fun a b =>
  inferInstanceAs (Decidable (a ≠ b ∧ a ∉ G.past b ∧ b ∉ G.past a))

theorem not_unrelated_self (a : α) : ¬ G.Unrelated a a := fun h => h.1 rfl

theorem Unrelated.symm {G : ParentGraph α} {a b : α} (h : G.Unrelated a b) : G.Unrelated b a :=
  ⟨h.1.symm, h.2.2, h.2.1⟩

end ParentGraph
