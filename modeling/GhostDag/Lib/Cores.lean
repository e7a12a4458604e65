import Mathlib

/-!
# GhostDag.Lib.Cores

What is left when members of a set are taken out that are alone somewhere.

Members are held by places.  A member that is alone in a place can be taken
out, and that may leave another one alone.  In whatever order this is done, the
same members are left: the largest part of the set in which no member is alone
anywhere, its core.  `hidden` is what is left of two sets that are taken apart
in turn, where what one of them gives is put into the other.
-/

namespace Cores

variable {α β γ : Type*} {holds : α → β → Prop} {X Y : Finset α} {x : α}

/-! ## the core of a set -/

/-- No member is alone in a place. -/
def Stuck (holds : α → β → Prop) (X : Finset α) : Prop :=
  ∀ x ∈ X, ∀ j, holds x j → ∃ y ∈ X, y ≠ x ∧ holds y j

open Classical in
/-- **The core**: the largest part of a set that is stuck. -/
noncomputable def core (holds : α → β → Prop) (X : Finset α) : Finset α :=
  {x ∈ X | ∃ Y ⊆ X, Stuck holds Y ∧ x ∈ Y}

theorem mem_core : x ∈ core holds X ↔ ∃ Y ⊆ X, Stuck holds Y ∧ x ∈ Y := by
  classical
  rw [core, Finset.mem_filter, and_iff_right_iff_imp]
  rintro ⟨Y, hY, -, hx⟩
  exact hY hx

theorem core_subset : core holds X ⊆ X := by
  classical
  exact Finset.filter_subset _ _

theorem Stuck.subset_core (h : Stuck holds Y) (hY : Y ⊆ X) : Y ⊆ core holds X :=
  fun _ hx => mem_core.mpr ⟨Y, hY, h, hx⟩

theorem stuck_core : Stuck holds (core holds X) := by
  intro x hx j hj
  obtain ⟨Y, hY, hstuck, hxY⟩ := mem_core.mp hx
  obtain ⟨y, hy, hne, hyj⟩ := hstuck x hxY j hj
  exact ⟨y, hstuck.subset_core hY hy, hne, hyj⟩

theorem core_eq_self_iff : core holds X = X ↔ Stuck holds X := by
  constructor
  · intro h
    rw [← h]
    exact stuck_core
  · exact fun h => core_subset.antisymm (h.subset_core subset_rfl)

/-- **Taking a member out** that is alone in a place leaves the core as it is. -/
theorem core_erase [DecidableEq α] {j : β} (hj : holds x j) (halone : ∀ y ∈ X, holds y j → y = x) :
    core holds (X.erase x) = core holds X := by
  refine subset_antisymm ?_ ?_
  · exact stuck_core.subset_core (core_subset.trans (Finset.erase_subset _ _))
  · refine stuck_core.subset_core fun y hy => Finset.mem_erase.mpr ⟨?_, core_subset hy⟩
    rintro rfl
    obtain ⟨z, hz, hne, hzj⟩ := stuck_core y hy j hj
    exact hne (halone z (core_subset hz) hzj)

/-- One member has nothing to be hidden by. -/
theorem core_eq_empty (hheld : ∀ x ∈ X, ∃ j, holds x j) (hfew : X.card ≤ 1) : core holds X = ∅ := by
  refine Finset.eq_empty_of_forall_notMem fun x hx => ?_
  obtain ⟨j, hj⟩ := hheld x (core_subset hx)
  obtain ⟨y, hy, hne, -⟩ := stuck_core x hx j hj
  exact hne (Finset.card_le_one.mp hfew y (core_subset hy) x (core_subset hx))

/-! ## two sets in turn -/

section Turns

variable [DecidableEq α] (first : α → β → Prop) (second : α → γ → Prop) (A B : Finset α)

/-- **What is left after some turns.**  At the start the first set has `A` and
`B`, and the second one `B`.  In a turn the second set is reduced to its core,
then the first one to its core, and what either gives of `B` is taken out of
both; what the first one gives of `A` goes into the second one.  The pair is
what is left of `B`, and of `A` in the first set. -/
noncomputable def hidden : ℕ → Finset α × Finset α
  | 0 => (B, A)
  | r + 1 =>
      let W := (hidden r).1 ∩ core second ((hidden r).1 ∪ A \ (hidden r).2)
      (W ∩ core first (W ∪ (hidden r).2), (hidden r).2 ∩ core first (W ∪ (hidden r).2))

/-- What the second set is at a turn. -/
noncomputable def shown (r : ℕ) : Finset α :=
  (hidden first second A B r).1 ∪ A \ (hidden first second A B r).2

/-- What it keeps of `B`. -/
noncomputable def kept (r : ℕ) : Finset α :=
  (hidden first second A B r).1 ∩ core second (shown first second A B r)

/-- **A member comes back**: the second set gives what the first one has given. -/
def Returns (r : ℕ) : Prop :=
  ¬ A \ (hidden first second A B r).2 ⊆ core second (shown first second A B r)

variable {first second A B} {r : ℕ}

theorem hidden_succ : hidden first second A B (r + 1) =
    (kept first second A B r ∩
        core first (kept first second A B r ∪ (hidden first second A B r).2),
      (hidden first second A B r).2 ∩
        core first (kept first second A B r ∪ (hidden first second A B r).2)) := rfl

/-- **When both sets are stuck**, there is nothing left to give. -/
theorem not_returns_of_stuck (hsecond : Stuck second (shown first second A B r))
    (hfirst : Stuck first ((hidden first second A B r).1 ∪ (hidden first second A B r).2))
    {s : ℕ} (hs : r ≤ s) : ¬ Returns first second A B s := by
  have hsame : ∀ s ≥ r, hidden first second A B s = hidden first second A B r := by
    intro s hs
    induction s, hs using Nat.le_induction with
    | base => rfl
    | succ s _ ih =>
        have hkept : kept first second A B s = (hidden first second A B r).1 := by
          rw [kept, shown, ih]
          refine Finset.inter_eq_left.mpr ?_
          exact Finset.subset_union_left.trans (core_eq_self_iff.mpr hsecond).symm.subset
        rw [hidden_succ, hkept, ih, core_eq_self_iff.mpr hfirst]
        exact Prod.ext (Finset.inter_eq_left.mpr Finset.subset_union_left)
          (Finset.inter_eq_left.mpr Finset.subset_union_right)
  rw [Returns, not_not, shown, hsame s hs]
  exact Finset.subset_union_right.trans (core_eq_self_iff.mpr hsecond).symm.subset

/-- The same in the middle of a turn. -/
theorem not_returns_of_stuck_kept
    (hsecond : Stuck second (kept first second A B r ∪ A \ (hidden first second A B r).2))
    (hfirst : Stuck first (kept first second A B r ∪ (hidden first second A B r).2)) {s : ℕ}
    (hs : r < s) : ¬ Returns first second A B s := by
  have hnext : hidden first second A B (r + 1) =
      (kept first second A B r, (hidden first second A B r).2) := by
    rw [hidden_succ, core_eq_self_iff.mpr hfirst]
    exact Prod.ext (Finset.inter_eq_left.mpr Finset.subset_union_left)
      (Finset.inter_eq_left.mpr Finset.subset_union_right)
  refine not_returns_of_stuck (r := r + 1) ?_ ?_ hs
  · rw [shown, hnext]
    exact hsecond
  · rw [hnext]
    exact hfirst

/-- If nothing is in the first set alone, nothing comes back. -/
theorem not_returns_empty : ¬ Returns first second ∅ B r := by
  rw [Returns, not_not, Finset.empty_sdiff]
  exact Finset.empty_subset _

end Turns

end Cores
