import Mathlib

/-!
# GhostDag.Lib.Best

The scan that keeps the highest-scored element of a list, the smallest
element winning ties, and its specification `IsBest`.  The scan never looks
at the order of the list: only members and their scores count.
-/

namespace Best

variable {α β : Type*} [LinearOrder α] [LinearOrder β]

/-- One round: keep the incumbent unless the newcomer scores higher, or
scores the same and is smaller. -/
def step (best : Option (β × α)) (x : β × α) : Option (β × α) :=
  match best with
  | none => some x
  | some (s, b) => if s < x.1 ∨ (x.1 = s ∧ x.2 < b) then some x else some (s, b)

/-- The scan over a list. -/
def pick (score : α → β) (l : List α) : Option α :=
  ((l.map fun a => (score a, a)).foldl step none).map Prod.snd

/-- `a` is the member of `l` with the highest score, lowest on ties. -/
def IsBest (score : α → β) (l : List α) (a : α) : Prop :=
  a ∈ l ∧ ∀ b ∈ l, score b < score a ∨ (score b = score a ∧ a ≤ b)

theorem IsBest.score_le {score : α → β} {l : List α} {a b : α} (h : IsBest score l a)
    (hb : b ∈ l) : score b ≤ score a := by
  rcases h.2 b hb with hlt | ⟨heq, -⟩
  · exact hlt.le
  · exact heq.le

/-- Two best members are the same one. -/
theorem IsBest.unique {score : α → β} {l : List α} {a b : α}
    (ha : IsBest score l a) (hb : IsBest score l b) : a = b := by
  rcases ha.2 b hb.1 with hlt | ⟨heq, hab⟩
  · exact absurd (hb.score_le ha.1) (not_le.mpr hlt)
  · rcases hb.2 a ha.1 with hlt | ⟨-, hba⟩
    · exact absurd heq (ne_of_gt hlt)
    · exact le_antisymm hab hba

/-- The scan from an incumbent ends with the best of the incumbent and the
list. -/
theorem foldl_step_some (score : α → β) (l : List α) (b : α) :
    ∃ a, (l.map fun a => (score a, a)).foldl step (some (score b, b)) = some (score a, a) ∧
      IsBest score (b :: l) a := by
  induction l generalizing b with
  | nil => exact ⟨b, rfl, by simp [IsBest]⟩
  | cons c l ih =>
      simp only [List.map_cons, List.foldl_cons, step]
      split
      · next hc =>
          obtain ⟨a, heq, hmem, hbest⟩ := ih c
          refine ⟨a, heq, List.mem_cons_of_mem _ hmem, fun x hx => ?_⟩
          rcases List.mem_cons.mp hx with rfl | hx
          · -- the dethroned incumbent loses to `c`, which loses to `a`
            rcases hbest c List.mem_cons_self with hlt | ⟨he, hle⟩
            · exact .inl (hc.elim (fun h => h.trans hlt) (fun h => h.1 ▸ hlt))
            · rcases hc with h | ⟨h, hcx⟩
              · exact .inl (he ▸ h)
              · exact .inr ⟨h.symm.trans he, hle.trans hcx.le⟩
          · exact hbest x hx
      · next hc =>
          obtain ⟨a, heq, hmem, hbest⟩ := ih b
          have hcb : score c < score b ∨ (score c = score b ∧ b ≤ c) := by
            rcases lt_trichotomy (score c) (score b) with h | h | h
            · exact .inl h
            · exact .inr ⟨h, le_of_not_gt fun hlt => hc (.inr ⟨h, hlt⟩)⟩
            · exact absurd (.inl h) hc
          refine ⟨a, heq, ?_, fun x hx => ?_⟩
          · rcases List.mem_cons.mp hmem with rfl | h
            · exact List.mem_cons_self
            · exact List.mem_cons_of_mem _ (List.mem_cons_of_mem _ h)
          · rcases List.mem_cons.mp hx with rfl | hx
            · exact hbest x List.mem_cons_self
            · rcases List.mem_cons.mp hx with rfl | hx
              · rcases hbest b List.mem_cons_self with hlt | ⟨he, hle⟩
                · exact .inl (hcb.elim (fun h => h.trans hlt) (fun h => h.1 ▸ hlt))
                · rcases hcb with h | ⟨h, hbx⟩
                  · exact .inl (he ▸ h)
                  · exact .inr ⟨h.trans he, hle.trans hbx⟩
              · exact hbest x (List.mem_cons_of_mem _ hx)

@[simp] theorem pick_nil (score : α → β) : pick score [] = none := rfl

/-- **The scan of a non-empty list returns its best member.** -/
theorem exists_pick_eq_some (score : α → β) {l : List α} (hl : l ≠ []) :
    ∃ a, pick score l = some a ∧ IsBest score l a := by
  cases l with
  | nil => exact absurd rfl hl
  | cons b l =>
      obtain ⟨a, heq, hbest⟩ := foldl_step_some score l b
      exact ⟨a, by simp [pick, step, heq], hbest⟩

theorem pick_eq_some_iff {score : α → β} {l : List α} {a : α} :
    pick score l = some a ↔ IsBest score l a := by
  constructor
  · intro h
    have hl : l ≠ [] := by rintro rfl; simp at h
    obtain ⟨b, hb, hbest⟩ := exists_pick_eq_some score hl
    rw [h, Option.some.injEq] at hb
    exact hb ▸ hbest
  · intro h
    obtain ⟨b, hb, hbest⟩ := exists_pick_eq_some score (List.ne_nil_of_mem h.1)
    rw [hb, hbest.unique h]

theorem pick_eq_none_iff {score : α → β} {l : List α} : pick score l = none ↔ l = [] := by
  constructor
  · intro h
    by_contra hl
    obtain ⟨a, ha, -⟩ := exists_pick_eq_some score hl
    rw [h] at ha
    exact Option.some_ne_none a ha.symm
  · rintro rfl
    rfl

/-- The scan depends on the scores of the members only. -/
theorem pick_congr {score score' : α → β} {l : List α} (h : ∀ a ∈ l, score a = score' a) :
    pick score l = pick score' l := by
  have hmap : (l.map fun a => (score a, a)) = l.map fun a => (score' a, a) :=
    List.map_congr_left fun a ha => by rw [h a ha]
  rw [pick, pick, hmap]

/-- The scan depends on the members of the list only. -/
theorem pick_congr_mem {score : α → β} {l l' : List α} (h : ∀ a, a ∈ l ↔ a ∈ l') :
    pick score l = pick score l' := by
  apply Option.ext
  intro a
  simp only [pick_eq_some_iff, IsBest, h]

/-- The best member is best in any sublist that contains it. -/
theorem IsBest.mono {score : α → β} {l l' : List α} {a : α} (h : IsBest score l a)
    (ha : a ∈ l') (hsub : ∀ b ∈ l', b ∈ l) : IsBest score l' a :=
  ⟨ha, fun b hb => h.2 b (hsub b hb)⟩

end Best
