import Mathlib

/-!
# GhostDag.Lib.Greedy

Greedy growth of a set under a conflict bound.  Candidates are taken in a
given order; one is admitted when it conflicts with at most `k` members
admitted before it.  Nothing is checked about the members already there.

* `pass_eq_union` — no candidate is refused inside a set of small conflicts;
* `card_le_of_clique` — pairwise conflicting members number at most `k + 1`;
* `cluster_pass_iff` — the result bounds the conflicts of *every* member
  exactly when no admission overfills an earlier member (`Fits`).
-/

namespace Greedy

variable {α : Type*} (r : α → α → Prop) [DecidableRel r] (k : ℕ)

/-- The members of `S` that `c` conflicts with. -/
def conflicts (S : Finset α) (c : α) : Finset α := {x ∈ S | r c x}

/-- Every member conflicts with at most `k` others. -/
def Cluster (S : Finset α) : Prop := ∀ b ∈ S, (conflicts r S b).card ≤ k

variable {r k} in
@[simp] theorem mem_conflicts {S : Finset α} {c x : α} : x ∈ conflicts r S c ↔ x ∈ S ∧ r c x := by
  simp [conflicts]

variable {r k} in
theorem conflicts_mono {S T : Finset α} (h : S ⊆ T) (c : α) : conflicts r S c ⊆ conflicts r T c :=
  Finset.filter_subset_filter _ h

variable {r k} in
theorem Cluster.mono {S T : Finset α} (hT : Cluster r k T) (h : S ⊆ T) : Cluster r k S :=
  fun b hb => (Finset.card_le_card (conflicts_mono h b)).trans (hT b (h hb))

variable {r k} in
/-- A set of `k + 1` members is too small for more conflicts. -/
theorem cluster_of_card_le (hr : ∀ a, ¬ r a a) {S : Finset α} (h : S.card ≤ k + 1) :
    Cluster r k S := by
  intro b hb
  have hlt : (conflicts r S b).card < S.card :=
    Finset.card_lt_card ⟨Finset.filter_subset _ _, fun hsub => hr b (mem_conflicts.mp (hsub hb)).2⟩
  omega

variable [DecidableEq α]

/-- The greedy pass over a list of candidates. -/
def pass : Finset α → List α → Finset α
  | S, [] => S
  | S, c :: cs => pass (if (conflicts r S c).card ≤ k then insert c S else S) cs

/-- Whenever the pass admits a candidate, the members it conflicts with still
have room for one more conflict. -/
def Fits : Finset α → List α → Prop
  | _, [] => True
  | S, c :: cs =>
      if (conflicts r S c).card ≤ k then
        (∀ b ∈ S, r b c → (conflicts r S b).card < k) ∧ Fits (insert c S) cs
      else Fits S cs

variable {r k}

/-! ## what a pass adds -/

theorem subset_pass (S : Finset α) (l : List α) : S ⊆ pass r k S l := by
  induction l generalizing S with
  | nil => exact subset_rfl
  | cons c l ih =>
      rw [pass]
      split
      · exact (Finset.subset_insert c S).trans (ih _)
      · exact ih S

theorem pass_subset (S : Finset α) (l : List α) : pass r k S l ⊆ S ∪ l.toFinset := by
  induction l generalizing S with
  | nil => simp [pass]
  | cons c l ih =>
      rw [pass, List.toFinset_cons]
      split
      · refine (ih _).trans fun x => ?_
        simp only [Finset.mem_union, Finset.mem_insert, List.mem_toFinset]
        tauto
      · refine (ih S).trans fun x => ?_
        simp only [Finset.mem_union, Finset.mem_insert, List.mem_toFinset]
        tauto

/-- Outside the candidates a pass changes nothing. -/
theorem mem_pass_iff_of_notMem {S : Finset α} {l : List α} {a : α} (ha : a ∉ l) :
    a ∈ pass r k S l ↔ a ∈ S := by
  constructor
  · intro h
    have := pass_subset S l h
    simpa [ha] using this
  · exact fun h => subset_pass S l h

/-- **No refusals inside a cluster**: where start and candidates lie in a set
whose members all have at most `k` conflicts, everything is admitted. -/
theorem pass_eq_union {S T : Finset α} {l : List α} (hT : Cluster r k T) (hS : S ⊆ T)
    (hl : ∀ c ∈ l, c ∈ T) : pass r k S l = S ∪ l.toFinset := by
  induction l generalizing S with
  | nil => simp [pass]
  | cons c l ih =>
      have hc : c ∈ T := hl c List.mem_cons_self
      have hadm : (conflicts r S c).card ≤ k :=
        (Finset.card_le_card (conflicts_mono hS c)).trans (hT c hc)
      rw [pass, if_pos hadm, ih (Finset.insert_subset hc hS)
        (fun x hx => hl x (List.mem_cons_of_mem c hx)), List.toFinset_cons,
        Finset.insert_union, Finset.union_insert]

/-- A pass looks at the conflicts among its members and candidates only. -/
theorem pass_congr {r' : α → α → Prop} [DecidableRel r'] {T : Finset α}
    (h : ∀ x ∈ T, ∀ y ∈ T, r x y ↔ r' x y) {S : Finset α} (hS : S ⊆ T) {l : List α}
    (hl : ∀ c ∈ l, c ∈ T) : pass r k S l = pass r' k S l := by
  induction l generalizing S with
  | nil => rfl
  | cons c l ih =>
      have hc : c ∈ T := hl c List.mem_cons_self
      have hconf : conflicts r S c = conflicts r' S c :=
        Finset.filter_congr fun x hx => h c hc x (hS hx)
      rw [pass, pass, hconf]
      refine ih ?_ fun x hx => hl x (List.mem_cons_of_mem c hx)
      split
      · exact Finset.insert_subset hc hS
      · exact hS

/-! ## width -/

/-- **Width of a pass**: if pairwise conflicting members of the start number
at most `k + 1`, so do those of the result.  The last one of them to be
admitted was checked against all the others. -/
theorem card_le_of_clique {S : Finset α} {l : List α}
    (hS : ∀ A ⊆ S, (∀ a ∈ A, ∀ b ∈ A, a ≠ b → r a b) → A.card ≤ k + 1)
    {A : Finset α} (hA : A ⊆ pass r k S l) (hr : ∀ a ∈ A, ∀ b ∈ A, a ≠ b → r a b) :
    A.card ≤ k + 1 := by
  induction l generalizing S with
  | nil => exact hS A hA hr
  | cons c l ih =>
      rw [pass] at hA
      refine ih ?_ hA
      split
      · next hadm =>
          intro B hB hrB
          by_cases hc : c ∈ B
          · have hsub : B.erase c ⊆ conflicts r S c := by
              intro x hx
              obtain ⟨hne, hxB⟩ := Finset.mem_erase.mp hx
              have hxS : x ∈ S := (Finset.mem_insert.mp (hB hxB)).resolve_left hne
              exact mem_conflicts.mpr ⟨hxS, hrB c hc x hxB hne.symm⟩
            have hcard := (Finset.card_le_card hsub).trans hadm
            rw [Finset.card_erase_of_mem hc] at hcard
            omega
          · exact hS B (fun x hx => (Finset.mem_insert.mp (hB hx)).resolve_left
              fun h => hc (h ▸ hx)) hrB
      · exact hS

/-! ## when the result is a cluster -/

/-- Admitting one more member keeps a cluster iff the members it conflicts
with had room. -/
theorem cluster_insert_iff (hirr : ∀ a, ¬ r a a) {S : Finset α} {c : α} (hc : c ∉ S)
    (hadm : (conflicts r S c).card ≤ k) :
    Cluster r k (insert c S) ↔ Cluster r k S ∧ ∀ b ∈ S, r b c → (conflicts r S b).card < k := by
  have hself : conflicts r (insert c S) c = conflicts r S c := by
    rw [conflicts, conflicts, Finset.filter_insert, if_neg (hirr c)]
  have hold : ∀ b ∈ S, (conflicts r (insert c S) b).card =
      (conflicts r S b).card + if r b c then 1 else 0 := by
    intro b _
    rw [conflicts, Finset.filter_insert]
    split
    · rw [Finset.card_insert_of_notMem (fun h => hc (Finset.mem_filter.mp h).1)]
      rfl
    · rfl
  constructor
  · intro h
    refine ⟨h.mono (Finset.subset_insert c S), fun b hb hbc => ?_⟩
    have hle := h b (Finset.mem_insert_of_mem hb)
    rw [hold b hb, if_pos hbc] at hle
    omega
  · rintro ⟨hS, hroom⟩ b hb
    rcases Finset.mem_insert.mp hb with rfl | hb
    · rw [hself]; exact hadm
    · rw [hold b hb]
      split
      · next hbc => exact hroom b hb hbc
      · exact hS b hb

/-- **When the result is a cluster**: exactly when the start is one and no
admission of the pass overfills a member that is already in. -/
theorem cluster_pass_iff (hirr : ∀ a, ¬ r a a) {S : Finset α} {l : List α} (hl : l.Nodup)
    (hdisj : ∀ c ∈ l, c ∉ S) :
    Cluster r k (pass r k S l) ↔ Cluster r k S ∧ Fits r k S l := by
  induction l generalizing S with
  | nil => simp [pass, Fits]
  | cons c l ih =>
      obtain ⟨hcl, hl⟩ := List.nodup_cons.mp hl
      have hc : c ∉ S := hdisj c List.mem_cons_self
      rw [pass, Fits]
      split
      · next hadm =>
          have hdisj' : ∀ x ∈ l, x ∉ insert c S := by
            intro x hx hmem
            rcases Finset.mem_insert.mp hmem with rfl | h
            · exact hcl hx
            · exact hdisj x (List.mem_cons_of_mem c hx) h
          rw [ih hl hdisj', cluster_insert_iff hirr hc hadm, and_assoc]
      · exact ih hl fun x hx => hdisj x (List.mem_cons_of_mem c hx)

end Greedy
