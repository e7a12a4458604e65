import GhostDag.Lib.Best
import GhostDag.Lib.Greedy
import GhostDag.Lib.Kahn
import GhostDag.Lib.ParentGraph

/-!
# GhostDag.Colouring

What the consensus layer is for, stated on the DAG alone: every block `b`
has a blue set `blue k b`, obtained from that of its selected parent by a
greedy pass over the blocks it merges.  There are no indices, no caches and
no arrival order here; `GhostDag.Dag.Rep` connects the code's `Blockchain`
to these functions.

* `blue_iff_of_mem_chain` — the selected parent's colouring is inherited;
* `score_lt_of_mem_past` — scores grow strictly along ancestry;
* `card_le_of_antichain` — at most `k + 1` blue blocks side by side;
* `blue_eq_of_cluster` — nothing is red inside a `k`-cluster;
* `cluster_blue_iff` — when the blue set itself is a `k`-cluster.
-/

namespace GhostDag

open Greedy

variable {α : Type*} [LinearOrder α] (G : ParentGraph α) (k : ℕ)

/-! ## the colouring -/

/-- The blocks `b` merges when `sp` is its selected parent. -/
noncomputable def mergeSet (b sp : α) : Finset α := (G.past b \ G.past sp).erase sp

/-- The merge set in the order the greedy pass takes it: Kahn's order with a
FIFO queue, smallest ids first among the sources. -/
noncomputable def mergeOrder (b sp : α) : List α :=
  (Kahn.order Kahn.fifo G.parents (mergeSet G b sp).sort).getD []

/-- The blue set of a block. -/
noncomputable def blue : α → Finset α :=
  G.wf.fix fun b ih =>
    match Best.pick (fun p => if h : p ∈ G.parents b then (ih p h).card else 0) (G.parents b) with
    | none => {b}
    | some sp =>
        insert b (pass G.Unrelated k (if h : sp ∈ G.parents b then ih sp h else ∅)
          (mergeOrder G b sp))

/-- The blue score of a block. -/
noncomputable def score (b : α) : ℕ := (blue G k b).card

/-- The parent with the highest blue score, the lowest id on ties. -/
noncomputable def selectedParent (b : α) : Option α := Best.pick (score G k) (G.parents b)

/-- Whenever the pass of `b` admits a candidate, no block that is already
blue and unrelated to it has reached `k` blue blocks unrelated to itself. -/
def MergeFits (b : α) : Prop :=
  ∀ sp, selectedParent G k b = some sp → Fits G.Unrelated k (blue G k sp) (mergeOrder G b sp)

variable {G k}

theorem blue_eq (b : α) :
    blue G k b = match selectedParent G k b with
      | none => {b}
      | some sp => insert b (pass G.Unrelated k (blue G k sp) (mergeOrder G b sp)) := by
  have hfix : blue G k b = match Best.pick
        (fun p => if _ : p ∈ G.parents b then (blue G k p).card else 0) (G.parents b) with
      | none => {b}
      | some sp => insert b (pass G.Unrelated k (if _ : sp ∈ G.parents b then blue G k sp else ∅)
          (mergeOrder G b sp)) := G.wf.fix_eq _ b
  have hpick : Best.pick (fun p => if _ : p ∈ G.parents b then (blue G k p).card else 0)
      (G.parents b) = selectedParent G k b :=
    Best.pick_congr fun p hp => dif_pos hp
  rw [hfix, hpick]
  cases hsp : selectedParent G k b with
  | none => rfl
  | some sp =>
      have hmem : sp ∈ G.parents b := (Best.pick_eq_some_iff.mp hsp).1
      simp only [hmem, dif_pos]

theorem blue_of_parents_eq_nil {b : α} (h : G.parents b = []) : blue G k b = {b} := by
  rw [blue_eq, selectedParent, h, Best.pick_nil]

theorem selectedParent_eq_some_iff {b sp : α} :
    selectedParent G k b = some sp ↔ Best.IsBest (score G k) (G.parents b) sp :=
  Best.pick_eq_some_iff

theorem mem_parents_of_selectedParent {b sp : α} (h : selectedParent G k b = some sp) :
    sp ∈ G.parents b := (selectedParent_eq_some_iff.mp h).1

theorem blue_of_selectedParent {b sp : α} (h : selectedParent G k b = some sp) :
    blue G k b = insert b (pass G.Unrelated k (blue G k sp) (mergeOrder G b sp)) := by
  rw [blue_eq, h]

/-- A block with parents has a selected parent. -/
theorem exists_selectedParent {b : α} (h : G.parents b ≠ []) :
    ∃ sp, selectedParent G k b = some sp := by
  obtain ⟨sp, hsp, -⟩ := Best.exists_pick_eq_some (score G k) h
  exact ⟨sp, hsp⟩

/-! ## the merge set -/

theorem mem_mergeSet {b sp x : α} :
    x ∈ mergeSet G b sp ↔ x ≠ sp ∧ x ∈ G.past b ∧ x ∉ G.past sp := by
  simp [mergeSet]

theorem exists_mergeOrder (b sp : α) :
    Kahn.order Kahn.fifo G.parents (mergeSet G b sp).sort = some (mergeOrder G b sp) := by
  obtain ⟨m, out, h, -⟩ :=
    Kahn.exists_order Kahn.lawful_fifo G.parents (Finset.sort_nodup (mergeSet G b sp) (· ≤ ·))
  rw [mergeOrder, h]
  rfl

theorem mem_mergeSet_of_mem_mergeOrder {b sp x : α} (h : x ∈ mergeOrder G b sp) :
    x ∈ mergeSet G b sp := by
  simpa using Kahn.order_subset Kahn.lawful_fifo G.parents
    (Finset.sort_nodup (mergeSet G b sp) (· ≤ ·)) (exists_mergeOrder b sp) x h

theorem nodup_mergeOrder (b sp : α) : (mergeOrder G b sp).Nodup :=
  Kahn.order_nodup Kahn.lawful_fifo G.parents (Finset.sort_nodup (mergeSet G b sp) (· ≤ ·))
    (exists_mergeOrder b sp)

/-- With repetition-free parent lists the pass considers the whole merge
set. -/
theorem mem_mergeOrder_iff {b sp : α} (hnd : ∀ x ∈ G.past b, (G.parents x).Nodup) (x : α) :
    x ∈ mergeOrder G b sp ↔ x ∈ mergeSet G b sp := by
  have h := Kahn.mem_order_iff Kahn.lawful_fifo G.parents
    (Finset.sort_nodup (mergeSet G b sp) (· ≤ ·)) G.wf
    (fun c hc => hnd c (mem_mergeSet.mp (by simpa using hc)).2.1) (exists_mergeOrder b sp) x
  simpa using h

/-! ## structure of blue sets -/

theorem self_mem_blue (b : α) : b ∈ blue G k b := by
  rw [blue_eq]
  split <;> simp

theorem blue_subset (b : α) : blue G k b ⊆ insert b (G.past b) := by
  induction b using G.wf.induction with
  | _ b ih =>
    rw [blue_eq]
    split
    · simp
    · next sp hsp =>
        have hmem := mem_parents_of_selectedParent hsp
        apply Finset.insert_subset_insert
        intro x hx
        rcases Finset.mem_union.mp (pass_subset _ _ hx) with hx | hx
        · rcases Finset.mem_insert.mp (ih sp hmem hx) with rfl | hx
          · exact G.mem_past_of_mem_parents hmem
          · exact G.past_subset_of_mem_past (G.mem_past_of_mem_parents hmem) hx
        · exact (mem_mergeSet.mp (mem_mergeSet_of_mem_mergeOrder (List.mem_toFinset.mp hx))).2.1

/-- The blue set counts the block itself and the blue part of its past. -/
theorem score_eq (b : α) : score G k b = (G.past b ∩ blue G k b).card + 1 := by
  have hsplit : blue G k b = insert b (G.past b ∩ blue G k b) := by
    ext x
    constructor
    · intro hx
      rcases Finset.mem_insert.mp (blue_subset b hx) with rfl | hp
      · exact Finset.mem_insert_self _ _
      · exact Finset.mem_insert_of_mem (Finset.mem_inter.mpr ⟨hp, hx⟩)
    · intro hx
      rcases Finset.mem_insert.mp hx with rfl | hx
      · exact self_mem_blue _
      · exact (Finset.mem_inter.mp hx).2
  rw [score, hsplit, Finset.card_insert_of_notMem
    (fun h => G.notMem_past_self b (Finset.mem_inter.mp h).1), ← hsplit]

theorem notMem_pass_self {b sp : α} (h : selectedParent G k b = some sp) :
    b ∉ pass G.Unrelated k (blue G k sp) (mergeOrder G b sp) := by
  have hmem := mem_parents_of_selectedParent h
  intro hb
  rcases Finset.mem_union.mp (pass_subset _ _ hb) with hb | hb
  · rcases Finset.mem_insert.mp (blue_subset sp hb) with rfl | hb
    · exact G.notMem_past_self b (G.mem_past_of_mem_parents hmem)
    · exact G.notMem_past_self b
        (G.past_subset_of_mem_past (G.mem_past_of_mem_parents hmem) hb)
  · exact G.notMem_past_self b
      (mem_mergeSet.mp (mem_mergeSet_of_mem_mergeOrder (List.mem_toFinset.mp hb))).2.1

/-- **Inheritance**: on the selected parent and its past, a block colours
exactly as its selected parent does. -/
theorem blue_iff_of_mem_chain {b sp x : α} (h : selectedParent G k b = some sp)
    (hx : x = sp ∨ x ∈ G.past sp) : x ∈ blue G k b ↔ x ∈ blue G k sp := by
  have hsp := G.mem_past_of_mem_parents (mem_parents_of_selectedParent h)
  have hxb : x ≠ b := by
    rintro rfl
    rcases hx with rfl | hx
    · exact G.notMem_past_self x hsp
    · exact G.notMem_past_self x (G.past_subset_of_mem_past hsp hx)
  have hxm : x ∉ mergeOrder G b sp := by
    intro hm
    obtain ⟨hne, -, hnp⟩ := mem_mergeSet.mp (mem_mergeSet_of_mem_mergeOrder hm)
    exact hx.elim hne hnp
  rw [blue_of_selectedParent h, Finset.mem_insert, or_iff_right hxb, mem_pass_iff_of_notMem hxm]

theorem blue_subset_of_selectedParent {b sp : α} (h : selectedParent G k b = some sp) :
    blue G k sp ⊆ blue G k b := by
  rw [blue_of_selectedParent h]
  exact (subset_pass _ _).trans (Finset.subset_insert _ _)

/-- **Scores grow strictly from every parent.** -/
theorem score_lt_of_mem_parents {p b : α} (h : p ∈ G.parents b) :
    score G k p < score G k b := by
  obtain ⟨sp, hsp⟩ := exists_selectedParent (k := k) (List.ne_nil_of_mem h)
  have hle : score G k p ≤ score G k sp := (selectedParent_eq_some_iff.mp hsp).score_le h
  have hlt : score G k sp < score G k b := by
    apply Finset.card_lt_card
    refine Finset.ssubset_iff_of_subset (blue_subset_of_selectedParent hsp) |>.mpr
      ⟨b, self_mem_blue b, fun hb => ?_⟩
    exact notMem_pass_self hsp (subset_pass _ _ hb)
  omega

theorem score_lt_of_mem_past {a b : α} (h : a ∈ G.past b) : score G k a < score G k b := by
  have hanc := G.mem_past_iff.mp h
  unfold ParentGraph.Anc at hanc
  induction hanc with
  | single hp => exact score_lt_of_mem_parents hp
  | tail hab hp ih =>
      exact (ih (G.mem_past_iff.mpr hab)).trans (score_lt_of_mem_parents hp)

/-! ## the selected-parent chain -/

/-- `c` is on the selected-parent chain of `b`. -/
inductive OnChain (G : ParentGraph α) (k : ℕ) (b : α) : α → Prop
  | self : OnChain G k b b
  | next {c sp : α} : OnChain G k b c → selectedParent G k c = some sp → OnChain G k b sp

theorem OnChain.eq_or_mem_past {b c : α} (h : OnChain G k b c) : c = b ∨ c ∈ G.past b := by
  induction h with
  | self => exact .inl rfl
  | @next c sp hc hsp ih =>
      have hpar := G.mem_past_of_mem_parents (mem_parents_of_selectedParent hsp)
      rcases ih with rfl | ih
      · exact .inr hpar
      · exact .inr (G.past_subset_of_mem_past ih hpar)

theorem OnChain.blue_subset {b c : α} (h : OnChain G k b c) : blue G k c ⊆ blue G k b := by
  induction h with
  | self => exact subset_rfl
  | next _ hsp ih => exact (blue_subset_of_selectedParent hsp).trans ih

/-- **The selected-parent chain is blue.** -/
theorem OnChain.mem_blue {b c : α} (h : OnChain G k b c) : c ∈ blue G k b :=
  h.blue_subset (self_mem_blue c)

/-! ## width -/

/-- **Blue width**: at most `k + 1` pairwise unrelated blocks are blue. -/
theorem card_le_of_antichain {b : α} {A : Finset α} (hA : A ⊆ blue G k b)
    (hr : ∀ x ∈ A, ∀ y ∈ A, x ≠ y → G.Unrelated x y) : A.card ≤ k + 1 := by
  induction b using G.wf.induction generalizing A with
  | _ b ih =>
    by_cases hb : b ∈ A
    · -- `b` is related to every other blue block
      have hsingle : A ⊆ {b} := by
        intro x hx
        by_contra hne
        have hxb : x ≠ b := fun h => hne (Finset.mem_singleton.mpr h)
        have hpast := (Finset.mem_insert.mp (blue_subset b (hA hx))).resolve_left hxb
        exact (hr x hx b hb hxb).2.1 hpast
      have := Finset.card_le_card hsingle
      rw [Finset.card_singleton] at this
      omega
    · cases hsp : selectedParent G k b with
      | none =>
          have hempty : A = ∅ := by
            rw [Finset.eq_empty_iff_forall_notMem]
            intro x hx
            have := hA hx
            rw [blue_eq, hsp, Finset.mem_singleton] at this
            exact hb (this ▸ hx)
          simp [hempty]
      | some sp =>
          rw [blue_of_selectedParent hsp] at hA
          refine card_le_of_clique (S := blue G k sp) (r := G.Unrelated)
            (fun B hB hrB => ih sp (mem_parents_of_selectedParent hsp) hB hrB)
            (fun x hx => (Finset.mem_insert.mp (hA hx)).resolve_left fun h => hb (h ▸ hx)) hr

/-! ## no false reds -/

/-- **No false reds**: inside a past that is a `k`-cluster nothing is red. -/
theorem blue_eq_of_cluster {b : α} (hnd : ∀ x ∈ G.past b, (G.parents x).Nodup)
    (hc : Cluster G.Unrelated k (G.past b)) : blue G k b = insert b (G.past b) := by
  induction b using G.wf.induction with
  | _ b ih =>
    cases hsp : selectedParent G k b with
    | none =>
        have hnil : G.parents b = [] := Best.pick_eq_none_iff.mp hsp
        rw [blue_of_parents_eq_nil hnil, G.past_eq_empty_iff.mpr hnil]
        rfl
    | some sp =>
        have hmem := mem_parents_of_selectedParent hsp
        have hspb := G.mem_past_of_mem_parents hmem
        have hsub := G.past_subset_of_mem_past hspb
        have hblue := ih sp hmem (fun x hx => hnd x (hsub hx)) (hc.mono hsub)
        have hstart : blue G k sp ⊆ G.past b := by
          rw [hblue]; exact Finset.insert_subset hspb hsub
        rw [blue_of_selectedParent hsp, pass_eq_union hc hstart
          (fun c hc => (mem_mergeSet.mp (mem_mergeSet_of_mem_mergeOrder hc)).2.1), hblue]
        congr 1
        ext x
        simp only [Finset.mem_union, Finset.mem_insert, List.mem_toFinset,
          mem_mergeOrder_iff hnd, mem_mergeSet]
        constructor
        · rintro ((rfl | hx) | ⟨-, hx, -⟩)
          · exact hspb
          · exact hsub hx
          · exact hx
        · intro hx
          by_cases h : x = sp ∨ x ∈ G.past sp
          · exact .inl h
          · rw [not_or] at h
            exact .inr ⟨h.1, hx, h.2⟩

/-! ## locality -/

/-- On a set of blocks closed under parents, `G'` has the parents of `G`,
possibly in another order, and the same ones of them repeated. -/
structure Resembles (G G' : ParentGraph α) (P : α → Prop) : Prop where
  closed : ∀ b, P b → ∀ p ∈ G.parents b, P p
  mem_iff : ∀ b, P b → ∀ p, p ∈ G'.parents b ↔ p ∈ G.parents b
  repeats : ∀ b, P b → ∀ p, List.Duplicate p (G'.parents b) ↔ List.Duplicate p (G.parents b)

namespace Resembles

variable {G' : ParentGraph α} {P : α → Prop}

theorem past_eq (h : Resembles G G' P) {b : α} (hb : P b) : G'.past b = G.past b := by
  induction b using G.wf.induction with
  | _ b ih =>
    have hset : (G'.parents b).toFinset = (G.parents b).toFinset := by
      ext p
      rw [List.mem_toFinset, List.mem_toFinset, h.mem_iff b hb]
    rw [G'.past_eq, G.past_eq, hset]
    congr 1
    exact Finset.biUnion_congr rfl fun p hp =>
      ih p (List.mem_toFinset.mp hp) (h.closed b hb p (List.mem_toFinset.mp hp))

theorem of_mem_past (h : Resembles G G' P) {a b : α} (hb : P b) (ha : a ∈ G.past b) : P a := by
  have hanc := G.mem_past_iff.mp ha
  unfold ParentGraph.Anc at hanc
  induction hanc with
  | single hp => exact h.closed _ hb _ hp
  | tail hac hp ih => exact ih (h.closed _ hb _ hp) (G.mem_past_iff.mpr hac)

/-- **The colouring of a block depends on its past only**, and there on the
set of parents and on the repeated ones. -/
theorem blue_eq (h : Resembles G G' P) {b : α} (hb : P b) : blue G' k b = blue G k b := by
  induction b using G.wf.induction with
  | _ b ih =>
    have hsel : selectedParent G' k b = selectedParent G k b := by
      rw [selectedParent, selectedParent, Best.pick_congr_mem (h.mem_iff b hb)]
      refine Best.pick_congr fun p hp => ?_
      rw [score, score, ih p hp (h.closed b hb p hp)]
    cases hsp : selectedParent G k b with
    | none => rw [GhostDag.blue_eq, GhostDag.blue_eq, hsel, hsp]
    | some sp =>
        have hspb := mem_parents_of_selectedParent hsp
        have hspP : P sp := h.closed b hb sp hspb
        have hmerge : mergeSet G' b sp = mergeSet G b sp := by
          rw [mergeSet, mergeSet, h.past_eq hb, h.past_eq hspP]
        have hP : ∀ c ∈ (mergeSet G b sp).sort, P c := fun c hc =>
          h.of_mem_past hb (mem_mergeSet.mp ((Finset.mem_sort _).mp hc)).2.1
        have horder : mergeOrder G' b sp = mergeOrder G b sp := by
          rw [mergeOrder, mergeOrder, hmerge, Kahn.order_congr Kahn.lawful_fifo
            (Finset.sort_nodup _ _) (fun c hc => h.mem_iff c (hP c hc))
            fun c hc => h.repeats c (hP c hc)]
        have hsubP : ∀ x ∈ insert b (G.past b), P x := by
          intro x hx
          obtain rfl | hx := Finset.mem_insert.mp hx
          · exact hb
          · exact h.of_mem_past hb hx
        have hrel : ∀ x ∈ insert b (G.past b), ∀ y ∈ insert b (G.past b),
            G'.Unrelated x y ↔ G.Unrelated x y := by
          intro x hx y hy
          rw [ParentGraph.Unrelated, ParentGraph.Unrelated, h.past_eq (hsubP x hx),
            h.past_eq (hsubP y hy)]
        rw [blue_of_selectedParent (hsel.trans hsp), blue_of_selectedParent hsp, horder,
          ih sp hspb hspP, Greedy.pass_congr hrel]
        · exact (blue_subset_of_selectedParent hsp).trans (blue_subset b)
        · intro c hc
          exact Finset.mem_insert_of_mem (mem_mergeSet.mp (mem_mergeSet_of_mem_mergeOrder hc)).2.1

theorem score_eq (h : Resembles G G' P) {b : α} (hb : P b) : score G' k b = score G k b := by
  rw [score, score, h.blue_eq hb]

theorem selectedParent_eq (h : Resembles G G' P) {b : α} (hb : P b) :
    selectedParent G' k b = selectedParent G k b := by
  rw [selectedParent, selectedParent, Best.pick_congr_mem (h.mem_iff b hb)]
  exact Best.pick_congr fun p hp => h.score_eq (h.closed b hb p hp)

end Resembles

/-- `G'` has the parents of `G` on a set of blocks closed under parents. -/
structure Agree (G G' : ParentGraph α) (P : α → Prop) : Prop where
  closed : ∀ b, P b → ∀ p ∈ G.parents b, P p
  parents : ∀ b, P b → G'.parents b = G.parents b

namespace Agree

variable {G' : ParentGraph α} {P : α → Prop}

omit [LinearOrder α] in
theorem resembles (h : Agree G G' P) : Resembles G G' P where
  closed := h.closed
  mem_iff b hb p := by rw [h.parents b hb]
  repeats b hb p := by rw [h.parents b hb]

theorem past_eq (h : Agree G G' P) {b : α} (hb : P b) : G'.past b = G.past b :=
  h.resembles.past_eq hb

theorem blue_eq (h : Agree G G' P) {b : α} (hb : P b) : blue G' k b = blue G k b :=
  h.resembles.blue_eq hb

theorem score_eq (h : Agree G G' P) {b : α} (hb : P b) : score G' k b = score G k b :=
  h.resembles.score_eq hb

theorem selectedParent_eq (h : Agree G G' P) {b : α} (hb : P b) :
    selectedParent G' k b = selectedParent G k b := h.resembles.selectedParent_eq hb

end Agree

/-! ## blue sets and clusters -/

/-- The block itself conflicts with none of its blue set. -/
theorem cluster_insert_self_iff {b : α} {S : Finset α} (hS : S ⊆ G.past b) :
    Cluster G.Unrelated k (insert b S) ↔ Cluster G.Unrelated k S := by
  have hnone : ∀ x ∈ insert b S, ¬ G.Unrelated x b := by
    intro x hx h
    rcases Finset.mem_insert.mp hx with rfl | hx
    · exact h.1 rfl
    · exact h.2.1 (hS hx)
  have hb : conflicts G.Unrelated (insert b S) b = ∅ := by
    rw [Finset.eq_empty_iff_forall_notMem]
    intro x hx
    obtain ⟨hxS, hbx⟩ := mem_conflicts.mp hx
    exact hnone x hxS hbx.symm
  have hold : ∀ x ∈ S, conflicts G.Unrelated (insert b S) x = conflicts G.Unrelated S x := by
    intro x hx
    rw [conflicts, conflicts, Finset.filter_insert,
      if_neg (hnone x (Finset.mem_insert_of_mem hx))]
  constructor
  · exact fun h => h.mono (Finset.subset_insert b S)
  · intro h x hx
    rcases Finset.mem_insert.mp hx with rfl | hx
    · rw [hb]; exact Nat.zero_le k
    · rw [hold x hx]; exact h x hx

/-- **When a blue set is a `k`-cluster**: exactly when the selected parent's
is one and the pass of the block overfills nobody. -/
theorem cluster_blue_iff {b : α} :
    Cluster G.Unrelated k (blue G k b) ↔
      (∀ sp, selectedParent G k b = some sp → Cluster G.Unrelated k (blue G k sp)) ∧
        MergeFits G k b := by
  cases hsp : selectedParent G k b with
  | none =>
      have hone : Cluster G.Unrelated k ({b} : Finset α) := by
        have hempty : Cluster G.Unrelated k (∅ : Finset α) := fun x hx =>
          absurd hx (Finset.notMem_empty x)
        exact (cluster_insert_self_iff (b := b) (Finset.empty_subset _)).mpr hempty
      rw [blue_eq, hsp]
      simp [hone, MergeFits, hsp]
  | some sp =>
      have hpast : pass G.Unrelated k (blue G k sp) (mergeOrder G b sp) ⊆ G.past b := by
        intro x hx
        have hxb : x ∈ blue G k b := by
          rw [blue_of_selectedParent hsp]; exact Finset.mem_insert_of_mem hx
        rcases Finset.mem_insert.mp (blue_subset b hxb) with rfl | h
        · exact absurd hx (notMem_pass_self hsp)
        · exact h
      have hdisj : ∀ c ∈ mergeOrder G b sp, c ∉ blue G k sp := by
        intro c hc hcb
        obtain ⟨hne, -, hnp⟩ := mem_mergeSet.mp (mem_mergeSet_of_mem_mergeOrder hc)
        exact (Finset.mem_insert.mp (blue_subset sp hcb)).elim hne hnp
      rw [blue_of_selectedParent hsp, cluster_insert_self_iff hpast,
        cluster_pass_iff G.not_unrelated_self (nodup_mergeOrder b sp) hdisj]
      simp [MergeFits, hsp]

/-- **A past in which nothing has more than `k` unrelated blocks** is enough for
the pass to overfill nobody. -/
theorem mergeFits_of_cluster {b : α} (h : Cluster G.Unrelated k (insert b (G.past b))) :
    MergeFits G k b :=
  (cluster_blue_iff.mp (h.mono (blue_subset b))).2

/-- **When a blue set is a `k`-cluster**: when no greedy pass along the
selected-parent chain overfills a block that was blue before. -/
theorem cluster_blue_iff_onChain {b : α} :
    Cluster G.Unrelated k (blue G k b) ↔ ∀ c, OnChain G k b c → MergeFits G k c := by
  induction b using G.wf.induction with
  | _ b ih =>
    rw [cluster_blue_iff]
    constructor
    · rintro ⟨hsp, hfits⟩ c hc
      cases hsel : selectedParent G k b with
      | none =>
          have hcb : c = b := by
            clear hsp hfits
            induction hc with
            | self => rfl
            | next _ hnext ih =>
                subst ih
                exact absurd (hnext.symm.trans hsel) (Option.some_ne_none _)
          exact hcb ▸ hfits
      | some sp =>
          have hchain : c = b ∨ OnChain G k sp c := by
            clear hsp hfits
            induction hc with
            | self => exact .inl rfl
            | next _ hnext ih =>
                obtain rfl | ih := ih
                · exact .inr (Option.some.inj (hsel.symm.trans hnext) ▸ .self)
                · exact .inr (ih.next hnext)
          obtain rfl | hchain := hchain
          · exact hfits
          · exact (ih sp (mem_parents_of_selectedParent hsel)).mp (hsp sp hsel) c hchain
    · intro hall
      refine ⟨fun sp hsel => ?_, hall b .self⟩
      refine (ih sp (mem_parents_of_selectedParent hsel)).mpr fun c hc => hall c ?_
      clear hall
      induction hc with
      | self => exact OnChain.self.next hsel
      | next _ hnext ih => exact ih.next hnext

end GhostDag
