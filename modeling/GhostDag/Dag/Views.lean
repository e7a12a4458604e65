import GhostDag.Dag.Release

/-!
# GhostDag.Dag.Views

What the read-only interface of `Blockchain` returns under the representation
invariant: pasts, futures and blue sets as sets of ids, the priority ordering
as a run of Kahn's algorithm, and `IsKCluster` as the cluster condition.

`Ancestor` and `Unrelated` state ancestry on the stored blocks alone, without
a DAG on the side; `ancestor_iff` connects the two.
-/

namespace GhostDag

open Std (ExtTreeMap ExtTreeSet)
open Containers

namespace Blockchain

/-- `a` is reached from the accepted block `b` along parent references. -/
def Ancestor (s : Blockchain) (a b : ℕ) : Prop :=
  Relation.TransGen (fun p c => ∃ blk : Block, s.blocks[c]? = some blk ∧ p ∈ blk.parents) a b

/-- Distinct blocks neither of which is an ancestor of the other. -/
def Unrelated (s : Blockchain) (a b : ℕ) : Prop := a ≠ b ∧ ¬ s.Ancestor a b ∧ ¬ s.Ancestor b a

end Blockchain

open Blockchain

variable {W : ℕ → Block} {G : ParentGraph ℕ} {s : Blockchain}

namespace Links

/-! ## ancestry -/

theorem exists_parent_iff (h : Links G s) {p c : ℕ} :
    (∃ blk : Block, s.blocks[c]? = some blk ∧ p ∈ blk.parents) ↔
      c ∈ s.blocks ∧ p ∈ G.parents c := by
  constructor
  · rintro ⟨blk, hblk, hp⟩
    exact ⟨mem_of_getElem? hblk, h.parents c blk hblk ▸ hp⟩
  · rintro ⟨hc, hp⟩
    obtain ⟨blk, hblk⟩ := mem_iff_exists.mp hc
    exact ⟨blk, hblk, h.parents c blk hblk ▸ hp⟩

/-- **Ancestry among stored blocks is ancestry in the DAG.** -/
theorem ancestor_iff (h : Links G s) {a b : ℕ} :
    s.Ancestor a b ↔ b ∈ s.blocks ∧ a ∈ G.past b := by
  rw [G.mem_past_iff]
  constructor
  · intro hanc
    unfold Ancestor at hanc
    induction hanc with
    | single hp =>
        obtain ⟨hc, hp⟩ := h.exists_parent_iff.mp hp
        exact ⟨hc, .single hp⟩
    | tail _ hp ih =>
        obtain ⟨hc, hp⟩ := h.exists_parent_iff.mp hp
        exact ⟨hc, ih.2.tail hp⟩
  · rintro ⟨hb, hanc⟩
    unfold ParentGraph.Anc at hanc
    induction hanc with
    | single hp => exact .single (h.exists_parent_iff.mpr ⟨hb, hp⟩)
    | tail _ hp ih => exact (ih (h.closed _ hb _ hp)).tail (h.exists_parent_iff.mpr ⟨hb, hp⟩)

theorem unrelated_iff (h : Links G s) {a b : ℕ} (ha : a ∈ s.blocks) (hb : b ∈ s.blocks) :
    s.Unrelated a b ↔ G.Unrelated a b := by
  rw [Blockchain.Unrelated, ParentGraph.Unrelated, h.ancestor_iff, h.ancestor_iff]
  simp only [ha, hb, true_and]

/-! ## pasts and futures -/

theorem mem_idsOf (_h : Links G s) {m : BitSet} {S : Finset ℕ} (hm : Denotes s.idOf m S) (a : ℕ) :
    a ∈ s.idsOf m ↔ a ∈ S := by
  rw [idsOf, mem_foldl_set_insert, ← hm.mem_map_forEach, List.mem_map]
  constructor
  · rintro (hno | ⟨i, hi, rfl⟩)
    · exact absurd hno ExtTreeSet.not_mem_empty
    · exact ⟨i, hi, rfl⟩
  · rintro ⟨i, hi, rfl⟩
    exact .inr ⟨i, hi, rfl⟩

theorem idx_eq_none (h : Links G s) {id : ℕ} (hid : id ∉ s.blocks) : s.idxOf[id]? = none :=
  Option.eq_none_iff_forall_ne_some.mpr fun _ hi => hid (h.mem_blocks_of_idx hi)

/-- **`GetPast`** returns the ancestors. -/
theorem mem_getPast_iff (h : Links G s) {id a : ℕ} :
    a ∈ s.getPast id ↔ id ∈ s.blocks ∧ a ∈ G.past id := by
  rw [getPast]
  by_cases hid : id ∈ s.blocks
  · obtain ⟨i, hidx, hi⟩ := h.exists_idx hid
    rw [hidx]
    simp only [h.mem_idsOf (h.past i id hi), hid, true_and]
  · rw [h.idx_eq_none hid]
    simp [hid]

/-- A bit of the row of `id`, looked up by ids. -/
theorem test_idxOf_iff (h : Links G s) {rows : ℕ → BitSet} {F : ℕ → Finset ℕ}
    (hrows : ∀ i b, s.idOf[i]? = some b → Denotes s.idOf (rows i) (F b)) {id a : ℕ} :
    (match s.idxOf[id]?, s.idxOf[a]? with
      | some i, some j => (rows i).test j
      | _, _ => false) = true ↔ id ∈ s.blocks ∧ a ∈ F id := by
  by_cases hid : id ∈ s.blocks
  · obtain ⟨i, hidx, hi⟩ := h.exists_idx hid
    rw [hidx]
    by_cases ha : a ∈ s.blocks
    · obtain ⟨j, hjdx, hj⟩ := h.exists_idx ha
      rw [hjdx]
      simp only [(hrows i id hi).test_iff hj, hid, true_and]
    · rw [h.idx_eq_none ha]
      simp only [Bool.false_eq_true, hid, true_and, false_iff]
      exact fun hp => ha ((h.mem_blocks a).mpr ((hrows i id hi).mem a hp))
  · rw [h.idx_eq_none hid]
    simp [hid]

/-- **`InPast`** decides ancestry. -/
theorem inPast_iff (h : Links G s) {id a : ℕ} :
    s.inPast id a = true ↔ id ∈ s.blocks ∧ a ∈ G.past id := h.test_idxOf_iff h.past

/-- **`GetFuture`** returns the accepted descendants. -/
theorem exists_getFuture (h : Links G s) (id : ℕ) :
    ∃ future, s.getFuture id = some future ∧
      ∀ a, a ∈ future ↔ a ∈ s.blocks ∧ id ∈ G.past a := by
  set U : Finset ℕ := s.blocks.keys.toFinset
  have hU : ∀ x, x ∈ U ↔ x ∈ s.blocks := fun x => by rw [List.mem_toFinset, ExtTreeMap.mem_keys]
  have hnd : (s.childList id).Nodup := nodup_of_pairwise_lt (pairwise_childList s id)
  have hinv : Search.Inv s.childList U (s.childList id) (ExtTreeSet.ofList (s.childList id)) []
      (s.childList id) := by
    constructor
    · exact hnd
    · intro x
      rw [List.nil_append, ExtTreeSet.mem_ofList]
      exact List.contains_iff_mem
    · exact fun x hx => (hU x).mpr ((h.children id x).mp hx).1
    · exact fun x hx => ⟨x, hx, .refl⟩
    · exact fun b hb => hb
    · exact fun x hx => absurd hx List.not_mem_nil
  obtain ⟨out, hrun, hout⟩ := Search.exists_loop
    (fun x _ c hc => (hU c).mpr ((h.children x c).mp hc).1) (s.blocks.size + 1) _ _ _ hinv
    (by rw [← size_eq_card]; simp)
  refine ⟨out, hrun, fun a => ?_⟩
  rw [hout, G.mem_past_iff]
  constructor
  · rintro ⟨b, hb, hreach⟩
    obtain ⟨hbm, hp⟩ := (h.children id b).mp hb
    induction hreach with
    | refl => exact ⟨hbm, .single hp⟩
    | tail _ hc ih =>
        obtain ⟨hcm, hcp⟩ := (h.children _ _).mp hc
        exact ⟨hcm, ih.2.tail hcp⟩
  · rintro ⟨ha, hanc⟩
    unfold ParentGraph.Anc at hanc
    induction hanc with
    | single hp => exact ⟨_, (h.children id _).mpr ⟨ha, hp⟩, .refl⟩
    | tail _ hp ih =>
        obtain ⟨b, hb, hreach⟩ := ih (h.closed _ ha _ hp)
        exact ⟨b, hb, hreach.tail ((h.children _ _).mpr ⟨ha, hp⟩)⟩

/-! ## clusters -/

/-- The inner loop counts the members unrelated to `b`. -/
theorem clusterLoop_iff (h : Links G s) {b bi : ℕ} (hbi : s.idOf[bi]? = some b)
    (xs : List ℕ) (hxs : ∀ x ∈ xs, x ∈ s.blocks) (ac : ℕ) (hac : ac ≤ s.anticoneLimit) :
    s.clusterLoop b bi xs ac = true ↔
      ac + xs.countP (fun x => G.Unrelated b x) ≤ s.anticoneLimit := by
  induction xs generalizing ac with
  | nil => simp [clusterLoop, hac]
  | cons x xs ih =>
      have ih := fun ac hac => ih (fun y hy => hxs y (List.mem_cons_of_mem x hy)) ac hac
      rw [clusterLoop, List.countP_cons]
      by_cases hx : x = b
      · subst hx
        simp only [if_true, ih ac hac, G.not_unrelated_self, decide_false, Bool.false_eq_true,
          if_false, Nat.add_zero]
      · obtain ⟨xi, hidx, hxi⟩ := h.exists_idx (hxs x List.mem_cons_self)
        have htest : (!(s.pastAt bi).test xi && !(s.pastAt xi).test bi) =
            decide (G.Unrelated b x) := by
          rw [Bool.eq_iff_iff, decide_eq_true_eq, ParentGraph.Unrelated, Bool.and_eq_true,
            Bool.not_eq_true', Bool.not_eq_true', ← Bool.not_eq_true, ← Bool.not_eq_true,
            (h.past bi b hbi).test_iff hxi, (h.past xi x hxi).test_iff hbi]
          constructor
          · exact fun hno => ⟨Ne.symm hx, hno.2, hno.1⟩
          · exact fun hno => ⟨hno.2.2, hno.2.1⟩
        simp only [if_neg hx, hidx, htest]
        by_cases hun : G.Unrelated b x
        · simp only [hun, decide_true, if_true]
          by_cases hlim : s.anticoneLimit < ac + 1
          · rw [if_pos hlim]
            simp only [Bool.false_eq_true, false_iff]
            omega
          · rw [if_neg hlim, ih (ac + 1) (Nat.le_of_not_lt hlim)]
            omega
        · simp only [hun, decide_false, Bool.false_eq_true, if_false, ih ac hac, Nat.add_zero]

/-- **`IsKCluster`** of stored blocks is the cluster condition. -/
theorem isKCluster_iff (h : Links G s) {bs : ExtTreeSet ℕ} {S : Finset ℕ}
    (hbs : ∀ x, x ∈ bs ↔ x ∈ S) (hS : ∀ x ∈ S, x ∈ s.blocks) :
    s.isKCluster bs = true ↔ Greedy.Cluster G.Unrelated s.anticoneLimit S := by
  have hlist : ∀ x, x ∈ bs.toList ↔ x ∈ S := fun x => by rw [ExtTreeSet.mem_toList, hbs]
  have hcount : ∀ b, bs.toList.countP (fun x => G.Unrelated b x) =
      (Greedy.conflicts G.Unrelated S b).card := by
    intro b
    have hnd := (nodup_of_pairwise_lt (pairwise_toList bs)).filter fun x => G.Unrelated b x
    rw [List.countP_eq_length_filter, ← List.toFinset_card_of_nodup hnd]
    congr 1
    ext x
    simp [hlist]
  rw [isKCluster, List.all_eq_true]
  constructor
  · intro hall b hb
    obtain ⟨bi, hidx, hbi⟩ := h.exists_idx (hS b hb)
    have hloop := hall b ((hlist b).mpr hb)
    rw [hidx] at hloop
    have hle := (h.clusterLoop_iff hbi bs.toList (fun x hx => hS x ((hlist x).mp hx)) 0
      (Nat.zero_le _)).mp hloop
    rwa [Nat.zero_add, hcount] at hle
  · intro hcl b hb
    have hbS := (hlist b).mp hb
    obtain ⟨bi, hidx, hbi⟩ := h.exists_idx (hS b hbS)
    rw [hidx]
    refine (h.clusterLoop_iff hbi bs.toList (fun x hx => hS x ((hlist x).mp hx)) 0
      (Nat.zero_le _)).mpr ?_
    rw [Nat.zero_add, hcount]
    exact hcl b hbS

end Links

namespace Coloured

/-- **`BlueSet`** returns the blue set. -/
theorem mem_blueSet_iff (h : Coloured W G s) {id a : ℕ} :
    a ∈ s.blueSet id ↔ id ∈ s.blocks ∧ a ∈ GhostDag.blue G s.anticoneLimit id := by
  rw [blueSet]
  by_cases hid : id ∈ s.blocks
  · obtain ⟨i, hidx, hi⟩ := h.exists_idx hid
    rw [hidx]
    simp only [h.mem_idsOf (h.blue i id hi), hid, true_and]
  · rw [h.idx_eq_none hid]
    simp [hid]

/-- **`InBlueSet`** decides membership in the blue set. -/
theorem inBlueSet_iff (h : Coloured W G s) {id a : ℕ} :
    s.inBlueSet id a = true ↔ id ∈ s.blocks ∧ a ∈ GhostDag.blue G s.anticoneLimit id :=
  h.test_idxOf_iff h.blue

theorem size_blueSet (h : Coloured W G s) {id : ℕ} (hid : id ∈ s.blocks) :
    (s.blueSet id).size = score G s.anticoneLimit id := by
  have hnd := nodup_of_pairwise_lt (pairwise_toList (s.blueSet id))
  rw [← ExtTreeSet.length_toList, ← List.toFinset_card_of_nodup hnd, score]
  congr 1
  ext a
  rw [List.mem_toFinset, ExtTreeSet.mem_toList, h.mem_blueSet_iff]
  simp [hid]

/-! ## the priority ordering -/

/-- The priority queue takes out one of its elements. -/
theorem lawful_popTop (s : Blockchain) : Kahn.Lawful s.popTop where
  nil := rfl
  cons q hq := by
    cases q with
    | nil => exact absurd rfl hq
    | cons a q =>
        have hmem : ∀ (l : List ℕ) (top : ℕ), l.foldl
            (fun top b => if s.lowerPriority top b then b else top) top ∈ top :: l := by
          intro l
          induction l with
          | nil => simp
          | cons b l ih =>
              intro top
              rw [List.foldl_cons]
              have := ih (if s.lowerPriority top b then b else top)
              rw [List.mem_cons] at this
              obtain heq | hl := this
              · rw [heq]
                split <;> simp
              · exact List.mem_cons_of_mem _ (List.mem_cons_of_mem _ hl)
        exact ⟨_, _, rfl, List.perm_cons_erase (hmem q a)⟩

/-- The queue looks at the scores and the creation times of the stored blocks
only. -/
theorem popTop_congr {s s' : Blockchain}
    (h : ∀ id : ℕ, s'.blocks[id]?.map (fun b => (b.blueScore, b.header.timeCreated)) =
      s.blocks[id]?.map fun b => (b.blueScore, b.header.timeCreated)) : s'.popTop = s.popTop := by
  have hlow : s'.lowerPriority = s.lowerPriority := by
    funext x y
    have hx := h x
    have hy := h y
    unfold lowerPriority
    cases hbx : s.blocks[x]? with
    | none =>
        rw [hbx] at hx
        rw [Option.map_eq_none_iff.mp hx]
    | some bx =>
        rw [hbx] at hx
        obtain ⟨bx', hbx', hxeq⟩ := Option.map_eq_some_iff.mp hx
        rw [hbx']
        cases hby : s.blocks[y]? with
        | none =>
            rw [hby] at hy
            rw [Option.map_eq_none_iff.mp hy]
        | some by' =>
            rw [hby] at hy
            obtain ⟨by'', hby', hyeq⟩ := Option.map_eq_some_iff.mp hy
            rw [Prod.mk.injEq] at hxeq hyeq
            rw [hby']
            simp only [hxeq.1, hxeq.2, hyeq.1, hyeq.2]
  funext q
  cases q with
  | nil => rfl
  | cons a q => rw [popTop, popTop, hlow]

/-- **The priority ordering is a run of Kahn's algorithm** over all stored
blocks. -/
theorem computeGhostdagOrdering_eq (h : Coloured W G s) :
    s.computeGhostdagOrdering = Kahn.order s.popTop G.parents s.blocks.keys := by
  have hindeg : (s.blocks.map fun _ b => b.parents.countP s.hasBlock) =
      Kahn.indegrees G.parents s.blocks.keys := by
    apply ExtTreeMap.ext_getElem?
    intro id
    rw [ExtTreeMap.getElem?_map]
    by_cases hid : id ∈ s.blocks
    · obtain ⟨b, hb⟩ := mem_iff_exists.mp hid
      rw [hb, Kahn.getElem?_indegrees, if_pos (ExtTreeMap.mem_keys.mpr hid), ← h.parents id b hb]
      simp only [Option.map_some, Option.some.injEq]
      apply List.countP_congr
      intro p _
      simp [hasBlock, ExtTreeMap.contains_iff_mem, ExtTreeMap.mem_keys]
    · rw [getElem?_eq_none_of_notMem hid,
        Kahn.getElem?_indegrees, if_neg (mt ExtTreeMap.mem_keys.mp hid)]
      rfl
  have hsuccs : s.childList = fun p => s.blocks.keys.filter fun c => p ∈ G.parents c := by
    funext p
    apply eq_of_pairwise_lt (Links.pairwise_childList s p) ((pairwise_keys s.blocks).filter _)
    intro c
    rw [h.children, List.mem_filter, ExtTreeMap.mem_keys, decide_eq_true_eq]
  rw [computeGhostdagOrdering, Kahn.order, hindeg, hsuccs, ExtTreeMap.length_keys]

theorem exists_computeGhostdagOrdering (h : Coloured W G s) :
    ∃ order, s.computeGhostdagOrdering = some order := by
  obtain ⟨-, out, hout, -⟩ := Kahn.exists_order (lawful_popTop s) G.parents
    (nodup_of_pairwise_lt (pairwise_keys s.blocks))
  exact ⟨out, h.computeGhostdagOrdering_eq.trans hout⟩

end Coloured

end GhostDag
