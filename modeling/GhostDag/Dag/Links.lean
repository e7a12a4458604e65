import GhostDag.Colouring
import GhostDag.Dag.Blockchain
import GhostDag.Dag.Denotes

/-!
# GhostDag.Dag.Links

The structural half of the representation invariant, and what the read-only
functions of the greedy pass compute under it.  `Links G s` ties the
index-aligned tables of a `Blockchain` to a DAG `G`: the two id tables are
inverse to each other, parent lists are those of `G`, `children` is the
reverse relation, and `past_` caches `G.past`.

Under `Links`, `topologicalSort` is Kahn's order on ids
(`topologicalSort_eq`), and `greedyBlueSet` computes `GhostDag.blue`
(`exists_greedyBlueSet`).
-/

namespace GhostDag

open Std (ExtTreeMap ExtTreeSet)
open Containers

/-- The tables of `s` represent a piece of `G` closed under parents. -/
structure Links (G : ParentGraph ℕ) (s : Blockchain) : Prop where
  idx_iff : ∀ id i : ℕ, s.idxOf[id]? = some i ↔ s.idOf[i]? = some id
  mem_blocks : ∀ id : ℕ, id ∈ s.blocks ↔ id ∈ s.idOf
  parents : ∀ (id : ℕ) (b : Block), s.blocks[id]? = some b → b.parents = G.parents id
  closed : ∀ id ∈ s.blocks, ∀ p ∈ G.parents id, p ∈ s.blocks
  children : ∀ p c : ℕ, c ∈ s.childList p ↔ c ∈ s.blocks ∧ p ∈ G.parents c
  length_past : s.past.length = s.idOf.length
  past : ∀ i id : ℕ, s.idOf[i]? = some id → Denotes s.idOf (s.pastAt i) (G.past id)

namespace Links

open Blockchain

variable {G : ParentGraph ℕ} {s : Blockchain}

theorem nodup (h : Links G s) : s.idOf.Nodup := by
  rw [List.nodup_iff_getElem?_ne_getElem?]
  intro i j hij hj heq
  obtain ⟨a, ha⟩ : ∃ a, s.idOf[j]? = some a := ⟨_, List.getElem?_eq_getElem hj⟩
  have h₁ := (h.idx_iff a i).mpr (heq.trans ha)
  have h₂ := (h.idx_iff a j).mpr ha
  rw [h₁, Option.some.injEq] at h₂
  omega

/-- An accepted block has an index. -/
theorem exists_idx (h : Links G s) {id : ℕ} (hid : id ∈ s.blocks) :
    ∃ i, s.idxOf[id]? = some i ∧ s.idOf[i]? = some id := by
  obtain ⟨i, hi⟩ := List.mem_iff_getElem?.mp ((h.mem_blocks id).mp hid)
  exact ⟨i, (h.idx_iff id i).mpr hi, hi⟩

theorem mem_blocks_of_idx (h : Links G s) {id i : ℕ} (hi : s.idxOf[id]? = some i) :
    id ∈ s.blocks :=
  (h.mem_blocks id).mpr (List.mem_of_getElem? ((h.idx_iff id i).mp hi))

/-- Ancestors of accepted blocks are accepted. -/
theorem mem_blocks_of_mem_past (h : Links G s) {a b : ℕ} (hb : b ∈ s.blocks)
    (ha : a ∈ G.past b) : a ∈ s.blocks := by
  obtain ⟨i, -, hi⟩ := h.exists_idx hb
  exact (h.mem_blocks a).mpr ((h.past i b hi).mem a ha)

/-! ## TopologicalSort -/

theorem inSubset_iff (h : Links G s) {m : BitSet} {S : Finset ℕ} (hm : Denotes s.idOf m S)
    (id : ℕ) : s.inSubset m id = true ↔ id ∈ S := by
  unfold inSubset
  cases hid : s.idxOf[id]? with
  | some i => exact hm.test_iff ((h.idx_iff id i).mp hid)
  | none =>
      simp only [Bool.false_eq_true, false_iff]
      intro hS
      obtain ⟨i, hi⟩ := List.mem_iff_getElem?.mp (hm.mem id hS)
      rw [(h.idx_iff id i).mpr hi] at hid
      exact Option.some_ne_none i hid

theorem pairwise_childList (s : Blockchain) (p : ℕ) : (s.childList p).Pairwise (· < ·) := by
  unfold childList
  split
  · exact pairwise_toList _
  · exact List.Pairwise.nil

/-- **`TopologicalSort` is Kahn's order on ids**: indices and the blocks
outside the subset play no part. -/
theorem topologicalSort_eq (h : Links G s) {m : BitSet} {S : Finset ℕ}
    (hm : Denotes s.idOf m S) :
    s.topologicalSort m = Kahn.order Kahn.fifo G.parents (S.sort (· ≤ ·)) := by
  have hids : (m.forEach.map s.idAt).insertionSort (· ≤ ·) = S.sort (· ≤ ·) :=
    hm.insertionSort_map_forEach h.nodup
  have hmem : ∀ a, a ∈ S.sort (· ≤ ·) ↔ a ∈ S := fun a => Finset.mem_sort (· ≤ ·)
  have hcount : ∀ b, (G.parents b).countP (s.inSubset m) =
      (G.parents b).countP (· ∈ S.sort (· ≤ ·)) := by
    intro b
    apply List.countP_congr
    intro p _
    rw [h.inSubset_iff hm, decide_eq_true_eq, hmem]
  have hindeg : (S.sort (· ≤ ·)).foldlM (fun m' b => do
        let blk ← s.blocks[b]?
        return m'.insert b (blk.parents.countP (s.inSubset m))) (∅ : ExtTreeMap ℕ ℕ) =
      some (Kahn.indegrees G.parents (S.sort (· ≤ ·))) := by
    apply foldlM_eq_some
    intro b hb m'
    obtain ⟨blk, hblk⟩ :=
      mem_iff_exists.mp ((h.mem_blocks b).mpr (hm.mem b ((hmem b).mp hb)))
    rw [hblk, ← hcount b, ← h.parents b blk hblk]
    rfl
  have hsuccs : (fun cur => (s.childList cur).filter (s.inSubset m)) =
      fun p => (S.sort (· ≤ ·)).filter fun c => p ∈ G.parents c := by
    funext p
    apply eq_of_pairwise_lt ((pairwise_childList s p).filter _) ((pairwise_sort S).filter _)
    intro c
    rw [List.mem_filter, List.mem_filter, h.children, h.inSubset_iff hm, hmem, decide_eq_true_eq]
    constructor
    · rintro ⟨⟨-, hp⟩, hc⟩
      exact ⟨hc, hp⟩
    · rintro ⟨hc, hp⟩
      exact ⟨⟨(h.mem_blocks c).mpr (hm.mem c hc), hp⟩, hc⟩
  unfold topologicalSort
  simp only [hids, hsuccs]
  rw [hindeg]
  rfl

/-! ## the greedy pass -/

/-- The early exit of the counting callback does not affect the comparison
with the limit. -/
theorem visit_countAnticone_le_iff (s : Blockchain) (ci : ℕ) (l : List ℕ) (n : ℕ)
    (hn : n ≤ s.anticoneLimit) :
    BitSet.visit (s.countAnticone ci) l n ≤ s.anticoneLimit ↔
      n + (l.filter fun b => !(s.pastAt b).test ci).length ≤ s.anticoneLimit := by
  induction l generalizing n with
  | nil => simp [BitSet.visit]
  | cons b l ih =>
      rw [BitSet.visit, countAnticone]
      by_cases hb : (s.pastAt b).test ci = true
      · simp [hb, ih n hn]
      · rw [if_neg hb, List.filter_cons_of_pos (by simpa using hb), List.length_cons]
        by_cases hlim : s.anticoneLimit < n + 1
        · simp only [hlim, decide_true, Bool.not_true, Bool.false_eq_true, if_false]
          omega
        · simp only [hlim, decide_false, Bool.not_false, if_true]
          rw [ih (n + 1) (Nat.le_of_not_lt hlim)]
          omega

/-- What the callback counts: the blue blocks unrelated to the candidate. -/
theorem length_filter_eq_card_conflicts (h : Links G s) {bl : BitSet} {B : Finset ℕ}
    (hb : Denotes s.idOf bl B) {c ci : ℕ} (hci : s.idOf[ci]? = some c) (hc : c ∉ B) :
    ((bl.andNot (s.pastAt ci)).forEach.filter fun b => !(s.pastAt b).test ci).length =
      (Greedy.conflicts G.Unrelated B c).card := by
  have hdiff := hb.andNot (h.past ci c hci)
  rw [hdiff.card_filter h.nodup (q := fun b => c ∉ G.past b) fun i a hi => by
    rw [Bool.not_eq_true', ← Bool.not_eq_true, (h.past i a hi).test_iff hci]]
  congr 1
  ext b
  simp only [Finset.mem_filter, Finset.mem_sdiff, Greedy.mem_conflicts, ParentGraph.Unrelated]
  constructor
  · rintro ⟨⟨hbB, hbc⟩, hcb⟩
    exact ⟨hbB, fun h => hc (h ▸ hbB), hcb, hbc⟩
  · rintro ⟨hbB, -, hcb, hbc⟩
    exact ⟨⟨hbB, hbc⟩, hcb⟩

/-- One candidate of the greedy pass. -/
theorem exists_greedyStep (h : Links G s) {bl : BitSet} {B : Finset ℕ}
    (hb : Denotes s.idOf bl B) {c : ℕ} (hmem : c ∈ s.blocks) (hc : c ∉ B) :
    ∃ bl', s.greedyStep bl c = some bl' ∧ Denotes s.idOf bl'
      (if (Greedy.conflicts G.Unrelated B c).card ≤ s.anticoneLimit then insert c B else B) := by
  obtain ⟨ci, hidx, hci⟩ := h.exists_idx hmem
  have hle := visit_countAnticone_le_iff s ci (bl.andNot (s.pastAt ci)).forEach 0 (Nat.zero_le _)
  rw [Nat.zero_add, h.length_filter_eq_card_conflicts hb hci hc] at hle
  refine ⟨_, by rw [greedyStep, hidx]; rfl, ?_⟩
  simp only [BitSet.forEachAndNot, hle]
  split
  · exact hb.set h.nodup hci
  · exact hb

/-- The whole pass. -/
theorem exists_foldlM_greedyStep (h : Links G s) {l : List ℕ} {bl : BitSet} {B : Finset ℕ}
    (hb : Denotes s.idOf bl B) (hl : l.Nodup) (hmem : ∀ c ∈ l, c ∈ s.blocks)
    (hdisj : ∀ c ∈ l, c ∉ B) :
    ∃ bl', l.foldlM s.greedyStep bl = some bl' ∧
      Denotes s.idOf bl' (Greedy.pass G.Unrelated s.anticoneLimit B l) := by
  induction l generalizing bl B with
  | nil => exact ⟨bl, rfl, hb⟩
  | cons c l ih =>
      obtain ⟨hcl, hl⟩ := List.nodup_cons.mp hl
      obtain ⟨bl₁, hstep, hb₁⟩ :=
        h.exists_greedyStep hb (hmem c List.mem_cons_self) (hdisj c List.mem_cons_self)
      have hdisj₁ : ∀ x ∈ l, x ∉ if (Greedy.conflicts G.Unrelated B c).card ≤ s.anticoneLimit
          then insert c B else B := by
        intro x hx
        have hxB := hdisj x (List.mem_cons_of_mem c hx)
        split
        · exact fun hxi => (Finset.mem_insert.mp hxi).elim (fun e => hcl (e ▸ hx)) hxB
        · exact hxB
      obtain ⟨bl₂, hrest, hb₂⟩ :=
        ih hb₁ hl (fun x hx => hmem x (List.mem_cons_of_mem c hx)) hdisj₁
      refine ⟨bl₂, ?_, hb₂⟩
      rw [List.foldlM_cons, hstep]
      exact hrest

/-- What `GreedyBlueSet` adds its own index to: the blue set of the selected
parent, extended over the merge set.  The index itself need not be assigned
yet. -/
theorem exists_mergeBlue (h : Links G s) (idx : ℕ) {id sp spIdx : ℕ} {past : BitSet}
    (hsp : s.idOf[spIdx]? = some sp) (hpast : Denotes s.idOf past (G.past id))
    (hblue : Denotes s.idOf (s.blueAt spIdx) (blue G s.anticoneLimit sp)) :
    ∃ bl, s.greedyBlueSet idx spIdx past = some (bl.set idx) ∧
      Denotes s.idOf bl (Greedy.pass G.Unrelated s.anticoneLimit (blue G s.anticoneLimit sp)
        (mergeOrder G id sp)) := by
  have hmerge : Denotes s.idOf ((past.andNot (s.pastAt spIdx)).reset spIdx) (mergeSet G id sp) :=
    (hpast.andNot (h.past spIdx sp hsp)).reset h.nodup hsp
  have htopo : s.topologicalSort ((past.andNot (s.pastAt spIdx)).reset spIdx) =
      some (mergeOrder G id sp) := by
    rw [h.topologicalSort_eq hmerge, exists_mergeOrder]
  have hmem : ∀ c ∈ mergeOrder G id sp, c ∈ s.blocks := fun c hc =>
    (h.mem_blocks c).mpr (hmerge.mem c (mem_mergeSet_of_mem_mergeOrder hc))
  have hdisj : ∀ c ∈ mergeOrder G id sp, c ∉ blue G s.anticoneLimit sp := by
    intro c hc hcb
    obtain ⟨hne, -, hnp⟩ := mem_mergeSet.mp (mem_mergeSet_of_mem_mergeOrder hc)
    exact (Finset.mem_insert.mp (blue_subset sp hcb)).elim hne hnp
  obtain ⟨bl, hfold, hbl⟩ :=
    h.exists_foldlM_greedyStep hblue (nodup_mergeOrder id sp) hmem hdisj
  refine ⟨bl, ?_, hbl⟩
  simp only [greedyBlueSet, htopo, hfold, Option.bind_eq_bind, Option.bind_some]
  rfl

/-- **`GreedyBlueSet` computes the blue set** of a block from that of its
selected parent. -/
theorem exists_greedyBlueSet (h : Links G s) {id idx sp spIdx : ℕ} {past : BitSet}
    (hid : s.idOf[idx]? = some id) (hsp : s.idOf[spIdx]? = some sp)
    (hsel : selectedParent G s.anticoneLimit id = some sp)
    (hpast : Denotes s.idOf past (G.past id))
    (hblue : Denotes s.idOf (s.blueAt spIdx) (blue G s.anticoneLimit sp)) :
    ∃ bl, s.greedyBlueSet idx spIdx past = some bl ∧
      Denotes s.idOf bl (blue G s.anticoneLimit id) := by
  obtain ⟨bl, hrun, hbl⟩ := h.exists_mergeBlue idx hsp hpast hblue
  refine ⟨bl.set idx, hrun, ?_⟩
  rw [blue_of_selectedParent hsel]
  exact hbl.set h.nodup hid

end Links

/-- The scan for the best score, when every score it reads is there. -/
theorem Blockchain.bestByScore_eq {s : Blockchain} {ids : List ℕ} {f : ℕ → ℕ}
    (h : ∀ t ∈ ids, ∃ b, s.blocks[t]? = some b ∧ b.blueScore = f t) :
    s.bestByScore ids = some (Best.pick f ids) := by
  have hfold : ids.foldlM (fun best t => do
        let blk ← s.blocks[t]?
        return Best.step best (blk.blueScore, t)) (none : Option (ℕ × ℕ)) =
      some (ids.foldl (fun best t => Best.step best (f t, t)) none) := by
    apply foldlM_eq_some
    intro t ht best
    obtain ⟨b, hb, hscore⟩ := h t ht
    rw [hb, ← hscore]
    rfl
  unfold bestByScore
  rw [hfold, Best.pick, List.foldl_map]
  rfl

end GhostDag
