import GhostDag.Dag.Links

/-!
# GhostDag.Dag.Rep

The representation invariant of `Blockchain`, and its preservation by the
first steps of `AddBlock`: indexing, linking and colouring a block.

`Rep W G s` says that `s` stores a parent-closed part of the DAG `G`, in
which the block with id `id` was delivered as `W id`: the tables are linked
(`Links`), `blue_` caches the blue sets of `G`, scores and selected parents
are those of the colouring, `tips` are the sinks, and the colour flags are
those of the selected tip.  `Coloured` is the invariant without the flags,
which `AddBlock` re-evaluates last (`GhostDag.Dag.Insert`).
-/

namespace GhostDag

open Std (ExtTreeMap ExtTreeSet)
open Containers

/-- What the chain stores for a block delivered as `b`, given its colour
flag. -/
noncomputable def stored (G : ParentGraph ℕ) (k : ℕ) (flag : Bool) (b : Block) : Block :=
  { b with
    blueScore := score G k b.id
    selectedParent := (selectedParent G k b.id).getD b.selectedParent
    isBlue := flag }

/-- The invariant of a chain, colour flags aside. -/
structure Coloured (W : ℕ → Block) (G : ParentGraph ℕ) (s : Blockchain) : Prop
    extends Links G s where
  length_blue : s.blue.length = s.idOf.length
  blue : ∀ i id : ℕ, s.idOf[i]? = some id →
    Denotes s.idOf (s.blueAt i) (GhostDag.blue G s.anticoneLimit id)
  tips : ∀ id : ℕ, id ∈ s.tips ↔ id ∈ s.blocks ∧ ∀ c ∈ s.blocks, id ∉ G.parents c
  childKeys : ∀ p : ℕ, p ∈ s.children ↔ ∃ c ∈ s.blocks, p ∈ G.parents c
  world : ∀ id ∈ s.blocks, (W id).id = id ∧ (W id).parents = G.parents id
  block : ∀ (id : ℕ) (b : Block), s.blocks[id]? = some b →
    b = stored G s.anticoneLimit b.isBlue (W id)

/-- The tip that `SelectTip` returns, in terms of the colouring. -/
noncomputable def bestTip (G : ParentGraph ℕ) (s : Blockchain) : Option ℕ :=
  Best.pick (score G s.anticoneLimit) s.tips.toList

/-- The invariant of a chain between operations. -/
structure Rep (W : ℕ → Block) (G : ParentGraph ℕ) (s : Blockchain) : Prop
    extends Coloured W G s where
  nonempty : 0 ∈ s.blocks
  flag : ∀ (id : ℕ) (b : Block), s.blocks[id]? = some b → ∀ t, bestTip G s = some t →
    (b.isBlue = true ↔ id ∈ GhostDag.blue G s.anticoneLimit t)

/-- The orphans and the counter for mined blocks are none of its business. -/
theorem Rep.withOrphans {W : ℕ → Block} {G : ParentGraph ℕ} {s : Blockchain} (h : Rep W G s)
    (orphans : ExtTreeMap ℕ Block) (nextBlockId : ℕ) :
    Rep W G { s with orphans, nextBlockId } where
  idx_iff := h.idx_iff
  mem_blocks := h.mem_blocks
  parents := h.parents
  closed := h.closed
  children := h.children
  length_past := h.length_past
  past := h.past
  length_blue := h.length_blue
  blue := h.blue
  tips := h.tips
  childKeys := h.childKeys
  world := h.world
  block := h.block
  nonempty := h.nonempty
  flag := h.flag

/-- `s'` is `s` with one more block, and nothing else of it has changed that
a caller can see. -/
structure Grown (s s' : Blockchain) (id : ℕ) : Prop where
  ghostdagK : s'.ghostdagK = s.ghostdagK
  nextBlockId : s'.nextBlockId = s.nextBlockId
  nodeIdMetric : s'.nodeIdMetric = s.nodeIdMetric
  orphans : s'.orphans = s.orphans
  idOf : s'.idOf = s.idOf ++ [id]

variable {W : ℕ → Block} {G : ParentGraph ℕ} {s : Blockchain} {nb : Block}

/-! ## reading an aligned table -/

theorem getD_append_singleton {β : Type*} (l : List β) (x d : β) (i : ℕ) :
    (l ++ [x]).getD i d = if i = l.length then x else l.getD i d := by
  rw [List.getD_eq_getElem?_getD, List.getD_eq_getElem?_getD]
  by_cases hlt : i < l.length
  · rw [List.getElem?_append_left hlt, if_neg (by omega)]
  · rw [List.getElem?_append_right (Nat.le_of_not_lt hlt)]
    by_cases heq : i = l.length
    · simp [heq]
    · rw [if_neg heq, List.getElem?_eq_none (by simp; omega),
        List.getElem?_eq_none (Nat.le_of_not_lt hlt)]

theorem getElem?_append_singleton {l : List ℕ} {x i a : ℕ} :
    (l ++ [x])[i]? = some a ↔ l[i]? = some a ∨ (i = l.length ∧ a = x) := by
  by_cases hlt : i < l.length
  · rw [List.getElem?_append_left hlt]
    constructor
    · exact .inl
    · rintro (h | ⟨h, -⟩)
      · exact h
      · omega
  · rw [List.getElem?_append_right (Nat.le_of_not_lt hlt),
      List.getElem?_eq_none (Nat.le_of_not_lt hlt), List.getElem?_singleton]
    split
    · constructor
      · intro h
        rw [Option.some.injEq] at h
        exact .inr ⟨by omega, h.symm⟩
      · rintro (h | ⟨-, h⟩)
        · exact absurd h.symm (Option.some_ne_none a)
        · rw [h]
    · constructor
      · exact fun h => absurd h.symm (Option.some_ne_none a)
      · rintro (h | ⟨h, -⟩)
        · exact absurd h.symm (Option.some_ne_none a)
        · omega

/-! ## register and link -/

namespace Links

open Blockchain

/-- The union that `AddBlock` accumulates over the parents. -/
theorem exists_pastOf (h : Links G s) (hfresh : nb.id ∉ s.blocks) {ps : List ℕ}
    (hps : ∀ p ∈ ps, p ∈ s.blocks) {past : BitSet} {S : Finset ℕ}
    (hpast : Denotes s.idOf past S) :
    ∃ past', ps.foldlM (fun past p => do
        let pi ← (s.register nb).idxOf[p]?
        return (past.or ((s.register nb).pastAt pi)).set pi) past = some past' ∧
      Denotes s.idOf past' (S ∪ (ps.toFinset ∪ ps.toFinset.biUnion G.past)) := by
  induction ps generalizing past S with
  | nil => exact ⟨past, rfl, hpast.congr (by simp)⟩
  | cons p ps ih =>
      have hp : p ∈ s.blocks := hps p List.mem_cons_self
      obtain ⟨i, hidx, hi⟩ := h.exists_idx hp
      have hne : p ≠ nb.id := fun e => hfresh (e ▸ hp)
      have hreg : (s.register nb).idxOf[p]? = some i := by
        rw [register, getElem?_insert, if_neg hne, hidx]
      have hstep := (hpast.or (h.past i p hi)).set h.nodup hi
      obtain ⟨past', hfold, hden⟩ := ih (fun q hq => hps q (List.mem_cons_of_mem p hq)) hstep
      refine ⟨past', ?_, hden.congr ?_⟩
      · rw [List.foldlM_cons, hreg]
        exact hfold
      · ext a
        simp only [Finset.mem_union, Finset.mem_insert, List.toFinset_cons, Finset.biUnion_insert]
        tauto

/-- A block that is not stored is in no stored block's past. -/
theorem notMem_past_of_fresh (h : Links G s) {x id : ℕ} (hx : x ∉ s.blocks)
    (hid : id ∈ s.blocks) : x ∉ G.past id :=
  fun hp => hx (h.mem_blocks_of_mem_past hid hp)

/-- Folding the new edges into the child table. -/
theorem childList_link (s : Blockchain) (nb : Block) (past : BitSet) (p c : ℕ) :
    c ∈ (s.link nb past).childList p ↔ c ∈ s.childList p ∨ (p ∈ nb.parents ∧ c = nb.id) := by
  have hgen : ∀ (ps : List ℕ) (ch : ExtTreeMap ℕ (ExtTreeSet ℕ)),
      c ∈ ((ps.foldl (fun ch p => ch.insert p ((ch.getD p ∅).insert nb.id)) ch).getD p ∅) ↔
        c ∈ ch.getD p ∅ ∨ (p ∈ ps ∧ c = nb.id) := by
    intro ps
    induction ps with
    | nil => simp
    | cons q ps ih =>
        intro ch
        rw [List.foldl_cons, ih, ExtTreeMap.getD_insert]
        simp only [Std.compare_eq_iff_eq, List.mem_cons]
        by_cases hq : q = p
        · subst hq
          rw [if_pos rfl, mem_set_insert]
          tauto
        · rw [if_neg hq]
          have : p ≠ q := Ne.symm hq
          tauto
  have hlist : ∀ s' : Blockchain, c ∈ s'.childList p ↔ c ∈ s'.children.getD p ∅ := by
    intro s'
    rw [childList, ExtTreeMap.getD_eq_getD_getElem?]
    cases s'.children[p]? with
    | some cs => rw [Option.getD_some, ExtTreeSet.mem_toList]
    | none => simp
  rw [hlist, hlist]
  exact hgen nb.parents s.children

theorem mem_children_link (s : Blockchain) (nb : Block) (past : BitSet) (p : ℕ) :
    p ∈ (s.link nb past).children ↔ p ∈ s.children ∨ p ∈ nb.parents := by
  have hgen : ∀ (ps : List ℕ) (ch : ExtTreeMap ℕ (ExtTreeSet ℕ)),
      p ∈ ps.foldl (fun ch p => ch.insert p ((ch.getD p ∅).insert nb.id)) ch ↔
        p ∈ ch ∨ p ∈ ps := by
    intro ps
    induction ps with
    | nil => simp
    | cons q ps ih =>
        intro ch
        rw [List.foldl_cons, ih, mem_insert, List.mem_cons]
        tauto
  exact hgen nb.parents s.children

theorem mem_tips_link (s : Blockchain) (nb : Block) (past : BitSet) (t : ℕ) :
    t ∈ (s.link nb past).tips ↔ t = nb.id ∨ (t ∈ s.tips ∧ t ∉ nb.parents) := by
  rw [link, mem_set_insert, mem_foldl_set_erase]

/-- **Registering and linking a fresh block keeps the tables linked.** -/
theorem link (h : Links G s) (hfresh : nb.id ∉ s.blocks) (hpar : G.parents nb.id = nb.parents)
    (hmem : ∀ p ∈ nb.parents, p ∈ s.blocks) {past : BitSet}
    (hpast : Denotes s.idOf past (G.past nb.id)) :
    Links G ((s.register nb).link nb past) := by
  have hnot : nb.id ∉ s.idOf := mt (h.mem_blocks nb.id).mpr hfresh
  have hblocks : ∀ id, id ∈ ((s.register nb).link nb past).blocks ↔ id = nb.id ∨ id ∈ s.blocks :=
    fun id => mem_insert
  constructor
  case idx_iff =>
    intro id i
    rw [Blockchain.link, register, getElem?_append_singleton, getElem?_insert]
    by_cases hid : id = nb.id
    · subst hid
      simp only [if_true, Option.some.injEq, and_true]
      constructor
      · exact fun hi => .inr hi.symm
      · rintro (hi | hi)
        · exact absurd (List.mem_of_getElem? hi) hnot
        · exact hi.symm
    · rw [if_neg hid, h.idx_iff]
      simp [hid]
  case mem_blocks =>
    intro id
    rw [hblocks, Blockchain.link, register, List.mem_append, List.mem_singleton, h.mem_blocks]
    exact or_comm
  case parents =>
    intro id b hb
    rw [Blockchain.link, register, getElem?_insert] at hb
    split at hb
    · next hid =>
        rw [Option.some.injEq] at hb
        rw [hid, hpar, hb]
    · exact h.parents id b hb
  case closed =>
    intro id hid p hp
    rw [hblocks] at hid ⊢
    obtain rfl | hid := hid
    · exact .inr (hmem p (hpar ▸ hp))
    · exact .inr (h.closed id hid p hp)
  case children =>
    intro p c
    rw [childList_link, hblocks]
    have hold : c ∈ (s.register nb).childList p ↔ c ∈ s.blocks ∧ p ∈ G.parents c := h.children p c
    rw [hold, ← hpar]
    constructor
    · rintro (⟨hc, hp⟩ | ⟨hp, rfl⟩)
      · exact ⟨.inr hc, hp⟩
      · exact ⟨.inl rfl, hp⟩
    · rintro ⟨rfl | hc, hp⟩
      · exact .inr ⟨hp, rfl⟩
      · exact .inl ⟨hc, hp⟩
  case length_past =>
    rw [Blockchain.link, register, List.length_append, List.length_append, h.length_past]
    rfl
  case past =>
    intro i id hi
    rw [Blockchain.link, register, getElem?_append_singleton] at hi
    have hat : ((s.register nb).link nb past).pastAt i =
        if i = s.idOf.length then past else s.pastAt i := by
      rw [pastAt, Blockchain.link, register, getD_append_singleton, h.length_past]
      rfl
    rw [hat]
    obtain hi | ⟨rfl, rfl⟩ := hi
    · have hlt : i < s.idOf.length := (List.getElem?_eq_some_iff.mp hi).1
      rw [if_neg (by omega)]
      exact (h.past i id hi).append
        (h.notMem_past_of_fresh hfresh ((h.mem_blocks id).mpr (List.mem_of_getElem? hi)))
    · rw [if_pos rfl]
      exact hpast.append (G.notMem_past_self nb.id)

/-- The tables that `Links` speaks of, and the keys of `blocks`, decide it. -/
theorem of_eq (h : Links G s) {s' : Blockchain} (hidx : s'.idxOf = s.idxOf)
    (hid : s'.idOf = s.idOf) (hch : s'.children = s.children) (hpast : s'.past = s.past)
    (hmem : ∀ id, id ∈ s'.blocks ↔ id ∈ s.blocks)
    (hpar : ∀ (id : ℕ) (b : Block), s'.blocks[id]? = some b → b.parents = G.parents id) :
    Links G s' where
  idx_iff id i := by rw [hidx, hid]; exact h.idx_iff id i
  mem_blocks id := by rw [hmem, hid]; exact h.mem_blocks id
  parents := hpar
  closed id hb p hp := (hmem p).mpr (h.closed id ((hmem id).mp hb) p hp)
  children p c := by
    rw [childList, hch, hmem]
    exact h.children p c
  length_past := by rw [hpast, hid]; exact h.length_past
  past i id hi := by
    rw [hid] at hi ⊢
    rw [pastAt, hpast]
    exact h.past i id hi

end Links

/-! ## colouring the new block -/

namespace Coloured

open Blockchain

/-- The stored score of a block. -/
theorem exists_blueScore (h : Coloured W G s) {id : ℕ} (hid : id ∈ s.blocks) :
    ∃ b, s.blocks[id]? = some b ∧ b.blueScore = score G s.anticoneLimit id := by
  obtain ⟨b, hb⟩ := mem_iff_exists.mp hid
  refine ⟨b, hb, ?_⟩
  rw [h.block id b hb, stored, (h.world id hid).1]

/-- The blue set of a stored block lies within the stored blocks. -/
theorem mem_blocks_of_mem_blue (h : Coloured W G s) {x id : ℕ} (hid : id ∈ s.blocks)
    (hx : x ∈ GhostDag.blue G s.anticoneLimit id) : x ∈ s.blocks := by
  obtain rfl | hp := Finset.mem_insert.mp (blue_subset id hx)
  · exact hid
  · exact h.mem_blocks_of_mem_past hid hp

/-- The blue set of the newest block, as `AddBlock` computes it. -/
theorem exists_newBlue (h : Coloured W G s) (hfresh : nb.id ∉ s.blocks)
    (hpar : G.parents nb.id = nb.parents) (hmem : ∀ p ∈ nb.parents, p ∈ s.blocks) {past : BitSet}
    (hpast : Denotes s.idOf past (G.past nb.id)) :
    ∃ bl, ((s.register nb).link nb past).newBlue nb s.idOf.length past =
        some (bl, (selectedParent G s.anticoneLimit nb.id).getD nb.selectedParent) ∧
      Denotes (s.idOf ++ [nb.id]) bl (GhostDag.blue G s.anticoneLimit nb.id) := by
  have hl := h.toLinks.link hfresh hpar hmem hpast
  have hnew : (s.idOf ++ [nb.id])[s.idOf.length]? = some nb.id := by simp
  have hpast' : Denotes (s.idOf ++ [nb.id]) past (G.past nb.id) :=
    hpast.append (G.notMem_past_self nb.id)
  have hbest : ((s.register nb).link nb past).bestByScore nb.parents =
      some (selectedParent G s.anticoneLimit nb.id) := by
    rw [selectedParent, hpar]
    apply bestByScore_eq
    intro t ht
    obtain ⟨b, hb, hscore⟩ := h.exists_blueScore (hmem t ht)
    have hne : t ≠ nb.id := fun e => hfresh (e ▸ hmem t ht)
    exact ⟨b, by rw [Blockchain.link, register, getElem?_insert, if_neg hne, hb], hscore⟩
  rw [newBlue, hbest]
  cases hsp : selectedParent G s.anticoneLimit nb.id with
  | none =>
      refine ⟨_, rfl, ?_⟩
      rw [blue_eq, hsp]
      exact Denotes.empty.set hl.nodup hnew
  | some sp =>
      have hspmem : sp ∈ s.blocks :=
        hmem sp (hpar ▸ mem_parents_of_selectedParent hsp)
      obtain ⟨i, -, hi⟩ := h.exists_idx hspmem
      have hi' : (s.idOf ++ [nb.id])[i]? = some sp := getElem?_append_singleton.mpr (.inl hi)
      have hblue : Denotes (s.idOf ++ [nb.id]) (s.blueAt i)
          (GhostDag.blue G s.anticoneLimit sp) :=
        (h.blue i sp hi).append fun hx => hfresh (h.mem_blocks_of_mem_blue hspmem hx)
      obtain ⟨bl, hbl, hden⟩ := hl.exists_greedyBlueSet hnew hi' hsp hpast' hblue
      have hidx : ((s.register nb).link nb past).idxOf[sp]? = some i := (hl.idx_iff sp i).mpr hi'
      refine ⟨bl, ?_, hden⟩
      simp only [Option.bind_eq_bind, Option.bind_some, hidx, hbl]
      rfl

/-- **Colouring**: the newest block gets its blue set, its score and its
selected parent. -/
theorem exists_colour (h : Coloured W G s) (hfresh : nb.id ∉ s.blocks) (hW : W nb.id = nb)
    (hpar : G.parents nb.id = nb.parents) (hmem : ∀ p ∈ nb.parents, p ∈ s.blocks) {past : BitSet}
    (hpast : Denotes s.idOf past (G.past nb.id)) :
    ∃ s', ((s.register nb).link nb past).colour nb s.idOf.length past = some s' ∧
      Coloured W G s' ∧ Grown s s' nb.id := by
  have hl := h.toLinks.link hfresh hpar hmem hpast
  obtain ⟨bl, hbl, hden⟩ := h.exists_newBlue hfresh hpar hmem hpast
  have hpast' : Denotes (s.idOf ++ [nb.id]) past (G.past nb.id) :=
    hpast.append (G.notMem_past_self nb.id)
  have hscore : past.countAnd bl + 1 = score G s.anticoneLimit nb.id := by
    rw [score_eq, hpast'.countAnd hden hl.nodup]
  set nb' : Block := { nb with
    selectedParent := (selectedParent G s.anticoneLimit nb.id).getD nb.selectedParent
    blueScore := past.countAnd bl + 1 } with hnb'
  have hget : ∀ id : ℕ, ((s.blocks.insert nb.id nb).insert nb.id nb')[id]? =
      if id = nb.id then some nb' else s.blocks[id]? := by
    intro id
    rw [getElem?_insert, getElem?_insert]
    split <;> rfl
  have hkeys : ∀ id : ℕ, id ∈ (s.blocks.insert nb.id nb).insert nb.id nb' ↔
      id = nb.id ∨ id ∈ s.blocks := by
    intro id
    rw [mem_insert, mem_insert]
    tauto
  refine ⟨{ (s.register nb).link nb past with
      blocks := (s.blocks.insert nb.id nb).insert nb.id nb'
      blue := s.blue ++ [bl] }, ?_, ?_, ⟨rfl, rfl, rfl, rfl, rfl⟩⟩
  · rw [Blockchain.colour, hbl]
    rfl
  constructor
  case toLinks =>
    refine hl.of_eq rfl rfl rfl rfl (fun id => (hkeys id).trans mem_insert.symm) ?_
    intro id b hb
    simp only [hget] at hb
    split at hb
    · next hid =>
        rw [Option.some.injEq] at hb
        rw [hid, hpar, ← hb]
        rfl
    · exact h.parents id b hb
  case length_blue =>
    change (s.blue ++ [bl]).length = (s.idOf ++ [nb.id]).length
    rw [List.length_append, List.length_append, h.length_blue]
    rfl
  case blue =>
    intro i id hi
    have hat : ∀ i, (s.blue ++ [bl]).getD i ∅ =
        if i = s.idOf.length then bl else s.blueAt i := by
      intro i
      rw [getD_append_singleton, h.length_blue]
      rfl
    rw [Blockchain.blueAt, hat]
    obtain hi | ⟨rfl, rfl⟩ := getElem?_append_singleton.mp hi
    · have hid : id ∈ s.blocks := (h.mem_blocks id).mpr (List.mem_of_getElem? hi)
      have hlt : i < s.idOf.length := (List.getElem?_eq_some_iff.mp hi).1
      rw [if_neg (by omega)]
      exact (h.blue i id hi).append fun hx => hfresh (h.mem_blocks_of_mem_blue hid hx)
    · rw [if_pos rfl]
      exact hden
  case tips =>
    intro id
    have hsink : ∀ c ∈ s.blocks, nb.id ∉ G.parents c :=
      fun c hc hp => hfresh (h.closed c hc nb.id hp)
    have hself : nb.id ∉ G.parents nb.id := fun hp => hfresh (hmem nb.id (hpar ▸ hp))
    have htips : id ∈ ((s.register nb).link nb past).tips ↔
        id = nb.id ∨ (id ∈ s.tips ∧ id ∉ nb.parents) := Links.mem_tips_link _ nb past id
    refine htips.trans ?_
    simp only [hkeys, h.tips, ← hpar]
    constructor
    · rintro (rfl | ⟨⟨hid, hno⟩, hp⟩)
      · refine ⟨.inl rfl, ?_⟩
        rintro c (rfl | hc)
        · exact hself
        · exact hsink c hc
      · refine ⟨.inr hid, ?_⟩
        rintro c (rfl | hc)
        · exact hp
        · exact hno c hc
    · rintro ⟨rfl | hid, hno⟩
      · exact .inl rfl
      · exact .inr ⟨⟨hid, fun c hc => hno c (.inr hc)⟩, hno nb.id (.inl rfl)⟩
  case childKeys =>
    intro p
    have hch : p ∈ ((s.register nb).link nb past).children ↔ p ∈ s.children ∨ p ∈ nb.parents :=
      Links.mem_children_link _ nb past p
    refine hch.trans ?_
    rw [h.childKeys]
    simp only [hkeys, ← hpar, or_and_right, exists_or, exists_eq_left]
    exact or_comm
  case world =>
    intro id hid
    obtain rfl | hid := (hkeys id).mp hid
    · rw [hW, hpar]
      exact ⟨rfl, rfl⟩
    · exact h.world id hid
  case block =>
    intro id b hb
    simp only [hget] at hb
    split at hb
    · next hid =>
        rw [Option.some.injEq] at hb
        rw [hid, hW, stored, ← hb, hnb', hscore]
        rfl
    · exact h.block id b hb

end Coloured

end GhostDag
