import GhostDag.Dag.Delivery

/-!
# GhostDag.Dag.Release

The mutual recursion `AddBlock` / `ProcessOrphans`.

`Holding d ids s` says that `s` holds exactly the blocks of the delivery `d`
with an id in `ids`, each accepted or as an orphan.  Every nested call has
taken an orphan out first, so the recursion ends (`processesUpTo`),
and it ends in a state with no releasable orphan left; then the accepted
blocks are the least set `Accepted` (`mem_blocks_iff`).
-/

namespace GhostDag

open Std (ExtTreeMap ExtTreeSet)
open Containers Blockchain

/-- `s` holds the blocks of `d` with an id in `ids`. -/
structure Holding (d : Delivery) (ids : Finset ℕ) (s : Blockchain) : Prop where
  rep : Rep d.block d.graph s
  delivered : ∀ id ∈ ids, ∃ b ∈ d.blocks, b.id = id
  mem_iff : ∀ id : ℕ, (id ∈ s.blocks ∨ id ∈ s.orphans) ↔ id = 0 ∨ id ∈ ids
  disjoint : ∀ id ∈ s.blocks, id ∉ s.orphans
  orphan : ∀ (id : ℕ) (b : Block), s.orphans[id]? = some b → b ∈ d.blocks ∧ b.id = id

/-- `s'` continues `s`: more blocks may be accepted, at the end of the index
tables. -/
structure Continues (s s' : Blockchain) : Prop where
  ghostdagK : s'.ghostdagK = s.ghostdagK
  nextBlockId : s'.nextBlockId = s.nextBlockId
  nodeIdMetric : s'.nodeIdMetric = s.nodeIdMetric
  idOf : s.idOf <+: s'.idOf
  blocks : ∀ id ∈ s.blocks, id ∈ s'.blocks

theorem Continues.refl (s : Blockchain) : Continues s s :=
  ⟨rfl, rfl, rfl, List.prefix_rfl, fun _ h => h⟩

theorem Continues.trans {s s' s'' : Blockchain} (h : Continues s s') (h' : Continues s' s'') :
    Continues s s'' where
  ghostdagK := h'.ghostdagK.trans h.ghostdagK
  nextBlockId := h'.nextBlockId.trans h.nextBlockId
  nodeIdMetric := h'.nodeIdMetric.trans h.nodeIdMetric
  idOf := h.idOf.trans h'.idOf
  blocks id hid := h'.blocks id (h.blocks id hid)

/-- The orphans touched least: `s'` continues `s` without a new orphan. -/
structure Extends (s s' : Blockchain) : Prop extends Continues s s' where
  orphans : ∀ (id : ℕ) (b : Block), s'.orphans[id]? = some b → s.orphans[id]? = some b

theorem Extends.refl (s : Blockchain) : Extends s s := ⟨.refl s, fun _ _ h => h⟩

theorem Extends.trans {s s' s'' : Blockchain} (h : Extends s s') (h' : Extends s' s'') :
    Extends s s'' :=
  ⟨h.toContinues.trans h'.toContinues, fun id b hb => h.orphans id b (h'.orphans id b hb)⟩

theorem Extends.mem_orphans {s s' : Blockchain} (h : Extends s s') {id : ℕ}
    (hid : id ∈ s'.orphans) : id ∈ s.orphans := by
  obtain ⟨b, hb⟩ := mem_iff_exists.mp hid
  exact mem_of_getElem? (h.orphans id b hb)

/-- Taking an orphan out. -/
theorem extends_eraseOrphan (s : Blockchain) (oid : ℕ) : Extends s (s.eraseOrphan oid) where
  toContinues := ⟨rfl, rfl, rfl, List.prefix_rfl, fun _ h => h⟩
  orphans id b h := by
    rw [eraseOrphan, getElem?_erase] at h
    split at h
    · exact absurd h.symm (Option.some_ne_none b)
    · exact h

variable {d : Delivery} {ids : Finset ℕ} {s s' : Blockchain} {nb : Block}

theorem canAdd_iff : s.canAdd nb = true ↔ ∀ p ∈ nb.parents, p ∈ s.blocks := by
  simp [canAdd, hasBlock, ExtTreeMap.contains_iff_mem]

theorem mem_readyOrphans {oid : ℕ} :
    oid ∈ s.readyOrphans ↔ ∃ b, s.orphans[oid]? = some b ∧ s.canAdd b = true := by
  simp [readyOrphans, ExtTreeMap.mem_toList_iff_getElem?_eq_some]

/-- Releasable orphans stay releasable. -/
theorem Extends.canAdd (h : Extends s s') (hcan : s.canAdd nb = true) :
    s'.canAdd nb = true :=
  canAdd_iff.mpr fun p hp => h.blocks p (canAdd_iff.mp hcan p hp)

/-! ## more fuel, same result -/

/-- One more level of recursion does not change a result. -/
theorem fuel_succ (fuel : ℕ) :
    (∀ s nb s', addBlockFuel fuel s nb = some s' → addBlockFuel (fuel + 1) s nb = some s') ∧
      ∀ s s', processOrphansFuel fuel s = some s' → processOrphansFuel (fuel + 1) s = some s' := by
  induction fuel with
  | zero =>
      constructor
      · intro s nb s' h
        rw [addBlockFuel] at h
        exact absurd h.symm (Option.some_ne_none s')
      · intro s s' h
        rw [processOrphansFuel] at h
        exact absurd h.symm (Option.some_ne_none s')
  | succ fuel ih =>
      constructor
      · intro s nb s' h
        rw [addBlockFuel] at h ⊢
        split
        · next hcan =>
            rw [if_pos hcan] at h
            obtain ⟨s₁, hins, hproc⟩ := Option.bind_eq_some_iff.mp h
            exact Option.bind_eq_some_iff.mpr ⟨s₁, hins, ih.2 s₁ s' hproc⟩
        · next hcan =>
            rw [if_neg hcan] at h
            exact h
      · intro s s' h
        rw [processOrphansFuel] at h ⊢
        obtain ⟨st, hfold, hrest⟩ := Option.bind_eq_some_iff.mp h
        refine Option.bind_eq_some_iff.mpr ⟨st, foldlM_mono ?_ hfold, ?_⟩
        · intro a oid b hround
          rw [releaseOne] at hround ⊢
          cases horph : a.1.orphans[oid]? with
          | none =>
              rw [horph] at hround
              exact hround
          | some ob =>
              rw [horph] at hround
              obtain ⟨s₁, hadd, hret⟩ := Option.bind_eq_some_iff.mp hround
              exact Option.bind_eq_some_iff.mpr ⟨s₁, ih.1 _ _ _ hadd, hret⟩
        · obtain ⟨s₁, progress⟩ := st
          cases progress with
          | false => exact hrest
          | true => exact ih.2 s₁ s' hrest

theorem addBlockFuel_mono {fuel fuel' : ℕ} (hle : fuel ≤ fuel')
    (h : addBlockFuel fuel s nb = some s') : addBlockFuel fuel' s nb = some s' := by
  induction hle with
  | refl => exact h
  | step _ ih => exact (fuel_succ _).1 s nb s' ih

/-! ## one insertion -/

namespace Holding

/-- The blocks held as accepted are acceptable. -/
theorem accepted (h : Holding d ids s) {id : ℕ} (hid : id ∈ s.blocks) : Accepted d.blocks id := by
  induction id using d.graph.wf.induction with
  | _ id ih =>
    obtain rfl | hmem := (h.mem_iff id).mp (.inl hid)
    · exact .genesis
    · obtain ⟨b, hb, rfl⟩ := h.delivered id hmem
      have hpar : b.parents = d.graph.parents b.id := by
        rw [← (h.rep.world b.id hid).2, d.block_id hb]
      refine .step hb fun p hp => ?_
      rw [hpar] at hp
      exact ih p hp (h.rep.closed b.id hid p hp)

/-- **Accepting a block that is held nowhere yet.** -/
theorem exists_insertBlock (h : Holding d ids s) (hnb : nb ∈ d.blocks) (hid : nb.id ∉ ids)
    (hcan : s.canAdd nb = true) :
    ∃ s', s.insertBlock nb = some s' ∧ Holding d (insert nb.id ids) s' ∧ Extends s s' ∧
      s'.orphans = s.orphans := by
  have hmem := canAdd_iff.mp hcan
  have hnew : ¬ (nb.id ∈ s.blocks ∨ nb.id ∈ s.orphans) := by
    rw [h.mem_iff]
    exact not_or.mpr ⟨d.id_ne_zero hnb, hid⟩
  rw [not_or] at hnew
  have hpar := d.parents_of_mem hnb fun p hp => h.accepted (hmem p hp)
  obtain ⟨s₁, hins, hrep, hg⟩ :=
    h.rep.exists_insertBlock hnew.1 (d.block_id hnb) hpar hmem
  have hblocks : ∀ id, id ∈ s₁.blocks ↔ id = nb.id ∨ id ∈ s.blocks := by
    intro id
    rw [hrep.mem_blocks, hg.idOf, List.mem_append, List.mem_singleton, h.rep.mem_blocks]
    exact or_comm
  refine ⟨s₁, hins, ⟨hrep, ?_, ?_, ?_, ?_⟩, ⟨⟨hg.ghostdagK, hg.nextBlockId, hg.nodeIdMetric, ?_,
    fun id hid => (hblocks id).mpr (.inr hid)⟩, fun id b hb => hg.orphans ▸ hb⟩, hg.orphans⟩
  · intro id hid
    obtain rfl | hid := Finset.mem_insert.mp hid
    · exact ⟨nb, hnb, rfl⟩
    · exact h.delivered id hid
  · intro id
    have hold := h.mem_iff id
    rw [hblocks, hg.orphans, Finset.mem_insert]
    tauto
  · intro id hid
    rw [hg.orphans]
    obtain rfl | hid := (hblocks id).mp hid
    · exact hnew.2
    · exact h.disjoint id hid
  · rw [hg.orphans]
    exact h.orphan
  · rw [hg.idOf]
    exact List.prefix_append _ _

/-- Holding a block as an orphan. -/
theorem insertOrphan (h : Holding d ids s) (hnb : nb ∈ d.blocks) (hid : nb.id ∉ ids) :
    Holding d (insert nb.id ids) (s.insertOrphan nb) where
  rep := h.rep.withOrphans _ _
  delivered id hmem := by
    obtain rfl | hmem := Finset.mem_insert.mp hmem
    · exact ⟨nb, hnb, rfl⟩
    · exact h.delivered id hmem
  mem_iff id := by
    have hold := h.mem_iff id
    rw [Blockchain.insertOrphan, mem_insert, Finset.mem_insert]
    tauto
  disjoint id hb := by
    rw [Blockchain.insertOrphan, mem_insert, not_or]
    refine ⟨?_, h.disjoint id hb⟩
    rintro rfl
    exact ((h.mem_iff nb.id).mp (.inl hb)).elim (d.id_ne_zero hnb) hid
  orphan id b hb := by
    rw [Blockchain.insertOrphan, getElem?_insert] at hb
    split at hb
    · next heq =>
        rw [Option.some.injEq] at hb
        subst hb
        exact ⟨hnb, heq.symm⟩
    · exact h.orphan id b hb

/-- Taking an orphan out of the state. -/
theorem eraseOrphan (h : Holding d ids s) {oid : ℕ} (hoid : oid ∈ s.orphans) :
    Holding d (ids.erase oid) (s.eraseOrphan oid) where
  rep := h.rep.withOrphans _ _
  delivered id hmem := h.delivered id (Finset.mem_of_mem_erase hmem)
  mem_iff id := by
    have hold := h.mem_iff id
    rw [Blockchain.eraseOrphan, mem_erase, Finset.mem_erase]
    by_cases hid : id = oid
    · subst hid
      obtain ⟨b, hb⟩ := mem_iff_exists.mp hoid
      obtain ⟨hbd, hbid⟩ := h.orphan id b hb
      have hne : id ≠ 0 := hbid ▸ d.id_ne_zero hbd
      have hno : id ∉ s.blocks := fun hb => h.disjoint id hb hoid
      tauto
    · tauto
  disjoint id hb := by
    rw [Blockchain.eraseOrphan, mem_erase]
    exact fun h' => h.disjoint id hb h'.2
  orphan id b hb := h.orphan id b ((extends_eraseOrphan s oid).orphans id b hb)

/-! ## the recursion -/

/-- What `AddBlock` and `ProcessOrphans` achieve: the blocks `ids` are held,
nothing is lost, and no orphan could be released. -/
structure Released (d : Delivery) (ids : Finset ℕ) (s s' : Blockchain) : Prop where
  holding : Holding d ids s'
  extends_ : Extends s s'
  ready : s'.readyOrphans = []

/-- `ProcessOrphans` from states with up to `n` orphans. -/
def ProcessesUpTo (d : Delivery) (n : ℕ) : Prop :=
  ∀ (fuel : ℕ) (ids : Finset ℕ) (s : Blockchain), Holding d ids s → s.orphans.size ≤ n →
    2 * n + 1 ≤ fuel → ∃ s', processOrphansFuel fuel s = some s' ∧ Released d ids s s'

/-- `AddBlock` of a block that can be added, given `ProcessOrphans`. -/
theorem exists_addBlockFuel {n : ℕ} (hproc : ProcessesUpTo d n) (h : Holding d ids s)
    (hsize : s.orphans.size ≤ n) {fuel : ℕ} (hfuel : 2 * n + 2 ≤ fuel) (hnb : nb ∈ d.blocks)
    (hid : nb.id ∉ ids) (hcan : s.canAdd nb = true) :
    ∃ s', addBlockFuel fuel s nb = some s' ∧ Released d (insert nb.id ids) s s' := by
  obtain ⟨s₁, hins, hhold, hext, horph⟩ := h.exists_insertBlock hnb hid hcan
  cases fuel with
  | zero => omega
  | succ fuel =>
      obtain ⟨s₂, hrun, hrel⟩ := hproc fuel _ s₁ hhold (by rw [horph]; exact hsize) (by omega)
      refine ⟨s₂, ?_, hrel.holding, hext.trans hrel.extends_, hrel.ready⟩
      rw [addBlockFuel, if_pos hcan, Option.bind_eq_bind, hins, Option.bind_some]
      exact hrun

/-- What the loop of `ProcessOrphans` relies on: in states with up to `n`
orphans, `add` accepts a block that can be added. -/
def AddsUpTo (d : Delivery) (n : ℕ) (add : Blockchain → Block → Option Blockchain) : Prop :=
  ∀ {ids : Finset ℕ} {s : Blockchain} {nb : Block}, Holding d ids s → s.orphans.size ≤ n →
    nb ∈ d.blocks → nb.id ∉ ids → s.canAdd nb = true →
    ∃ s', add s nb = some s' ∧ Released d (insert nb.id ids) s s'

/-- **One round over a snapshot of releasable orphans**: each one still there
when its turn comes is added; afterwards none of them is an orphan. -/
theorem exists_round {n : ℕ} {add : Blockchain → Block → Option Blockchain}
    (hadd : AddsUpTo d n add) (l : List ℕ) (st : Blockchain × Bool) (h : Holding d ids st.1)
    (hsize : st.1.orphans.size ≤ n + 1)
    (hl : ∀ oid ∈ l, ∀ b, st.1.orphans[oid]? = some b → st.1.canAdd b = true) :
    ∃ st', l.foldlM (releaseOne add) st = some st' ∧
      Holding d ids st'.1 ∧ Extends st.1 st'.1 ∧ (∀ oid ∈ l, oid ∉ st'.1.orphans) ∧
      (st'.2 = true ↔ st.2 = true ∨ ∃ oid ∈ l, oid ∈ st.1.orphans) := by
  induction l generalizing st with
  | nil => exact ⟨st, rfl, h, .refl st.1, by simp, by simp⟩
  | cons oid l ih =>
      cases horph : st.1.orphans[oid]? with
      | none =>
          obtain ⟨st', hrun, hhold, hext, hgone, hflag⟩ := ih st h hsize
            fun x hx => hl x (List.mem_cons_of_mem oid hx)
          have hno : oid ∉ st.1.orphans := fun hm => by
            obtain ⟨b, hb⟩ := mem_iff_exists.mp hm
            exact Option.some_ne_none b (hb.symm.trans horph)
          refine ⟨st', ?_, hhold, hext, ?_, ?_⟩
          · rw [List.foldlM_cons, releaseOne, horph]
            exact hrun
          · intro x hx
            obtain rfl | hx := List.mem_cons.mp hx
            · exact fun hm => hno (hext.mem_orphans hm)
            · exact hgone x hx
          · rw [hflag]
            simp [hno]
      | some ob =>
          have hoid : oid ∈ st.1.orphans := mem_of_getElem? horph
          obtain ⟨hobd, hobid⟩ := h.orphan oid ob horph
          have herase := extends_eraseOrphan st.1 oid
          have hsmaller : (st.1.orphans.erase oid).size < st.1.orphans.size :=
            size_lt_of_subset (fun a ha => (mem_erase.mp ha).2) hoid
              (fun hm => (mem_erase.mp hm).1 rfl)
          obtain ⟨s₁, hrun₁, hrel⟩ := hadd (h.eraseOrphan hoid)
            (Nat.le_of_lt_succ (hsmaller.trans_le hsize)) hobd
            (by rw [hobid]; exact Finset.notMem_erase oid ids)
            (herase.canAdd (hl oid List.mem_cons_self ob horph))
          have hback : insert ob.id (ids.erase oid) = ids := by
            rw [hobid]
            refine Finset.insert_erase ?_
            obtain h0 | hmem := (h.mem_iff oid).mp (.inr hoid)
            · exact absurd (hobid.trans h0) (d.id_ne_zero hobd)
            · exact hmem
          have hhold₁ : Holding d ids s₁ := hback ▸ hrel.holding
          have hext₁ : Extends st.1 s₁ := herase.trans hrel.extends_
          obtain ⟨st', hrun, hhold, hext, hgone, hflag⟩ := ih (s₁, true) hhold₁
            ((size_le_of_subset fun a ha => hext₁.mem_orphans ha).trans hsize)
            fun x hx b hb =>
              hext₁.canAdd (hl x (List.mem_cons_of_mem oid hx) b (hext₁.orphans x b hb))
          refine ⟨st', ?_, hhold, hext₁.trans hext, ?_, ?_⟩
          · rw [List.foldlM_cons, releaseOne, horph]
            simp only [hrun₁, Option.bind_eq_bind, Option.bind_some]
            exact hrun
          · intro x hx
            obtain rfl | hx := List.mem_cons.mp hx
            · exact fun hm =>
                (mem_erase.mp (hrel.extends_.mem_orphans (hext.mem_orphans hm))).1 rfl
            · exact hgone x hx
          · rw [hflag]
            simp [hoid]

/-- **`ProcessOrphans` ends**, with no releasable orphan left. -/
theorem processesUpTo (d : Delivery) (n : ℕ) : ProcessesUpTo d n := by
  induction n with
  | zero =>
      intro fuel ids s h hsize hfuel
      have hready : s.readyOrphans = [] := by
        rw [List.eq_nil_iff_forall_not_mem]
        intro oid hoid
        obtain ⟨b, hb, -⟩ := mem_readyOrphans.mp hoid
        have hlt : (∅ : ExtTreeMap ℕ Block).size < s.orphans.size :=
          size_lt_of_subset (by simp) (mem_of_getElem? hb) (by simp)
        omega
      cases fuel with
      | zero => omega
      | succ fuel =>
          refine ⟨s, ?_, h, .refl s, hready⟩
          rw [processOrphansFuel, hready]
          rfl
  | succ n ih =>
      intro fuel ids s h hsize hfuel
      cases fuel with
      | zero => omega
      | succ fuel =>
          have hadd : AddsUpTo d n (addBlockFuel fuel) := fun h hsize =>
            exists_addBlockFuel ih h hsize (show 2 * n + 2 ≤ fuel by omega)
          obtain ⟨⟨s₁, progress⟩, hrun, hhold, hext, hgone, hflag⟩ :=
            exists_round hadd s.readyOrphans (s, false) h hsize fun oid hoid b hb => by
              obtain ⟨b', hb', hcan⟩ := mem_readyOrphans.mp hoid
              rw [hb, Option.some.injEq] at hb'
              exact hb' ▸ hcan
          cases progress with
          | false =>
              have hready : s.readyOrphans = [] := by
                rw [List.eq_nil_iff_forall_not_mem]
                intro oid hoid
                obtain ⟨b, hb, -⟩ := mem_readyOrphans.mp hoid
                exact Bool.false_ne_true (hflag.mpr (.inr ⟨oid, hoid, mem_of_getElem? hb⟩))
              refine ⟨s, ?_, h, .refl s, hready⟩
              rw [processOrphansFuel, hready]
              rfl
          | true =>
              obtain ⟨oid, hoid, horph⟩ := (hflag.mp rfl).resolve_left Bool.false_ne_true
              have hsmaller : s₁.orphans.size < s.orphans.size :=
                size_lt_of_subset (fun a ha => hext.mem_orphans ha) horph (hgone oid hoid)
              obtain ⟨s₂, hrest, hrel⟩ := ih fuel ids s₁ hhold (by omega) (by omega)
              refine ⟨s₂, ?_, hrel.holding, hext.trans hrel.extends_, hrel.ready⟩
              rw [processOrphansFuel, hrun, Option.bind_eq_bind, Option.bind_some]
              exact hrest

/-! ## calls and runs -/

/-- Every orphan of a held state waits for a parent, when none is releasable. -/
theorem readyOrphans_insertOrphan (h : s.readyOrphans = []) (hcan : s.canAdd nb = false) :
    (s.insertOrphan nb).readyOrphans = [] := by
  rw [List.eq_nil_iff_forall_not_mem] at h ⊢
  intro oid hoid
  obtain ⟨b, hb, hadd⟩ := mem_readyOrphans.mp hoid
  rw [Blockchain.insertOrphan, getElem?_insert] at hb
  split at hb
  · rw [Option.some.injEq] at hb
    subst hb
    exact Bool.false_ne_true (hcan.symm.trans hadd)
  · exact h oid (mem_readyOrphans.mpr ⟨b, hb, hadd⟩)

/-- **A call of `AddBlock` returns**, whatever the depth allowed beyond
`2 * orphans + 4`, and holds one more block. -/
theorem exists_addBlock (h : Holding d ids s) (hready : s.readyOrphans = []) (hnb : nb ∈ d.blocks)
    (hid : nb.id ∉ ids) :
    ∃ s', s.addBlock nb = some s' ∧
      (∀ fuel, 2 * s.orphans.size + 4 ≤ fuel → addBlockFuel fuel s nb = some s') ∧
      Holding d (insert nb.id ids) s' ∧ s'.readyOrphans = [] ∧ Continues s s' := by
  cases hcan : s.canAdd nb with
  | true =>
      obtain ⟨s', hrun, hrel⟩ := exists_addBlockFuel (processesUpTo d s.orphans.size) h le_rfl
        (show 2 * s.orphans.size + 2 ≤ 2 * s.orphans.size + 4 by omega) hnb hid hcan
      exact ⟨s', hrun, fun fuel hle => addBlockFuel_mono hle hrun, hrel.holding, hrel.ready,
        hrel.extends_.toContinues⟩
  | false =>
      have hrun : ∀ fuel, addBlockFuel (fuel + 1) s nb = some (s.insertOrphan nb) := by
        intro fuel
        rw [addBlockFuel, hcan]
        rfl
      refine ⟨_, hrun _, fun fuel hle => ?_, h.insertOrphan hnb hid,
        readyOrphans_insertOrphan hready hcan, ⟨rfl, rfl, rfl, List.prefix_rfl, fun _ h => h⟩⟩
      cases fuel with
      | zero => omega
      | succ fuel => exact hrun fuel

/-- A sequence of calls. -/
theorem exists_foldlM_addBlock (h : Holding d ids s) (hready : s.readyOrphans = [])
    {bs : List Block} (hbs : ∀ b ∈ bs, b ∈ d.blocks) (hnd : (bs.map Block.id).Nodup)
    (hdisj : ∀ b ∈ bs, b.id ∉ ids) :
    ∃ s', bs.foldlM addBlock s = some s' ∧
      Holding d (ids ∪ (bs.map Block.id).toFinset) s' ∧ s'.readyOrphans = [] ∧ Continues s s' := by
  induction bs generalizing ids s with
  | nil => exact ⟨s, rfl, by simpa using h, hready, .refl s⟩
  | cons b bs ih =>
      obtain ⟨hb, hnd⟩ := List.nodup_cons.mp hnd
      obtain ⟨s₁, hadd, -, hhold, hready₁, hcont⟩ :=
        h.exists_addBlock hready (hbs b List.mem_cons_self) (hdisj b List.mem_cons_self)
      have hdisj₁ : ∀ x ∈ bs, x.id ∉ insert b.id ids := by
        intro x hx hmem
        obtain heq | hmem := Finset.mem_insert.mp hmem
        · exact hb (heq ▸ List.mem_map_of_mem hx)
        · exact hdisj x (List.mem_cons_of_mem b hx) hmem
      obtain ⟨s₂, hrest, hhold₂, hready₂, hcont₂⟩ :=
        ih hhold hready₁ (fun x hx => hbs x (List.mem_cons_of_mem b hx)) hnd hdisj₁
      refine ⟨s₂, ?_, ?_, hready₂, hcont.trans hcont₂⟩
      · rw [List.foldlM_cons, hadd]
        exact hrest
      · rw [List.map_cons, List.toFinset_cons, Finset.union_insert, ← Finset.insert_union]
        exact hhold₂

/-- A new chain holds nothing but genesis. -/
theorem init (d : Delivery) (k : Int32) (nodeId : ℕ) :
    Holding d ∅ (Blockchain.init k nodeId) where
  rep := rep_init d.block_zero d.parents_zero k nodeId
  delivered id h := absurd h (Finset.notMem_empty id)
  mem_iff id := by simpa [Blockchain.init] using eq_comm
  disjoint id _ := by simp [Blockchain.init]
  orphan id b h := by simp [Blockchain.init] at h

/-- **Which blocks are accepted**: the least set, once no orphan is
releasable. -/
theorem mem_blocks_iff (h : Holding d (d.blocks.map Block.id).toFinset s)
    (hready : s.readyOrphans = []) (id : ℕ) : id ∈ s.blocks ↔ Accepted d.blocks id := by
  refine ⟨h.accepted, fun hacc => ?_⟩
  induction hacc with
  | genesis => exact h.rep.nonempty
  | @step b hb _ ih =>
      have hmem : b.id ∈ (d.blocks.map Block.id).toFinset :=
        List.mem_toFinset.mpr (List.mem_map_of_mem hb)
      by_contra hno
      obtain ⟨ob, hob⟩ := mem_iff_exists.mp (((h.mem_iff b.id).mpr (.inr hmem)).resolve_left hno)
      obtain ⟨hobd, hobid⟩ := h.orphan b.id ob hob
      have heq : ob = b := by rw [← d.block_id hobd, hobid, d.block_id hb]
      have : b.id ∈ s.readyOrphans :=
        mem_readyOrphans.mpr ⟨ob, hob, heq ▸ canAdd_iff.mpr ih⟩
      rw [hready] at this
      exact List.not_mem_nil this

end Holding

/-! ## deliveries -/

/-- The state after delivering the blocks `bs` of `d`. -/
structure Delivered (d : Delivery) (k : Int32) (nodeId : ℕ) (bs : List Block) (s : Blockchain) :
    Prop where
  run : deliver k nodeId bs = some s
  holding : Holding d (bs.map Block.id).toFinset s
  ready : s.readyOrphans = []
  ghostdagK : s.ghostdagK = k

namespace Delivery

variable (d : Delivery) (k : Int32) (nodeId : ℕ)

/-- **Delivering blocks of `d`** ends in a state that represents a part of
the DAG of `d`. -/
theorem exists_delivered_of_subset {bs : List Block} (hbs : ∀ b ∈ bs, b ∈ d.blocks)
    (hnd : (bs.map Block.id).Nodup) : ∃ s, Delivered d k nodeId bs s := by
  obtain ⟨s, hrun, hhold, hready, hcont⟩ := (Holding.init d k nodeId).exists_foldlM_addBlock
    (by simp [readyOrphans, Blockchain.init]) hbs hnd fun b _ => Finset.notMem_empty b.id
  exact ⟨s, hrun, by simpa using hhold, hready, hcont.ghostdagK⟩

theorem exists_delivered : ∃ s, Delivered d k nodeId d.blocks s :=
  d.exists_delivered_of_subset k nodeId (fun _ h => h) d.nodup

/-- A delivery and one of its beginnings. -/
theorem exists_delivered_take (n : ℕ) : ∃ s, Delivered d k nodeId (d.take n).blocks s :=
  d.exists_delivered_of_subset k nodeId (fun _ h => List.mem_of_mem_take h) (d.take n).nodup

/-- **One more call.** -/
theorem exists_delivered_succ {n : ℕ} {s : Blockchain}
    (h : Delivered d k nodeId (d.take n).blocks s) {nb : Block} (hnb : d.blocks[n]? = some nb) :
    ∃ s', s.addBlock nb = some s' ∧ Delivered d k nodeId (d.take (n + 1)).blocks s' ∧
      Continues s s' := by
  have htake : (d.take (n + 1)).blocks = (d.take n).blocks ++ [nb] := by
    change d.blocks.take (n + 1) = d.blocks.take n ++ [nb]
    rw [List.take_add_one, hnb]
    rfl
  have hnd := (d.take (n + 1)).nodup
  rw [htake, List.map_append, List.nodup_append] at hnd
  have hid : nb.id ∉ ((d.take n).blocks.map Block.id).toFinset := by
    rw [List.mem_toFinset]
    exact fun hmem => hnd.2.2 nb.id hmem nb.id (by simp) rfl
  obtain ⟨s', hadd, -, hhold, hready, hcont⟩ :=
    h.holding.exists_addBlock h.ready (List.mem_of_getElem? hnb) hid
  refine ⟨s', hadd, ⟨?_, ?_, hready, hcont.ghostdagK.trans h.ghostdagK⟩, hcont⟩
  · have hrun := h.run
    rw [deliver] at hrun
    rw [deliver, htake, List.foldlM_append, hrun, Option.bind_eq_bind, Option.bind_some,
      List.foldlM_cons, hadd]
    rfl
  · rw [htake, List.map_append, List.toFinset_append, List.map_singleton, List.toFinset_cons,
      List.toFinset_nil, Finset.union_insert, Finset.union_empty]
    exact hhold

end Delivery

namespace Delivered

variable {k : Int32} {nodeId : ℕ} {bs : List Block}

/-- **An earlier state**: after the first `i` calls, from where the others lead
on. -/
theorem exists_earlier (h : Delivered d k nodeId d.blocks s) (i : ℕ) :
    ∃ s₀, Delivered d k nodeId (d.take i).blocks s₀ ∧
      (d.blocks.drop i).foldlM addBlock s₀ = some s ∧ Continues s₀ s := by
  obtain ⟨s₀, hs₀⟩ := d.exists_delivered_take k nodeId i
  have hsplit : d.blocks = (d.take i).blocks ++ d.blocks.drop i := (List.take_append_drop i _).symm
  have hnd := d.nodup
  rw [hsplit, List.map_append, List.nodup_append'] at hnd
  obtain ⟨-, hlater, hdisj⟩ := hnd
  obtain ⟨s', hrun, -, -, hcont⟩ := hs₀.holding.exists_foldlM_addBlock hs₀.ready
    (fun b hb => List.mem_of_mem_drop hb) hlater fun b hb hmem =>
      hdisj (List.mem_toFinset.mp hmem) (List.mem_map_of_mem hb)
  have hall : deliver k nodeId d.blocks = some s' := by
    have hrun₀ := hs₀.run
    rw [deliver] at hrun₀ ⊢
    rw [hsplit, List.foldlM_append, hrun₀]
    exact hrun
  obtain rfl := Option.some.inj (h.run.symm.trans hall)
  exact ⟨s₀, hs₀, hrun, hcont⟩

/-- The bound that the greedy pass compares against, for a `k` that is not
negative. -/
theorem anticoneLimit_eq (h : Delivered d k nodeId bs s) (hk : 0 ≤ k.toInt) :
    (s.anticoneLimit : ℤ) = k.toInt := by
  have hlt := k.toInt_lt
  rw [anticoneLimit, h.ghostdagK]
  omega

end Delivered

end GhostDag
