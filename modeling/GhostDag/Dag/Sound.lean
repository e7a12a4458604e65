import GhostDag.Dag.Release

/-!
# GhostDag.Dag.Sound

A chain as its owner sees it.  `Sound P s` says that `s` has come about by
handing `AddBlock` blocks with the property `P`, each under an id that was
held nowhere before; what has been delivered is not part of the statement.

A call of `AddBlock` with a fresh id keeps `Sound` (`Sound.exists_addBlock`),
whatever the new block: the representation invariant of the old blocks does
not depend on what else has been delivered (`Rep.congr`).
-/

namespace GhostDag

open Std (ExtTreeMap ExtTreeSet)
open Containers Blockchain

variable {W W' : ℕ → Block} {G G' : ParentGraph ℕ} {s s' : Blockchain} {nb : Block}

/-! ## what the invariant depends on -/

theorem bestTip_congr (h : Rep W G s) (hG : ∀ id ∈ s.blocks, G'.parents id = G.parents id) :
    bestTip G' s = bestTip G s := by
  have hagree : Agree G G' (· ∈ s.blocks) := ⟨h.closed, hG⟩
  exact Best.pick_congr fun t ht =>
    hagree.score_eq (h.mem_blocks_of_mem_tips (ExtTreeSet.mem_toList.mp ht))

/-- **The invariant looks at the stored blocks only.** -/
theorem Rep.congr (h : Rep W G s) (hW : ∀ id ∈ s.blocks, W' id = W id)
    (hG : ∀ id ∈ s.blocks, G'.parents id = G.parents id) : Rep W' G' s := by
  have hagree : Agree G G' (· ∈ s.blocks) := ⟨h.closed, hG⟩
  have hidx : ∀ {i id : ℕ}, s.idOf[i]? = some id → id ∈ s.blocks :=
    fun hi => (h.mem_blocks _).mpr (List.mem_of_getElem? hi)
  constructor
  case toColoured =>
    constructor
    case toLinks =>
      constructor
      case idx_iff => exact h.idx_iff
      case mem_blocks => exact h.mem_blocks
      case parents => exact fun id b hb => (h.parents id b hb).trans (hG id (mem_of_getElem? hb)).symm
      case closed => exact fun id hid p hp => h.closed id hid p (hG id hid ▸ hp)
      case children =>
        intro p c
        rw [h.children]
        exact and_congr_right fun hc => by rw [hG c hc]
      case length_past => exact h.length_past
      case past => exact fun i id hi => (h.past i id hi).congr (hagree.past_eq (hidx hi)).symm
    case length_blue => exact h.length_blue
    case blue => exact fun i id hi => (h.blue i id hi).congr (hagree.blue_eq (hidx hi)).symm
    case tips =>
      intro id
      rw [h.tips]
      exact and_congr_right fun _ => forall₂_congr fun c hc => by rw [hG c hc]
    case childKeys =>
      intro p
      rw [h.childKeys]
      exact exists_congr fun c => and_congr_right fun hc => by rw [hG c hc]
    case world =>
      intro id hid
      rw [hW id hid, hG id hid]
      exact h.world id hid
    case block =>
      intro id b hb
      have hid := mem_of_getElem? hb
      have hWid := (h.world id hid).1
      have hstored := h.block id b hb
      rw [hW id hid, stored, hWid, hagree.score_eq hid, hagree.selectedParent_eq hid]
      rwa [stored, hWid] at hstored
  case nonempty => exact h.nonempty
  case flag =>
    intro id b hb t ht
    rw [bestTip_congr h hG] at ht
    have htips := ExtTreeSet.mem_toList.mp (Best.pick_eq_some_iff.mp ht).1
    rw [hagree.blue_eq (h.mem_blocks_of_mem_tips htips)]
    exact h.flag id b hb t ht

/-- **What is held under a delivery is held under a larger one.** -/
theorem Holding.mono {d d' : Delivery} {ids : Finset ℕ} (h : Holding d ids s)
    (hsub : ∀ b ∈ d.blocks, b ∈ d'.blocks) : Holding d' ids s where
  rep := by
    have hblock : ∀ id ∈ s.blocks, d'.block id = d.block id := by
      intro id hid
      obtain rfl | hid := (h.mem_iff id).mp (.inl hid)
      · rfl
      · obtain ⟨b, hb, rfl⟩ := h.delivered id hid
        rw [d.block_id hb, d'.block_id (hsub b hb)]
    refine h.rep.congr hblock fun id hid => ?_
    have hacc := h.accepted hid
    rw [d.parents_of_accepted hacc, d'.parents_of_accepted (hacc.mono hsub), hblock id hid]
  delivered id hid := by
    obtain ⟨b, hb, hbid⟩ := h.delivered id hid
    exact ⟨b, hsub b hb, hbid⟩
  mem_iff := h.mem_iff
  disjoint := h.disjoint
  orphan id b hb := ⟨hsub b (h.orphan id b hb).1, (h.orphan id b hb).2⟩

/-! ## what a stored block keeps -/

/-- `b'` is `b` with other scores and flags. -/
structure SameBody (b b' : Block) : Prop where
  header : b'.header = b.header
  txs : b'.txs = b.txs

namespace SameBody

theorem refl (b : Block) : SameBody b b := ⟨rfl, rfl⟩

theorem symm {b b' : Block} (h : SameBody b b') : SameBody b' b := ⟨h.header.symm, h.txs.symm⟩

theorem trans {b b' b'' : Block} (h : SameBody b b') (h' : SameBody b' b'') : SameBody b b'' :=
  ⟨h'.header.trans h.header, h'.txs.trans h.txs⟩

theorem id {b b' : Block} (h : SameBody b b') : b'.id = b.id := by rw [Block.id, Block.id, h.header]

theorem parents {b b' : Block} (h : SameBody b b') : b'.parents = b.parents := by
  rw [Block.parents, Block.parents, h.header]

end SameBody

theorem Holding.sameBody {d : Delivery} {ids : Finset ℕ} (h : Holding d ids s) {id : ℕ} {b : Block}
    (hb : s.blocks[id]? = some b) : SameBody (d.block id) b := by
  rw [h.rep.block id b hb]
  exact ⟨rfl, rfl⟩

/-- The test with which owners of a chain guard their calls. -/
theorem held_eq_false_iff {id : ℕ} :
    (s.hasBlock id || s.isOrphan id) = false ↔ id ∉ s.blocks ∧ id ∉ s.orphans := by
  rw [hasBlock, isOrphan, Bool.or_eq_false_iff, ← Bool.not_eq_true, ← Bool.not_eq_true,
    ExtTreeMap.contains_iff_mem, ExtTreeMap.contains_iff_mem]

/-! ## chains under their owners' calls -/

/-- `s` holds blocks with the property `P`, under the invariant of chains. -/
def Sound (P : Block → Prop) (s : Blockchain) : Prop :=
  ∃ d : Delivery, (∀ b ∈ d.blocks, P b) ∧ Holding d (d.blocks.map Block.id).toFinset s ∧
    s.readyOrphans = []

namespace Sound

variable {P Q : Block → Prop}

theorem init (P : Block → Prop) (k : Int32) (nodeId : ℕ) : Sound P (Blockchain.init k nodeId) :=
  ⟨⟨[], List.nodup_nil, List.not_mem_nil⟩, fun _ hb => absurd hb List.not_mem_nil,
    Holding.init _ k nodeId, by simp [readyOrphans, Blockchain.init]⟩

theorem mono (h : Sound P s) (hPQ : ∀ b, P b → Q b) : Sound Q s := by
  obtain ⟨d, hd, hhold, hready⟩ := h
  exact ⟨d, fun b hb => hPQ b (hd b hb), hhold, hready⟩

/-- Genesis is held, as accepted. -/
theorem zero_mem (h : Sound P s) : 0 ∈ s.blocks := by
  obtain ⟨d, -, hhold, -⟩ := h
  exact hhold.rep.nonempty

theorem mem_blocks_of_mem_tips (h : Sound P s) {t : ℕ} (ht : t ∈ s.tips) : t ∈ s.blocks := by
  obtain ⟨d, -, hhold, -⟩ := h
  exact hhold.rep.mem_blocks_of_mem_tips ht

theorem disjoint (h : Sound P s) {id : ℕ} (hid : id ∈ s.blocks) : id ∉ s.orphans := by
  obtain ⟨d, -, hhold, -⟩ := h
  exact hhold.disjoint id hid

/-- **An accepted block keeps the header and the transactions it came with.** -/
theorem accepted (h : Sound P s) {id : ℕ} {b : Block} (hb : s.blocks[id]? = some b) :
    b.id = id ∧ (SameBody genesis b ∨ ∃ b₀, P b₀ ∧ SameBody b₀ b) := by
  obtain ⟨d, hd, hhold, -⟩ := h
  have hid := mem_of_getElem? hb
  have hbody := hhold.sameBody hb
  refine ⟨hbody.id.trans (hhold.rep.world id hid).1, ?_⟩
  obtain rfl | hmem := (hhold.mem_iff id).mp (.inl hid)
  · exact .inl hbody
  · obtain ⟨b₀, hb₀, rfl⟩ := hhold.delivered id hmem
    rw [d.block_id hb₀] at hbody
    exact .inr ⟨b₀, hd b₀ hb₀, hbody⟩

/-- An orphan is kept as it came. -/
theorem orphan (h : Sound P s) {id : ℕ} {b : Block} (hb : s.orphans[id]? = some b) :
    P b ∧ b.id = id := by
  obtain ⟨d, hd, hhold, -⟩ := h
  exact ⟨hd b (hhold.orphan id b hb).1, (hhold.orphan id b hb).2⟩

/-- The chain's counter for mined blocks is none of the invariant's business. -/
theorem setNextBlockId (h : Sound P s) (n : ℕ) : Sound P { s with nextBlockId := n } := by
  obtain ⟨d, hd, hhold, hready⟩ := h
  exact ⟨d, hd, ⟨hhold.rep.withOrphans _ n, hhold.delivered, hhold.mem_iff, hhold.disjoint,
    hhold.orphan⟩, hready⟩

/-- A delivery for the next call. -/
theorem exists_delivery (h : Sound P s) (hP : P nb) (hb : nb.id ∉ s.blocks)
    (ho : nb.id ∉ s.orphans) :
    ∃ (d : Delivery) (ids : Finset ℕ), (∀ b ∈ d.blocks, P b) ∧ Holding d ids s ∧ nb ∈ d.blocks ∧
      nb.id ∉ ids ∧ insert nb.id ids = (d.blocks.map Block.id).toFinset := by
  obtain ⟨d, hd, hhold, -⟩ := h
  have h0 : nb.id ≠ 0 := fun h0 => hb (h0 ▸ hhold.rep.nonempty)
  have hids : nb.id ∉ (d.blocks.map Block.id).toFinset := fun hmem =>
    ((hhold.mem_iff nb.id).mpr (.inr hmem)).elim hb ho
  refine ⟨d.append nb (fun hmem => hids (List.mem_toFinset.mpr hmem)) h0, _, ?_,
    hhold.mono fun b hb => List.mem_append_left _ hb, ?_, hids, ?_⟩
  · intro b hb
    obtain hb | hb := List.mem_append.mp hb
    · exact hd b hb
    · exact List.mem_singleton.mp hb ▸ hP
  · exact List.mem_append_right _ (List.mem_singleton_self nb)
  · simp only [Delivery.append, List.map_append, List.map_singleton, List.toFinset_append]
    rw [List.toFinset_cons, List.toFinset_nil, Finset.union_insert, Finset.union_empty]

end Sound

/-- What a call of `AddBlock` with the fresh block `nb` makes of a chain. -/
structure Added (P : Block → Prop) (s : Blockchain) (nb : Block) (s' : Blockchain) : Prop where
  run : s.addBlock nb = some s'
  sound : Sound P s'
  continues : Continues s s'
  held_iff : ∀ id, (id ∈ s'.blocks ∨ id ∈ s'.orphans) ↔
    (id ∈ s.blocks ∨ id ∈ s.orphans) ∨ id = nb.id
  old : ∀ (id : ℕ) (b b' : Block), s.blocks[id]? = some b → s'.blocks[id]? = some b' →
    SameBody b b'
  new : ∀ b', s'.blocks[nb.id]? = some b' → SameBody nb b'

namespace Sound

variable {P : Block → Prop}

/-- **A call of `AddBlock` with a fresh id** returns, keeps the invariant, and
holds exactly one more block. -/
theorem exists_addBlock (h : Sound P s) (hP : P nb) (hb : nb.id ∉ s.blocks)
    (ho : nb.id ∉ s.orphans) : ∃ s', Added P s nb s' := by
  obtain ⟨d, ids, hd, hhold, hnb, hids, hins⟩ := h.exists_delivery hP hb ho
  obtain ⟨-, -, -, hready⟩ := h
  obtain ⟨s', hrun, -, hhold', hready', hcont⟩ := hhold.exists_addBlock hready hnb hids
  refine ⟨s', hrun, ⟨d, hd, hins ▸ hhold', hready'⟩, hcont, fun id => ?_, ?_, ?_⟩
  · rw [hhold'.mem_iff, hhold.mem_iff, Finset.mem_insert]
    tauto
  · exact fun id b b' hb hb' => (hhold.sameBody hb).symm.trans (hhold'.sameBody hb')
  · exact fun b' hb' => d.block_id hnb ▸ hhold'.sameBody hb'

end Sound

end GhostDag
