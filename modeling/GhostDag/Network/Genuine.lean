import GhostDag.Network.Model
import GhostDag.Node.Traffic

/-!
# GhostDag.Network.Genuine

Block agreement across the network: whatever the interleaving, a block id
stands for one header and one set of transactions at all nodes, the ones its
miner created (`Network.Reachable.agreed`).

The invariant (`Consistent`) follows a body everywhere it can be: in the
chains and among the orphans, in the `BLOCK` messages in flight, and in the
store of shared bodies.  It rests on the ids: the upper half names the miner
and the lower half is its counter, so no id is given out twice.
-/

namespace GhostDag

open Std (ExtTreeMap ExtTreeSet)
open Containers Blockchain

/-- The block is, scores and flags aside, one that a miner created. -/
def Genuine (created : List Block) (b : Block) : Prop := ∃ m ∈ created, SameBody m b

theorem Genuine.mono {created created' : List Block} (hsub : ∀ m ∈ created, m ∈ created')
    {b : Block} (h : Genuine created b) : Genuine created' b := by
  obtain ⟨m, hm, hbody⟩ := h
  exact ⟨m, hsub m hm, hbody⟩

/-- The message carries genesis or a block that a miner created. -/
def GenuineWire (created : List Block) (w : WireBlock) : Prop :=
  w = encodeBlock genesis ∨ ∃ m ∈ created, w = encodeBlock m

theorem SameBody.encodeBlock {b b' : Block} (h : SameBody b b') :
    encodeBlock b' = encodeBlock b := by
  rw [GhostDag.encodeBlock, GhostDag.encodeBlock, h.header, h.txs]

namespace Network

variable {ι : Type} {setup : Setup ι} {g g' : Network ι}

/-- **The invariant of the network.** -/
structure Consistent (setup : Setup ι) (g : Network ι) : Prop where
  chain : ∀ i, Sound (Genuine g.created) (g.nodes i).blockchain
  next_pos : ∀ i, 0 < (g.nodes i).blockchain.nextBlockId
  /-- Created ids are below the counters of their miners. -/
  issued : ∀ m ∈ g.created, ∃ i k, m.id = (setup.config i).id * 2 ^ 32 + k ∧ 0 < k ∧ k < 2 ^ 32 ∧
    k < (g.nodes i).blockchain.nextBlockId
  nodup : (g.created.map Block.id).Nodup
  keyed : ∀ m ∈ g.created, m.txs.Keyed
  stored : ∀ m ∈ g.created, g.store[m.id]? = some m.txs
  store_keys : ∀ id ∈ g.store, id = 0 ∨ id ∈ g.created.map Block.id
  store_zero : ∀ body, g.store[0]? = some body → body = ∅
  sent : ∀ e ∈ g.sent, ∀ w, e.msg = .block w → GenuineWire g.created w

theorem consistent_init (setup : Setup ι) : Consistent setup (init setup) where
  chain i := .init _ _ _
  next_pos i := Nat.one_pos
  issued m hm := absurd hm List.not_mem_nil
  nodup := List.nodup_nil
  keyed m hm := absurd hm List.not_mem_nil
  stored m hm := absurd hm List.not_mem_nil
  store_keys id hid := by simp [init] at hid
  store_zero body hbody := by simp [init] at hbody
  sent e he := absurd he List.not_mem_nil

namespace Consistent

/-! ## what is held -/

/-- A held block is genesis or genuine. -/
theorem of_holds (h : Consistent setup g) {i : ι} {id : ℕ} {b : Block} (hb : g.Holds i id b) :
    b.id = id ∧ (SameBody genesis b ∨ Genuine g.created b) := by
  obtain hb | hb := hb
  · obtain ⟨hid, hgen | ⟨b₀, ⟨m, hm, hbody₀⟩, hbody⟩⟩ := (h.chain i).accepted hb
    · exact ⟨hid, .inl hgen⟩
    · exact ⟨hid, .inr ⟨m, hm, hbody₀.trans hbody⟩⟩
  · obtain ⟨hgen, hid⟩ := (h.chain i).orphan hb
    exact ⟨hid, .inr hgen⟩

theorem genuineWire_of_holds (h : Consistent setup g) {i : ι} {id : ℕ} {b : Block}
    (hb : g.Holds i id b) : GenuineWire g.created (encodeBlock b) := by
  obtain ⟨-, hgen | ⟨m, hm, hbody⟩⟩ := h.of_holds hb
  · exact .inl hgen.encodeBlock
  · exact .inr ⟨m, hm, hbody.encodeBlock⟩

theorem id_ne_zero (h : Consistent setup g) {m : Block} (hm : m ∈ g.created) : m.id ≠ 0 := by
  obtain ⟨i, k, hid, hpos, -⟩ := h.issued m hm
  omega

/-- Created blocks are told apart by their ids. -/
theorem eq_of_id_eq (h : Consistent setup g) {m m' : Block} (hm : m ∈ g.created)
    (hm' : m' ∈ g.created) (hid : m.id = m'.id) : m = m' :=
  List.inj_on_of_nodup_map h.nodup hm hm' hid

/-- **An id stands for one block.** -/
theorem sameBody (h : Consistent setup g) {i j : ι} {id : ℕ} {b b' : Block}
    (hb : g.Holds i id b) (hb' : g.Holds j id b') : SameBody b b' := by
  obtain ⟨hid, hgen | ⟨m, hm, hbody⟩⟩ := h.of_holds hb
  · obtain ⟨hid', hgen' | ⟨m', hm', hbody'⟩⟩ := h.of_holds hb'
    · exact hgen.symm.trans hgen'
    · exact absurd (hbody'.id.symm.trans (hid'.trans (hid.symm.trans hgen.id))) (h.id_ne_zero hm')
  · obtain ⟨hid', hgen' | ⟨m', hm', hbody'⟩⟩ := h.of_holds hb'
    · exact absurd (hbody.id.symm.trans (hid.trans (hid'.symm.trans hgen'.id))) (h.id_ne_zero hm)
    · obtain rfl := h.eq_of_id_eq hm hm'
        (hbody.id.symm.trans (hid.trans (hid'.symm.trans hbody'.id)))
      exact hbody.symm.trans hbody'

/-! ## the next mined id -/

variable {i : ι}

/-- No miner has given out the id that a miner is about to use. -/
theorem minedId_fresh (h : Consistent setup g)
    (hn : (g.nodes i).blockchain.nextBlockId < 2 ^ 32) :
    (g.nodes i).minedId (setup.config i) ≠ 0 ∧
      (g.nodes i).minedId (setup.config i) ∉ g.created.map Block.id := by
  rw [Node.minedId_eq hn]
  have hpos := h.next_pos i
  refine ⟨by omega, fun hmem => ?_⟩
  obtain ⟨m, hm, hid⟩ := List.mem_map.mp hmem
  obtain ⟨j, k, hissued, -, hk, hlt⟩ := h.issued m hm
  have hij : (setup.config j).id = (setup.config i).id := by omega
  obtain rfl := setup.injective hij
  omega

/-- So it is held nowhere. -/
theorem minedId_not_held (h : Consistent setup g)
    (hn : (g.nodes i).blockchain.nextBlockId < 2 ^ 32) (j : ι) :
    (g.nodes i).minedId (setup.config i) ∉ (g.nodes j).blockchain.blocks ∧
      (g.nodes i).minedId (setup.config i) ∉ (g.nodes j).blockchain.orphans := by
  obtain ⟨hne, hnew⟩ := h.minedId_fresh hn
  have hnot : ∀ b, ¬ g.Holds j ((g.nodes i).minedId (setup.config i)) b := by
    intro b hb
    obtain ⟨hid, hgen | ⟨m, hm, hbody⟩⟩ := h.of_holds hb
    · exact hne (hid.symm.trans hgen.id)
    · exact hnew (List.mem_map.mpr ⟨m, hm, hbody.id.symm.trans hid⟩)
  constructor
  · intro hmem
    obtain ⟨b, hb⟩ := mem_iff_exists.mp hmem
    exact hnot b (.inl hb)
  · intro hmem
    obtain ⟨b, hb⟩ := mem_iff_exists.mp hmem
    exact hnot b (.inr hb)

/-! ## decoding -/

/-- Another store of bodies. -/
theorem setStore (h : Consistent setup g) {store : BlockBodyStore}
    (hstored : ∀ m ∈ g.created, store[m.id]? = some m.txs)
    (hkeys : ∀ id ∈ store, id = 0 ∨ id ∈ g.created.map Block.id)
    (hzero : ∀ body, store[0]? = some body → body = ∅) : Consistent setup { g with store } :=
  ⟨h.chain, h.next_pos, h.issued, h.nodup, h.keyed, hstored, hkeys, hzero, h.sent⟩

/-- **Decoding a message in flight** gives a block that its miner created, or
genesis, and keeps the store right. -/
theorem decodeBlock (h : Consistent setup g) {e : Envelope ι} (he : e ∈ g.sent) {w : WireBlock}
    (hw : e.msg = .block w) :
    Consistent setup { g with store := (decodeBlock g.store w).2 } ∧
      ((decodeBlock g.store w).1.id = 0 ∨ Genuine g.created (decodeBlock g.store w).1) := by
  obtain rfl | ⟨m, hm, rfl⟩ := h.sent e he w hw
  · refine ⟨?_, .inl rfl⟩
    have hbody : TxSet.ofList genesis.txs.list = ∅ := TxSet.keyed_empty.ofList_list
    have hdecode : (GhostDag.decodeBlock g.store (encodeBlock genesis)).2 =
        (g.store.intern 0 ∅).2 := by
      rw [GhostDag.decodeBlock, encodeBlock, hbody]
      rfl
    rw [hdecode, BlockBodyStore.intern]
    cases hzero : g.store[0]? with
    | some body =>
        change Consistent setup { g with store := (if _ then (body, g.store) else (∅, g.store)).2 }
        split
        · exact h
        · exact h
    | none =>
        refine h.setStore (fun m hm => ?_) (fun id hid => ?_) (fun body hget => ?_)
        · rw [getElem?_insert, if_neg (h.id_ne_zero hm)]
          exact h.stored m hm
        · exact (mem_insert.mp hid).elim .inl (h.store_keys id)
        · rw [getElem?_insert, if_pos rfl] at hget
          exact (Option.some.inj hget).symm
  · obtain ⟨hheader, htxs, hstore⟩ := decodeBlock_encodeBlock (h.stored m hm) (h.keyed m hm)
    rw [hstore]
    exact ⟨h, .inr ⟨m, hm, hheader, htxs⟩⟩

/-! ## what reaches a node -/

/-- What the nodes rely on when they handle an event: a block comes from its
miner, and a miner's counter fits the lower half of an id. -/
def Proper (g : Network ι) (i : ι) : Node.Event → Prop
  | .handleBlock b _ => b.id = 0 ∨ Genuine g.created b
  | .mineBlock _ => (g.nodes i).blockchain.nextBlockId < 2 ^ 32
  | _ => True

/-- **Every action is proper.** -/
theorem event (h : Consistent setup g) {a : Action ι} {store : BlockBodyStore} {e : Node.Event}
    (hev : event setup g a = some (i, store, e)) :
    Consistent setup { g with store } ∧ Proper g i e := by
  cases a with
  | deliver index j draw =>
      obtain ⟨env, henv, hev⟩ := Option.bind_eq_some_iff.mp hev
      have hmem := List.mem_of_getElem? henv
      split at hev
      · cases hmsg : env.msg with
        | block w =>
            rw [hmsg] at hev
            cases hev
            exact h.decodeBlock hmem hmsg
        | _ =>
            rw [hmsg] at hev
            cases hev
            exact ⟨h, trivial⟩
      · exact absurd hev.symm (Option.some_ne_none _)
  | mine j pick =>
      rw [Network.event] at hev
      split at hev
      · next hn =>
          cases hev
          exact ⟨h, hn⟩
      · exact absurd hev.symm (Option.some_ne_none _)
  | timeout j blockHash pick =>
      cases hev
      exact ⟨h, trivial⟩
  | txTimeouts j pick =>
      cases hev
      exact ⟨h, trivial⟩
  | flush j =>
      cases hev
      exact ⟨h, trivial⟩
  | generate j fee =>
      cases hev
      exact ⟨h, trivial⟩

/-- The handlers call `AddBlock` with ids that the chain does not hold, and so
do the calls below. -/
theorem fresh (h : Consistent setup g) {now : ℚ} {e : Node.Event} {call call' : Call}
    (he : Proper g i e)
    (hadd : Node.AddsBlock (setup.config i) now g.store (g.nodes i) e call)
    (hcalls : Calls call call') : Fresh call' := by
  cases hadd with
  | @handleBlock b peer hnew =>
      have hheld := held_eq_false_iff.mp hnew
      obtain h0 | ⟨m, hm, hbody⟩ := he
      · exact absurd (h0 ▸ (h.chain i).zero_mem) hheld.1
      · have hgen : Genuine g.created (Node.received now b peer) :=
          ⟨m, hm, hbody.header, hbody.txs⟩
        exact (h.chain i).fresh_of_calls hgen hheld hcalls
  | @mineBlock pick =>
      have hchain : Sound (fun _ => True) (Node.countBlock (g.nodes i).blockchain) :=
        ((h.chain i).mono fun _ _ => trivial).setNextBlockId _
      refine hchain.fresh_of_calls trivial ?_ hcalls
      exact h.minedId_not_held he i

/-! ## one event -/

variable [DecidableEq ι]

/-- A node has changed and sent messages, without creating a block. -/
theorem put (h : Consistent setup g) {n : Node} {sends : Sends}
    (hchain : Sound (Genuine g.created) n.blockchain)
    (hnext : n.blockchain.nextBlockId = (g.nodes i).blockchain.nextBlockId)
    (hsends : ∀ s ∈ sends, ∀ w, s.2 = .block w → GenuineWire g.created w) :
    Consistent setup (g.put i n sends) := by
  have hcounter : ∀ j, ((g.put i n sends).nodes j).blockchain.nextBlockId =
      (g.nodes j).blockchain.nextBlockId := by
    intro j
    by_cases hj : j = i
    · subst hj
      rw [put_nodes_self, hnext]
    · rw [put_nodes_of_ne g n sends hj]
  constructor
  case chain =>
    intro j
    by_cases hj : j = i
    · subst hj
      rw [put_nodes_self]
      exact hchain
    · rw [put_nodes_of_ne g n sends hj]
      exact h.chain j
  case next_pos => exact fun j => (hcounter j).symm ▸ h.next_pos j
  case issued =>
    intro m hm
    obtain ⟨j, k, hid, hpos, hk, hlt⟩ := h.issued m hm
    exact ⟨j, k, hid, hpos, hk, (hcounter j).symm ▸ hlt⟩
  case nodup => exact h.nodup
  case keyed => exact h.keyed
  case stored => exact h.stored
  case store_keys => exact h.store_keys
  case store_zero => exact h.store_zero
  case sent =>
    intro e he w hw
    obtain he | ⟨s, hs, rfl⟩ := mem_put_sent.mp he
    · exact h.sent e he w hw
    · exact hsends s hs w hw

theorem quiet (h : Consistent setup g) {n : Node} {sends : Sends}
    (hq : (g.nodes i).Quiet n sends) : Consistent setup (g.put i n sends) :=
  h.put (hq.blockchain ▸ h.chain i) (by rw [hq.blockchain])
    fun s hs w hw => absurd hw (hq.noBlocks s hs w)

/-- **An incoming block**: genesis, or one that a miner created. -/
theorem handleBlock (h : Consistent setup g) {now : ℚ} {b : Block} {peer : Ipv4Address}
    {r : Node × Sends} (hb : b.id = 0 ∨ Genuine g.created b)
    (hrun : (g.nodes i).handleBlock (setup.config i) now b peer = some r) :
    Consistent setup (g.put i r.1 r.2) := by
  obtain ⟨hquiet, ⟨-, hsame⟩ | ⟨hnew, hadd⟩⟩ := Node.blockchain_handleBlock hrun
  · exact h.quiet ⟨hsame, hquiet⟩
  · have hheld := held_eq_false_iff.mp hnew
    obtain h0 | ⟨m, hm, hbody⟩ := hb
    · exact absurd (h0 ▸ (h.chain i).zero_mem) hheld.1
    · have hgen : Genuine g.created (Node.received now b peer) := ⟨m, hm, hbody.header, hbody.txs⟩
      obtain ⟨s', hs'⟩ := (h.chain i).exists_addBlock hgen hheld.1 hheld.2
      obtain rfl := Option.some.inj (hs'.run.symm.trans hadd)
      exact h.put hs'.sound hs'.continues.nextBlockId fun s hs w hw => absurd hw (hquiet s hs w)

/-- **A new block.** -/
theorem mineBlock (h : Consistent setup g) {now : ℚ} {pick : ℕ → ℕ × ℕ}
    {store' : BlockBodyStore} {n : Node} {sends : Sends}
    (hn : (g.nodes i).blockchain.nextBlockId < 2 ^ 32)
    (hrun : (g.nodes i).mineBlock (setup.config i) now pick g.store = some (store', n, sends)) :
    Consistent setup { g.put i n sends with
      store := store'
      created := g.created ++
        createdBy (setup.config i) now g.store (g.nodes i) (.mineBlock pick) } := by
  obtain ⟨hquiet, rfl, hadd⟩ := Node.blockchain_mineBlock hrun
  obtain ⟨hne, hnew⟩ := h.minedId_fresh hn
  have hkeyed := Node.keyed_selectTransactions (setup.config i) pick (g.nodes i).mempool
  set id := (g.nodes i).minedId (setup.config i) with hid
  set txs := (Node.selectTransactions (setup.config i) pick (g.nodes i).mempool).1 with htxs
  have hstore : g.store.intern id txs = (txs, g.store.insert id txs) := by
    have hnot : id ∉ g.store := fun hmem => (h.store_keys id hmem).elim hne hnew
    rw [BlockBodyStore.intern, getElem?_eq_none_of_notMem hnot]
  rw [hstore] at hadd ⊢
  set nb := (g.nodes i).mined (setup.config i) now txs with hnb
  have hnbid : nb.id = id := rfl
  have hcreated : createdBy (setup.config i) now g.store (g.nodes i) (.mineBlock pick) = [nb] := by
    rw [createdBy, ← htxs, ← hid, hstore]
  rw [hcreated]
  have hmono : ∀ {b : Block}, Genuine g.created b → Genuine (g.created ++ [nb]) b :=
    Genuine.mono fun m hm => List.mem_append_left _ hm
  have hheld := h.minedId_not_held hn i
  have hchain : Sound (Genuine (g.created ++ [nb])) (Node.countBlock (g.nodes i).blockchain) :=
    ((h.chain i).mono fun b => hmono).setNextBlockId _
  have hgen : Genuine (g.created ++ [nb]) nb :=
    ⟨nb, List.mem_append_right _ (List.mem_singleton_self nb), .refl nb⟩
  obtain ⟨s', hs'⟩ := hchain.exists_addBlock hgen hheld.1 hheld.2
  obtain rfl := Option.some.inj (hs'.run.symm.trans hadd)
  have hnext : n.blockchain.nextBlockId = (g.nodes i).blockchain.nextBlockId + 1 :=
    hs'.continues.nextBlockId
  have hnodes : ∀ j, ((g.put i n sends).nodes j).blockchain.nextBlockId =
      (g.nodes j).blockchain.nextBlockId + if j = i then 1 else 0 := by
    intro j
    by_cases hj : j = i
    · subst hj
      rw [put_nodes_self, if_pos rfl, hnext]
    · rw [put_nodes_of_ne g n sends hj, if_neg hj, Nat.add_zero]
  constructor
  case chain =>
    intro j
    by_cases hj : j = i
    · subst hj
      simp only [put_nodes_self]
      exact hs'.sound
    · simp only [put_nodes_of_ne g n sends hj]
      exact (h.chain j).mono fun b => hmono
  case next_pos =>
    intro j
    have hpos := h.next_pos j
    simp only [hnodes]
    omega
  case issued =>
    intro m hm
    simp only [hnodes]
    obtain hm | hm := List.mem_append.mp hm
    · obtain ⟨j, k, hmid, hpos, hk, hlt⟩ := h.issued m hm
      exact ⟨j, k, hmid, hpos, hk, by omega⟩
    · rw [List.mem_singleton.mp hm, hnbid, hid, Node.minedId_eq hn]
      exact ⟨i, _, rfl, h.next_pos i, hn, by rw [if_pos rfl]; omega⟩
  case nodup =>
    rw [List.map_append, List.map_singleton]
    exact h.nodup.append (List.nodup_singleton _) (by simpa [hnbid] using hnew)
  case keyed =>
    intro m hm
    obtain hm | hm := List.mem_append.mp hm
    · exact h.keyed m hm
    · rw [List.mem_singleton.mp hm]
      exact hkeyed
  case stored =>
    intro m hm
    rw [getElem?_insert]
    obtain hm | hm := List.mem_append.mp hm
    · have hmid : ¬ m.id = id := fun heq => hnew (heq ▸ List.mem_map_of_mem hm)
      rw [if_neg hmid]
      exact h.stored m hm
    · rw [List.mem_singleton.mp hm, if_pos hnbid]
      rfl
  case store_keys =>
    intro x hx
    rw [List.map_append, List.mem_append, List.map_singleton, List.mem_singleton, hnbid]
    obtain rfl | hx := mem_insert.mp hx
    · exact .inr (.inr rfl)
    · exact (h.store_keys x hx).imp_right .inl
  case store_zero =>
    intro body hbody
    rw [getElem?_insert, if_neg (Ne.symm hne)] at hbody
    exact h.store_zero body hbody
  case sent =>
    intro e he w hw
    obtain he | ⟨s, hs, rfl⟩ := (mem_put_sent (n := n)).mp he
    · obtain hgen | ⟨m, hm, hwm⟩ := h.sent e he w hw
      · exact .inl hgen
      · exact .inr ⟨m, List.mem_append_left _ hm, hwm⟩
    · exact absurd hw (hquiet s hs w)

/-- **An event that is proper.** -/
theorem act (h : Consistent setup g) {now : ℚ} {e : Node.Event} (he : Proper g i e)
    (hrun : act setup now g i g.store e = some g') : Consistent setup g' := by
  obtain ⟨⟨store', n, sends⟩, hstep, hret⟩ := Option.bind_eq_some_iff.mp hrun
  rw [← Option.some.inj hret]
  -- an event that creates no block and keeps the store
  have hplain : createdBy (setup.config i) now g.store (g.nodes i) e = [] → store' = g.store →
      Consistent setup (g.put i n sends) → Consistent setup { g.put i n sends with
        store := store'
        created := g.created ++ createdBy (setup.config i) now g.store (g.nodes i) e } := by
    intro hnone hsame hput
    rw [hnone, hsame, List.append_nil]
    exact hput
  have hquiet : ∀ {r : Node × Sends}, some (g.store, r) = some (store', n, sends) →
      createdBy (setup.config i) now g.store (g.nodes i) e = [] → (g.nodes i).Quiet r.1 r.2 →
      Consistent setup { g.put i n sends with
        store := store'
        created := g.created ++ createdBy (setup.config i) now g.store (g.nodes i) e } := by
    intro r heq hnone hq
    obtain ⟨rfl, rfl⟩ := Prod.mk.injEq .. ▸ Option.some.inj heq
    exact hplain hnone rfl (h.quiet hq)
  cases e with
  | handleInvRelayBlock blockHash peer =>
      exact hquiet hstep rfl (Node.quiet_handleInvRelayBlock blockHash peer)
  | handleReqRelayBlock blockHash peer =>
      cases hstep
      refine hplain rfl rfl (h.put (h.chain i) rfl fun s hs w hw => ?_)
      obtain ⟨b, rfl, hheld⟩ := Node.eq_of_mem_handleReqRelayBlock hs hw
      exact h.genuineWire_of_holds hheld
  | handleBlock b peer =>
      obtain ⟨r, hb, hr⟩ := Option.bind_eq_some_iff.mp hstep
      cases hr
      exact hplain rfl rfl (h.handleBlock he hb)
  | handleInvTransactions txIds peer =>
      exact hquiet hstep rfl (Node.quiet_handleInvTransactions txIds peer)
  | handleReqTransactions txIds peer =>
      exact hquiet hstep rfl (Node.quiet_handleReqTransactions txIds peer)
  | handleTransactions draw txs peer =>
      obtain ⟨m, htxs, hm⟩ := Option.bind_eq_some_iff.mp hstep
      exact hquiet hm rfl ⟨Node.blockchain_handleTransactions htxs, Node.noBlocks_nil⟩
  | invTimeoutExpired blockHash pick =>
      exact hquiet hstep rfl (Node.quiet_invTimeoutExpired blockHash pick)
  | processTxTimeouts pick =>
      obtain ⟨r, htimeouts, hr⟩ := Option.bind_eq_some_iff.mp hstep
      exact hquiet hr rfl (Node.quiet_processTxTimeouts htimeouts)
  | flushInvBatch =>
      rw [Node.step] at hstep
      split at hstep
      · exact hquiet hstep rfl (Node.quiet_flushInvBatch _)
      · exact hquiet hstep rfl ⟨rfl, Node.noBlocks_nil⟩
  | generateTransaction fee =>
      obtain ⟨m, hgen, hm⟩ := Option.bind_eq_some_iff.mp hstep
      exact hquiet hm rfl ⟨Node.blockchain_generateTransaction hgen, Node.noBlocks_nil⟩
  | mineBlock pick => exact h.mineBlock he hstep

/-- **One action.** -/
theorem step (h : Consistent setup g) {now : ℚ} {a : Action ι}
    (hrun : step setup g now a = some g') : Consistent setup g' := by
  obtain ⟨⟨i, store, e⟩, hev, hact⟩ := Option.bind_eq_some_iff.mp hrun
  obtain ⟨hstore, hproper⟩ := h.event hev
  exact hstore.act hproper hact

end Consistent

theorem Reachable.consistent [DecidableEq ι] (h : Reachable setup g) : Consistent setup g := by
  induction h with
  | init => exact consistent_init setup
  | step _ hrun ih => exact ih.step hrun

/-- Actions at one moment. -/
theorem Reachable.of_foldlM [DecidableEq ι] (h : Reachable setup g) {now : ℚ}
    {actions : List (Action ι)}
    (hrun : actions.foldlM (fun g a => Network.step setup g now a) g = some g') :
    Reachable setup g' := by
  induction actions generalizing g with
  | nil =>
      obtain rfl := Option.some.inj hrun
      exact h
  | cons a actions ih =>
      rw [List.foldlM_cons] at hrun
      obtain ⟨g₁, hstep, hrest⟩ := Option.bind_eq_some_iff.mp hrun
      exact ih (h.step hstep) hrest

/-! ## agreement -/

/-- Blocks mean the same everywhere, and the chains change through `AddBlock`
only, which only sees fresh ones. -/
structure Agreed (setup : Setup ι) (g : Network ι) : Prop where
  /-- No id is created twice. -/
  nodup : (g.created.map Block.id).Nodup
  /-- A held block is genesis, or has the header and the transactions that its
  miner gave it. -/
  held : ∀ i id b, g.Holds i id b →
    (id = 0 ∧ SameBody genesis b) ∨ ∃ m ∈ g.created, m.id = id ∧ SameBody m b
  agree : ∀ i j id b b', g.Holds i id b → g.Holds j id b' → SameBody b b'
  /-- Whatever happens next, no call of `AddBlock`, nested ones included, is
  made with an id that the chain holds at that moment. -/
  fresh : ∀ a i store e, event setup g a = some (i, store, e) → ∀ now call call',
    Node.AddsBlock (setup.config i) now store (g.nodes i) e call → Calls call call' → Fresh call'
  /-- Whatever a handler does to its chain, that call does. -/
  through : ∀ a i store e, event setup g a = some (i, store, e) → ∀ now store' n sends,
    (g.nodes i).step (setup.config i) now store e = some (store', n, sends) →
      n.blockchain = (g.nodes i).blockchain ∨
        ∃ call, Node.AddsBlock (setup.config i) now store (g.nodes i) e call ∧
          call.1.addBlock call.2 = some n.blockchain

/-- **Block agreement across the network.** -/
theorem Reachable.agreed [DecidableEq ι] (h : Reachable setup g) : Agreed setup g where
  nodup := h.consistent.nodup
  held i id b hb := by
    obtain ⟨hid, hgen | ⟨m, hm, hbody⟩⟩ := h.consistent.of_holds hb
    · exact .inl ⟨hid.symm.trans hgen.id, hgen⟩
    · exact .inr ⟨m, hm, hbody.id.symm.trans hid, hbody⟩
  agree i j id b b' hb hb' := h.consistent.sameBody hb hb'
  fresh a i store e hev now call call' hadd hcalls := by
    obtain ⟨hstore, hproper⟩ := h.consistent.event hev
    exact hstore.fresh hproper hadd hcalls
  through _ _ _ _ _ _ _ _ _ hstep := Node.blockchain_step hstep

/-- Two nodes that know each other; both may mine. -/
def pair : Setup Bool where
  config i := {
    id := if i then 1 else 0
    id_lt := by cases i <;> decide
    ghostdagK := 10
    mempoolSize := 100
    mempoolSize_pos := by decide
    mempoolSize_lt := by decide
    txsPerBlock := 10
    txSelectionStrategy := 0
    peersAddresses := [if i then 100 else 101]
    invTimeout := 1200
    hashFun := fun _ => 0 }
  address i := if i then 101 else 100
  injective := by decide

/-- Node 0 mines and announces a block, node 1 asks for it and gets it. -/
def relayActions : List (Action Bool) :=
  [.mine false fun _ => (0, 0), .deliver 0 true id, .deliver 1 false id, .deliver 2 true id]

/-- Node 1 holds the block that node 0 created. -/
def relayed (g : Network Bool) : Bool := (g.nodes true).blockchain.hasBlock 1

theorem relayed_pair :
    (relayActions.foldlM (fun g a => step pair g 0 a) (init pair)).map relayed = some true := by
  decide +kernel

/-- The theorem at the end of that exchange. -/
theorem agreed_relayed : ∃ g, relayed g = true ∧ Agreed pair g := by
  obtain ⟨g, hrun, hrelayed⟩ := Option.map_eq_some_iff.mp relayed_pair
  exact ⟨g, hrelayed, (Reachable.init.of_foldlM hrun).agreed⟩

end Network

end GhostDag
