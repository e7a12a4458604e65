import GhostDag.Network.Consensus
import GhostDag.Node.Circulation
import GhostDag.Node.Eviction

/-!
# GhostDag.Network.Transactions

Transactions across the network.  Every transaction id in circulation names
the node that generated it (`Authentic`): in the pools, the batches and the
requests, in every message, and in every block.  So no node ever meets an id
of its own that it has yet to give out, and what `GhostDag.Node.Eviction`
says of an honest run holds of every run of the network.
-/

namespace GhostDag

open Std (ExtTreeMap ExtTreeSet)
open Containers Blockchain

namespace Network

variable {ι : Type} {setup : Setup ι} {g g' : Network ι}

/-- The node that the upper half of the id names has generated it. -/
def Generated (setup : Setup ι) (g : Network ι) (t : ℕ) : Prop :=
  ∃ j, idFromTxId t = (setup.config j).id ∧ seqOfTxId t < (g.nodes j).txsGenerated

/-- **Every transaction id in circulation has been generated**, by the node it
names, and the pools are in order. -/
structure Authentic (setup : Setup ι) (g : Network ι) : Prop where
  node : ∀ i, (g.nodes i).Within (Generated setup g)
  sent : ∀ e ∈ g.sent, ∀ t ∈ e.msg.txIds, Generated setup g t
  created : ∀ m ∈ g.created, ∀ tx ∈ m.txs.list, Generated setup g tx.txId
  pool : ∀ i, Node.PoolInv (setup.config i) (g.nodes i)

theorem authentic_init (setup : Setup ι) : Authentic setup (init setup) where
  node _ := Node.within_init _ _
  sent _ he := absurd he List.not_mem_nil
  created _ hm := absurd hm List.not_mem_nil
  pool _ := Node.poolInv_init _

/-- A node's own ids. -/
theorem Generated.own {i : ι} {t : ℕ} (h : Generated setup g t)
    (hid : idFromTxId t = (setup.config i).id) : seqOfTxId t < (g.nodes i).txsGenerated := by
  obtain ⟨j, hj, hseq⟩ := h
  obtain rfl := setup.injective (hj.symm.trans hid)
  exact hseq

/-! ## what an event brings -/

/-- Genesis comes without transactions. -/
theorem Consistent.txs_decode_genesis (h : Consistent setup g) :
    (GhostDag.decodeBlock g.store (encodeBlock genesis)).1.txs = ∅ := by
  have hbody : TxSet.ofList genesis.txs.list = ∅ := TxSet.keyed_empty.ofList_list
  have hdecode : (GhostDag.decodeBlock g.store (encodeBlock genesis)).1.txs =
      (g.store.intern 0 ∅).1 := by
    rw [GhostDag.decodeBlock, encodeBlock, hbody]
    rfl
  rw [hdecode, BlockBodyStore.intern]
  cases hzero : g.store[0]? with
  | none => rfl
  | some body =>
      change (if _ then (body, g.store) else (∅, g.store)).1 = ∅
      split
      · exact h.store_zero body hzero
      · rfl

/-- A block that comes in is genesis, without transactions, or a created one. -/
theorem Consistent.block_cases (h : Consistent setup g) {a : Action ι} {i : ι}
    {store : BlockBodyStore} {b : Block} {peer : Ipv4Address}
    (hev : Network.event setup g a = some (i, store, .handleBlock b peer)) :
    b.id = 0 ∧ b.parents = [] ∧ b.txs = ∅ ∨ ∃ m ∈ g.created, SameBody m b := by
  obtain ⟨index, draw, env, rfl, henv, -, hmsg⟩ | ⟨-, hlocal⟩ := event_cases hev
  · have hmem := List.mem_of_getElem? henv
    cases hm : env.msg with
    | block w =>
        rw [hm] at hmsg
        cases hmsg
        obtain rfl | ⟨m, hmc, rfl⟩ := h.sent env hmem w hm
        · exact .inl ⟨rfl, rfl, h.txs_decode_genesis⟩
        · obtain ⟨hheader, htxs, -⟩ := decodeBlock_encodeBlock (h.stored m hmc) (h.keyed m hmc)
          exact .inr ⟨m, hmc, hheader, htxs⟩
    | _ =>
        rw [hm] at hmsg
        cases hmsg
  · cases hlocal

/-- **The ids that an event brings** have been generated. -/
theorem Authentic.carried (ha : Authentic setup g) (h : Consistent setup g) {a : Action ι} {i : ι}
    {store : BlockBodyStore} {e : Node.Event} (hev : event setup g a = some (i, store, e)) :
    ∀ t ∈ e.txIds, Generated setup g t := by
  have hblock := fun b peer (heq : e = .handleBlock b peer) => h.block_cases (heq ▸ hev)
  obtain ⟨index, draw, env, rfl, henv, -, hmsg⟩ | ⟨-, hlocal⟩ := event_cases hev
  · have hsent := ha.sent env (List.mem_of_getElem? henv)
    cases hm : env.msg with
    | block w =>
        rw [hm] at hmsg
        cases hmsg
        intro t ht
        obtain ⟨tx, htx, rfl⟩ := List.mem_map.mp ht
        obtain ⟨-, -, hempty⟩ | ⟨m, hmc, hbody⟩ := hblock _ _ rfl
        · rw [hempty] at htx
          exact absurd htx (by simp [TxSet.list])
        · rw [hbody.txs] at htx
          exact ha.created m hmc tx htx
    | _ =>
        rw [hm] at hmsg hsent
        cases hmsg
        exact hsent
  · cases hlocal <;> exact fun t ht => absurd ht List.not_mem_nil

theorem Authentic.own (ha : Authentic setup g) (h : Consistent setup g) {a : Action ι} {i : ι}
    {store : BlockBodyStore} {e : Node.Event} (hev : event setup g a = some (i, store, e)) :
    Node.OwnGenerated (setup.config i) (g.nodes i) (· ∈ e.txIds) :=
  fun t ht hid => (ha.carried h hev t ht).own hid

/-- A miner's next id is not in the store. -/
theorem Consistent.minedId_notMem_store (h : Consistent setup g) {a : Action ι} {i : ι}
    {store : BlockBodyStore} {pick : ℕ → ℕ × ℕ}
    (hev : Network.event setup g a = some (i, store, .mineBlock pick)) :
    (g.nodes i).minedId (setup.config i) ∉ store := by
  obtain ⟨hstore, hproper⟩ := h.event hev
  obtain ⟨hne, hnew⟩ := h.minedId_fresh hproper
  exact fun hmem => (hstore.store_keys _ hmem).elim hne hnew

/-- The transactions of a new block come from its miner's pool. -/
theorem Authentic.created_by (ha : Authentic setup g) (h : Consistent setup g) {i : ι} {now : ℚ}
    {a : Action ι} {store : BlockBodyStore} {e : Node.Event}
    (hev : event setup g a = some (i, store, e)) :
    ∀ m ∈ createdBy (setup.config i) now store (g.nodes i) e, ∀ tx ∈ m.txs.list,
      Generated setup g tx.txId := by
  cases e with
  | mineBlock pick =>
      intro m hm tx htx
      have hsel := Node.selects_selectTransactions (ha.pool i).pool.wf pick
      have hnot := h.minedId_notMem_store hev
      rw [createdBy, List.mem_singleton, BlockBodyStore.intern,
        getElem?_eq_none_of_notMem hnot] at hm
      rw [hm] at htx
      exact (ha.node i).pool _ (hsel.pooled _ (mem_of_getElem? (hsel.keyed.mem_list_iff.mp htx)))
  | _ => exact fun m hm => absurd hm List.not_mem_nil

/-! ## runs -/

variable [DecidableEq ι]

/-- **One action.** -/
theorem Authentic.step (ha : Authentic setup g) (h : Consistent setup g) {now : ℚ} {a : Action ι}
    (hrun : step setup g now a = some g') : Authentic setup g' := by
  have hafter := h.step hrun
  obtain ⟨i, store, e, r, hev, hstep, rfl⟩ := step_cases hrun
  have hown := ha.own h hev
  obtain ⟨hpool, hle, -⟩ := (Node.poolRun_step hstep).inv (ha.pool i) hown
  have hmono : ∀ t, Generated setup g t → Generated setup (happened setup now g i store e r) t := by
    rintro t ⟨j, hid, hseq⟩
    refine ⟨j, hid, ?_⟩
    by_cases hj : j = i
    · subst hj
      rw [happened_nodes_self]
      exact hseq.trans_le hle
    · rwa [happened_nodes_of_ne hj]
  have hnext : ∀ fee, e = .generateTransaction fee →
      r.2.1.txsGenerated = (g.nodes i).txsGenerated + 1 → (g.nodes i).txsGenerated + 1 < 2 ^ 31 →
      Generated setup (happened setup now g i store e r)
        (Node.nextTxId (setup.config i) (g.nodes i)) := by
    intro fee _ hone hlt
    have hlt : (g.nodes i).txsGenerated < 2 ^ 32 := by omega
    refine ⟨i, Node.idFromTxId_nextTxId hlt, ?_⟩
    rw [Node.seqOfTxId_nextTxId hlt, happened_nodes_self, hone]
    exact Nat.lt_succ_self _
  obtain ⟨hwithin, hsends⟩ := Node.within_step ((ha.node i).mono hmono) (ha.pool i)
    (fun t ht => hmono t (ha.carried h hev t ht)) hown hnext hstep
  have hcreated : ∀ m ∈ (happened setup now g i store e r).created, ∀ tx ∈ m.txs.list,
      Generated setup (happened setup now g i store e r) tx.txId := by
    intro m hm tx htx
    obtain hm | hm := List.mem_append.mp hm
    · exact hmono _ (ha.created m hm tx htx)
    · exact hmono _ (ha.created_by h hev m hm tx htx)
  constructor
  case node =>
    exact forall_happened (P := fun _ n => n.Within _) hwithin fun j _ => (ha.node j).mono hmono
  case sent =>
    intro env henv t ht
    obtain henv' | ⟨s, hs, rfl⟩ := mem_happened_sent.mp henv
    · exact hmono t (ha.sent env henv' t ht)
    · obtain ⟨w, hw⟩ | hids := hsends s hs
      · -- a block in flight is one that was created
        obtain hgen | ⟨m, hm, hwm⟩ := hafter.sent _ henv w hw
        · rw [hw, hgen] at ht
          exact absurd ht (by simp [Message.txIds, encodeBlock, genesis, TxSet.list])
        · rw [hw, hwm] at ht
          obtain ⟨tx, htx, rfl⟩ := List.mem_map.mp ht
          exact hcreated m hm tx htx
      · exact hids t ht
  case created => exact hcreated
  case pool =>
    exact forall_happened (P := fun j n => Node.PoolInv (setup.config j) n) hpool
      fun j _ => ha.pool j

/-- In every reachable state. -/
theorem Reachable.authentic (h : Reachable setup g) : Authentic setup g := by
  induction h with
  | init => exact authentic_init setup
  | step hreach hrun ih => exact ih.step hreach.consistent hrun

/-! ## what is accounted for -/

/-- Nodes and messages mention generated transactions only, and no pool holds
one twice, or more than fit. -/
structure Accounted (setup : Setup ι) (g : Network ι) : Prop where
  pooled : ∀ i t, (g.nodes i).mempool.Contains t →
    Generated setup g t ∧ (g.nodes i).knownTxs.contains t = true
  wanted : ∀ i t, t ∈ (g.nodes i).queueInvTx → Generated setup g t
  held : ∀ i id b, g.Holds i id b → ∀ tx ∈ b.txs.list, Generated setup g tx.txId
  sent : ∀ e ∈ g.sent, ∀ t ∈ e.msg.txIds, Generated setup g t
  once : ∀ i, ((g.nodes i).mempool.located.map fun l => l.2.txId).Nodup
  size_le : ∀ i, (g.nodes i).mempool.size ≤ (setup.config i).mempoolSize

/-- **Every transaction is accounted for**, in every reachable state. -/
theorem Reachable.accounted (h : Reachable setup g) : Accounted setup g where
  pooled i t ht := ⟨(h.authentic.node i).pool t ht, (h.authentic.pool i).known t ht⟩
  wanted i := (h.authentic.node i).queued
  held i id b hb tx htx := by
    obtain ⟨-, hgen | ⟨m, hm, hbody⟩⟩ := h.consistent.of_holds hb
    · rw [hgen.txs] at htx
      exact absurd htx (by simp [TxSet.list, genesis])
    · rw [hbody.txs] at htx
      exact h.authentic.created m hm tx htx
  sent := h.authentic.sent
  once i := (h.authentic.pool i).pool.nodup_txIds
  size_le i := (h.authentic.pool i).pool.size_le

/-- Node 0 generates a transaction, announces it and puts it into a block,
which node 1 gets. -/
def payingActions : List (Action Bool) :=
  [.generate false 5, .flush false, .mine false fun _ => (0, 0), .deliver 1 true id,
    .deliver 2 false id, .deliver 3 true id]

/-- Node 1 holds a block with the transaction. -/
def paid (g : Network Bool) : Bool :=
  match (g.nodes true).blockchain.blocks[1]? with
  | some b => b.txs.list == [⟨0, 522, 5⟩]
  | none => false

theorem paid_pair :
    (payingActions.foldlM (fun g a => step pair g 0 a) (init pair)).map paid = some true := by
  decide +kernel

theorem accounted_paid : ∃ g, paid g = true ∧ Accounted pair g := by
  obtain ⟨g, hrun, hpaid⟩ := Option.map_eq_some_iff.mp paid_pair
  exact ⟨g, hpaid, (Reachable.init.of_foldlM hrun).accounted⟩

end Network

end GhostDag
