import GhostDag.Node.Ledger

/-!
# GhostDag.Node.Eviction

Whether the transactions of blue blocks leave the pool.

`HandleBlock` compares the colour flags before and after `AddBlock` and evicts
the transactions of every block that has turned blue.  `MineBlock` adds a
block too, over all the tips, and that can turn red blocks blue; it only takes
the selected transactions out.  So blue blocks' transactions stay out of the
pool exactly as long as mining merges no red block with a transaction that it
leaves in the pool (`Run.blueEvicted_iff_clean`).
-/

namespace GhostDag

open Std (ExtTreeMap ExtTreeSet)
open Containers Blockchain

namespace Node

variable {c : Config} {n n' : Node}

/-! ## MineBlock -/

/-- Every pooled transaction of a red block that mining now would turn blue is
among the selected ones. -/
def Clean (c : Config) (n : Node) (pick : ℕ → ℕ × ℕ) : Prop :=
  ∀ (id : ℕ) (b : Block), n.blockchain.blocks[id]? = some b → b.isBlue = false →
    n.blockchain.mergesBlue id = true → ∀ tx ∈ b.txs.list, n.mempool.Contains tx.txId →
      tx.txId ∈ (selectTransactions c pick n.mempool).1

/-- The block to be mined is one that the node may hold. -/
theorem Ledger.vouched_mined (h : Ledger c n) (hn : n.blockchain.nextBlockId < 2 ^ 32) {now : ℚ}
    {txs : TxSet} {p : Mempool} (hsel : Selects c.hashFun n.mempool txs p) :
    Vouched c { n with blockchain := countBlock n.blockchain } (mined c now n txs) where
  ids x hx hown := by
    have hid := minedId_eq (c := c) hn
    have hlt : x % 2 ^ 32 < n.blockchain.nextBlockId ∨ x = minedId c n := by
      obtain hx | hx := List.mem_cons.mp hx
      · exact .inr hx
      · -- a parent is a tip, so it is genesis or has been vouched for
        left
        have hblock := h.chain.mem_blocks_of_mem_tips (ExtTreeSet.mem_toList.mp hx)
        obtain ⟨b, hb⟩ := mem_iff_exists.mp hblock
        obtain ⟨hbid, hgen | ⟨b₀, hb₀, hbody⟩⟩ := h.chain.accepted hb
        · have hzero : x = 0 := by
            rw [← hbid, hgen.id]
            rfl
          rw [hzero]
          exact h.next_pos
        · rw [hbody.id] at hbid
          exact hb₀.ids x (hbid ▸ List.mem_cons_self) hown
    change x % 2 ^ 32 < n.blockchain.nextBlockId + 1
    omega
  txs tx htx hown :=
    h.fresh _ (hsel.pooled _ (mem_of_getElem? (hsel.keyed.mem_list_iff.mp htx))) hown
  known tx htx := h.known _ (hsel.pooled _ (mem_of_getElem? (hsel.keyed.mem_list_iff.mp htx)))

/-- **`MineBlock`** keeps the invariant; it keeps the pool free of blue
blocks' transactions exactly when it is clean. -/
theorem Ledger.mineBlock (h : Ledger c n) {now : ℚ} {pick : ℕ → ℕ × ℕ} {store : BlockBodyStore}
    {r : BlockBodyStore × Node × Sends} (hn : n.blockchain.nextBlockId < 2 ^ 32)
    (hstore : minedId c n ∉ store) (hrun : mineBlock c now pick store n = some r) :
    Ledger c r.2.1 ∧ (BlueEvicted n → (BlueEvicted r.2.1 ↔ Clean c n pick)) := by
  have hsel := selects_selectTransactions h.pool pick
  unfold Node.mineBlock at hrun
  unfold Clean
  generalize selectTransactions c pick n.mempool = sel at hsel hrun ⊢
  obtain ⟨txs, pool⟩ := sel
  have hintern : store.intern (minedId c n) txs = (txs, store.insert (minedId c n) txs) := by
    rw [BlockBodyStore.intern, getElem?_eq_none_of_notMem hstore]
  have hlater : Later n { n with blockchain := countBlock n.blockchain } :=
    ⟨Nat.le_succ _, le_rfl, fun _ ht => ht⟩
  obtain ⟨hblock, horphan, hparents⟩ := h.minedId_fresh hn
  have hsound := (h.chain.mono fun b hb => hb.later hlater).setNextBlockId
    (n.blockchain.nextBlockId + 1)
  have hvouched : Vouched c { n with blockchain := countBlock n.blockchain } (mined c now n txs) :=
    h.vouched_mined hn hsel
  obtain ⟨chain, hadd⟩ := hsound.exists_addBlock_tips hvouched hblock horphan rfl hparents
  have hadd' : (countBlock n.blockchain).addBlock (mined c now n txs) = some chain := hadd.run
  simp only [hintern, hadd', Option.bind_eq_bind, Option.bind_some] at hrun
  obtain rfl := Option.some.inj hrun
  have hnext : chain.nextBlockId = n.blockchain.nextBlockId + 1 := hadd.continues.nextBlockId
  refine ⟨⟨?_, ?_, hsel.wf, ?_, ?_⟩, fun hev => ⟨fun hev' id b hb hred hmerge tx htx hpooled => ?_,
    fun hclean id b' hb' hblue tx htx hpooled => ?_⟩⟩
  · refine hadd.sound.mono fun b hb => Vouched.later ?_ hb
    exact ⟨hnext.ge, le_rfl, fun _ ht => ht⟩
  · exact hnext ▸ Nat.succ_pos _
  · exact fun t ht => h.known t ((hsel.contains_iff t).mp ht).1
  · exact fun t ht => h.fresh t ((hsel.contains_iff t).mp ht).1
  · -- the block has turned blue, so its transactions must have left
    by_contra hnot
    have hflag : chain.isBlueAt id = true :=
      (hadd.flags id (mem_of_getElem? hb)).trans hmerge
    obtain ⟨b', hb', hblue⟩ := isBlueAt_iff.mp hflag
    refine hev' id b' hb' hblue tx ?_ ((hsel.contains_iff _).mpr ⟨hpooled, hnot⟩)
    rw [(hadd.old id b b' hb hb').txs]
    exact htx
  · obtain ⟨hpooled, hnot⟩ := (hsel.contains_iff _).mp hpooled
    obtain hid | rfl := (hadd.mem_blocks id).mp (mem_of_getElem? hb')
    · obtain ⟨b, hb⟩ := mem_iff_exists.mp hid
      rw [(hadd.old id b b' hb hb').txs] at htx
      cases hwas : b.isBlue with
      | true => exact hev id b hb hwas tx htx hpooled
      | false =>
          have hmerge : n.blockchain.mergesBlue id = true :=
            (hadd.flags id hid).symm.trans (isBlueAt_iff.mpr ⟨b', hb', hblue⟩)
          exact hnot (hclean id b hb hwas hmerge tx htx hpooled)
    · rw [(hadd.new b' hb').txs] at htx
      exact hnot (mem_of_getElem? (hsel.keyed.mem_list_iff.mp htx))

/-! ## runs -/

/-- An event, with the time and the shared bodies at which it happens. -/
structure Input where
  now : ℚ
  store : BlockBodyStore
  event : Event

/-- Honest ids: nobody else uses a block id or a transaction id that the node
has yet to give out, and its counter still fits the lower half of an id. -/
def Honest (c : Config) (n : Node) (i : Input) : Prop :=
  match i.event with
  | .handleBlock b _ => HonestIds c n b ∧ HonestTxs c n b.txs.list
  | .handleTransactions _ txs _ => HonestTxs c n txs
  | .mineBlock _ => n.blockchain.nextBlockId < 2 ^ 32 ∧ minedId c n ∉ i.store
  | _ => True

/-- Mining is clean; other events always are. -/
def CleanAt (c : Config) (n : Node) (i : Input) : Prop :=
  match i.event with
  | .mineBlock pick => Clean c n pick
  | _ => True

/-- `Run c past n`: from its start, a node has reached the state `n`; `past`
lists the states before, latest first, each with the input that ended it. -/
inductive Run (c : Config) : List (Node × Input) → Node → Prop
  | start : Run c [] (init c)
  | step {past : List (Node × Input)} {n n' : Node} {i : Input} {store : BlockBodyStore}
      {sends : Sends} : Run c past n → Honest c n i →
      step c i.now i.store n i.event = some (store, n', sends) → Run c ((n, i) :: past) n'

/-! ## running inputs -/

instance (b : Block) : Decidable (HonestIds c n b) :=
  inferInstanceAs (Decidable (∀ x ∈ b.id :: b.parents, _ → _))

instance (txs : List Transaction) : Decidable (HonestTxs c n txs) :=
  inferInstanceAs (Decidable (∀ tx ∈ txs, _ → _))

instance decidableHonest : (i : Input) → Decidable (Honest c n i)
  | ⟨_, _, .handleBlock b _⟩ =>
      inferInstanceAs (Decidable (HonestIds c n b ∧ HonestTxs c n b.txs.list))
  | ⟨_, _, .handleTransactions _ txs _⟩ => inferInstanceAs (Decidable (HonestTxs c n txs))
  | ⟨_, store, .mineBlock _⟩ =>
      inferInstanceAs (Decidable (n.blockchain.nextBlockId < 2 ^ 32 ∧ minedId c n ∉ store))
  | ⟨_, _, .handleInvRelayBlock ..⟩ | ⟨_, _, .handleReqRelayBlock ..⟩
  | ⟨_, _, .handleInvTransactions ..⟩ | ⟨_, _, .handleReqTransactions ..⟩
  | ⟨_, _, .invTimeoutExpired ..⟩ | ⟨_, _, .processTxTimeouts ..⟩ | ⟨_, _, .flushInvBatch⟩
  | ⟨_, _, .generateTransaction ..⟩ => instDecidableTrue

/-- The state after some inputs, all of them honest. -/
def exec (c : Config) : List Input → Node → Option Node
  | [], n => some n
  | i :: is, n =>
      if Honest c n i then do
        let (_, n', _) ← step c i.now i.store n i.event
        exec c is n'
      else none

theorem Run.of_exec {past : List (Node × Input)} (h : Run c past n) {is : List Input}
    (hexec : exec c is n = some n') :
    ∃ past', past'.map Prod.snd = is.reverse ++ past.map Prod.snd ∧ Run c past' n' := by
  induction is generalizing past n with
  | nil =>
      obtain rfl := Option.some.inj hexec
      exact ⟨past, rfl, h⟩
  | cons i is ih =>
      rw [exec] at hexec
      split at hexec
      · next hhon =>
          obtain ⟨r, hstep, hrest⟩ := Option.bind_eq_some_iff.mp hexec
          obtain ⟨past', hinputs, hrun⟩ := ih (h.step hhon hstep) hrest
          exact ⟨past', by simpa using hinputs, hrun⟩
      · exact absurd hexec.symm (Option.some_ne_none n')

/-! ## the invariant along a run -/

/-- **One event.** -/
theorem Ledger.step (h : Ledger c n) {i : Input} {store : BlockBodyStore} {sends : Sends}
    (hhon : Honest c n i) (hrun : step c i.now i.store n i.event = some (store, n', sends)) :
    Ledger c n' ∧ (BlueEvicted n → (BlueEvicted n' ↔ CleanAt c n i)) := by
  obtain ⟨now, store₀, event⟩ := i
  have hsame : ∀ {m : Node}, SameLedger n m → m = n' →
      Ledger c n' ∧ (BlueEvicted n → (BlueEvicted n' ↔ True)) := by
    rintro m hm rfl
    exact ⟨hm.ledger h, fun hev => iff_true_intro (hm.blueEvicted_iff.mpr hev)⟩
  have hkeep : Ledger c n' ∧ (BlueEvicted n → BlueEvicted n') →
      Ledger c n' ∧ (BlueEvicted n → (BlueEvicted n' ↔ True)) :=
    fun hk => ⟨hk.1, fun hev => iff_true_intro (hk.2 hev)⟩
  cases event with
  | handleInvRelayBlock blockHash peer =>
      exact hsame (fetches_handleInvRelayBlock blockHash peer).sameLedger
        (congrArg (·.2.1) (Option.some.inj hrun))
  | handleReqRelayBlock blockHash peer =>
      exact hsame (.refl n) (congrArg (·.2.1) (Option.some.inj hrun))
  | handleBlock b peer =>
      obtain ⟨r, hb, hret⟩ := Option.bind_eq_some_iff.mp hrun
      obtain rfl : r.1 = n' := congrArg (·.2.1) (Option.some.inj hret)
      exact hkeep (h.handleBlock hhon.1 hhon.2 hb)
  | handleInvTransactions txIds peer =>
      exact hsame (requeues_handleInvTransactions txIds peer).1.sameLedger
        (congrArg (·.2.1) (Option.some.inj hrun))
  | handleReqTransactions txIds peer =>
      exact hsame (.refl n) (congrArg (·.2.1) (Option.some.inj hrun))
  | handleTransactions draw txs peer =>
      obtain ⟨m, htxs, hret⟩ := Option.bind_eq_some_iff.mp hrun
      obtain rfl : m = n' := congrArg (·.2.1) (Option.some.inj hret)
      exact hkeep (h.handleTransactions hhon htxs)
  | invTimeoutExpired blockHash pick =>
      exact hsame (fetches_invTimeoutExpired blockHash pick).sameLedger
        (congrArg (·.2.1) (Option.some.inj hrun))
  | processTxTimeouts pick =>
      obtain ⟨r, htimeouts, hret⟩ := Option.bind_eq_some_iff.mp hrun
      exact hsame (requeues_processTxTimeouts htimeouts).1.sameLedger
        (congrArg (·.2.1) (Option.some.inj hret))
  | flushInvBatch =>
      rw [Node.step] at hrun
      split at hrun
      · next exclude _ =>
          have hflush : SameLedger n (flushInvBatch c n exclude).1 := ⟨rfl, rfl, rfl, rfl⟩
          exact hsame hflush (congrArg (·.2.1) (Option.some.inj hrun))
      · exact hsame (.refl n) (congrArg (·.2.1) (Option.some.inj hrun))
  | generateTransaction fee =>
      obtain ⟨m, hgen, hret⟩ := Option.bind_eq_some_iff.mp hrun
      obtain rfl : m = n' := congrArg (·.2.1) (Option.some.inj hret)
      exact hkeep (h.generateTransaction hgen)
  | mineBlock pick => exact h.mineBlock hhon.1 hhon.2 hrun

theorem Run.ledger {past : List (Node × Input)} (h : Run c past n) : Ledger c n := by
  induction h with
  | start => exact ledger_init c
  | step _ hhon hrun ih => exact (ih.step hhon hrun).1

/-- **Blue blocks' transactions are out of the pool in every state of a run
exactly when every block in it was mined cleanly.** -/
theorem Run.blueEvicted_iff_clean {past : List (Node × Input)} (h : Run c past n) :
    (∀ m ∈ n :: past.map Prod.fst, BlueEvicted m) ↔ ∀ e ∈ past, CleanAt c e.1 e.2 := by
  induction h with
  | start =>
      rw [List.map_nil, List.forall_mem_singleton]
      exact iff_of_true (blueEvicted_init c) fun e he => absurd he List.not_mem_nil
  | @step past n n' i store sends hprev hhon hrun ih =>
      obtain ⟨-, hstep⟩ := hprev.ledger.step hhon hrun
      rw [List.forall_mem_cons, List.map_cons, ih, List.forall_mem_cons]
      refine and_congr_left fun hclean => ?_
      exact hstep (ih.mpr hclean n List.mem_cons_self)

/-! ## a block that mining turns blue -/

/-- A miner of one transaction a block, highest fee first, with `k = 1`. -/
def thrifty : Config where
  id := 5
  id_lt := by decide
  ghostdagK := 1
  mempoolSize := 10
  mempoolSize_pos := by decide
  mempoolSize_lt := by decide
  txsPerBlock := 1
  txSelectionStrategy := 1
  peersAddresses := [1]
  invTimeout := 1200
  hashFun := fun _ => 0

/-- A node with two peers. -/
def twoPeers : Config := { thrifty with peersAddresses := [1, 2] }

/-- The transaction `7 << 32 | seq`, for a given fee. -/
def txOf7 (seq fee : ℕ) : Transaction := ⟨7 * 2 ^ 32 + seq, 522, fee⟩

/-- A block over genesis. -/
def overGenesis (minerId : ℕ) (txs : List Transaction) : Block where
  header := { blockId := minerId * 2 ^ 32 + 1, minerId, parentHashes := [0] }
  txs := TxSet.ofList txs

/-- Two transactions arrive, then two blocks over genesis of which the second
contains the cheaper transaction and is red; then the miner merges both. -/
def mergingInputs : List Input :=
  [.handleTransactions (fun _ => 3) [txOf7 0 1, txOf7 1 2] 1, .handleBlock (overGenesis 7 []) 1,
    .handleBlock (overGenesis 8 [txOf7 0 1]) 1, .mineBlock fun _ => (0, 0)].map fun event =>
      { now := 0, store := ∅, event }

/-- The pool still holds the transaction, and the second block is blue. -/
def mergedStale (n : Node) : Bool :=
  match n.blockchain.blocks[8 * 2 ^ 32 + 1]? with
  | some b => b.isBlue && decide (txOf7 0 1 ∈ b.txs.list) &&
      (n.mempool.find thrifty.hashFun 7 (7 * 2 ^ 32)).isSome
  | none => false

theorem exec_mergingInputs :
    (exec thrifty mergingInputs (init thrifty)).map mergedStale = some true := by
  decide +kernel

/-- **Mining can leave a blue block's transaction in the pool.** -/
theorem not_blueEvicted_merging : ∃ past n, past.map Prod.snd = mergingInputs.reverse ∧
    Run thrifty past n ∧ ¬ BlueEvicted n := by
  obtain ⟨n, hexec, hstale⟩ := Option.map_eq_some_iff.mp exec_mergingInputs
  obtain ⟨past, hinputs, hrun⟩ := Run.start.of_exec hexec
  refine ⟨past, n, by simpa using hinputs, hrun, fun hev => ?_⟩
  unfold mergedStale at hstale
  split at hstale
  · next b hb =>
      rw [Bool.and_eq_true, Bool.and_eq_true, decide_eq_true_eq] at hstale
      obtain ⟨⟨hblue, htx⟩, hfind⟩ := hstale
      obtain ⟨it, hit⟩ := Option.isSome_iff_exists.mp hfind
      obtain ⟨hst, hid⟩ := Mempool.stores_of_find hit
      exact hev _ b hb hblue _ htx ⟨_, _, hst, hid⟩
  · exact absurd hstale Bool.false_ne_true

/-- The theorem at that run. -/
theorem blueEvicted_iff_merging : ∃ past n, past.map Prod.snd = mergingInputs.reverse ∧
    Run thrifty past n ∧ ((∀ m ∈ n :: past.map Prod.fst, BlueEvicted m) ↔
      ∀ e ∈ past, CleanAt thrifty e.1 e.2) := by
  obtain ⟨n, hexec, -⟩ := Option.map_eq_some_iff.mp exec_mergingInputs
  obtain ⟨past, hinputs, hrun⟩ := Run.start.of_exec hexec
  exact ⟨past, n, by simpa using hinputs, hrun, hrun.blueEvicted_iff_clean⟩

end Node

end GhostDag
