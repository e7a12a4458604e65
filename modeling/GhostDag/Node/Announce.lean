import GhostDag.Node.Eviction
import GhostDag.Node.PoolIndex
import GhostDag.Node.Timeouts

/-!
# GhostDag.Node.Announce

Whether every pooled transaction is announced.

Received and generated transactions wait in one batch (`m_pending_inv_tx`),
and the first of them schedules the one `FlushInvBatch` of the batch with the
address it excludes: the sender of that first transaction, or none.  A later
transaction of the batch is then kept from a peer that did not deliver it.
So a transaction reaches every peer but its deliverer exactly when the batch
it joins excludes nobody else (`announced_iff`).
-/

namespace GhostDag

open Std (ExtTreeMap ExtTreeSet)
open Containers

namespace Node

variable {c : Config} {n n' : Node}

/-! ## runs -/

/-- The state after some inputs. -/
def after (c : Config) (n : Node) (inputs : List Input) : Option Node :=
  inputs.foldlM (fun n i => (step c i.now i.store n i.event).map fun r => r.2.1) n

/-- The event puts the transaction into the pool: under a handle that was not
given out before. -/
def Inserts (n n' : Node) (t : Nat) : Prop :=
  ∃ l ∈ n'.mempool.located, n.mempool.nextHandle ≤ l.2.handle ∧ l.2.txId = t

/-- The peer that an event's transactions come from. -/
def deliverer : Event → Option Ipv4Address
  | .handleTransactions _ _ peer => some peer
  | _ => none

/-- The address that an event's batch excludes: the one it was scheduled with,
or else the one that the event schedules it with. -/
def excluded (n : Node) (event : Event) : Ipv4Address :=
  n.invBatchEvent.getD ((deliverer event).getD Ipv4Address.unset)

def IsFlush : Event → Prop
  | .flushInvBatch => True
  | _ => False

/-- A step of a run, and the messages of the next flush after it. -/
structure Window (c : Config) (inputs : List Input) (n : Node) (i : Input) (n' : Node)
    (flushed : Sends) : Prop where
  exists_flush : ∃ (past mid : List Input) (j : Input) (m m' : Node)
    (store store' : BlockBodyStore) (sends : Sends),
    past ++ i :: (mid ++ [j]) <+: inputs ∧ after c (init c) past = some n ∧
      step c i.now i.store n i.event = some (store, n', sends) ∧
      after c n' mid = some m ∧ (∀ k ∈ mid, ¬ IsFlush k.event) ∧
      IsFlush j.event ∧ step c j.now j.store m j.event = some (store', m', flushed)

/-- How often messages announce a transaction to a peer. -/
def announcements (sends : Sends) (peer : Ipv4Address) (t : Nat) : Nat :=
  (sends.map fun s =>
    match s with
    | (dest, .invTransactions txIds) => if dest = peer then txIds.count t else 0
    | _ => 0).sum

/-- Every inserted transaction is announced once, by the next flush, to every
peer but its deliverer. -/
def Announced (c : Config) (inputs : List Input) : Prop :=
  ∀ (n n' : Node) (i : Input) (flushed : Sends), Window c inputs n i n' flushed →
    ∀ t, Inserts n n' t → ∀ peer ∈ c.peersAddresses, deliverer i.event ≠ some peer →
      announcements flushed peer t = 1

/-- Every transaction joins a batch that excludes none of the peers it is for,
and is not waiting in it already; no such peer is listed twice. -/
def Unexcluded (c : Config) (inputs : List Input) : Prop :=
  ∀ (n n' : Node) (i : Input) (flushed : Sends), Window c inputs n i n' flushed →
    ∀ t, Inserts n n' t → ∀ peer ∈ c.peersAddresses, deliverer i.event ≠ some peer →
      peer ≠ excluded n i.event ∧ t ∉ n.pendingInvTx ∧ c.peersAddresses.count peer = 1

/-! ## the messages of a flush -/

theorem announcements_broadcast (peers : List Ipv4Address) (txIds : List ℕ)
    (exclude peer : Ipv4Address) (t : ℕ) :
    announcements ((peers.filter (· ≠ exclude)).map fun p => (p, .invTransactions txIds)) peer t =
      if peer = exclude then 0 else peers.count peer * txIds.count t := by
  induction peers with
  | nil => simp [announcements]
  | cons p peers ih =>
      by_cases hp : p = exclude
      · rw [List.filter_cons_of_neg (by simpa using hp), ih, hp]
        by_cases hpeer : peer = exclude
        · rw [if_pos hpeer, if_pos hpeer]
        · rw [if_neg hpeer, if_neg hpeer, List.count_cons_of_ne (Ne.symm hpeer)]
      · rw [List.filter_cons_of_pos (by simpa using hp), List.map_cons]
        unfold announcements at ih ⊢
        rw [List.map_cons, List.sum_cons, ih]
        by_cases hpeer : p = peer
        · subst hpeer
          rw [if_neg hp, if_neg hp, List.count_cons_self, Nat.add_mul, Nat.one_mul, Nat.add_comm]
          simp
        · rw [List.count_cons_of_ne hpeer]
          simp [hpeer]

/-- **What a flush announces.** -/
theorem announcements_flushInvBatch (n : Node) (exclude peer : Ipv4Address) (t : ℕ) :
    announcements (flushInvBatch c n exclude).2 peer t =
      if peer = exclude then 0 else c.peersAddresses.count peer * n.pendingInvTx.count t := by
  rw [flushInvBatch, broadcastInvTransactions]
  split
  · next hnil =>
      rw [List.isEmpty_iff.mp hnil, List.count_nil, Nat.mul_zero, ite_self]
      rfl
  · exact announcements_broadcast ..

/-! ## the pool -/

/-- `p'` holds nothing that `p` does not. -/
def Prunes (hashFun : String → Nat) (p p' : Mempool) : Prop :=
  p.Linked hashFun → p'.Linked hashFun ∧ ∀ l ∈ p'.located, l ∈ p.located

theorem Prunes.refl (hashFun : String → ℕ) (p : Mempool) : Prunes hashFun p p :=
  fun h => ⟨h, fun _ hl => hl⟩

theorem Prunes.trans {hashFun : String → ℕ} {p p' p'' : Mempool} (h : Prunes hashFun p p')
    (h' : Prunes hashFun p' p'') : Prunes hashFun p p'' := by
  intro hp
  obtain ⟨hp', hsub⟩ := h hp
  obtain ⟨hp'', hsub'⟩ := h' hp'
  exact ⟨hp'', fun l hl => hsub l (hsub' l hl)⟩

theorem prunes_eraseTransaction {hashFun : String → ℕ} {p : Mempool} {it : HtabIterator}
    (hit : p.Stores it.index it.item) : Prunes hashFun p (p.eraseTransaction it) := by
  intro h
  have d := h.drops_eraseTransaction hit
  exact ⟨d.linked h, fun l hl => List.mem_of_mem_erase (d.located ▸ hl)⟩

theorem prunes_evict (hashFun : String → ℕ) (p : Mempool) (tx : Transaction) :
    Prunes hashFun p (evict hashFun p tx) := by
  unfold evict
  split
  · next it hit => exact prunes_eraseTransaction (Mempool.stores_of_find hit).1
  · exact .refl hashFun p

theorem prunes_foldl_evict (hashFun : String → ℕ) (txs : List Transaction) (p : Mempool) :
    Prunes hashFun p (txs.foldl (evict hashFun) p) := by
  induction txs generalizing p with
  | nil => exact .refl hashFun p
  | cons tx txs ih => exact (prunes_evict hashFun p tx).trans (ih _)

theorem prunes_evictBlocks {hashFun : String → ℕ} {s : Blockchain} {ids : List ℕ} {p p' : Mempool}
    (h : evictBlocks hashFun s ids p = some p') : Prunes hashFun p p' := by
  induction ids generalizing p with
  | nil =>
      obtain rfl := Option.some.inj h
      exact .refl hashFun p
  | cons id ids ih =>
      rw [evictBlocks, List.foldlM_cons] at h
      obtain ⟨p₁, hp₁, hrest⟩ := Option.bind_eq_some_iff.mp h
      obtain ⟨b, -, heq⟩ := Option.bind_eq_some_iff.mp hp₁
      obtain rfl := Option.some.inj heq
      exact (prunes_foldl_evict hashFun b.txs.list p).trans (ih hrest)

theorem prunes_selectTransactions (c : Config) (pick : ℕ → ℕ × ℕ) (p : Mempool) :
    Prunes c.hashFun p (selectTransactions c pick p).2 := by
  have hone : ∀ (st : TxSet × Mempool) (i : ℕ),
      Prunes c.hashFun st.2 (selectOne c pick st i).2 := by
    intro st i
    unfold selectOne
    split
    · next it hit => exact prunes_eraseTransaction (stores_of_nextTransaction hit)
    · exact .refl _ _
  have hall : ∀ (l : List ℕ) (st : TxSet × Mempool),
      Prunes c.hashFun st.2 (l.foldl (selectOne c pick) st).2 := by
    intro l
    induction l with
    | nil => exact fun st => .refl _ _
    | cons i l ih => exact fun st => (hone st i).trans (ih _)
  unfold selectTransactions
  split
  · exact .refl _ _
  · exact hall _ (∅, p)

/-- `p'` holds what `p` does and `new` transactions, under handles of their own. -/
def Pools (p p' : Mempool) (new : List Nat) : Prop :=
  p.nextHandle ≤ p'.nextHandle ∧ ∃ added : List (ℕ × HtabItem),
    p'.located.Perm (added ++ p.located) ∧ (∀ l ∈ added, p.nextHandle ≤ l.2.handle) ∧
      (added.map fun l => l.2.txId).Perm new

theorem Pools.refl (p : Mempool) : Pools p p [] :=
  ⟨le_rfl, [], List.Perm.refl _, fun _ hl => absurd hl List.not_mem_nil, List.Perm.nil⟩

theorem Pools.trans {p p' p'' : Mempool} {new new' : List ℕ} (h : Pools p p' new)
    (h' : Pools p' p'' new') : Pools p p'' (new ++ new') := by
  obtain ⟨hle, added, hloc, hhandle, hnew⟩ := h
  obtain ⟨hle', added', hloc', hhandle', hnew'⟩ := h'
  refine ⟨hle.trans hle', added' ++ added, ?_, fun l hl => ?_, ?_⟩
  · rw [List.append_assoc]
    exact hloc'.trans (hloc.append_left _)
  · obtain hl | hl := List.mem_append.mp hl
    · exact hle.trans (hhandle' l hl)
    · exact hhandle l hl
  · rw [List.map_append]
    exact (hnew'.append hnew).trans List.perm_append_comm

theorem pools_insert {hashFun : String → ℕ} {p : Mempool} (h : p.Linked hashFun)
    (minerId txId fee : ℕ) : Pools p (p.insert hashFun minerId txId fee) [txId] := by
  refine ⟨Nat.le_succ _, [_], h.located_insert minerId txId fee, ?_, List.Perm.refl _⟩
  intro l hl
  rw [List.mem_singleton.mp hl]
  exact le_rfl

/-! ## the batch -/

/-- The invariant of the batch. -/
structure Batched (c : Config) (n : Node) : Prop where
  linked : n.mempool.Linked c.hashFun
  /-- A flush is pending while anything waits. -/
  armed : n.pendingInvTx ≠ [] → n.invBatchEvent.isSome
  known : ∀ t ∈ n.pendingInvTx, n.knownTxs.contains t = true

theorem batched_init (c : Config) : Batched c (init c) where
  linked := Mempool.linked_init c.mempoolSize_pos
  armed h := absurd rfl h
  known _ ht := absurd ht List.not_mem_nil

/-- The batch takes in `new` transactions, which the event puts into the pool. -/
structure Joins (n : Node) (event : Event) (n' : Node) (new : List Nat) : Prop where
  pools : ∀ t, Inserts n n' t ↔ t ∈ new
  pendingInvTx : n'.pendingInvTx = n.pendingInvTx ++ new
  invBatchEvent : n'.invBatchEvent = if new = [] then n.invBatchEvent else some (excluded n event)
  nodup : new.Nodup
  /-- What a peer delivers is not waiting already. -/
  fresh : deliverer event ≠ none → ∀ t ∈ new, t ∉ n.pendingInvTx

theorem inserts_iff (h : n.mempool.Linked c.hashFun) {new : List ℕ}
    (hpools : Pools n.mempool n'.mempool new) (t : ℕ) : Inserts n n' t ↔ t ∈ new := by
  obtain ⟨-, added, hloc, hhandle, hnew⟩ := hpools
  rw [← hnew.mem_iff, List.mem_map]
  constructor
  · rintro ⟨l, hl, hle, rfl⟩
    obtain hl | hl := List.mem_append.mp (hloc.mem_iff.mp hl)
    · exact ⟨l, hl, rfl⟩
    · exact absurd (h.fresh l hl).1 (not_lt.mpr hle)
  · rintro ⟨l, hl, rfl⟩
    exact ⟨l, hloc.mem_iff.mpr (List.mem_append_left _ hl), hhandle l hl, rfl⟩

/-- What leaves the batch alone, and only takes transactions out of the pool. -/
structure Idle (c : Config) (n n' : Node) : Prop where
  prunes : Prunes c.hashFun n.mempool n'.mempool
  pendingInvTx : n'.pendingInvTx = n.pendingInvTx
  invBatchEvent : n'.invBatchEvent = n.invBatchEvent
  known : ∀ t, n.knownTxs.contains t = true → n'.knownTxs.contains t = true

namespace Idle

theorem refl (c : Config) (n : Node) : Idle c n n := ⟨.refl _ _, rfl, rfl, fun _ ht => ht⟩

theorem of_sameLedger (h : SameLedger n n') (hpending : n'.pendingInvTx = n.pendingInvTx)
    (hevent : n'.invBatchEvent = n.invBatchEvent) : Idle c n n' where
  prunes := h.mempool ▸ .refl _ _
  pendingInvTx := hpending
  invBatchEvent := hevent
  known _ ht := h.knownTxs ▸ ht

theorem batched (h : Idle c n n') (hb : Batched c n) : Batched c n' where
  linked := (h.prunes hb.linked).1
  armed := by
    rw [h.pendingInvTx, h.invBatchEvent]
    exact hb.armed
  known t ht := h.known t (hb.known t (h.pendingInvTx ▸ ht))

theorem joins (h : Idle c n n') (hb : Batched c n) (event : Event) : Joins n event n' [] where
  pools t := by
    refine iff_of_false ?_ List.not_mem_nil
    rintro ⟨l, hl, hle, -⟩
    exact absurd (hb.linked.fresh l ((h.prunes hb.linked).2 l hl)).1 (not_lt.mpr hle)
  pendingInvTx := by rw [h.pendingInvTx, List.append_nil]
  invBatchEvent := by rw [if_pos rfl, h.invBatchEvent]
  nodup := List.nodup_nil
  fresh _ t ht := absurd ht List.not_mem_nil

end Idle

/-! ## events that leave the batch alone -/

theorem Fetches.idle {r : Node × Sends} (h : Fetches n r) : Idle c n r.1 := by
  have hsame := h.sameLedger
  obtain ⟨⟨_, _, heq⟩, -⟩ := h
  exact .of_sameLedger hsame (by rw [heq]) (by rw [heq])

theorem Requeues.idle (h : Requeues n n') : Idle c n n' := by
  have hsame := h.sameLedger
  obtain ⟨_, _, _, rfl⟩ := h
  exact .of_sameLedger hsame rfl rfl

theorem idle_handleBlock {now : ℚ} {b : Block} {peer : Ipv4Address} {r : Node × Sends}
    (h : handleBlock c now n b peer = some r) : Idle c n r.1 := by
  obtain ⟨-, rfl⟩ | ⟨-, known, wasBlue, s, newly, p, hknown, -, -, -, hp, rfl⟩ := handleBlock_cases h
  · exact .refl c n
  · exact ⟨prunes_evictBlocks hp, rfl, rfl, (contains_foldlM_insert hknown).1⟩

theorem idle_mineBlock {now : ℚ} {pick : ℕ → ℕ × ℕ} {store : BlockBodyStore}
    {r : BlockBodyStore × Node × Sends} (h : mineBlock c now pick store n = some r) :
    Idle c n r.2.1 := by
  obtain ⟨s, -, rfl⟩ := mineBlock_cases h
  exact ⟨prunes_selectTransactions c pick n.mempool, rfl, rfl, fun _ ht => ht⟩

/-! ## events that add to the batch -/

/-- `n'` has `new` transactions more, in the pool and in the batch, none of
which the node knew. -/
structure Admits (c : Config) (n n' : Node) (new : List Nat) : Prop where
  linked : n'.mempool.Linked c.hashFun
  pools : Pools n.mempool n'.mempool new
  pendingInvTx : n'.pendingInvTx = n.pendingInvTx ++ new
  invBatchEvent : n'.invBatchEvent = n.invBatchEvent
  known : ∀ t, n.knownTxs.contains t = true → n'.knownTxs.contains t = true
  nodup : new.Nodup
  was_unknown : ∀ t ∈ new, n.knownTxs.contains t = false
  now_known : ∀ t ∈ new, n'.knownTxs.contains t = true

theorem Admits.refl (h : n.mempool.Linked c.hashFun) : Admits c n n [] where
  linked := h
  pools := .refl _
  pendingInvTx := (List.append_nil _).symm
  invBatchEvent := rfl
  known _ ht := ht
  nodup := List.nodup_nil
  was_unknown _ ht := absurd ht List.not_mem_nil
  now_known _ ht := absurd ht List.not_mem_nil

theorem Admits.trans {n'' : Node} {new new' : List ℕ} (h : Admits c n n' new)
    (h' : Admits c n' n'' new') : Admits c n n'' (new ++ new') where
  linked := h'.linked
  pools := h.pools.trans h'.pools
  pendingInvTx := by rw [h'.pendingInvTx, h.pendingInvTx, List.append_assoc]
  invBatchEvent := h'.invBatchEvent.trans h.invBatchEvent
  known t ht := h'.known t (h.known t ht)
  nodup := by
    refine List.nodup_append'.mpr ⟨h.nodup, h'.nodup, fun t ht ht' => ?_⟩
    exact absurd (h.now_known t ht) (Bool.eq_false_iff.mp (h'.was_unknown t ht'))
  was_unknown t ht := by
    obtain ht | ht := List.mem_append.mp ht
    · exact h.was_unknown t ht
    · exact Bool.eq_false_iff.mpr fun hk =>
        Bool.eq_false_iff.mp (h'.was_unknown t ht) (h.known t hk)
  now_known t ht := by
    obtain ht | ht := List.mem_append.mp ht
    · exact h'.known t (h.now_known t ht)
    · exact h'.now_known t ht

/-- One received transaction. -/
theorem admits_accept (h : n.mempool.Linked c.hashFun) {draw : ℕ → ℕ} {tx : Transaction}
    (hrun : accept c draw n tx = some n') : ∃ new, Admits c n n' new := by
  have hrefl := Admits.refl h
  obtain ⟨-, rfl⟩ | ⟨hunknown, known, hknown, hcases⟩ := accept_cases hrun
  · exact ⟨[], { hrefl with }⟩
  · have hmono : ∀ t, n.knownTxs.contains t = true → known.contains t = true :=
      fun t ht => TxIdSet.contains_of_insert hknown ht
    obtain ⟨-, rfl⟩ | ⟨-, rfl⟩ := hcases
    · exact ⟨[], { hrefl with
        known := hmono
        now_known := fun _ ht => absurd ht List.not_mem_nil }⟩
    · refine ⟨[tx.txId], h.insert _ _ _, pools_insert h _ _ _, rfl, rfl, hmono,
        List.nodup_singleton _, fun t ht => ?_, fun t ht => ?_⟩
      · rw [List.mem_singleton.mp ht]
        exact hunknown
      · rw [List.mem_singleton.mp ht]
        exact TxIdSet.contains_insert_self hknown

theorem admits_foldlM_accept {draw : ℕ → ℕ} {txs : List Transaction}
    (h : n.mempool.Linked c.hashFun) (hrun : txs.foldlM (accept c draw) n = some n') :
    ∃ new, Admits c n n' new := by
  induction txs generalizing n with
  | nil =>
      obtain rfl := Option.some.inj hrun
      exact ⟨[], .refl h⟩
  | cons tx txs ih =>
      rw [List.foldlM_cons] at hrun
      obtain ⟨n₁, hacc, hrest⟩ := Option.bind_eq_some_iff.mp hrun
      obtain ⟨new, hadm⟩ := admits_accept h hacc
      obtain ⟨new', hadm'⟩ := ih hadm.linked hrest
      exact ⟨new ++ new', hadm.trans hadm'⟩

theorem joins_handleTransactions (h : Batched c n) {draw : ℕ → ℕ} {txs : List Transaction}
    {peer : Ipv4Address} (hrun : handleTransactions c draw n txs peer = some n') :
    Batched c n' ∧ ∃ new, Joins n (.handleTransactions draw txs peer) n' new := by
  obtain ⟨m, hm, hcases⟩ := handleTransactions_cases hrun
  obtain ⟨new, hadm⟩ := admits_foldlM_accept h.linked hm
  have hpending := hadm.pendingInvTx
  have hinserts : ∀ t, Inserts n m t ↔ t ∈ new := inserts_iff h.linked hadm.pools
  have hfresh : ∀ t ∈ new, t ∉ n.pendingInvTx := fun t ht hold =>
    absurd (h.known t hold) (Bool.eq_false_iff.mp (hadm.was_unknown t ht))
  have hknown : ∀ t ∈ m.pendingInvTx, m.knownTxs.contains t = true := by
    intro t ht
    rw [hpending] at ht
    obtain ht | ht := List.mem_append.mp ht
    · exact hadm.known t (h.known t ht)
    · exact hadm.now_known t ht
  obtain ⟨hnil, rfl⟩ | ⟨hsome, rfl⟩ := hcases
  · have hnew : new = [] := (List.append_eq_nil_iff.mp (hpending.symm.trans hnil)).2
    refine ⟨⟨hadm.linked, fun hne => absurd hnil hne, hknown⟩, new, ?_⟩
    exact ⟨hinserts, hpending, by rw [if_pos hnew, hadm.invBatchEvent], hadm.nodup, fun _ => hfresh⟩
  · refine ⟨⟨hadm.linked, fun _ => rfl, hknown⟩, new, ⟨hinserts, hpending, ?_, hadm.nodup,
      fun _ => hfresh⟩⟩
    dsimp only
    rw [hadm.invBatchEvent]
    split
    · next hnew =>
        -- then something was waiting before, and its flush is pending
        have hold : n.pendingInvTx ≠ [] := by
          intro hnil
          rw [hpending, hnil, hnew] at hsome
          exact hsome rfl
        obtain ⟨exclude, hexclude⟩ := Option.isSome_iff_exists.mp (h.armed hold)
        rw [hexclude]
        rfl
    · rfl

theorem joins_generateTransaction (h : Batched c n) {fee : ℕ}
    (hrun : generateTransaction c n fee = some n') :
    Batched c n' ∧ ∃ new, Joins n (.generateTransaction fee) n' new := by
  obtain ⟨-, rfl⟩ | ⟨-, -, known, hknown, rfl⟩ := generateTransaction_cases hrun
  · exact ⟨h, [], (Idle.refl c n').joins h _⟩
  · refine ⟨⟨h.linked.insert _ _ _, fun _ => rfl, fun t ht => ?_⟩, [nextTxId c n],
      ⟨inserts_iff h.linked (pools_insert h.linked c.id (nextTxId c n) fee), rfl, ?_,
        List.nodup_singleton _, fun hne => absurd rfl hne⟩⟩
    · obtain ht | ht := List.mem_append.mp ht
      · exact TxIdSet.contains_of_insert hknown (h.known t ht)
      · rw [List.mem_singleton.mp ht]
        exact TxIdSet.contains_insert_self hknown
    · rw [if_neg (List.cons_ne_nil _ _)]
      rfl

/-- **One event that is no flush**: what it puts into the pool joins the batch. -/
theorem Batched.step (h : Batched c n) {i : Input} {store : BlockBodyStore} {sends : Sends}
    (hi : ¬ IsFlush i.event) (hrun : step c i.now i.store n i.event = some (store, n', sends)) :
    Batched c n' ∧ ∃ new, Joins n i.event n' new := by
  obtain ⟨now, store₀, event⟩ := i
  have hidle : ∀ {m : Node}, Idle c n m → m = n' →
      Batched c n' ∧ ∃ new, Joins n event n' new := by
    rintro m hm rfl
    exact ⟨hm.batched h, [], hm.joins h event⟩
  cases event with
  | handleInvRelayBlock blockHash peer =>
      exact hidle (fetches_handleInvRelayBlock blockHash peer).idle
        (congrArg (·.2.1) (Option.some.inj hrun))
  | handleReqRelayBlock blockHash peer =>
      exact hidle (.refl c n) (congrArg (·.2.1) (Option.some.inj hrun))
  | handleBlock b peer =>
      obtain ⟨r, hr, heq⟩ := Option.bind_eq_some_iff.mp hrun
      exact hidle (idle_handleBlock hr) (congrArg (·.2.1) (Option.some.inj heq))
  | handleInvTransactions txIds peer =>
      exact hidle (requeues_handleInvTransactions txIds peer).1.idle
        (congrArg (·.2.1) (Option.some.inj hrun))
  | handleReqTransactions txIds peer =>
      exact hidle (.refl c n) (congrArg (·.2.1) (Option.some.inj hrun))
  | handleTransactions draw txs peer =>
      obtain ⟨r, hr, heq⟩ := Option.bind_eq_some_iff.mp hrun
      obtain rfl : r = n' := congrArg (·.2.1) (Option.some.inj heq)
      exact joins_handleTransactions h hr
  | invTimeoutExpired blockHash pick =>
      exact hidle (fetches_invTimeoutExpired blockHash pick).idle
        (congrArg (·.2.1) (Option.some.inj hrun))
  | processTxTimeouts pick =>
      obtain ⟨r, hr, heq⟩ := Option.bind_eq_some_iff.mp hrun
      exact hidle (requeues_processTxTimeouts hr).1.idle (congrArg (·.2.1) (Option.some.inj heq))
  | flushInvBatch => exact absurd trivial hi
  | generateTransaction fee =>
      obtain ⟨r, hr, heq⟩ := Option.bind_eq_some_iff.mp hrun
      obtain rfl : r = n' := congrArg (·.2.1) (Option.some.inj heq)
      exact joins_generateTransaction h hr
  | mineBlock pick => exact hidle (idle_mineBlock hrun) rfl

/-! ## from a step to its flush -/

theorem isFlush_iff {event : Event} : IsFlush event ↔ event = .flushInvBatch := by
  cases event <;> simp [IsFlush]

/-- A flush empties the batch. -/
theorem Batched.flush (h : Batched c n)
    (hn' : n' = { n with pendingInvTx := [], invBatchEvent := none }) : Batched c n' := by
  subst hn'
  exact ⟨h.linked, fun hne => absurd rfl hne, fun t ht => absurd ht List.not_mem_nil⟩

theorem Batched.step_any (h : Batched c n) {i : Input} {store : BlockBodyStore} {sends : Sends}
    (hrun : Node.step c i.now i.store n i.event = some (store, n', sends)) : Batched c n' := by
  by_cases hi : IsFlush i.event
  · rw [isFlush_iff.mp hi, Node.step] at hrun
    split at hrun
    · exact h.flush (congrArg (·.2.1) (Option.some.inj hrun)).symm
    · obtain rfl : n = n' := congrArg (·.2.1) (Option.some.inj hrun)
      exact h
  · exact (h.step hi hrun).1

theorem after_cons {i : Input} {inputs : List Input} {m : Node} :
    after c n (i :: inputs) = some m ↔ ∃ store n' sends,
      step c i.now i.store n i.event = some (store, n', sends) ∧ after c n' inputs = some m := by
  rw [after, List.foldlM_cons]
  constructor
  · intro h
    obtain ⟨n', hn', hrest⟩ := Option.bind_eq_some_iff.mp h
    obtain ⟨⟨store, n', sends⟩, hstep, rfl⟩ := Option.map_eq_some_iff.mp hn'
    exact ⟨store, n', sends, hstep, hrest⟩
  · rintro ⟨store, n', sends, hstep, hrest⟩
    exact Option.bind_eq_some_iff.mpr ⟨n', Option.map_eq_some_iff.mpr ⟨_, hstep, rfl⟩, hrest⟩

/-- The invariant of the batch along a run. -/
theorem Batched.after (h : Batched c n) {inputs : List Input}
    (hrun : Node.after c n inputs = some n') : Batched c n' := by
  induction inputs generalizing n with
  | nil =>
      obtain rfl := Option.some.inj hrun
      exact h
  | cons i inputs ih =>
      obtain ⟨store, n₁, sends, hstep, hrest⟩ := after_cons.mp hrun
      exact ih (h.step_any hstep) hrest

/-- **A batch that has something in it** only grows until it is flushed, and
keeps the address it excludes. -/
theorem Batched.window (h : Batched c n) (hne : n.pendingInvTx ≠ []) {mid : List Input}
    (hmid : ∀ k ∈ mid, ¬ IsFlush k.event) (hrun : Node.after c n mid = some n') :
    Batched c n' ∧ n'.invBatchEvent = n.invBatchEvent ∧
      ∃ more, n'.pendingInvTx = n.pendingInvTx ++ more := by
  induction mid generalizing n with
  | nil =>
      obtain rfl := Option.some.inj hrun
      exact ⟨h, rfl, [], (List.append_nil _).symm⟩
  | cons i mid ih =>
      obtain ⟨store, n₁, sends, hstep, hrest⟩ := after_cons.mp hrun
      obtain ⟨hb, new, hjoin⟩ := h.step (hmid i List.mem_cons_self) hstep
      have hne₁ : n₁.pendingInvTx ≠ [] := by
        rw [hjoin.pendingInvTx]
        exact List.append_ne_nil_of_left_ne_nil hne new
      have hevent : n₁.invBatchEvent = n.invBatchEvent := by
        obtain ⟨exclude, hexclude⟩ := Option.isSome_iff_exists.mp (h.armed hne)
        rw [hjoin.invBatchEvent, excluded, hexclude, Option.getD_some, ite_self]
      obtain ⟨hb', hevent', more, hmore⟩ :=
        ih hb hne₁ (fun k hk => hmid k (List.mem_cons_of_mem i hk)) hrest
      exact ⟨hb', hevent'.trans hevent, new ++ more, by
        rw [hmore, hjoin.pendingInvTx, List.append_assoc]⟩

/-- A flush puts nothing into the pool. -/
theorem not_isFlush_of_inserts (h : Batched c n) {i : Input} {store : BlockBodyStore} {sends : Sends}
    (hrun : step c i.now i.store n i.event = some (store, n', sends)) {t : ℕ}
    (ht : Inserts n n' t) : ¬ IsFlush i.event := by
  intro hi
  have hpool : n'.mempool = n.mempool := by
    rw [isFlush_iff.mp hi, step] at hrun
    split at hrun
    · exact (congrArg (·.2.1.mempool) (Option.some.inj hrun)).symm
    · exact (congrArg (·.2.1.mempool) (Option.some.inj hrun)).symm
  obtain ⟨l, hl, hle, -⟩ := ht
  rw [hpool] at hl
  exact absurd (h.linked.fresh l hl).1 (not_lt.mpr hle)

/-- What a pending flush sends. -/
theorem announcements_step {exclude : Ipv4Address} (hn : n.invBatchEvent = some exclude) {j : Input}
    (hj : IsFlush j.event) {store : BlockBodyStore} {flushed : Sends}
    (hrun : step c j.now j.store n j.event = some (store, n', flushed)) (peer : Ipv4Address)
    (t : ℕ) : announcements flushed peer t =
      if peer = exclude then 0 else c.peersAddresses.count peer * n.pendingInvTx.count t := by
  rw [isFlush_iff.mp hj, step, hn] at hrun
  obtain rfl : (flushInvBatch c n exclude).2 = flushed := congrArg (·.2.2) (Option.some.inj hrun)
  exact announcements_flushInvBatch n exclude peer t

/-- Where no batch takes in a transaction that waits in it already, one that
waits is still waiting once when the flush comes. -/
theorem count_pendingInvTx {inputs mid : List Input} (past : List Input) {j : Input} {m m' : Node}
    {store' : BlockBodyStore} {flushed : Sends} (h : Unexcluded c inputs)
    (hpre : past ++ (mid ++ [j]) <+: inputs) (hpast : after c (init c) past = some n)
    (hmid : after c n mid = some m) (hno : ∀ k ∈ mid, ¬ IsFlush k.event) (hj : IsFlush j.event)
    (hflush : step c j.now j.store m j.event = some (store', m', flushed)) {peer : Ipv4Address}
    (hpeer : peer ∈ c.peersAddresses) {t : ℕ} (ht : t ∈ n.pendingInvTx) :
    m.pendingInvTx.count t = n.pendingInvTx.count t := by
  induction mid generalizing past n with
  | nil =>
      obtain rfl := Option.some.inj hmid
      rfl
  | cons i mid ih =>
      obtain ⟨store, n₁, sends, hstep, hrest⟩ := after_cons.mp hmid
      have hnot := hno i List.mem_cons_self
      have hrest_no : ∀ k ∈ mid, ¬ IsFlush k.event := fun k hk => hno k (List.mem_cons_of_mem i hk)
      obtain ⟨-, new, hjoin⟩ := ((batched_init c).after hpast).step hnot hstep
      have hnew : t ∉ new := by
        intro hmem
        by_cases hdel : deliverer i.event = none
        · have w : Window c inputs n i n₁ flushed :=
            ⟨past, mid, j, m, m', store, store', sends, hpre, hpast, hstep, hrest, hrest_no, hj, hflush⟩
          have hall : deliverer i.event ≠ some peer := hdel ▸ (Option.some_ne_none peer).symm
          exact (h n n₁ i flushed w t ((hjoin.pools t).mpr hmem) peer hpeer hall).2.1 ht
        · exact hjoin.fresh hdel t hmem ht
      have hpast₁ : after c (init c) (past ++ [i]) = some n₁ := by
        rw [after, List.foldlM_append]
        exact Option.bind_eq_some_iff.mpr ⟨n, hpast, after_cons.mpr ⟨store, n₁, sends, hstep, rfl⟩⟩
      rw [ih (past ++ [i]) (by simpa using hpre) hpast₁ hrest hrest_no
        (hjoin.pendingInvTx ▸ List.mem_append_left new ht), hjoin.pendingInvTx, List.count_append,
        List.count_eq_zero_of_not_mem hnew, Nat.add_zero]

/-- **What the next flush announces** of a transaction that has just joined;
where no batch takes in what waits in it already, it does not join again. -/
theorem Window.announcements_eq {inputs : List Input} {i : Input} {flushed : Sends}
    (w : Window c inputs n i n' flushed) {t : ℕ} (ht : Inserts n n' t) :
    ∃ new more, t ∈ new ∧ new.Nodup ∧ n'.pendingInvTx = n.pendingInvTx ++ new ∧
      (∀ peer, announcements flushed peer t = if peer = excluded n i.event then 0
        else c.peersAddresses.count peer * (n'.pendingInvTx ++ more).count t) ∧
      (Unexcluded c inputs → ∀ peer ∈ c.peersAddresses,
        (n'.pendingInvTx ++ more).count t = n'.pendingInvTx.count t) := by
  obtain ⟨past, mid, j, m, m', store, store', sends, hpre, hpast, hstep, hmid, hno, hj, hflush⟩ :=
    w.exists_flush
  have hb := (batched_init c).after hpast
  obtain ⟨hb', new, hjoin⟩ := hb.step (not_isFlush_of_inserts hb hstep ht) hstep
  have hnew : t ∈ new := (hjoin.pools t).mp ht
  have hne : n'.pendingInvTx ≠ [] := by
    rw [hjoin.pendingInvTx]
    exact List.append_ne_nil_of_right_ne_nil _ (List.ne_nil_of_mem hnew)
  obtain ⟨-, hevent, more, hmore⟩ := hb'.window hne hno hmid
  rw [hjoin.invBatchEvent, if_neg (List.ne_nil_of_mem hnew)] at hevent
  refine ⟨new, more, hnew, hjoin.nodup, hjoin.pendingInvTx, fun peer => ?_,
    fun hall peer hpeer => ?_⟩
  · rw [announcements_step hevent hj hflush, hmore]
  · have hpast₁ : after c (init c) (past ++ [i]) = some n' := by
      rw [after, List.foldlM_append]
      exact Option.bind_eq_some_iff.mpr ⟨n, hpast, after_cons.mpr ⟨store, n', sends, hstep, rfl⟩⟩
    rw [← hmore]
    exact count_pendingInvTx (past ++ [i]) hall (by simpa using hpre) hpast₁ hmid hno hj hflush hpeer
      (hjoin.pendingInvTx ▸ List.mem_append_right _ hnew)

/-- **Every transaction is announced to every peer but its deliverer exactly
when** each joins a batch that excludes no other peer. -/
theorem announced_iff (c : Config) (inputs : List Input) :
    Announced c inputs ↔ Unexcluded c inputs := by
  constructor
  · intro h n n' i flushed w t ht peer hpeer hdel
    have hone := h n n' i flushed w t ht peer hpeer hdel
    obtain ⟨new, more, hnew, -, hpending, hcount, -⟩ := w.announcements_eq ht
    rw [hcount, hpending] at hone
    split at hone
    · exact absurd hone (by decide)
    · next hne =>
        obtain ⟨hpeers, hbatch⟩ := mul_eq_one.mp hone
        refine ⟨hne, fun hold => ?_, hpeers⟩
        have h1 := List.count_pos_iff.mpr hold
        have h2 := List.count_pos_iff.mpr hnew
        simp only [List.count_append] at hbatch
        omega
  · intro h n n' i flushed w t ht peer hpeer hdel
    obtain ⟨hne, hold, hpeers⟩ := h n n' i flushed w t ht peer hpeer hdel
    obtain ⟨new, more, hnew, hnodup, hpending, hcount, hwaits⟩ := w.announcements_eq ht
    rw [hcount, if_neg hne, hpeers, hwaits h peer hpeer, hpending, List.count_append,
      List.count_eq_zero_of_not_mem hold, List.count_eq_one_of_mem hnodup hnew]

/-! ## a transaction kept from a peer -/

/-- Each peer delivers a transaction, the second one into the batch that
excludes the first peer. -/
def firstDelivery : Input := ⟨0, ∅, .handleTransactions (fun _ => 3) [txOf7 0 1] 1⟩

def secondDelivery : Input := ⟨0, ∅, .handleTransactions (fun _ => 3) [txOf7 1 2] 2⟩

def theFlush : Input := ⟨0, ∅, .flushInvBatch⟩

/-- The second transaction is pooled, and not announced to the first peer. -/
def keptBack : Option Bool := do
  let n ← after twoPeers (init twoPeers) [firstDelivery]
  let (_, n', _) ← step twoPeers 0 ∅ n secondDelivery.event
  let (_, _, flushed) ← step twoPeers 0 ∅ n' .flushInvBatch
  return decide (∃ l ∈ n'.mempool.located, n.mempool.nextHandle ≤ l.2.handle ∧
    l.2.txId = 7 * 2 ^ 32 + 1) && announcements flushed 1 (7 * 2 ^ 32 + 1) == 0

/-- **A batch can keep a transaction from a peer that has not seen it.** -/
theorem not_announced :
    ¬ Announced twoPeers [firstDelivery, secondDelivery, theFlush] := by
  intro h
  have hkept : keptBack = some true := by decide +kernel
  unfold keptBack at hkept
  obtain ⟨n, hn, hkept⟩ := Option.bind_eq_some_iff.mp hkept
  obtain ⟨⟨store, n', sends⟩, hstep, hkept⟩ := Option.bind_eq_some_iff.mp hkept
  obtain ⟨⟨store', m', flushed⟩, hflush, hkept⟩ := Option.bind_eq_some_iff.mp hkept
  obtain ⟨hins, hzero⟩ := Bool.and_eq_true_iff.mp (Option.some.inj hkept)
  have w : Window twoPeers [firstDelivery, secondDelivery, theFlush] n secondDelivery n' flushed :=
    ⟨[firstDelivery], [], theFlush, n', m', store, store', sends, List.prefix_rfl, hn, hstep, rfl,
      fun _ hk => absurd hk List.not_mem_nil, trivial, hflush⟩
  have hins := of_decide_eq_true hins
  have hone := h n n' secondDelivery flushed w _ hins 1 (by decide) (by decide)
  rw [beq_iff_eq.mp hzero] at hone
  exact absurd hone (by decide)

end Node

end GhostDag
