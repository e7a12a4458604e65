import GhostDag.Node.Eviction
import GhostDag.Node.Timeouts

/-!
# GhostDag.Node.Requests

The bookkeeping of transaction requests: one map of requests, one queue of
deadlines and one timer (`m_queue_inv_tx`, `m_tx_timeout_queue`,
`m_txTimeoutEvent`).

The time-out is the same for every request, so deadlines are queued in
ascending order and one timer for the first is enough.  Entries go stale when
a transaction arrives, but every open request keeps an entry of its own
(`Tracked`), and a peer is asked at most once for each of its announcements
(`requests_tracked`).
-/

namespace GhostDag

open Std (ExtTreeMap ExtTreeSet)
open Containers

namespace Node

variable {c : Config} {now : ℚ} {n n' : Node}

/-! ## runs -/

/-- The state after some inputs, and every message sent on the way. -/
def trace (c : Config) (inputs : List Input) : Option (Node × Sends) :=
  inputs.foldlM
    (fun st i => (step c i.now i.store st.1 i.event).map fun r => (r.2.1, st.2 ++ r.2.2))
    (init c, [])

theorem trace_append {past : List Input} {i : Input} {st : Node × Sends} :
    trace c (past ++ [i]) = some st ↔ ∃ m sent store sends,
      trace c past = some (m, sent) ∧ step c i.now i.store m i.event = some (store, st.1, sends) ∧
        st.2 = sent ++ sends := by
  rw [trace, foldlM_append_singleton]
  constructor
  · intro h
    obtain ⟨⟨m, sent⟩, hpast, h⟩ := h
    obtain ⟨⟨store, n', sends⟩, hstep, rfl⟩ := Option.map_eq_some_iff.mp h
    exact ⟨m, sent, store, sends, hpast, hstep, rfl⟩
  · intro h
    obtain ⟨m, sent, store, sends, hpast, hstep, hsends⟩ := h
    exact ⟨(m, sent), hpast, Option.map_eq_some_iff.mpr ⟨_, hstep, Prod.ext rfl hsends.symm⟩⟩

/-! ## announcements and requests -/

/-- How often messages ask a peer for a transaction. -/
def requests (sends : Sends) (peer : Ipv4Address) (t : Nat) : Nat :=
  (sends.map fun s =>
    match s with
    | (dest, .reqTransactions txIds) => if dest = peer then txIds.count t else 0
    | _ => 0).sum

/-- How often an event announces a transaction of a peer. -/
def announces (event : Event) (peer : Ipv4Address) (t : Nat) : Nat :=
  match event with
  | .handleInvTransactions txIds sender => if sender = peer then txIds.count t else 0
  | _ => 0

/-- How often a peer has announced a transaction. -/
def announced (inputs : List Input) (peer : Ipv4Address) (t : Nat) : Nat :=
  (inputs.map fun i => announces i.event peer t).sum

/-- The announcers of a transaction, the one asked first. -/
def announcersOf (n : Node) (t : Nat) : List Ipv4Address := (n.queueInvTx.getD t {}).announcers

/-- The announcements of a peer that it has not been asked for. -/
def waiting (n : Node) (peer : Ipv4Address) (t : Nat) : Nat :=
  ((n.announcersOf t).drop 1).count peer

theorem announced_append (past : List Input) (i : Input) (peer : Ipv4Address) (t : ℕ) :
    announced (past ++ [i]) peer t = announced past peer t + announces i.event peer t := by
  simp [announced]

theorem requests_append (sends sends' : Sends) (peer : Ipv4Address) (t : ℕ) :
    requests (sends ++ sends') peer t = requests sends peer t + requests sends' peer t := by
  simp [requests]

/-! ## the invariant -/

/-- **The deadlines cover the open requests.** -/
structure Tracked (c : Config) (now : ℚ) (n : Node) : Prop where
  sorted : n.txTimeoutQueue.Pairwise fun e e' => e.1 ≤ e'.1
  bounded : ∀ e ∈ n.txTimeoutQueue, e.1 ≤ now + c.invTimeout
  live : ∀ (t : ℕ) (req : TxRequest), n.queueInvTx[t]? = some req →
    req.announcers ≠ [] ∧ (req.deadline, t) ∈ n.txTimeoutQueue

/-- The timer is due at the first deadline. -/
def Timed (n : Node) : Prop := n.txTimeoutEvent = n.txTimeoutQueue.head?.map Prod.fst

theorem tracked_init (c : Config) (now : ℚ) : Tracked c now (init c) where
  sorted := List.Pairwise.nil
  bounded e he := absurd he List.not_mem_nil
  live t req h := by simp [init] at h

theorem timed_init (c : Config) : Timed (init c) := rfl

theorem Tracked.mono {now' : ℚ} (h : Tracked c now n) (hle : now ≤ now') : Tracked c now' n where
  sorted := h.sorted
  bounded e he := (h.bounded e he).trans (by linarith)
  live := h.live

/-- A deadline that is not before any other can go to the end. -/
theorem pairwise_append_deadline {queue : List (ℚ × ℕ)} (h : queue.Pairwise fun e e' => e.1 ≤ e'.1)
    {e : ℚ × ℕ} (hle : ∀ e' ∈ queue, e'.1 ≤ e.1) :
    (queue ++ [e]).Pairwise fun e e' => e.1 ≤ e'.1 :=
  List.pairwise_append.mpr ⟨h, List.pairwise_singleton _ _, fun e' he' _ hmem =>
    List.mem_singleton.mp hmem ▸ hle e' he'⟩

/-- `n'` has the requests, the deadlines and the timer of `n`. -/
structure SameRequests (n n' : Node) : Prop where
  queueInvTx : n'.queueInvTx = n.queueInvTx
  txTimeoutQueue : n'.txTimeoutQueue = n.txTimeoutQueue
  txTimeoutEvent : n'.txTimeoutEvent = n.txTimeoutEvent

/-- What a step keeps, and whom it asks: nobody more often than announced. -/
structure Keeps (c : Config) (now : ℚ) (n : Node) (event : Event) (n' : Node) (sends : Sends) :
    Prop where
  tracked : Tracked c now n'
  timed : Timed n'
  asks : ∀ peer t, requests sends peer t + waiting n' peer t ≤ waiting n peer t + announces event peer t

theorem SameRequests.keeps (h : SameRequests n n') (ht : Tracked c now n) (htimed : Timed n)
    {event : Event} {sends : Sends} (hsends : ∀ peer t, requests sends peer t = 0) :
    Keeps c now n event n' sends where
  tracked := ⟨h.txTimeoutQueue ▸ ht.sorted, h.txTimeoutQueue ▸ ht.bounded, by
    rw [h.queueInvTx, h.txTimeoutQueue]
    exact ht.live⟩
  timed := by
    rw [Timed, h.txTimeoutEvent, h.txTimeoutQueue]
    exact htimed
  asks peer t := by
    rw [hsends, waiting, announcersOf, h.queueInvTx, Nat.zero_add]
    exact Nat.le_add_right _ _

/-! ## the timer -/

theorem armTxTimeoutTimer_frame (now : ℚ) (n : Node) :
    (n.armTxTimeoutTimer now).queueInvTx = n.queueInvTx ∧
      (n.armTxTimeoutTimer now).txTimeoutQueue = n.txTimeoutQueue := by
  obtain ⟨event, heq⟩ := armTxTimeoutTimer_eq now n
  rw [heq]
  exact ⟨rfl, rfl⟩

/-- Arming times the first deadline, unless it is timed already. -/
theorem timed_armTxTimeoutTimer
    (h : Timed n ∨ n.txTimeoutEvent = none ∧ ∀ e ∈ n.txTimeoutQueue, now ≤ e.1) :
    Timed (n.armTxTimeoutTimer now) := by
  unfold armTxTimeoutTimer
  split
  · next deadline txId queue hq hev =>
      obtain h | ⟨-, hfuture⟩ := h
      · rw [Timed, hq, hev] at h
        exact absurd h.symm (Option.some_ne_none _)
      · have hle : now ≤ deadline := hfuture (deadline, txId) (hq ▸ List.mem_cons_self)
        rw [Timed]
        simp only [hq, List.head?_cons, Option.map_some]
        rw [max_eq_left (sub_nonneg.mpr hle), add_sub_cancel]
  · next hno =>
      obtain h | ⟨hev, -⟩ := h
      · exact h
      · rw [Timed, hev]
        cases hq : n.txTimeoutQueue with
        | nil => rfl
        | cons e queue => exact absurd hev (hno e.1 e.2 queue hq)

theorem Tracked.arm (h : Tracked c now n) : Tracked c now (n.armTxTimeoutTimer now) := by
  obtain ⟨hmap, hqueue⟩ := armTxTimeoutTimer_frame now n
  exact ⟨hqueue ▸ h.sorted, hqueue ▸ h.bounded, by rw [hmap, hqueue]; exact h.live⟩

/-! ## announcements -/

theorem announcersOf_eq (n : Node) (t : ℕ) :
    n.announcersOf t = (n.queueInvTx[t]?.map TxRequest.announcers).getD [] := by
  rw [announcersOf, ExtTreeMap.getD_eq_getD_getElem?]
  cases n.queueInvTx[t]? <;> rfl

theorem announcersOf_insert {txId : ℕ} {req : TxRequest}
    (h : n'.queueInvTx = n.queueInvTx.insert txId req) (t : ℕ) :
    n'.announcersOf t = if t = txId then req.announcers else n.announcersOf t := by
  rw [announcersOf_eq, announcersOf_eq, h, getElem?_insert]
  split <;> rfl

theorem announcersOf_erase {txId : ℕ} (h : n'.queueInvTx = n.queueInvTx.erase txId) (t : ℕ) :
    n'.announcersOf t = if t = txId then [] else n.announcersOf t := by
  rw [announcersOf_eq, announcersOf_eq, h, getElem?_erase]
  split <;> rfl

/-- The entries of a message to `dest` that count for a peer. -/
def countFor (dest peer : Ipv4Address) (txIds : List Nat) (t : Nat) : Nat :=
  if dest = peer then txIds.count t else 0

theorem countFor_append (dest peer : Ipv4Address) (l l' : List ℕ) (t : ℕ) :
    countFor dest peer (l ++ l') t = countFor dest peer l t + countFor dest peer l' t := by
  unfold countFor
  split
  · exact List.count_append
  · rfl

theorem requests_singleton (dest peer : Ipv4Address) (txIds : List ℕ) (t : ℕ) :
    requests [(dest, .reqTransactions txIds)] peer t = countFor dest peer txIds t := by
  simp [requests, countFor]

/-- What announced ids do to the requests: `new` deadlines are queued, one for
each id that is asked for. -/
structure Notes (c : Config) (now : ℚ) (sender : Ipv4Address) (txIds : List Nat)
    (st st' : Node × List Nat) : Prop where
  tracked : Tracked c now st'.1
  txTimeoutEvent : st'.1.txTimeoutEvent = st.1.txTimeoutEvent
  exists_new : ∃ new : List (ℚ × ℕ), st'.1.txTimeoutQueue = st.1.txTimeoutQueue ++ new ∧
    (∀ e ∈ new, e.1 = now + c.invTimeout) ∧ st'.2.length = st.2.length + new.length
  asks : ∀ peer t, countFor sender peer st'.2 t + waiting st'.1 peer t ≤
    countFor sender peer st.2 t + waiting st.1 peer t + countFor sender peer txIds t

theorem Notes.refl {sender : Ipv4Address} {txIds : List ℕ} {st : Node × List ℕ}
    (h : Tracked c now st.1) : Notes c now sender txIds st st where
  tracked := h
  txTimeoutEvent := rfl
  exists_new := ⟨[], (List.append_nil _).symm, fun _ he => absurd he List.not_mem_nil, rfl⟩
  asks _ _ := Nat.le_add_right _ _

theorem notes_announce (sender : Ipv4Address) {st : Node × List ℕ} (h : Tracked c now st.1)
    (txId : ℕ) : Notes c now sender [txId] st (announce c now sender st txId) := by
  obtain ⟨n, wanted⟩ := st
  unfold announce
  dsimp only
  split
  · exact .refl h
  · have hone : ∀ peer t, countFor sender peer [txId] t =
        if sender = peer ∧ txId = t then 1 else 0 := by
      intro peer t
      unfold countFor
      by_cases hp : sender = peer <;> by_cases ht : txId = t <;> simp [hp, ht]
    split
    · next hempty =>
        -- the first announcement: ask now
        have hnone : n.announcersOf txId = [] := List.isEmpty_iff.mp hempty
        refine ⟨⟨?_, ?_, ?_⟩, rfl, ⟨[(now + c.invTimeout, txId)], rfl, by simp, by simp⟩, ?_⟩
        · exact pairwise_append_deadline h.sorted h.bounded
        · intro e he
          obtain he | he := List.mem_append.mp he
          · exact h.bounded e he
          · rw [List.mem_singleton.mp he]
        · intro t req hreq
          dsimp only at hreq
          rw [getElem?_insert] at hreq
          split at hreq
          · next heq =>
              obtain rfl := Option.some.inj hreq
              rw [heq]
              exact ⟨by simp, List.mem_append_right _ List.mem_cons_self⟩
          · exact ⟨(h.live t req hreq).1, List.mem_append_left _ (h.live t req hreq).2⟩
        · intro peer t
          dsimp only
          rw [countFor_append, waiting, announcersOf_insert rfl]
          split
          · next heq =>
              have hdrop : (n.queueInvTx.getD txId {}).announcers = [] := hnone
              simp only [hdrop, List.nil_append, List.drop_one, List.tail_cons, List.count_nil]
              omega
          · rw [← waiting]
            omega
    · next hsome =>
        -- one more announcer for later
        refine ⟨⟨h.sorted, h.bounded, ?_⟩, rfl, ⟨[], (List.append_nil _).symm, by simp, rfl⟩, ?_⟩
        · intro t req hreq
          dsimp only at hreq
          rw [getElem?_insert] at hreq
          split at hreq
          · next heq =>
              obtain rfl := Option.some.inj hreq
              subst heq
              refine ⟨by simp, ?_⟩
              cases hget : n.queueInvTx[t]? with
              | none =>
                  rw [ExtTreeMap.getD_eq_getD_getElem?, hget] at hsome
                  exact absurd rfl hsome
              | some old =>
                  rw [ExtTreeMap.getD_eq_getD_getElem?, hget]
                  exact (h.live t old hget).2
          · exact h.live t req hreq
        · intro peer t
          dsimp only
          rw [hone, waiting, announcersOf_insert rfl]
          split
          · next heq =>
              subst heq
              have hdrop : ((n.announcersOf t ++ [sender]).drop 1).count peer =
                  waiting n peer t + if sender = peer then 1 else 0 := by
                rw [List.drop_append_of_le_length, List.count_append, waiting, List.count_singleton]
                · simp
                · exact List.length_pos_iff.mpr fun hnil => hsome (List.isEmpty_iff.mpr hnil)
              change _ + ((n.announcersOf t ++ [sender]).drop 1).count peer ≤ _
              rw [hdrop]
              simp only [and_true]
              omega
          · rw [← waiting]
            omega

theorem notes_foldl (sender : Ipv4Address) (txIds : List ℕ) (st : Node × List ℕ)
    (h : Tracked c now st.1) :
    Notes c now sender txIds st (txIds.foldl (announce c now sender) st) := by
  induction txIds generalizing st with
  | nil => exact .refl h
  | cons txId txIds ih =>
      have hone := notes_announce sender h txId
      have hrest := ih _ hone.tracked
      obtain ⟨new, hqueue, hnew, hlen⟩ := hone.exists_new
      obtain ⟨new', hqueue', hnew', hlen'⟩ := hrest.exists_new
      refine ⟨hrest.tracked, hrest.txTimeoutEvent.trans hone.txTimeoutEvent,
        ⟨new ++ new', ?_, ?_, ?_⟩, fun peer t => ?_⟩
      · rw [List.foldl_cons, hqueue', hqueue, List.append_assoc]
      · intro e he
        obtain he | he := List.mem_append.mp he
        · exact hnew e he
        · exact hnew' e he
      · rw [List.foldl_cons, hlen', hlen, List.length_append, Nat.add_assoc]
      · have h1 := hone.asks peer t
        have h2 := hrest.asks peer t
        rw [List.foldl_cons, show txId :: txIds = [txId] ++ txIds from rfl, countFor_append]
        omega

/-- **`HandleInvTransactions`.** -/
theorem keeps_handleInvTransactions (hT : 0 ≤ c.invTimeout) (h : Tracked c now n) (htimed : Timed n)
    (txIds : List ℕ) (sender : Ipv4Address) :
    Keeps c now n (.handleInvTransactions txIds sender)
      (handleInvTransactions c now n txIds sender).1
      (handleInvTransactions c now n txIds sender).2 := by
  have hnotes := notes_foldl sender txIds (n, []) h
  unfold handleInvTransactions
  generalize txIds.foldl (announce c now sender) (n, []) = st at hnotes
  obtain ⟨m, wanted⟩ := st
  obtain ⟨new, hqueue, hnew, hlen⟩ := hnotes.exists_new
  dsimp only at hqueue hlen ⊢
  have hasks : ∀ peer t, countFor sender peer wanted t + waiting m peer t ≤
      waiting n peer t + countFor sender peer txIds t := by
    intro peer t
    have := hnotes.asks peer t
    simpa [countFor] using this
  split
  · next hempty =>
      have hnil : new = [] := by
        rw [List.isEmpty_iff.mp hempty] at hlen
        exact List.eq_nil_of_length_eq_zero (by simpa using hlen.symm)
      refine ⟨hnotes.tracked, ?_, fun peer t => ?_⟩
      · rw [Timed, hnotes.txTimeoutEvent, hqueue, hnil, List.append_nil]
        exact htimed
      · have := hasks peer t
        rw [List.isEmpty_iff.mp hempty] at this
        simpa [requests, countFor, announces] using this
  · have hready : Timed m ∨ m.txTimeoutEvent = none ∧ ∀ e ∈ m.txTimeoutQueue, now ≤ e.1 := by
      rw [Timed, hnotes.txTimeoutEvent, hqueue]
      rw [Timed] at htimed
      cases hq : n.txTimeoutQueue with
      | nil =>
          rw [hq] at htimed
          refine .inr ⟨htimed, fun e he => ?_⟩
          rw [hnew e he]
          linarith
      | cons e queue =>
          rw [hq] at htimed
          exact .inl htimed
    refine ⟨hnotes.tracked.arm, timed_armTxTimeoutTimer hready, fun peer t => ?_⟩
    rw [requests_singleton, waiting, announcersOf, (armTxTimeoutTimer_frame now m).1]
    exact hasks peer t

/-! ## time-outs -/

theorem tracked_pop (h : Tracked c now n) {deadline : ℚ} {txId : ℕ} {queue : List (ℚ × ℕ)}
    (hq : n.txTimeoutQueue = (deadline, txId) :: queue) :
    queue.Pairwise (fun e e' => e.1 ≤ e'.1) ∧ (∀ e ∈ queue, e.1 ≤ now + c.invTimeout) ∧
      ∀ (t : ℕ) (req : TxRequest), n.queueInvTx[t]? = some req →
        req.deadline ≠ deadline ∨ t ≠ txId → req.announcers ≠ [] ∧ (req.deadline, t) ∈ queue := by
  have hsorted := h.sorted
  have hbounded := h.bounded
  rw [hq] at hsorted hbounded
  refine ⟨(List.pairwise_cons.mp hsorted).2, fun e he => hbounded e (List.mem_cons_of_mem _ he),
    fun t req hreq hne => ?_⟩
  obtain ⟨hann, hmem⟩ := h.live t req hreq
  rw [hq] at hmem
  refine ⟨hann, (List.mem_cons.mp hmem).resolve_left fun heq => ?_⟩
  obtain ⟨hd, ht⟩ := Prod.mk.inj heq
  exact hne.elim (fun hne => hne hd) fun hne => hne ht

/-- One round keeps the deadlines in order, and asks only whom it takes off
the waiting announcers. -/
theorem Round.keeps {st st' : Node × Sends} (hround : Round c now st st')
    (h : Tracked c now st.1) :
    Tracked c now st'.1 ∧ st'.1.txTimeoutEvent = st.1.txTimeoutEvent ∧
      ∀ peer t, requests st'.2 peer t + waiting st'.1 peer t ≤
        requests st.2 peer t + waiting st.1 peer t := by
  cases hround with
  | @stale n sends deadline txId queue hq _ hstale =>
      obtain ⟨hsorted, hbounded, hlive⟩ := tracked_pop h hq
      refine ⟨⟨hsorted, hbounded, fun t req hreq => hlive t req hreq ?_⟩, rfl, fun _ _ => le_rfl⟩
      by_cases ht : t = txId
      · exact .inl (hstale req (ht ▸ hreq))
      · exact .inr ht
  | giveUp hq _ hreq =>
      obtain ⟨hsorted, hbounded, hlive⟩ := tracked_pop h hq
      refine ⟨⟨hsorted, hbounded, fun t req hreq' => ?_⟩, rfl, fun peer t => ?_⟩
      · dsimp only at hreq'
        rw [getElem?_erase] at hreq'
        split at hreq'
        · exact absurd hreq'.symm (Option.some_ne_none req)
        · next hne => exact hlive t req hreq' (.inr hne)
      · dsimp only
        rw [waiting, announcersOf_erase rfl]
        split
        · simp
        · rw [← waiting]
  | @retry n sends deadline txId queue req next rest hq _ hreq hlive' hperm =>
      obtain ⟨hsorted, hbounded, hlive⟩ := tracked_pop h hq
      refine ⟨⟨pairwise_append_deadline hsorted hbounded, fun e he => ?_, fun t req' hreq' => ?_⟩,
        rfl, fun peer t => ?_⟩
      · obtain he | he := List.mem_append.mp he
        · exact hbounded e he
        · rw [List.mem_singleton.mp he]
      · dsimp only at hreq'
        rw [getElem?_insert] at hreq'
        split at hreq'
        · next heq =>
            obtain rfl := Option.some.inj hreq'
            rw [heq]
            exact ⟨by simp, List.mem_append_right _ List.mem_cons_self⟩
        · next hne =>
            obtain ⟨hann, hmem⟩ := hlive t req' hreq' (.inr hne)
            exact ⟨hann, List.mem_append_left _ hmem⟩
      · dsimp only
        rw [requests_append, requests_singleton, waiting, announcersOf_insert rfl]
        split
        · next heq =>
            have hold : waiting n peer txId = (next :: rest).count peer := by
              rw [waiting, announcersOf_eq, hreq, hperm.count_eq]
              rfl
            rw [heq, hold, List.count_cons]
            simp only [countFor, List.drop_one, List.tail_cons, List.count_singleton_self, beq_iff_eq]
            omega
        · next hne =>
            have hcount : countFor next peer [txId] t = 0 := by
              unfold countFor
              split
              · exact List.count_eq_zero_of_not_mem (by simpa using hne)
              · rfl
            rw [← waiting, hcount]
            omega

theorem keeps_rounds {st st' : Node × Sends} (hrounds : Relation.ReflTransGen (Round c now) st st')
    (h : Tracked c now st.1) :
    Tracked c now st'.1 ∧ st'.1.txTimeoutEvent = st.1.txTimeoutEvent ∧
      ∀ peer t, requests st'.2 peer t + waiting st'.1 peer t ≤
        requests st.2 peer t + waiting st.1 peer t := by
  induction hrounds with
  | refl => exact ⟨h, rfl, fun _ _ => le_rfl⟩
  | tail _ hround ih =>
      obtain ⟨htracked, hevent, hasks⟩ := ih
      obtain ⟨htracked', hevent', hasks'⟩ := hround.keeps htracked
      exact ⟨htracked', hevent'.trans hevent, fun peer t => (hasks' peer t).trans (hasks peer t)⟩

/-- A sorted queue whose first deadline is to come has passed none. -/
theorem Tracked.settled (h : Tracked c now n) (hsettled : Settled now n) :
    ∀ e ∈ n.txTimeoutQueue, now < e.1 := by
  intro e he
  have hsorted := h.sorted
  cases hq : n.txTimeoutQueue with
  | nil => exact absurd (hq ▸ he) List.not_mem_nil
  | cons front queue =>
      have hfront := hsettled front.1 front.2 queue hq
      rw [hq] at he hsorted
      obtain rfl | he := List.mem_cons.mp he
      · exact hfront
      · exact hfront.trans_le ((List.pairwise_cons.mp hsorted).1 e he)

/-- **`ProcessTxTimeouts`** leaves no deadline that has passed. -/
theorem keeps_processTxTimeouts (h : Tracked c now n) {pick : ℕ → ℕ} {r : Node × Sends}
    (hrun : processTxTimeouts c now pick n = some r) :
    Keeps c now n (.processTxTimeouts pick) r.1 r.2 ∧ ∀ e ∈ r.1.txTimeoutQueue, now < e.1 := by
  obtain ⟨st, hrounds, hsettled, rfl⟩ := rounds_of_processTxTimeouts hrun
  obtain ⟨htracked, hevent, hasks⟩ := keeps_rounds hrounds ⟨h.sorted, h.bounded, h.live⟩
  obtain ⟨hmap, hqueue⟩ := armTxTimeoutTimer_frame now st.1
  have hfuture := htracked.settled hsettled
  refine ⟨⟨htracked.arm, timed_armTxTimeoutTimer (.inr ⟨hevent, fun e he => (hfuture e he).le⟩),
    fun peer t => ?_⟩, fun e he => hfuture e (hqueue ▸ he)⟩
  rw [waiting, announcersOf, hmap]
  exact ((hasks peer t).trans_eq (Nat.zero_add _)).trans (Nat.le_add_right _ _)

/-! ## other events -/

/-- A received transaction closes its request; its deadline goes stale. -/
theorem accept_requests {draw : ℕ → ℕ} {tx : Transaction} (h : accept c draw n tx = some n') :
    n'.queueInvTx = n.queueInvTx.erase tx.txId ∧ n'.txTimeoutQueue = n.txTimeoutQueue ∧
      n'.txTimeoutEvent = n.txTimeoutEvent := by
  obtain ⟨-, rfl⟩ | ⟨-, known, -, ⟨-, rfl⟩ | ⟨-, rfl⟩⟩ := accept_cases h <;> exact ⟨rfl, rfl, rfl⟩

theorem keeps_foldlM_accept {draw : ℕ → ℕ} {txs : List Transaction} (h : Tracked c now n)
    (htimed : Timed n) (hrun : txs.foldlM (accept c draw) n = some n') :
    Tracked c now n' ∧ Timed n' ∧ ∀ peer t, waiting n' peer t ≤ waiting n peer t := by
  induction txs generalizing n with
  | nil =>
      obtain rfl := Option.some.inj hrun
      exact ⟨h, htimed, fun _ _ => le_rfl⟩
  | cons tx txs ih =>
      rw [List.foldlM_cons] at hrun
      obtain ⟨n₁, hacc, hrest⟩ := Option.bind_eq_some_iff.mp hrun
      obtain ⟨hmap, hqueue, hevent⟩ := accept_requests hacc
      have h₁ : Tracked c now n₁ := by
        refine ⟨hqueue ▸ h.sorted, hqueue ▸ h.bounded, fun t req hreq => ?_⟩
        rw [hmap, getElem?_erase] at hreq
        split at hreq
        · exact absurd hreq.symm (Option.some_ne_none req)
        · exact hqueue ▸ h.live t req hreq
      have htimed₁ : Timed n₁ := by
        rw [Timed, hevent, hqueue]
        exact htimed
      obtain ⟨h', htimed', hwait⟩ := ih h₁ htimed₁ hrest
      refine ⟨h', htimed', fun peer t => (hwait peer t).trans ?_⟩
      rw [waiting, announcersOf_erase hmap]
      split
      · simp
      · rfl

theorem keeps_handleTransactions (h : Tracked c now n) (htimed : Timed n) {draw : ℕ → ℕ}
    {txs : List Transaction} {peer : Ipv4Address}
    (hrun : handleTransactions c draw n txs peer = some n') :
    Keeps c now n (.handleTransactions draw txs peer) n' [] := by
  obtain ⟨m, hm, hcases⟩ := handleTransactions_cases hrun
  obtain ⟨htracked, htimed, hwait⟩ := keeps_foldlM_accept h htimed hm
  have hsame : SameRequests m n' := by
    obtain ⟨-, rfl⟩ | ⟨-, rfl⟩ := hcases <;> exact ⟨rfl, rfl, rfl⟩
  have hkeeps : Keeps c now m (.handleTransactions draw txs peer) n' [] :=
    hsame.keeps htracked htimed fun _ _ => rfl
  exact ⟨hkeeps.tracked, hkeeps.timed, fun peer t =>
    (hkeeps.asks peer t).trans (Nat.add_le_add_right (hwait peer t) _)⟩

theorem Fetches.sameRequests {r : Node × Sends} (h : Fetches n r) : SameRequests n r.1 := by
  obtain ⟨⟨_, _, heq⟩, -⟩ := h
  rw [heq]
  exact ⟨rfl, rfl, rfl⟩

theorem sameRequests_handleBlock {b : Block} {peer : Ipv4Address} {r : Node × Sends}
    (h : handleBlock c now n b peer = some r) : SameRequests n r.1 := by
  obtain ⟨-, rfl⟩ | ⟨-, known, wasBlue, s, newly, p, -, -, -, -, -, rfl⟩ := handleBlock_cases h
  · exact ⟨rfl, rfl, rfl⟩
  · exact ⟨rfl, rfl, rfl⟩

theorem sameRequests_generateTransaction {fee : ℕ} (h : generateTransaction c n fee = some n') :
    SameRequests n n' := by
  obtain ⟨-, rfl⟩ | ⟨-, -, known, -, rfl⟩ := generateTransaction_cases h <;> exact ⟨rfl, rfl, rfl⟩

theorem sameRequests_mineBlock {pick : ℕ → ℕ × ℕ} {store : BlockBodyStore}
    {r : BlockBodyStore × Node × Sends} (h : mineBlock c now pick store n = some r) :
    SameRequests n r.2.1 := by
  obtain ⟨s, -, rfl⟩ := mineBlock_cases h
  exact ⟨rfl, rfl, rfl⟩

/-! ## runs keep the invariant -/

theorem requests_eq_zero {sends : Sends} (h : ∀ s ∈ sends, ∀ txIds, s.2 ≠ .reqTransactions txIds)
    (peer : Ipv4Address) (t : ℕ) : requests sends peer t = 0 := by
  refine List.sum_eq_zero fun k hk => ?_
  obtain ⟨s, hs, rfl⟩ := List.mem_map.mp hk
  split
  · next dest txIds => exact absurd rfl (h _ hs txIds)
  · rfl

theorem requests_map_eq_zero {peers : List Ipv4Address} {msg : Message}
    (h : ∀ txIds, msg ≠ .reqTransactions txIds) (peer : Ipv4Address) (t : ℕ) :
    requests (peers.map fun p => (p, msg)) peer t = 0 := by
  refine requests_eq_zero (fun s hs => ?_) peer t
  obtain ⟨p, -, rfl⟩ := List.mem_map.mp hs
  exact h

theorem Fetches.requests_eq_zero {r : Node × Sends} (h : Fetches n r) (peer : Ipv4Address) (t : ℕ) :
    requests r.2 peer t = 0 := by
  refine Node.requests_eq_zero (fun s hs txIds heq => ?_) peer t
  obtain ⟨blockHash, hmsg⟩ := h.2 s hs
  cases hmsg.symm.trans heq

theorem requests_handleReqRelayBlock (n : Node) (blockHash : ℕ) (dest peer : Ipv4Address) (t : ℕ) :
    requests (handleReqRelayBlock n blockHash dest) peer t = 0 := by
  unfold handleReqRelayBlock
  split <;> rfl

theorem requests_handleReqTransactions (n : Node) (txIds : List ℕ) (dest peer : Ipv4Address)
    (t : ℕ) : requests (handleReqTransactions c n txIds dest) peer t = 0 := by
  unfold handleReqTransactions
  dsimp only
  split <;> rfl

theorem requests_broadcastInvBlock (blockHash : ℕ) (exclude peer : Ipv4Address) (t : ℕ) :
    requests (broadcastInvBlock c blockHash exclude) peer t = 0 :=
  requests_map_eq_zero (fun _ => Message.noConfusion) peer t

theorem requests_handleBlock {b : Block} {sender : Ipv4Address} {r : Node × Sends}
    (h : handleBlock c now n b sender = some r) (peer : Ipv4Address) (t : ℕ) :
    requests r.2 peer t = 0 := by
  obtain ⟨-, rfl⟩ | ⟨-, known, wasBlue, s, newly, p, -, -, -, -, -, rfl⟩ := handleBlock_cases h
  · rfl
  · exact requests_broadcastInvBlock ..

theorem requests_mineBlock {pick : ℕ → ℕ × ℕ} {store : BlockBodyStore}
    {r : BlockBodyStore × Node × Sends} (h : mineBlock c now pick store n = some r)
    (peer : Ipv4Address) (t : ℕ) : requests r.2.2 peer t = 0 := by
  obtain ⟨s, -, rfl⟩ := mineBlock_cases h
  exact requests_broadcastInvBlock ..

theorem requests_flushInvBatch (exclude peer : Ipv4Address) (t : ℕ) :
    requests (flushInvBatch c n exclude).2 peer t = 0 := by
  unfold flushInvBatch broadcastInvTransactions
  dsimp only
  split
  · rfl
  · exact requests_map_eq_zero (fun _ => Message.noConfusion) peer t

/-- **One event** keeps the bookkeeping in order. -/
theorem Tracked.step (hT : 0 ≤ c.invTimeout) (h : Tracked c now n) (htimed : Timed n)
    {event : Event} {store store' : BlockBodyStore} {sends : Sends}
    (hrun : Node.step c now store n event = some (store', n', sends)) :
    Keeps c now n event n' sends := by
  have hquiet : ∀ {m : Node} {sent : Sends}, SameRequests n m →
      (∀ peer t, requests sent peer t = 0) → (m, sent) = (n', sends) →
        Keeps c now n event n' sends := by
    intro m sent hsame hnone heq
    obtain ⟨rfl, rfl⟩ := Prod.mk.inj heq
    exact hsame.keeps h htimed hnone
  cases event with
  | handleInvRelayBlock blockHash peer =>
      have hfetches : Fetches n (handleInvRelayBlock c now n blockHash peer) :=
        fetches_handleInvRelayBlock blockHash peer
      exact hquiet hfetches.sameRequests hfetches.requests_eq_zero
        (congrArg Prod.snd (Option.some.inj hrun))
  | handleReqRelayBlock blockHash peer =>
      exact hquiet ⟨rfl, rfl, rfl⟩ (requests_handleReqRelayBlock n blockHash peer)
        (congrArg Prod.snd (Option.some.inj hrun))
  | handleBlock b peer =>
      obtain ⟨r, hr, heq⟩ := Option.bind_eq_some_iff.mp hrun
      exact hquiet (sameRequests_handleBlock hr) (requests_handleBlock hr)
        (congrArg Prod.snd (Option.some.inj heq))
  | handleInvTransactions txIds peer =>
      have hkeeps := keeps_handleInvTransactions hT h htimed txIds peer
      obtain ⟨rfl, rfl⟩ := Prod.mk.inj (congrArg Prod.snd (Option.some.inj hrun))
      exact hkeeps
  | handleReqTransactions txIds peer =>
      exact hquiet ⟨rfl, rfl, rfl⟩ (requests_handleReqTransactions n txIds peer)
        (congrArg Prod.snd (Option.some.inj hrun))
  | handleTransactions draw txs peer =>
      obtain ⟨r, hr, heq⟩ := Option.bind_eq_some_iff.mp hrun
      obtain ⟨rfl, rfl⟩ := Prod.mk.inj (congrArg Prod.snd (Option.some.inj heq))
      exact keeps_handleTransactions h htimed hr
  | invTimeoutExpired blockHash pick =>
      have hfetches : Fetches n (invTimeoutExpired c now n blockHash pick) :=
        fetches_invTimeoutExpired blockHash pick
      exact hquiet hfetches.sameRequests hfetches.requests_eq_zero
        (congrArg Prod.snd (Option.some.inj hrun))
  | processTxTimeouts pick =>
      obtain ⟨r, hr, heq⟩ := Option.bind_eq_some_iff.mp hrun
      obtain ⟨rfl, rfl⟩ := Prod.mk.inj (congrArg Prod.snd (Option.some.inj heq))
      exact (keeps_processTxTimeouts h hr).1
  | flushInvBatch =>
      rw [Node.step] at hrun
      split at hrun
      · next exclude _ =>
          exact hquiet (m := (flushInvBatch c n exclude).1) ⟨rfl, rfl, rfl⟩
            (requests_flushInvBatch exclude) (congrArg Prod.snd (Option.some.inj hrun))
      · exact hquiet ⟨rfl, rfl, rfl⟩ (fun _ _ => rfl) (congrArg Prod.snd (Option.some.inj hrun))
  | generateTransaction fee =>
      obtain ⟨r, hr, heq⟩ := Option.bind_eq_some_iff.mp hrun
      exact hquiet (sameRequests_generateTransaction hr) (fun _ _ => rfl)
        (congrArg Prod.snd (Option.some.inj heq))
  | mineBlock pick => exact hquiet (sameRequests_mineBlock hrun) (requests_mineBlock hrun) rfl

/-- The bookkeeping after a run, at any later time. -/
theorem tracked_trace (hT : 0 ≤ c.invTimeout) {inputs : List Input}
    (htime : (inputs.map Input.now).Pairwise (· ≤ ·)) {st : Node × Sends}
    (hrun : trace c inputs = some st) {clock : ℚ} (hclock : ∀ i ∈ inputs, i.now ≤ clock) :
    Tracked c clock st.1 ∧ Timed st.1 ∧
      ∀ peer t, requests st.2 peer t + waiting st.1 peer t ≤ announced inputs peer t := by
  induction inputs using List.reverseRecOn generalizing st clock with
  | nil =>
      obtain rfl := Option.some.inj hrun
      refine ⟨tracked_init c clock, timed_init c, fun peer t => ?_⟩
      simp [requests, waiting, announcersOf, init, announced]
  | append_singleton past i ih =>
      obtain ⟨m, sent, store, sends, hpast, hstep, hsends⟩ := trace_append.mp hrun
      rw [List.map_append] at htime
      obtain ⟨htime, -, hle⟩ := List.pairwise_append.mp htime
      have hnow : ∀ j ∈ past, j.now ≤ i.now := fun j hj =>
        hle _ (List.mem_map_of_mem hj) _ (List.mem_singleton_self _)
      obtain ⟨htracked, htimed, hasks⟩ := ih htime hpast hnow
      have hkeeps := htracked.step hT htimed hstep
      refine ⟨hkeeps.tracked.mono (hclock i (by simp)), hkeeps.timed, fun peer t => ?_⟩
      have hbefore := hasks peer t
      have hasked : requests sends peer t + waiting st.1 peer t ≤
          waiting m peer t + announces i.event peer t := hkeeps.asks peer t
      rw [hsends, requests_append, announced_append]
      dsimp only at hbefore
      omega

/-- **No request is forgotten, and no announcer is asked more often than it
has announced.**  After every run in which time does not go back, deadlines
are queued in ascending order, each open request has announcers and a deadline
of its own in the queue, the timer is due at the first one, and
`ProcessTxTimeouts` ends with no deadline left that has passed. -/
theorem requests_tracked (hT : 0 ≤ c.invTimeout) {inputs : List Input}
    (htime : (inputs.map Input.now).Pairwise (· ≤ ·)) {n : Node} {sends : Sends}
    (hrun : trace c inputs = some (n, sends)) :
    (n.txTimeoutQueue.Pairwise fun e e' => e.1 ≤ e'.1) ∧
      (∀ (t : ℕ) (req : TxRequest), n.queueInvTx[t]? = some req →
        req.announcers ≠ [] ∧ (req.deadline, t) ∈ n.txTimeoutQueue) ∧
      (∀ deadline t queue, n.txTimeoutQueue = (deadline, t) :: queue →
        n.txTimeoutEvent = some deadline) ∧
      (∀ now pick, (∀ i ∈ inputs, i.now ≤ now) →
        ∃ r, processTxTimeouts c now pick n = some r ∧ ∀ e ∈ r.1.txTimeoutQueue, now < e.1) ∧
      ∀ peer t, requests sends peer t ≤ announced inputs peer t := by
  have hclock : ∀ i ∈ inputs, i.now ≤ (inputs.map Input.now).foldr max 0 :=
    fun i hi => List.le_max_of_le' 0 (List.mem_map_of_mem hi) le_rfl
  obtain ⟨htracked, htimed, hasks⟩ := tracked_trace hT htime hrun hclock
  refine ⟨htracked.sorted, htracked.live, fun deadline t queue hq => ?_, fun now pick hnow => ?_,
    fun peer t => (Nat.le_add_right _ _).trans (hasks peer t)⟩
  · rw [htimed, hq]
    rfl
  · obtain ⟨r, hr⟩ := exists_processTxTimeouts c now pick n
    exact ⟨r, hr, (keeps_processTxTimeouts (tracked_trace hT htime hrun hnow).1 hr).2⟩

/-- Two peers announce a transaction, and the first does not answer. -/
def unanswered : List Input :=
  [⟨0, ∅, .handleInvTransactions [7 * 2 ^ 32] 1⟩, ⟨1, ∅, .handleInvTransactions [7 * 2 ^ 32] 2⟩,
    ⟨1200, ∅, .processTxTimeouts fun _ => 0⟩]

/-- The second peer is asked then, and the timer is due for it. -/
theorem requests_tracked_unanswered : ∃ n sends, trace thrifty unanswered = some (n, sends) ∧
    requests sends 2 (7 * 2 ^ 32) = 1 ∧ n.txTimeoutEvent = some 2400 ∧
      ∀ peer t, requests sends peer t ≤ announced unanswered peer t := by
  have hrun : (trace thrifty unanswered).map (fun st =>
      (requests st.2 2 (7 * 2 ^ 32), st.1.txTimeoutQueue)) = some (1, [(2400, 7 * 2 ^ 32)]) := by
    decide +kernel
  obtain ⟨⟨n, sends⟩, hrun, heq⟩ := Option.map_eq_some_iff.mp hrun
  obtain ⟨hasked, hqueue⟩ := Prod.mk.inj heq
  obtain ⟨-, -, htimer, -, hle⟩ := requests_tracked (c := thrifty) (by decide +kernel)
    (by decide +kernel) hrun
  exact ⟨n, sends, hrun, hasked, htimer _ _ _ hqueue, hle⟩

end Node

end GhostDag
