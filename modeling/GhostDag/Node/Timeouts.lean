import GhostDag.Node.Handlers

/-!
# GhostDag.Node.Timeouts

The loop of `ProcessTxTimeouts`, round by round.

A round pops the oldest deadline (`Round`).  A stale one is dropped, a live
one loses the announcer that was asked and asks the next.  Either the queue or
the announcers get fewer, so the loop ends (`exists_processQueue`), and it
ends when no deadline has passed (`rounds_of_processQueue`).
-/

namespace GhostDag

open Std (ExtTreeMap)
open Containers

namespace Node

variable {c : Config} {now : ℚ}

/-! ## announcers -/

/-- Swapping rearranges. -/
theorem swapFront_perm (v : List Ipv4Address) (pick : ℕ) : (swapFront v pick).Perm v := by
  cases v with
  | nil => exact List.Perm.refl _
  | cons a v =>
      unfold swapFront
      split
      · next x y hx hy =>
          obtain rfl : a = x := Option.some.inj hx
          generalize pick % (a :: v).length = i at hy
          cases i with
          | zero =>
              obtain rfl : a = y := Option.some.inj hy
              exact List.Perm.refl _
          | succ i =>
              obtain ⟨hi, rfl⟩ := List.getElem?_eq_some_iff.mp hy
              have hi : i < v.length := Nat.lt_of_succ_lt_succ hi
              change (v[i] :: v.set i a).Perm (a :: v)
              have hperm := List.set_perm_cons_eraseIdx hi a
              refine (hperm.cons _).trans ((List.Perm.swap _ _ _).trans ?_)
              exact (List.getElem_cons_eraseIdx_perm hi).cons a
      · exact List.Perm.refl _

/-! ## rounds -/

/-- One round of the loop. -/
inductive Round (c : Config) (now : ℚ) : Node × Sends → Node × Sends → Prop
  /-- Received meanwhile, or superseded by a newer request. -/
  | stale {n : Node} {sends : Sends} {deadline : ℚ} {txId : Nat} {queue : List (ℚ × Nat)} :
      n.txTimeoutQueue = (deadline, txId) :: queue → deadline ≤ now →
      (∀ req, n.queueInvTx[txId]? = some req → req.deadline ≠ deadline) →
      Round c now (n, sends) ({ n with txTimeoutQueue := queue }, sends)
  /-- No announcer is left. -/
  | giveUp {n : Node} {sends : Sends} {deadline : ℚ} {txId : Nat} {queue : List (ℚ × Nat)}
      {req : TxRequest} :
      n.txTimeoutQueue = (deadline, txId) :: queue → deadline ≤ now →
      n.queueInvTx[txId]? = some req → req.deadline = deadline → req.announcers.drop 1 = [] →
      Round c now (n, sends)
        ({ n with txTimeoutQueue := queue, queueInvTx := n.queueInvTx.erase txId }, sends)
  | retry {n : Node} {sends : Sends} {deadline : ℚ} {txId : Nat} {queue : List (ℚ × Nat)}
      {req : TxRequest} {next : Ipv4Address} {rest : List Ipv4Address} :
      n.txTimeoutQueue = (deadline, txId) :: queue → deadline ≤ now →
      n.queueInvTx[txId]? = some req → req.deadline = deadline →
      (next :: rest).Perm (req.announcers.drop 1) →
      Round c now (n, sends)
        ({ n with
          txTimeoutQueue := queue ++ [(now + c.invTimeout, txId)]
          queueInvTx := n.queueInvTx.insert txId
            { announcers := next :: rest, deadline := now + c.invTimeout } },
          sends ++ [(next, .reqTransactions [txId])])

/-- No deadline in front has passed. -/
def Settled (now : ℚ) (n : Node) : Prop :=
  ∀ deadline txId queue, n.txTimeoutQueue = (deadline, txId) :: queue → now < deadline

/-- The loop either stops or goes on with a round. -/
theorem processQueue_succ (c : Config) (now : ℚ) (pick : ℕ → ℕ) (rounds : ℕ) (st : Node × Sends) :
    (Settled now st.1 ∧ processQueue c now pick (rounds + 1) st = some st) ∨
      ∃ st', Round c now st st' ∧
        processQueue c now pick (rounds + 1) st = processQueue c now pick rounds st' := by
  obtain ⟨n, sends⟩ := st
  rw [processQueue]
  cases hq : n.txTimeoutQueue with
  | nil => exact .inl ⟨fun _ _ _ heq => absurd (hq.symm.trans heq) (List.cons_ne_nil _ _).symm, rfl⟩
  | cons entry queue =>
      obtain ⟨deadline, txId⟩ := entry
      dsimp only
      by_cases hdue : now < deadline
      · left
        rw [if_pos hdue]
        refine ⟨fun deadline' txId' queue' heq => ?_, rfl⟩
        obtain ⟨⟨rfl, rfl⟩, rfl⟩ : (deadline = deadline' ∧ txId = txId') ∧ queue = queue' := by
          simpa [hq] using heq
        exact hdue
      · right
        rw [if_neg hdue]
        have hpast : deadline ≤ now := not_lt.mp hdue
        cases hreq : n.queueInvTx[txId]? with
        | none => exact ⟨_, .stale hq hpast (by simp [hreq]), rfl⟩
        | some req =>
            dsimp only
            by_cases hlive : req.deadline = deadline
            · rw [if_neg (not_not.mpr hlive)]
              have hperm := swapFront_perm (req.announcers.drop 1) (pick rounds)
              cases hswap : swapFront (req.announcers.drop 1) (pick rounds) with
              | nil =>
                  exact ⟨_, .giveUp hq hpast hreq hlive (List.nil_perm.mp (hswap ▸ hperm)), rfl⟩
              | cons next rest => exact ⟨_, .retry hq hpast hreq hlive (hswap ▸ hperm), rfl⟩
            · rw [if_pos hlive]
              refine ⟨_, .stale hq hpast fun req' hreq' => ?_, rfl⟩
              obtain rfl := Option.some.inj (hreq.symm.trans hreq')
              exact hlive

/-- **A loop that ends has made rounds until no deadline had passed.** -/
theorem rounds_of_processQueue {pick : ℕ → ℕ} {rounds : ℕ} {st st' : Node × Sends}
    (h : processQueue c now pick rounds st = some st') :
    Relation.ReflTransGen (Round c now) st st' ∧ Settled now st'.1 := by
  induction rounds generalizing st with
  | zero => exact absurd h.symm (Option.some_ne_none st')
  | succ rounds ih =>
      obtain ⟨hsettled, heq⟩ | ⟨st₁, hround, heq⟩ := processQueue_succ c now pick rounds st
      · obtain rfl := Option.some.inj (heq.symm.trans h)
        exact ⟨.refl, hsettled⟩
      · obtain ⟨hrounds, hsettled⟩ := ih (heq.symm.trans h)
        exact ⟨.head hround hrounds, hsettled⟩

/-! ## the loop ends -/

/-- The announcers of all requests. -/
def announcerCount (m : ExtTreeMap Nat TxRequest) : Nat :=
  (m.toList.map fun e => e.2.announcers.length).sum

theorem announcerCount_erase {m : ExtTreeMap ℕ TxRequest} {txId : ℕ} {req : TxRequest}
    (h : m[txId]? = some req) :
    announcerCount m = req.announcers.length + announcerCount (m.erase txId) := by
  rw [announcerCount, ((toList_perm_erase h).map _).sum_eq, List.map_cons, List.sum_cons]
  rfl

theorem announcerCount_insert {m : ExtTreeMap ℕ TxRequest} {txId : ℕ} (req : TxRequest) :
    announcerCount (m.insert txId req) = req.announcers.length + announcerCount (m.erase txId) := by
  rw [announcerCount, ((toList_insert_perm m txId req).map _).sum_eq, List.map_cons, List.sum_cons]
  rfl

/-- What the loop has left to do. -/
def work (n : Node) : Nat := n.txTimeoutQueue.length + announcerCount n.queueInvTx

theorem Round.work_lt {st st' : Node × Sends} (h : Round c now st st') :
    work st'.1 < work st.1 := by
  cases h with
  | stale hq =>
      simp only [work, hq, List.length_cons]
      omega
  | giveUp hq _ hreq =>
      simp only [work, hq, List.length_cons, announcerCount_erase hreq]
      omega
  | retry hq _ hreq _ hperm =>
      have hlen := hperm.length_eq
      rw [List.length_drop, List.length_cons] at hlen
      simp only [work, hq, List.length_cons, List.length_append, List.length_nil,
        announcerCount_erase hreq, announcerCount_insert]
      omega

theorem exists_processQueue (c : Config) (now : ℚ) (pick : ℕ → ℕ) {rounds : ℕ} (st : Node × Sends)
    (h : work st.1 < rounds) : ∃ st', processQueue c now pick rounds st = some st' := by
  induction rounds generalizing st with
  | zero => exact absurd h (Nat.not_lt_zero _)
  | succ rounds ih =>
      obtain ⟨-, heq⟩ | ⟨st₁, hround, heq⟩ := processQueue_succ c now pick rounds st
      · exact ⟨st, heq⟩
      · rw [heq]
        exact ih st₁ (hround.work_lt.trans_le (Nat.le_of_lt_succ h))

/-- **`ProcessTxTimeouts` returns.** -/
theorem exists_processTxTimeouts (c : Config) (now : ℚ) (pick : ℕ → ℕ) (n : Node) :
    ∃ r, processTxTimeouts c now pick n = some r := by
  obtain ⟨st, hst⟩ := exists_processQueue c now pick ({ n with txTimeoutEvent := none }, [])
    (Nat.lt_succ_self _)
  exact ⟨(st.1.armTxTimeoutTimer now, st.2), Option.bind_eq_some_iff.mpr ⟨st, hst, rfl⟩⟩

/-- What `ProcessTxTimeouts` does: rounds without a pending timer, then a
timer for the deadline that is in front. -/
theorem rounds_of_processTxTimeouts {pick : ℕ → ℕ} {n : Node} {r : Node × Sends}
    (h : processTxTimeouts c now pick n = some r) :
    ∃ st : Node × Sends, Relation.ReflTransGen (Round c now) ({ n with txTimeoutEvent := none }, [])
      st ∧ Settled now st.1 ∧ r = (st.1.armTxTimeoutTimer now, st.2) := by
  obtain ⟨st, hst, heq⟩ := Option.bind_eq_some_iff.mp h
  obtain ⟨hrounds, hsettled⟩ := rounds_of_processQueue hst
  exact ⟨st, hrounds, hsettled, (Option.some.inj heq).symm⟩

end Node

end GhostDag
