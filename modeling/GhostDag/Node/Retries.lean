import GhostDag.Node.Timeouts

/-!
# GhostDag.Node.Retries

Whom a request for transactions is about.

An announcement is only followed by a request for what the node does not know
(`unknown_of_handleInvTransactions`).  `ProcessTxTimeouts` does not look at
what the node knows: it asks again for every open request whose deadline is
among the ones that have passed, if another peer has announced the
transaction (`asked_processTxTimeouts_iff`).
-/

namespace GhostDag

open Std (ExtTreeMap)
open Containers

namespace Node

variable {c : Config} {now : ℚ} {n : Node}

/-- A transaction is asked for. -/
def Asked (sends : Sends) (t : Nat) : Prop :=
  ∃ s ∈ sends, ∃ txIds, s.2 = .reqTransactions txIds ∧ t ∈ txIds

theorem asked_append {sends sends' : Sends} {t : ℕ} :
    Asked (sends ++ sends') t ↔ Asked sends t ∨ Asked sends' t := by
  simp only [Asked, List.mem_append, or_and_right, exists_or]

theorem asked_singleton {peer : Ipv4Address} {txIds : List ℕ} {t : ℕ} :
    Asked [(peer, .reqTransactions txIds)] t ↔ t ∈ txIds := by
  simp [Asked]

theorem not_asked_nil (t : ℕ) : ¬ Asked [] t := fun ⟨_, hs, _⟩ => List.not_mem_nil hs

/-! ## announcements -/

/-- **An announcement makes the node ask for what it does not know.** -/
theorem unknown_of_handleInvTransactions {txIds : List ℕ} {peer : Ipv4Address} {t : ℕ}
    (h : Asked (handleInvTransactions c now n txIds peer).2 t) : n.knownTxs.contains t = false := by
  have hfold : ∀ (l : List ℕ) (st : Node × List ℕ), st.1.knownTxs = n.knownTxs →
      (∀ t ∈ st.2, n.knownTxs.contains t = false) →
      ∀ t ∈ (l.foldl (announce c now peer) st).2, n.knownTxs.contains t = false := by
    intro l
    induction l with
    | nil => exact fun st _ hst => hst
    | cons txId l ih =>
        intro st hknown hst
        rw [List.foldl_cons]
        unfold announce
        dsimp only
        split
        · exact ih st hknown hst
        · next hnew =>
            rw [hknown] at hnew
            split
            · refine ih _ hknown fun t ht => ?_
              obtain ht | ht := List.mem_append.mp ht
              · exact hst t ht
              · rw [List.mem_singleton.mp ht]
                exact Bool.eq_false_iff.mpr hnew
            · exact ih _ hknown hst
  have hwanted := hfold txIds (n, []) rfl fun t ht => absurd ht List.not_mem_nil
  unfold handleInvTransactions at h
  generalize txIds.foldl (announce c now peer) (n, []) = st at h hwanted
  dsimp only at h
  split at h
  · exact absurd h (not_asked_nil t)
  · exact hwanted t (asked_singleton.mp h)

/-! ## time-outs -/

/-- The deadlines in front that have passed. -/
def dueQueue (now : ℚ) (n : Node) : List (ℚ × Nat) := n.txTimeoutQueue.takeWhile fun e => e.1 ≤ now

/-- An open request whose deadline is among them, and that another peer can
answer. -/
def Due (now : ℚ) (n : Node) (t : Nat) : Prop :=
  ∃ req, n.queueInvTx[t]? = some req ∧ (req.deadline, t) ∈ dueQueue now n ∧
    2 ≤ req.announcers.length

/-- What the loop has made of a transaction, when it has taken the deadlines
`done` off the queue: a new request, the end of one, or nothing yet. -/
inductive Handled (now : ℚ) (n : Node) (done : List (ℚ × Nat)) (m : ExtTreeMap Nat TxRequest)
    (sends : Sends) (t : Nat) : Prop
  | asked : Asked sends t → Due now n t → Handled now n done m sends t
  | dropped : ¬ Asked sends t → m[t]? = none →
      (∀ req, n.queueInvTx[t]? = some req → req.announcers.length < 2) →
      Handled now n done m sends t
  | untouched : ¬ Asked sends t → m[t]? = n.queueInvTx[t]? →
      (∀ req, n.queueInvTx[t]? = some req → (req.deadline, t) ∉ done) →
      Handled now n done m sends t

/-- Where the loop is: of the queue it has taken `done` off, and the deadlines
that it has added are about transactions it has asked for. -/
structure Progress (now : ℚ) (n : Node) (done todo new : List (ℚ × Nat)) (st : Node × Sends) :
    Prop where
  split : n.txTimeoutQueue = done ++ todo
  queue : st.1.txTimeoutQueue = todo ++ new
  passed : ∀ e ∈ done, e.1 ≤ now
  new_asked : ∀ e ∈ new, Asked st.2 e.2
  handled : ∀ t, Handled now n done st.1.queueInvTx st.2 t

section Rounds

variable {done done' : List (ℚ × ℕ)} {m m' : ExtTreeMap ℕ TxRequest} {sends sends' : Sends} {t : ℕ}

theorem Handled.other (h : Handled now n done m sends t)
    (hasked : Asked sends' t ↔ Asked sends t) (hget : m'[t]? = m[t]?)
    (hdone : ∀ d, (d, t) ∈ done' → (d, t) ∈ done) : Handled now n done' m' sends' t := by
  cases h with
  | asked h hdue => exact .asked (hasked.mpr h) hdue
  | dropped h hnone hfew => exact .dropped (mt hasked.mp h) (hget.trans hnone) hfew
  | untouched h hsame hnot =>
      exact .untouched (mt hasked.mp h) (hget.trans hsame)
        fun req hreq hmem => hnot req hreq (hdone _ hmem)

/-- The next deadline comes from the queue, or it is one that the loop has
added. -/
theorem Progress.pop {todo new : List (ℚ × ℕ)} {st : Node × Sends}
    (h : Progress now n done todo new st) {d : ℚ} {x : ℕ} {queue : List (ℚ × ℕ)}
    (hq : st.1.txTimeoutQueue = (d, x) :: queue) (hpast : d ≤ now) :
    ∃ done' todo' new', n.txTimeoutQueue = done' ++ todo' ∧ queue = todo' ++ new' ∧
      (∀ e ∈ done', e.1 ≤ now) ∧ (∀ e ∈ new', e ∈ new) ∧ (∀ e ∈ done', e ∈ done ∨ e = (d, x)) ∧
      (Asked st.2 x ∨ (d, x) ∈ dueQueue now n) := by
  have hqueue := h.queue.symm.trans hq
  cases todo with
  | nil =>
      refine ⟨done, [], queue, h.split, rfl, h.passed, fun e he => ?_, fun e he => .inl he, .inl ?_⟩
      · rw [List.nil_append] at hqueue
        exact hqueue ▸ List.mem_cons_of_mem _ he
      · rw [List.nil_append] at hqueue
        exact h.new_asked (d, x) (hqueue ▸ List.mem_cons_self)
  | cons e todo =>
      obtain ⟨rfl, hrest⟩ := List.cons.inj hqueue
      have hpassed : ∀ e ∈ done ++ [(d, x)], e.1 ≤ now := by
        intro e he
        obtain he | he := List.mem_append.mp he
        · exact h.passed e he
        · rw [List.mem_singleton.mp he]
          exact hpast
      have hsplit : n.txTimeoutQueue = (done ++ [(d, x)]) ++ todo := by
        rw [h.split, List.append_assoc, List.singleton_append]
      refine ⟨done ++ [(d, x)], todo, new, hsplit, hrest.symm, hpassed, fun e he => he, fun e he => ?_,
        .inr ?_⟩
      · exact (List.mem_append.mp he).imp_right List.mem_singleton.mp
      · rw [dueQueue, hsplit, List.takeWhile_append_of_pos fun e he => decide_eq_true (hpassed e he)]
        exact List.mem_append_left _ (List.mem_append_right _ List.mem_cons_self)

/-- **A round** makes progress. -/
theorem Progress.round {todo new : List (ℚ × ℕ)} {st st' : Node × Sends}
    (hround : Round c now st st') (h : Progress now n done todo new st) :
    ∃ done' todo' new', Progress now n done' todo' new' st' := by
  cases hround with
  | @stale m sends d x queue hq hpast hstale =>
      obtain ⟨done', todo', new', hsplit, rfl, hpassed, hnew, hdone, -⟩ := h.pop hq hpast
      refine ⟨done', todo', new', hsplit, rfl, hpassed, fun e he => h.new_asked e (hnew e he),
        fun t => ?_⟩
      cases h.handled t with
      | asked hasked hdue => exact .asked hasked hdue
      | dropped hasked hnone hfew => exact .dropped hasked hnone hfew
      | untouched hasked hsame hnot =>
          refine .untouched hasked hsame fun req hreq hmem => ?_
          obtain hmem | heq := hdone _ hmem
          · exact hnot req hreq hmem
          · obtain ⟨hd, rfl⟩ := Prod.mk.inj heq
            exact hstale req (hsame.trans hreq) hd
  | @giveUp m sends d x queue req hq hpast hreq hd hlast =>
      obtain ⟨done', todo', new', hsplit, rfl, hpassed, hnew, hdone, -⟩ := h.pop hq hpast
      refine ⟨done', todo', new', hsplit, rfl, hpassed, fun e he => h.new_asked e (hnew e he),
        fun t => ?_⟩
      have hget : ∀ y : ℕ, (m.queueInvTx.erase x)[y]? =
          if y = x then none else m.queueInvTx[y]? := fun y => getElem?_erase ..
      by_cases ht : t = x
      · subst ht
        have hnone := (hget t).trans (if_pos rfl)
        cases h.handled t with
        | asked hasked hdue => exact .asked hasked hdue
        | dropped hasked _ hfew => exact .dropped hasked hnone hfew
        | untouched hasked hsame _ =>
            refine .dropped hasked hnone fun req' hreq' => ?_
            obtain rfl := Option.some.inj (hreq.symm.trans (hsame.trans hreq'))
            exact Nat.lt_succ_of_le (List.drop_eq_nil_iff.mp hlast)
      · refine (h.handled t).other Iff.rfl ((hget t).trans (if_neg ht)) fun d' hmem => ?_
        exact (hdone _ hmem).resolve_right fun heq => ht (congrArg Prod.snd heq)
  | @retry m sends d x queue req next rest hq hpast hreq hd hperm =>
      obtain ⟨done', todo', new', hsplit, rfl, hpassed, hnew, hdone, hfront⟩ := h.pop hq hpast
      have hasked : ∀ y, Asked (sends ++ [(next, .reqTransactions [x])]) y ↔
          Asked sends y ∨ y = x := by
        intro y
        rw [asked_append, asked_singleton, List.mem_singleton]
      refine ⟨done', todo', new' ++ [(now + c.invTimeout, x)], hsplit, List.append_assoc .., hpassed,
        fun e he => ?_, fun t => ?_⟩
      · obtain he | he := List.mem_append.mp he
        · exact (hasked _).mpr (.inl (h.new_asked e (hnew e he)))
        · rw [List.mem_singleton.mp he]
          exact (hasked x).mpr (.inr rfl)
      · by_cases ht : t = x
        · subst ht
          refine .asked ((hasked t).mpr (.inr rfl)) ?_
          cases h.handled t with
          | asked _ hdue => exact hdue
          | dropped _ hnone => exact absurd (hnone.symm.trans hreq).symm (Option.some_ne_none req)
          | untouched hnot hsame _ =>
              have hlen := hperm.length_eq
              rw [List.length_cons, List.length_drop] at hlen
              exact ⟨req, hsame.symm.trans hreq, hd ▸ hfront.resolve_left hnot, by omega⟩
        · have hget : (m.queueInvTx.insert x ⟨next :: rest, now + c.invTimeout⟩)[t]? =
              m.queueInvTx[t]? := (getElem?_insert ..).trans (if_neg ht)
          refine (h.handled t).other ?_ hget fun d' hmem => ?_
          · rw [hasked]
            exact or_iff_left ht
          · exact (hdone _ hmem).resolve_right fun heq => ht (congrArg Prod.snd heq)

end Rounds

/-- **What `ProcessTxTimeouts` asks for** are the open requests that are due. -/
theorem asked_processTxTimeouts_iff {pick : ℕ → ℕ} {r : Node × Sends}
    (h : processTxTimeouts c now pick n = some r) (t : ℕ) : Asked r.2 t ↔ Due now n t := by
  obtain ⟨st, hrounds, hsettled, rfl⟩ := rounds_of_processTxTimeouts h
  have hstart : Progress now n [] n.txTimeoutQueue [] ({ n with txTimeoutEvent := none }, []) :=
    ⟨rfl, (List.append_nil _).symm, fun e he => absurd he List.not_mem_nil,
      fun e he => absurd he List.not_mem_nil,
      fun t => .untouched (not_asked_nil t) rfl fun _ _ => List.not_mem_nil⟩
  have hend : ∃ done todo new, Progress now n done todo new st := by
    clear h hsettled
    induction hrounds with
    | refl => exact ⟨_, _, _, hstart⟩
    | tail _ hround ih =>
        obtain ⟨done, todo, new, hprogress⟩ := ih
        exact hprogress.round hround
  obtain ⟨done, todo, new, hprogress⟩ := hend
  -- what is left of the queue has not passed
  have hdone : dueQueue now n = done := by
    rw [dueQueue, hprogress.split,
      List.takeWhile_append_of_pos fun e he => decide_eq_true (hprogress.passed e he)]
    cases todo with
    | nil => exact List.append_nil done
    | cons e todo =>
        have hfuture := hsettled e.1 e.2 (todo ++ new) hprogress.queue
        rw [List.takeWhile_cons_of_neg (by simpa using hfuture), List.append_nil]
  cases hprogress.handled t with
  | asked hasked hdue => exact iff_of_true hasked hdue
  | dropped hasked _ hfew =>
      refine iff_of_false hasked fun hdue => ?_
      obtain ⟨req, hreq, -, hlen⟩ := hdue
      exact absurd hlen (Nat.not_le_of_lt (hfew req hreq))
  | untouched hasked _ hnot =>
      refine iff_of_false hasked fun hdue => ?_
      obtain ⟨req, hreq, hmem, -⟩ := hdue
      exact hnot req hreq (hdone ▸ hmem)

end Node

end GhostDag
