import GhostDag.Network.Transactions
import GhostDag.Node.Progress

/-!
# GhostDag.Network.Progress

The network does not get stuck: what can happen in a reachable state is
handled (`Reachable.step_eq_none_iff`).
-/

namespace GhostDag

/-- No message makes a node generate. -/
theorem Node.ne_generate_of_processMessage {store store' : BlockBodyStore} {draw : ℕ → ℕ}
    {peer : Ipv4Address} {msg : Message} {e : Node.Event}
    (h : Node.processMessage store draw peer msg = (store', e)) (fee : ℕ) :
    e ≠ .generateTransaction fee := by
  cases msg <;> cases h <;> exact fun heq => by cases heq

namespace Network

variable {ι : Type} {setup : Setup ι} {g g' : Network ι}

/-- The ids in circulation are not of the last row. -/
theorem Generated.placed (hids : ∀ i, (setup.config i).id ≠ 2 ^ 32 - 1) {t : ℕ}
    (h : Generated setup g t) : Node.Placed t := by
  obtain ⟨j, hid, -⟩ := h
  rw [Node.Placed, hid]
  exact hids j

/-- **An event is handled**, unless it overflows the counter of a generator. -/
theorem Authentic.stuck_iff (ha : Authentic setup g) (h : Consistent setup g)
    (hids : ∀ i, (setup.config i).id ≠ 2 ^ 32 - 1) {now : ℚ} {a : Action ι} {i : ι}
    {store : BlockBodyStore} {e : Node.Event} (hroomy : Node.Roomy (g.nodes i))
    (hev : Network.event setup g a = some (i, store, e)) :
    (g.nodes i).step (setup.config i) now store e = none ↔
      (∃ fee, e = .generateTransaction fee) ∧ Node.Overflows (setup.config i) (g.nodes i) := by
  have hreturns : ∀ {e : Node.Event} {r : BlockBodyStore × Node × Sends},
      (∀ fee, e ≠ .generateTransaction fee) →
      (g.nodes i).step (setup.config i) now store e = some r →
      ((g.nodes i).step (setup.config i) now store e = none ↔
        (∃ fee, e = .generateTransaction fee) ∧ Node.Overflows (setup.config i) (g.nodes i)) := by
    intro e r hno hrun
    rw [hrun]
    exact iff_of_false (Option.some_ne_none r) fun hgen => hgen.1.elim hno
  have hplaced : ∀ t ∈ e.txIds, Node.Placed t := fun t ht => (ha.carried h hev t ht).placed hids
  cases e with
  | handleBlock b peer =>
      obtain ⟨r, hr⟩ : ∃ r, Node.handleBlock (setup.config i) now (g.nodes i) b peer = some r :=
        Node.exists_handleBlock hroomy (h.chain i) (ha.pool i).pool.wf
          (fun tx htx => hplaced _ (List.mem_map_of_mem htx)) peer
      exact hreturns (fun _ heq => by cases heq) (Option.bind_eq_some_iff.mpr ⟨r, hr, rfl⟩)
  | handleTransactions draw txs peer =>
      obtain ⟨n, hn⟩ :
          ∃ n, Node.handleTransactions (setup.config i) draw (g.nodes i) txs peer = some n :=
        Node.exists_handleTransactions hroomy (fun tx htx => hplaced _ (List.mem_map_of_mem htx))
          draw peer
      exact hreturns (fun _ heq => by cases heq) (Option.bind_eq_some_iff.mpr ⟨n, hn, rfl⟩)
  | processTxTimeouts pick =>
      obtain ⟨r, hr⟩ := Node.exists_processTxTimeouts (setup.config i) now pick (g.nodes i)
      exact hreturns (fun _ heq => by cases heq) (Option.bind_eq_some_iff.mpr ⟨r, hr, rfl⟩)
  | flushInvBatch =>
      cases hbatch : (g.nodes i).invBatchEvent with
      | some exclude =>
          refine hreturns (fun _ heq => by cases heq) (r := (store,
            Node.flushInvBatch (setup.config i) (g.nodes i) exclude)) ?_
          rw [Node.step, hbatch]
      | none =>
          refine hreturns (fun _ heq => by cases heq) (r := (store, g.nodes i, [])) ?_
          rw [Node.step, hbatch]
  | generateTransaction fee =>
      have hgen := Node.generateTransaction_eq_none_iff hroomy (hids i) fee
      rw [Node.step, Option.bind_eq_bind, Option.bind_eq_none_iff]
      rw [← hgen, Option.eq_none_iff_forall_ne_some]
      constructor
      · exact fun hnone => ⟨⟨fee, rfl⟩, fun n hn => by cases hnone n hn⟩
      · exact fun hgen n hn => absurd hn (hgen.2 n)
  | mineBlock pick =>
      obtain ⟨-, hproper⟩ := h.event hev
      obtain ⟨r, hr⟩ : ∃ r, Node.mineBlock (setup.config i) now pick store (g.nodes i) = some r :=
        Node.exists_mineBlock (h.chain i) (h.minedId_not_held hproper i) pick store
      exact hreturns (fun _ heq => by cases heq) hr
  | _ => exact hreturns (fun _ heq => by cases heq) rfl

/-- Only the action of a generator generates. -/
theorem eq_generate_of_event {a : Action ι} {i : ι} {store : BlockBodyStore} {fee : ℕ}
    (hev : event setup g a = some (i, store, .generateTransaction fee)) : a = .generate i fee := by
  obtain ⟨index, draw, env, rfl, -, -, hmsg⟩ | ⟨hno, -⟩ := event_cases hev
  · exact absurd rfl (Node.ne_generate_of_processMessage hmsg fee)
  · cases a with
    | deliver index j draw => exact absurd rfl (hno index j draw)
    | mine j pick =>
        rw [event] at hev
        split at hev
        · cases hev
        · exact absurd hev.symm (Option.some_ne_none _)
    | generate j fee' =>
        cases hev
        rfl
    | _ => cases hev

variable [DecidableEq ι]

theorem Reachable.roomy (h : Reachable setup g) (i : ι) : Node.Roomy (g.nodes i) := by
  induction h generalizing i with
  | init => exact Node.roomy_init (setup.config i)
  | step hreach hrun ih =>
      obtain ⟨j, store, e, r, -, hstep, rfl⟩ := step_cases hrun
      exact forall_happened (P := fun _ n => n.Roomy) (Node.roomy_step (ih j) hstep)
        (fun k _ => ih k) i

/-- An action happens if its event is handled. -/
theorem step_eq_none_iff_of_event {now : ℚ} {a : Action ι} {i : ι} {store : BlockBodyStore}
    {e : Node.Event} (hev : event setup g a = some (i, store, e)) :
    Network.step setup g now a = none ↔
      (g.nodes i).step (setup.config i) now store e = none := by
  have heq : Network.step setup g now a = act setup now g i store e := by
    rw [Network.step, hev]
    rfl
  rw [heq, act]
  cases (g.nodes i).step (setup.config i) now store e with
  | none => exact iff_of_true rfl rfl
  | some r => exact iff_of_false (Option.some_ne_none _) (Option.some_ne_none r)

/-- **A message can be delivered** to its recipient at any time. -/
theorem Reachable.exists_deliver (h : Reachable setup g)
    (hids : ∀ i, (setup.config i).id ≠ 2 ^ 32 - 1) {index : ℕ} {i : ι} {env : Envelope ι}
    (henv : g.sent[index]? = some env) (haddr : env.recipient = setup.address i) (now : ℚ)
    (draw : ℕ → ℕ) : ∃ g', Network.step setup g now (.deliver index i draw) = some g' := by
  have hev := event_deliver henv haddr draw
  refine Option.ne_none_iff_exists'.mp fun hnone => ?_
  have hstuck := (h.authentic.stuck_iff h.consistent hids (h.roomy i) hev).mp
    ((step_eq_none_iff_of_event hev).mp hnone)
  exact hstuck.1.elim (Node.ne_generate_of_processMessage rfl)

/-- **No handler gets stuck**: in a reachable state, an action that can happen
is handled, whatever the messages that are under way and whichever order they
come in.  Only a node that has generated `2 ^ 31 - 1` transactions overflows
its counter. -/
theorem Reachable.step_eq_none_iff (h : Reachable setup g)
    (hids : ∀ i, (setup.config i).id ≠ 2 ^ 32 - 1) (now : ℚ) (a : Action ι) :
    Network.step setup g now a = none ↔ event setup g a = none ∨
      ∃ i fee, a = .generate i fee ∧ Node.Overflows (setup.config i) (g.nodes i) := by
  cases hev : event setup g a with
  | none =>
      rw [Network.step, hev]
      exact iff_of_true rfl (.inl rfl)
  | some hap =>
      obtain ⟨i, store, e⟩ := hap
      rw [step_eq_none_iff_of_event hev, h.authentic.stuck_iff h.consistent hids (h.roomy i) hev]
      constructor
      · rintro ⟨⟨fee, rfl⟩, hover⟩
        exact .inr ⟨i, fee, eq_generate_of_event hev, hover⟩
      · rintro (hnone | ⟨j, fee, rfl, hover⟩)
        · exact absurd hnone (Option.some_ne_none _)
        · cases hev
          exact ⟨⟨fee, rfl⟩, hover⟩

/-- The theorem at the end of an exchange, for a message that comes once more;
and at the start, where no counter overflows. -/
theorem step_eq_none_iff_relayed : (∃ g, relayed g = true ∧
    (step pair g 0 (.deliver 2 true id) = none ↔ event pair g (.deliver 2 true id) = none ∨
      ∃ i fee, .deliver 2 true id = Action.generate i fee ∧
        Node.Overflows (pair.config i) (g.nodes i))) ∧
    step pair (init pair) 0 (.generate true 1) ≠ none := by
  constructor
  · obtain ⟨g, hrun, hrelayed⟩ := Option.map_eq_some_iff.mp relayed_pair
    exact ⟨g, hrelayed, (Reachable.init.of_foldlM hrun).step_eq_none_iff (by decide) 0 _⟩
  · intro hnone
    obtain hevent | ⟨i, fee, -, -, hover⟩ :=
      (Reachable.init.step_eq_none_iff (by decide) 0 _).mp hnone
    · cases hevent
    · exact absurd hover (by decide : ¬ 2 ^ 31 ≤ 0 + 1)

end Network

end GhostDag
