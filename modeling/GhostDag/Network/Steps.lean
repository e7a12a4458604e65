import GhostDag.Network.Genuine
import GhostDag.Node.Gossip

/-!
# GhostDag.Network.Steps

What an action of the network comes to, once: an event at one node, whose
chain stays as it was or gains one block (`Consistent.gains_step`).  What no
action undoes is read off here: blocks stay held, messages stay sent.
-/

namespace GhostDag

open Std (ExtTreeMap ExtTreeSet)
open Containers Blockchain

/-- `s'` is `s` after a call of `AddBlock` with the new block `id`. -/
structure Gains (s : Blockchain) (id : ℕ) (s' : Blockchain) : Prop where
  ghostdagK : s'.ghostdagK = s.ghostdagK
  blocks : ∀ x ∈ s.blocks, x ∈ s'.blocks
  held : ∀ x, s'.Held x ↔ s.Held x ∨ x = id

theorem Added.gains {P : Block → Prop} {s s' : Blockchain} {nb : Block} (h : Added P s nb s') :
    Gains s nb.id s' := ⟨h.continues.ghostdagK, h.continues.blocks, h.held_iff⟩

/-- An event that no message brings about. -/
inductive Node.Event.Local : Node.Event → Prop
  | invTimeoutExpired (blockHash pick : ℕ) : Local (.invTimeoutExpired blockHash pick)
  | processTxTimeouts (pick : ℕ → ℕ) : Local (.processTxTimeouts pick)
  | flushInvBatch : Local .flushInvBatch
  | generateTransaction (fee : ℕ) : Local (.generateTransaction fee)
  | mineBlock (pick : ℕ → ℕ × ℕ) : Local (.mineBlock pick)

namespace Network

variable {ι : Type} {setup : Setup ι} {g g' : Network ι}

/-! ## the chain over an event -/

/-- The chain that an event hands to `AddBlock`: the counter has gone up if the
block is a new one. -/
def before (c : Config) (now : ℚ) (store : BlockBodyStore) (n : Node) (e : Node.Event) : Blockchain :=
  { n.blockchain with
    nextBlockId := n.blockchain.nextBlockId + (createdBy c now store n e).length }

/-- **A chain gets the block of the event**, if there is one that it did not
hold, and stays as it was otherwise. -/
theorem Consistent.added_step (h : Consistent setup g) {i : ι} {e : Node.Event} {now : ℚ}
    {store : BlockBodyStore} {r : BlockBodyStore × Node × Sends} (he : Proper g i e)
    (hrun : (g.nodes i).step (setup.config i) now store e = some r) :
    r.2.1.blockchain = (g.nodes i).blockchain ∧
        createdBy (setup.config i) now store (g.nodes i) e = [] ∧
        (∀ id, (g.nodes i).adds (setup.config i) e = some id → (g.nodes i).blockchain.Held id) ∨
      ∃ nb, (g.nodes i).adds (setup.config i) e = some nb.id ∧ ¬ (g.nodes i).blockchain.Held nb.id ∧
        Added (fun _ => True) (before (setup.config i) now store (g.nodes i) e) nb
          r.2.1.blockchain := by
  cases e with
  | handleBlock b peer =>
      obtain ⟨r', hb, hr⟩ := Option.bind_eq_some_iff.mp hrun
      cases hr
      obtain ⟨-, ⟨hheld, hsame⟩ | ⟨hnew, hadd⟩⟩ := Node.blockchain_handleBlock hb
      · refine .inl ⟨hsame, rfl, fun id hid => ?_⟩
        cases hid
        exact Blockchain.held_iff.mp hheld
      · have hnot := held_eq_false_iff.mp hnew
        have hadded : ∃ s', Added (fun _ => True) (g.nodes i).blockchain
            (Node.received now b peer) s' :=
          ((h.chain i).mono fun _ _ => trivial).exists_addBlock trivial hnot.1 hnot.2
        obtain ⟨s', hs'⟩ := hadded
        obtain rfl := Option.some.inj (hs'.run.symm.trans hadd)
        exact .inr ⟨Node.received now b peer, rfl, not_or.mpr hnot, hs'⟩
  | mineBlock pick =>
      obtain ⟨store', n', sends⟩ := r
      obtain ⟨-, -, hadd⟩ := Node.blockchain_mineBlock hrun
      have hnot := h.minedId_not_held he i
      have hchain : Sound (fun _ => True) (Node.countBlock (g.nodes i).blockchain) :=
        ((h.chain i).mono fun _ _ => trivial).setNextBlockId _
      have hadded : ∃ s', Added (fun _ => True) (Node.countBlock (g.nodes i).blockchain)
          (Node.mined (setup.config i) now (g.nodes i) (store.intern
            ((g.nodes i).minedId (setup.config i))
            (Node.selectTransactions (setup.config i) pick (g.nodes i).mempool).1).1) s' :=
        hchain.exists_addBlock trivial hnot.1 hnot.2
      obtain ⟨s', hs'⟩ := hadded
      obtain rfl := Option.some.inj (hs'.run.symm.trans hadd)
      exact .inr ⟨Node.mined (setup.config i) now (g.nodes i) _, rfl, not_or.mpr hnot, hs'⟩
  | _ =>
      obtain hsame | ⟨call, hadds, -⟩ := Node.blockchain_step hrun
      · exact .inl ⟨hsame, rfl, fun id hid => by cases hid⟩
      · cases hadds

/-- **A chain gains the block of the event.** -/
theorem Consistent.gains_step (h : Consistent setup g) {i : ι} {e : Node.Event} {now : ℚ}
    {store : BlockBodyStore} {r : BlockBodyStore × Node × Sends} (he : Proper g i e)
    (hrun : (g.nodes i).step (setup.config i) now store e = some r) :
    r.2.1.blockchain = (g.nodes i).blockchain ∧ (∀ id, (g.nodes i).adds (setup.config i) e = some id →
        (g.nodes i).blockchain.Held id) ∨
      ∃ id, (g.nodes i).adds (setup.config i) e = some id ∧ ¬ (g.nodes i).blockchain.Held id ∧
        Gains (g.nodes i).blockchain id r.2.1.blockchain := by
  obtain ⟨hsame, -, hheld⟩ | ⟨nb, hadds, hnew, hadded⟩ := h.added_step he hrun
  · exact .inl ⟨hsame, hheld⟩
  · have hgains := hadded.gains
    exact .inr ⟨nb.id, hadds, hnew, hgains.ghostdagK, hgains.blocks, hgains.held⟩

/-- **The counter counts the blocks** that the node creates. -/
theorem Consistent.nextBlockId_step (h : Consistent setup g) {i : ι} {e : Node.Event} {now : ℚ}
    {store : BlockBodyStore} {r : BlockBodyStore × Node × Sends} (he : Proper g i e)
    (hrun : (g.nodes i).step (setup.config i) now store e = some r) :
    r.2.1.blockchain.nextBlockId = (g.nodes i).blockchain.nextBlockId +
      (createdBy (setup.config i) now store (g.nodes i) e).length := by
  obtain ⟨hsame, hnone, -⟩ | ⟨nb, -, -, hadded⟩ := h.added_step he hrun
  · rw [hsame, hnone]
    rfl
  · exact hadded.continues.nextBlockId

/-! ## actions -/

/-- A message that reaches its recipient. -/
theorem event_deliver {index : ℕ} {i : ι} {env : Envelope ι} (henv : g.sent[index]? = some env)
    (haddr : env.recipient = setup.address i) (draw : ℕ → ℕ) :
    event setup g (.deliver index i draw) =
      some (i, Node.processMessage g.store draw (setup.address env.sender) env.msg) := by
  rw [event, henv]
  exact if_pos haddr

/-- **What happens at a node** is a message that reaches it, or its own
doing. -/
theorem event_cases {a : Action ι} {i : ι} {store : BlockBodyStore} {e : Node.Event}
    (hev : event setup g a = some (i, store, e)) :
    (∃ index draw env, a = .deliver index i draw ∧ g.sent[index]? = some env ∧
      env.recipient = setup.address i ∧
      Node.processMessage g.store draw (setup.address env.sender) env.msg = (store, e)) ∨
    (∀ index j draw, a ≠ .deliver index j draw) ∧ e.Local := by
  cases a with
  | deliver index j draw =>
      obtain ⟨env, henv, hev⟩ := Option.bind_eq_some_iff.mp hev
      split at hev
      · next haddr =>
          obtain ⟨rfl, hmsg⟩ := Prod.mk.inj (Option.some.inj hev)
          exact .inl ⟨index, draw, env, rfl, henv, haddr, hmsg⟩
      · exact absurd hev.symm (Option.some_ne_none _)
  | mine j pick =>
      rw [event] at hev
      split at hev
      · cases hev
        exact .inr ⟨(fun _ _ _ h => by cases h), .mineBlock pick⟩
      · exact absurd hev.symm (Option.some_ne_none _)
  | timeout j blockHash pick =>
      cases hev
      exact .inr ⟨(fun _ _ _ h => by cases h), .invTimeoutExpired blockHash pick⟩
  | txTimeouts j pick =>
      cases hev
      exact .inr ⟨(fun _ _ _ h => by cases h), .processTxTimeouts pick⟩
  | flush j =>
      cases hev
      exact .inr ⟨(fun _ _ _ h => by cases h), .flushInvBatch⟩
  | generate j fee =>
      cases hev
      exact .inr ⟨(fun _ _ _ h => by cases h), .generateTransaction fee⟩

variable [DecidableEq ι]

/-- The state after an event. -/
def happened (setup : Setup ι) (now : ℚ) (g : Network ι) (i : ι) (store : BlockBodyStore)
    (e : Node.Event) (r : BlockBodyStore × Node × Sends) : Network ι :=
  { g.put i r.2.1 r.2.2 with
    store := r.1
    created := g.created ++ createdBy (setup.config i) now store (g.nodes i) e }

/-- **An action is an event at one node.** -/
theorem step_cases {now : ℚ} {a : Action ι} (hrun : step setup g now a = some g') :
    ∃ i store e r, event setup g a = some (i, store, e) ∧
      (g.nodes i).step (setup.config i) now store e = some r ∧
      g' = happened setup now g i store e r := by
  obtain ⟨⟨i, store, e⟩, hev, hact⟩ := Option.bind_eq_some_iff.mp hrun
  obtain ⟨r, hstep, hret⟩ := Option.bind_eq_some_iff.mp hact
  exact ⟨i, store, e, r, hev, hstep, (Option.some.inj hret).symm⟩

section Happened

variable {now : ℚ} {i : ι} {store : BlockBodyStore} {e : Node.Event}
  {r : BlockBodyStore × Node × Sends}

@[simp] theorem happened_nodes_self : (happened setup now g i store e r).nodes i = r.2.1 :=
  put_nodes_self g i r.2.1 r.2.2

theorem happened_nodes_of_ne {j : ι} (h : j ≠ i) :
    (happened setup now g i store e r).nodes j = g.nodes j := put_nodes_of_ne g r.2.1 r.2.2 h

/-- **The frame of an event**: what is shown of the node that acts, and of the
others as they were, is true of all nodes. -/
theorem forall_happened {P : ι → Node → Prop} (hi : P i r.2.1)
    (hothers : ∀ j, j ≠ i → P j (g.nodes j)) (j : ι) :
    P j ((happened setup now g i store e r).nodes j) := by
  by_cases hj : j = i
  · subst hj
    rwa [happened_nodes_self]
  · rw [happened_nodes_of_ne hj]
    exact hothers j hj

theorem mem_happened_sent {env : Envelope ι} :
    env ∈ (happened setup now g i store e r).sent ↔
      env ∈ g.sent ∨ ∃ s ∈ r.2.2, env = ⟨i, s.1, s.2⟩ := mem_put_sent (n := r.2.1)

theorem sent_prefix_happened : g.sent <+: (happened setup now g i store e r).sent :=
  List.prefix_append _ _

theorem created_prefix_happened : g.created <+: (happened setup now g i store e r).created :=
  List.prefix_append _ _

end Happened

/-- A delivery creates no block. -/
theorem created_deliver {now : ℚ} {index : ℕ} {i : ι} {draw : ℕ → ℕ}
    (hrun : step setup g now (.deliver index i draw) = some g') : g'.created = g.created := by
  obtain ⟨j, store, e, r, hev, -, rfl⟩ := step_cases hrun
  obtain ⟨_, _, env, -, -, -, hmsg⟩ | ⟨hno, -⟩ := event_cases hev
  · have hnone : createdBy (setup.config j) now store (g.nodes j) e = [] := by
      cases hm : env.msg <;> rw [hm] at hmsg <;> cases hmsg <;> rfl
    rw [happened, hnone, List.append_nil]
  · exact absurd rfl (hno index i draw)

namespace Consistent

variable {now : ℚ}

/-- The chain of every node over an action. -/
theorem gains (h : Consistent setup g) {a : Action ι} (hrun : Network.step setup g now a = some g')
    (j : ι) : (g'.nodes j).blockchain = (g.nodes j).blockchain ∨
      ∃ id, ¬ (g.nodes j).blockchain.Held id ∧
        Gains (g.nodes j).blockchain id (g'.nodes j).blockchain := by
  obtain ⟨i, store, e, r, hev, hstep, rfl⟩ := step_cases hrun
  obtain ⟨-, hproper⟩ := h.event hev
  by_cases hj : j = i
  · subst hj
    rw [happened_nodes_self]
    obtain ⟨hsame, -⟩ | ⟨id, -, hnot, hgains⟩ := h.gains_step hproper hstep
    · exact .inl hsame
    · exact .inr ⟨id, hnot, hgains⟩
  · exact .inl (by rw [happened_nodes_of_ne hj])

/-- **What is held stays held.** -/
theorem held_mono (h : Consistent setup g) {a : Action ι}
    (hrun : Network.step setup g now a = some g') {j : ι} {id : ℕ}
    (hid : (g.nodes j).blockchain.Held id) : (g'.nodes j).blockchain.Held id := by
  obtain hsame | ⟨_, -, hgains⟩ := h.gains hrun j
  · rwa [hsame]
  · exact (hgains.held id).mpr (.inl hid)

end Consistent

/-- A node colours with the anticone limit it was configured with. -/
theorem Reachable.ghostdagK (h : Reachable setup g) (i : ι) :
    (g.nodes i).blockchain.ghostdagK = (setup.config i).ghostdagK := by
  induction h with
  | init => rfl
  | step hreach hrun ih =>
      obtain hsame | ⟨_, -, hgains⟩ := hreach.consistent.gains hrun i
      · rw [hsame, ih]
      · rw [hgains.ghostdagK, ih]

/-! ## runs -/

/-- The state after a list of actions, each with the time at which it
happens. -/
def run (setup : Setup ι) (actions : List (ℚ × Action ι)) : Option (Network ι) :=
  actions.foldlM (fun g a => step setup g a.1 a.2) (init setup)

theorem run_append {actions : List (ℚ × Action ι)} {now : ℚ} {a : Action ι} :
    run setup (actions ++ [(now, a)]) = some g' ↔
      ∃ g, run setup actions = some g ∧ step setup g now a = some g' := foldlM_append_singleton

theorem reachable_run {actions : List (ℚ × Action ι)}
    (h : run setup actions = some g) : Reachable setup g := by
  induction actions using List.reverseRecOn generalizing g with
  | nil =>
      obtain rfl := Option.some.inj h
      exact .init
  | append_singleton actions a ih =>
      obtain ⟨g₀, hrun, hstep⟩ := run_append.mp h
      exact (ih hrun).step hstep

/-- The exchange of a block between two nodes, with the times of its
steps. -/
def timedActions : List (ℚ × Action Bool) := relayActions.map fun a => (0, a)

theorem exists_run_timed : ∃ g, run pair timedActions = some g ∧ relayed g = true := by
  obtain ⟨g, hrun, hrelayed⟩ := Option.map_eq_some_iff.mp relayed_pair
  refine ⟨g, ?_, hrelayed⟩
  rw [run, timedActions, List.foldlM_map]
  exact hrun

end Network

end GhostDag
