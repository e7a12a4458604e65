import GhostDag.Network.Refinement

/-!
# GhostDag.Network.Settled

Convergence, down to the bytes: when every payload that was sent has been
read, every node of a connected network has accepted the blocks that any of
them has mined, and no others.
-/

namespace GhostDag

open Interleaving (InOrder sequence)
open Loops (Meets)

namespace Network

variable {ι : Type} {setup : Setup ι} {g : Network ι}

/-- A node has given out the id. -/
def Mined (setup : Setup ι) (nodes : ι → Node) (id : ℕ) : Prop :=
  ∃ j k, 0 < k ∧ k < (nodes j).blockchain.nextBlockId ∧ id = (setup.config j).id * 2 ^ 32 + k

variable [DecidableEq ι]

/-- **The created blocks** are those that the counters count. -/
theorem Reachable.mem_created_iff (h : Reachable setup g) (id : ℕ) :
    id ∈ g.created.map Block.id ↔ Mined setup g.nodes id := by
  constructor
  · intro hid
    obtain ⟨m, hm, rfl⟩ := List.mem_map.mp hid
    obtain ⟨j, k, heq, hpos, -, hlt⟩ := h.consistent.issued m hm
    exact ⟨j, k, hpos, hlt, heq⟩
  · rintro ⟨j, k, hpos, hlt, rfl⟩
    induction h with
    | init => exact absurd hlt (not_lt.mpr hpos)
    | @step g g' now a hreach hrun ih =>
        obtain ⟨i, store, e, r, hev, hstep, rfl⟩ := step_cases hrun
        obtain ⟨-, hproper⟩ := hreach.consistent.event hev
        have hnext := hreach.consistent.nextBlockId_step hproper hstep
        have hold : (setup.config j).id * 2 ^ 32 + k ∈ g.created.map Block.id →
            (setup.config j).id * 2 ^ 32 + k ∈
              (happened setup now g i store e r).created.map Block.id := fun hmem =>
          (created_prefix_happened.map Block.id).subset hmem
        by_cases hj : j = i
        · subst hj
          rw [happened_nodes_self, hnext] at hlt
          obtain hlt | hle := Nat.lt_or_ge k (g.nodes j).blockchain.nextBlockId
          · exact hold (ih hlt)
          · cases e with
            | mineBlock pick =>
                change k < (g.nodes j).blockchain.nextBlockId + 1 at hlt
                obtain rfl : k = (g.nodes j).blockchain.nextBlockId := by omega
                rw [← Node.minedId_eq hproper]
                exact List.mem_map.mpr ⟨_, List.mem_append_right _ (List.mem_singleton_self _), rfl⟩
            | _ => exact absurd hlt (not_lt.mpr hle)
        · rw [happened_nodes_of_ne hj] at hlt
          exact hold (ih hlt)

end Network

namespace Stack

variable {ι : Type} {setup : Setup ι} {mpiSize : ℕ} {s : Stack ι}

/-- Every payload that one node has sent to another has been read there. -/
def AllRead (setup : Setup ι) (s : Stack ι) : Prop :=
  ∀ i j, ((s.channels i).delivered (setup.address j)).length =
    ((s.channels i).sent (setup.address j)).length

instance [Fintype ι] (s : Stack ι) : Decidable (AllRead setup s) :=
  inferInstanceAs (Decidable (∀ i j, ((s.channels i).delivered (setup.address j)).length =
    ((s.channels i).sent (setup.address j)).length))

/-- All nodes have the blocks that any of them has mined, and those with the
same `k` concur. -/
structure Settled (setup : Setup ι) (nodes : ι → Node) : Prop where
  blocks : ∀ i id, id ∈ (nodes i).blockchain.blocks ↔ id = 0 ∨ Network.Mined setup nodes id
  orphans : ∀ i id, id ∉ (nodes i).blockchain.orphans
  concur : ∀ i j, (setup.config i).ghostdagK = (setup.config j).ghostdagK →
    Concur (nodes i).blockchain (nodes j).blockchain

theorem exists_delivered {actions : List (ℚ × Action ι)} {index : ℕ}
    (h : index ∈ deliveries actions) : ∃ i, Network.Delivered actions index i := by
  obtain ⟨⟨now, a⟩, hmem, heq⟩ := List.mem_filterMap.mp h
  cases a with
  | deliver index' i draw => exact ⟨i, now, draw, Option.some.inj heq ▸ hmem⟩
  | _ => exact absurd heq.symm (Option.some_ne_none index)

variable [DecidableEq ι] {actions : List (ℚ × Action ι)} {g : Network ι}

/-- **Nothing unread, nothing undelivered.** -/
theorem Mirrors.drained (h : Mirrors setup mpiSize (counts s) s actions g)
    (hinj : Function.Injective setup.address) (hall : AllRead setup s) :
    Network.Drained setup actions g := by
  intro index env j henv haddr
  -- the link of the message is through
  have hlink : env.link = (env.sender, setup.address j) := congrArg (Prod.mk env.sender) haddr
  have hlength : (sequence Envelope.link g.sent env.link).length = counts s env.link := by
    rw [hlink, counts, hall env.sender j, h.sent, List.length_map]
  obtain ⟨i, hdelivered⟩ := exists_delivered (h.visited.mem_of_complete henv hlength.le)
  -- it went to the node with its address
  obtain ⟨env', henv', haddr', -⟩ := Network.handled_of_delivered hinj h.run hdelivered
  cases Option.some.inj (henv'.symm.trans henv)
  exact hinj (haddr'.symm.trans haddr) ▸ hdelivered

/-- **Convergence of the bytes**: a run that ends with everything read leaves
all nodes of a connected network with the same blocks, which are those that
they have mined, and in agreement. -/
theorem settled_of_allRead (hconnected : Network.Connected setup)
    (hpeers : ∀ i, (setup.config i).peersAddresses.Nodup)
    (hids : ∀ i, (setup.config i).id ≠ 2 ^ 32 - 1) {events : List (ℚ × Event ι)}
    (hevents : ∀ e ∈ events, BinaryFormat.double.Represents e.1 ∧ e.2.InRange)
    (hrun : run setup mpiSize events = .ok s) (hall : AllRead setup s) :
    Settled setup s.nodes := by
  have hmirrors := (mirrors_init setup mpiSize hpeers).foldlM hevents hids
  obtain ⟨actions, g, h⟩ := hmirrors.ok s hrun
  have hreach := Network.reachable_run h.run
  have hblocks := Network.mem_blocks_of_drained hconnected h.run (h.drained hconnected.injective hall)
  have hconverged := hreach.converged hblocks
  rw [h.nodes]
  exact {
    blocks := fun i id => (hblocks i id).trans (or_congr_right (hreach.mem_created_iff id))
    orphans := hconverged.orphans
    concur := hconverged.concur }

theorem allRead_relayEvents :
    (run Network.pair 1 relayEvents).toOption.map (fun s => decide (AllRead Network.pair s)) =
      some true := by decide +kernel

/-- The theorem for that exchange: the announcement, the request and the block
have been read. -/
theorem settled_relay : ∃ s, run Network.pair 1 relayEvents = .ok s ∧ Settled Network.pair s.nodes := by
  have hread := allRead_relayEvents
  cases hrun : run Network.pair 1 relayEvents with
  | error e =>
      rw [hrun] at hread
      exact absurd hread.symm (Option.some_ne_none true)
  | ok s =>
      rw [hrun] at hread
      have hall : AllRead Network.pair s := of_decide_eq_true (Option.some.inj hread)
      exact ⟨s, rfl, settled_of_allRead Network.connected_pair (by decide) (by decide)
        inRange_relayEvents hrun hall⟩

end Stack

end GhostDag
