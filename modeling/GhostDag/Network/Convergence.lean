import GhostDag.Network.Consensus
import GhostDag.Network.Gossip

/-!
# GhostDag.Network.Convergence

Convergence: when every message sent has been delivered at least once, in any
order, all nodes of a connected network have accepted exactly the blocks that
were created, and those with the same `k` concur in tip, colours and ordering.

A message that has been delivered has been dealt with (`Handled`): an
announced block is held or was asked for, a request was answered, and a block
that has arrived is held.  With `Gossip` this carries a block along every
path of peers.
-/

namespace GhostDag

open Std (ExtTreeMap ExtTreeSet)
open Containers Blockchain

namespace Network

variable {ι : Type} {setup : Setup ι} {g g' : Network ι}

/-! ## deliveries -/

/-- A message has been delivered to a node. -/
def Delivered (actions : List (ℚ × Action ι)) (index : ℕ) (i : ι) : Prop :=
  ∃ now draw, (now, .deliver index i draw) ∈ actions

/-- Every message sent has been delivered where it was sent to. -/
def Drained (setup : Setup ι) (actions : List (ℚ × Action ι)) (g : Network ι) : Prop :=
  ∀ (index : ℕ) (env : Envelope ι) (i : ι), g.sent[index]? = some env →
    env.recipient = setup.address i → Delivered actions index i

/-! ## what there is to hold -/

/-- A held block is genesis or was created. -/
theorem Consistent.eq_zero_or_created (h : Consistent setup g) {i : ι} {id : ℕ}
    (hheld : (g.nodes i).blockchain.Held id) : id = 0 ∨ id ∈ g.created.map Block.id := by
  have hholds : ∃ b, g.Holds i id b := by
    obtain hmem | hmem := hheld
    · obtain ⟨b, hb⟩ := mem_iff_exists.mp hmem
      exact ⟨b, .inl hb⟩
    · obtain ⟨b, hb⟩ := mem_iff_exists.mp hmem
      exact ⟨b, .inr hb⟩
  obtain ⟨b, hb⟩ := hholds
  obtain ⟨hid, hgen | ⟨m, hm, hbody⟩⟩ := h.of_holds hb
  · exact .inl (hid.symm.trans hgen.id)
  · exact .inr (List.mem_map.mpr ⟨m, hm, hbody.id.symm.trans hid⟩)

/-- **A chain that holds every created block has accepted them all.** -/
theorem Consistent.mem_blocks_of_held (h : Consistent setup g) {i : ι}
    (hall : ∀ m ∈ g.created, (g.nodes i).blockchain.Held m.id) {id : ℕ}
    (hacc : Accepted g.created id) : id ∈ (g.nodes i).blockchain.blocks := by
  obtain ⟨d, hd, hhold, hready⟩ := h.chain i
  rw [hhold.mem_blocks_iff hready]
  induction hacc with
  | genesis => exact .genesis
  | @step m hm _ ih =>
      obtain h0 | hmem := (hhold.mem_iff m.id).mp (hall m hm)
      · exact absurd h0 (h.id_ne_zero hm)
      · obtain ⟨b, hb, hbid⟩ := hhold.delivered m.id hmem
        obtain ⟨m', hm', hbody⟩ := hd b hb
        obtain rfl := h.eq_of_id_eq hm' hm (hbody.id.symm.trans hbid)
        rw [← hbid]
        exact .step hb fun p hp => ih p (hbody.parents ▸ hp)

/-! ## messages that have been dealt with -/

/-- The node has dealt with the message. -/
def Handled (setup : Setup ι) (g : Network ι) (i : ι) (env : Envelope ι) : Prop :=
  match env.msg with
  | .invRelayBlock id => (g.nodes i).blockchain.Held id ∨ Asked g i id
  | .reqRelayBlock id => ∃ w, w.blockId = id ∧ ⟨i, setup.address env.sender, .block w⟩ ∈ g.sent
  | .block w => (g.nodes i).blockchain.Held w.blockId
  | _ => True

theorem Handled.mono {i j : ι} {store : BlockBodyStore} {e : Node.Event} {sends : Sends}
    (h : Gossiped setup g g' i store e sends) {env : Envelope ι} (henv : Handled setup g j env) :
    Handled setup g' j env := by
  unfold Handled at henv ⊢
  cases hmsg : env.msg with
  | invRelayBlock id =>
      rw [hmsg] at henv
      obtain hheld | ⟨peer, hmem⟩ := henv
      · exact .inl (h.held j id hheld)
      · exact .inr ⟨peer, (h.sent _).mpr (.inl hmem)⟩
  | reqRelayBlock id =>
      rw [hmsg] at henv
      obtain ⟨w, hw, hmem⟩ := henv
      exact ⟨w, hw, (h.sent _).mpr (.inl hmem)⟩
  | block w =>
      rw [hmsg] at henv
      exact h.held j _ henv
  | _ => trivial

/-- **A message is dealt with when it is delivered.** -/
theorem Gossip.handled (hinj : Function.Injective setup.address) (hg : Gossip setup g)
    (hg' : Gossip setup g') {index : ℕ} {i j : ι} {draw : ℕ → ℕ} {store : BlockBodyStore}
    {e : Node.Event} {sends : Sends}
    (hev : event setup g (.deliver index j draw) = some (i, store, e))
    (h : Gossiped setup g g' i store e sends) :
    ∃ env, g.sent[index]? = some env ∧ env.recipient = setup.address j ∧ Handled setup g' j env := by
  obtain ⟨_, _, env, ha, henv, haddr, hmsg⟩ | ⟨hno, -⟩ := event_cases hev
  · obtain ⟨rfl, rfl, rfl⟩ := Action.deliver.inj ha
    refine ⟨env, henv, haddr, ?_⟩
    have hmem := List.mem_of_getElem? henv
    unfold Handled
    cases hm : env.msg with
    | invRelayBlock id =>
        rw [hm] at hmsg
        cases hmsg
        obtain hheld | hne := h.gossips.heard id _ rfl
        · exact .inl (h.held j id hheld)
        · exact .inr (hg'.asked j id hne)
    | reqRelayBlock id =>
        rw [hm] at hmsg
        cases hmsg
        obtain ⟨k, hk, hheld⟩ := hg.req env hmem id hm
        obtain rfl := hinj (hk.trans haddr)
        obtain ⟨w, hw, hs⟩ := h.gossips.answer id _ rfl hheld
        exact ⟨w, hw, (h.sent _).mpr (.inr ⟨_, hs, rfl⟩)⟩
    | block w =>
        rw [hm] at hmsg
        cases hmsg
        exact h.adds w.blockId rfl
    | _ => trivial
  · exact absurd rfl (hno index j draw)

variable [DecidableEq ι]

/-- Every delivered message has been dealt with. -/
theorem handled_of_delivered (hinj : Function.Injective setup.address)
    {actions : List (ℚ × Action ι)} (hrun : run setup actions = some g) {index : ℕ} {i : ι}
    (hdel : Delivered actions index i) :
    ∃ env, g.sent[index]? = some env ∧ env.recipient = setup.address i ∧ Handled setup g i env := by
  induction actions using List.reverseRecOn generalizing g with
  | nil =>
      obtain ⟨_, _, hmem⟩ := hdel
      exact absurd hmem List.not_mem_nil
  | append_singleton actions a ih =>
      obtain ⟨now, a⟩ := a
      obtain ⟨g₀, hrun₀, hstep⟩ := run_append.mp hrun
      have hreach := reachable_run hrun₀
      obtain ⟨j, store, e, sends, hev, hgossiped⟩ := hreach.consistent.gossiped hstep
      have hprefix : ∀ {env : Envelope ι}, g₀.sent[index]? = some env →
          g.sent[index]? = some env := by
        obtain ⟨_, _, _, _, -, -, rfl⟩ := step_cases hstep
        intro env henv
        obtain ⟨hlt, rfl⟩ := List.getElem?_eq_some_iff.mp henv
        exact List.prefix_iff_getElem?.mp sent_prefix_happened index hlt
      obtain ⟨now', draw, hmem⟩ := hdel
      obtain hmem | hmem := List.mem_append.mp hmem
      · obtain ⟨env, henv, haddr, hhandled⟩ := ih hrun₀ ⟨now', draw, hmem⟩
        exact ⟨env, hprefix henv, haddr, hhandled.mono hgossiped⟩
      · cases List.mem_singleton.mp hmem
        obtain ⟨env, henv, haddr, hhandled⟩ :=
          hreach.gossip.handled hinj (hreach.step hstep).gossip hev hgossiped
        exact ⟨env, hprefix henv, haddr, hhandled⟩

/-- A created block is held by its miner. -/
theorem Reachable.held_of_created (h : Reachable setup g) :
    ∀ m ∈ g.created, ∃ i, (g.nodes i).blockchain.Held m.id := by
  induction h with
  | init => exact fun m hm => absurd hm List.not_mem_nil
  | step hreach hrun ih =>
      obtain ⟨i, store, e, sends, hev, hgossiped⟩ := hreach.consistent.gossiped hrun
      obtain ⟨i', store', e', r, hev', -, rfl⟩ := step_cases hrun
      cases hev.symm.trans hev'
      intro m hm
      obtain hm | hm := List.mem_append.mp hm
      · obtain ⟨j, hj⟩ := ih m hm
        exact ⟨j, hgossiped.held j m.id hj⟩
      · cases e with
        | mineBlock pick =>
            obtain rfl := List.mem_singleton.mp hm
            exact ⟨i, hgossiped.adds _ rfl⟩
        | _ => exact absurd hm List.not_mem_nil

/-! ## convergence -/

/-- Nodes have addresses of their own, and every two are connected along
peers. -/
structure Connected (setup : Setup ι) : Prop where
  injective : Function.Injective setup.address
  set : ∀ i, setup.address i ≠ Ipv4Address.unset
  path : ∀ i j, Relation.ReflTransGen
    (fun i j => setup.address j ∈ (setup.config i).peersAddresses) i j

/-- All nodes have the whole DAG. -/
structure Converged (setup : Setup ι) (g : Network ι) : Prop where
  blocks : ∀ i id, id ∈ (g.nodes i).blockchain.blocks ↔ id = 0 ∨ id ∈ g.created.map Block.id
  orphans : ∀ i id, id ∉ (g.nodes i).blockchain.orphans
  concur : ∀ i j, (setup.config i).ghostdagK = (setup.config j).ghostdagK →
    Concur (g.nodes i).blockchain (g.nodes j).blockchain

variable {actions : List (ℚ × Action ι)}

/-- **A peer holds what the node holds**, once everything is delivered. -/
theorem held_of_peer (hc : Connected setup) (hrun : run setup actions = some g)
    (hdrained : Drained setup actions g) {i j : ι} {id : ℕ}
    (hheld : (g.nodes i).blockchain.Held id)
    (hpeer : setup.address j ∈ (setup.config i).peersAddresses) :
    (g.nodes j).blockchain.Held id := by
  have hreach := reachable_run hrun
  have hgossip := hreach.gossip
  have hdone : ∀ {env : Envelope ι} {k : ι}, env ∈ g.sent → env.recipient = setup.address k →
      Handled setup g k env := by
    intro env k hmem haddr
    obtain ⟨index, henv⟩ := List.mem_iff_getElem?.mp hmem
    obtain ⟨env', henv', -, hhandled⟩ :=
      handled_of_delivered hc.injective hrun (hdrained index env k henv haddr)
    exact Option.some.inj (henv'.symm.trans henv) ▸ hhandled
  by_cases hid : id = 0
  · exact hid ▸ .inl (hreach.consistent.chain j).zero_mem
  obtain ⟨k, hk, hthere⟩ | htold := hgossip.spread i id hheld hid _ hpeer (hc.set j)
  · exact hc.injective hk ▸ hthere
  -- announced, asked for, answered
  obtain hthere | ⟨peer, hasked⟩ := hdone htold rfl
  · exact hthere
  obtain ⟨k, hk, -⟩ := hgossip.req _ hasked id rfl
  obtain ⟨w, rfl, hanswer⟩ := hdone hasked hk.symm
  exact hdone hanswer rfl

/-- **Everyone has every block.** -/
theorem mem_blocks_of_drained (hc : Connected setup) (hrun : run setup actions = some g)
    (hdrained : Drained setup actions g) (i : ι) (id : ℕ) :
    id ∈ (g.nodes i).blockchain.blocks ↔ id = 0 ∨ id ∈ g.created.map Block.id := by
  have hreach := reachable_run hrun
  have hcons := hreach.consistent
  have hspread : ∀ {i j : ι} {id : ℕ}, (g.nodes i).blockchain.Held id →
      (g.nodes j).blockchain.Held id := by
    intro i j id hheld
    induction hc.path i j with
    | refl => exact hheld
    | tail _ hpeer ih => exact held_of_peer hc hrun hdrained ih hpeer
  have hall : ∀ m ∈ g.created, (g.nodes i).blockchain.Held m.id := by
    intro m hm
    obtain ⟨j, hj⟩ := hreach.held_of_created m hm
    exact hspread hj
  constructor
  · exact fun hid => hcons.eq_zero_or_created (.inl hid)
  · rintro (rfl | hid)
    · exact (hcons.chain i).zero_mem
    · obtain ⟨m, hm, rfl⟩ := List.mem_map.mp hid
      exact hcons.mem_blocks_of_held hall (hreach.rooted m hm).2

/-- Nodes with all blocks concur. -/
theorem Reachable.converged (h : Reachable setup g)
    (hblocks : ∀ i id, id ∈ (g.nodes i).blockchain.blocks ↔ id = 0 ∨ id ∈ g.created.map Block.id) :
    Converged setup g := by
  refine ⟨hblocks, fun i id horphan => ?_, fun i j hk => ?_⟩
  · have hid := (hblocks i id).mpr (h.consistent.eq_zero_or_created (.inr horphan))
    exact (h.consistent.chain i).disjoint hid horphan
  · obtain ⟨G, W, W', hparts⟩ := h.exists_parts hk
    exact hparts.concur fun id => (hblocks i id).trans (hblocks j id).symm

/-- **Convergence**: with all messages delivered, in any order and whichever
timers have gone off, every node has accepted every block that was created,
and nothing else, and the nodes agree on the colouring and the order. -/
theorem converged_of_drained (hc : Connected setup) (hrun : run setup actions = some g)
    (hdrained : Drained setup actions g) : Converged setup g :=
  (reachable_run hrun).converged (mem_blocks_of_drained hc hrun hdrained)

/-- Every two nodes of the pair are peers. -/
theorem connected_pair : Connected pair where
  injective := by decide
  set := by decide
  path i j := by
    by_cases h : i = j
    · exact h ▸ .refl
    · refine .single ?_
      cases i <;> cases j <;> simp_all [pair]

theorem sent_timed : (run pair timedActions).map (fun g => g.sent.map Envelope.recipient) =
    some [101, 100, 101] := by decide +kernel

/-- Three messages have been sent, and each was delivered. -/
theorem drained_timed {g : Network Bool} (hrun : run pair timedActions = some g) :
    Drained pair timedActions g := by
  intro index env i henv haddr
  have hsent : g.sent.map Envelope.recipient = [101, 100, 101] := by
    have hall := sent_timed
    rw [hrun] at hall
    exact Option.some.inj hall
  have hmem : (g.sent.map Envelope.recipient)[index]? = some (pair.address i) := by
    rw [List.getElem?_map, henv, Option.map_some, haddr]
  rw [hsent] at hmem
  match index, hmem with
  | 0, hmem =>
      cases i
      · exact absurd hmem (by decide)
      · exact ⟨0, id, by simp [timedActions, relayActions]⟩
  | 1, hmem =>
      cases i
      · exact ⟨0, id, by simp [timedActions, relayActions]⟩
      · exact absurd hmem (by decide)
  | 2, hmem =>
      cases i
      · exact absurd hmem (by decide)
      · exact ⟨0, id, by simp [timedActions, relayActions]⟩
  | _ + 3, hmem => exact absurd hmem.symm (Option.some_ne_none _)

/-- The theorem at the end of that exchange. -/
theorem converged_timed : ∃ g, run pair timedActions = some g ∧ Converged pair g := by
  obtain ⟨g, hrun, -⟩ := exists_run_timed
  exact ⟨g, hrun, converged_of_drained connected_pair hrun (drained_timed hrun)⟩

end Network

end GhostDag
