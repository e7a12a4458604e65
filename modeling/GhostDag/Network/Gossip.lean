import GhostDag.Network.Steps

/-!
# GhostDag.Network.Gossip

The gossip of blocks across the network.  A block is announced by nodes that
hold it, requests for it go to nodes that hold it, and a node that holds it
has announced it to every peer that does not (`Gossip`), whatever the order
of delivery and whichever timers go off.
-/

namespace GhostDag

open Std (ExtTreeMap ExtTreeSet)
open Containers Blockchain

namespace Network

variable {ι : Type} {setup : Setup ι} {g g' : Network ι}

/-- A node with that address holds the block. -/
def HeldAt (setup : Setup ι) (g : Network ι) (address : Ipv4Address) (id : ℕ) : Prop :=
  ∃ j, setup.address j = address ∧ (g.nodes j).blockchain.Held id

/-- The node has sent a request for the block. -/
def Asked (g : Network ι) (i : ι) (id : ℕ) : Prop :=
  ∃ peer, (⟨i, peer, .reqRelayBlock id⟩ : Envelope ι) ∈ g.sent

/-- **The invariant of the gossip.** -/
structure Gossip (setup : Setup ι) (g : Network ι) : Prop where
  inv : ∀ e ∈ g.sent, ∀ id, e.msg = .invRelayBlock id → (g.nodes e.sender).blockchain.Held id
  block : ∀ e ∈ g.sent, ∀ w, e.msg = .block w → (g.nodes e.sender).blockchain.Held w.blockId
  req : ∀ e ∈ g.sent, ∀ id, e.msg = .reqRelayBlock id → HeldAt setup g e.recipient id
  announcer : ∀ i id, ∀ peer ∈ (g.nodes i).announcers id, HeldAt setup g peer id
  asked : ∀ i id, (g.nodes i).announcers id ≠ [] → Asked g i id
  /-- A peer that does not hold the block has been told. -/
  spread : ∀ i id, (g.nodes i).blockchain.Held id → id ≠ 0 →
    ∀ peer ∈ (setup.config i).peersAddresses, peer ≠ Ipv4Address.unset →
      HeldAt setup g peer id ∨ ⟨i, peer, .invRelayBlock id⟩ ∈ g.sent

theorem gossip_init (setup : Setup ι) : Gossip setup (init setup) where
  inv e he := absurd he List.not_mem_nil
  block e he := absurd he List.not_mem_nil
  req e he := absurd he List.not_mem_nil
  announcer i id peer hpeer := absurd hpeer (by simp [Node.announcers, init, Node.init])
  asked i id hne := absurd (by simp [Node.announcers, init, Node.init]) hne
  spread i id hheld hid := by
    have hzero : 0 = id := by
      simpa [Held, init, Node.init, Blockchain.init] using hheld
    exact absurd hzero.symm hid

/-- The blocks of every node are in place. -/
theorem Consistent.filed (h : Consistent setup g) (i : ι) : (g.nodes i).Filed :=
  fun _ _ hb => (h.of_holds hb).1

namespace Gossip

/-- The node that a block comes from holds it. -/
theorem heldAt_origin (hg : Gossip setup g) {a : Action ι} {i : ι} {store : BlockBodyStore}
    {e : Node.Event} (hev : Network.event setup g a = some (i, store, e)) {id : ℕ}
    (hadds : (g.nodes i).adds (setup.config i) e = some id) :
    Node.origin e = Ipv4Address.unset ∨ HeldAt setup g (Node.origin e) id := by
  obtain ⟨index, draw, env, rfl, henv, -, hmsg⟩ | ⟨-, hlocal⟩ := event_cases hev
  · have hmem := List.mem_of_getElem? henv
    cases hm : env.msg with
    | block w =>
        rw [hm] at hmsg
        cases hmsg
        cases hadds
        exact .inr ⟨env.sender, rfl, hg.block env hmem w hm⟩
    | _ =>
        rw [hm] at hmsg
        cases hmsg
        cases hadds
  · cases hlocal with
    | mineBlock => exact .inl rfl
    | _ => cases hadds

/-- The node that an announcement comes from holds the block. -/
theorem heldAt_announcer (hg : Gossip setup g) {a : Action ι} {i : ι} {store : BlockBodyStore}
    {id : ℕ} {peer : Ipv4Address}
    (hev : Network.event setup g a = some (i, store, .handleInvRelayBlock id peer)) :
    HeldAt setup g peer id := by
  obtain ⟨index, draw, env, rfl, henv, -, hmsg⟩ | ⟨-, hlocal⟩ := event_cases hev
  · have hmem := List.mem_of_getElem? henv
    cases hm : env.msg with
    | invRelayBlock blockHash =>
        rw [hm] at hmsg
        cases hmsg
        exact ⟨env.sender, rfl, hg.inv env hmem id hm⟩
    | _ =>
        rw [hm] at hmsg
        cases hmsg
  · cases hlocal

end Gossip

/-- A node that holds a block sends it to whoever asks. -/
theorem Consistent.exists_answer (h : Consistent setup g) {i : ι} {id : ℕ}
    (hheld : (g.nodes i).blockchain.Held id) (peer : Ipv4Address) :
    ∃ w, (g.nodes i).handleReqRelayBlock id peer = [(peer, .block w)] ∧ w.blockId = id ∧
      GenuineWire g.created w := by
  have hsome : ∃ b, (g.nodes i).heldBlock id = some b ∧ g.Holds i id b := by
    unfold Node.heldBlock
    cases hb : (g.nodes i).blockchain.blocks[id]? with
    | some b => exact ⟨b, rfl, .inl hb⟩
    | none =>
        have horphan := hheld.resolve_left fun hmem => by
          obtain ⟨b, hsome⟩ := mem_iff_exists.mp hmem
          exact Option.some_ne_none b (hsome.symm.trans hb)
        obtain ⟨b, hsome⟩ := mem_iff_exists.mp horphan
        exact ⟨b, hsome, .inr hsome⟩
  obtain ⟨b, hb, hholds⟩ := hsome
  refine ⟨encodeBlock b, ?_, (h.of_holds hholds).1, h.genuineWire_of_holds hholds⟩
  rw [Node.handleReqRelayBlock, hb]

variable [DecidableEq ι]

/-- What one action does to the gossip. -/
structure Gossiped (setup : Setup ι) (g g' : Network ι) (i : ι) (store : BlockBodyStore)
    (e : Node.Event) (sends : Sends) : Prop where
  gossips : Node.Gossips (setup.config i) (g.nodes i) e (g'.nodes i) sends
  others : ∀ j, j ≠ i → g'.nodes j = g.nodes j
  sent : ∀ env, env ∈ g'.sent ↔ env ∈ g.sent ∨ ∃ s ∈ sends, env = ⟨i, s.1, s.2⟩
  held : ∀ j id, (g.nodes j).blockchain.Held id → (g'.nodes j).blockchain.Held id
  /-- The event's block is held now. -/
  adds : ∀ id, (g.nodes i).adds (setup.config i) e = some id → (g'.nodes i).blockchain.Held id
  gained : ∀ id, (g'.nodes i).blockchain.Held id → ¬ (g.nodes i).blockchain.Held id →
    (g.nodes i).adds (setup.config i) e = some id

theorem Consistent.gossiped (h : Consistent setup g) {now : ℚ} {a : Action ι}
    (hrun : Network.step setup g now a = some g') :
    ∃ i store e sends, Network.event setup g a = some (i, store, e) ∧
      Gossiped setup g g' i store e sends := by
  have hmono : ∀ j id, (g.nodes j).blockchain.Held id → (g'.nodes j).blockchain.Held id :=
    fun _ _ => h.held_mono hrun
  obtain ⟨i, store, e, r, hev, hstep, rfl⟩ := step_cases hrun
  obtain ⟨-, hproper⟩ := h.event hev
  have hgain := h.gains_step hproper hstep
  have hgossips := Node.gossips_step (h.filed i) (fun pick heq => ?_) hstep
  · refine ⟨i, store, e, r.2.2, hev, ?_, fun j => happened_nodes_of_ne, fun env =>
      mem_happened_sent, hmono, ?_, ?_⟩
    · rw [happened_nodes_self]
      exact hgossips
    · intro id hid
      rw [happened_nodes_self]
      obtain ⟨hsame, hheld⟩ | ⟨id', hid', -, hgains⟩ := hgain
      · rw [hsame]
        exact hheld id hid
      · obtain rfl := Option.some.inj (hid'.symm.trans hid)
        exact (hgains.held id').mpr (.inr rfl)
    · intro id hheld hnot
      rw [happened_nodes_self] at hheld
      obtain ⟨hsame, -⟩ | ⟨id', hid', -, hgains⟩ := hgain
      · exact absurd (hsame ▸ hheld) hnot
      · obtain rfl := ((hgains.held id).mp hheld).resolve_left hnot
        exact hid'
  · subst heq
    exact not_or.mpr (h.minedId_not_held hproper i)

namespace Gossip

/-- **One action keeps the gossip going.** -/
theorem step (hg : Gossip setup g) {a : Action ι} {i : ι} {store : BlockBodyStore}
    {e : Node.Event} {sends : Sends} (hev : Network.event setup g a = some (i, store, e))
    (h : Gossiped setup g g' i store e sends) : Gossip setup g' := by
  have hat : ∀ {peer : Ipv4Address} {id : ℕ}, HeldAt setup g peer id → HeldAt setup g' peer id := by
    rintro peer id ⟨j, hj, hheld⟩
    exact ⟨j, hj, h.held j id hheld⟩
  have hasked : ∀ {j : ι} {id : ℕ}, Asked g j id → Asked g' j id := by
    rintro j id ⟨peer, hmem⟩
    exact ⟨peer, (h.sent _).mpr (.inl hmem)⟩
  have hannounced : ∀ {peer : Ipv4Address} {id : ℕ},
      e = .handleInvRelayBlock id peer ∨ peer ∈ (g.nodes i).announcers id → HeldAt setup g' peer id := by
    rintro peer id (rfl | hpeer)
    · exact hat (hg.heldAt_announcer hev)
    · exact hat (hg.announcer i id peer hpeer)
  constructor
  case inv =>
    intro env henv id hmsg
    obtain henv | ⟨⟨peer, msg⟩, hs, rfl⟩ := (h.sent env).mp henv
    · exact h.held _ id (hg.inv env henv id hmsg)
    · cases hmsg
      exact h.adds id (h.gossips.inv peer id hs).1
  case block =>
    intro env henv w hmsg
    obtain henv | ⟨⟨peer, msg⟩, hs, rfl⟩ := (h.sent env).mp henv
    · exact h.held _ _ (hg.block env henv w hmsg)
    · cases hmsg
      exact h.held i _ (h.gossips.block peer w hs)
  case req =>
    intro env henv id hmsg
    obtain henv | ⟨⟨peer, msg⟩, hs, rfl⟩ := (h.sent env).mp henv
    · exact hat (hg.req env henv id hmsg)
    · cases hmsg
      exact hannounced (h.gossips.req peer id hs)
  case announcer =>
    intro j id peer hpeer
    by_cases hj : j = i
    · subst hj
      exact hannounced (h.gossips.announcer id peer hpeer)
    · rw [h.others j hj] at hpeer
      exact hat (hg.announcer j id peer hpeer)
  case asked =>
    intro j id hne
    by_cases hj : j = i
    · subst hj
      obtain hne | ⟨peer, hs⟩ := h.gossips.asks id hne
      · exact hasked (hg.asked j id hne)
      · exact ⟨peer, (h.sent _).mpr (.inr ⟨_, hs, rfl⟩)⟩
    · rw [h.others j hj] at hne
      exact hasked (hg.asked j id hne)
  case spread =>
    intro j id hheld hid peer hpeer hset
    by_cases hold : (g.nodes j).blockchain.Held id
    · obtain hthere | htold := hg.spread j id hold hid peer hpeer hset
      · exact .inl (hat hthere)
      · exact .inr ((h.sent _).mpr (.inl htold))
    -- a block that has just come in
    · have hj : j = i := by
        by_contra hj
        exact hold (h.others j hj ▸ hheld)
      subst hj
      have hadds := h.gained id hheld hold
      by_cases horigin : peer = Node.origin e
      · obtain hunset | hthere := hg.heldAt_origin hev hadds
        · exact absurd (horigin.trans hunset) hset
        · exact .inl (horigin ▸ hat hthere)
      · exact .inr ((h.sent _).mpr
          (.inr ⟨_, h.gossips.spread id hadds hold peer hpeer horigin, rfl⟩))

end Gossip

/-- In every reachable state. -/
theorem Reachable.gossip (h : Reachable setup g) : Gossip setup g := by
  induction h with
  | init => exact gossip_init setup
  | step hreach hrun ih =>
      obtain ⟨i, store, e, sends, hev, hgossiped⟩ := hreach.consistent.gossiped hrun
      exact ih.step hev hgossiped

/-! ## no request is in vain -/

/-- Announcements and blocks come from nodes that hold the block, and every
request for a block will be answered, at whatever moment it arrives. -/
structure Truthful (setup : Setup ι) (g : Network ι) : Prop where
  inv : ∀ e ∈ g.sent, ∀ id, e.msg = .invRelayBlock id → (g.nodes e.sender).blockchain.Held id
  block : ∀ e ∈ g.sent, ∀ w, e.msg = .block w → (g.nodes e.sender).blockchain.Held w.blockId
  answered : ∀ (index : ℕ) (e : Envelope ι) (id : ℕ), g.sent[index]? = some e →
    e.msg = .reqRelayBlock id → ∃ i, setup.address i = e.recipient ∧ ∀ now draw, ∃ g' w,
      Network.step setup g now (.deliver index i draw) = some g' ∧
      g'.sent = g.sent ++ [⟨i, setup.address e.sender, .block w⟩] ∧
      w.blockId = id ∧ GenuineWire g.created w

/-- **Gossip is truthful** in every reachable state: nobody announces or sends
what it does not hold, and a request that arrives is answered with a block as
its miner created it. -/
theorem Reachable.truthful_gossip (h : Reachable setup g) : Truthful setup g where
  inv := h.gossip.inv
  block := h.gossip.block
  answered index e id he hmsg := by
    obtain ⟨i, hi, hheld⟩ := h.gossip.req e (List.mem_of_getElem? he) id hmsg
    refine ⟨i, hi, fun now draw => ?_⟩
    obtain ⟨w, hsends, hw, hgenuine⟩ :=
      h.consistent.exists_answer hheld (setup.address e.sender)
    have hev : event setup g (.deliver index i draw) =
        some (i, g.store, .handleReqRelayBlock id (setup.address e.sender)) := by
      rw [event, he]
      simp only [Option.bind_eq_bind, Option.bind_some, if_pos hi.symm, hmsg]
      rfl
    refine ⟨happened setup now g i g.store (.handleReqRelayBlock id (setup.address e.sender))
      (g.store, g.nodes i, [(setup.address e.sender, .block w)]), w, ?_, rfl, hw, hgenuine⟩
    rw [Network.step, hev, ← hsends]
    rfl

theorem truthful_relayed : ∃ g, relayed g = true ∧ Truthful pair g := by
  obtain ⟨g, hrun, hrelayed⟩ := Option.map_eq_some_iff.mp relayed_pair
  exact ⟨g, hrelayed, (Reachable.init.of_foldlM hrun).truthful_gossip⟩

end Network

end GhostDag
