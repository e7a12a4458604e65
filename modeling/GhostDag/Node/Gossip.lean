import GhostDag.Node.Traffic

/-!
# GhostDag.Node.Gossip

The gossip of blocks as one node sees it: who is asked for a block, what is
announced and what a request is answered with, for every event at once
(`gossips_step`).
-/

namespace GhostDag

open Std (ExtTreeMap ExtTreeSet)
open Containers Blockchain

namespace Node

variable {c : Config} {now : ℚ} {n n' : Node}

/-- The peers that have announced a block that the node waits for. -/
def announcers (n : Node) (id : Nat) : List Ipv4Address := n.queueInv.getD id []

/-- The block that an event may add to its node's chain. -/
def adds (c : Config) (n : Node) : Event → Option Nat
  | .handleBlock b _ => some b.id
  | .mineBlock _ => some (n.minedId c)
  | _ => none

/-- The peer that needs no announcement of that block. -/
def origin : Event → Ipv4Address
  | .handleBlock _ peer => peer
  | _ => Ipv4Address.unset

/-- What an event does to the gossip of blocks. -/
structure Gossips (c : Config) (n : Node) (event : Event) (n' : Node) (sends : Sends) : Prop where
  /-- A new block is announced to every peer but the one it came from. -/
  spread : ∀ id, adds c n event = some id → ¬ n.blockchain.Held id →
    ∀ peer ∈ c.peersAddresses, peer ≠ origin event → (peer, .invRelayBlock id) ∈ sends
  /-- Nothing else is announced. -/
  inv : ∀ peer id, (peer, Message.invRelayBlock id) ∈ sends →
    adds c n event = some id ∧ ¬ n.blockchain.Held id
  /-- Only announcers are asked. -/
  req : ∀ peer id, (peer, Message.reqRelayBlock id) ∈ sends →
    event = .handleInvRelayBlock id peer ∨ peer ∈ n.announcers id
  announcer : ∀ id, ∀ peer ∈ n'.announcers id,
    event = .handleInvRelayBlock id peer ∨ peer ∈ n.announcers id
  /-- The first announcer is asked at once. -/
  asks : ∀ id, n'.announcers id ≠ [] → n.announcers id ≠ [] ∨
    ∃ peer, (peer, .reqRelayBlock id) ∈ sends
  heard : ∀ id peer, event = .handleInvRelayBlock id peer →
    n.blockchain.Held id ∨ n'.announcers id ≠ []
  answer : ∀ id peer, event = .handleReqRelayBlock id peer → n.blockchain.Held id →
    ∃ w, w.blockId = id ∧ (peer, .block w) ∈ sends
  block : ∀ peer w, (peer, Message.block w) ∈ sends → n.blockchain.Held w.blockId

/-- The held blocks are stored under their own ids. -/
def Filed (n : Node) : Prop :=
  ∀ (id : ℕ) (b : Block),
    n.blockchain.blocks[id]? = some b ∨ n.blockchain.orphans[id]? = some b → b.id = id

variable {event : Event} {sends : Sends}

/-- An event that has nothing to do with blocks. -/
theorem Gossips.of_silent (hadds : adds c n event = none)
    (hinv : ∀ id peer, event ≠ .handleInvRelayBlock id peer)
    (hreq : ∀ id peer, event ≠ .handleReqRelayBlock id peer) (hqueue : n'.queueInv = n.queueInv)
    (hsends : ∀ s ∈ sends, (∃ l, s.2 = .reqTransactions l) ∨ (∃ l, s.2 = .invTransactions l) ∨
      ∃ l, s.2 = .transactions l) : Gossips c n event n' sends := by
  have hsame : n'.announcers = n.announcers := by
    funext id
    rw [announcers, announcers, hqueue]
  constructor
  case spread => exact fun id hid => absurd (hadds.symm.trans hid).symm (Option.some_ne_none id)
  case inv =>
    intro peer id hs
    obtain ⟨l, h⟩ | ⟨l, h⟩ | ⟨l, h⟩ := hsends _ hs <;> cases h
  case req =>
    intro peer id hs
    obtain ⟨l, h⟩ | ⟨l, h⟩ | ⟨l, h⟩ := hsends _ hs <;> cases h
  case announcer => exact fun id peer hpeer => .inr (hsame ▸ hpeer)
  case asks => exact fun id hne => .inl (hsame ▸ hne)
  case heard => exact fun id peer heq => absurd heq (hinv id peer)
  case answer => exact fun id peer heq => absurd heq (hreq id peer)
  case block =>
    intro peer w hs
    obtain ⟨l, h⟩ | ⟨l, h⟩ | ⟨l, h⟩ := hsends _ hs <;> cases h

/-- An event about the announcers of one block: they become `peers`, and some
of them may be asked. -/
theorem Gossips.of_fetch {blockHash : ℕ} {peers : List Ipv4Address} (hadds : adds c n event = none)
    (hreq : ∀ id peer, event ≠ .handleReqRelayBlock id peer)
    (hqueue : ∀ x, n'.announcers x = if blockHash = x then peers else n.announcers x)
    (hpeers : ∀ peer ∈ peers,
      event = .handleInvRelayBlock blockHash peer ∨ peer ∈ n.announcers blockHash)
    (hsends : ∀ s ∈ sends, s.1 ∈ peers ∧ s.2 = .reqRelayBlock blockHash)
    (hasks : peers ≠ [] → n.announcers blockHash ≠ [] ∨
      ∃ peer, (peer, .reqRelayBlock blockHash) ∈ sends)
    (hheard : ∀ id peer, event = .handleInvRelayBlock id peer →
      n.blockchain.Held id ∨ blockHash = id ∧ peers ≠ []) : Gossips c n event n' sends := by
  constructor
  case spread => exact fun id hid => absurd (hadds.symm.trans hid).symm (Option.some_ne_none id)
  case inv =>
    intro peer id hs
    cases (hsends _ hs).2
  case req =>
    intro peer id hs
    obtain ⟨hpeer, heq⟩ := hsends _ hs
    cases heq
    exact hpeers peer hpeer
  case announcer =>
    intro id peer hpeer
    rw [hqueue] at hpeer
    split at hpeer
    · next hid => exact hid ▸ hpeers peer hpeer
    · exact .inr hpeer
  case asks =>
    intro id hne
    rw [hqueue] at hne
    split at hne
    · next hid => exact hid ▸ hasks hne
    · exact .inl hne
  case heard =>
    intro id peer heq
    obtain hheld | ⟨rfl, hne⟩ := hheard id peer heq
    · exact .inl hheld
    · exact .inr (by rwa [hqueue, if_pos rfl])
  case answer => exact fun id peer heq => absurd heq (hreq id peer)
  case block =>
    intro peer w hs
    cases (hsends _ hs).2

/-- An event that may add a block: it is announced when it is new, and nobody
is asked for it any more. -/
theorem Gossips.of_adds {id : ℕ} (hadds : adds c n event = some id)
    (hinv : ∀ id peer, event ≠ .handleInvRelayBlock id peer)
    (hreq : ∀ id peer, event ≠ .handleReqRelayBlock id peer)
    (hqueue : ∀ x, n'.announcers x = [] ∨ n'.announcers x = n.announcers x)
    (hsends : n.blockchain.Held id ∧ sends = [] ∨
      ¬ n.blockchain.Held id ∧ sends = broadcastInvBlock c id (origin event)) :
    Gossips c n event n' sends := by
  have hmsg : ∀ s ∈ sends, ¬ n.blockchain.Held id ∧ s.2 = .invRelayBlock id := by
    obtain ⟨-, rfl⟩ | ⟨hnew, rfl⟩ := hsends
    · exact fun s hs => absurd hs List.not_mem_nil
    · intro s hs
      obtain ⟨p, -, rfl⟩ := List.mem_map.mp hs
      exact ⟨hnew, rfl⟩
  constructor
  case spread =>
    intro x hx hnot peer hpeer hne
    obtain rfl := Option.some.inj (hadds.symm.trans hx)
    obtain ⟨hheld, -⟩ | ⟨-, rfl⟩ := hsends
    · exact absurd hheld hnot
    · exact List.mem_map.mpr ⟨peer, List.mem_filter.mpr ⟨hpeer, by simpa using hne⟩, rfl⟩
  case inv =>
    intro peer x hs
    obtain ⟨hnew, heq⟩ := hmsg _ hs
    cases heq
    exact ⟨hadds, hnew⟩
  case req =>
    intro peer x hs
    cases (hmsg _ hs).2
  case announcer =>
    intro x peer hpeer
    obtain hnil | hsame := hqueue x
    · exact absurd (hnil ▸ hpeer) List.not_mem_nil
    · exact .inr (hsame ▸ hpeer)
  case asks => exact fun x hne => .inl ((hqueue x).resolve_left hne ▸ hne)
  case heard => exact fun x peer heq => absurd heq (hinv x peer)
  case answer => exact fun x peer heq => absurd heq (hreq x peer)
  case block =>
    intro peer w hs
    cases (hmsg _ hs).2

/-! ## one handler at a time -/

theorem announcers_insert (queueInv : ExtTreeMap ℕ (List Ipv4Address)) (id : ℕ)
    (peers : List Ipv4Address) (x : ℕ) :
    (queueInv.insert id peers).getD x [] = if id = x then peers else queueInv.getD x [] := by
  rw [ExtTreeMap.getD_insert]
  simp only [Std.compare_eq_iff_eq]

theorem announcers_erase (queueInv : ExtTreeMap ℕ (List Ipv4Address)) (id x : ℕ) :
    (queueInv.erase id).getD x [] = if id = x then [] else queueInv.getD x [] := by
  rw [ExtTreeMap.getD_erase]
  simp only [Std.compare_eq_iff_eq]

/-- Leaving the announcers as they are. -/
theorem announcers_self (n : Node) (id x : ℕ) :
    n.announcers x = if id = x then n.announcers id else n.announcers x := by
  split
  · next hid => rw [hid]
  · rfl

theorem gossips_handleInvRelayBlock (blockHash : ℕ) (peer : Ipv4Address) :
    Gossips c n (.handleInvRelayBlock blockHash peer)
      (handleInvRelayBlock c now n blockHash peer).1
      (handleInvRelayBlock c now n blockHash peer).2 := by
  have hreq : ∀ id p, Event.handleInvRelayBlock blockHash peer ≠ .handleReqRelayBlock id p :=
    fun id p h => by cases h
  obtain ⟨hheld, heq⟩ | ⟨hnew, ⟨hnil, heq⟩ | ⟨hsome, heq⟩⟩ :=
    handleInvRelayBlock_cases c now n blockHash peer
  · rw [heq]
    refine .of_fetch rfl hreq (announcers_self n blockHash) (fun _ => .inr)
      (fun _ hs => absurd hs List.not_mem_nil) .inl fun id p h => ?_
    cases h
    exact .inl hheld
  · rw [heq]
    refine .of_fetch rfl hreq (announcers_insert n.queueInv blockHash [peer]) (fun p hp => ?_)
      (fun s hs => ?_) (fun _ => .inr ⟨peer, List.mem_singleton_self _⟩) fun id p h => ?_
    · rw [List.mem_singleton.mp hp]
      exact .inl rfl
    · rw [List.mem_singleton.mp hs]
      exact ⟨List.mem_singleton_self peer, rfl⟩
    · cases h
      exact .inr ⟨rfl, List.cons_ne_nil _ _⟩
  · rw [heq]
    refine .of_fetch rfl hreq (announcers_insert n.queueInv blockHash _) (fun p hp => ?_)
      (fun s hs => absurd hs List.not_mem_nil) (fun _ => .inl hsome) fun id p h => ?_
    · obtain hp | hp := List.mem_append.mp hp
      · exact .inr hp
      · rw [List.mem_singleton.mp hp]
        exact .inl rfl
    · cases h
      exact .inr ⟨rfl, List.append_ne_nil_of_right_ne_nil _ (List.cons_ne_nil _ _)⟩

theorem gossips_invTimeoutExpired (blockHash pick : ℕ) :
    Gossips c n (.invTimeoutExpired blockHash pick) (invTimeoutExpired c now n blockHash pick).1
      (invTimeoutExpired c now n blockHash pick).2 := by
  have hreq : ∀ id p, Event.invTimeoutExpired blockHash pick ≠ .handleReqRelayBlock id p :=
    fun id p h => by cases h
  have hinv : ∀ id p, Event.invTimeoutExpired blockHash pick = .handleInvRelayBlock id p →
      n.blockchain.Held id ∨ blockHash = id ∧ n.announcers blockHash ≠ [] :=
    fun id p h => by cases h
  obtain ⟨-, heq⟩ | ⟨peers, hpeers, hcases⟩ := invTimeoutExpired_cases c now n blockHash pick
  · rw [heq]
    exact .of_fetch rfl hreq (announcers_self n blockHash) (fun _ => .inr)
      (fun _ hs => absurd hs List.not_mem_nil) .inl hinv
  have hann : n.announcers blockHash = peers := by
    rw [announcers, ExtTreeMap.getD_eq_getD_getElem?, hpeers, Option.getD_some]
  obtain ⟨-, heq⟩ | ⟨next, rest, hperm, heq⟩ := hcases
  · rw [heq]
    refine .of_fetch rfl hreq (announcers_erase n.queueInv blockHash)
      (fun _ hp => absurd hp List.not_mem_nil) (fun _ hs => absurd hs List.not_mem_nil)
      (fun hne => absurd rfl hne) fun id p h => ?_
    cases h
  · have hrest : ∀ p ∈ next :: rest, p ∈ n.announcers blockHash := fun p hp =>
      hann ▸ List.mem_of_mem_drop (hperm.mem_iff.mp hp)
    rw [heq]
    refine .of_fetch rfl hreq (announcers_insert n.queueInv blockHash (next :: rest))
      (fun p hp => .inr (hrest p hp)) (fun s hs => ?_)
      (fun _ => .inr ⟨next, List.mem_singleton_self _⟩) fun id p h => ?_
    · rw [List.mem_singleton.mp hs]
      exact ⟨List.mem_cons_self, rfl⟩
    · cases h

/-- A request for a block that is held is answered. -/
theorem gossips_handleReqRelayBlock (hn : Filed n) (blockHash : ℕ) (peer : Ipv4Address) :
    Gossips c n (.handleReqRelayBlock blockHash peer) n (handleReqRelayBlock n blockHash peer) := by
  have hheld : ∀ {b : Block}, n.heldBlock blockHash = some b →
      n.blockchain.blocks[blockHash]? = some b ∨ n.blockchain.orphans[blockHash]? = some b := by
    intro b hb
    unfold heldBlock at hb
    split at hb
    · next b' hb' => exact .inl (hb ▸ hb')
    · exact .inr hb
  have hsends : ∀ s ∈ handleReqRelayBlock n blockHash peer, ∃ b, n.heldBlock blockHash = some b ∧
      s = (peer, .block (encodeBlock b)) := by
    unfold handleReqRelayBlock
    split
    · next b hb => exact fun s hs => ⟨b, hb, List.mem_singleton.mp hs⟩
    · exact fun s hs => absurd hs List.not_mem_nil
  constructor
  case spread => exact fun id hid => absurd hid.symm (Option.some_ne_none id)
  case inv =>
    intro p id hs
    obtain ⟨b, -, h⟩ := hsends _ hs
    cases h
  case req =>
    intro p id hs
    obtain ⟨b, -, h⟩ := hsends _ hs
    cases h
  case announcer => exact fun _ _ hp => .inr hp
  case asks => exact fun _ hne => .inl hne
  case heard => exact fun _ _ h => by cases h
  case answer =>
    rintro _ _ ⟨⟩ hid
    cases hb : n.heldBlock blockHash with
    | some b =>
        refine ⟨encodeBlock b, hn blockHash b (hheld hb), ?_⟩
        rw [handleReqRelayBlock, hb]
        exact List.mem_singleton_self _
    | none =>
        unfold heldBlock at hb
        split at hb
        · exact absurd hb (Option.some_ne_none _)
        · next hnone =>
            obtain hmem | hmem := hid
            · obtain ⟨b, hsome⟩ := mem_iff_exists.mp hmem
              exact absurd (hsome.symm.trans hnone) (Option.some_ne_none b)
            · obtain ⟨b, hsome⟩ := mem_iff_exists.mp hmem
              exact absurd (hsome.symm.trans hb) (Option.some_ne_none b)
  case block =>
    intro p w hs
    obtain ⟨b, hb, h⟩ := hsends _ hs
    cases h
    have hwhere := hheld hb
    change n.blockchain.Held b.id
    rw [hn blockHash b hwhere]
    exact hwhere.imp mem_of_getElem? mem_of_getElem?

theorem gossips_handleBlock {b : Block} {peer : Ipv4Address} {r : Node × Sends}
    (h : handleBlock c now n b peer = some r) :
    Gossips c n (.handleBlock b peer) r.1 r.2 := by
  have hinv : ∀ id p, Event.handleBlock b peer ≠ .handleInvRelayBlock id p := fun id p h => by cases h
  have hreq : ∀ id p, Event.handleBlock b peer ≠ .handleReqRelayBlock id p := fun id p h => by cases h
  obtain ⟨hheld, rfl⟩ | ⟨hnew, known, wasBlue, chain, newly, pool, -, -, -, -, -, rfl⟩ :=
    handleBlock_cases h
  · exact .of_adds rfl hinv hreq (fun _ => .inr rfl) (.inl ⟨Blockchain.held_iff.mp hheld, rfl⟩)
  · have hnot : ¬ n.blockchain.Held b.id := fun hheld =>
      Bool.false_ne_true (hnew.symm.trans (Blockchain.held_iff.mpr hheld))
    refine .of_adds rfl hinv hreq (fun x => ?_) (.inr ⟨hnot, rfl⟩)
    rw [announcers, announcers_erase]
    split
    · exact .inl rfl
    · exact .inr rfl

/-- A miner announces its block; the id is new. -/
theorem gossips_mineBlock {pick : ℕ → ℕ × ℕ} {store : BlockBodyStore}
    {r : BlockBodyStore × Node × Sends} (hnew : ¬ n.blockchain.Held (minedId c n))
    (h : mineBlock c now pick store n = some r) : Gossips c n (.mineBlock pick) r.2.1 r.2.2 := by
  obtain ⟨chain, -, rfl⟩ := mineBlock_cases h
  exact .of_adds rfl (fun id p h => by cases h) (fun id p h => by cases h) (fun _ => .inr rfl)
    (.inr ⟨hnew, rfl⟩)

theorem queueInv_handleTransactions {draw : ℕ → ℕ} {txs : List Transaction} {peer : Ipv4Address}
    (h : handleTransactions c draw n txs peer = some n') : n'.queueInv = n.queueInv := by
  obtain ⟨m, hrun, hcases⟩ := handleTransactions_cases h
  have hall : m.queueInv = n.queueInv := by
    refine foldlM_keeps (P := fun m => m.queueInv = n.queueInv) (fun _ _ _ _ hsame hacc => ?_) rfl hrun
    refine Eq.trans ?_ hsame
    obtain ⟨-, rfl⟩ | ⟨-, known, -, ⟨-, rfl⟩ | ⟨-, rfl⟩⟩ := accept_cases hacc <;> rfl
  obtain ⟨-, rfl⟩ | ⟨-, rfl⟩ := hcases
  · exact hall
  · exact hall

/-- **Every event**, at a node whose blocks are in place and whose next id is
new. -/
theorem gossips_step {store : BlockBodyStore} {r : BlockBodyStore × Node × Sends} (hn : Filed n)
    (hnew : ∀ pick, event = .mineBlock pick → ¬ n.blockchain.Held (minedId c n))
    (h : step c now store n event = some r) : Gossips c n event r.2.1 r.2.2 := by
  cases event with
  | handleInvRelayBlock blockHash peer =>
      cases h
      exact gossips_handleInvRelayBlock blockHash peer
  | handleReqRelayBlock blockHash peer =>
      cases h
      exact gossips_handleReqRelayBlock hn blockHash peer
  | handleBlock b peer =>
      obtain ⟨r', hb, hr⟩ := Option.bind_eq_some_iff.mp h
      cases hr
      exact gossips_handleBlock hb
  | invTimeoutExpired blockHash pick =>
      cases h
      exact gossips_invTimeoutExpired blockHash pick
  | mineBlock pick => exact gossips_mineBlock (hnew pick rfl) h
  | handleInvTransactions txIds peer =>
      cases h
      have hrequeues : Requeues n (handleInvTransactions c now n txIds peer).1 ∧
          ∀ s ∈ (handleInvTransactions c now n txIds peer).2, ∃ l, s.2 = .reqTransactions l :=
        requeues_handleInvTransactions txIds peer
      obtain ⟨⟨_, _, _, heq⟩, hsends⟩ := hrequeues
      exact .of_silent rfl (fun _ _ h => by cases h) (fun _ _ h => by cases h) (by rw [heq])
        fun s hs => .inl (hsends s hs)
  | handleReqTransactions txIds peer =>
      cases h
      refine .of_silent rfl (fun _ _ h => by cases h) (fun _ _ h => by cases h) rfl fun s hs => ?_
      unfold handleReqTransactions at hs
      dsimp only at hs
      split at hs
      · exact absurd hs List.not_mem_nil
      · exact .inr (.inr ⟨_, congrArg Prod.snd (List.mem_singleton.mp hs)⟩)
  | handleTransactions draw txs peer =>
      obtain ⟨m, htxs, hm⟩ := Option.bind_eq_some_iff.mp h
      cases hm
      exact .of_silent rfl (fun _ _ h => by cases h) (fun _ _ h => by cases h)
        (queueInv_handleTransactions htxs) fun s hs => absurd hs List.not_mem_nil
  | processTxTimeouts pick =>
      obtain ⟨r', htimeouts, hr⟩ := Option.bind_eq_some_iff.mp h
      cases hr
      obtain ⟨⟨_, _, _, heq⟩, hsends⟩ := requeues_processTxTimeouts htimeouts
      exact .of_silent rfl (fun _ _ h => by cases h) (fun _ _ h => by cases h) (by rw [heq])
        fun s hs => .inl (hsends s hs)
  | flushInvBatch =>
      rw [step] at h
      split at h
      · cases h
        refine .of_silent rfl (fun _ _ h => by cases h) (fun _ _ h => by cases h) rfl fun s hs => ?_
        unfold flushInvBatch broadcastInvTransactions at hs
        dsimp only at hs
        split at hs
        · exact absurd hs List.not_mem_nil
        · obtain ⟨p, -, rfl⟩ := List.mem_map.mp hs
          exact .inr (.inl ⟨_, rfl⟩)
      · cases h
        exact .of_silent rfl (fun _ _ h => by cases h) (fun _ _ h => by cases h) rfl
          fun s hs => absurd hs List.not_mem_nil
  | generateTransaction fee =>
      obtain ⟨m, hgen, hm⟩ := Option.bind_eq_some_iff.mp h
      cases hm
      refine .of_silent rfl (fun _ _ h => by cases h) (fun _ _ h => by cases h) ?_
        fun s hs => absurd hs List.not_mem_nil
      obtain ⟨-, rfl⟩ | ⟨-, -, known, -, rfl⟩ := generateTransaction_cases hgen <;> rfl

end Node

end GhostDag
