import GhostDag.Graphene.Frames
import GhostDag.Graphene.Relay
import GhostDag.Node.Eviction

/-!
# GhostDag.Graphene.Fetch

The bookkeeping of blocks to fetch: the announcers of a block with the timer of
the request (`m_queue_inv`, `m_inv_timeouts`), and the recoveries that are
under way (`m_graphene_state`, `m_graphene_timeouts`, `m_graphene_senders`).

For every block there is either nothing or all that is needed, the pending
event included (`InvEntry`, `RecoveryEntry`).  No step makes anything else of
it, as long as a node does not mine a block that was announced to it, and so
no run does (`blocks_tracked`).
-/

namespace GhostDag

open Std (ExtTreeMap ExtTreeSet)
open Containers

namespace GrapheneNode

open GrapheneProtocol

variable {G : Graphene} {c : Config} {now : ℚ} {g g' : GrapheneNode}

/-! ## the bookkeeping -/

/-- **The announced blocks, and the recoveries, between events.** -/
structure Bookkeeping (g : GrapheneNode) : Prop where
  mem_invTimeouts_iff : ∀ blockHash : ℕ,
    blockHash ∈ g.node.invTimeouts ↔ blockHash ∈ g.node.queueInv
  announcers : ∀ (blockHash : ℕ) (l : List Ipv4Address),
    g.node.queueInv[blockHash]? = some l → l ≠ []
  inv_pending : ∀ (blockHash : ℕ) (due : ℚ),
    g.node.invTimeouts[blockHash]? = some due → (blockHash, due) ∈ g.invEvents
  unheld : ∀ blockHash ∈ g.node.queueInv, ¬ g.node.blockchain.Held blockHash
  mem_grapheneTimeouts_iff : ∀ blockHash : ℕ,
    blockHash ∈ g.grapheneTimeouts ↔ blockHash ∈ g.grapheneState
  mem_grapheneSenders_iff : ∀ blockHash : ℕ,
    blockHash ∈ g.grapheneSenders ↔ blockHash ∈ g.grapheneState
  recovery_pending : ∀ (blockHash : ℕ) (due : ℚ),
    g.grapheneTimeouts[blockHash]? = some due → (blockHash, due) ∈ g.recoveryEvents

/-- How often messages ask a peer for a block that was announced. -/
def invRequests (sends : GrapheneSends) (peer : Ipv4Address) (blockHash : Nat) : Nat :=
  (sends.map fun s =>
    match s with
    | (dest, .reqRelayBlock blockHash' _ false) =>
        if dest = peer ∧ blockHash' = blockHash then 1 else 0
    | _ => 0).sum

/-- How often an event announces a block of a peer. -/
def announces (event : Event) (peer : Ipv4Address) (blockHash : Nat) : Nat :=
  match event with
  | .handleInvRelayBlock blockHash' sender =>
      if sender = peer ∧ blockHash' = blockHash then 1 else 0
  | _ => 0

/-- How often a peer has announced a block. -/
def announced (inputs : List Input) (peer : Ipv4Address) (blockHash : Nat) : Nat :=
  (inputs.map fun i => announces i.event peer blockHash).sum

/-- The node never mines a block that was announced to it before. -/
def MinedFresh (G : Graphene) (c : Config) (inputs : List Input) : Prop :=
  ∀ past g i g' sends, Step G c inputs past g i g' sends →
    ∀ pick, i.event = .plain ⟨.mineBlock pick, rfl⟩ →
      ∀ j ∈ past, ∀ peer, j.event ≠ .handleInvRelayBlock (Node.minedId c g.node) peer

/-! ## one block -/

/-- A block is not announced, or announced and asked for. -/
inductive InvEntry (g : GrapheneNode) (blockHash : Nat) : Prop
  | idle : g.node.queueInv[blockHash]? = none → g.node.invTimeouts[blockHash]? = none →
      InvEntry g blockHash
  | asked {announcers : List Ipv4Address} {due : ℚ} :
      g.node.queueInv[blockHash]? = some announcers → announcers ≠ [] →
      g.node.invTimeouts[blockHash]? = some due → (blockHash, due) ∈ g.invEvents →
      ¬ g.node.blockchain.Held blockHash → InvEntry g blockHash

/-- A block is not being recovered, or it is. -/
inductive RecoveryEntry (g : GrapheneNode) (blockHash : Nat) : Prop
  | idle : g.grapheneState[blockHash]? = none → g.grapheneTimeouts[blockHash]? = none →
      g.grapheneSenders[blockHash]? = none → RecoveryEntry g blockHash
  | waiting {state : GrapheneState} {due : ℚ} {sender : Ipv4Address} :
      g.grapheneState[blockHash]? = some state → g.grapheneTimeouts[blockHash]? = some due →
      g.grapheneSenders[blockHash]? = some sender → (blockHash, due) ∈ g.recoveryEvents →
      RecoveryEntry g blockHash

theorem bookkeeping_of_entries (hinv : ∀ blockHash, InvEntry g blockHash)
    (hrec : ∀ blockHash, RecoveryEntry g blockHash) : Bookkeeping g where
  mem_invTimeouts_iff blockHash := by
    rw [mem_iff_exists, mem_iff_exists]
    cases hinv blockHash with
    | idle hqueue htimeout => simp [hqueue, htimeout]
    | asked hqueue _ htimeout => simp [hqueue, htimeout]
  announcers blockHash l hl := by
    cases hinv blockHash with
    | idle hqueue => exact absurd (hqueue.symm.trans hl).symm (Option.some_ne_none l)
    | asked hqueue hne => exact Option.some.inj (hqueue.symm.trans hl) ▸ hne
  inv_pending blockHash due hdue := by
    cases hinv blockHash with
    | idle _ htimeout => exact absurd (htimeout.symm.trans hdue).symm (Option.some_ne_none due)
    | asked _ _ htimeout hpending => exact Option.some.inj (htimeout.symm.trans hdue) ▸ hpending
  unheld blockHash hmem := by
    cases hinv blockHash with
    | idle hqueue =>
        obtain ⟨l, hl⟩ := mem_iff_exists.mp hmem
        exact absurd (hqueue.symm.trans hl).symm (Option.some_ne_none l)
    | asked _ _ _ _ hunheld => exact hunheld
  mem_grapheneTimeouts_iff blockHash := by
    rw [mem_iff_exists, mem_iff_exists]
    cases hrec blockHash with
    | idle hstate htimeout => simp [hstate, htimeout]
    | waiting hstate htimeout => simp [hstate, htimeout]
  mem_grapheneSenders_iff blockHash := by
    rw [mem_iff_exists, mem_iff_exists]
    cases hrec blockHash with
    | idle hstate _ hsender => simp [hstate, hsender]
    | waiting hstate _ hsender => simp [hstate, hsender]
  recovery_pending blockHash due hdue := by
    cases hrec blockHash with
    | idle _ htimeout => exact absurd (htimeout.symm.trans hdue).symm (Option.some_ne_none due)
    | waiting _ htimeout _ hpending => exact Option.some.inj (htimeout.symm.trans hdue) ▸ hpending

/-- What does not concern a block leaves its entry. -/
theorem InvEntry.other {blockHash : ℕ} (h : InvEntry g blockHash)
    (hqueue : g'.node.queueInv[blockHash]? = g.node.queueInv[blockHash]?)
    (htimeout : g'.node.invTimeouts[blockHash]? = g.node.invTimeouts[blockHash]?)
    (hevents : ∀ due, (blockHash, due) ∈ g.invEvents → (blockHash, due) ∈ g'.invEvents)
    (hheld : blockHash ∈ g.node.queueInv → g'.node.blockchain.Held blockHash →
      g.node.blockchain.Held blockHash) : InvEntry g' blockHash := by
  cases h with
  | idle hq ht => exact .idle (hqueue.trans hq) (htimeout.trans ht)
  | asked hq hne ht hpending hunheld =>
      exact .asked (hqueue.trans hq) hne (htimeout.trans ht) (hevents _ hpending)
        fun hheld' => hunheld (hheld (mem_of_getElem? hq) hheld')

theorem RecoveryEntry.other {blockHash : ℕ} (h : RecoveryEntry g blockHash)
    (hstate : g'.grapheneState[blockHash]? = g.grapheneState[blockHash]?)
    (htimeout : g'.grapheneTimeouts[blockHash]? = g.grapheneTimeouts[blockHash]?)
    (hsender : g'.grapheneSenders[blockHash]? = g.grapheneSenders[blockHash]?)
    (hevents : ∀ due, (blockHash, due) ∈ g.recoveryEvents → (blockHash, due) ∈ g'.recoveryEvents) :
    RecoveryEntry g' blockHash := by
  cases h with
  | idle hs ht hp => exact .idle (hstate.trans hs) (htimeout.trans ht) (hsender.trans hp)
  | waiting hs ht hp hpending =>
      exact .waiting (hstate.trans hs) (htimeout.trans ht) (hsender.trans hp) (hevents _ hpending)

theorem mem_erase_of_ne {events : Pending} {blockHash other : ℕ} {due due' : ℚ}
    (hne : other ≠ blockHash) (h : (other, due) ∈ events) :
    (other, due) ∈ events.erase (blockHash, due') :=
  (List.mem_erase_of_ne fun heq => hne (congrArg Prod.fst heq)).mpr h

theorem mem_cancel_of_ne {events : Pending} {timeouts : ExtTreeMap ℕ ℚ} {blockHash other : ℕ}
    {due : ℚ} (hne : other ≠ blockHash) (h : (other, due) ∈ events) :
    (other, due) ∈ events.cancel timeouts blockHash := by
  unfold Pending.cancel
  split
  · exact mem_erase_of_ne hne h
  · exact h

/-! ## requests -/

/-- The announcements of a peer that it has not been asked for. -/
def waiting (g : GrapheneNode) (peer : Ipv4Address) (blockHash : Nat) : Nat :=
  ((g.node.queueInv.getD blockHash []).drop 1).count peer

theorem invRequests_append (sends sends' : GrapheneSends) (peer : Ipv4Address) (blockHash : ℕ) :
    invRequests (sends ++ sends') peer blockHash =
      invRequests sends peer blockHash + invRequests sends' peer blockHash := by
  simp [invRequests]

theorem announced_append (past : List Input) (i : Input) (peer : Ipv4Address) (blockHash : ℕ) :
    announced (past ++ [i]) peer blockHash =
      announced past peer blockHash + announces i.event peer blockHash := by
  simp [announced]

theorem invRequests_eq_zero {sends : GrapheneSends}
    (h : ∀ s ∈ sends, ∀ blockHash count, s.2 ≠ .reqRelayBlock blockHash count false)
    (peer : Ipv4Address) (blockHash : ℕ) : invRequests sends peer blockHash = 0 := by
  refine List.sum_eq_zero fun k hk => ?_
  obtain ⟨s, hs, rfl⟩ := List.mem_map.mp hk
  split
  · next dest blockHash' count => exact absurd rfl (h _ hs blockHash' count)
  · rfl

theorem OnlySays.invRequests_eq_zero {event : Event} {sends : GrapheneSends}
    (h : OnlySays G g event sends) (peer : Ipv4Address) (blockHash : ℕ) :
    invRequests sends peer blockHash = 0 := by
  refine GrapheneNode.invRequests_eq_zero (fun s hs blockHash' count heq => ?_) peer blockHash
  have hsays := h s hs
  rw [heq] at hsays
  cases hsays

theorem invRequests_lift_singleton (n : Node) (dest peer : Ipv4Address) (blockHash blockHash' : ℕ) :
    invRequests (lift G n [(dest, .reqRelayBlock blockHash)]) peer blockHash' =
      if dest = peer ∧ blockHash = blockHash' then 1 else 0 := rfl

theorem waiting_eq {announcers : Option (List Ipv4Address)} {blockHash : ℕ}
    (h : g.node.queueInv[blockHash]? = announcers) (peer : Ipv4Address) :
    waiting g peer blockHash = ((announcers.getD []).drop 1).count peer := by
  rw [waiting, ExtTreeMap.getD_eq_getD_getElem?, h]

/-! ## announced blocks -/

/-- What a step keeps of announced blocks, and whom it asks: nobody more often
than announced. -/
structure InvKeeps (g : GrapheneNode) (event : Event) (g' : GrapheneNode) (sends : GrapheneSends) :
    Prop where
  entries : ∀ blockHash, InvEntry g' blockHash
  keyed : g'.node.blockchain.OrphansKeyed
  announcedBy : ∀ blockHash ∈ g'.node.queueInv,
    blockHash ∈ g.node.queueInv ∨ ∃ peer, event = .handleInvRelayBlock blockHash peer
  asks : ∀ peer blockHash, invRequests sends peer blockHash + waiting g' peer blockHash ≤
    waiting g peer blockHash + announces event peer blockHash

theorem SameInv.entry (h : SameInv g g') {blockHash : ℕ} (hentry : InvEntry g blockHash) :
    InvEntry g' blockHash :=
  hentry.other (by rw [h.fetch.queueInv]) (by rw [h.fetch.invTimeouts])
    (fun _ hmem => h.invEvents ▸ hmem) (fun _ hheld => h.blockchain ▸ hheld)

theorem SameInv.waiting_eq (h : SameInv g g') (peer : Ipv4Address) (blockHash : ℕ) :
    waiting g' peer blockHash = waiting g peer blockHash := by
  rw [waiting, waiting, h.fetch.queueInv]

theorem SameInv.keeps (h : SameInv g g') (hentries : ∀ blockHash, InvEntry g blockHash)
    (hkeyed : g.node.blockchain.OrphansKeyed) {event : Event} {sends : GrapheneSends}
    (hsends : ∀ peer blockHash, invRequests sends peer blockHash = 0) :
    InvKeeps g event g' sends where
  entries blockHash := h.entry (hentries blockHash)
  keyed := h.blockchain ▸ hkeyed
  announcedBy blockHash hmem := .inl (h.fetch.queueInv ▸ hmem)
  asks peer blockHash := by
    rw [hsends, h.waiting_eq, Nat.zero_add]
    exact Nat.le_add_right _ _

/-- A block is not asked for any more. -/
theorem keeps_remove (blockHash : ℕ) (hentries : ∀ blockHash, InvEntry g blockHash) {event : Event}
    {node : Node} {events : Pending} {sends : GrapheneSends}
    (hkeyed : node.blockchain.OrphansKeyed)
    (hqueue : ∀ x : ℕ, node.queueInv[x]? =
      if x = blockHash then none else g.node.queueInv[x]?)
    (htimeouts : ∀ x : ℕ, node.invTimeouts[x]? =
      if x = blockHash then none else g.node.invTimeouts[x]?)
    (hother : ∀ x : ℕ, x ≠ blockHash → (∀ due, (x, due) ∈ g.invEvents → (x, due) ∈ events) ∧
      (node.blockchain.Held x → g.node.blockchain.Held x))
    (hsends : ∀ peer x, invRequests sends peer x = 0) :
    InvKeeps g event { g with node, invEvents := events } sends := by
  refine ⟨fun x => ?_, hkeyed, fun x hx => .inl ?_, fun peer x => ?_⟩
  · by_cases hx : x = blockHash
    · exact .idle ((hqueue x).trans (if_pos hx)) ((htimeouts x).trans (if_pos hx))
    · obtain ⟨hevents, hheld⟩ := hother x hx
      exact (hentries x).other ((hqueue x).trans (if_neg hx)) ((htimeouts x).trans (if_neg hx))
        hevents fun _ => hheld
  · obtain ⟨l, hl⟩ := mem_iff_exists.mp hx
    have hget := (hqueue x).symm.trans hl
    split at hget
    · exact absurd hget.symm (Option.some_ne_none l)
    · exact mem_of_getElem? hget
  · rw [hsends, Nat.zero_add, waiting_eq (hqueue x)]
    split
    · exact Nat.zero_le _
    · rw [← waiting_eq rfl]
      exact Nat.le_add_right _ _

/-- **`HandleBlock`** ends what waits for the block. -/
theorem keeps_handleBlock (event : Event) (hentries : ∀ blockHash, InvEntry g blockHash)
    (hkeyed : g.node.blockchain.OrphansKeyed) {b : Block} {peer : Ipv4Address}
    {sends : GrapheneSends} (h : g.handleBlock G c now b peer = some (g', sends)) :
    InvKeeps g event g' sends := by
  obtain ⟨rfl, rfl⟩ | ⟨-, node, chain, rfl, rfl, hadd, rfl, hqueue, htimeouts⟩ :=
    handleBlock_cases h
  · exact (SameInv.refl g').keeps hentries hkeyed fun _ _ => rfl
  · have hholds := Blockchain.holdsAtMost_addBlock hkeyed hadd
    refine keeps_remove b.id hentries hholds.keyed (fun x => ?_) (fun x => ?_)
      (fun x hx => ⟨fun due hmem => mem_cancel_of_ne hx hmem,
        fun hheld => (hholds.held x hheld).resolve_right hx⟩)
      (invRequests_eq_zero fun s hs blockHash count heq => ?_)
    · rw [hqueue, getElem?_erase]
    · rw [htimeouts, getElem?_erase]
    · cases (mem_sends_handleBlock h hs).symm.trans heq

/-- A block gets its announcers, its timer and its event. -/
theorem keeps_insert (due : ℚ) (hentries : ∀ blockHash, InvEntry g blockHash)
    (hkeyed : g.node.blockchain.OrphansKeyed) {event : Event} {node : Node} {events : Pending}
    {sends : GrapheneSends} {blockHash : ℕ} {l : List Ipv4Address}
    (hchain : node.blockchain = g.node.blockchain)
    (hqueue : node.queueInv = g.node.queueInv.insert blockHash l) (hne : l ≠ [])
    (htimeout : node.invTimeouts[blockHash]? = some due) (hpending : (blockHash, due) ∈ events)
    (hother : ∀ x : ℕ, x ≠ blockHash → node.invTimeouts[x]? = g.node.invTimeouts[x]? ∧
      (∀ due, (x, due) ∈ g.invEvents → (x, due) ∈ events) ∧
        ∀ peer, invRequests sends peer x = 0)
    (hunheld : ¬ g.node.blockchain.Held blockHash)
    (hknown : blockHash ∈ g.node.queueInv ∨ ∃ peer, event = .handleInvRelayBlock blockHash peer)
    (hasks : ∀ peer, invRequests sends peer blockHash + (l.drop 1).count peer ≤
      waiting g peer blockHash + announces event peer blockHash) :
    InvKeeps g event { g with node, invEvents := events } sends := by
  have hget : ∀ x : ℕ, node.queueInv[x]? =
      if x = blockHash then some l else g.node.queueInv[x]? := by
    intro x
    rw [hqueue, getElem?_insert]
  refine ⟨fun x => ?_, ?_, fun x hx => ?_, fun peer x => ?_⟩
  · by_cases hx : x = blockHash
    · subst hx
      exact .asked ((hget x).trans (if_pos rfl)) hne htimeout hpending
        (by rw [hchain]; exact hunheld)
    · obtain ⟨htime, hevents, -⟩ := hother x hx
      exact (hentries x).other ((hget x).trans (if_neg hx)) htime hevents
        fun _ hheld => hchain ▸ hheld
  · rw [hchain]
    exact hkeyed
  · rw [hqueue] at hx
    obtain rfl | hx := mem_insert.mp hx
    · exact hknown
    · exact .inl hx
  · by_cases hx : x = blockHash
    · subst hx
      rw [waiting_eq ((hget x).trans (if_pos rfl))]
      exact hasks peer
    · rw [(hother x hx).2.2 peer, waiting_eq ((hget x).trans (if_neg hx)), ← waiting_eq rfl,
        Nat.zero_add]
      exact Nat.le_add_right _ _

theorem invRequests_other {n : Node} {dest : Ipv4Address} {blockHash x : ℕ} (hx : x ≠ blockHash)
    (peer : Ipv4Address) :
    invRequests (lift G n [(dest, .reqRelayBlock blockHash)]) peer x = 0 := by
  rw [invRequests_lift_singleton, if_neg fun h => hx h.2.symm]

/-- **`HandleInvRelayBlock`** asks for a block that is neither held nor asked
for. -/
theorem keeps_handleInvRelayBlock (hentries : ∀ blockHash, InvEntry g blockHash)
    (hkeyed : g.node.blockchain.OrphansKeyed) (blockHash : ℕ) (peer : Ipv4Address) :
    InvKeeps g (.handleInvRelayBlock blockHash peer)
      (g.handleInvRelayBlock G c now blockHash peer).1
      (g.handleInvRelayBlock G c now blockHash peer).2 := by
  unfold handleInvRelayBlock
  obtain ⟨-, heq⟩ | ⟨hnew, ⟨hempty, heq⟩ | ⟨hsome, heq⟩⟩ :=
    Node.handleInvRelayBlock_cases c now g.node blockHash peer
  · rw [heq]
    have hsame : SameInv g { g with invEvents := g.invEvents ++ [] } :=
      ⟨rfl, .refl _, List.append_nil _⟩
    exact hsame.keeps hentries hkeyed fun _ _ => rfl
  · -- the first announcement
    rw [heq]
    refine keeps_insert (now + c.invTimeout) hentries hkeyed rfl rfl
      (List.cons_ne_nil peer []) ?_ ?_ (fun x hx => ⟨?_, fun due hmem => ?_, fun dest => ?_⟩) hnew
      (.inr ⟨peer, rfl⟩) fun dest => ?_
    · exact (getElem?_insert ..).trans (if_pos rfl)
    · exact List.mem_append_right _ List.mem_cons_self
    · exact (getElem?_insert ..).trans (if_neg hx)
    · exact List.mem_append_left _ hmem
    · exact invRequests_other hx dest
    · rw [invRequests_lift_singleton, announces]
      simp only [List.drop_one, List.tail_cons, List.count_nil]
      omega
  · -- one more announcer for later
    rw [heq]
    cases hentries blockHash with
    | idle hqueue =>
        rw [ExtTreeMap.getD_eq_getD_getElem?, hqueue] at hsome
        exact absurd rfl hsome
    | @asked announcers due hqueue hne htimeout hpending =>
        have hget : g.node.queueInv.getD blockHash [] = announcers := by
          rw [ExtTreeMap.getD_eq_getD_getElem?, hqueue]
          rfl
        rw [hget]
        refine keeps_insert due hentries hkeyed rfl rfl (by simp) htimeout
          (List.mem_append_left _ hpending)
          (fun x hx => ⟨rfl, fun due hmem => List.mem_append_left _ hmem, fun dest => rfl⟩) hnew
          (.inr ⟨peer, rfl⟩) fun dest => ?_
        have hwait : waiting g dest blockHash = (announcers.drop 1).count dest :=
          waiting_eq hqueue dest
        have hdrop : (announcers ++ [peer]).drop 1 = announcers.drop 1 ++ [peer] :=
          List.drop_append_of_le_length (List.length_pos_iff.mpr hne)
        rw [hdrop, List.count_append, hwait, announces]
        have hone : [peer].count dest = if peer = dest then 1 else 0 := by
          rw [List.count_singleton]
          simp
        rw [hone]
        simp only [and_true]
        change 0 + _ ≤ _
        omega

/-- **`InvTimeoutExpired`** asks an announcer that was waiting, or gives up. -/
theorem keeps_invTimeoutExpired (hentries : ∀ blockHash, InvEntry g blockHash)
    (hkeyed : g.node.blockchain.OrphansKeyed) (blockHash : ℕ) (due : ℚ) (pick : ℕ) :
    InvKeeps g (.invTimeoutExpired blockHash due pick)
      (g.invTimeoutExpired G c now blockHash due pick).1
      (g.invTimeoutExpired G c now blockHash due pick).2 := by
  unfold invTimeoutExpired
  split
  · have hevents : ∀ x ≠ blockHash, ∀ due', (x, due') ∈ g.invEvents →
        (x, due') ∈ g.invEvents.erase (blockHash, due) := fun x hx due' hmem =>
      mem_erase_of_ne hx hmem
    obtain ⟨hnone, heq⟩ | ⟨announcers, hqueue, ⟨-, heq⟩ | ⟨next, rest, hperm, heq⟩⟩ :=
      Node.invTimeoutExpired_cases c now g.node blockHash pick
    · -- nobody has been asked
      rw [heq]
      have htimeout : g.node.invTimeouts[blockHash]? = none := by
        cases hentries blockHash with
        | idle _ htimeout => exact htimeout
        | asked hqueue => exact absurd (hnone.symm.trans hqueue).symm (Option.some_ne_none _)
      refine keeps_remove blockHash hentries hkeyed (fun x => ?_) (fun x => ?_)
        (fun x hx => ⟨fun due' hmem => List.mem_append_left _ (hevents x hx due' hmem), id⟩)
        fun _ _ => rfl
      · split
        · next hx => rw [hx, hnone]
        · rfl
      · split
        · next hx => rw [hx, htimeout]
        · rfl
    · -- nobody is left to ask
      rw [heq]
      refine keeps_remove blockHash hentries hkeyed (fun x => getElem?_erase ..)
        (fun x => getElem?_erase ..) (fun x hx => ⟨fun due' hmem => ?_, id⟩) fun _ _ => rfl
      exact List.mem_append_left _ (hevents x hx due' hmem)
    · rw [heq]
      have hunheld : ¬ g.node.blockchain.Held blockHash := by
        cases hentries blockHash with
        | idle hnone => exact absurd (hnone.symm.trans hqueue).symm (Option.some_ne_none _)
        | asked _ _ _ _ hunheld => exact hunheld
      refine keeps_insert (now + c.invTimeout) hentries hkeyed rfl rfl
        (List.cons_ne_nil next rest) ?_ ?_ (fun x hx => ⟨?_, fun due' hmem => ?_, fun dest => ?_⟩)
        hunheld (.inl (mem_of_getElem? hqueue)) fun dest => ?_
      · exact (getElem?_insert ..).trans (if_pos rfl)
      · exact List.mem_append_right _ List.mem_cons_self
      · exact (getElem?_insert ..).trans (if_neg hx)
      · exact List.mem_append_left _ (hevents x hx due' hmem)
      · exact invRequests_other hx dest
      · have hwait : waiting g dest blockHash = (next :: rest).count dest :=
          (waiting_eq hqueue dest).trans (hperm.count_eq dest).symm
        rw [invRequests_lift_singleton, hwait, List.count_cons]
        simp only [and_true, List.drop_one, List.tail_cons, beq_iff_eq]
        omega
  · exact (SameInv.refl g).keeps hentries hkeyed fun _ _ => rfl

/-- **A step** keeps every entry, if the block it mines has not been
announced. -/
theorem InvStep.keeps {event : Event} {sends : GrapheneSends} (h : InvStep G c now g event g' sends)
    (hentries : ∀ blockHash, InvEntry g blockHash) (hkeyed : g.node.blockchain.OrphansKeyed)
    (hfresh : ∀ pick, event = .plain ⟨.mineBlock pick, rfl⟩ →
      Node.minedId c g.node ∉ g.node.queueInv) : InvKeeps g event g' sends := by
  cases h with
  | same hsame hsends => exact hsame.keeps hentries hkeyed hsends.invRequests_eq_zero
  | @block _ g₁ g₂ _ b peer _ hsame hblock hsame' =>
      have hkeeps := keeps_handleBlock event (fun x => hsame.entry (hentries x))
        (hsame.blockchain ▸ hkeyed) hblock
      refine ⟨fun x => hsame'.entry (hkeeps.entries x), hsame'.blockchain ▸ hkeeps.keyed,
        fun x hx => ?_, fun dest x => ?_⟩
      · have hback := hkeeps.announcedBy x (hsame'.fetch.queueInv ▸ hx)
        rwa [hsame.fetch.queueInv] at hback
      · rw [hsame'.waiting_eq, ← hsame.waiting_eq]
        exact hkeeps.asks dest x
  | announced => exact keeps_handleInvRelayBlock hentries hkeyed _ _
  | expired => exact keeps_invTimeoutExpired hentries hkeyed _ _ _
  | @mined pick node b _ hsame hid hadd hsends =>
      have hkeyed' : (Node.countBlock g.node.blockchain).OrphansKeyed := hkeyed
      have hholds := Blockchain.holdsAtMost_addBlock hkeyed' hadd
      have hnone := hsends.invRequests_eq_zero
      refine ⟨fun x => ?_, hholds.keyed, fun x hx => .inl (hsame.queueInv ▸ hx), fun dest x => ?_⟩
      · refine (hentries x).other (by rw [hsame.queueInv]) (by rw [hsame.invTimeouts])
          (fun _ hmem => hmem) fun hmem hheld => ?_
        obtain hheld | rfl := hholds.held x hheld
        · exact hheld
        · exact absurd (hid ▸ hmem) (hfresh pick rfl)
      · rw [hnone, Nat.zero_add, waiting, hsame.queueInv, ← waiting]
        exact Nat.le_add_right _ _

/-! ## recoveries -/

/-- `g'` has the recoveries of `g`. -/
structure SameRecovery (g g' : GrapheneNode) : Prop where
  grapheneState : g'.grapheneState = g.grapheneState
  grapheneTimeouts : g'.grapheneTimeouts = g.grapheneTimeouts
  grapheneSenders : g'.grapheneSenders = g.grapheneSenders
  recoveryEvents : g'.recoveryEvents = g.recoveryEvents

theorem SameRecovery.refl (g : GrapheneNode) : SameRecovery g g := ⟨rfl, rfl, rfl, rfl⟩

theorem SameRecovery.entries (h : SameRecovery g g')
    (hentries : ∀ blockHash, RecoveryEntry g blockHash) (blockHash : ℕ) :
    RecoveryEntry g' blockHash :=
  (hentries blockHash).other (by rw [h.grapheneState]) (by rw [h.grapheneTimeouts])
    (by rw [h.grapheneSenders]) fun _ hmem => h.recoveryEvents ▸ hmem

theorem sameRecovery_handleBlock {b : Block} {peer : Ipv4Address} {sends : GrapheneSends}
    (h : g.handleBlock G c now b peer = some (g', sends)) : SameRecovery g g' := by
  obtain ⟨rfl, -⟩ | ⟨-, node, chain, rfl, -⟩ := handleBlock_cases h
  · exact .refl _
  · exact ⟨rfl, rfl, rfl, rfl⟩

theorem sameRecovery_invTimeoutExpired (blockHash : ℕ) (due : ℚ) (pick : ℕ) :
    SameRecovery g (g.invTimeoutExpired G c now blockHash due pick).1 := by
  unfold invTimeoutExpired
  split <;> exact ⟨rfl, rfl, rfl, rfl⟩

/-- The entries of a block are erased, whatever becomes of the events for
it. -/
theorem entries_eraseRecovery (hentries : ∀ blockHash, RecoveryEntry g blockHash)
    {events : Pending} {blockHash : ℕ}
    (hevents : ∀ x ≠ blockHash, ∀ due, (x, due) ∈ g.recoveryEvents → (x, due) ∈ events) (x : ℕ) :
    RecoveryEntry { g.eraseRecovery blockHash with recoveryEvents := events } x := by
  have hget : ∀ {β : Type} (m : ExtTreeMap ℕ β),
      (m.erase blockHash)[x]? = if x = blockHash then none else m[x]? := fun m => getElem?_erase ..
  by_cases hx : x = blockHash
  · exact .idle ((hget _).trans (if_pos hx)) ((hget _).trans (if_pos hx))
      ((hget _).trans (if_pos hx))
  · exact (hentries x).other ((hget _).trans (if_neg hx)) ((hget _).trans (if_neg hx))
      ((hget _).trans (if_neg hx)) (hevents x hx)

theorem entries_endRecovery (hentries : ∀ blockHash, RecoveryEntry g blockHash) (blockHash x : ℕ) :
    RecoveryEntry (g.endRecovery blockHash) x :=
  entries_eraseRecovery hentries (fun _ hne _ hmem => mem_cancel_of_ne hne hmem) x

theorem entries_grapheneRecoveryTimeout (hentries : ∀ blockHash, RecoveryEntry g blockHash)
    (blockHash : ℕ) (due : ℚ) (x : ℕ) :
    RecoveryEntry (g.grapheneRecoveryTimeout blockHash due).1 x := by
  have hevents : ∀ y ≠ blockHash, ∀ due', (y, due') ∈ g.recoveryEvents →
      (y, due') ∈ g.recoveryEvents.erase (blockHash, due) := fun y hy due' hmem =>
    mem_erase_of_ne hy hmem
  unfold grapheneRecoveryTimeout
  split
  · dsimp only
    split
    · -- no recovery is under way
      next hnone =>
        by_cases hx : x = blockHash
        · subst hx
          cases hentries x with
          | idle hstate htimeout hsender => exact .idle hstate htimeout hsender
          | waiting hstate => exact absurd (hnone.symm.trans hstate).symm (Option.some_ne_none _)
        · exact (hentries x).other rfl rfl rfl (hevents x hx)
    · split
      · exact entries_eraseRecovery hentries hevents x
      · split <;> exact entries_eraseRecovery hentries hevents x
  · exact hentries x

theorem entries_handleGrapheneBlock (hentries : ∀ blockHash, RecoveryEntry g blockHash)
    {store store' : BlockBodyStore} {data : GrapheneBlock} {peer : Ipv4Address}
    {sends : GrapheneSends}
    (h : g.handleGrapheneBlock G c now store data peer = some (store', g', sends)) (x : ℕ) :
    RecoveryEntry g' x := by
  unfold handleGrapheneBlock at h
  split at h
  · obtain ⟨rfl, -⟩ := Prod.mk.inj (congrArg Prod.snd (Option.some.inj h))
    exact hentries x
  · split at h
    · obtain ⟨rfl, -⟩ := Prod.mk.inj (congrArg Prod.snd (Option.some.inj h))
      exact hentries x
    · obtain ⟨⟨result, store₁⟩, -, h⟩ := Option.bind_eq_some_iff.mp h
      cases result with
      | success block =>
          obtain ⟨⟨g₂, sent⟩, hblock, heq⟩ := Option.bind_eq_some_iff.mp h
          obtain ⟨rfl, -⟩ := Prod.mk.inj (congrArg Prod.snd (Option.some.inj heq))
          exact (sameRecovery_handleBlock hblock).entries hentries x
      | failure state request =>
          obtain ⟨rfl, -⟩ := Prod.mk.inj (congrArg Prod.snd (Option.some.inj h))
          have hget : ∀ {β : Type} (m : ExtTreeMap ℕ β) (v : β), (m.insert data.blockHash v)[x]? =
              if x = data.blockHash then some v else m[x]? := fun m v => getElem?_insert ..
          by_cases hx : x = data.blockHash
          · exact .waiting ((hget _ _).trans (if_pos hx)) ((hget _ _).trans (if_pos hx))
              ((hget _ _).trans (if_pos hx))
              (List.mem_append_right _ (hx ▸ List.mem_cons_self))
          · exact (hentries x).other ((hget _ _).trans (if_neg hx)) ((hget _ _).trans (if_neg hx))
              ((hget _ _).trans (if_neg hx)) fun _ hmem => List.mem_append_left _ hmem

theorem entries_handleGrapheneRecoveryResponse
    (hentries : ∀ blockHash, RecoveryEntry g blockHash) {store store' : BlockBodyStore}
    {data : RecoveryResponse} {peer : Ipv4Address} {sends : GrapheneSends}
    (h : g.handleGrapheneRecoveryResponse G c now store data peer = some (store', g', sends))
    (x : ℕ) : RecoveryEntry g' x := by
  unfold handleGrapheneRecoveryResponse at h
  split at h
  · obtain ⟨rfl, -⟩ := Prod.mk.inj (congrArg Prod.snd (Option.some.inj h))
    exact hentries x
  · obtain ⟨result, -, h⟩ := Option.bind_eq_some_iff.mp h
    cases result with
    | some blockTxIds =>
        obtain ⟨known, -, h⟩ := Option.bind_eq_some_iff.mp h
        obtain ⟨⟨g₂, sent⟩, hblock, heq⟩ := Option.bind_eq_some_iff.mp h
        obtain ⟨rfl, -⟩ := Prod.mk.inj (congrArg Prod.snd (Option.some.inj heq))
        have hknown : SameRecovery g { g with node := { g.node with knownTxs := known } } :=
          ⟨rfl, rfl, rfl, rfl⟩
        exact entries_endRecovery
          ((sameRecovery_handleBlock hblock).entries (hknown.entries hentries)) data.blockHash x
    | none =>
        obtain ⟨rfl, -⟩ := Prod.mk.inj (congrArg Prod.snd (Option.some.inj h))
        exact entries_endRecovery hentries data.blockHash x

/-- **A step** keeps the recoveries in order. -/
theorem entries_step (hentries : ∀ blockHash, RecoveryEntry g blockHash)
    {store store' : BlockBodyStore} {event : Event} {sends : GrapheneSends}
    (h : step G c now store g event = some (store', g', sends)) (x : ℕ) : RecoveryEntry g' x := by
  cases event with
  | plain event =>
      obtain ⟨⟨store₁, node, sent⟩, -, heq⟩ := Option.bind_eq_some_iff.mp h
      obtain ⟨rfl, -⟩ := Prod.mk.inj (congrArg Prod.snd (Option.some.inj heq))
      have hsame : SameRecovery g { g with node } := ⟨rfl, rfl, rfl, rfl⟩
      exact hsame.entries hentries x
  | handleInvRelayBlock blockHash peer =>
      obtain ⟨rfl, -⟩ := Prod.mk.inj (congrArg Prod.snd (Option.some.inj h))
      have hsame : SameRecovery g (g.handleInvRelayBlock G c now blockHash peer).1 :=
        ⟨rfl, rfl, rfl, rfl⟩
      exact hsame.entries hentries x
  | handleReqRelayBlock blockHash grapheneFailed peer count =>
      obtain ⟨sent, -, heq⟩ := Option.bind_eq_some_iff.mp h
      obtain ⟨rfl, -⟩ := Prod.mk.inj (congrArg Prod.snd (Option.some.inj heq))
      exact hentries x
  | handleBlock b peer =>
      obtain ⟨r, hr, heq⟩ := Option.bind_eq_some_iff.mp h
      obtain ⟨rfl, -⟩ := Prod.mk.inj (congrArg Prod.snd (Option.some.inj heq))
      exact (sameRecovery_handleBlock hr).entries hentries x
  | handleGrapheneBlock data peer => exact entries_handleGrapheneBlock hentries h x
  | handleGrapheneRecoveryRequest data peer =>
      obtain ⟨sent, -, heq⟩ := Option.bind_eq_some_iff.mp h
      obtain ⟨rfl, -⟩ := Prod.mk.inj (congrArg Prod.snd (Option.some.inj heq))
      exact hentries x
  | handleGrapheneRecoveryResponse data peer =>
      exact entries_handleGrapheneRecoveryResponse hentries h x
  | grapheneRecoveryTimeout blockHash due =>
      obtain ⟨rfl, -⟩ := Prod.mk.inj (congrArg Prod.snd (Option.some.inj h))
      exact entries_grapheneRecoveryTimeout hentries blockHash due x
  | invTimeoutExpired blockHash due pick =>
      obtain ⟨rfl, -⟩ := Prod.mk.inj (congrArg Prod.snd (Option.some.inj h))
      exact (sameRecovery_invTimeoutExpired blockHash due pick).entries hentries x

/-! ## runs -/

/-- What holds after every run. -/
structure Fetching (inputs : List Input) (g : GrapheneNode) (sent : GrapheneSends) : Prop where
  invEntries : ∀ blockHash, InvEntry g blockHash
  recoveryEntries : ∀ blockHash, RecoveryEntry g blockHash
  keyed : g.node.blockchain.OrphansKeyed
  announcedBy : ∀ blockHash ∈ g.node.queueInv,
    ∃ i ∈ inputs, ∃ peer, i.event = .handleInvRelayBlock blockHash peer
  asks : ∀ peer blockHash, invRequests sent peer blockHash + waiting g peer blockHash ≤
    announced inputs peer blockHash

theorem fetching_init (c : Config) : Fetching [] (init c) [] where
  invEntries blockHash := .idle (by simp [init, Node.init]) (by simp [init, Node.init])
  recoveryEntries blockHash := .idle (by simp [init]) (by simp [init]) (by simp [init])
  keyed := Blockchain.orphansKeyed_init c.ghostdagK c.id
  announcedBy blockHash hmem := by simp [init, Node.init] at hmem
  asks peer blockHash := by simp [invRequests, waiting, init, Node.init, announced]

theorem MinedFresh.mono {inputs inputs' : List Input} (h : MinedFresh G c inputs')
    (hle : inputs <+: inputs') : MinedFresh G c inputs :=
  fun past g i g' sends hstep => h past g i g' sends (hstep.mono hle)

theorem fetching_trace {inputs : List Input} (hfresh : MinedFresh G c inputs)
    {st : GrapheneNode × GrapheneSends} (hrun : trace G c inputs = some st) :
    Fetching inputs st.1 st.2 := by
  induction inputs using List.reverseRecOn generalizing st with
  | nil =>
      obtain rfl := Option.some.inj hrun
      exact fetching_init c
  | append_singleton past i ih =>
      obtain ⟨g, sent, store, sends, hpast, hstep, hsends⟩ := trace_append.mp hrun
      have hbefore := ih (hfresh.mono (List.prefix_append past [i])) hpast
      have hkeeps := (inv_step hstep).keeps hbefore.invEntries hbefore.keyed fun pick hmine hmem => by
        obtain ⟨j, hj, peer, hevent⟩ := hbefore.announcedBy _ hmem
        exact hfresh past g i st.1 sends ⟨List.prefix_rfl, ⟨sent, hpast⟩, ⟨store, hstep⟩⟩ pick hmine
          j hj peer hevent
      refine ⟨hkeeps.entries, entries_step hbefore.recoveryEntries hstep, hkeeps.keyed,
        fun blockHash hmem => ?_, fun peer blockHash => ?_⟩
      · obtain hmem | ⟨peer, hevent⟩ := hkeeps.announcedBy blockHash hmem
        · obtain ⟨j, hj, hannounced⟩ := hbefore.announcedBy blockHash hmem
          exact ⟨j, List.mem_append_left _ hj, hannounced⟩
        · exact ⟨i, List.mem_append_right _ (List.mem_singleton_self i), peer, hevent⟩
      · have hasked := hbefore.asks peer blockHash
        have hasks := hkeeps.asks peer blockHash
        rw [hsends, invRequests_append, announced_append]
        dsimp only at hasked
        omega

/-- **Every block to fetch has what it takes.**  After every run in which no
mined block was announced before, the announced blocks and the timers have the
same keys, none of them held, with announcers and a pending event each; so
have the maps of the recoveries; and no peer has been asked more often for a
block than it has announced it. -/
theorem blocks_tracked {inputs : List Input} (hfresh : MinedFresh G c inputs) {g : GrapheneNode}
    {sent : GrapheneSends} (hrun : trace G c inputs = some (g, sent)) :
    Bookkeeping g ∧ ∀ peer blockHash,
      invRequests sent peer blockHash ≤ announced inputs peer blockHash := by
  have h := fetching_trace hfresh hrun
  exact ⟨bookkeeping_of_entries h.invEntries h.recoveryEntries, fun peer blockHash =>
    (Nat.le_add_right _ _).trans (h.asks peer blockHash)⟩

/-! ## a block that Graphene does not get across -/

/-- A node with Graphene, for one choice of hash functions. -/
def relaying : Graphene where
  grapheneEnabled := true
  checked := false
  murmurHash3 := (· + ·)
  rounds := 5
  arith := smallest

/-- A block whose two transactions share all their entries in small tables. -/
def colliding : Block := Node.overGenesis 7 [Node.txOf7 0 1, Node.txOf7 6 2]

/-- The table of the block for a number of items. -/
def collidingTable (nItems : Nat) : Iblt :=
  (lookupTable false (· + ·) nItems (txIdsFromBlock colliding.txs)).toOption.getD ⟨0, 0, []⟩

/-- The message that a sender builds for an empty pool. -/
def collidingMessage : GrapheneBlock :=
  grapheneBlock colliding.id colliding { contains := fun _ => true } (collidingTable 2)

/-- Two peers announce the block, and the message of the first one comes late
and cannot be decoded. -/
def lateMessage : List Input :=
  [⟨0, ∅, .plain ⟨.mineBlock fun _ => (0, 0), rfl⟩⟩, ⟨1, ∅, .handleInvRelayBlock colliding.id 1⟩,
    ⟨2, ∅, .handleInvRelayBlock colliding.id 2⟩, ⟨1195, ∅, .handleGrapheneBlock collidingMessage 1⟩,
    ⟨1201, ∅, .invTimeoutExpired colliding.id 1201 0⟩]

/-- Nothing was announced before the first event. -/
theorem minedFresh_cons {first : Input} {rest : List Input}
    (h : ∀ i ∈ rest, ∀ pick, i.event ≠ .plain ⟨.mineBlock pick, rfl⟩) :
    MinedFresh G c (first :: rest) := by
  intro past g i g' sends hstep pick hmine j hj
  obtain ⟨future, hfuture⟩ := hstep.inRun
  cases past with
  | nil => exact absurd hj List.not_mem_nil
  | cons p past =>
      have hrest : past ++ [i] ++ future = rest := (List.cons.inj hfuture).2
      have hi : i ∈ rest := by
        rw [← hrest]
        simp
      exact absurd hmine (h i hi pick)

/-- Both the second peer and a recovery are waited for then. -/
theorem blocks_tracked_late : ∃ g sent, trace relaying Node.twoPeers lateMessage = some (g, sent) ∧
    colliding.id ∈ g.node.queueInv ∧ colliding.id ∈ g.grapheneState ∧
      invRequests sent 2 colliding.id = 1 ∧ Bookkeeping g ∧
        ∀ peer blockHash, invRequests sent peer blockHash ≤ announced lateMessage peer blockHash := by
  have hrun : (trace relaying Node.twoPeers lateMessage).map (fun st =>
      decide (colliding.id ∈ st.1.node.queueInv ∧ colliding.id ∈ st.1.grapheneState ∧
        invRequests st.2 2 colliding.id = 1)) = some true := by
    decide +kernel
  obtain ⟨⟨g, sent⟩, hrun, heq⟩ := Option.map_eq_some_iff.mp hrun
  obtain ⟨hqueue, hstate, hasked⟩ := of_decide_eq_true heq
  obtain ⟨hbooks, hle⟩ := blocks_tracked
    (minedFresh_cons fun i hi pick => by fin_cases hi <;> nofun) hrun
  exact ⟨g, sent, hrun, hqueue, hstate, hasked, hbooks, hle⟩

end GrapheneNode

end GhostDag
