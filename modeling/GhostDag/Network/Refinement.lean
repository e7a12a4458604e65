import GhostDag.Lib.Interleaving
import GhostDag.Network.Progress
import GhostDag.Network.Stack

/-!
# GhostDag.Network.Refinement

The bytes carry the messages.  Every run of the stack is a run of `Network`
with the same nodes (`Mirrors`), in which each node gets the messages of every
other one in the order in which they were sent, each of them once.  A run does
not end because of what is in a frame or in a payload.
-/

namespace GhostDag

open Interleaving (InOrder sequence)
open Loops (Meets)

/-- The connection that a message takes. -/
def Envelope.link {ι : Type} (e : Envelope ι) : ι × Ipv4Address := (e.sender, e.recipient)

/-- The messages that have been delivered, in this order. -/
def deliveries {ι : Type} (actions : List (ℚ × Action ι)) : List ℕ :=
  actions.filterMap fun a =>
    match a.2 with
    | .deliver index _ _ => some index
    | _ => none

/-- What may end a run. -/
def Stack.Halt.Allowed (mpiSize : ℕ) : Stack.Halt → Prop
  | .abort (.payloadExceedsMpiBuffer size) => 1 < mpiSize ∧ mpiPayloadLimit < size
  | .abort (.corruptFrame ..) | .badPayload | .handler => False
  | .tooLong | .disabled => True

namespace Stack

variable {ι : Type} {s s' s'' : Stack ι} {i : ι}

/-! ## what a node sends -/

/-- Only the channels of node `i` change, and `new` is sent through them. -/
structure Grows (i : ι) (new : Ipv4Address → List Serialized) (s s' : Stack ι) : Prop where
  nodes : s'.nodes = s.nodes
  store : s'.store = s.store
  others : ∀ j, j ≠ i → s'.channels j = s.channels j
  follows : Channels.Follows (s.channels i) (s'.channels i)
  running : (s'.channels i).transport.running = true
  sent : ∀ peer, (s'.channels i).sent peer = (s.channels i).sent peer ++ new peer
  delivered : (s'.channels i).delivered = (s.channels i).delivered

/-- The channels of every node are in order, and the nodes are running. -/
structure Live (mpiSize : ℕ) (s : Stack ι) : Prop where
  consistent : ∀ i, (s.channels i).Consistent
  ordered : ∀ i peer, ((s.channels i).channel peer).Ordered
  running : ∀ i, (s.channels i).transport.running = true
  mpiSize : ∀ i, (s.channels i).transport.mpiSize = mpiSize

theorem Grows.refl {mpiSize : ℕ} (h : Live mpiSize s) (i : ι) : Grows i (fun _ => []) s s where
  nodes := rfl
  store := rfl
  others _ _ := rfl
  follows := (h.consistent i).follows
  running := h.running i
  sent _ := (List.append_nil _).symm
  delivered := rfl

theorem Grows.trans {new new' : Ipv4Address → List Serialized} (h : Grows i new s s')
    (h' : Grows i new' s' s'') : Grows i (fun peer => new peer ++ new' peer) s s'' where
  nodes := h'.nodes.trans h.nodes
  store := h'.store.trans h.store
  others j hj := (h'.others j hj).trans (h.others j hj)
  follows := h.follows.trans h'.follows
  running := h'.running
  sent peer := by rw [h'.sent, h.sent, List.append_assoc]
  delivered := h'.delivered.trans h.delivered

/-- What is shown of the channels of one node, and of the others as they were,
is true of all. -/
theorem forall_channels {P : ι → Channels → Prop} (hi : P i (s'.channels i))
    (hothers : ∀ j, j ≠ i → s'.channels j = s.channels j) (hall : ∀ j, P j (s.channels j)) (j : ι) :
    P j (s'.channels j) := by
  by_cases hj : j = i
  · exact hj ▸ hi
  · rw [hothers j hj]
    exact hall j

theorem Grows.live {mpiSize : ℕ} {new : Ipv4Address → List Serialized} (h : Grows i new s s')
    (hlive : Live mpiSize s) : Live mpiSize s' := by
  have hcases : ∀ {P : Channels → Prop}, P (s'.channels i) → (∀ j, P (s.channels j)) →
      ∀ j, P (s'.channels j) := fun {P} hi hall =>
    forall_channels (P := fun _ => P) hi h.others hall
  exact {
    consistent := hcases h.follows.consistent hlive.consistent
    ordered := hcases (P := fun g => ∀ peer, (g.channel peer).Ordered)
      (fun peer => (h.follows.steps peer).ordered (hlive.ordered i peer)) hlive.ordered
    running := hcases (P := fun g => g.transport.running = true) h.running hlive.running
    mpiSize := hcases (P := fun g => g.transport.mpiSize = mpiSize)
      (h.follows.mpiSize.trans (hlive.mpiSize i)) hlive.mpiSize }

/-- What no handler undoes: messages stay sent, and nothing arrives. -/
structure Extends (s s' : Stack ι) : Prop where
  sent : ∀ i peer, (s.channels i).sent peer <+: (s'.channels i).sent peer
  delivered : ∀ i, (s'.channels i).delivered = (s.channels i).delivered

theorem Extends.refl (s : Stack ι) : Extends s s := ⟨fun _ _ => List.prefix_rfl, fun _ => rfl⟩

theorem Extends.trans (h : Extends s s') (h' : Extends s' s'') : Extends s s'' :=
  ⟨fun i peer => (h.sent i peer).trans (h'.sent i peer),
    fun i => (h'.delivered i).trans (h.delivered i)⟩

theorem Grows.extends {new : Ipv4Address → List Serialized} (h : Grows i new s s') :
    Extends s s' := by
  refine ⟨fun j peer => ?_, fun j => ?_⟩ <;> by_cases hj : j = i
  · rw [hj, h.sent]
    exact List.prefix_append _ _
  · rw [h.others j hj]
  · rw [hj, h.delivered]
  · rw [h.others j hj]

variable [DecidableEq ι] {mpiSize : ℕ}

/-- An event of the channels other than a read. -/
theorem Live.meets_transport (h : Live mpiSize s) (i : ι) {e : Channels.Event} (he : e.Framable)
    (hstop : e ≠ .stop) (hread : e.reads = none) :
    Meets (Halt.Allowed mpiSize) (Grows i e.sends s) (s.transport i e) := by
  obtain ⟨channels, hok, hfollows⟩ | ⟨size, hmpi, hlen, herr⟩ := (h.consistent i).step he
  · rw [transport, hok]
    exact .of_ok {
      nodes := rfl
      store := rfl
      others := fun j => s.put_channels_of_ne channels
      follows := by rwa [put_channels_self]
      running := by
        rw [put_channels_self, Channels.running_step hstop hok]
        exact h.running i
      sent := by
        rw [put_channels_self]
        exact Channels.sent_step (h.running i) hok
      delivered := by
        rw [put_channels_self]
        exact Channels.delivered_step hread hok }
  · rw [transport, herr]
    exact .of_error ⟨h.mpiSize i ▸ hmpi, hlen⟩

/-- The messages of a handler to a peer, as they are sent. -/
def serializedTo (sends : Sends) (peer : Ipv4Address) : List Serialized :=
  (sends.filter fun s => s.1 = peer).map fun s => s.2.serialized

theorem Live.meets_send (h : Live mpiSize s) (i : ι) (sends : Sends) (answers : List (List Answer)) :
    Meets (Halt.Allowed mpiSize) (Grows i (serializedTo sends) s) (send i s sends answers) := by
  induction sends generalizing s answers with
  | nil => exact .of_ok (.refl h i)
  | cons m sends ih =>
      obtain ⟨peer, msg⟩ := m
      rw [send]
      split
      · exact .of_error (trivial : Halt.Allowed mpiSize .tooLong)
      · next hshort =>
          have hframable : msg.serialized.Framable :=
            ⟨BasicJson.length_writeCbor_pos (Message.regular_toJson msg), not_le.mp hshort⟩
          have hnew : serializedTo ((peer, msg) :: sends) = fun p =>
              (Channels.Event.sendSerialized peer msg.serialized (answers.headD [])).sends p ++
                serializedTo sends p := by
            funext p
            rw [serializedTo, List.filter_cons, Channels.Event.sends]
            by_cases hp : peer = p <;> simp [hp, eq_comm, serializedTo]
          refine (h.meets_transport i (e := .sendSerialized peer msg.serialized (answers.headD []))
            hframable (fun heq => by cases heq) rfl).bind fun s₁ hgrows => ?_
          exact (ih (hgrows.live h) answers.tail).mono fun s₂ hgrows' => hnew ▸ hgrows.trans hgrows'

/-! ## the run of the network -/

/-- The run `actions` of the network ends in `g`, which is `s` with the messages
of the first `count k` places of every link `k` delivered. -/
structure Mirrors (setup : Setup ι) (mpiSize : ℕ) (count : ι × Ipv4Address → ℕ) (s : Stack ι)
    (actions : List (ℚ × Action ι)) (g : Network ι) : Prop where
  live : Live mpiSize s
  run : Network.run setup actions = some g
  inRange : ∀ a ∈ actions, BinaryFormat.double.Represents a.1 ∧ a.2.InRange
  nodes : s.nodes = g.nodes
  store : s.store = g.store
  sent : ∀ i peer, (s.channels i).sent peer =
    (sequence Envelope.link g.sent (i, peer)).map fun env => env.msg.serialized
  visited : InOrder Envelope.link g.sent (deliveries actions) count

/-- The messages of a handler on each link. -/
theorem sequence_sends (i j : ι) (sends : Sends) (peer : Ipv4Address) :
    (sequence Envelope.link (sends.map fun s => (⟨i, s.1, s.2⟩ : Envelope ι)) (j, peer)).map
      (fun env => env.msg.serialized) = if j = i then serializedTo sends peer else [] := by
  rw [Interleaving.sequence, List.filter_map, List.map_map, serializedTo]
  split
  · next hj =>
      subst hj
      refine congrArg (List.map _) (List.filter_congr fun s _ => ?_)
      simp [Envelope.link]
  · next hj =>
      rw [List.filter_eq_nil_iff.mpr fun s _ => ?_]
      · rfl
      · simp [Envelope.link, Ne.symm hj]

variable {setup : Setup ι} {count : ι × Ipv4Address → ℕ} {actions : List (ℚ × Action ι)}
  {g : Network ι} {now : ℚ} {j : ι}

/-- **A node acts**, as in the network. -/
theorem Mirrors.act (h : Mirrors setup mpiSize count s actions g)
    (hnow : BinaryFormat.double.Represents now) {a : Action ι} (ha : a.InRange)
    {store : BlockBodyStore} {e : Node.Event} (hev : Network.event setup g a = some (i, store, e))
    {count' : ι × Ipv4Address → ℕ}
    (hvisited : InOrder Envelope.link g.sent (deliveries (actions ++ [(now, a)])) count')
    (hids : ∀ i, (setup.config i).id ≠ 2 ^ 32 - 1)
    (hover : ¬ ((∃ fee, e = .generateTransaction fee) ∧ (g.nodes i).Overflows (setup.config i)))
    (answers : List (List Answer)) :
    Meets (Halt.Allowed mpiSize)
      (fun s' => Extends s s' ∧ ∃ actions' g', Mirrors setup mpiSize count' s' actions' g')
      (act setup now s i store e answers) := by
  have hreach := Network.reachable_run h.run
  rw [Stack.act, h.nodes]
  cases hstep : (g.nodes i).step (setup.config i) now store e with
  | none =>
      exact absurd ((hreach.authentic.stuck_iff hreach.consistent hids (hreach.roomy i) hev).mp hstep)
        hover
  | some r =>
      obtain ⟨store', n, sends⟩ := r
      have hlive : Live mpiSize
          { s with nodes := Function.update g.nodes i n, store := store' } :=
        ⟨h.live.consistent, h.live.ordered, h.live.running, h.live.mpiSize⟩
      refine (hlive.meets_send i sends answers).mono fun s' hgrows => ⟨⟨hgrows.extends.sent,
        hgrows.extends.delivered⟩, actions ++ [(now, a)],
        Network.happened setup now g i store e (store', n, sends), ?_⟩
      exact {
        live := hgrows.live hlive
        run := by
          have hact : Network.act setup now g i store e =
              some (Network.happened setup now g i store e (store', n, sends)) := by
            rw [Network.act, hstep]
            rfl
          refine Network.run_append.mpr ⟨g, h.run, ?_⟩
          rw [Network.step, hev]
          exact hact
        inRange := by
          intro b hb
          obtain hb | hb := List.mem_append.mp hb
          · exact h.inRange b hb
          · rw [List.mem_singleton.mp hb]
            exact ⟨hnow, ha⟩
        nodes := hgrows.nodes
        store := hgrows.store
        sent := by
          intro j peer
          have hnew : (s'.channels j).sent peer = (s.channels j).sent peer ++
              if j = i then serializedTo sends peer else [] := by
            by_cases hj : j = i
            · rw [if_pos hj, hj]
              exact hgrows.sent peer
            · rw [if_neg hj, List.append_nil, hgrows.others j hj]
          rw [hnew, h.sent, ← sequence_sends i j sends peer, ← List.map_append,
            ← Interleaving.sequence_append]
          rfl
        visited := hvisited.append _ }

/-- **A payload arrives**: the next message of its link is delivered. -/
theorem Mirrors.receive (h : Mirrors setup mpiSize count s actions g)
    (hnow : BinaryFormat.double.Represents now) {m : Serialized}
    (hm : ((s.channels i).channel (setup.address j)).sent[count (i, setup.address j)]? = some m)
    {chance : Chance} (hchance : ∀ t, chance.draw t < 2 ^ 32)
    (hids : ∀ i, (setup.config i).id ≠ 2 ^ 32 - 1) :
    Meets (Halt.Allowed mpiSize)
      (fun s' => Extends s s' ∧ ∃ actions' g', Mirrors setup mpiSize
        (Function.update count (i, setup.address j) (count (i, setup.address j) + 1)) s' actions' g')
      (receive setup now i j s m.serialized chance) := by
  rw [Channels.channel, h.sent, List.map_map, List.getElem?_map] at hm
  obtain ⟨env, henv, rfl⟩ := Option.map_eq_some_iff.mp hm
  obtain ⟨hmem, hlink⟩ := List.mem_filter.mp (List.mem_of_getElem? henv)
  obtain ⟨hi, hj⟩ := Prod.mk.inj (of_decide_eq_true hlink)
  obtain ⟨index, hindex, hvisited⟩ := h.visited.visit henv
  have hframable := (h.live.consistent i).framable (setup.address j) env.msg.serialized (by
    rw [h.sent]
    exact List.mem_map.mpr ⟨env, List.mem_of_getElem? henv, rfl⟩)
  have hlen : env.msg.encode.length < 2 ^ 56 := hframable.lt.trans (by decide)
  have hread : readPayload (Serialized.framed env.msg.serialized).serialized = some (some env.msg) :=
    Message.readPayload_encode ((Network.ranged_run h.run h.inRange).sent env hmem) hlen
  have hev : Network.event setup g (.deliver index j chance.draw) =
      some (j, Node.processMessage g.store chance.draw (setup.address i) env.msg) :=
    hi ▸ Network.event_deliver hindex hj chance.draw
  rw [Stack.receive]
  dsimp only [Function.comp_apply]
  rw [hread, h.store]
  refine h.act hnow (a := .deliver index j chance.draw) hchance hev ?_ hids
    (fun hgen => hgen.1.elim (Node.ne_generate_of_processMessage rfl)) chance.answers
  rw [deliveries, List.filterMap_append]
  exact hvisited

/-- **The payloads of a read**, if they are the next messages of their link. -/
theorem Mirrors.receiveAll (h : Mirrors setup mpiSize count s actions g)
    (hnow : BinaryFormat.double.Represents now) {ms : List Serialized}
    (hms : ms <+: ((s.channels i).channel (setup.address j)).sent.drop (count (i, setup.address j)))
    {chances : List Chance} (hchances : ∀ chance ∈ chances, ∀ t, chance.draw t < 2 ^ 32)
    (hids : ∀ i, (setup.config i).id ≠ 2 ^ 32 - 1) :
    Meets (Halt.Allowed mpiSize)
      (fun s' => Extends s s' ∧ ∃ actions' g', Mirrors setup mpiSize
        (Function.update count (i, setup.address j) (count (i, setup.address j) + ms.length))
        s' actions' g')
      (receiveAll setup now i j s ms chances) := by
  induction ms generalizing s actions g count chances with
  | nil =>
      rw [List.length_nil, Nat.add_zero, Function.update_eq_self]
      exact .of_ok ⟨.refl s, actions, g, h⟩
  | cons m ms ih =>
      obtain ⟨rest, hrest⟩ := hms
      have hm : ((s.channels i).channel (setup.address j)).sent[count (i, setup.address j)]? =
          some m := by
        rw [← List.head?_drop, ← hrest]
        rfl
      have hhead : ∀ t, (chances.headD { draw := fun _ => 0, answers := [] }).draw t < 2 ^ 32 := by
        cases chances with
        | nil => exact fun _ => Nat.two_pow_pos 32
        | cons chance chances => exact hchances chance List.mem_cons_self
      refine (h.receive hnow hm hhead hids).bind fun s₁ hs₁ => ?_
      obtain ⟨hext, actions₁, g₁, h₁⟩ := hs₁
      have hnext : ms <+: ((s₁.channels i).channel (setup.address j)).sent.drop
          (Function.update count (i, setup.address j) (count (i, setup.address j) + 1)
            (i, setup.address j)) := by
        have hdrop : ms <+: ((s.channels i).channel (setup.address j)).sent.drop
            (count (i, setup.address j) + 1) := by
          rw [← List.tail_drop, ← hrest]
          exact List.prefix_append ms rest
        rw [Function.update_self]
        exact hdrop.trans (((hext.sent i (setup.address j)).map Serialized.framed).drop _)
      refine (ih h₁ hnext fun chance hc => hchances chance (List.mem_of_mem_tail hc)).mono
        fun s₂ hs₂ => ?_
      obtain ⟨hext', actions₂, g₂, h₂⟩ := hs₂
      refine ⟨hext.trans hext', actions₂, g₂, ?_⟩
      rwa [Function.update_self, Function.update_idem, Nat.add_assoc, Nat.add_comm 1] at h₂

/-- How much of every link has arrived. -/
def counts (s : Stack ι) (k : ι × Ipv4Address) : ℕ := ((s.channels k.1).delivered k.2).length

/-- **A read**: the next messages of a link arrive, and are not dealt with yet. -/
theorem Mirrors.read (h : Mirrors setup mpiSize (counts s) s actions g) {socket : Socket}
    {c : Connection} (hc : (s.channels i).connections[socket]? = some c) (sizes : List ℕ) :
    ∃ s' ms, s.transport i (.read socket sizes) = .ok s' ∧
      Mirrors setup mpiSize (counts s) s' actions g ∧
      (s'.channels i).delivered c.peer = (s.channels i).delivered c.peer ++ ms ∧
      counts s' = Function.update (counts s) (i, c.peer) (counts s (i, c.peer) + ms.length) := by
  obtain ⟨channels, hok, hfollows⟩ := (h.live.consistent i).read hc sizes
  obtain ⟨ms, hdelivered⟩ := Channels.delivered_read hc hok
  have hsent : ∀ peer, channels.sent peer = (s.channels i).sent peer := fun peer =>
    (Channels.sent_step (h.live.running i) hok peer).trans (List.append_nil _)
  have hcases : ∀ {P : ι → Channels → Prop}, P i channels → (∀ j, P j (s.channels j)) →
      ∀ j, P j ((s.put i channels).channels j) := fun {P} hi hall =>
    forall_channels (P := P) (by rwa [put_channels_self])
      (fun j hj => put_channels_of_ne s channels hj) hall
  refine ⟨s.put i channels, ms, by rw [transport, hok]; rfl, ?_, ?_, ?_⟩
  · exact {
      live := {
        consistent := hcases (P := fun _ g => g.Consistent) hfollows.consistent h.live.consistent
        ordered := hcases (P := fun _ g => ∀ peer, (g.channel peer).Ordered)
          (fun peer => (hfollows.steps peer).ordered (h.live.ordered i peer)) h.live.ordered
        running := hcases (P := fun _ g => g.transport.running = true)
          ((Channels.running_step (fun heq => by cases heq) hok).trans (h.live.running i))
          h.live.running
        mpiSize := hcases (P := fun _ g => g.transport.mpiSize = mpiSize)
          (hfollows.mpiSize.trans (h.live.mpiSize i)) h.live.mpiSize }
      run := h.run
      inRange := h.inRange
      nodes := h.nodes
      store := h.store
      sent := hcases (P := fun i g' => ∀ peer, g'.sent peer =
          (sequence Envelope.link g.sent (i, peer)).map fun env => env.msg.serialized)
        (fun peer => (hsent peer).trans (h.sent i peer)) h.sent
      visited := h.visited }
  · rw [put_channels_self, hdelivered, Function.update_self]
  · funext ⟨j, peer⟩
    rw [counts]
    by_cases hk : (j, peer) = (i, c.peer)
    · obtain ⟨rfl, rfl⟩ := Prod.mk.inj hk
      rw [put_channels_self, hdelivered, Function.update_self, Function.update_self,
        List.length_append]
      rfl
    · rw [Function.update_of_ne hk]
      by_cases hj : j = i
      · subst hj
        have hpeer : peer ≠ c.peer := fun hpeer => hk (hpeer ▸ rfl)
        rw [put_channels_self, hdelivered, Function.update_of_ne hpeer]
        rfl
      · rw [put_channels_of_ne s channels hj]
        rfl

omit [DecidableEq ι] in
/-- What a node may do of its own accord is an action of the network. -/
theorem exists_action {e : Node.Event} (hmay : mayOccur (g.nodes i) e = true)
    (hfees : e.FeesInRange) (now : ℚ) :
    ∃ a : Action ι, a.InRange ∧ deliveries [(now, a)] = [] ∧
      Network.event setup g a = some (i, g.store, e) := by
  cases e with
  | invTimeoutExpired blockHash pick => exact ⟨.timeout i blockHash pick, trivial, rfl, rfl⟩
  | processTxTimeouts pick => exact ⟨.txTimeouts i pick, trivial, rfl, rfl⟩
  | flushInvBatch => exact ⟨.flush i, trivial, rfl, rfl⟩
  | generateTransaction fee => exact ⟨.generate i fee, hfees, rfl, rfl⟩
  | mineBlock pick => exact ⟨.mine i pick, trivial, rfl, if_pos (of_decide_eq_true hmay)⟩
  | _ => cases hmay

omit [DecidableEq ι] in
theorem Extends.counts (h : Extends s s') : counts s' = counts s := by
  funext k
  rw [Stack.counts, Stack.counts, h.delivered]

/-- The channels move on, and no message is sent or read. -/
theorem Mirrors.quiet (h : Mirrors setup mpiSize (counts s) s actions g) (i : ι)
    {e : Channels.Event} (hframable : e.Framable) (hstop : e ≠ .stop) (hread : e.reads = none)
    (hsends : ∀ peer, e.sends peer = []) :
    Meets (Halt.Allowed mpiSize)
      (fun s' => ∃ actions' g', Mirrors setup mpiSize (counts s') s' actions' g')
      (s.transport i e) := by
  refine (h.live.meets_transport i hframable hstop hread).mono fun s' hgrows => ⟨actions, g, ?_⟩
  rw [hgrows.extends.counts]
  exact {
    live := hgrows.live h.live
    run := h.run
    inRange := h.inRange
    nodes := hgrows.nodes.trans h.nodes
    store := hgrows.store.trans h.store
    sent := by
      intro j peer
      rw [← h.sent]
      by_cases hj : j = i
      · rw [hj, hgrows.sent, hsends, List.append_nil]
      · rw [hgrows.others j hj]
    visited := h.visited }

omit [DecidableEq ι] in
/-- What has arrived by a read is what its link has next. -/
theorem Live.arrived (h : Live mpiSize s) (i : ι) {peer : Ipv4Address} {read ms : List Serialized}
    (harrived : (s.channels i).delivered peer = read ++ ms) :
    ms <+: ((s.channels i).channel peer).sent.drop read.length := by
  have hordered := h.ordered i peer
  rw [Fifo.Ordered, Channels.channel, harrived] at hordered
  obtain ⟨rest, hrest⟩ := hordered
  rw [Channels.channel, ← hrest, List.append_assoc, List.drop_left]
  exact List.prefix_append ms rest

/-- **One event.** -/
theorem Mirrors.step (h : Mirrors setup mpiSize (counts s) s actions g)
    (hnow : BinaryFormat.double.Represents now) {e : Event ι} (he : e.InRange)
    (hids : ∀ i, (setup.config i).id ≠ 2 ^ 32 - 1) :
    Meets (Halt.Allowed mpiSize)
      (fun s' => ∃ actions' g', Mirrors setup mpiSize (counts s') s' actions' g')
      (step setup s now e) := by
  cases e with
  | own i e answers =>
      rw [Stack.step]
      split
      · next hmay =>
          rw [h.nodes] at hmay
          obtain ⟨a, ha, hdeliveries, hev⟩ : ∃ a : Action ι, a.InRange ∧
              deliveries [(now, a)] = [] ∧ Network.event setup g a = some (i, g.store, e) :=
            exists_action hmay he now
          rw [← h.store] at hev
          have hstay : deliveries (actions ++ [(now, a)]) = deliveries actions := by
            rw [deliveries, List.filterMap_append]
            exact (congrArg (deliveries actions ++ ·) hdeliveries).trans (List.append_nil _)
          have hover : ¬ ((∃ fee, e = .generateTransaction fee) ∧
              (g.nodes i).Overflows (setup.config i)) := by
            rintro ⟨⟨fee, rfl⟩, hover⟩
            exact absurd (of_decide_eq_true hmay) (not_lt.mpr hover.2)
          refine (h.act hnow ha hev (hstay.symm ▸ h.visited) hids hover answers).mono
            fun s' hs' => ?_
          obtain ⟨hext, actions', g', h'⟩ := hs'
          refine ⟨actions', g', ?_⟩
          rwa [hext.counts]
      · exact .of_error (trivial : Halt.Allowed mpiSize .disabled)
  | connectionSucceeded i socket answers =>
      exact h.quiet i trivial (fun heq => by cases heq) rfl fun _ => rfl
  | sendReady i socket answers =>
      exact h.quiet i trivial (fun heq => by cases heq) rfl fun _ => rfl
  | read i socket sizes j chances =>
      rw [Stack.step]
      cases hc : (s.channels i).connections[socket]? with
      | none => exact .of_error (trivial : Halt.Allowed mpiSize .disabled)
      | some c =>
          dsimp only
          split
          · next hpeer =>
              obtain ⟨s₁, ms, hok, h₁, harrived, hcounts⟩ := h.read hc sizes
              rw [hpeer] at harrived hcounts ⊢
              have hms : ms <+: ((s₁.channels i).channel (setup.address j)).sent.drop
                  (counts s (i, setup.address j)) := h₁.live.arrived i harrived
              refine Meets.bind (P := (· = s₁)) (by rw [hok]; exact .of_ok rfl) fun s' hs' => ?_
              rw [hs', harrived, List.drop_left]
              refine (h₁.receiveAll hnow hms he hids).mono fun s₂ hs₂ => ?_
              obtain ⟨hext, actions', g', h'⟩ := hs₂
              refine ⟨actions', g', ?_⟩
              rwa [hext.counts, hcounts]
          · exact .of_error (trivial : Halt.Allowed mpiSize .disabled)

/-! ## runs -/

omit [DecidableEq ι] in
theorem live_init (setup : Setup ι) (mpiSize : ℕ)
    (hpeers : ∀ i, (setup.config i).peersAddresses.Nodup) : Live mpiSize (init setup mpiSize) where
  consistent i := Channels.consistent_init mpiSize (hpeers i)
  ordered _ _ := Fifo.ordered_empty
  running i := Channels.running_init mpiSize (setup.config i).peersAddresses
  mpiSize i := Channels.mpiSize_opened (setup.config i).peersAddresses _

theorem mirrors_init (setup : Setup ι) (mpiSize : ℕ)
    (hpeers : ∀ i, (setup.config i).peersAddresses.Nodup) :
    Mirrors setup mpiSize (counts (init setup mpiSize)) (init setup mpiSize) []
      (Network.init setup) where
  live := live_init setup mpiSize hpeers
  run := rfl
  inRange _ ha := absurd ha List.not_mem_nil
  nodes := rfl
  store := rfl
  sent _ _ := rfl
  visited := .nil []

/-- **A run of events.** -/
theorem Mirrors.foldlM (h : Mirrors setup mpiSize (counts s) s actions g)
    {events : List (ℚ × Event ι)}
    (hevents : ∀ e ∈ events, BinaryFormat.double.Represents e.1 ∧ e.2.InRange)
    (hids : ∀ i, (setup.config i).id ≠ 2 ^ 32 - 1) :
    Meets (Halt.Allowed mpiSize)
      (fun s' => ∃ actions' g', Mirrors setup mpiSize (counts s') s' actions' g')
      (events.foldlM (fun s e => Stack.step setup s e.1 e.2) s) := by
  refine Meets.foldlM (fun e he s hs => ?_) ⟨actions, g, h⟩
  obtain ⟨actions, g, h⟩ := hs
  exact h.step (hevents e he).1 (hevents e he).2 hids

/-- **The stack refines the network.**  Whatever TCP does, the nodes of the
stack go through a run of the network, in which the messages of every link
are delivered one after the other, each of them once, as far as they have been
read.  No frame is corrupt, no payload unreadable and no handler stuck, so a
run only ends early with a payload that is too long to be sent. -/
theorem mirrors_run (hpeers : ∀ i, (setup.config i).peersAddresses.Nodup)
    (hids : ∀ i, (setup.config i).id ≠ 2 ^ 32 - 1) {events : List (ℚ × Event ι)}
    (hevents : ∀ e ∈ events, BinaryFormat.double.Represents e.1 ∧ e.2.InRange) :
    Meets (Halt.Allowed mpiSize) (fun s => ∃ actions g, Mirrors setup mpiSize (counts s) s actions g)
      (run setup mpiSize events) :=
  (mirrors_init setup mpiSize hpeers).foldlM hevents hids

/-- Node 0 mines; the announcement, the request and the block are cut in pieces
on their way. -/
def relayEvents : List (ℚ × Event Bool) :=
  [(0, .connectionSucceeded false 0 []), (0, .connectionSucceeded true 0 []),
   (0, .own false (.mineBlock fun _ => (0, 0)) [[{ available := 4000 }]]),
   (0, .read false 0 [50, 76] true [{ draw := fun _ => 40, answers := [[{ available := 100 }]] }]),
   (1, .sendReady true 0 [{ available := 26 }]),
   (1, .read true 0 [126] false [{ draw := fun _ => 40, answers := [[{ available := 203 }]] }]),
   (3 / 2, .read false 0 [100, 103] true [])]

theorem inRange_relayEvents :
    ∀ e ∈ relayEvents, BinaryFormat.double.Represents e.1 ∧ e.2.InRange := by
  have hzero : BinaryFormat.double.Represents 0 := ⟨0, by decide, by decide, by decide +kernel⟩
  have hone : BinaryFormat.double.Represents 1 :=
    ⟨0x3FF0000000000000, by decide, by decide, by decide +kernel⟩
  have hlate : BinaryFormat.double.Represents (3 / 2) :=
    ⟨0x3FF8000000000000, by decide, by decide, by decide +kernel⟩
  have hdraw : ∀ answers, ∀ chance ∈ [{ draw := fun _ => 40, answers := answers : Chance }],
      ∀ t, chance.draw t < 2 ^ 32 :=
    fun answers => List.forall_mem_singleton.mpr fun _ => (by decide : 40 < 2 ^ 32)
  simp only [relayEvents, List.forall_mem_cons]
  exact ⟨⟨hzero, trivial⟩, ⟨hzero, trivial⟩, ⟨hzero, trivial⟩, ⟨hzero, hdraw _⟩, ⟨hone, trivial⟩,
    ⟨hone, hdraw _⟩, ⟨hlate, fun _ hc => absurd hc List.not_mem_nil⟩,
    fun e he => absurd he List.not_mem_nil⟩

/-- The theorem for that exchange. -/
theorem mirrors_run_relay : Meets (Halt.Allowed 1)
    (fun s => ∃ actions g, Mirrors Network.pair 1 (counts s) s actions g)
    (run Network.pair 1 relayEvents) :=
  mirrors_run (by decide) (by decide) inRange_relayEvents

end Stack

end GhostDag
