import GhostDag.Framing.Channel
import GhostDag.Framing.Decode
import GhostDag.Framing.Encode
import GhostDag.Lib.Fifo

/-!
# GhostDag.Framing.Order

Framing is a faithful ordered channel.

Between what was sent to a peer and what was delivered there, a message is in
one of four places: among the messages that wait for the connection, in the
queue of the socket, on its way, or in the state of the receiver, the last
three cut at arbitrary bytes.  `Channels.Consistent` says that nothing else
is there and nothing is missing.
-/

namespace GhostDag

open Std (ExtTreeMap)
open Containers

@[simp] theorem payloads_intact (ms : List Serialized) :
    Channels.payloads (intact ms) = ms.map Serialized.framed := by
  rw [Channels.payloads, intact, List.filterMap_map, ← List.filterMap_eq_map]
  rfl

theorem count_intact (ms : List Serialized) : (intact ms).count .withoutPayload = 0 := by
  refine List.count_eq_zero.mpr fun h => ?_
  obtain ⟨m, -, hm⟩ := List.mem_map.mp h
  cases hm

/-- The messages `enq` were enqueued on a connection, the bytes `unsent` of
their frames are not yet handed to TCP, and `delivered` came out. -/
def Flow (enq : List Serialized) (unsent : Packet) (c : Connection)
    (delivered : List Serialized) : Prop :=
  ∃ n ≤ enq.length, delivered = (enq.take n).map Serialized.framed ∧
    (c.running = true → Awaits (.ofNat n) (enq.drop n) c.rx (c.inFlight ++ unsent))

namespace Flow

variable {enq ms delivered : List Serialized} {unsent unsent' : Packet} {c : Connection}

theorem nil (peer : Ipv4Address) : Flow [] [] { peer := peer } [] :=
  ⟨0, le_rfl, rfl, fun _ => .idle⟩

/-- Frames are enqueued, and packets go to TCP. -/
theorem writes (h : Flow enq unsent c delivered) (henq : ∀ m ∈ enq, m.Framable)
    {packets : Packet}
    (hstream : unsent ++ frames (.ofNat enq.length) ms = packets ++ unsent') :
    Flow (enq ++ ms) unsent' { c with inFlight := c.inFlight ++ packets } delivered := by
  obtain ⟨n, hn, hdel, hawaits⟩ := h
  refine ⟨n, hn.trans (by simp), by rw [hdel, List.take_append_of_le_length hn], fun hrun => ?_⟩
  have happ := (hawaits hrun).append (fun m hm => henq m (List.mem_of_mem_drop hm)) ms
  have hseq : UInt32.ofNat n + .ofNat (enq.drop n).length = .ofNat enq.length := by
    rw [← UInt32.ofNat_add, List.length_drop, Nat.add_sub_cancel' hn]
  rw [hseq, List.append_assoc, hstream, ← List.append_assoc,
    ← List.drop_append_of_le_length hn] at happ
  exact happ

/-- The peer reads. -/
theorem read (h : Flow enq unsent c delivered) (henq : ∀ m ∈ enq, m.Framable) (sizes : List Nat) :
    ∃ rx inFlight outs, handleRead c.running c.rx c.inFlight sizes = .ok (rx, inFlight, outs) ∧
      outs.count .withoutPayload = 0 ∧
      Flow enq unsent { c with rx := rx, inFlight := inFlight }
        (delivered ++ Channels.payloads outs) := by
  obtain ⟨n, hn, hdel, hawaits⟩ := h
  cases hrun : c.running with
  | false =>
      refine ⟨c.rx, c.inFlight, [], rfl, rfl, n, hn, by simp [hdel, Channels.payloads], ?_⟩
      exact fun h => absurd h (by simp)
  | true =>
      obtain ⟨rx, inFlight, outs, hread, n', hn', rfl, hrest⟩ := (hawaits hrun).handleRead
        (fun m hm => henq m (List.mem_of_mem_drop hm)) true sizes
      rw [List.length_drop] at hn'
      refine ⟨rx, inFlight, _, hread, count_intact _, n + n', by omega, ?_, fun _ => ?_⟩
      · rw [hdel, payloads_intact, ← List.map_append, ← List.take_add]
      · rwa [List.drop_drop, ← UInt32.ofNat_add] at hrest

theorem arrived (h : Flow enq unsent c delivered) :
    delivered <+: enq.map Serialized.framed := by
  obtain ⟨n, -, hdel, -⟩ := h
  rw [hdel]
  exact (List.take_prefix n enq).map _

/-- The peer stops reading. -/
theorem stopPeer (h : Flow enq unsent c delivered) :
    Flow enq unsent { c with rx := {}, running := false } delivered := by
  obtain ⟨n, hn, hdel, -⟩ := h
  exact ⟨n, hn, hdel, fun h => absurd h (by simp)⟩

end Flow

namespace Transport

/-- The messages for a peer that wait for the connection. -/
def waiting (t : Transport) (peer : Ipv4Address) : List Serialized :=
  t.pendingMessages[peer]?.getD []

theorem waiting_createPeerSocket (t : Transport) (peer peer' : Ipv4Address) :
    (t.createPeerSocket peer).1.waiting peer' = t.waiting peer' := by
  have hpending : (t.createPeerSocket peer).1.pendingMessages
      = t.pendingMessages.insertIfNew peer [] := rfl
  rw [waiting, waiting, hpending, getElem?_insertIfNew]
  split
  case isTrue hp => rw [hp, Option.getD_some]
  case isFalse => rfl

/-- The members agree on which socket is for which peer.  Nothing refers to a
socket that does not exist, and a stopped node refers to none. -/
structure Wired (t : Transport) (peerOf : Socket → Option Ipv4Address) : Prop where
  unique : ∀ (s s' : Socket) (peer : Ipv4Address), peerOf s = some peer → peerOf s' = some peer →
    s = s'
  fresh : ∀ s : Socket, t.nextSocket ≤ s → peerOf s = none
  socket : ∀ (s : Socket) (peer : Ipv4Address), t.running = true → peerOf s = some peer →
    t.peersSockets[peer]? = some s
  peersSockets : ∀ (peer : Ipv4Address) (s : Socket), t.peersSockets[peer]? = some s →
    peerOf s = some peer
  socketToPeer : ∀ (s : Socket) (peer : Ipv4Address), t.socketToPeer[s]? = some peer →
    t.running = true ∧ t.peersSockets[peer]? = some s
  pending : ∀ (peer : Ipv4Address) (ms : List Serialized), t.pendingMessages[peer]? = some ms →
    ∃ s, t.peersSockets[peer]? = some s
  queued : ∀ (s : Socket) (queue : List Packet), t.txQueue[s]? = some queue →
    t.running = true ∧ ∃ peer, peerOf s = some peer
  unnumbered : ∀ s : Socket, peerOf s = none → t.nextSeq s = 0

namespace Wired

variable {t t' : Transport} {peerOf : Socket → Option Ipv4Address}

theorem writes (h : t.Wired peerOf) {s : Socket} {peer : Ipv4Address} {ms : List Serialized}
    {calls : List TcpCall} (hrun : t.running = true) (hs : peerOf s = some peer)
    (hw : t.Writes t' s ms calls) {pending : ExtTreeMap Ipv4Address (List Serialized)}
    (hother : ∀ p ≠ peer, pending[p]? = t.pendingMessages[p]?) :
    Wired { t' with pendingMessages := pending } peerOf := by
  have hframe := hw.frame
  have hpeers : t'.peersSockets = t.peersSockets := by rw [hframe]
  have hto : t'.socketToPeer = t.socketToPeer := by rw [hframe]
  have hnext : t'.nextSocket = t.nextSocket := by rw [hframe]
  have hrun' : t'.running = true := by rw [hframe, ← hrun]
  exact {
    unique := h.unique
    fresh := fun s' hs' => h.fresh s' (hnext ▸ hs')
    socket := fun s' p _ hp => hpeers ▸ h.socket s' p hrun hp
    peersSockets := fun p s' hp => h.peersSockets p s' (hpeers ▸ hp)
    socketToPeer := fun s' p hp => ⟨hrun', hpeers ▸ (h.socketToPeer s' p (hto ▸ hp)).2⟩
    pending := by
      intro p l hl
      by_cases hp : p = peer
      · exact ⟨s, hp ▸ hpeers ▸ h.socket s peer hrun hs⟩
      · obtain ⟨s', hs'⟩ := h.pending p l ((hother p hp).symm.trans hl)
        exact ⟨s', hpeers ▸ hs'⟩
    queued := by
      intro s' queue hq
      refine ⟨hrun', ?_⟩
      by_cases hs' : s' = s
      · exact ⟨peer, hs' ▸ hs⟩
      · exact (h.queued s' queue ((hw.other s' hs').1.symm.trans hq)).2
    unnumbered := by
      intro s' hs'
      have hne : s' ≠ s := by
        rintro rfl
        rw [hs] at hs'
        cases hs'
      have := h.unnumbered s' hs'
      unfold nextSeq at this ⊢
      rwa [(hw.other s' hne).2] }

theorem createPeerSocket (h : t.Wired peerOf) {peer : Ipv4Address}
    (hrun : t.running = true) (hnone : t.peersSockets[peer]? = none) :
    Wired (t.createPeerSocket peer).1 (Function.update peerOf t.nextSocket (some peer)) := by
  have hnew : peerOf t.nextSocket = none := h.fresh _ le_rfl
  have hpeer : ∀ s, peerOf s ≠ some peer := by
    intro s hs
    rw [h.socket s peer hrun hs] at hnone
    cases hnone
  have hold : ∀ s p, peerOf s = some p → s ≠ t.nextSocket ∧ p ≠ peer := by
    intro s p hs
    refine ⟨?_, ?_⟩ <;> rintro rfl
    · rw [hnew] at hs
      cases hs
    · exact hpeer s hs
  have hupdate : ∀ s p, Function.update peerOf t.nextSocket (some peer) s = some p ↔
      s = t.nextSocket ∧ p = peer ∨ peerOf s = some p := by
    intro s p
    rw [Function.update_apply]
    split
    case isTrue hs => simp [hs, hnew, eq_comm]
    case isFalse hs => simp [hs]
  have hsockets : ∀ p s, (t.createPeerSocket peer).1.peersSockets[p]? = some s ↔
      s = t.nextSocket ∧ p = peer ∨ t.peersSockets[p]? = some s := by
    intro p s
    simp only [Transport.createPeerSocket, getElem?_insert]
    split
    case isTrue hp => simp [hp, hnone, eq_comm]
    case isFalse hp => simp [hp]
  exact {
    unique := by
      intro s s' p hs hs'
      rcases (hupdate s p).mp hs with ⟨rfl, rfl⟩ | hs <;>
        rcases (hupdate s' _).mp hs' with ⟨rfl, hp⟩ | hs'
      · rfl
      · exact absurd hs' (hpeer s')
      · exact absurd (hp ▸ hs) (hpeer s)
      · exact h.unique s s' p hs hs'
    fresh := by
      intro s hs
      have hs' : t.nextSocket + 1 ≤ s := hs
      rw [Function.update_of_ne (Nat.ne_of_gt hs')]
      exact h.fresh s (Nat.le_of_succ_le hs')
    socket := by
      intro s p _ hs
      rw [hsockets]
      exact ((hupdate s p).mp hs).imp_right (h.socket s p hrun)
    peersSockets := by
      intro p s hs
      rw [hupdate]
      exact ((hsockets p s).mp hs).imp_right (h.peersSockets p s)
    socketToPeer := by
      intro s p hs
      refine ⟨hrun, ?_⟩
      rw [hsockets]
      simp only [Transport.createPeerSocket, getElem?_insert] at hs
      split at hs
      case isTrue heq => exact .inl ⟨heq, (Option.some.inj hs).symm⟩
      case isFalse => exact .inr (h.socketToPeer s p hs).2
    pending := by
      intro p ms hp
      simp only [hsockets]
      simp only [Transport.createPeerSocket, getElem?_insertIfNew] at hp
      split at hp
      case isTrue heq => exact ⟨_, .inl ⟨rfl, heq⟩⟩
      case isFalse =>
        obtain ⟨s, hs⟩ := h.pending p ms hp
        exact ⟨s, .inr hs⟩
    queued := by
      intro s queue hq
      obtain ⟨-, p, hp⟩ := h.queued s queue hq
      exact ⟨hrun, p, (hupdate s p).mpr (.inr hp)⟩
    unnumbered := by
      intro s hs
      refine h.unnumbered s ?_
      cases hp : peerOf s with
      | none => rfl
      | some p =>
          rw [(hupdate s p).mpr (.inr hp)] at hs
          cases hs }

theorem stopApplication (h : t.Wired peerOf) : Wired t.stopApplication peerOf where
  unique := h.unique
  fresh := h.fresh
  socket _ _ hrun _ := by cases hrun
  peersSockets p s hs := by simp [Transport.stopApplication] at hs
  socketToPeer s p hs := by simp [Transport.stopApplication] at hs
  pending p ms hs := by simp [Transport.stopApplication] at hs
  queued s queue hs := by simp [Transport.stopApplication] at hs
  unnumbered s _ := by simp [Transport.stopApplication, nextSeq]

end Wired

end Transport

namespace Channels

/-- What was sent to a peer and what of it arrived. -/
def channel (g : Channels) (peer : Ipv4Address) : Fifo Serialized where
  sent := (g.sent peer).map Serialized.framed
  arrived := g.delivered peer

/-- The other end of a connection. -/
def peerOf (g : Channels) (s : Socket) : Option Ipv4Address :=
  g.connections[s]?.map Connection.peer

/-- Where the messages to the peer of connection `c` are. -/
def Carries (g : Channels) (s : Socket) (c : Connection) : Prop :=
  ∃ enq unsent waiting, g.sent c.peer = enq ++ waiting ∧ Flow enq unsent c (g.delivered c.peer) ∧
    (g.transport.running = true → g.transport.nextSeq s = .ofNat enq.length ∧
      g.transport.unsent s = unsent ∧ g.transport.waiting c.peer = waiting)

/-- What holds between two events. -/
structure Consistent (g : Channels) : Prop where
  framable : ∀ peer, ∀ m ∈ g.sent peer, m.Framable
  intact : g.withoutPayload = 0
  carries : ∀ (s : Socket) (c : Connection), g.connections[s]? = some c → g.Carries s c
  silent : ∀ peer, (∀ s, g.peerOf s ≠ some peer) → g.sent peer = [] ∧ g.delivered peer = []
  wired : g.transport.Wired g.peerOf

/-- From `g` to `g'` the invariant is kept, and the channel of every peer only
does what a channel does. -/
structure Follows (g g' : Channels) : Prop where
  consistent : g'.Consistent
  steps : ∀ peer, Fifo.Steps (g.channel peer) (g'.channel peer)
  mpiSize : g'.transport.mpiSize = g.transport.mpiSize

theorem Consistent.follows {g : Channels} (h : g.Consistent) : Follows g g :=
  ⟨h, fun _ => .refl, rfl⟩

theorem Follows.trans {g g' g'' : Channels} (h : Follows g g') (h' : Follows g' g'') :
    Follows g g'' :=
  ⟨h'.consistent, fun peer => (h.steps peer).trans (h'.steps peer), h'.mpiSize.trans h.mpiSize⟩

/-! ### what TCP does -/

theorem tcp_send {connections : ExtTreeMap Socket Connection} {s : Socket} {c : Connection}
    (hc : connections[s]? = some c) (packets : List Packet) (s' : Socket) :
    ((packets.map (.send s)).foldl tcp connections)[s']?
      = if s' = s then some { c with inFlight := c.inFlight ++ packets.flatten }
        else connections[s']? := by
  induction packets generalizing connections c with
  | nil =>
      split
      · simp_all
      · rfl
  | cons p packets ih =>
      have hstep : tcp connections (.send s p)
          = connections.insert s { c with inFlight := c.inFlight ++ p } := by simp [tcp, hc]
      rw [List.map_cons, List.foldl_cons, hstep,
        ih (by rw [getElem?_insert, if_pos rfl]), getElem?_insert]
      simp only [List.flatten_cons, List.append_assoc]
      split <;> rfl

variable {g : Channels} {t' : Transport} {s : Socket} {c : Connection}

/-- **The node writes to one connection**: `ms` join the queue of its socket,
`new` is sent by the application, and the messages that wait for the
connection change accordingly. -/
theorem Consistent.writes (h : g.Consistent) (hrun : g.transport.running = true)
    (hc : g.connections[s]? = some c) {ms : List Serialized} (new : List Serialized)
    {calls : List TcpCall} (hw : g.transport.Writes t' s ms calls)
    (pending : ExtTreeMap Ipv4Address (List Serialized))
    (hother : ∀ peer ≠ c.peer, pending[peer]? = g.transport.pendingMessages[peer]?)
    (hwait : g.transport.waiting c.peer ++ new = ms ++ pending[c.peer]?.getD [])
    (hnew : ∀ m ∈ new, m.Framable) :
    Follows g { g with
      transport := { t' with pendingMessages := pending }
      connections := calls.foldl tcp g.connections
      sent := Function.update g.sent c.peer (g.sent c.peer ++ new) } := by
  obtain ⟨packets, rfl, hstream⟩ := hw.stream
  have hconn := tcp_send hc packets
  have hs : g.peerOf s = some c.peer := by rw [peerOf, hc]; rfl
  have hpeer : ∀ s', (((packets.map (.send s)).foldl tcp g.connections)[s']?).map Connection.peer
      = g.peerOf s' := by
    intro s'
    rw [hconn]
    split
    case isTrue heq => rw [heq, hs]; rfl
    case isFalse => rfl
  refine ⟨{
    framable := ?framable
    intact := h.intact
    carries := ?carries
    silent := ?silent
    wired := ?wired }, ?steps, by dsimp only; rw [hw.frame]⟩
  case framable =>
    intro peer m hm
    dsimp only at hm
    rw [Function.update_apply] at hm
    split at hm
    case isTrue hp =>
      rcases List.mem_append.mp hm with hm | hm
      · exact h.framable _ m hm
      · exact hnew m hm
    case isFalse hp => exact h.framable peer m hm
  case carries =>
    intro s' c' hc'
    dsimp only at hc'
    rw [hconn] at hc'
    split at hc'
    case isTrue heq =>
      obtain ⟨enq, unsent, waiting, hsent, hflow, hfeeds⟩ := h.carries s c hc
      obtain ⟨hseq, hunsent, hwaiting⟩ := hfeeds hrun
      cases hc'
      have henq : ∀ m ∈ enq, m.Framable := fun m hm =>
        h.framable c.peer m (hsent ▸ List.mem_append_left _ hm)
      refine ⟨enq ++ ms, t'.unsent s, pending[c.peer]?.getD [], ?_, hflow.writes henq ?_,
        fun _ => ⟨?_, ?_, rfl⟩⟩
      · dsimp only
        rw [Function.update_self, hsent, List.append_assoc, ← hwaiting, hwait, List.append_assoc]
      · rw [← hseq, ← hunsent, hstream]
      · rw [heq, List.length_append, UInt32.ofNat_add, ← hseq]
        exact hw.seq
      · rw [heq]
        rfl
    case isFalse hne =>
      have hpeer' : c'.peer ≠ c.peer := fun hp =>
        hne (h.wired.unique s' s c.peer (by rw [peerOf, hc', Option.map_some, hp]) hs)
      obtain ⟨enq, unsent, waiting, hsent, hflow, hfeeds⟩ := h.carries s' c' hc'
      refine ⟨enq, unsent, waiting, ?_, hflow, fun _ => ?_⟩
      · dsimp only
        rw [Function.update_of_ne hpeer', hsent]
      · obtain ⟨hseq, hunsent, hwaiting⟩ := hfeeds hrun
        obtain ⟨hqueue, hnumber⟩ := hw.other s' hne
        refine ⟨?_, ?_, ?_⟩
        · rw [← hseq]
          exact congrArg (Option.getD · 0) hnumber
        · rw [← hunsent]
          exact congrArg (fun o => (Option.getD o []).flatten) hqueue
        · rw [← hwaiting]
          exact congrArg (Option.getD · []) (hother c'.peer hpeer')
  case silent =>
    intro peer hnone
    have hne : peer ≠ c.peer := by
      rintro rfl
      exact hnone s ((hpeer s).trans hs)
    dsimp only
    rw [Function.update_of_ne hne]
    exact h.silent peer fun s' hs' => hnone s' ((hpeer s').trans hs')
  case wired =>
    have hfun : (fun s' => (((packets.map (.send s)).foldl tcp g.connections)[s']?).map
        Connection.peer) = g.peerOf := funext hpeer
    have := h.wired.writes hrun hs hw hother
    rwa [← hfun] at this
  case steps =>
    intro peer
    by_cases hp : peer = c.peer
    · simp only [channel, hp, Function.update_self, List.map_append]
      exact Fifo.Steps.send _ _ _
    · simp only [channel, Function.update_of_ne hp]
      exact .refl

/-- A connection is opened to a peer that has none. -/
theorem Consistent.createPeerSocket (h : g.Consistent) {peer : Ipv4Address}
    (hrun : g.transport.running = true) (hnone : g.transport.peersSockets[peer]? = none) :
    Follows g (g.act (g.transport.createPeerSocket peer)) := by
  have hpeer : ∀ s, g.peerOf s ≠ some peer := by
    intro s hs
    rw [h.wired.socket s peer hrun hs] at hnone
    cases hnone
  have hnew : g.peerOf g.transport.nextSocket = none := h.wired.fresh _ le_rfl
  have hpeerOf : (g.act (g.transport.createPeerSocket peer)).peerOf
      = Function.update g.peerOf g.transport.nextSocket (some peer) := by
    funext s
    simp only [peerOf, act, Transport.createPeerSocket, List.foldl_cons, List.foldl_nil, tcp,
      getElem?_insert, Function.update_apply]
    split <;> rfl
  refine ⟨{
    framable := h.framable
    intact := h.intact
    carries := ?carries
    silent := ?silent
    wired := hpeerOf ▸ h.wired.createPeerSocket hrun hnone }, fun _ => .refl, rfl⟩
  case carries =>
    intro s c hc
    simp only [act, Transport.createPeerSocket, List.foldl_cons, List.foldl_nil, tcp,
      getElem?_insert] at hc
    split at hc
    case isTrue hs =>
      cases hc
      obtain ⟨hsent, hdel⟩ := h.silent peer hpeer
      refine ⟨[], [], [], hsent, hdel ▸ .nil peer, fun _ => ⟨?_, ?_, ?_⟩⟩
      · rw [hs]
        exact h.wired.unnumbered _ hnew
      · have hqueue : g.transport.txQueue[g.transport.nextSocket]? = none := by
          refine Option.eq_none_iff_forall_ne_some.mpr fun queue hq => ?_
          obtain ⟨-, p, hp⟩ := h.wired.queued _ queue hq
          rw [hnew] at hp
          cases hp
        rw [hs]
        exact congrArg (fun o => (Option.getD o []).flatten) hqueue
      · have hpending : g.transport.pendingMessages[peer]? = none := by
          refine Option.eq_none_iff_forall_ne_some.mpr fun ms hms => ?_
          obtain ⟨s', hs'⟩ := h.wired.pending peer ms hms
          rw [hnone] at hs'
          cases hs'
        refine (Transport.waiting_createPeerSocket _ _ _).trans ?_
        rw [Transport.waiting, hpending]
        rfl
    case isFalse hs =>
      obtain ⟨enq, unsent, waiting, hsent, hflow, hfeeds⟩ := h.carries s c hc
      refine ⟨enq, unsent, waiting, hsent, hflow, fun hrun => ?_⟩
      obtain ⟨hseq, hunsent, hwaiting⟩ := hfeeds hrun
      exact ⟨hseq, hunsent, (Transport.waiting_createPeerSocket _ _ _).trans hwaiting⟩
  case silent =>
    intro p hp
    refine h.silent p fun s hs => hp s ?_
    rw [hpeerOf, Function.update_of_ne, hs]
    rintro rfl
    rw [hnew] at hs
    cases hs

/-- The end of a connection at the peer changes, and `outs` arrive there. -/
theorem Consistent.replace (h : g.Consistent) (hc : g.connections[s]? = some c) (c' : Connection)
    (hpeer : c'.peer = c.peer) (outs : List Serialized) {enq waiting : List Serialized}
    {unsent : Packet}
    (hsent : g.sent c.peer = enq ++ waiting)
    (hfeeds : g.transport.running = true → g.transport.nextSeq s = .ofNat enq.length ∧
      g.transport.unsent s = unsent ∧ g.transport.waiting c.peer = waiting)
    (hflow : Flow enq unsent c' (g.delivered c.peer ++ outs)) :
    Follows g { g with
      connections := g.connections.insert s c'
      delivered := Function.update g.delivered c.peer (g.delivered c.peer ++ outs) } := by
  have hs : g.peerOf s = some c.peer := by rw [peerOf, hc]; rfl
  have hpeerOf : ∀ s', ((g.connections.insert s c')[s']?).map Connection.peer = g.peerOf s' := by
    intro s'
    rw [getElem?_insert]
    split
    case isTrue heq => rw [heq, hs, ← hpeer]; rfl
    case isFalse => rfl
  refine ⟨{
    framable := h.framable
    intact := h.intact
    carries := ?carries
    silent := ?silent
    wired := ?wired }, ?steps, rfl⟩
  case carries =>
    intro s' c₁ hc₁
    dsimp only at hc₁
    rw [getElem?_insert] at hc₁
    split at hc₁
    case isTrue heq =>
      cases hc₁
      refine ⟨enq, unsent, waiting, hpeer ▸ hsent, ?_, ?_⟩
      · dsimp only
        rwa [hpeer, Function.update_self]
      · rw [heq, hpeer]
        exact hfeeds
    case isFalse hne =>
      have hpeer' : c₁.peer ≠ c.peer := fun hp =>
        hne (h.wired.unique s' s c.peer (by rw [peerOf, hc₁, Option.map_some, hp]) hs)
      obtain ⟨enq', unsent', waiting', hsent', hflow', hfeeds'⟩ := h.carries s' c₁ hc₁
      refine ⟨enq', unsent', waiting', hsent', ?_, hfeeds'⟩
      dsimp only
      rwa [Function.update_of_ne hpeer']
  case silent =>
    intro peer hnone
    have hne : peer ≠ c.peer := by
      rintro rfl
      exact hnone s ((hpeerOf s).trans hs)
    dsimp only
    rw [Function.update_of_ne hne]
    exact h.silent peer fun s' hs' => hnone s' ((hpeerOf s').trans hs')
  case wired =>
    have hfun : (fun s' => ((g.connections.insert s c')[s']?).map Connection.peer) = g.peerOf :=
      funext hpeerOf
    have := h.wired
    rwa [← hfun] at this
  case steps =>
    intro peer
    by_cases hp : peer = c.peer
    · simp only [channel, hp, Function.update_self]
      refine Fifo.Steps.arrive outs (hflow.arrived.trans ?_)
      rw [hsent, List.map_append]
      exact List.prefix_append _ _
    · simp only [channel, Function.update_of_ne hp]
      exact .refl

/-- The peer of a connection reads. -/
theorem Consistent.read (h : g.Consistent) (hc : g.connections[s]? = some c) (sizes : List Nat) :
    ∃ g', g.step (.read s sizes) = .ok g' ∧ Follows g g' := by
  obtain ⟨enq, unsent, waiting, hsent, hflow, hfeeds⟩ := h.carries s c hc
  have henq : ∀ m ∈ enq, m.Framable := fun m hm =>
    h.framable c.peer m (hsent ▸ List.mem_append_left _ hm)
  obtain ⟨rx, inFlight, outs, hread, hcount, hflow'⟩ := hflow.read henq sizes
  have hfollows := h.replace hc { c with rx := rx, inFlight := inFlight } rfl (payloads outs) hsent
    hfeeds hflow'
  have hok : g.step (.read s sizes) = .ok { g with
      connections := g.connections.insert s { c with rx := rx, inFlight := inFlight }
      delivered := Function.update g.delivered c.peer (g.delivered c.peer ++ payloads outs)
      withoutPayload := g.withoutPayload + outs.count .withoutPayload } := by
    simp only [step, hc, hread]
    rfl
  rw [hcount] at hok
  exact ⟨_, hok, hfollows⟩

theorem Consistent.stop (h : g.Consistent) :
    Follows g { g with transport := g.transport.stopApplication } where
  consistent := {
    framable := h.framable
    intact := h.intact
    carries := fun s c hc => by
      obtain ⟨enq, unsent, waiting, hsent, hflow, -⟩ := h.carries s c hc
      exact ⟨enq, unsent, waiting, hsent, hflow, fun hrun => by cases hrun⟩
    silent := h.silent
    wired := h.wired.stopApplication }
  steps _ := .refl
  mpiSize := rfl

theorem Consistent.stopPeer (h : g.Consistent) (hc : g.connections[s]? = some c) :
    Follows g { g with
      connections := g.connections.insert s { c with rx := {}, running := false } } := by
  obtain ⟨enq, unsent, waiting, hsent, hflow, hfeeds⟩ := h.carries s c hc
  have hfollows := h.replace hc { c with rx := {}, running := false } rfl [] hsent hfeeds
    (by simpa using hflow.stopPeer)
  simpa using hfollows

/-- The connection of a peer that has a socket. -/
theorem Consistent.exists_connection (h : g.Consistent) {peer : Ipv4Address}
    (hs : g.transport.peersSockets[peer]? = some s) :
    ∃ c : Connection, g.connections[s]? = some c ∧ c.peer = peer :=
  Option.map_eq_some_iff.mp (h.wired.peersSockets peer s hs)

/-- A message for a peer whose connection is not there yet waits for it. -/
theorem Consistent.wait (h : g.Consistent) {peer : Ipv4Address} {ms : List Serialized}
    {m : Serialized} (hrun : g.transport.running = true)
    (hpending : g.transport.pendingMessages[peer]? = some ms) (hm : m.Framable) :
    Follows g { g with
      transport := { g.transport with
        pendingMessages := g.transport.pendingMessages.insert peer (ms ++ [m]) }
      sent := Function.update g.sent peer (g.sent peer ++ [m]) } := by
  obtain ⟨s, hs⟩ := h.wired.pending peer ms hpending
  obtain ⟨c, hc, rfl⟩ := h.exists_connection hs
  refine h.writes hrun hc [m] (.refl _ _) _ (fun p hp => ?_) ?_ (by simpa using hm)
  · rw [getElem?_insert, if_neg hp]
  · simp [Transport.waiting, hpending]

/-- The node writes to one connection without a new message. -/
theorem Consistent.flush (h : g.Consistent) (hrun : g.transport.running = true)
    (hc : g.connections[s]? = some c) {ms : List Serialized} {calls : List TcpCall}
    (hw : g.transport.Writes t' s ms calls)
    (pending : ExtTreeMap Ipv4Address (List Serialized))
    (hother : ∀ peer ≠ c.peer, pending[peer]? = g.transport.pendingMessages[peer]?)
    (hwait : g.transport.waiting c.peer = ms ++ pending[c.peer]?.getD []) :
    Follows g (g.act ({ t' with pendingMessages := pending }, calls)) := by
  have := h.writes hrun hc [] hw pending hother (by simpa using hwait) (by simp)
  simpa [act] using this

theorem Consistent.sendReady (h : g.Consistent) (s : Socket) (answers : List Answer) :
    Follows g (g.act (g.transport.handleSendReady s answers)) := by
  have hw := g.transport.writes_handleSendReady s answers
  cases hq : g.transport.txQueue[s]? with
  | none =>
      simp only [Transport.handleSendReady, hq]
      exact h.follows
  | some queue =>
      obtain ⟨hrun, peer, hs⟩ := h.wired.queued s queue hq
      obtain ⟨c, hc, rfl⟩ := Option.map_eq_some_iff.mp hs
      have hpending : (g.transport.handleSendReady s answers).1.pendingMessages
          = g.transport.pendingMessages := by rw [hw.frame]
      exact h.flush hrun hc hw (g.transport.handleSendReady s answers).1.pendingMessages
        (fun p _ => by rw [hpending]) (by rw [hpending]; rfl)

theorem Consistent.connectionSucceeded (h : g.Consistent) (s : Socket)
    (answers : List (List Answer)) :
    (∃ r, g.transport.handleConnectionSucceeded s answers = .ok r ∧ Follows g (g.act r)) ∨
      (∃ size, 1 < g.transport.mpiSize ∧ mpiPayloadLimit < size ∧
        g.transport.handleConnectionSucceeded s answers
          = .error (.payloadExceedsMpiBuffer size)) := by
  unfold Transport.handleConnectionSucceeded
  cases hto : g.transport.socketToPeer[s]? with
  | none => exact .inl ⟨_, rfl, h.follows⟩
  | some peer =>
      obtain ⟨hrun, hs⟩ := h.wired.socketToPeer s peer hto
      obtain ⟨c, hc, rfl⟩ := h.exists_connection hs
      cases hpending : g.transport.pendingMessages[c.peer]? with
      | none => exact .inl ⟨(g.transport, []), by simp only [hpending], h.follows⟩
      | some ms =>
          obtain ⟨t', calls, hok, hw⟩ | ⟨m, -, hmpi, hlen, herr⟩ :=
            Transport.enqueuePending_cases s g.transport ms answers
          · refine .inl ⟨({ t' with pendingMessages := t'.pendingMessages.erase c.peer }, calls), ?_, ?_⟩
            · simp only [hpending, hok]
              rfl
            · have hpending' : t'.pendingMessages = g.transport.pendingMessages := by rw [hw.frame]
              refine h.flush hrun hc hw _ (fun p hp => ?_) ?_
              · rw [hpending', getElem?_erase, if_neg hp]
              · simp [Transport.waiting, hpending]
          · refine .inr ⟨_, hmpi, hlen, ?_⟩
            simp only [hpending, herr]
            rfl

theorem Consistent.sendSerialized (h : g.Consistent) (dest : Ipv4Address) {m : Serialized}
    (hm : m.Framable) (answers : List Answer) :
    (∃ g', g.step (.sendSerialized dest m answers) = .ok g' ∧ Follows g g') ∨
      (∃ size, 1 < g.transport.mpiSize ∧ mpiPayloadLimit < size ∧
        g.step (.sendSerialized dest m answers) = .error (.payloadExceedsMpiBuffer size)) := by
  cases hrun : g.transport.running with
  | false =>
      refine .inl ⟨g, ?_, h.follows⟩
      simp only [Channels.step, Transport.sendSerialized, hrun]
      rfl
  | true =>
      cases hpending : g.transport.pendingMessages[dest]? with
      | some ms =>
          refine .inl ⟨_, ?_, h.wait hrun hpending hm⟩
          simp only [Channels.step, Transport.sendSerialized, hrun, hpending]
          rfl
      | none =>
          cases hsocket : g.transport.peersSockets[dest]? with
          | none =>
              have hopen := h.createPeerSocket hrun hsocket
              have hempty : (g.act (g.transport.createPeerSocket dest)).transport.pendingMessages[dest]?
                  = some [] := by
                refine (getElem?_insertIfNew g.transport.pendingMessages dest [] dest).trans ?_
                rw [if_pos rfl, hpending]
                rfl
              refine .inl ⟨_, ?_, hopen.trans (hopen.consistent.wait hrun hempty hm)⟩
              simp only [Channels.step, Transport.sendSerialized, hrun, hpending, hsocket,
                Transport.createPeerSocket]
              rw [insertIfNew_insert _ dest [m] [] []]
              rfl
          | some s =>
              obtain ⟨c, hc, rfl⟩ := h.exists_connection hsocket
              obtain ⟨t', calls, hok, hw⟩ | ⟨hmpi, hlen, herr⟩ :=
                g.transport.enqueueFrame_cases s m answers
              · have hpending' : t'.pendingMessages = g.transport.pendingMessages := by rw [hw.frame]
                refine .inl ⟨_, ?_, h.writes hrun hc [m] hw t'.pendingMessages
                  (fun p _ => by rw [hpending']) ?_ (by simpa using hm)⟩
                · simp only [Channels.step, Transport.sendSerialized, hrun, hpending, hsocket, hok]
                  rfl
                · simp [Transport.waiting, hpending', hpending]
              · refine .inr ⟨_, hmpi, hlen, ?_⟩
                simp only [Channels.step, Transport.sendSerialized, hrun, hpending, hsocket, herr]
                rfl

/-- **One event**: the channels go on as channels do, or the message does not
fit the MPI buffer. -/
theorem Consistent.step (h : g.Consistent) {e : Event} (he : e.Framable) :
    (∃ g', g.step e = .ok g' ∧ Follows g g') ∨
      (∃ size, 1 < g.transport.mpiSize ∧ mpiPayloadLimit < size ∧
        g.step e = .error (.payloadExceedsMpiBuffer size)) := by
  cases e with
  | sendSerialized dest m answers => exact h.sendSerialized dest he answers
  | connectionSucceeded s answers =>
      obtain ⟨r, hok, hr⟩ | ⟨size, hmpi, hlen, herr⟩ := h.connectionSucceeded s answers
      · exact .inl ⟨_, by simp only [Channels.step, hok]; rfl, hr⟩
      · exact .inr ⟨size, hmpi, hlen, by simp only [Channels.step, herr]; rfl⟩
  | sendReady s answers => exact .inl ⟨_, rfl, h.sendReady s answers⟩
  | stop => exact .inl ⟨_, rfl, h.stop⟩
  | read s sizes =>
      cases hc : g.connections[s]? with
      | none => exact .inl ⟨g, by simp only [Channels.step, hc]; rfl, h.follows⟩
      | some c => exact .inl (h.read hc sizes)
  | stopPeer s =>
      cases hc : g.connections[s]? with
      | none => exact .inl ⟨g, by simp only [Channels.step, hc]; rfl, h.follows⟩
      | some c => exact .inl ⟨_, by simp only [Channels.step, hc]; rfl, h.stopPeer hc⟩

/-! ## runs -/

/-- A node that has opened some connections and sent nothing. -/
def opened (r : Transport × List TcpCall) : Channels where
  transport := r.1
  connections := r.2.foldl tcp ∅
  sent _ := []
  delivered _ := []
  withoutPayload := 0

theorem consistent_opened {peers : List Ipv4Address} (hpeers : peers.Nodup)
    {r : Transport × List TcpCall} (h : (opened r).Consistent) (hrun : r.1.running = true)
    (hnone : ∀ p ∈ peers, r.1.peersSockets[p]? = none) :
    (opened (peers.foldl (fun r peer =>
      ((r.1.createPeerSocket peer).1, r.2 ++ (r.1.createPeerSocket peer).2)) r)).Consistent := by
  induction peers generalizing r with
  | nil => exact h
  | cons peer peers ih =>
      obtain ⟨hnotMem, hnodup⟩ := List.nodup_cons.mp hpeers
      have hact : opened ((r.1.createPeerSocket peer).1, r.2 ++ (r.1.createPeerSocket peer).2)
          = (opened r).act (r.1.createPeerSocket peer) := by
        simp only [opened, act, List.foldl_append]
      refine ih hnodup ?_ hrun fun p hp => ?_
      · rw [hact]
        exact (h.createPeerSocket hrun (hnone peer List.mem_cons_self)).consistent
      · have hne : p ≠ peer := fun heq => hnotMem (heq ▸ hp)
        refine (getElem?_insert r.1.peersSockets peer r.1.nextSocket p).trans ?_
        rw [if_neg hne]
        exact hnone p (List.mem_cons_of_mem peer hp)

theorem consistent_init (mpiSize : Nat) {peers : List Ipv4Address} (hpeers : peers.Nodup) :
    (init mpiSize peers).Consistent := by
  refine consistent_opened hpeers ?_ rfl fun p _ => by simp
  exact {
    framable := by simp [opened]
    intact := rfl
    carries := by simp [opened]
    silent := fun _ _ => ⟨rfl, rfl⟩
    wired := {
      unique := by simp [opened, peerOf]
      fresh := by simp [opened, peerOf]
      socket := by simp [opened, peerOf]
      peersSockets := by simp [opened]
      socketToPeer := by simp [opened]
      pending := by simp [opened]
      queued := by simp [opened]
      unnumbered := by simp [opened, Transport.nextSeq] } }

theorem mpiSize_opened (peers : List Ipv4Address) (r : Transport × List TcpCall) :
    (peers.foldl (fun r peer =>
      ((r.1.createPeerSocket peer).1, r.2 ++ (r.1.createPeerSocket peer).2)) r).1.mpiSize
        = r.1.mpiSize := by
  induction peers generalizing r with
  | nil => rfl
  | cons peer peers ih => exact ih _

/-- **A run of events** is, for every peer, a run of a channel. -/
theorem Consistent.run (h : g.Consistent) {events : List Event} (he : ∀ e ∈ events, e.Framable) :
    (∃ g', g.run events = .ok g' ∧ Follows g g') ∨
      (∃ size, 1 < g.transport.mpiSize ∧ mpiPayloadLimit < size ∧
        g.run events = .error (.payloadExceedsMpiBuffer size)) := by
  induction events generalizing g with
  | nil => exact .inl ⟨g, rfl, h.follows⟩
  | cons e events ih =>
      have hstep : g.run (e :: events) = g.step e >>= fun g' => g'.run events := rfl
      rw [hstep]
      obtain ⟨g', hok, hg'⟩ | ⟨size, hmpi, hlen, herr⟩ := h.step (he e List.mem_cons_self)
      · rw [hok]
        obtain ⟨g'', hok', hg''⟩ | ⟨size, hmpi, hlen, herr⟩ :=
          ih hg'.consistent fun e' he' => he e' (List.mem_cons_of_mem e he')
        · exact .inl ⟨g'', hok', hg'.trans hg''⟩
        · exact .inr ⟨size, hg'.mpiSize ▸ hmpi, hlen, herr⟩
      · exact .inr ⟨size, hmpi, hlen, by rw [herr]; rfl⟩

/-- No frame is corrupt and no payload missing, and what a peer passed on is
a front part of what was sent to it, in order, with the sizes of the frames.
The one way for a run to end early is a payload that outgrows the MPI buffer. -/
def Faithful (mpiSize : Nat) : Except Abort Channels → Prop
  | .ok g => g.withoutPayload = 0 ∧
      ∀ peer, g.delivered peer <+: (g.sent peer).map Serialized.framed
  | .error (.payloadExceedsMpiBuffer size) => 1 < mpiSize ∧ mpiPayloadLimit < size
  | .error (.corruptFrame ..) => False

/-- **Framing is a faithful ordered channel.**  Every link has addresses of its
own, so the peers of a node are distinct. -/
theorem faithful_run (mpiSize : Nat) {peers : List Ipv4Address} (hpeers : peers.Nodup)
    {events : List Event} (he : ∀ e ∈ events, e.Framable) :
    Faithful mpiSize ((init mpiSize peers).run events) := by
  have hinit := consistent_init mpiSize hpeers
  have hmpiSize : (init mpiSize peers).transport.mpiSize = mpiSize := mpiSize_opened peers _
  obtain ⟨g, hok, hg⟩ | ⟨size, hmpi, hlen, herr⟩ := hinit.run he
  · rw [hok]
    refine ⟨hg.consistent.intact, fun peer => ?_⟩
    exact (hg.steps peer).ordered Fifo.ordered_empty
  · rw [herr]
    exact ⟨hmpiSize ▸ hmpi, hlen⟩

/-- A payload that its frame holds and one that it does not, the first sent
before the connection is there; TCP and the peer cut the stream in pieces. -/
def exchange : List Event :=
  [.sendSerialized 7 { serialized := [1, 2], wireBytes := 20 } [],
   .connectionSucceeded 0 [[{ available := 5 }]],
   .sendSerialized 7 { serialized := [3, 4, 5], wireBytes := 0 } [{ available := 3 }],
   .read 0 [4, 9],
   .sendReady 0 (List.replicate 6 { available := 11 }),
   .read 0 [6, 7, 1, 2, 40]]

theorem framable_exchange : ∀ e ∈ exchange, e.Framable := by
  simp only [exchange, List.forall_mem_cons]
  exact ⟨⟨by decide, by decide⟩, trivial, ⟨by decide, by decide⟩, trivial, trivial, trivial,
    by simp⟩

/-- The theorem for that exchange, at whose end both payloads have arrived. -/
theorem faithful_exchange : Faithful 1 ((init 1 [7]).run exchange) ∧
    ((init 1 [7]).run exchange).toOption.map (fun g => g.delivered 7)
      = some [{ serialized := [1, 2], wireBytes := 20 },
          { serialized := [3, 4, 5], wireBytes := 17 }] :=
  ⟨faithful_run 1 (by decide) framable_exchange, by decide +kernel⟩

end Channels

end GhostDag
