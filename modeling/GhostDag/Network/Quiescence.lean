import GhostDag.Network.Gossip

/-!
# GhostDag.Network.Quiescence

The gossip dies down: when nothing is mined or generated and no timer goes
off, only so many messages can be delivered, each once, before there are none
left (`card_le_of_deliveries`).  A message is worth more than what it brings
about: an announcement a request, and a request an answer.  Only a new block
brings about more than it is worth, and a node has only so many blocks to
come.
-/

namespace GhostDag

open Std (ExtTreeMap ExtTreeSet)
open Containers Blockchain

/-- What a message is worth: it and all that follows from it, but for the
announcements of a new block. -/
def Message.worth : Message → ℕ
  | .invRelayBlock _ | .invTransactions _ => 3
  | .reqRelayBlock _ | .reqTransactions _ => 2
  | .block _ | .transactions _ => 1

/-- The worth of messages that are sent. -/
def Sends.worth (sends : Sends) : ℕ := (sends.map fun s => s.2.worth).sum

/-! ## one message -/

namespace Node

variable {c : Config} {now : ℚ} {n : Node}

theorem worth_singleton (peer : Ipv4Address) (msg : Message) :
    Sends.worth [(peer, msg)] = msg.worth := by simp [Sends.worth]

theorem worth_broadcastInvBlock (c : Config) (id : ℕ) (exclude : Ipv4Address) :
    Sends.worth (broadcastInvBlock c id exclude) ≤ 3 * c.peersAddresses.length := by
  have hlen := List.length_filter_le (fun p => decide (p ≠ exclude)) c.peersAddresses
  rw [Sends.worth, broadcastInvBlock, List.map_map]
  have hconst : (Function.comp (fun s : Ipv4Address × Message => s.2.worth)
      fun peer => (peer, Message.invRelayBlock id)) = fun _ => 3 := rfl
  rw [hconst, List.map_const', List.sum_replicate, smul_eq_mul]
  omega

/-- A new block may be announced to every peer. -/
def allowance (c : Config) (n : Node) (event : Event) : ℕ :=
  match event with
  | .handleBlock b _ => if n.blockchain.Held b.id then 0 else 3 * c.peersAddresses.length
  | _ => 0

/-- **A message is worth more than the messages that it brings about.** -/
theorem worth_processMessage {store store' : BlockBodyStore} {draw : ℕ → ℕ} {peer : Ipv4Address}
    {msg : Message} {event : Event} {r : BlockBodyStore × Node × Sends}
    (hmsg : processMessage store draw peer msg = (store', event))
    (h : step c now store' n event = some r) :
    Sends.worth r.2.2 + 1 ≤ msg.worth + allowance c n event := by
  have hnil : Sends.worth [] = 0 := rfl
  cases msg with
  | invRelayBlock id =>
      cases hmsg
      cases h
      obtain ⟨-, heq⟩ | ⟨-, ⟨-, heq⟩ | ⟨-, heq⟩⟩ := handleInvRelayBlock_cases c now n id peer
      · rw [heq, hnil]
        exact Nat.le_of_ble_eq_true rfl
      · rw [heq, worth_singleton]
        exact Nat.le_refl 3
      · rw [heq, hnil]
        exact Nat.le_of_ble_eq_true rfl
  | reqRelayBlock id =>
      cases hmsg
      cases h
      change Sends.worth (handleReqRelayBlock n id peer) + 1 ≤ 2
      unfold handleReqRelayBlock
      split
      · rw [worth_singleton]
        exact Nat.le_refl 2
      · rw [hnil]
        exact Nat.le_of_ble_eq_true rfl
  | block w =>
      cases hmsg
      obtain ⟨r', hb, hr⟩ := Option.bind_eq_some_iff.mp h
      cases hr
      obtain ⟨hheld, rfl⟩ | ⟨hnew, known, wasBlue, chain, newly, pool, -, -, -, -, -, rfl⟩ :=
        handleBlock_cases hb
      · rw [hnil]
        exact Nat.le_add_right 1 _
      · have hnot : ¬ n.blockchain.Held (decodeBlock store w).1.id := fun hheld =>
          Bool.false_ne_true (hnew.symm.trans (Blockchain.held_iff.mpr hheld))
        have hle := worth_broadcastInvBlock c (decodeBlock store w).1.id peer
        change Sends.worth (broadcastInvBlock c (decodeBlock store w).1.id peer) + 1 ≤ 1 + _
        rw [allowance, if_neg hnot]
        omega
  | invTransactions txIds =>
      cases hmsg
      cases h
      change Sends.worth (handleInvTransactions c now n txIds peer).2 + 1 ≤ 3
      unfold handleInvTransactions
      generalize txIds.foldl (announce c now peer) (n, []) = st
      dsimp only
      split
      · rw [hnil]
        exact Nat.le_of_ble_eq_true rfl
      · rw [worth_singleton]
        exact Nat.le_refl 3
  | reqTransactions txIds =>
      cases hmsg
      cases h
      change Sends.worth (handleReqTransactions c n txIds peer) + 1 ≤ 2
      unfold handleReqTransactions
      dsimp only
      split
      · rw [hnil]
        exact Nat.le_of_ble_eq_true rfl
      · rw [worth_singleton]
        exact Nat.le_refl 2
  | transactions txs =>
      cases hmsg
      obtain ⟨m, -, hm⟩ := Option.bind_eq_some_iff.mp h
      cases hm
      rw [hnil]
      exact Nat.le_refl 1

end Node

namespace Network

variable {ι : Type} {setup : Setup ι} {g g' : Network ι}

/-! ## the worth of a state -/

/-- The worth of the messages sent that are not among `done`. -/
def remaining (g : Network ι) (done : Finset ℕ) : ℕ :=
  ∑ k ∈ Finset.range g.sent.length \ done, (g.sent[k]?.map fun e => e.msg.worth).getD 0

/-- The announcements that the nodes have yet to make of the blocks that they
do not hold. -/
def missing [Fintype ι] (setup : Setup ι) (g : Network ι) : ℕ :=
  ∑ p ∈ Finset.univ ×ˢ (g.created.map Block.id).toFinset,
    if (g.nodes p.1).blockchain.Held p.2 then 0
    else 3 * (setup.config p.1).peersAddresses.length

theorem sum_range_getElem? (new : List (Envelope ι)) :
    ∑ k ∈ Finset.range new.length, (new[k]?.map fun e => e.msg.worth).getD 0 =
      (new.map fun e => e.msg.worth).sum := by
  induction new with
  | nil => rfl
  | cons e new ih =>
      rw [List.length_cons, Finset.sum_range_succ', List.map_cons, List.sum_cons, ← ih, add_comm]
      rfl

/-- One more message is done, and others are sent. -/
theorem remaining_append {done : Finset ℕ} {new : List (Envelope ι)}
    (hsent : g'.sent = g.sent ++ new) {index : ℕ} {e : Envelope ι}
    (he : g.sent[index]? = some e) (hnew : index ∉ done)
    (hdone : done ⊆ Finset.range g.sent.length) :
    e.msg.worth + remaining g' (insert index done) =
      remaining g done + (new.map fun e => e.msg.worth).sum := by
  set f : ℕ → ℕ := fun k => (g.sent[k]?.map fun e => e.msg.worth).getD 0 with hf
  set f' : ℕ → ℕ := fun k => (g'.sent[k]?.map fun e => e.msg.worth).getD 0 with hf'
  have hlt : index < g.sent.length := (List.getElem?_eq_some_iff.mp he).1
  have hlen : g'.sent.length = g.sent.length + new.length := by rw [hsent, List.length_append]
  have hsplit : Finset.range g'.sent.length \ insert index done =
      (Finset.range g.sent.length \ done).erase index ∪
        Finset.Ico g.sent.length (g.sent.length + new.length) := by
    ext k
    have hk : k ∈ done → k < g.sent.length := fun h => Finset.mem_range.mp (hdone h)
    simp only [hlen, Finset.mem_sdiff, Finset.mem_range, Finset.mem_insert, Finset.mem_union,
      Finset.mem_erase, Finset.mem_Ico]
    by_cases hin : k ∈ done
    · have hkn := hk hin
      simp only [hin, or_true, not_true, and_false, false_or, false_iff]
      omega
    · simp only [hin, or_false, not_false_iff, and_true]
      omega
  have hdisj : Disjoint ((Finset.range g.sent.length \ done).erase index)
      (Finset.Ico g.sent.length (g.sent.length + new.length)) := by
    rw [Finset.disjoint_left]
    intro k hk hk'
    have hl := Finset.mem_range.mp (Finset.mem_sdiff.mp (Finset.mem_of_mem_erase hk)).1
    have hr := (Finset.mem_Ico.mp hk').1
    omega
  have hold : ∑ k ∈ (Finset.range g.sent.length \ done).erase index, f' k =
      ∑ k ∈ (Finset.range g.sent.length \ done).erase index, f k := by
    refine Finset.sum_congr rfl fun k hk => ?_
    have hl := Finset.mem_range.mp (Finset.mem_sdiff.mp (Finset.mem_of_mem_erase hk)).1
    simp only [hf, hf', hsent, List.getElem?_append_left hl]
  have htail : ∑ k ∈ Finset.Ico g.sent.length (g.sent.length + new.length), f' k =
      (new.map fun e => e.msg.worth).sum := by
    rw [Finset.sum_Ico_eq_sum_range, Nat.add_sub_cancel_left, ← sum_range_getElem?]
    refine Finset.sum_congr rfl fun k hk => ?_
    simp only [hf', hsent, List.getElem?_append_right (Nat.le_add_right _ _),
      Nat.add_sub_cancel_left]
  have hindex : f index = e.msg.worth := by
    simp only [hf, he, Option.map_some, Option.getD_some]
  have hmem : index ∈ Finset.range g.sent.length \ done :=
    Finset.mem_sdiff.mpr ⟨Finset.mem_range.mpr hlt, hnew⟩
  have herase := Finset.add_sum_erase (Finset.range g.sent.length \ done) f hmem
  change e.msg.worth + ∑ k ∈ _, f' k = ∑ k ∈ _, f k + _
  rw [hsplit, Finset.sum_union hdisj, hold, htail, ← herase, hindex]
  omega

/-- **A block that comes in is missing no more.** -/
theorem missing_add_allowance [Fintype ι] [DecidableEq ι] {i : ι} {store : BlockBodyStore}
    {e : Node.Event} {sends : Sends} (he : Consistent.Proper g i e) (h0 : (g.nodes i).blockchain.Held 0)
    (h : Gossiped setup g g' i store e sends) (hcreated : g'.created = g.created) :
    missing setup g' + Node.allowance (setup.config i) (g.nodes i) e ≤ missing setup g := by
  set f : ι × ℕ → ℕ := fun p => if (g.nodes p.1).blockchain.Held p.2 then 0
    else 3 * (setup.config p.1).peersAddresses.length with hf
  set f' : ι × ℕ → ℕ := fun p => if (g'.nodes p.1).blockchain.Held p.2 then 0
    else 3 * (setup.config p.1).peersAddresses.length with hf'
  set S : Finset (ι × ℕ) := Finset.univ ×ˢ (g.created.map Block.id).toFinset with hS
  have hmissing : missing setup g' = ∑ p ∈ S, f' p := by rw [missing, hcreated]
  have hle : ∀ p, f' p ≤ f p := by
    intro p
    by_cases hheld : (g.nodes p.1).blockchain.Held p.2
    · rw [hf', hf]
      simp only [if_pos hheld, if_pos (h.held p.1 p.2 hheld), le_refl]
    · rw [hf', hf]
      simp only [if_neg hheld]
      split <;> omega
  have hnone : Node.allowance (setup.config i) (g.nodes i) e = 0 →
      missing setup g' + Node.allowance (setup.config i) (g.nodes i) e ≤ missing setup g := by
    intro hzero
    rw [hzero, Nat.add_zero, hmissing]
    exact Finset.sum_le_sum fun p _ => hle p
  cases e with
  | handleBlock b peer =>
      by_cases hheld : (g.nodes i).blockchain.Held b.id
      · exact hnone (if_pos hheld)
      · have hcreatedId : b.id ∈ g.created.map Block.id := by
          obtain hzero | ⟨m, hm, hbody⟩ := he
          · exact absurd (hzero ▸ h0) hheld
          · exact List.mem_map.mpr ⟨m, hm, hbody.id.symm⟩
        have hmem : (i, b.id) ∈ S := Finset.mem_product.mpr
          ⟨Finset.mem_univ i, List.mem_toFinset.mpr hcreatedId⟩
        have hnow : f' (i, b.id) = 0 := if_pos (h.adds b.id rfl)
        have hwas : f (i, b.id) = Node.allowance (setup.config i) (g.nodes i) (.handleBlock b peer) := by
          rw [Node.allowance, if_neg hheld]
          exact if_neg hheld
        have hrest := Finset.sum_le_sum fun p (_ : p ∈ S.erase (i, b.id)) => hle p
        have hsum := Finset.add_sum_erase S f hmem
        have hsum' := Finset.add_sum_erase S f' hmem
        rw [hmissing, ← hwas]
        change _ ≤ ∑ p ∈ S, f p
        omega
  | _ => exact hnone rfl

/-! ## runs of deliveries -/

/-- Nothing but deliveries, each of a message that has not been delivered
since the beginning; `done` collects them. -/
inductive Deliveries [DecidableEq ι] (setup : Setup ι) (g : Network ι) :
    Finset ℕ → Network ι → Prop
  | refl : Deliveries setup g ∅ g
  | deliver {done : Finset ℕ} {g' g'' : Network ι} {now : ℚ} {index : ℕ} {i : ι} {draw : ℕ → ℕ} :
      Deliveries setup g done g' → index ∉ done →
      step setup g' now (.deliver index i draw) = some g'' →
      Deliveries setup g (insert index done) g''

/-- What is left to happen, at most, from a state on. -/
def bound [Fintype ι] (setup : Setup ι) (g : Network ι) : ℕ := remaining g ∅ + missing setup g

/-- The invariant of such a run. -/
theorem Deliveries.spent [Fintype ι] [DecidableEq ι] (hreach : Reachable setup g) {done : Finset ℕ}
    (h : Deliveries setup g done g') :
    Reachable setup g' ∧ done ⊆ Finset.range g'.sent.length ∧
      done.card + (remaining g' done + missing setup g') ≤ bound setup g := by
  induction h with
  | refl => exact ⟨hreach, Finset.empty_subset _, by rw [Finset.card_empty, Nat.zero_add, bound]⟩
  | @deliver done g' g'' now index i draw _ hnew hrun ih =>
      obtain ⟨hreach', hdone, hspent⟩ := ih
      have hcons := hreach'.consistent
      obtain ⟨j, store, e, sends, hev, hgossiped⟩ := hcons.gossiped hrun
      obtain ⟨j', store', e', r, hev', hstep, rfl⟩ := step_cases hrun
      cases hev.symm.trans hev'
      obtain ⟨_, _, env, ha, henv, -, hmsg⟩ | ⟨hno, -⟩ := event_cases hev
      · obtain ⟨rfl, rfl, rfl⟩ := Action.deliver.inj ha
        have hsame : (happened setup now g' i store e r).created = g'.created :=
          created_deliver hrun
        have hworth := Node.worth_processMessage hmsg hstep
        have hmissing := missing_add_allowance (hcons.event hev).2
          (.inl (hcons.chain i).zero_mem) hgossiped hsame
        have hsent : (happened setup now g' i store e r).sent =
            g'.sent ++ r.2.2.map fun s => ⟨i, s.1, s.2⟩ := rfl
        have hremaining := remaining_append hsent henv hnew hdone
        have hlt := (List.getElem?_eq_some_iff.mp henv).1
        have hlen : g'.sent.length ≤ (happened setup now g' i store e r).sent.length := by
          rw [hsent, List.length_append]
          exact Nat.le_add_right _ _
        refine ⟨hreach'.step hrun, fun k hk => ?_, ?_⟩
        · obtain rfl | hk := Finset.mem_insert.mp hk
          · exact Finset.mem_range.mpr (hlt.trans_le hlen)
          · exact Finset.mem_range.mpr ((Finset.mem_range.mp (hdone hk)).trans_le hlen)
        · rw [List.map_map] at hremaining
          change env.msg.worth + _ = _ + Sends.worth r.2.2 at hremaining
          rw [Finset.card_insert_of_notMem hnew]
          omega
      · exact absurd rfl (hno index i draw)

/-- **The gossip dies down**: with nothing mined or generated and no timer
going off, the nodes exchange at most `bound` messages, whatever the order of
delivery. -/
theorem card_le_of_deliveries [Fintype ι] [DecidableEq ι] (hreach : Reachable setup g)
    {done : Finset ℕ} (h : Deliveries setup g done g') : done.card ≤ bound setup g := by
  obtain ⟨-, -, hspent⟩ := h.spent hreach
  omega

/-- A block that has just been mined reaches the other node in three
deliveries. -/
theorem deliveries_pair : ∃ g done g', Deliveries pair g done g' ∧ done.card = 3 ∧
    done.card ≤ bound pair g := by
  obtain ⟨g', hrun, -⟩ := Option.map_eq_some_iff.mp relayed_pair
  rw [relayActions, List.foldlM_cons] at hrun
  obtain ⟨g, hmine, hrun⟩ := Option.bind_eq_some_iff.mp hrun
  rw [List.foldlM_cons] at hrun
  obtain ⟨g₁, hinv, hrun⟩ := Option.bind_eq_some_iff.mp hrun
  rw [List.foldlM_cons] at hrun
  obtain ⟨g₂, hreq, hrun⟩ := Option.bind_eq_some_iff.mp hrun
  rw [List.foldlM_cons] at hrun
  obtain ⟨g₃, hblock, -⟩ := Option.bind_eq_some_iff.mp hrun
  have hdel : Deliveries pair g {2, 1, 0} g₃ :=
    .deliver (.deliver (.deliver .refl (by decide) hinv) (by decide) hreq) (by decide) hblock
  exact ⟨g, _, g₃, hdel, rfl, card_le_of_deliveries (Reachable.init.step hmine) hdel⟩

end Network

end GhostDag
