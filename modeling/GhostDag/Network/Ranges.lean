import GhostDag.Network.Convergence
import GhostDag.Network.Transactions
import GhostDag.Node.Ranges

/-!
# GhostDag.Network.Ranges

Every message that is sent can be written down: the numbers in it stay within
their C++ types (`Ranged`), if the fees that are drawn do and the times are
doubles.
-/

namespace GhostDag

open Std (ExtTreeMap ExtTreeSet)
open Containers Blockchain

/-- The fees in an action are those of a `uint32_t`. -/
def Action.InRange {ι : Type} : Action ι → Prop
  | .deliver _ _ draw => ∀ t, draw t < 2 ^ 32
  | .generate _ fee => fee < 2 ^ 32
  | _ => True

namespace Network

variable {ι : Type} {setup : Setup ι} {g g' : Network ι}

/-- **All numbers are in range.** -/
structure Ranged (g : Network ι) : Prop where
  nodes : ∀ i, (g.nodes i).Within (· < 2 ^ 64)
  fees : ∀ i, (g.nodes i).mempool.FeesInRange
  created : ∀ m ∈ g.created, (encodeBlock m).InRange
  sent : ∀ e ∈ g.sent, e.msg.InRange

theorem ranged_init (setup : Setup ι) : Ranged (init setup) where
  nodes _ := Node.within_init _ _
  fees _ := Mempool.feesInRange_init _
  created _ hm := absurd hm List.not_mem_nil
  sent _ he := absurd he List.not_mem_nil

theorem inRange_genesis : (encodeBlock genesis).InRange where
  blockId := by decide
  minerId := by decide
  timeCreated := ⟨0, by decide, by decide, by decide +kernel⟩
  parentHashes _ hp := absurd hp List.not_mem_nil
  transactions _ htx := absurd htx (by simp [encodeBlock, genesis, TxSet.list])

/-- A held block has an id in range. -/
theorem Consistent.lt_of_held (h : Consistent setup g)
    (hcreated : ∀ m ∈ g.created, (encodeBlock m).InRange) {i : ι} {id : ℕ}
    (hheld : (g.nodes i).blockchain.Held id) : id < 2 ^ 64 := by
  obtain rfl | hmem := h.eq_zero_or_created hheld
  · exact Nat.two_pow_pos 64
  · obtain ⟨m, hm, rfl⟩ := List.mem_map.mp hmem
    exact (hcreated m hm).blockId

/-- What an event brings is in range. -/
theorem Ranged.carried (h : Ranged g) (hc : Consistent setup g) {a : Action ι} (ha : a.InRange)
    {i : ι} {store : BlockBodyStore} {e : Node.Event} (hev : event setup g a = some (i, store, e)) :
    (∀ t ∈ e.txIds, t < 2 ^ 64) ∧ e.FeesInRange := by
  have hnone : ∀ {l : List ℕ}, l = [] → ∀ t ∈ l, t < 2 ^ 64 := by
    rintro _ rfl t ht
    exact absurd ht List.not_mem_nil
  cases a with
  | deliver index j draw =>
      have hblock := fun b peer (heq : e = .handleBlock b peer) => hc.block_cases (heq ▸ hev)
      obtain ⟨_, _, env, heq, henv, -, hmsg⟩ | ⟨hno, -⟩ := event_cases hev
      · obtain ⟨rfl, rfl, rfl⟩ := Action.deliver.inj heq
        have hsent := h.sent env (List.mem_of_getElem? henv)
        cases hm : env.msg with
        | block w =>
            rw [hm] at hmsg
            cases hmsg
            refine ⟨fun t ht => ?_, trivial⟩
            obtain ⟨tx, htx, rfl⟩ := List.mem_map.mp ht
            obtain ⟨-, -, hempty⟩ | ⟨m, hmc, hbody⟩ := hblock _ _ rfl
            · rw [hempty] at htx
              exact absurd htx (by simp [TxSet.list])
            · rw [hbody.txs] at htx
              exact ((h.created m hmc).transactions tx htx).txId
        | transactions txs =>
            rw [hm] at hmsg hsent
            cases hmsg
            refine ⟨fun t ht => ?_, ha, fun tx htx => (hsent tx htx).fee⟩
            obtain ⟨tx, htx, rfl⟩ := List.mem_map.mp ht
            exact (hsent tx htx).txId
        | invTransactions txIds =>
            rw [hm] at hmsg hsent
            cases hmsg
            exact ⟨hsent, trivial⟩
        | reqTransactions txIds =>
            rw [hm] at hmsg hsent
            cases hmsg
            exact ⟨hsent, trivial⟩
        | _ =>
            rw [hm] at hmsg
            cases hmsg
            exact ⟨hnone rfl, trivial⟩
      · exact absurd rfl (hno index j draw)
  | generate j fee =>
      cases hev
      exact ⟨hnone rfl, ha⟩
  | mine j pick =>
      rw [event] at hev
      split at hev
      · cases hev
        exact ⟨hnone rfl, trivial⟩
      · exact absurd hev.symm (Option.some_ne_none _)
  | _ =>
      cases hev
      exact ⟨hnone rfl, trivial⟩

/-- A new block is in range, at a time that is a double. -/
theorem Ranged.created_by (h : Ranged g) (ha : Authentic setup g) (hc : Consistent setup g)
    {now : ℚ} (hnow : BinaryFormat.double.Represents now) {a : Action ι} {i : ι}
    {store : BlockBodyStore} {e : Node.Event} (hev : event setup g a = some (i, store, e)) :
    ∀ m ∈ createdBy (setup.config i) now store (g.nodes i) e, (encodeBlock m).InRange := by
  cases e with
  | mineBlock pick =>
      intro m hm
      obtain ⟨-, hproper⟩ := hc.event hev
      have hfrom := Node.fromPool_selectTransactions (ha.pool i).pool.wf pick
      have hnot := hc.minedId_notMem_store hev
      rw [createdBy, List.mem_singleton, BlockBodyStore.intern,
        getElem?_eq_none_of_notMem hnot] at hm
      subst hm
      exact {
        blockId := Node.minedId_lt hproper
        minerId := Node.minerId_lt _
        timeCreated := hnow
        parentHashes := fun p hp =>
          hc.lt_of_held h.created (.inl ((hc.chain i).mem_blocks_of_mem_tips (ExtTreeSet.mem_toList.mp hp)))
        transactions := fun tx htx => (hfrom tx htx).inRange (h.fees i) (h.nodes i).pool }
  | _ => exact fun m hm => absurd hm List.not_mem_nil

/-! ## runs -/

variable [DecidableEq ι]

/-- **One action.** -/
theorem Ranged.step (h : Ranged g) (ha : Authentic setup g) (hc : Consistent setup g)
    (hgossip' : Gossip setup g') {now : ℚ} (hnow : BinaryFormat.double.Represents now)
    {a : Action ι} (hact : a.InRange) (hrun : step setup g now a = some g') : Ranged g' := by
  have hc' := hc.step hrun
  obtain ⟨i, store, e, r, hev, hstep, rfl⟩ := step_cases hrun
  obtain ⟨hids, hfees⟩ := h.carried hc hact hev
  have hown := ha.own hc hev
  have hnext : ∀ fee, e = .generateTransaction fee →
      r.2.1.txsGenerated = (g.nodes i).txsGenerated + 1 → (g.nodes i).txsGenerated + 1 < 2 ^ 31 →
      Node.nextTxId (setup.config i) (g.nodes i) < 2 ^ 64 :=
    fun _ _ _ hlt => Node.nextTxId_lt (by omega)
  obtain ⟨hwithin, hsends⟩ :=
    Node.within_step (h.nodes i) (ha.pool i) hids hown hnext hstep
  have hcreated : ∀ m ∈ (happened setup now g i store e r).created, (encodeBlock m).InRange := by
    intro m hm
    obtain hm | hm := List.mem_append.mp hm
    · exact h.created m hm
    · exact h.created_by ha hc hnow hev m hm
  constructor
  case nodes =>
    exact forall_happened (P := fun _ n => n.Within (· < 2 ^ 64)) hwithin fun j _ => h.nodes j
  case fees =>
    exact forall_happened (P := fun _ n => n.mempool.FeesInRange)
      (Node.feesInRange_step (h.fees i) (ha.pool i) hfees hown hstep) fun j _ => h.fees j
  case created => exact hcreated
  case sent =>
    intro env henv
    obtain henv' | ⟨⟨peer, msg⟩, hs, rfl⟩ := mem_happened_sent.mp henv
    · exact h.sent env henv'
    · have hids' := hsends _ hs
      cases msg with
      | invRelayBlock id => exact hc'.lt_of_held hcreated (hgossip'.inv _ henv id rfl)
      | reqRelayBlock id =>
          obtain ⟨k, -, hk⟩ := hgossip'.req _ henv id rfl
          exact hc'.lt_of_held hcreated hk
      | block w =>
          obtain rfl | ⟨m, hm, rfl⟩ := hc'.sent _ henv w rfl
          · exact inRange_genesis
          · exact hcreated m hm
      | invTransactions txIds => exact hids'.resolve_left fun ⟨_, hw⟩ => by cases hw
      | reqTransactions txIds => exact hids'.resolve_left fun ⟨_, hw⟩ => by cases hw
      | transactions txs =>
          exact fun tx htx => (Node.fromPool_of_sends hstep hs tx htx).inRange (h.fees i) (h.nodes i).pool

/-- **In every run.** -/
theorem ranged_run {actions : List (ℚ × Action ι)} (hrun : run setup actions = some g)
    (hactions : ∀ a ∈ actions, BinaryFormat.double.Represents a.1 ∧ a.2.InRange) : Ranged g := by
  induction actions using List.reverseRecOn generalizing g with
  | nil =>
      obtain rfl := Option.some.inj hrun
      exact ranged_init setup
  | append_singleton actions a ih =>
      obtain ⟨now, a⟩ := a
      obtain ⟨g₀, hrun₀, hstep⟩ := run_append.mp hrun
      have hreach := reachable_run hrun₀
      obtain ⟨hnow, ha⟩ := hactions _ (List.mem_append_right _ (List.mem_singleton_self _))
      exact (ih hrun₀ fun b hb => hactions b (List.mem_append_left _ hb)).step hreach.authentic
        hreach.consistent (hreach.step hstep).gossip hnow ha hstep

end Network

end GhostDag
