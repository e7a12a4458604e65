import GhostDag.Network.Transactions

/-!
# GhostDag.Network.Eviction

Whether the transactions of blue blocks leave the pools of the network.  That
the ids are honest is no assumption here: every event that can happen to a
node is (`Reachable.honest`).  So in a run of the network no pool ever keeps a
transaction of a blue block, unless a block is mined that merges one
(`evicted_iff_mined_cleanly`).
-/

namespace GhostDag

open Std (ExtTreeMap ExtTreeSet)
open Containers Blockchain

namespace Network

variable {ι : Type} {setup : Setup ι} {g g' : Network ι}

/-- The id of a created block, under the counter of its miner. -/
theorem Consistent.own_lt (h : Consistent setup g) {i : ι} {id : ℕ}
    (hid : id = 0 ∨ id ∈ g.created.map Block.id) (hown : id / 2 ^ 32 = (setup.config i).id) :
    id % 2 ^ 32 < (g.nodes i).blockchain.nextBlockId := by
  obtain rfl | hmem := hid
  · exact h.next_pos i
  · obtain ⟨m, hm, rfl⟩ := List.mem_map.mp hmem
    obtain ⟨j, k, hmid, -, hk, hlt⟩ := h.issued m hm
    have hij : (setup.config j).id = (setup.config i).id := by omega
    obtain rfl := setup.injective hij
    have hmod : m.id % 2 ^ 32 = k := by omega
    rwa [hmod]

variable [DecidableEq ι]

/-- Parents have been created too. -/
theorem Reachable.eq_zero_or_created_of_parent (h : Reachable setup g) {m : Block}
    (hm : m ∈ g.created) {p : ℕ} (hp : p ∈ m.parents) : p = 0 ∨ p ∈ g.created.map Block.id := by
  have hacc : ∀ id, Accepted g.created id → id = 0 ∨ id ∈ g.created.map Block.id := by
    intro id hacc
    cases hacc with
    | genesis => exact .inl rfl
    | step hb => exact .inr (List.mem_map_of_mem hb)
  have hrooted := (h.rooted m hm).2
  generalize hid : m.id = id at hrooted
  cases hrooted with
  | genesis => exact absurd hid (h.consistent.id_ne_zero hm)
  | @step b hb hpar =>
      obtain rfl := h.consistent.eq_of_id_eq hb hm hid.symm
      exact hacc p (hpar p hp)

/-- **Whatever happens to a node is honest.** -/
theorem Reachable.honest (h : Reachable setup g) {a : Action ι} {i : ι} {store : BlockBodyStore}
    {e : Node.Event} (hev : event setup g a = some (i, store, e)) (now : ℚ) :
    Node.Honest (setup.config i) (g.nodes i) ⟨now, store, e⟩ := by
  have hcons := h.consistent
  have hown := h.authentic.own hcons hev
  cases e with
  | handleBlock b peer =>
      refine ⟨fun x hx hid => hcons.own_lt ?_ hid,
        fun tx htx hid => hown _ (List.mem_map_of_mem htx) hid⟩
      obtain ⟨hzero, hnil, -⟩ | ⟨m, hm, hbody⟩ := hcons.block_cases hev
      · rw [hnil, List.mem_singleton] at hx
        exact .inl (hx.trans hzero)
      · rw [hbody.id, hbody.parents] at hx
        obtain rfl | hx := List.mem_cons.mp hx
        · exact .inr (List.mem_map_of_mem hm)
        · exact h.eq_zero_or_created_of_parent hm hx
  | handleTransactions draw txs peer =>
      exact fun tx htx hid => hown _ (List.mem_map_of_mem htx) hid
  | mineBlock pick => exact ⟨(hcons.event hev).2, hcons.minedId_notMem_store hev⟩
  | _ => trivial

/-- Every node keeps its books, whatever the others do. -/
theorem Reachable.ledger (h : Reachable setup g) (i : ι) :
    Node.Ledger (setup.config i) (g.nodes i) := by
  induction h generalizing i with
  | init => exact Node.ledger_init _
  | @step g g' now a hreach hrun ih =>
      obtain ⟨j, store, e, ⟨store', n, sends⟩, hev, hstep, rfl⟩ := step_cases hrun
      exact forall_happened (P := fun i n => Node.Ledger (setup.config i) n)
        ((ih j).step (hreach.honest hev now) hstep).1 (fun k _ => ih k) i

/-! ## mining -/

/-- No pool keeps a transaction of a block that its node has coloured blue. -/
def Evicted (g : Network ι) : Prop := ∀ i, Node.BlueEvicted (g.nodes i)

/-- A block mined now leaves nothing behind in its miner's pool. -/
def MinesCleanly (setup : Setup ι) (g : Network ι) : Action ι → Prop
  | .mine i pick => Node.Clean (setup.config i) (g.nodes i) pick
  | _ => True

theorem Reachable.evicted_step (h : Reachable setup g) {now : ℚ} {a : Action ι}
    (hrun : Network.step setup g now a = some g') (hg : Evicted g) :
    Evicted g' ↔ MinesCleanly setup g a := by
  obtain ⟨j, store, e, ⟨store', n, sends⟩, hev, hstep, rfl⟩ := step_cases hrun
  obtain ⟨-, hiff⟩ := (h.ledger j).step (h.honest hev now) hstep
  have hnode : Evicted (happened setup now g j store e (store', n, sends)) ↔
      Node.BlueEvicted n := by
    constructor
    · intro hall
      have := hall j
      rwa [happened_nodes_self] at this
    · exact fun hn => forall_happened (P := fun _ n => n.BlueEvicted) hn fun i _ => hg i
  rw [hnode, hiff (hg j)]
  have hclean : (∃ pick, e = .mineBlock pick ∧ a = .mine j pick) ∨
      (∀ pick, e ≠ .mineBlock pick) ∧ ∀ i pick, a ≠ .mine i pick := by
    cases a with
    | mine i pick =>
        rw [event] at hev
        split at hev
        · cases hev
          exact .inl ⟨pick, rfl, rfl⟩
        · exact absurd hev.symm (Option.some_ne_none _)
    | deliver index i draw =>
        refine .inr ⟨fun pick heq => ?_, fun _ _ heq => by cases heq⟩
        obtain ⟨_, _, env, -, -, -, hmsg⟩ | ⟨hno, -⟩ := event_cases hev
        · subst heq
          cases hm : env.msg <;> rw [hm] at hmsg <;> cases hmsg
        · exact hno index i draw rfl
    | _ =>
        cases hev
        exact .inr ⟨(fun _ heq => by cases heq), fun _ _ heq => by cases heq⟩
  obtain ⟨pick, rfl, rfl⟩ | ⟨he, ha⟩ := hclean
  · exact Iff.rfl
  · have hl : Node.CleanAt (setup.config j) (g.nodes j) ⟨now, store, e⟩ := by
      cases e with
      | mineBlock pick => exact absurd rfl (he pick)
      | _ => trivial
    have hr : MinesCleanly setup g a := by
      cases a with
      | mine i pick => exact absurd rfl (ha i pick)
      | _ => trivial
    exact iff_of_true hl hr

/-- **In a run of the network, from its start, no pool ever keeps a blue
block's transaction exactly when every block is mined cleanly.** -/
theorem evicted_iff_mined_cleanly {actions : List (ℚ × Action ι)}
    (hrun : run setup actions = some g) :
    (∀ past g₁, past <+: actions → run setup past = some g₁ → Evicted g₁) ↔
      ∀ past now a g₁, past ++ [(now, a)] <+: actions → run setup past = some g₁ →
        MinesCleanly setup g₁ a := by
  induction actions using List.reverseRecOn generalizing g with
  | nil =>
      constructor
      · intro _ past now a g₁ hpast
        exact absurd (List.prefix_nil.mp hpast) (by simp)
      · intro _ past g₁ hpast hg₁
        obtain rfl := List.prefix_nil.mp hpast
        obtain rfl := Option.some.inj hg₁
        exact fun i => Node.blueEvicted_init _
  | append_singleton actions x ih =>
      obtain ⟨now, a⟩ := x
      obtain ⟨g₀, hrun₀, hstep⟩ := run_append.mp hrun
      have hiff := fun hg => (reachable_run hrun₀).evicted_step hstep hg
      have ih := ih hrun₀
      constructor
      · intro hall past now' a' g₁ hpast hg₁
        have hbefore := ih.mp fun past g₁ hpast => hall past g₁ (hpast.trans (List.prefix_append _ _))
        obtain heq | hpast := List.prefix_concat_iff.mp hpast
        · obtain ⟨rfl, hx⟩ := List.append_inj' heq rfl
          obtain ⟨rfl, rfl⟩ := Prod.mk.inj (List.cons.inj hx).1
          obtain rfl := Option.some.inj (hrun₀.symm.trans hg₁)
          exact (hiff (hall _ _ (List.prefix_append _ _) hrun₀)).mp (hall _ _ List.prefix_rfl hrun)
        · exact hbefore past now' a' g₁ hpast hg₁
      · intro hclean past g₁ hpast hg₁
        have hbefore := ih.mpr fun past now' a' g₁ hpast =>
          hclean past now' a' g₁ (hpast.trans (List.prefix_append _ _))
        obtain rfl | hpast := List.prefix_concat_iff.mp hpast
        · obtain rfl := Option.some.inj (hrun.symm.trans hg₁)
          exact (hiff (hbefore _ _ List.prefix_rfl hrun₀)).mpr
            (hclean _ _ _ _ List.prefix_rfl hrun₀)
        · exact hbefore past g₁ hpast hg₁

/-- The theorem for the exchange of a block. -/
theorem evicted_iff_timed : ∃ g, run pair timedActions = some g ∧
    ((∀ past g₁, past <+: timedActions → run pair past = some g₁ → Evicted g₁) ↔
      ∀ past now a g₁, past ++ [(now, a)] <+: timedActions → run pair past = some g₁ →
        MinesCleanly pair g₁ a) := by
  obtain ⟨g, hrun, -⟩ := exists_run_timed
  exact ⟨g, hrun, evicted_iff_mined_cleanly hrun⟩

end Network

end GhostDag
