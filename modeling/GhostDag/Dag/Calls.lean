import GhostDag.Dag.Sound

/-!
# GhostDag.Dag.Calls

The calls of `AddBlock` that a call of `AddBlock` makes, through
`ProcessOrphans`, at any depth.  Each of them names a block that the chain
holds neither as accepted nor as an orphan at that moment, provided the
outermost one does (`Sound.fresh_of_calls`).
-/

namespace GhostDag

open Std (ExtTreeMap ExtTreeSet)
open Containers

namespace Blockchain

/-- `ProcessOrphans` on `s` makes a full round, with progress, and goes on
with `s'`. -/
def Round (s s' : Blockchain) : Prop :=
  s.readyOrphans.foldlM (releaseOne addBlock) (s, false) = some (s', true)

/-- A chain and a block, the arguments of a call of `AddBlock`. -/
abbrev Call := Blockchain × Block

/-- The first call calls the second one directly: it inserts its block, makes
some rounds, and within the next one comes to the orphan. -/
inductive CallsDirectly : Call → Call → Prop
  | intro {s s₁ s₂ s₃ : Blockchain} {nb ob : Block} {l l' : List Nat} {oid : Nat}
      {progress : Bool} : s.canAdd nb = true → s.insertBlock nb = some s₁ →
      Relation.ReflTransGen Round s₁ s₂ → s₂.readyOrphans = l ++ oid :: l' →
      l.foldlM (releaseOne addBlock) (s₂, false) = some (s₃, progress) →
      s₃.orphans[oid]? = some ob → CallsDirectly (s, nb) (s₃.eraseOrphan oid, ob)

/-- The calls that a call makes, itself included. -/
def Calls : Call → Call → Prop := Relation.ReflTransGen CallsDirectly

end Blockchain

open Blockchain

variable {d : Delivery} {ids : Finset ℕ} {s s' : Blockchain} {nb : Block}

/-- The block of the call is held nowhere yet. -/
def Fresh (call : Call) : Prop := call.2.id ∉ call.1.blocks ∧ call.2.id ∉ call.1.orphans

namespace Holding

theorem addsUpTo (d : Delivery) (n : ℕ) : AddsUpTo d n addBlock := by
  intro ids s nb h hsize hnb hid hcan
  exact exists_addBlockFuel (processesUpTo d s.orphans.size) h le_rfl (by omega) hnb hid hcan

/-- Some of the releasable orphans, in one round. -/
theorem exists_roundPrefix (h : Holding d ids s) {l l' : List ℕ}
    (hready : s.readyOrphans = l ++ l') :
    ∃ st, l.foldlM (releaseOne addBlock) (s, false) = some st ∧ Holding d ids st.1 := by
  have hcan : ∀ oid ∈ l, ∀ b, s.orphans[oid]? = some b → s.canAdd b = true := by
    intro oid hoid b hb
    have hmem : oid ∈ s.readyOrphans := hready ▸ List.mem_append_left l' hoid
    obtain ⟨b', hb', hcan⟩ := mem_readyOrphans.mp hmem
    rw [hb, Option.some.injEq] at hb'
    exact hb' ▸ hcan
  obtain ⟨st, hrun, hhold, -⟩ :=
    exists_round (addsUpTo d s.orphans.size) l (s, false) h (Nat.le_succ _) hcan
  exact ⟨st, hrun, hhold⟩

theorem round (h : Holding d ids s) (hround : Round s s') : Holding d ids s' := by
  obtain ⟨st, hrun, hhold⟩ := h.exists_roundPrefix (List.append_nil _).symm
  obtain rfl := Option.some.inj (hrun.symm.trans hround)
  exact hhold

theorem rounds (h : Holding d ids s) (hrounds : Relation.ReflTransGen Round s s') :
    Holding d ids s' := by
  induction hrounds with
  | refl => exact h
  | tail _ hround ih => exact ih.round hround

end Holding

/-- A call that the chain is ready for. -/
def Callable (d : Delivery) (call : Call) : Prop :=
  ∃ ids, Holding d ids call.1 ∧ call.2 ∈ d.blocks ∧ call.2.id ∉ ids

namespace Callable

theorem fresh {call : Call} (h : Callable d call) : Fresh call := by
  obtain ⟨ids, hhold, hnb, hid⟩ := h
  have hnot := mt (hhold.mem_iff call.2.id).mp (not_or.mpr ⟨d.id_ne_zero hnb, hid⟩)
  exact not_or.mp hnot

/-- **What a call calls is again a call that the chain is ready for.** -/
theorem callsDirectly {call call' : Call} (h : Callable d call)
    (hcall : CallsDirectly call call') : Callable d call' := by
  obtain ⟨ids, hhold, hnb, hid⟩ := h
  obtain ⟨hcan, hins, hrounds, hready, hfold, horph⟩ := hcall
  obtain ⟨s₁, hins', hhold₁, -⟩ := hhold.exists_insertBlock hnb hid hcan
  obtain rfl := Option.some.inj (hins'.symm.trans hins)
  obtain ⟨st, hfold', hhold₃⟩ := (hhold₁.rounds hrounds).exists_roundPrefix hready
  obtain rfl := Option.some.inj (hfold'.symm.trans hfold)
  obtain ⟨hobd, rfl⟩ := hhold₃.orphan _ _ horph
  exact ⟨_, hhold₃.eraseOrphan (mem_of_getElem? horph), hobd, Finset.notMem_erase _ _⟩

theorem calls {call call' : Call} (h : Callable d call) (hcalls : Calls call call') :
    Callable d call' := by
  induction hcalls with
  | refl => exact h
  | tail _ hcall ih => exact ih.callsDirectly hcall

end Callable

/-- **Every call of `AddBlock` below a fresh one is fresh.** -/
theorem Sound.fresh_of_calls {P : Block → Prop} (h : Sound P s) (hP : P nb)
    (hfresh : Fresh (s, nb)) {call : Call} (hcalls : Calls (s, nb) call) : Fresh call := by
  obtain ⟨d, ids, -, hhold, hnb, hids, -⟩ := h.exists_delivery hP hfresh.1 hfresh.2
  exact (Callable.calls ⟨ids, hhold, hnb, hids⟩ hcalls).fresh

end GhostDag
