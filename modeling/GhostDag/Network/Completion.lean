import GhostDag.Network.Convergence
import GhostDag.Network.Progress
import GhostDag.Network.Quiescence

/-!
# GhostDag.Network.Completion

Any run of the network can be brought to an end by delivering what is under
way, in any order: there are only so many deliveries to make, none of them
gets stuck, and when none is left all nodes have the whole DAG
(`Draining.completes`).
-/

namespace GhostDag

namespace Network

variable {ι : Type} {setup : Setup ι} {g g' : Network ι} {actions rest : List (ℚ × Action ι)}

/-- A message has been sent to a node, and not delivered there. -/
structure Outstanding (setup : Setup ι) (actions : List (ℚ × Action ι)) (g : Network ι)
    (index : ℕ) (i : ι) : Prop where
  sent : ∃ env, g.sent[index]? = some env ∧ env.recipient = setup.address i
  undelivered : ¬ Delivered actions index i

theorem drained_of_not_outstanding (h : ∀ index i, ¬ Outstanding setup actions g index i) :
    Drained setup actions g := by
  intro index env i henv haddr
  by_contra hnot
  exact h index i ⟨⟨env, henv, haddr⟩, hnot⟩

theorem Delivered.append {index : ℕ} {i : ι} (h : Delivered actions index i)
    (rest : List (ℚ × Action ι)) : Delivered (actions ++ rest) index i := by
  obtain ⟨now, draw, hmem⟩ := h
  exact ⟨now, draw, List.mem_append_left rest hmem⟩

variable [DecidableEq ι]

/-- After the run `actions`, the run `rest` delivers messages where they have
not been delivered, and does nothing else. -/
inductive Draining (setup : Setup ι) (actions : List (ℚ × Action ι)) (g : Network ι) :
    List (ℚ × Action ι) → Network ι → Prop
  | refl : Draining setup actions g [] g
  | deliver {rest : List (ℚ × Action ι)} {g' g'' : Network ι} {now : ℚ} {index : ℕ} {i : ι}
      {draw : ℕ → ℕ} :
      Draining setup actions g rest g' → ¬ Delivered (actions ++ rest) index i →
      step setup g' now (.deliver index i draw) = some g'' →
      Draining setup actions g (rest ++ [(now, .deliver index i draw)]) g''

/-- What is true of such a run: it is not longer than a bound that its first
state sets, whatever is outstanding can be delivered next, and when nothing is
outstanding the nodes have converged, on the blocks that there were before. -/
structure Completes [Fintype ι] (setup : Setup ι) (actions : List (ℚ × Action ι)) (g : Network ι)
    (rest : List (ℚ × Action ι)) (g' : Network ι) : Prop where
  bounded : rest.length ≤ bound setup g
  continues : ∀ index i, Outstanding setup (actions ++ rest) g' index i → ∀ now draw,
    ∃ g'', step setup g' now (.deliver index i draw) = some g''
  converged : (∀ index i, ¬ Outstanding setup (actions ++ rest) g' index i) →
    g'.created = g.created ∧ Converged setup g'

namespace Draining

theorem run (h : Draining setup actions g rest g') (hrun : Network.run setup actions = some g) :
    Network.run setup (actions ++ rest) = some g' := by
  induction h with
  | refl => rwa [List.append_nil]
  | deliver _ _ hstep ih =>
      rw [← List.append_assoc]
      exact run_append.mpr ⟨_, ih, hstep⟩

/-- Deliveries create no block. -/
theorem created (h : Draining setup actions g rest g') : g'.created = g.created := by
  induction h with
  | refl => rfl
  | deliver _ _ hstep ih => exact (created_deliver hstep).trans ih

/-- **No message is delivered twice**, as each has one recipient. -/
theorem deliveries (h : Draining setup actions g rest g')
    (hinj : Function.Injective setup.address) (hrun : Network.run setup actions = some g) :
    ∃ done, Deliveries setup g done g' ∧ done.card = rest.length ∧
      ∀ index ∈ done, ∃ i, Delivered (actions ++ rest) index i := by
  induction h with
  | refl => exact ⟨∅, .refl, rfl, fun _ hindex => absurd hindex (Finset.notMem_empty _)⟩
  | @deliver rest g' g'' now index i draw hrest hnew hstep ih =>
      obtain ⟨done, hdone, hcard, hdelivered⟩ := ih
      have hindex : index ∉ done := by
        intro hmem
        obtain ⟨j, hj⟩ := hdelivered index hmem
        obtain ⟨env, henv, haddr, -⟩ := handled_of_delivered hinj (hrest.run hrun) hj
        obtain ⟨k, store, e, r, hev, -, -⟩ := step_cases hstep
        obtain ⟨_, _, env', ha, henv', haddr', -⟩ | ⟨hno, -⟩ := event_cases hev
        · obtain ⟨rfl, rfl, rfl⟩ := Action.deliver.inj ha
          cases Option.some.inj (henv'.symm.trans henv)
          exact hnew (hinj (haddr.symm.trans haddr') ▸ hj)
        · exact hno index i draw rfl
      refine ⟨insert index done, hdone.deliver hindex hstep, ?_, fun k hk => ?_⟩
      · rw [Finset.card_insert_of_notMem hindex, hcard, List.length_append]
        rfl
      · rw [← List.append_assoc]
        obtain rfl | hk := Finset.mem_insert.mp hk
        · exact ⟨i, now, draw, List.mem_append_right _ (List.mem_singleton_self _)⟩
        · obtain ⟨j, hj⟩ := hdelivered k hk
          exact ⟨j, hj.append _⟩

/-- **The network converges, in any order of delivery**: from whatever state a
run has reached, delivering what is outstanding comes to an end, and all nodes
have the whole DAG then. -/
theorem completes [Fintype ι] (hc : Connected setup)
    (hids : ∀ i, (setup.config i).id ≠ 2 ^ 32 - 1) (hrun : Network.run setup actions = some g)
    (h : Draining setup actions g rest g') : Completes setup actions g rest g' := by
  have hrun' := h.run hrun
  have hreach := reachable_run hrun'
  exact {
    bounded := by
      obtain ⟨done, hdone, hcard, -⟩ := h.deliveries hc.injective hrun
      obtain ⟨-, -, hspent⟩ := hdone.spent (reachable_run hrun)
      omega
    continues := by
      intro index i hout now draw
      obtain ⟨env, henv, haddr⟩ := hout.sent
      exact hreach.exists_deliver hids henv haddr now draw
    converged := fun hnone => ⟨h.created, hreach.converged
      (mem_blocks_of_drained hc hrun' (drained_of_not_outstanding hnone))⟩ }

/-- The theorem for a block that has just been mined: three deliveries, and
nothing is outstanding. -/
theorem completes_pair : ∃ g rest g', Draining pair [(0, .mine false fun _ => (0, 0))] g rest g' ∧
    3 ≤ bound pair g ∧ Converged pair g' := by
  obtain ⟨g₃, hrun₃, -⟩ := exists_run_timed
  have hdrained := drained_timed hrun₃
  have hsplit : timedActions = (([(0, .mine false fun _ => (0, 0))] ++ [(0, .deliver 0 true id)]) ++
      [(0, .deliver 1 false id)]) ++ [(0, .deliver 2 true id)] := rfl
  rw [hsplit] at hrun₃
  obtain ⟨g₂, hrun₂, hblock⟩ := run_append.mp hrun₃
  obtain ⟨g₁, hrun₁, hreq⟩ := run_append.mp hrun₂
  obtain ⟨g, hrun, hinv⟩ := run_append.mp hrun₁
  have h : Draining pair [(0, .mine false fun _ => (0, 0))] g _ g₃ :=
    .deliver (.deliver (.deliver .refl (by simp [Delivered]) hinv) (by simp [Delivered]) hreq)
      (by simp [Delivered]) hblock
  have hcompletes := h.completes connected_pair (by decide) hrun
  refine ⟨g, _, g₃, h, hcompletes.bounded, (hcompletes.converged fun index i hout => ?_).2⟩
  obtain ⟨env, henv, haddr⟩ := hout.sent
  exact hout.undelivered (hdrained index env i henv haddr)

end Draining

end Network

end GhostDag
