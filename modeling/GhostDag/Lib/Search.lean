import GhostDag.Lib.Containers

/-!
# GhostDag.Lib.Search

Breadth-first search with a queue and a set of seen nodes.  Over a finite
universe that the successors never leave, the loop ends within one round per
node, and what it has seen then is what the start reaches (`exists_loop`).
-/

namespace Search

open Std (ExtTreeSet)
open Containers

variable {α : Type*} [LinearOrder α]

/-- One successor of the dequeued node: seen and queued unless already seen. -/
def visit (st : ExtTreeSet α × List α) (c : α) : ExtTreeSet α × List α :=
  if st.1.contains c then st else (st.1.insert c, st.2 ++ [c])

/-- The loop. -/
def loop (succs : α → List α) : ℕ → ExtTreeSet α → List α → Option (ExtTreeSet α)
  | 0, _, _ => none
  | _ + 1, seen, [] => some seen
  | fuel + 1, seen, cur :: q =>
      let st := (succs cur).foldl visit (seen, q)
      loop succs fuel st.1 st.2

/-- Visiting a list appends its unseen nodes to the queue, each once. -/
theorem exists_foldl_visit (cs : List α) (seen : ExtTreeSet α) (q : List α) :
    ∃ new, (cs.foldl visit (seen, q)).2 = q ++ new ∧ new.Nodup ∧
      (∀ x, x ∈ new ↔ x ∈ cs ∧ x ∉ seen) ∧
      ∀ x, x ∈ (cs.foldl visit (seen, q)).1 ↔ x ∈ seen ∨ x ∈ new := by
  induction cs generalizing seen q with
  | nil => exact ⟨[], by simp⟩
  | cons c cs ih =>
      rw [List.foldl_cons, visit]
      split
      · next hc =>
          obtain ⟨new, hq, hnd, hnew, hseen⟩ := ih seen q
          have hc : c ∈ seen := ExtTreeSet.contains_iff_mem.mp hc
          refine ⟨new, hq, hnd, fun x => ?_, hseen⟩
          rw [hnew, List.mem_cons]
          constructor
          · exact fun h => ⟨.inr h.1, h.2⟩
          · rintro ⟨rfl | hx, hno⟩
            · exact absurd hc hno
            · exact ⟨hx, hno⟩
      · next hc =>
          obtain ⟨new, hq, hnd, hnew, hseen⟩ := ih (seen.insert c) (q ++ [c])
          have hc : c ∉ seen := fun h => hc (ExtTreeSet.contains_iff_mem.mpr h)
          refine ⟨c :: new, ?_, List.nodup_cons.mpr ⟨?_, hnd⟩, fun x => ?_, fun x => ?_⟩
          · rw [hq, List.append_assoc]
            rfl
          · exact fun h => ((hnew c).mp h).2 (mem_set_insert.mpr (.inl rfl))
          · rw [List.mem_cons, hnew, mem_set_insert, List.mem_cons, not_or]
            by_cases hx : x = c
            · subst hx
              simp [hc]
            · simp [hx]
          · rw [hseen, mem_set_insert, List.mem_cons]
            tauto

section
variable (succs : α → List α) (U : Finset α) (start : List α)

/-- State of the loop: everything seen is finished or waiting, reached from
the start, and what the finished nodes lead to has been seen. -/
structure Inv (seen : ExtTreeSet α) (done q : List α) : Prop where
  nodup : (done ++ q).Nodup
  mem_seen : ∀ x, x ∈ seen ↔ x ∈ done ++ q
  bounded : ∀ x ∈ done ++ q, x ∈ U
  reached : ∀ x ∈ done ++ q, ∃ b ∈ start, Relation.ReflTransGen (fun x y => y ∈ succs x) b x
  start : ∀ b ∈ start, b ∈ done ++ q
  closed : ∀ x ∈ done, ∀ c ∈ succs x, c ∈ done ++ q

variable {succs U start}

/-- **One round keeps the invariant.** -/
theorem Inv.step (hU : ∀ x ∈ U, ∀ c ∈ succs x, c ∈ U) {seen : ExtTreeSet α} {done q : List α}
    {cur : α} (h : Inv succs U start seen done (cur :: q)) :
    Inv succs U start ((succs cur).foldl visit (seen, q)).1 (done ++ [cur])
      ((succs cur).foldl visit (seen, q)).2 := by
  obtain ⟨new, hq, hnd, hnew, hseen⟩ := exists_foldl_visit (succs cur) seen q
  have hsplit : (done ++ [cur]) ++ (q ++ new) = (done ++ cur :: q) ++ new := by simp
  have hcur : cur ∈ done ++ cur :: q := List.mem_append_right _ List.mem_cons_self
  rw [hq]
  constructor
  · rw [hsplit, List.nodup_append]
    refine ⟨h.nodup, hnd, fun a ha b hb hab => ?_⟩
    exact ((hnew b).mp hb).2 ((h.mem_seen b).mpr (hab ▸ ha))
  · intro x
    rw [hseen, h.mem_seen, hsplit, List.mem_append (s := done ++ cur :: q)]
  · intro x hx
    rw [hsplit, List.mem_append] at hx
    obtain hx | hx := hx
    · exact h.bounded x hx
    · exact hU cur (h.bounded cur hcur) x ((hnew x).mp hx).1
  · intro x hx
    rw [hsplit, List.mem_append] at hx
    obtain hx | hx := hx
    · exact h.reached x hx
    · obtain ⟨b, hb, hreach⟩ := h.reached cur hcur
      exact ⟨b, hb, hreach.tail ((hnew x).mp hx).1⟩
  · intro b hb
    rw [hsplit]
    exact List.mem_append_left _ (h.start b hb)
  · intro x hx c hc
    rw [hsplit]
    obtain hx | hx := List.mem_append.mp hx
    · exact List.mem_append_left _ (h.closed x hx c hc)
    · rw [List.mem_singleton.mp hx] at hc
      by_cases hcs : c ∈ seen
      · exact List.mem_append_left _ ((h.mem_seen c).mp hcs)
      · exact List.mem_append_right _ ((hnew c).mpr ⟨hc, hcs⟩)

/-- **The search ends and finds what the start reaches.** -/
theorem exists_loop (hU : ∀ x ∈ U, ∀ c ∈ succs x, c ∈ U) (fuel : ℕ) (seen : ExtTreeSet α)
    (done q : List α) (h : Inv succs U start seen done q) (hfuel : U.card < done.length + fuel) :
    ∃ out, loop succs fuel seen q = some out ∧
      ∀ a, a ∈ out ↔ ∃ b ∈ start, Relation.ReflTransGen (fun x y => y ∈ succs x) b a := by
  induction fuel generalizing seen done q with
  | zero =>
      have hle : (done ++ q).length ≤ U.card := by
        rw [← List.toFinset_card_of_nodup h.nodup]
        exact Finset.card_le_card fun x hx => h.bounded x (List.mem_toFinset.mp hx)
      rw [List.length_append] at hle
      omega
  | succ fuel ih =>
      cases q with
      | nil =>
          refine ⟨seen, rfl, fun a => ?_⟩
          rw [h.mem_seen]
          refine ⟨h.reached a, ?_⟩
          rintro ⟨b, hb, hreach⟩
          induction hreach with
          | refl => exact h.start b hb
          | tail _ hc ih => exact h.closed _ (by simpa using ih) _ hc
      | cons cur q =>
          have hlen : U.card < (done ++ [cur]).length + fuel := by
            rw [List.length_append, List.length_singleton]
            omega
          exact ih _ _ _ (h.step hU) hlen

end

end Search
