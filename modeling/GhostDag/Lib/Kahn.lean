import GhostDag.Lib.Containers

/-!
# GhostDag.Lib.Kahn

Kahn's algorithm with in-degree counters kept in an ordered map and a
frontier whose discipline (`pick`) is a parameter: a FIFO queue, a priority
queue, any rule that takes one waiting node out.

Nodes come with *lists* of parents.  The counter of a node starts at the
number of list entries, repeated ones included, while finishing a parent
lowers it by one only.  Hence the run is always sound (`order_subset`,
`order_nodup`) and is complete when parent lists have no repetition
(`mem_order_iff`).
-/

namespace Kahn

open Std Containers

variable {α : Type*} [LinearOrder α]

/-! ## the algorithm -/

/-- Decrement of an unsigned 64-bit counter. -/
def dec (d : ℕ) : ℕ := if d = 0 then 2 ^ 64 - 1 else d - 1

/-- Account for one finished parent of `ch`: lower its counter, and let it
wait in the frontier when that reaches zero. -/
def relax (st : ExtTreeMap α ℕ × List α) (ch : α) : ExtTreeMap α ℕ × List α :=
  (st.1.insert ch (dec (st.1.getD ch 0)),
    if dec (st.1.getD ch 0) = 0 then st.2 ++ [ch] else st.2)

/-- The main loop: take a node out of the frontier, append it to the result,
account for it with its children. -/
def drain (pick : List α → Option (α × List α)) (succs : α → List α) :
    ℕ → ExtTreeMap α ℕ → List α → List α → Option (List α)
  | 0, _, _, _ => none
  | fuel + 1, indeg, q, result =>
      match pick q with
      | none => some result
      | some (cur, q') =>
          let st := (succs cur).foldl relax (indeg, q')
          drain pick succs fuel st.1 st.2 (result ++ [cur])

/-- The nodes whose counter is zero, in ascending order. -/
def sources (indeg : ExtTreeMap α ℕ) : List α :=
  (indeg.toList.filter fun e => e.2 = 0).map Prod.fst

/-- The in-degree counters over the nodes `ids`, counted by list entries. -/
def indegrees (par : α → List α) (ids : List α) : ExtTreeMap α ℕ :=
  ids.foldl (fun m b => m.insert b ((par b).countP (· ∈ ids))) ∅

/-- Kahn's algorithm over the nodes `ids`. -/
def order (pick : List α → Option (α × List α)) (par : α → List α) (ids : List α) :
    Option (List α) :=
  drain pick (fun p => ids.filter fun c => p ∈ par c) (ids.length + 1)
    (indegrees par ids) (sources (indegrees par ids)) []

/-- First in, first out. -/
def fifo : List α → Option (α × List α)
  | [] => none
  | a :: q => some (a, q)

/-- A frontier discipline takes out one waiting node whenever there is one. -/
structure Lawful (pick : List α → Option (α × List α)) : Prop where
  nil : pick [] = none
  cons : ∀ q, q ≠ [] → ∃ a q', pick q = some (a, q') ∧ List.Perm q (a :: q')

omit [LinearOrder α] in
theorem lawful_fifo : Lawful (fifo (α := α)) where
  nil := rfl
  cons q hq := by
    cases q with
    | nil => exact absurd rfl hq
    | cons a q => exact ⟨a, q, rfl, .refl _⟩

/-! ## one round -/

/-- Accounting for distinct nodes with positive counters lowers exactly
theirs, and appends those that were at one. -/
theorem foldl_relax (L : List α) (m : ExtTreeMap α ℕ) (q : List α) (hL : L.Nodup)
    (hpos : ∀ c ∈ L, 0 < m.getD c 0) :
    (∀ c, (L.foldl relax (m, q)).1.getD c 0 =
        if c ∈ L then m.getD c 0 - 1 else m.getD c 0) ∧
      (L.foldl relax (m, q)).2 = q ++ L.filter (fun c => m.getD c 0 = 1) := by
  induction L generalizing m q with
  | nil => simp
  | cons ch L ih =>
      obtain ⟨hch, hL⟩ := List.nodup_cons.mp hL
      have hd : dec (m.getD ch 0) = m.getD ch 0 - 1 := by
        have := hpos ch List.mem_cons_self
        unfold dec
        rw [if_neg (by omega)]
      have hget : ∀ c, (m.insert ch (dec (m.getD ch 0))).getD c 0 =
          if c = ch then m.getD ch 0 - 1 else m.getD c 0 := by
        intro c
        rw [ExtTreeMap.getD_insert, hd]
        simp only [Std.compare_eq_iff_eq, @eq_comm _ c ch]
      have hother : ∀ c ∈ L, (m.insert ch (dec (m.getD ch 0))).getD c 0 = m.getD c 0 := by
        intro c hc
        have hne : c ≠ ch := by rintro rfl; exact hch hc
        rw [hget, if_neg hne]
      rw [List.foldl_cons, relax]
      obtain ⟨h1, h2⟩ := ih (m.insert ch (dec (m.getD ch 0)))
        (if dec (m.getD ch 0) = 0 then q ++ [ch] else q) hL
        (fun c hc => by rw [hother c hc]; exact hpos c (List.mem_cons_of_mem _ hc))
      constructor
      · intro c
        rw [h1 c, hget]
        by_cases hc : c = ch
        · subst hc; simp [hch]
        · simp [hc]
      · rw [h2, List.filter_congr (q := fun c => decide (m.getD c 0 = 1))
          (fun c hc => by rw [hother c hc])]
        have hone : dec (m.getD ch 0) = 0 ↔ m.getD ch 0 = 1 := by
          have := hpos ch List.mem_cons_self
          rw [hd]; omega
        by_cases h : m.getD ch 0 = 1
        · rw [if_pos (hone.mpr h), List.filter_cons_of_pos (by simpa using h), List.append_assoc]
          rfl
        · rw [if_neg (mt hone.mp h), List.filter_cons_of_neg (by simpa using h)]

/-- Distinct members of a set that are entries of a list number at most the
list's entries in the set. -/
theorem countP_mem_le {S : Finset α} {l p : List α} (hl : l.Nodup) (hS : ∀ x ∈ l, x ∈ S) :
    l.countP (· ∈ p) ≤ p.countP (· ∈ S) := by
  rw [List.countP_eq_length_filter, List.countP_eq_length_filter]
  refine ((hl.filter _).subperm fun x hx => ?_).length_le
  obtain ⟨hxl, hxp⟩ := List.mem_filter.mp hx
  exact List.mem_filter.mpr ⟨by simpa using hxp, by simpa using hS x hxl⟩

/-! ## the loop invariant -/

section
variable (S : Finset α) (par : α → List α)

/-- State of the loop: `done` are the finished nodes, `q` the waiting ones,
and a counter holds the entries not yet accounted for. -/
structure Inv (m : ExtTreeMap α ℕ) (q done : List α) : Prop where
  nodup : (done ++ q).Nodup
  mem : ∀ x ∈ done ++ q, x ∈ S
  count : ∀ c ∈ S, m.getD c 0 + done.countP (· ∈ par c) = (par c).countP (· ∈ S)
  zero : ∀ c ∈ S, m.getD c 0 = 0 ↔ c ∈ done ++ q

variable {S par}

theorem Inv.length_le {m : ExtTreeMap α ℕ} {q done : List α} (h : Inv S par m q done) :
    done.length + q.length ≤ S.card := by
  rw [← List.length_append, ← List.toFinset_card_of_nodup h.nodup]
  exact Finset.card_le_card fun x hx => h.mem x (List.mem_toFinset.mp hx)

/-- A child of the node to be finished next still has a positive counter. -/
theorem Inv.pos {m : ExtTreeMap α ℕ} {q q' done : List α} {cur c : α} (h : Inv S par m q done)
    (hq : List.Perm q (cur :: q')) (hc : c ∈ S) (hcur : cur ∈ par c) : 0 < m.getD c 0 := by
  have hperm : List.Perm (done ++ q) ((done ++ [cur]) ++ q') := by
    rw [List.append_assoc]; exact List.Perm.append_left done hq
  have hle := countP_mem_le (p := par c) (List.nodup_append.mp (hperm.nodup_iff.mp h.nodup)).1
    fun x hx => h.mem x (hperm.mem_iff.mpr (List.mem_append_left _ hx))
  rw [List.countP_append, List.countP_singleton, if_pos (by simpa using hcur)] at hle
  have := h.count c hc
  omega

/-- **One round keeps the invariant.** -/
theorem Inv.step {succs : α → List α} {m : ExtTreeMap α ℕ} {q q' done : List α} {cur : α}
    (h : Inv S par m q done) (hq : List.Perm q (cur :: q'))
    (hnd : (succs cur).Nodup) (hs : ∀ c, c ∈ succs cur ↔ c ∈ S ∧ cur ∈ par c) :
    Inv S par ((succs cur).foldl relax (m, q')).1 ((succs cur).foldl relax (m, q')).2
      (done ++ [cur]) := by
  have hperm : List.Perm (done ++ q) ((done ++ [cur]) ++ q') := by
    rw [List.append_assoc]; exact List.Perm.append_left done hq
  have hnodup : ((done ++ [cur]) ++ q').Nodup := hperm.nodup_iff.mp h.nodup
  have hpos : ∀ c ∈ succs cur, 0 < m.getD c 0 := fun c hc =>
    h.pos hq ((hs c).mp hc).1 ((hs c).mp hc).2
  obtain ⟨hget, hqueue⟩ := foldl_relax (succs cur) m q' hnd hpos
  rw [hqueue]
  have hfresh : ∀ c ∈ (succs cur).filter (fun c => m.getD c 0 = 1),
      c ∉ (done ++ [cur]) ++ q' := by
    intro c hc hmem
    obtain ⟨hcs, hone⟩ := List.mem_filter.mp hc
    have hz := (h.zero c ((hs c).mp hcs).1).mpr (hperm.mem_iff.mpr hmem)
    simp [hz] at hone
  constructor
  · rw [← List.append_assoc, List.nodup_append]
    exact ⟨hnodup, hnd.filter _, fun a ha b hb hab => hfresh b hb (hab ▸ ha)⟩
  · intro x hx
    rw [← List.append_assoc, List.mem_append] at hx
    rcases hx with hx | hx
    · exact h.mem x (hperm.mem_iff.mpr hx)
    · exact ((hs x).mp (List.mem_filter.mp hx).1).1
  · intro c hcS
    rw [hget c, List.countP_append, List.countP_singleton]
    have hcount := h.count c hcS
    by_cases hc : c ∈ succs cur
    · have := hpos c hc
      rw [if_pos hc, if_pos (by simpa using ((hs c).mp hc).2)]
      omega
    · have hcur : cur ∉ par c := fun hp => hc ((hs c).mpr ⟨hcS, hp⟩)
      rw [if_neg hc, if_neg (by simpa using hcur)]
      omega
  · intro c hcS
    rw [hget c, ← List.append_assoc, List.mem_append, ← hperm.mem_iff, ← h.zero c hcS,
      List.mem_filter]
    by_cases hc : c ∈ succs cur
    · have := hpos c hc
      simp only [hc, if_true, true_and, decide_eq_true_eq]
      omega
    · simp [hc]

/-- **The loop ends within one round per node**, and then nothing waits. -/
theorem exists_drain {pick : List α → Option (α × List α)} (hpick : Lawful pick)
    {succs : α → List α} (hnd : ∀ p ∈ S, (succs p).Nodup)
    (hs : ∀ p ∈ S, ∀ c, c ∈ succs p ↔ c ∈ S ∧ p ∈ par c) (fuel : ℕ)
    (m : ExtTreeMap α ℕ) (q done : List α) (h : Inv S par m q done)
    (hfuel : S.card < done.length + fuel) :
    ∃ m' out, drain pick succs fuel m q done = some out ∧ Inv S par m' [] out := by
  induction fuel generalizing m q done with
  | zero =>
      have := h.length_le
      omega
  | succ fuel ih =>
      by_cases hq : q = []
      · subst hq
        exact ⟨m, done, by rw [drain, hpick.nil], h⟩
      · obtain ⟨cur, q', heq, hperm⟩ := hpick.cons q hq
        have hcur : cur ∈ S :=
          h.mem cur (List.mem_append_right _ (hperm.mem_iff.mpr List.mem_cons_self))
        obtain ⟨m', out, hout, hinv⟩ := ih _ _ _
          (h.step hperm (hnd cur hcur) (hs cur hcur))
          (by rw [List.length_append, List.length_singleton]; omega)
        exact ⟨m', out, by rw [drain, heq]; exact hout, hinv⟩

/-! ## the frontier -/

/-- Distinct members of a set make up all entries that a list has in the set
just when the list repeats none of them and all are among the members. -/
theorem countP_mem_eq_iff {l p : List α} (hl : l.Nodup) (hS : ∀ x ∈ l, x ∈ S) :
    l.countP (· ∈ p) = p.countP (· ∈ S) ↔
      (p.filter (· ∈ S)).Nodup ∧ ∀ x ∈ p, x ∈ S → x ∈ l := by
  have hsub : (l.filter (· ∈ p)).Subperm (p.filter (· ∈ S)) := by
    refine (hl.filter _).subperm fun x hx => ?_
    obtain ⟨hxl, hxp⟩ := List.mem_filter.mp hx
    exact List.mem_filter.mpr ⟨by simpa using hxp, by simpa using hS x hxl⟩
  rw [List.countP_eq_length_filter, List.countP_eq_length_filter]
  constructor
  · intro hlen
    have hperm := hsub.perm_of_length_le hlen.ge
    refine ⟨hperm.nodup_iff.mp (hl.filter _), fun x hxp hxS => ?_⟩
    have hx : x ∈ l.filter (· ∈ p) :=
      hperm.mem_iff.mpr (List.mem_filter.mpr ⟨hxp, by simpa using hxS⟩)
    exact (List.mem_filter.mp hx).1
  · rintro ⟨hnd, hall⟩
    refine hsub.length_le.antisymm (hnd.subperm fun x hx => ?_).length_le
    obtain ⟨hxp, hxS⟩ := List.mem_filter.mp hx
    exact List.mem_filter.mpr ⟨hall x hxp (by simpa using hxS), by simpa using hxp⟩

/-- A node waits once all its parents are finished, provided that its list
names none of them twice. -/
structure Ready (S : Finset α) (par : α → List α) (done : List α) (c : α) : Prop where
  mem : c ∈ S
  notMem : c ∉ done
  nodup : ((par c).filter (· ∈ S)).Nodup
  parents : ∀ p ∈ par c, p ∈ S → p ∈ done

/-- **The frontier holds the ready nodes.** -/
theorem Inv.mem_frontier_iff {m : ExtTreeMap α ℕ} {q done : List α} (h : Inv S par m q done)
    (c : α) : c ∈ q ↔ Ready S par done c := by
  have hdone := List.nodup_append.mp h.nodup
  have hiff : c ∈ S → (c ∈ done ++ q ↔
      ((par c).filter (· ∈ S)).Nodup ∧ ∀ p ∈ par c, p ∈ S → p ∈ done) := by
    intro hc
    have hcount := h.count c hc
    rw [← h.zero c hc,
      ← countP_mem_eq_iff hdone.1 fun x hx => h.mem x (List.mem_append_left q hx)]
    omega
  constructor
  · intro hq
    have hmem : c ∈ done ++ q := List.mem_append_right done hq
    obtain ⟨hnd, hall⟩ := (hiff (h.mem c hmem)).mp hmem
    exact ⟨h.mem c hmem, fun hc => hdone.2.2 c hc c hq rfl, hnd, hall⟩
  · intro hr
    have hmem := (hiff hr.mem).mpr ⟨hr.nodup, hr.parents⟩
    exact (List.mem_append.mp hmem).resolve_left hr.notMem

/-- The result only grows. -/
theorem prefix_of_drain {pick : List α → Option (α × List α)} {succs : α → List α} {fuel : ℕ}
    {m : ExtTreeMap α ℕ} {q done out : List α} (h : drain pick succs fuel m q done = some out) :
    done <+: out := by
  induction fuel generalizing m q done with
  | zero => exact absurd h.symm (Option.some_ne_none out)
  | succ fuel ih =>
      rw [drain] at h
      split at h
      · exact Option.some.inj h ▸ List.prefix_rfl
      · exact (List.prefix_append done _).trans (ih h)

/-- **Every node is taken out of a frontier of exactly the ready nodes.** -/
theorem exists_pick_of_drain {pick : List α → Option (α × List α)} (hpick : Lawful pick)
    {succs : α → List α} (hnd : ∀ p ∈ S, (succs p).Nodup)
    (hs : ∀ p ∈ S, ∀ c, c ∈ succs p ↔ c ∈ S ∧ p ∈ par c) {fuel : ℕ}
    {m : ExtTreeMap α ℕ} {q done out : List α} (h : Inv S par m q done)
    (hrun : drain pick succs fuel m q done = some out) {l r : List α} {x : α}
    (hout : out = l ++ x :: r) (hlen : done.length ≤ l.length) :
    ∃ w w', pick w = some (x, w') ∧ ∀ c, c ∈ w ↔ Ready S par l c := by
  induction fuel generalizing m q done with
  | zero => exact absurd hrun.symm (Option.some_ne_none out)
  | succ fuel ih =>
      by_cases hq : q = []
      · -- nothing waits: the whole result is there already
        rw [hq, drain, hpick.nil, Option.some.injEq] at hrun
        rw [hrun, hout, List.length_append, List.length_cons] at hlen
        omega
      · obtain ⟨cur, q', heq, hperm⟩ := hpick.cons q hq
        have hcur : cur ∈ S :=
          h.mem cur (List.mem_append_right _ (hperm.mem_iff.mpr List.mem_cons_self))
        rw [drain, heq] at hrun
        obtain hlt | hlen := hlen.lt_or_eq
        · refine ih (h.step hperm (hnd cur hcur) (hs cur hcur)) hrun ?_
          rw [List.length_append, List.length_singleton]
          exact hlt
        · have hpre := prefix_of_drain hrun
          rw [hout, List.append_cons l x r] at hpre
          have hlast := List.prefix_of_prefix_length_le hpre (List.prefix_append (l ++ [x]) r)
            (by simp [hlen])
          obtain ⟨hl, hx⟩ := List.append_inj (hlast.eq_of_length (by simp [hlen])) hlen
          obtain rfl : cur = x := List.singleton_inj.mp hx
          exact ⟨q, q', heq, fun c => hl ▸ h.mem_frontier_iff c⟩

/-- The nodes that a run reaches: none of their ancestors in the set, nor they
themselves, name a parent in the set twice. -/
inductive Reached (S : Finset α) (par : α → List α) : α → Prop
  | intro {c : α} : c ∈ S → ((par c).filter (· ∈ S)).Nodup →
      (∀ p ∈ par c, p ∈ S → Reached S par p) → Reached S par c

theorem Inv.mem_of_reached {m : ExtTreeMap α ℕ} {done : List α} (h : Inv S par m [] done) {c : α}
    (hc : Reached S par c) : c ∈ done := by
  induction hc with
  | @intro c hcS hnd _ ih =>
      by_contra hc
      exact absurd ((h.mem_frontier_iff c).mpr ⟨hcS, hc, hnd, ih⟩) List.not_mem_nil

/-- Over a well-founded parent relation with repetition-free parent lists,
every node is reached. -/
theorem reached_of_nodup (hwf : WellFounded fun p c => p ∈ par c) (hnd : ∀ c ∈ S, (par c).Nodup)
    {c : α} (hc : c ∈ S) : Reached S par c := by
  induction c using hwf.induction with
  | _ c ih => exact .intro hc ((hnd c hc).filter _) fun p hp hpS => ih p hp hpS

/-! ## two families of parent lists -/

/-- Which nodes are ready depends on the members of the parent lists and on
the repeated ones only. -/
theorem ready_congr {par par' : α → List α} {done : List α} {c : α}
    (hmem : ∀ c ∈ S, ∀ p, p ∈ par' c ↔ p ∈ par c)
    (hrep : ∀ c ∈ S, ∀ p, List.Duplicate p (par' c) ↔ List.Duplicate p (par c)) :
    Ready S par' done c ↔ Ready S par done c := by
  have hnd : ∀ l : List α, (l.filter (· ∈ S)).Nodup ↔ ∀ p, List.Duplicate p l → p ∉ S := by
    intro l
    simp only [List.nodup_iff_forall_not_duplicate, List.duplicate_iff_two_le_count]
    refine forall_congr' fun p => ?_
    by_cases hp : p ∈ S
    · simp [List.count_filter, hp]
    · have hnot : p ∉ l.filter (· ∈ S) := fun h => hp (by simpa using (List.mem_filter.mp h).2)
      simp [List.count_eq_zero_of_not_mem hnot, hp]
  have hiff : c ∈ S → (((par' c).filter (· ∈ S)).Nodup ↔ ((par c).filter (· ∈ S)).Nodup) := by
    intro hc
    rw [hnd, hnd]
    exact forall_congr' fun p => by rw [hrep c hc]
  constructor
  · intro h
    exact ⟨h.mem, h.notMem, (hiff h.mem).mp h.nodup,
      fun p hp => h.parents p ((hmem c h.mem p).mpr hp)⟩
  · intro h
    exact ⟨h.mem, h.notMem, (hiff h.mem).mpr h.nodup,
      fun p hp => h.parents p ((hmem c h.mem p).mp hp)⟩

/-- Two loops with the same frontier run alike while the same nodes become
ready. -/
theorem drain_congr {par par' : α → List α} {pick : List α → Option (α × List α)}
    (hpick : Lawful pick) {succs : α → List α} (hnd : ∀ p ∈ S, (succs p).Nodup)
    (hs : ∀ p ∈ S, ∀ c, c ∈ succs p ↔ c ∈ S ∧ p ∈ par c)
    (hmem : ∀ c ∈ S, ∀ p, p ∈ par' c ↔ p ∈ par c)
    (hready : ∀ done c, Ready S par' done c ↔ Ready S par done c) {fuel : ℕ}
    {m m' : ExtTreeMap α ℕ} {q done : List α} (h : Inv S par m q done)
    (h' : Inv S par' m' q done) :
    drain pick succs fuel m' q done = drain pick succs fuel m q done := by
  induction fuel generalizing m m' q done with
  | zero => rfl
  | succ fuel ih =>
      by_cases hq : q = []
      · subst hq
        rw [drain, drain, hpick.nil]
      · obtain ⟨cur, q', heq, hperm⟩ := hpick.cons q hq
        have hcur : cur ∈ S :=
          h.mem cur (List.mem_append_right _ (hperm.mem_iff.mpr List.mem_cons_self))
        have hs' : ∀ c, c ∈ succs cur ↔ c ∈ S ∧ cur ∈ par' c := fun c =>
          (hs cur hcur c).trans (and_congr_right fun hc => (hmem c hc cur).symm)
        have hstep := h.step hperm (hnd cur hcur) (hs cur hcur)
        have hstep' := h'.step hperm (hnd cur hcur) hs'
        have hpos : ∀ c ∈ succs cur, 0 < m.getD c 0 := fun c hc =>
          h.pos hperm ((hs cur hcur c).mp hc).1 ((hs cur hcur c).mp hc).2
        have hpos' : ∀ c ∈ succs cur, 0 < m'.getD c 0 := fun c hc =>
          h'.pos hperm ((hs' c).mp hc).1 ((hs' c).mp hc).2
        have hnext := (foldl_relax _ m q' (hnd cur hcur) hpos).2
        have hnext' := (foldl_relax _ m' q' (hnd cur hcur) hpos').2
        -- a child joins the frontier in both loops or in neither
        have hone : ∀ c ∈ succs cur, (m'.getD c 0 = 1 ↔ m.getD c 0 = 1) := by
          intro c hc
          have hnot : c ∉ q' := fun hmem =>
            (hpos c hc).ne' ((h.zero c ((hs cur hcur c).mp hc).1).mpr
              (List.mem_append_right _ (hperm.mem_iff.mpr (List.mem_cons_of_mem cur hmem))))
          have hin := hstep.mem_frontier_iff c
          have hin' := hstep'.mem_frontier_iff c
          rw [hnext] at hin
          rw [hnext', hready] at hin'
          simpa [hnot, hc] using hin'.trans hin.symm
        have hqueue : ((succs cur).foldl relax (m', q')).2 =
            ((succs cur).foldl relax (m, q')).2 := by
          rw [hnext, hnext']
          exact congrArg _ (List.filter_congr fun c hc => by simp only [hone c hc])
        rw [drain, drain, heq]
        dsimp only
        rw [hqueue] at hstep' ⊢
        exact ih hstep hstep'

end

/-! ## the whole run -/

theorem getElem?_indegrees (par : α → List α) (ids : List α) (c : α) :
    (indegrees par ids)[c]? = if c ∈ ids then some ((par c).countP (· ∈ ids)) else none := by
  have hall := getElem?_foldl_insert ids (∅ : ExtTreeMap α ℕ) id
    (fun c => (par c).countP (· ∈ ids)) (fun c => (par c).countP (· ∈ ids)) (fun _ _ => rfl) c
  rw [List.map_id, ExtTreeMap.getElem?_empty] at hall
  exact hall

theorem mem_sources {m : ExtTreeMap α ℕ} {c : α} : c ∈ sources m ↔ m[c]? = some 0 := by
  simp [sources, ExtTreeMap.mem_toList_iff_getElem?_eq_some]

theorem pairwise_sources (m : ExtTreeMap α ℕ) : (sources m).Pairwise (· < ·) := by
  have hkeys : (m.toList.map Prod.fst).Pairwise (· < ·) := by
    rw [ExtTreeMap.map_fst_toList_eq_keys]
    exact pairwise_keys m
  exact hkeys.sublist (List.filter_sublist.map Prod.fst)

/-- The start of a run satisfies the loop invariant. -/
theorem inv_start (par : α → List α) (ids : List α) :
    Inv ids.toFinset par (indegrees par ids) (sources (indegrees par ids)) [] where
  nodup := by simpa using nodup_of_pairwise_lt (pairwise_sources _)
  mem x hx := by
    rw [List.nil_append, mem_sources, getElem?_indegrees] at hx
    by_contra hc
    rw [if_neg (by simpa using hc)] at hx
    exact Option.some_ne_none 0 hx.symm
  count c hc := by
    rw [ExtTreeMap.getD_eq_getD_getElem?, getElem?_indegrees, if_pos (by simpa using hc)]
    simp
  zero c hc := by
    rw [ExtTreeMap.getD_eq_getD_getElem?, List.nil_append, mem_sources, getElem?_indegrees,
      if_pos (by simpa using hc)]
    simp

section
variable {pick : List α → Option (α × List α)} (hpick : Lawful pick) (par : α → List α)
  {ids : List α} (hids : ids.Nodup)
include hpick hids

/-- **A run always ends**, in a state of the invariant with nothing waiting. -/
theorem exists_order :
    ∃ m out, order pick par ids = some out ∧ Inv ids.toFinset par m [] out :=
  exists_drain hpick (fun _ _ => hids.filter _)
    (fun p _ c => by simp [List.mem_filter]) _ _ _ _ (inv_start par ids)
    (by rw [List.toFinset_card_of_nodup hids]; simp)

theorem inv_of_order {out : List α} (h : order pick par ids = some out) :
    ∃ m, Inv ids.toFinset par m [] out := by
  obtain ⟨m, out', h', hinv⟩ := exists_order hpick par hids
  rw [h, Option.some.injEq] at h'
  exact ⟨m, h' ▸ hinv⟩

/-- The run outputs nodes of `ids` only. -/
theorem order_subset {out : List α} (h : order pick par ids = some out) : ∀ c ∈ out, c ∈ ids := by
  obtain ⟨m, hinv⟩ := inv_of_order hpick par hids h
  exact fun c hc => by simpa using hinv.mem c (by simpa using hc)

/-- The run outputs no node twice. -/
theorem order_nodup {out : List α} (h : order pick par ids = some out) : out.Nodup := by
  obtain ⟨m, hinv⟩ := inv_of_order hpick par hids h
  simpa using hinv.nodup

/-- **Each position of the result** is what the discipline takes out of a
frontier of exactly the nodes that are ready there. -/
theorem exists_pick_of_order {out l r : List α} {x : α} (h : order pick par ids = some out)
    (hout : out = l ++ x :: r) :
    ∃ w w', pick w = some (x, w') ∧ ∀ c, c ∈ w ↔ Ready ids.toFinset par l c :=
  exists_pick_of_drain hpick (fun _ _ => hids.filter _) (fun p _ c => by simp [List.mem_filter])
    (inv_start par ids) h hout (Nat.zero_le _)

theorem ready_of_order {out l r : List α} {x : α} (h : order pick par ids = some out)
    (hout : out = l ++ x :: r) : Ready ids.toFinset par l x := by
  obtain ⟨w, w', hw, hready⟩ := exists_pick_of_order hpick par hids h hout
  have hne : w ≠ [] := by
    rintro rfl
    rw [hpick.nil] at hw
    exact Option.some_ne_none _ hw.symm
  obtain ⟨a, q', ha, hperm⟩ := hpick.cons w hne
  obtain ⟨rfl, rfl⟩ := Prod.mk.injEq .. ▸ Option.some.inj (ha.symm.trans hw)
  exact (hready a).mp (hperm.mem_iff.mpr List.mem_cons_self)

/-- **The result is what can be reached**, under any discipline. -/
theorem mem_order_iff_reached {out : List α} (h : order pick par ids = some out) (c : α) :
    c ∈ out ↔ Reached ids.toFinset par c := by
  constructor
  · intro hc
    obtain ⟨l, r, hout⟩ := List.append_of_mem hc
    -- induction on the position: the parents stand earlier
    induction hn : l.length using Nat.strong_induction_on generalizing l c r with
    | _ n ih =>
      have hready := ready_of_order hpick par hids h hout
      refine .intro hready.mem hready.nodup fun p hp hpS => ?_
      have hpl := hready.parents p hp hpS
      obtain ⟨l₁, l₂, rfl⟩ := List.append_of_mem hpl
      refine ih l₁.length ?_ p ?_ l₁ (l₂ ++ c :: r) ?_ rfl
      · rw [← hn, List.length_append, List.length_cons]
        omega
      · rw [hout]
        exact List.mem_append_left _ hpl
      · rw [hout, List.append_assoc, List.cons_append]
  · intro hc
    obtain ⟨m, hinv⟩ := inv_of_order hpick par hids h
    exact hinv.mem_of_reached hc

/-- **Completeness**: over a well-founded parent relation with
repetition-free parent lists the run outputs every node. -/
theorem mem_order_iff (hwf : WellFounded fun p c => p ∈ par c) (hnd : ∀ c ∈ ids, (par c).Nodup)
    {out : List α} (h : order pick par ids = some out) (c : α) : c ∈ out ↔ c ∈ ids := by
  refine ⟨order_subset hpick par hids h c, fun hc => ?_⟩
  exact (mem_order_iff_reached hpick par hids h c).mpr
    (reached_of_nodup hwf (fun x hx => hnd x (by simpa using hx)) (by simpa using hc))

end

/-- **A run depends on the members of the parent lists and on the repeated
ones only.** -/
theorem order_congr {pick : List α → Option (α × List α)} (hpick : Lawful pick)
    {par par' : α → List α} {ids : List α} (hids : ids.Nodup)
    (hmem : ∀ c ∈ ids, ∀ p, p ∈ par' c ↔ p ∈ par c)
    (hrep : ∀ c ∈ ids, ∀ p, List.Duplicate p (par' c) ↔ List.Duplicate p (par c)) :
    order pick par' ids = order pick par ids := by
  have hin : ∀ c, c ∈ ids.toFinset → c ∈ ids := fun c => List.mem_toFinset.mp
  have hready : ∀ done c, Ready ids.toFinset par' done c ↔ Ready ids.toFinset par done c :=
    fun done c => ready_congr (fun c hc => hmem c (hin c hc)) fun c hc => hrep c (hin c hc)
  have hsuccs : (fun p => ids.filter fun c => p ∈ par' c) =
      fun p => ids.filter fun c => p ∈ par c := by
    funext p
    exact List.filter_congr fun c hc => by simp only [hmem c hc p]
  have hsources : sources (indegrees par' ids) = sources (indegrees par ids) := by
    refine eq_of_pairwise_lt (pairwise_sources _) (pairwise_sources _) fun c => ?_
    rw [(inv_start par' ids).mem_frontier_iff, (inv_start par ids).mem_frontier_iff, hready]
  have hinv' := inv_start par' ids
  rw [hsources] at hinv'
  rw [order, order, hsuccs, hsources]
  exact drain_congr hpick (fun _ _ => hids.filter _) (fun p _ c => by simp [List.mem_filter])
    (fun c hc => hmem c (hin c hc)) hready (inv_start par ids) hinv'

end Kahn
