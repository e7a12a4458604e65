import Mathlib

/-!
# GhostDag.Lib.Adjacency

Undirected graphs as lists of neighbours that grow at the end.

`Simple` says that the lists make up a simple graph: symmetric, without loops,
every neighbour listed once.  Connecting two new neighbours keeps it
(`Simple.connect`) and adds one to the degree of both.  `pairs` lists what a
nested loop over vertices and neighbours goes through, and `neighbours` goes
back from a list of edges to the neighbours.
-/

namespace Adjacency

variable {α β : Type*} [DecidableEq α]

/-- `b` becomes the last entry of `a`. -/
def push (adj : α → List β) (a : α) (b : β) : α → List β := Function.update adj a (adj a ++ [b])

/-- `a` and `b` become neighbours. -/
def connect (adj : α → List α) (a b : α) : α → List α := push (push adj a b) b a

/-- The lists of a simple graph. -/
structure Simple (adj : α → List α) : Prop where
  symm : ∀ a b, b ∈ adj a → a ∈ adj b
  irrefl : ∀ a, a ∉ adj a
  nodup : ∀ a, (adj a).Nodup

variable {adj : α → List α} {a b : α}

/-! ## one edge more -/

theorem push_apply {adj : α → List β} {b : β} (x : α) :
    push adj a b x = if x = a then adj a ++ [b] else adj x :=
  Function.update_apply adj a (adj a ++ [b]) x

theorem connect_left (hne : a ≠ b) : connect adj a b a = adj a ++ [b] := by
  rw [connect, push_apply, if_neg hne, push_apply, if_pos rfl]

theorem connect_right (hne : a ≠ b) : connect adj a b b = adj b ++ [a] := by
  rw [connect, push_apply, if_pos rfl, push_apply, if_neg hne.symm]

theorem connect_of_ne {x : α} (ha : x ≠ a) (hb : x ≠ b) : connect adj a b x = adj x := by
  rw [connect, push_apply, if_neg hb, push_apply, if_neg ha]

/-- The lists only grow. -/
theorem prefix_connect (hne : a ≠ b) (x : α) : adj x <+: connect adj a b x := by
  by_cases ha : x = a
  · rw [ha, connect_left hne]
    exact List.prefix_append _ _
  · by_cases hb : x = b
    · rw [hb, connect_right hne]
      exact List.prefix_append _ _
    · rw [connect_of_ne ha hb]

theorem mem_connect (hne : a ≠ b) {x y : α} :
    y ∈ connect adj a b x ↔ y ∈ adj x ∨ (x = a ∧ y = b) ∨ (x = b ∧ y = a) := by
  by_cases ha : x = a
  · subst ha
    rw [connect_left hne, List.mem_append, List.mem_singleton]
    simp [hne]
  · by_cases hb : x = b
    · subst hb
      rw [connect_right hne, List.mem_append, List.mem_singleton]
      simp [ha]
    · rw [connect_of_ne ha hb]
      simp [ha, hb]

/-- **Connecting** two vertices that are not neighbours. -/
theorem Simple.connect (h : Simple adj) (hne : a ≠ b) (hnew : b ∉ adj a) :
    Simple (connect adj a b) where
  symm x y hy := by
    rw [mem_connect hne] at hy ⊢
    rcases hy with hy | ⟨rfl, rfl⟩ | ⟨rfl, rfl⟩
    · exact .inl (h.symm x y hy)
    · exact .inr (.inr ⟨rfl, rfl⟩)
    · exact .inr (.inl ⟨rfl, rfl⟩)
  irrefl x hx := by
    rw [mem_connect hne] at hx
    rcases hx with hx | ⟨rfl, hab⟩ | ⟨rfl, hba⟩
    · exact h.irrefl x hx
    · exact hne hab
    · exact hne hba.symm
  nodup x := by
    by_cases ha : x = a
    · rw [ha, connect_left hne]
      exact List.concat_eq_append ▸ (h.nodup a).concat hnew
    · by_cases hb : x = b
      · rw [hb, connect_right hne]
        exact List.concat_eq_append ▸ (h.nodup b).concat fun hmem => hnew (h.symm b a hmem)
      · rw [connect_of_ne ha hb]
        exact h.nodup x

/-! ## loops over neighbours -/

/-- The vertices of `vs` with those of their entries in `f` that `p` lets
through. -/
def pairs (vs : List α) (f : α → List α) (p : α → α → Bool) : List (α × α) :=
  vs.flatMap fun a => ((f a).filter (p a)).map (Prod.mk a)

variable {vs : List α} {f : α → List α} {p : α → α → Bool}

omit [DecidableEq α] in
theorem mem_pairs {e : α × α} : e ∈ pairs vs f p ↔ e.1 ∈ vs ∧ e.2 ∈ f e.1 ∧ p e.1 e.2 = true := by
  obtain ⟨a, b⟩ := e
  simp only [pairs, List.mem_flatMap, List.mem_map, List.mem_filter, Prod.mk.injEq]
  constructor
  · rintro ⟨a, ha, b, ⟨hb, hp⟩, rfl, rfl⟩
    exact ⟨ha, hb, hp⟩
  · rintro ⟨ha, hb, hp⟩
    exact ⟨a, ha, b, ⟨hb, hp⟩, rfl, rfl⟩

omit [DecidableEq α] in
/-- No pair comes twice. -/
theorem nodup_pairs (hvs : vs.Nodup) (hf : ∀ a ∈ vs, (f a).Nodup) : (pairs vs f p).Nodup := by
  refine List.nodup_flatMap.mpr ⟨fun a ha => ?_, hvs.pairwise_of_forall_ne fun a _ b _ hne => ?_⟩
  · exact ((hf a ha).filter _).map (Prod.mk_right_injective a)
  · intro e he he'
    obtain ⟨x, -, rfl⟩ := List.mem_map.mp he
    obtain ⟨y, -, heq⟩ := List.mem_map.mp he'
    exact hne (congrArg Prod.fst heq).symm

/-- How often a pair comes, in either direction. -/
theorem countP_joins_eq_one {l : List (α × α)} (hl : l.Nodup) (hmem : (a, b) ∈ l)
    (hback : (b, a) ∉ l) : l.countP (fun e => e = (a, b) ∨ e = (b, a)) = 1 := by
  have hcongr : l.countP (fun e => e = (a, b) ∨ e = (b, a)) = l.count (a, b) := by
    rw [List.count]
    refine List.countP_congr fun e he => ?_
    rw [decide_eq_true_eq, beq_iff_eq]
    refine or_iff_left ?_
    rintro rfl
    exact hback he
  rw [hcongr]
  exact List.count_eq_one_of_mem hl hmem

/-! ## lists of edges -/

/-- The other end of `e`, for an end of `e`. -/
def otherEnd (a : α) (e : α × α) : List α :=
  (if e.1 = a then [e.2] else []) ++ if e.2 = a then [e.1] else []

/-- The neighbours of `a` over the edges in `l`. -/
def neighbours (l : List (α × α)) (a : α) : List α := l.flatMap (otherEnd a)

variable {l : List (α × α)}

theorem mem_otherEnd {e : α × α} : b ∈ otherEnd a e ↔ e = (a, b) ∨ e = (b, a) := by
  obtain ⟨x, y⟩ := e
  simp only [otherEnd, List.mem_append, List.mem_ite_nil_right, List.mem_singleton, Prod.mk.injEq]
  constructor
  · rintro (⟨rfl, rfl⟩ | ⟨rfl, rfl⟩)
    · exact .inl ⟨rfl, rfl⟩
    · exact .inr ⟨rfl, rfl⟩
  · rintro (⟨rfl, rfl⟩ | ⟨rfl, rfl⟩)
    · exact .inl ⟨rfl, rfl⟩
    · exact .inr ⟨rfl, rfl⟩

theorem mem_neighbours : b ∈ neighbours l a ↔ (a, b) ∈ l ∨ (b, a) ∈ l := by
  simp only [neighbours, List.mem_flatMap, mem_otherEnd, and_or_left, exists_or, exists_eq_right]

/-- A neighbour comes once if every edge is there once, in one direction. -/
theorem nodup_neighbours (hl : l.Nodup) (hback : ∀ a b, (a, b) ∈ l → (b, a) ∉ l) (a : α) :
    (neighbours l a).Nodup := by
  refine List.nodup_flatMap.mpr ⟨?_, hl.pairwise_of_forall_ne ?_⟩
  · rintro ⟨x, y⟩ he
    have hne : x ≠ y := by
      rintro rfl
      exact hback x x he he
    rw [otherEnd]
    split
    · next hx =>
        rw [if_neg fun hy => hne (hx.trans hy.symm), List.append_nil]
        exact List.nodup_singleton y
    · rw [List.nil_append]
      split
      · exact List.nodup_singleton x
      · exact List.nodup_nil
  · intro e he e' he' hne x hx hx'
    rcases mem_otherEnd.mp hx with rfl | rfl <;> rcases mem_otherEnd.mp hx' with rfl | rfl
    · exact hne rfl
    · exact hback _ _ he he'
    · exact hback _ _ he he'
    · exact hne rfl

/-- What both ends get for one more edge. -/
theorem push_push_apply {adj : α → List β} {b b' : β} (e : α × α) (x : α) :
    push (push adj e.1 b) e.2 b' x =
      adj x ++ ((if e.1 = x then [b] else []) ++ if e.2 = x then [b'] else []) := by
  have hpush : ∀ (adj : α → List β) (a x : α) (b : β),
      push adj a b x = adj x ++ if a = x then [b] else [] := by
    intro adj a x b
    rw [push_apply]
    by_cases ha : a = x
    · rw [if_pos ha.symm, if_pos ha, ha]
    · rw [if_neg (Ne.symm ha), if_neg ha, List.append_nil]
  rw [hpush, hpush, List.append_assoc]

end Adjacency
